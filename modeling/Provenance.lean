import Provenance.Graph.Dominance
import Provenance.Graph.Derived
import Provenance.Graph.Order
import Provenance.Graph.Paths
import Provenance.Graph.Search
import Provenance.History.Load
import Provenance.History.Query
import Provenance.Config.Codec
import Provenance.Proofs.Arena
import Provenance.Proofs.Digraph.TopologicalOrder
import Provenance.Proofs.Digraph.Reach
import Provenance.Proofs.Graph.Valid
import Provenance.Proofs.Graph.Operations
import Provenance.Proofs.Graph.Runs
import Provenance.Proofs.Graph.Ledger
import Provenance.Proofs.Graph.Refinement
import Provenance.Proofs.Graph.Answers
import Provenance.Proofs.Graph.Snapshot
import Provenance.Proofs.Graph.Joins
import Provenance.Proofs.Graph.Derived
import Provenance.Proofs.Json.Numerals
import Provenance.Proofs.Json.ReadBack
import Provenance.Proofs.Image.ReadBack
import Provenance.Proofs.History.Valid
import Provenance.Proofs.History.Runs
import Provenance.Proofs.History.Ancestry
import Provenance.Proofs.History.Cloud
import Provenance.Proofs.History.Loading
import Provenance.Proofs.History.Reload
import Provenance.Proofs.History.Reduction
import Provenance.Proofs.Digraph.Cycles
import Provenance.Proofs.Digraph.Routes
import Provenance.Proofs.Digraph.Paths
import Provenance.Proofs.History.Paths
import Provenance.Proofs.History.Listings
import Provenance.Proofs.Graph.Cycles
import Provenance.Proofs.Graph.Reached
import Provenance.Proofs.Graph.Outline
import Provenance.Proofs.Graph.Copied
import Provenance.Proofs.Graph.Algebra
import Provenance.Proofs.History.Cycles
import Provenance.Proofs.ArenaAges
import Provenance.Proofs.Graph.Handles
import Provenance.Proofs.Tables.Basic
import Provenance.Proofs.Tables.Searches
import Provenance.Proofs.Tables.Dominators
import Provenance.Proofs.Tables.Walks
import Provenance.Proofs.Tables.Mutations
import Provenance.Proofs.Tables.Layout
import Provenance.Proofs.Tables.Cycles
import Provenance.Proofs.Tables.Answers
import Provenance.Proofs.Tables.Copies
import Provenance.Proofs.Digraph.CarriedRoutes
import Provenance.Proofs.Digraph.Parts
import Provenance.Proofs.Graph.Around
import Provenance.Proofs.Graph.Undisturbed
import Provenance.Proofs.Graph.Crowned
import Provenance.Proofs.History.Unrelated
import Provenance.Proofs.Graph.Found
import Provenance.Proofs.Graph.Thinned
import Provenance.Proofs.History.Found
import Provenance.Proofs.History.Unnoticed
import Provenance.Proofs.History.Reordered
import Provenance.Proofs.History.Views
import Provenance.Proofs.Graph.ImmediateDominators
import Provenance.Proofs.Graph.Components
import Provenance.Proofs.Graph.Reduced
import Provenance.Proofs.Digraph.Farthest
import Provenance.Proofs.Graph.ShortestPaths
import Provenance.Proofs.Graph.LongestPaths
import Provenance.Proofs.Graph.Closed
import Provenance.Proofs.History.Derived
import Provenance.Proofs.Graph.Distances
import Provenance.Proofs.Digraph.Depth
import Provenance.Proofs.Graph.Sorted
import Provenance.Proofs.Digraph.Discovery
import Provenance.Proofs.Graph.Dominated
import Provenance.Proofs.History.TakenOut
import Provenance.Proofs.History.Turned
import Provenance.Proofs.History.FirstFiles
import Provenance.Proofs.History.LongestChains
import Provenance.Proofs.Digraph.RecursiveWalk
import Provenance.Proofs.Digraph.Queue
import Provenance.Proofs.Graph.Discovered
import Provenance.Proofs.Digraph.Finishing
import Provenance.Proofs.Digraph.Sweeping
import Provenance.Proofs.Digraph.Retracing
import Provenance.Proofs.Digraph.WeakComponents
import Provenance.Proofs.Graph.WeakComponents
import Provenance.Proofs.Graph.Numbered
import Provenance.Proofs.History.Ends
import Provenance.Proofs.History.LoadedRecords
import Provenance.Proofs.History.CollectedActions
import Provenance.Proofs.Json.Grammar
import Provenance.Proofs.Json.Objects
import Provenance.Proofs.Json.Spelled
import Provenance.Proofs.Image.KnownKeys
import Provenance.Proofs.Json.BrokenOff
import Provenance.Proofs.History.BrokenOff
