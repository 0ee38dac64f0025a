import Provenance.History.Basic
import Provenance.Image.Codec

/-! # Saving and loading

A history is saved as the list of its relations.
-/

namespace Provenance

namespace Relation

def listOfJson (text : String) : Except HistoryError (List Relation) :=
  (decoder.list.decode text).mapError .json

def listToJson (relations : List Relation) : String :=
  String.ofList (Json.writeList (relations.map written))

end Relation

namespace History

def ofJson (text : String) (config : Config) : Except HistoryError History := do
  ofRelations (← Relation.listOfJson text) config

end History

end Provenance
