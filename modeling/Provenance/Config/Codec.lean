import Provenance.Config.Basic
import Provenance.Error
import Provenance.Json.Record
import Provenance.Json.Variant
import Provenance.Json.Written

/-! # Written form of a configuration -/

namespace Provenance

open Json

namespace Direction

def name : Direction → String
  | .parentToChild => "parentToChild"
  | .childToParent => "childToParent"

def named : List (String × Direction) :=
  [.parentToChild, .childToParent].map fun direction => (direction.name, direction)

def decoder : Decoder Direction := Decoder.variant named

def written (direction : Direction) : List Char := writeString direction.name

end Direction

namespace Config

structure Draft where
  direction : Option Direction := none
  reduceOnLoad : Option Bool := none
  timing : Option Bool := none

/-- A field that is not set has its default. -/
def schema : Schema Draft Config where
  name := "HistoryConfig"
  blank := {}
  fields :=
    [⟨"direction", (·.direction.isSome),
       Direction.decoder.map fun direction d => { d with direction := some direction }⟩,
     ⟨"reduceOnLoad", (·.reduceOnLoad.isSome),
       Decoder.boolean.map fun b d => { d with reduceOnLoad := some b }⟩,
     ⟨"timing", (·.timing.isSome), Decoder.boolean.map fun b d => { d with timing := some b }⟩]
  complete d := some
    { direction := d.direction.getD default
      reduceOnLoad := d.reduceOnLoad.getD false
      timing := d.timing.getD false }

def decoder : Decoder Config := schema.decoder

def written (config : Config) : List Char :=
  writeObject
    [("direction", config.direction.written),
     ("reduceOnLoad", writeBool config.reduceOnLoad),
     ("timing", writeBool config.timing)]

def ofJson (text : String) : Except HistoryError Config :=
  (decoder.decode text).mapError .json

def toJson (config : Config) : String := String.ofList config.written

end Config

end Provenance
