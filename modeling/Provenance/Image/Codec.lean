import Provenance.Image.Version
import Provenance.Json.Record
import Provenance.Json.Variant
import Provenance.Json.Written

/-! # Written forms of images, actions and versions

Each type has a decoder, and a written form that the decoder reads back.
-/

namespace Provenance

open Json

namespace ImageId

def decoder : Decoder ImageId := Decoder.int64.map ImageId.mk

def written (id : ImageId) : List Char := writeInt id.value.toInt

end ImageId

namespace Relation

structure Draft where
  subject : Option ImageId := none
  object : Option ImageId := none

def schema : Schema Draft Relation where
  name := "ImageRelation"
  blank := {}
  fields :=
    [⟨"subject", (·.subject.isSome), ImageId.decoder.map fun id d => { d with subject := some id }⟩,
     ⟨"object", (·.object.isSome), ImageId.decoder.map fun id d => { d with object := some id }⟩]
  complete d := do return ⟨← d.subject, ← d.object⟩

def decoder : Decoder Relation := schema.decoder

def written (r : Relation) : List Char :=
  writeObject [("subject", r.subject.written), ("object", r.object.written)]

end Relation

namespace Category

def name : Category → String
  | .reproducible => "reproducible"
  | .complex => "complex"
  | .documented => "documented"

def named : List (String × Category) :=
  [.reproducible, .complex, .documented].map fun category => (category.name, category)

def decoder : Decoder Category := Decoder.variant named

def written (category : Category) : List Char := writeString category.name

end Category

namespace Action

structure Draft where
  identifier : Option String := none
  version : Option UInt32 := none
  category : Option Category := none
  params : Option Params := none

/-- A field that is not set has its default. -/
def schema : Schema Draft Action where
  name := "FilterAction"
  blank := {}
  fields :=
    [⟨"identifier", (·.identifier.isSome),
       Decoder.string.map fun s d => { d with identifier := some s }⟩,
     ⟨"version", (·.version.isSome), Decoder.uint32.map fun n d => { d with version := some n }⟩,
     ⟨"category", (·.category.isSome),
       Category.decoder.map fun c d => { d with category := some c }⟩,
     ⟨"params", (·.params.isSome),
       Decoder.string.stringMap.map fun m d => { d with params := some m }⟩]
  complete d := some
    { identifier := d.identifier.getD ""
      version := d.version.getD 0
      category := d.category.getD default
      params := d.params.getD ∅ }

def decoder : Decoder Action := schema.decoder

def written (action : Action) : List Char :=
  writeObject
    [("identifier", writeString action.identifier),
     ("version", writeNat action.version.toNat),
     ("category", action.category.written),
     ("params", writeObject (action.params.toList.map fun (key, value) =>
       (key, writeString value)))]

end Action

namespace Version

def schema : Schema (Option (List ImageId)) Version where
  name := "HistoryVertex"
  blank := none
  fields := [⟨"imageIds", Option.isSome, ImageId.decoder.list.map fun ids _ => some ids⟩]
  complete ids := ids.map Version.mk

def decoder : Decoder Version := schema.decoder

def written (version : Version) : List Char :=
  writeObject [("imageIds", writeList (version.ids.map ImageId.written))]

end Version

namespace Derivation

def schema : Schema (Option (List Action)) Derivation where
  name := "HistoryEdge"
  blank := none
  fields := [⟨"actions", Option.isSome, Action.decoder.list.map fun actions _ => some actions⟩]
  complete actions := actions.map Derivation.mk

def decoder : Decoder Derivation := schema.decoder

def written (derivation : Derivation) : List Char :=
  writeObject [("actions", writeList (derivation.actions.map Action.written))]

end Derivation

end Provenance
