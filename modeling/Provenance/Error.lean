import Provenance.Graph.Error
import Provenance.Image.Basic
import Provenance.Json.Error

/-! # Errors of a history -/

namespace Provenance

inductive HistoryError where
  | graph (cause : GraphError)
  | json (cause : Json.Error)
  | unknownImage (id : ImageId)
  | conflictingDuplicate (existing duplicate : ImageId)
deriving DecidableEq

namespace HistoryError

def message : HistoryError → String
  | .graph cause => cause.message
  | .json cause => "Invalid history JSON: " ++ cause.message
  | .unknownImage id => "Image " ++ id.text ++ " is not part of this history"
  | .conflictingDuplicate existing duplicate =>
      "Image " ++ duplicate.text ++ " already belongs to another version than image " ++
        existing.text

end HistoryError

end Provenance
