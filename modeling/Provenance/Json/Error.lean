import Provenance.Text.Shown

/-! # Errors of reading

A text can break off, break the rules of the format, or hold a value of another type than wanted.
-/

namespace Provenance.Json

/-- What stands at the start of a value. A list or an object is known by its bracket alone. -/
inductive Token where
  | null
  | boolean (value : Bool)
  | integer (value : Int)
  | fraction
  | string (value : List Char)
  | list
  | object
deriving DecidableEq

namespace Token

def message : Token → String
  | .null => "null"
  | .boolean true => "boolean `true`"
  | .boolean false => "boolean `false`"
  | .integer value => "integer `" ++ toString value ++ "`"
  | .fraction => "floating point number"
  | .string value => "string " ++ String.ofList (Text.shown value)
  | .list => "sequence"
  | .object => "map"

end Token

/-- What a reader wants to find. -/
inductive Wanted where
  | int64
  | uint32
  | string
  | boolean
  | unit
  | list
  | map
  | record (name : String)
deriving DecidableEq

namespace Wanted

def message : Wanted → String
  | .int64 => "i64"
  | .uint32 => "u32"
  | .string => "a string"
  | .boolean => "a boolean"
  | .unit => "unit"
  | .list => "a sequence"
  | .map => "a map"
  | .record name => "struct " ++ name

end Wanted

/-- Why a value that keeps to the format is not of the wanted type. -/
inductive Mismatch where
  | wrongType (found : Token) (wanted : Wanted)
  | outOfRange (value : Int) (wanted : Wanted)
  | wrongLength (length : Nat) (record : String) (fields : Nat)
  | missingField (name : String)
  | duplicateField (name : String)
  | unknownVariant (name : List Char) (known : List String)
deriving DecidableEq

namespace Mismatch

def quoted (name : String) : String := "`" ++ name ++ "`"

/-- The names that a message offers instead of an unknown one. -/
def choice : List String → String
  | [] => "nothing"
  | [a] => quoted a
  | [a, b] => quoted a ++ " or " ++ quoted b
  | names => "one of " ++ ", ".intercalate (names.map quoted)

def message : Mismatch → String
  | .wrongType found wanted =>
      "invalid type: " ++ found.message ++ ", expected " ++ wanted.message
  | .outOfRange value wanted =>
      "invalid value: " ++ (Token.integer value).message ++ ", expected " ++ wanted.message
  | .wrongLength length record fields =>
      "invalid length " ++ toString length ++ ", expected struct " ++ record ++ " with " ++
        toString fields ++ (if fields = 1 then " element" else " elements")
  | .missingField name => "missing field " ++ quoted name
  | .duplicateField name => "duplicate field " ++ quoted name
  | .unknownVariant name known =>
      "unknown variant " ++ quoted (String.ofList name) ++ ", expected " ++ choice known

end Mismatch

inductive Error where
  | malformed
  | truncated
  | mismatch (cause : Mismatch)
deriving DecidableEq

namespace Error

def message : Error → String
  | .malformed => "the text is not well formed"
  | .truncated => "the text breaks off"
  | .mismatch cause => cause.message

end Error

end Provenance.Json
