import Provenance.Json.Literal

/-! # Written values

Values are written without blanks, the members of an object in a fixed order.
-/

namespace Provenance.Json

def digitChar (n : Nat) : Char := Char.ofNat ('0'.toNat + n)

/-- The decimal digits of a number, without leading zeros. -/
def writeNat (n : Nat) : List Char :=
  if n < 10 then [digitChar n] else writeNat (n / 10) ++ [digitChar (n % 10)]

def writeInt : Int → List Char
  | .ofNat n => writeNat n
  | .negSucc n => '-' :: writeNat (n + 1)

def writeBool : Bool → List Char
  | true => ['t', 'r', 'u', 'e']
  | false => ['f', 'a', 'l', 's', 'e']

def writeString (s : String) : List Char := writeLiteral s.toList

/-- Written values with commas between them. -/
def commas : List (List Char) → List Char
  | [] => []
  | [a] => a
  | a :: as => a ++ ',' :: commas as

def writeList (items : List (List Char)) : List Char := '[' :: (commas items ++ [']'])

def writeMember (name : String) (value : List Char) : List Char :=
  writeString name ++ ':' :: value

def writeObject (members : List (String × List Char)) : List Char :=
  '{' :: (commas (members.map fun (name, value) => writeMember name value) ++ ['}'])

end Provenance.Json
