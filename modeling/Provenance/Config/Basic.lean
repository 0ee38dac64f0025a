import Provenance.Direction
import Provenance.Text.Blank

/-! # Configuration of a history -/

namespace Provenance

/-- `timing` asks for a log of elapsed times and changes no result. -/
structure Config where
  direction : Direction := default
  reduceOnLoad : Bool := false
  timing : Bool := false
deriving DecidableEq

namespace Config

instance : Inhabited Config := ⟨{}⟩

def timingVariable : String := "LINEAGE_HISTORY_TIMING"

def reduceVariable : String := "LINEAGE_HISTORY_REDUCE"

/-- A flag is on if its text is `1`, or `true` in any ASCII case, between blanks. -/
def isOn (value : String) : Bool :=
  let value := Text.trimBlank value.toList
  value == ['1'] || value.map Char.toLower == ['t', 'r', 'u', 'e']

/-- Takes over the flags that have a value in the given table. -/
def withOverrides (config : Config) (lookup : String → Option String) : Config where
  direction := config.direction
  reduceOnLoad := ((lookup reduceVariable).map isOn).getD config.reduceOnLoad
  timing := ((lookup timingVariable).map isOn).getD config.timing

end Config

end Provenance
