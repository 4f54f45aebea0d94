import StreamGrammar.Datum

/-!
# Parameters

A parameter of a signature header: a key and a value. Rules hand it over as a record.
-/

namespace StreamGrammar.Header

/-- A parameter. -/
structure Param where
  /-- The key. -/
  key : String
  /-- The value, without quotes. -/
  value : String
  deriving DecidableEq

namespace Param

/-- The record of a key and a value. -/
def record (key value : Datum) : Datum := .record [("key", key), ("value", value)]

/-- The parameter as a value of a rule. -/
def toDatum (p : Param) : Datum := record (.text p.key) (.text p.value)

/-- The parameter that a value of a rule stands for. -/
def ofDatum? : Datum → Option Param
  | .record [("key", .text key), ("value", .text value)] => some ⟨key, value⟩
  | _ => none

/-- The parameters in a list of values. -/
def listOfDatum : Datum → List Param
  | .list items => items.filterMap ofDatum?
  | _ => []

/-- A parameter can be read back from its record. -/
theorem ofDatum?_toDatum (p : Param) : ofDatum? p.toDatum = some p := rfl

end Param

end StreamGrammar.Header
