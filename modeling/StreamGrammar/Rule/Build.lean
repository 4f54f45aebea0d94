import StreamGrammar.Rule.Basic

/-!
# Building rules

The rules that are built from numbers and texts. Where these make no rule, building fails
(`BuildError`): a quoted text must be US-ASCII, since other characters would reach the input as
several bytes, and the bounds of a repetition must be in order and not negative.
-/

namespace StreamGrammar

/-- A bound of a repetition, as it is asked for. -/
inductive Bound where
  /-- Below every number. -/
  | negInfinity
  /-- A number. -/
  | finite (n : Int)
  /-- Above every number. -/
  | infinity
  deriving DecidableEq

namespace Bound

/-- The text of a bound. -/
def text : Bound → String
  | negInfinity => "-Infinity"
  | finite n => toString n
  | infinity => "Infinity"

/-- The count that a bound stands for, unless it is negative. -/
def count? : Bound → Option Count
  | negInfinity => none
  | finite n => if n < 0 then none else some (.times n.toNat)
  | infinity => some .unbounded

end Bound

/-- Why no rule can be built. -/
inductive BuildError where
  /-- The text of a literal is not US-ASCII. -/
  | notAscii (text : Text.Units)
  /-- The bounds of a repetition are negative or out of order. -/
  | invalidBounds (min max : Bound)
  deriving DecidableEq

namespace BuildError

/-- The kind of an error, as reports name it. -/
def name (_ : BuildError) : String := "RangeError"

/-- The sentence that reports an error. -/
def message : BuildError → String
  | notAscii text => s!"Literal {Text.quoted text} is not US-ASCII"
  | invalidBounds min max => s!"Invalid repetition bounds {min.text}*{max.text}"

end BuildError

/-- The bytes of US-ASCII units are US-ASCII. -/
theorem Literal.ascii_of_units {text : Text.Units} (h : text.all (· < 0x80) = true) :
    (text.map (·.toUInt8)).all (· < 0x80) = true := by
  rw [List.all_map, List.all_eq_true]
  intro unit hunit
  have hlt := UInt16.lt_iff_toNat_lt.mp (of_decide_eq_true (List.all_eq_true.mp h unit hunit))
  rw [Function.comp_apply, decide_eq_true_iff, UInt8.lt_iff_toNat_lt, UInt16.toNat_toUInt8]
  exact Nat.lt_of_le_of_lt (Nat.mod_le _ _) hlt

/-- The quoted terminal of a text. -/
def Literal.ofUnits (text : Text.Units) (caseSensitive : Bool) : Except BuildError Literal :=
  if h : text.all (· < 0x80) = true then
    .ok ⟨text.map (·.toUInt8), caseSensitive, Literal.ascii_of_units h⟩
  else .error (.notAscii text)

/-- The bounds of a repetition from `min` to `max`. -/
def Bounds.ofBounds (min max : Bound) : Except BuildError Bounds :=
  match min.count?, max.count? with
  | some least, some greatest =>
    if h : least.le greatest = true then .ok ⟨least, greatest, h⟩
    else .error (.invalidBounds min max)
  | _, _ => .error (.invalidBounds min max)

namespace Rule

/-- A quoted text. -/
def ofText (text : Text.Units) (caseSensitive : Bool) : Except BuildError Rule :=
  literal <$> Literal.ofUnits text caseSensitive

/-- `body` as often as it is there, from `min` to `max` times. -/
def bounded (min max : Bound) (body : Rule) : Except BuildError Rule :=
  (repetition · body) <$> Bounds.ofBounds min max

/-- `body` exactly `n` times. -/
def count (n : Bound) (body : Rule) : Except BuildError Rule := bounded n n body

/-- A byte whose number is in one of the given ranges, ends included. -/
def byteIn (ranges : List (Int × Int)) (expected : String) : Rule :=
  byte (fun value => ranges.any fun (low, high) => low ≤ value.toNat && value.toNat ≤ high) expected

/-- A byte whose number is in a range, ends included. -/
def range (min max : Int) (expected : Option String) : Rule :=
  byteIn [(min, max)] (expected.getD (Mismatch.ofRange min max))

/-- The byte of a number. -/
def value (code : Int) (expected : Option String) : Rule :=
  byteIn [(code, code)] (expected.getD (Mismatch.ofValue code))

end Rule

end StreamGrammar
