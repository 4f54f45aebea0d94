import StreamGrammar.Text.Hex

/-!
# Mismatches

Why input does not match: what a rule expected, and where.
-/

namespace StreamGrammar

/-- The reason of a mismatch. -/
structure Mismatch where
  /-- What was expected, in the words of the grammar. -/
  expected : String
  /-- The offset at which it was expected. -/
  position : Int
  deriving DecidableEq

namespace Mismatch

/-- The kind of a mismatch, as reports name it. -/
def name (_ : Mismatch) : String := "SyntaxMismatchError"

/-- The sentence that reports a mismatch. -/
def message (m : Mismatch) : String := s!"Expected {m.expected} at {m.position}"

/-- The mismatch of a repetition none of whose elements was there, at the place of the first. -/
def atLeastOne (label : String) (m : Mismatch) : Mismatch :=
  ⟨"at least one " ++ label, m.position⟩

/-- What a value range expects: its ends as hexadecimal terminals. -/
def ofRange (min max : Int) : String := "%x" ++ Text.hexNumber min ++ "-" ++ Text.hexNumber max

/-- What a terminal value expects: its number as a hexadecimal terminal. -/
def ofValue (code : Int) : String := "%x" ++ Text.hexNumber code

end Mismatch

end StreamGrammar
