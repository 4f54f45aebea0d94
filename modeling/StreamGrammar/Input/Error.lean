/-!
# Misuse of an input

The four ways to ask an input for what it cannot give. None of them is an answer about a grammar:
a call that fails with one of these leaves the input as it was.
-/

namespace StreamGrammar.Input

/-- Why a call on an input was refused. -/
inductive Error where
  /-- Bytes were appended after the input had been ended. -/
  | ended
  /-- The cursor cannot move by `count` bytes when `available` are left. -/
  | beyond (count : Int) (available : Nat)
  /-- The range `[low, high)` does not lie within the held bytes `[start, stop)`. -/
  | outside (low high : Int) (start stop : Nat)
  /-- The position is not among the held bytes. -/
  | released (position : Int)
  deriving DecidableEq

/-- The kind of an error, as reports name it. -/
def Error.name : Error → String
  | ended => "InputEndedError"
  | _ => "RangeError"

/-- The sentence that reports an error. -/
def Error.message : Error → String
  | ended => "Cannot append to an ended input"
  | beyond count available => s!"Cannot advance by {count} with {available} bytes available"
  | outside low high start stop => s!"Range {low}..{high} is outside of {start}..{stop}"
  | released position => s!"Position {position} is no longer buffered"

end StreamGrammar.Input
