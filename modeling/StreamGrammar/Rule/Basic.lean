import StreamGrammar.Datum
import StreamGrammar.Parser.Repetition
import StreamGrammar.Parser.Terminal

/-!
# Rules

A `Rule` is the tree of a grammar rule: terminals, the ways to put rules together, and references to
rules by name. What a rule does to an input is said in `Rule/Parser.lean`.

Two kinds of rules break the contract of parsers on purpose and remember things from run to run:
`unguarded` leaves the cursor where its last part left it, and `scripted` does what it was told,
whatever the input. They stand for code outside of the grammar that a grammar may call.
-/

namespace StreamGrammar

/-- Judges the elements of a repetition by all that have settled in this run, oldest first. -/
abbrev Rule.Judge := Array (Except Datum Datum) → Verdict Datum Datum

/-- One run of a scripted rule. -/
structure Rule.Move where
  /-- The position to put the cursor to first, if any. -/
  rewind : Option Int := none
  /-- The number of bytes to move by after that, if any. -/
  advance : Option Int := none
  /-- The answer. -/
  answer : Verdict Datum Datum

/-- The runs of a scripted rule: the first ones in order, and then the last one for ever. -/
structure Rule.Script where
  /-- The runs that are made once. -/
  moves : Array Rule.Move := #[]
  /-- The run that is made from then on. -/
  last : Rule.Move

/-- A grammar rule. -/
inductive Rule where
  /-- A single byte that passes `test`; yields its number. -/
  | byte (test : UInt8 → Bool) (expected : String)
  /-- A quoted text; yields the input that matched. -/
  | literal (text : Literal)
  /-- Yields the input that `body` matched. -/
  | captured (body : Rule)
  /-- Applies `f` to the value of a match. -/
  | map (f : Datum → Datum) (body : Rule)
  /-- Applies `f` to the reason of a mismatch. -/
  | mapError (f : Datum → Datum) (body : Rule)
  /-- The first of several rules that matches. -/
  | alternation (first : Rule) (others : List Rule)
  /-- `body` or nothing. -/
  | optional (body : Rule)
  /-- Several rules one after the other; yields the list of their values. -/
  | concatenation (parts : List Rule)
  /-- `body` as often as it is there; yields the list of the values. -/
  | star (body : Rule)
  /-- `body` at least once. If it is not there at all, its error is adapted. -/
  | plus (adapt : Datum → Datum) (body : Rule)
  /-- `body` as often as it is there, within `bounds`. -/
  | repetition (bounds : Bounds) (body : Rule)
  /-- `body` at least once, with separators between. -/
  | sepBy (body separator : Rule)
  /-- `body`, with the cursor put back unless it matches. -/
  | rewinding (body : Rule)
  /-- `body`, with the cursor put back unless it matches with a value other than `null`. -/
  | found (body : Rule)
  /-- The first of several rules that does not come back with `null`. -/
  | firstFound (alternatives : List Rule)
  /-- `body` until `judge` ends the repetition. -/
  | repeating (judge : Rule.Judge) (body : Rule)
  /-- `body` until `judge` ends the repetition, at least once. -/
  | repeatingSome (judge : Rule.Judge) (adapt : Datum → Datum) (body : Rule)
  /-- The rule of that name. -/
  | ref (name : String)
  /-- Several rules one after the other, with the cursor left where the last one leaves it. -/
  | unguarded (parts : List Rule)
  /-- A rule that follows a script. How often it has been run is kept in the memory, at `slot`. -/
  | scripted (slot : Nat) (script : Rule.Script)

end StreamGrammar
