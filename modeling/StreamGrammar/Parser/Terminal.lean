import StreamGrammar.Mismatch
import StreamGrammar.Parser.Basic
import StreamGrammar.Text.Latin
import StreamGrammar.Text.Quoted

/-!
# Terminals

The parsers that look at bytes: a single byte of some set, and a quoted text. They decide as soon as
the bytes that have arrived allow it. A byte that differs is a mismatch even when the rest of a text
has not arrived, and the end of the input is one when a byte is still missing.
-/

namespace StreamGrammar

namespace Parser

variable {σ α : Type}

/-- The answer where a byte is missing: the input may still grow, or it is too short. -/
def missing (expected : String) : Parser σ Mismatch α := do
  if ← ended then reject ⟨expected, ← position⟩ else wait

/-- The answer where the input differs from what was expected at the cursor. -/
def differing (expected : String) : Parser σ Mismatch α := do
  reject ⟨expected, ← position⟩

/-- Matches a single byte that passes `test`. -/
def byte (test : UInt8 → Bool) (expected : String) : Parser σ Mismatch UInt8 := do
  match ← peek 0 with
  | none => missing expected
  | some value =>
    if test value then
      advance 1
      return value
    else differing expected

end Parser

/-- The text of a quoted terminal. It is US-ASCII, so its characters are the bytes of the input. -/
structure Literal where
  /-- The characters, in order. -/
  codes : List UInt8
  /-- Whether upper and lower case differ. -/
  caseSensitive : Bool := false
  /-- All characters are US-ASCII. -/
  ascii : codes.all (· < 0x80) = true := by decide

namespace Literal

/-- The lower-case form of a letter; all other bytes are left alone. -/
def fold (code : UInt8) : UInt8 := if 0x41 ≤ code ∧ code ≤ 0x5A then code + 0x20 else code

/-- Whether a byte of the input stands for a character of the text. -/
def agrees (l : Literal) (value code : UInt8) : Bool :=
  if l.caseSensitive then value == code else fold value == fold code

/-- What the terminal expects, as a grammar writes it. -/
def expected (l : Literal) : String :=
  (if l.caseSensitive then "%s" else "") ++ Text.quoted (l.codes.map (·.toUInt16))

end Literal

namespace Parser

variable {σ α : Type}

/-- Compares the bytes from `ahead` of the cursor on with `codes`, without moving. The first byte
that is missing or differs decides. -/
def agree (l : Literal) : List UInt8 → Nat → Parser σ Mismatch Unit
  | [], _ => return ()
  | code :: codes, ahead => do
    match ← peek ahead with
    | none => missing l.expected
    | some value => if l.agrees value code then agree l codes (ahead + 1) else differing l.expected

/-- Matches a quoted text and yields the bytes as they stand in the input. -/
def literal (l : Literal) : Parser σ Mismatch String := do
  agree l l.codes 0
  match ← read l.codes.length with
  | some bytes => return Text.latin bytes
  | none => wait

end Parser

end StreamGrammar
