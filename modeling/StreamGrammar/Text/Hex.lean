/-!
# Hexadecimal numbers

Numbers as value ranges write them, in upper-case digits and at least two characters wide, and the
four lower-case digits of a 16-bit unit.
-/

namespace StreamGrammar.Text

/-- Writes `text` at least `width` characters wide, with zeros in front. -/
def padZeros (width : Nat) (text : String) : String :=
  "".pushn '0' (width - text.length) ++ text

/-- The lower-case hexadecimal digits of a number. -/
def hexDigits (n : Nat) : String := String.ofList (Nat.toDigits 16 n)

/-- A number in upper-case hexadecimal digits. A negative one has its sign in front, which counts
as one of the two characters that every number has at least. -/
def hexNumber (n : Int) : String :=
  padZeros 2 ((if n < 0 then "-" else "") ++ (hexDigits n.natAbs).toUpper)

/-- The four lower-case hexadecimal digits of a 16-bit unit. -/
def hexUnit (u : UInt16) : String := padZeros 4 (hexDigits u.toNat)

end StreamGrammar.Text
