import StreamGrammar.Rule.Build

/-!
# Core rules

The rules that every grammar in augmented Backus-Naur form may use. A rule for a single byte yields
the character with that number.
-/

namespace StreamGrammar.Rule

/-- The text of the byte that a rule yielded. -/
def byteText : Datum → Datum
  | .int n => .text (Text.latin [n.toNat.toUInt8])
  | other => other

/-- A byte that passes `test`, as a character. -/
def character (expected : String) (test : UInt8 → Bool) : Rule := map byteText (byte test expected)

/-- Whether a byte is a decimal digit. -/
def isDigit (b : UInt8) : Bool := 0x30 ≤ b && b ≤ 0x39

/-- Whether a byte is a letter. -/
def isAlpha (b : UInt8) : Bool := (0x41 ≤ b && b ≤ 0x5A) || (0x61 ≤ b && b ≤ 0x7A)

/-- A letter. -/
def alpha : Rule := character "ALPHA" isAlpha

/-- A binary digit. -/
def bit : Rule := character "BIT" fun b => b == 0x30 || b == 0x31

/-- A US-ASCII character other than NUL. -/
def char : Rule := character "CHAR" fun b => 0x01 ≤ b && b ≤ 0x7F

/-- A carriage return. -/
def cr : Rule := character "CR" (· == 0x0D)

/-- A line feed. -/
def lf : Rule := character "LF" (· == 0x0A)

/-- A line break. -/
def crlf : Rule := map (fun _ => .text "\r\n") (concatenation [cr, lf])

/-- A control character. -/
def ctl : Rule := character "CTL" fun b => b ≤ 0x1F || b == 0x7F

/-- A decimal digit. -/
def digit : Rule := character "DIGIT" isDigit

/-- A double quote. -/
def dquote : Rule := map (fun _ => .text "\"") (value 0x22 (some "DQUOTE"))

/-- A hexadecimal digit, in either case. -/
def hexdig : Rule := character "HEXDIG" fun b =>
  isDigit b || (0x41 ≤ b && b ≤ 0x46) || (0x61 ≤ b && b ≤ 0x66)

/-- A horizontal tab. -/
def htab : Rule := character "HTAB" (· == 0x09)

/-- A space. -/
def sp : Rule := character "SP" (· == 0x20)

/-- White space within a line. -/
def wsp : Rule := alternation sp [htab]

/-- Any byte. -/
def octet : Rule := character "OCTET" fun _ => true

/-- A visible character. -/
def vchar : Rule := character "VCHAR" fun b => 0x21 ≤ b && b ≤ 0x7E

/-- White space with line breaks in it, each followed by white space. -/
def lwsp : Rule :=
  captured (star (alternation wsp [map Datum.joined (concatenation [crlf, wsp])]))

/-- The core rules by name. -/
def core : List (String × Rule) :=
  [("ALPHA", alpha), ("BIT", bit), ("CHAR", char), ("CR", cr), ("CRLF", crlf), ("CTL", ctl),
   ("DIGIT", digit), ("DQUOTE", dquote), ("HEXDIG", hexdig), ("HTAB", htab), ("LF", lf),
   ("LWSP", lwsp), ("OCTET", octet), ("SP", sp), ("VCHAR", vchar), ("WSP", wsp)]

end StreamGrammar.Rule
