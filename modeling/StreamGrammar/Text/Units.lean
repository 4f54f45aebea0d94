/-!
# Text as 16-bit units

Text that reaches the library may be ill-formed: it is a list of 16-bit units, in which a character
above U+FFFF is a pair of surrogates and a surrogate may also stand alone. `scalars` pairs them up.
From its result the text is encoded as UTF-8, where a surrogate that stands alone becomes the
replacement character U+FFFD.
-/

namespace StreamGrammar.Text

/-- A text, given by its 16-bit units. -/
abbrev Units := List UInt16

/-- What a unit, or a pair of them, stands for. -/
inductive Scalar where
  /-- A character. -/
  | char (c : Char)
  /-- A surrogate without its partner. -/
  | lone (unit : UInt16)
  deriving DecidableEq

/-- Whether a unit is the first half of a pair. -/
def isHigh (u : UInt16) : Bool := 0xD800 ≤ u && u < 0xDC00

/-- Whether a unit is the second half of a pair. -/
def isLow (u : UInt16) : Bool := 0xDC00 ≤ u && u < 0xE000

/-- The character that a pair of surrogates stands for. -/
def paired (high low : UInt16) : Char :=
  Char.ofNat (0x10000 + (high.toNat - 0xD800) * 0x400 + (low.toNat - 0xDC00))

/-- A unit that is not part of a pair. -/
def single (u : UInt16) : Scalar :=
  if isHigh u || isLow u then .lone u else .char (Char.ofNat u.toNat)

/-- Pairs up the surrogates of a text. -/
def scalars : Units → List Scalar
  | [] => []
  | [u] => [single u]
  | u :: v :: rest =>
    if isHigh u && isLow v then .char (paired u v) :: scalars rest
    else single u :: scalars (v :: rest)

/-- The 16-bit units of a character. -/
def unitsOfChar (c : Char) : Units :=
  if c.toNat < 0x10000 then [c.toNat.toUInt16]
  else
    let n := c.toNat - 0x10000
    [(0xD800 + n / 0x400).toUInt16, (0xDC00 + n % 0x400).toUInt16]

/-- The 16-bit units of a string. -/
def unitsOf (s : String) : Units := s.toList.flatMap unitsOfChar

/-- The number of 16-bit units of a string. -/
def unitCount (s : String) : Nat :=
  s.toList.foldl (fun n c => n + if c.toNat < 0x10000 then 1 else 2) 0

/-- The UTF-8 bytes of a character; those of U+FFFD for a surrogate that stands alone. -/
def Scalar.utf8 : Scalar → List UInt8
  | char c => String.utf8EncodeChar c
  | lone _ => [0xEF, 0xBF, 0xBD]

/-- The UTF-8 bytes of a text. -/
def utf8 (text : Units) : List UInt8 := (scalars text).flatMap Scalar.utf8

end StreamGrammar.Text
