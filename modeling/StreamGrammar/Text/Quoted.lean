import StreamGrammar.Text.Units
import StreamGrammar.Text.Hex

/-!
# Quoted text

A text in double quotes, as error messages show it. Quotes, backslashes, control characters and
surrogates that stand alone are escaped, so any text can be told from the message; everything else
is written as it is.
-/

namespace StreamGrammar.Text

/-- A character as it stands between quotes. -/
def quotedChar (c : Char) : String :=
  match c with
  | '"' => "\\\""
  | '\\' => "\\\\"
  | '\x08' => "\\b"
  | '\x0c' => "\\f"
  | '\n' => "\\n"
  | '\r' => "\\r"
  | '\t' => "\\t"
  | c => if c.toNat < 0x20 then "\\u" ++ hexUnit c.toNat.toUInt16 else c.toString

/-- A character, or a surrogate that stands alone, as it stands between quotes. -/
def Scalar.quoted : Scalar → String
  | char c => quotedChar c
  | lone unit => "\\u" ++ hexUnit unit

/-- A text in double quotes. -/
def quoted (text : Units) : String :=
  "\"" ++ String.join ((scalars text).map Scalar.quoted) ++ "\""

end StreamGrammar.Text
