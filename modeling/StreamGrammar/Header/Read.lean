import StreamGrammar.Header.Rules
import StreamGrammar.Rule.Parser

/-!
# Reading header values

A header value is complete when it is read, and all of it must match. A value that does not is
refused, either because the rule does not match or because something follows what matched.
-/

namespace StreamGrammar.Header

/-- Why a header value is refused. -/
inductive Error where
  /-- The value does not begin with what the header should hold; `reason` says what is missing. -/
  | mismatch (reason : Datum)
  /-- Something that cannot be read begins at the byte at `position`. -/
  | unexpected (position : Nat)

namespace Error

/-- The kind of an error, as reports name it. -/
def name (_ : Error) : String := "InvalidParamsError"

/-- The sentence that reports an error. -/
def message : Error → String
  | mismatch (.mismatch reason) => reason.message
  | mismatch _ => ""
  | unexpected position => s!"Unexpected input at {position}"

end Error

/-- The run of a rule on a complete input. No repetition in a header makes more attempts than there
are bytes, and one more at their end. -/
def attempt (rule : Rule) (bytes : Array UInt8) :
    EStateM.Result Halt (Scanner Rule.Memory) (Verdict Datum Datum) :=
  (Grammar.parserOf [] (bytes.size + 2) rule).run
    { cursor := Input.Cursor.ofBytes bytes, memory := #[] }

/-- The parameters that a rule reads from a whole text. -/
def readWhole (rule : Rule) (text : Text.Units) : Except Error (List Param) :=
  match attempt rule (Text.utf8 text).toArray with
  | .ok (.accepted value) s =>
    if s.cursor.available = 0 then .ok (Param.listOfDatum value)
    else .error (.unexpected s.cursor.position)
  | .ok (.rejected reason) _ => .error (.mismatch reason)
  | .ok .undecided s => .error (.unexpected s.cursor.position)
  | .error _ s => .error (.unexpected s.cursor.position)

/-- Reads the value of a `Signature` header. -/
def readSignature (text : Text.Units) : Except Error (List Param) := readWhole params text

/-- Reads the value of an `Authorization` header in the `Signature` scheme. -/
def readAuthorization (text : Text.Units) : Except Error (List Param) :=
  readWhole authorization text

end StreamGrammar.Header
