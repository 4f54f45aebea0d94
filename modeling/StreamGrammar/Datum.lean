import StreamGrammar.Mismatch
import StreamGrammar.Text.Units

/-!
# The values of rules

Rules of one grammar are put together at run time, so their values and errors are of one type. A
`Datum` is a plain value, a list or a record of values, or a mismatch.
-/

namespace StreamGrammar

/-- A value or an error of a rule. -/
inductive Datum where
  /-- The value that stands for nothing. -/
  | null
  /-- No value at all, as behind the last element of a list. -/
  | absent
  /-- A truth value. -/
  | bool (value : Bool)
  /-- A number. -/
  | int (value : Int)
  /-- A text. -/
  | text (value : String)
  /-- A list of values. -/
  | list (items : List Datum)
  /-- Values by name. -/
  | record (fields : List (String × Datum))
  /-- The reason of a mismatch. -/
  | mismatch (reason : Mismatch)

namespace Datum

/-- Whether a value stands for nothing. -/
def isNull : Datum → Bool
  | null => true
  | _ => false

mutual

/-- Writes the text of a value behind `start`: a list is the texts of its items, and records,
mismatches and nothing have no text. -/
def joinOnto (start : String) : Datum → String
  | bool value => start ++ if value then "true" else "false"
  | int value => start ++ toString value
  | text value => start ++ value
  | list items => joinAllOnto start items
  | _ => start

/-- Writes the texts of values behind `start`, one after the other. -/
def joinAllOnto (start : String) : List Datum → String
  | [] => start
  | item :: items => joinAllOnto (item.joinOnto start) items

end

/-- The text of a value. -/
def joined (d : Datum) : Datum := text (d.joinOnto "")

/-- The number of items of a list, or of 16-bit units of a text. -/
def length : Datum → Datum
  | list items => int items.length
  | text value => int (Text.unitCount value)
  | _ => absent

/-- The item of a list at an index. -/
def item (index : Int) : Datum → Datum
  | list items => if index < 0 then absent else items.getD index.toNat absent
  | _ => absent

/-- What is expected by a mismatch, or the field of that name of a record. -/
def expected : Datum → Datum
  | mismatch reason => text reason.expected
  | record fields => (fields.lookup "expected").getD absent
  | _ => absent

/-- The message of a mismatch, or the field of that name of a record. -/
def message : Datum → Datum
  | mismatch reason => text reason.message
  | record fields => (fields.lookup "message").getD absent
  | _ => absent

/-- A value with a tag. -/
def tagged (tag value : Datum) : Datum := record [("tag", tag), ("value", value)]

/-- An error with a tag. -/
def taggedError (tag error : Datum) : Datum := record [("tag", tag), ("error", error)]

/-- The adapter that blames a missing first element on its label. -/
def atLeastOne (label : String) : Datum → Datum
  | mismatch reason => mismatch (reason.atLeastOne label)
  | other => other

end Datum

end StreamGrammar
