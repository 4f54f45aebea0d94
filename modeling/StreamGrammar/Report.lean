/-!
# Reports

An error as it is shown to people: the name of its kind, and a sentence.
-/

namespace StreamGrammar

/-- The name and the message of an error. -/
structure Report where
  /-- The name of the kind of error. -/
  name : String
  /-- The sentence that says what is wrong. -/
  message : String
  deriving DecidableEq

/-- The one-line text of a report. A part that is empty is left out, together with the colon. -/
def Report.text (r : Report) : String :=
  if r.name = "" then r.message
  else if r.message = "" then r.name
  else r.name ++ ": " ++ r.message

end StreamGrammar
