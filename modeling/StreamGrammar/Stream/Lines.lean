import StreamGrammar.Log.Logger
import StreamGrammar.Stream.Reader

/-!
# The log of a reader

The log entry of each notice that a reader makes. The entries are those of a logger below the one
for all streams, named after the rule.
-/

namespace StreamGrammar.Stream

/-- A value in the data of an entry about a stream. -/
inductive Detail (ε : Type) where
  /-- An offset or a number of bytes. -/
  | number (n : Nat)
  /-- The reason of a mismatch. -/
  | cause (error : ε)
  /-- A failure of the stream. -/
  | failure (error : Error ε)
  deriving DecidableEq

variable {ε : Type}

/-- The data that the entry of a failure has besides the failure. -/
def Error.data : Error ε → Option (List (String × Detail ε))
  | .parseFailed _ cause => some [("cause", .cause cause)]
  | _ => none

/-- The log entry of a notice. -/
def Notice.entry : Notice ε → Log.Entry (Detail ε)
  | .waiting position pending =>
    ⟨.debug, "waiting for more input",
      some [("position", .number position), ("pending", .number pending)]⟩
  | .parsed low high released =>
    ⟨.debug, "parsed value",
      some [("from", .number low), ("to", .number high), ("released", .number released)]⟩
  | .failed error => .ofReport error.report (.failure error) error.data

/-- The logger of a reader whose rule has the given name. -/
def logger (name : String) : Log.Logger :=
  .sub (.root { name := "stream", colour := some .cyan }) { name }

/-- The lines that the notices of a reader make, oldest first. -/
def lines (name : String) (scene : Log.Scene) (notices : List (Notice ε)) :
    List (Log.Line (Detail ε)) :=
  notices.reverse.filterMap fun notice => (logger name).line scene notice.entry

end StreamGrammar.Stream
