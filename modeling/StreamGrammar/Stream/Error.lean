import StreamGrammar.Report

/-!
# Failures of a stream

The four ways in which reading values from a stream comes to an end before the stream does. Each
names the offset at which the value that could not be read began.
-/

namespace StreamGrammar.Stream

/-- Why no further value can be read. -/
inductive Error (ε : Type) where
  /-- The input does not match the rule, for the reason `cause`. -/
  | parseFailed (position : Int) (cause : ε)
  /-- The input ended while the rule was undecided about its last `remaining` bytes. -/
  | incomplete (position remaining : Int)
  /-- The rule matched without moving. -/
  | noProgress (position : Int)
  /-- The rule was undecided about more than `limit` bytes. -/
  | overLimit (position limit : Int)
  deriving DecidableEq

namespace Error

variable {ε : Type}

/-- The kind of a failure, as reports name it. -/
def name : Error ε → String
  | parseFailed .. => "ParseFailedError"
  | incomplete .. => "IncompleteInputError"
  | noProgress .. => "NoProgressError"
  | overLimit .. => "BufferLimitExceededError"

/-- The sentence that reports a failure. -/
def message : Error ε → String
  | parseFailed position _ => s!"Parse failed at {position}"
  | incomplete position remaining => s!"Input ended with {remaining} unparsed bytes at {position}"
  | noProgress position => s!"Rule completed without consuming input at {position}"
  | overLimit position limit =>
    s!"More than {limit} bytes buffered without a match at {position}"

/-- The report of a failure. -/
def report (e : Error ε) : Report := ⟨e.name, e.message⟩

/-- The offset at which the value began that could not be read. -/
def position : Error ε → Int
  | parseFailed position _ => position
  | incomplete position _ => position
  | noProgress position => position
  | overLimit position _ => position

end Error

end StreamGrammar.Stream
