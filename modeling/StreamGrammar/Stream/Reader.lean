import StreamGrammar.Parser.Structure
import StreamGrammar.Stream.Error

/-!
# Reading values from a stream

A `Reader` applies one rule over and over to input that arrives in chunks. Where the rule is
undecided the reader waits for the next chunk, and then runs the rule again from where the
unfinished value began. The bytes of a finished value are released at once.

A failure of the stream is kept: every later call fails with it and does nothing else. Refusals of
the input are not kept. What a reader does it also notes down, for a log (`Notice`).
-/

namespace StreamGrammar.Stream

/-- Something worth a line in a log. -/
inductive Notice (ε : Type) where
  /-- The rule is undecided about the last `pending` bytes, which begin at `position`. -/
  | waiting (position pending : Nat)
  /-- A value was read from `[low, high)`, and `released` bytes were dropped. -/
  | parsed (low high released : Nat)
  /-- No further value can be read. -/
  | failed (error : Error ε)
  deriving DecidableEq

/-- The state of a reader. -/
structure Reader (σ ε : Type) where
  /-- The input, and what the rule remembers. -/
  scanner : Scanner σ
  /-- The failure that was kept, if any. -/
  failure : Option (Error ε) := none
  /-- What happened so far, newest first. -/
  notices : List (Notice ε) := []

/-- What the values of a stream look like. -/
structure Format (σ ε α : Type) where
  /-- The rule of one value. -/
  rule : Parser σ ε α
  /-- The name of the rule in a log. -/
  name : String := "rule"
  /-- The number of bytes about which the rule may be undecided. -/
  limit : Int := 65536

/-- Why a call on a reader brings no values. -/
inductive Stop (ε : Type) where
  /-- The stream has failed. -/
  | failed (error : Error ε)
  /-- A call on the input was refused. -/
  | fault (error : Input.Error)
  /-- The call was longer than it was allowed to be. -/
  | ranOut
  deriving DecidableEq

/-- The stop that a halt of a scan amounts to. -/
def Stop.ofHalt {ε : Type} : Halt → Stop ε
  | .fault error => .fault error
  | .ranOut => .ranOut

/-- A computation on a reader. -/
abbrev Reading (σ ε : Type) := EStateM (Stop ε) (Reader σ ε)

namespace Reader

variable {σ ε α : Type}

/-- A reader of an input of which nothing has arrived. -/
def new (memory : σ) : Reader σ ε := { scanner := { cursor := {}, memory } }

/-- The offset of the first byte that is not part of a value yet. -/
def position (r : Reader σ ε) : Nat := r.scanner.cursor.position

/-- The number of bytes that wait for the rule to decide. -/
def pending (r : Reader σ ε) : Nat := r.scanner.cursor.available

end Reader

namespace Reading

variable {σ ε α : Type}

/-- Runs a computation on the input of the reader. -/
def scan (act : Scan σ α) : Reading σ ε α := fun r =>
  match act r.scanner with
  | .ok a scanner => .ok a { r with scanner }
  | .error halt scanner => .error (.ofHalt halt) { r with scanner }

/-- Notes down something for the log. -/
def note (notice : Notice ε) : Reading σ ε Unit := modify fun r =>
  { r with notices := notice :: r.notices }

/-- Keeps a failure, and fails with it. -/
def fail (error : Error ε) : Reading σ ε α := do
  modify fun r => { r with failure := some error }
  note (.failed error)
  throw (.failed error)

/-- Fails with the failure that was kept, if there is one. -/
def checkFailure : Reading σ ε Unit := do
  if let some error := (← get).failure then throw (.failed error)

/-- Reads values for as long as there is input and the rule decides, at most `fuel` of them. They
come after those in `values`. -/
def drain (format : Format σ ε α) : Nat → Array α → Reading σ ε (List α)
  | 0, _ => throw .ranOut
  | fuel + 1, values => do
    let start := (← get).position
    if (← get).pending = 0 then return values.toList
    match ← scan (Parser.rewinding format.rule).run with
    | .undecided =>
      let pending := (← get).pending
      if (← get).scanner.cursor.ended then fail (.incomplete start pending)
      if format.limit < pending then fail (.overLimit start format.limit)
      note (.waiting start pending)
      return values.toList
    | .rejected error => fail (.parseFailed start error)
    | .accepted value =>
      let stop := (← get).position
      if stop = start then fail (.noProgress start)
      let released ← scan Scan.release
      note (.parsed start stop released)
      drain format fuel (values.push value)

/-- Adds a chunk of input, and reads the values that are complete with it. -/
def push (format : Format σ ε α) (fuel : Nat) (bytes : Array UInt8) : Reading σ ε (List α) := do
  checkFailure
  scan (Scan.append bytes)
  drain format fuel #[]

/-- Ends the input, and reads what is left. -/
def finish (format : Format σ ε α) (fuel : Nat) : Reading σ ε (List α) := do
  checkFailure
  scan Scan.finish
  drain format fuel #[]

end Reading

end StreamGrammar.Stream
