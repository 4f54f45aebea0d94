import StreamGrammar.Input.Cursor
import StreamGrammar.Verdict

/-!
# Parsers

A parser looks at the input from the cursor on and answers with a `Verdict`. By contract it leaves
the cursor behind what it matched when it accepts, and where it found it otherwise. Nothing forces a
parser to keep to that: the combinators of `Parser/Structure.lean` and `Parser/Repetition.lean` say
for themselves when they put the cursor back.

A parser runs in the monad `Scan`. Its state is a `Scanner`: the cursor, a journal of the marks
taken and the returns to them, and a memory of any type for parsers that remember something from
run to run. A run may also stop without an answer (`Halt`). Parsers themselves are a monad, in which
one goes on where another has accepted.
-/

namespace StreamGrammar

open Input (Cursor)

/-- A call that has to do with coming back. -/
inductive JournalEntry where
  /-- The position was marked. -/
  | marked (position : Nat)
  /-- The cursor was to be put back to `target`. -/
  | rewound (target : Int)
  deriving DecidableEq

/-- The state that a parser works on. -/
structure Scanner (σ : Type) where
  /-- The input and the place in it. -/
  cursor : Cursor
  /-- The marks taken and put back so far, newest first. -/
  journal : List JournalEntry := []
  /-- What parsers remember from run to run. -/
  memory : σ

/-- Makes an entry in the journal. -/
def Scanner.log {σ : Type} (s : Scanner σ) (entry : JournalEntry) : Scanner σ :=
  { s with journal := entry :: s.journal }

/-- Why a run stops without an answer. -/
inductive Halt where
  /-- A call on the input was refused. -/
  | fault (error : Input.Error)
  /-- The run was longer than it was allowed to be. -/
  | ranOut
  deriving DecidableEq

/-- A computation on a scanner. -/
abbrev Scan (σ : Type) := EStateM Halt (Scanner σ)

/-- A parser: it answers with a verdict on the input from the cursor on. -/
structure Parser (σ ε α : Type) where
  /-- The attempt on a scanner. -/
  run : Scan σ (Verdict ε α)

namespace Scan

variable {σ α : Type}

/-- What `f` says about the cursor. -/
def view (f : Cursor → α) : Scan σ α := fun s => .ok (f s.cursor) s

/-- Moves the cursor as `f` does. If `f` refuses, the run stops there and the cursor stays. -/
def move (f : Cursor → Except Input.Error (α × Cursor)) : Scan σ α := fun s =>
  match f s.cursor with
  | .ok (a, cursor) => .ok a { s with cursor }
  | .error e => .error (.fault e) s

/-- The offset of the next byte. -/
def position : Scan σ Nat := view (·.position)

/-- The byte `ahead` of the cursor, if it is held. -/
def peek (ahead : Int) : Scan σ (Option UInt8) := view (·.peek ahead)

/-- Whether no more input follows. -/
def ended : Scan σ Bool := view (·.ended)

/-- Adds a chunk of input, unless the input has ended. -/
def append (bytes : Array UInt8) : Scan σ Unit := move fun c => (((), ·)) <$> c.append bytes

/-- Declares that no more input follows. -/
def finish : Scan σ Unit := move fun c => .ok ((), c.finish)

/-- Drops the chunks that lie before the cursor, and says how many bytes these were. -/
def release : Scan σ Nat := move fun c => .ok c.release

/-- Moves past `count` bytes. -/
def advance (count : Int) : Scan σ Unit := move fun c => (((), ·)) <$> c.advance count

/-- Copies the next `count` bytes and moves past them, if they are there. -/
def read (count : Int) : Scan σ (Option (List UInt8)) := move (·.read count)

/-- A copy of the bytes in `[low, high)`. -/
def slice (low high : Int) : Scan σ (List UInt8) := move fun c => ((·, c)) <$> c.slice low high

/-- Marks the position. -/
def mark : Scan σ Nat := fun s => .ok s.cursor.position (s.log (.marked s.cursor.position))

/-- Puts the cursor back to a position that is still held. A refused return is in the journal
too. -/
def rewind (target : Int) : Scan σ Unit := fun s =>
  move (fun c => (((), ·)) <$> c.restore target) (s.log (.rewound target))

/-- Consults and changes the memory. -/
def remember (f : σ → α × σ) : Scan σ α := fun s =>
  let (a, memory) := f s.memory
  .ok a { s with memory }

end Scan

namespace Parser

variable {σ ε φ α β : Type}

/-- The parser that accepts without looking at the input. -/
@[inline] def accept (value : α) : Parser σ ε α := ⟨return .accepted value⟩

/-- The parser that rejects without looking at the input. -/
@[inline] def reject (error : ε) : Parser σ ε α := ⟨return .rejected error⟩

/-- The parser that leaves everything open. -/
@[inline] def wait : Parser σ ε α := ⟨return .undecided⟩

/-- Runs `p` and, where it accepts, goes on with the parser that `f` makes of its value. -/
@[inline] def andThen (p : Parser σ ε α) (f : α → Parser σ ε β) : Parser σ ε β := ⟨do
  match ← p.run with
  | .accepted value => (f value).run
  | .undecided => return .undecided
  | .rejected error => return .rejected error⟩

/-- The parser that accepts with the result of a computation. -/
@[inline] def ofScan (scan : Scan σ α) : Parser σ ε α := ⟨return .accepted (← scan)⟩

instance : Monad (Parser σ ε) where
  pure := accept
  bind := andThen

/-- The offset of the next byte. -/
def position : Parser σ ε Nat := ofScan Scan.position

/-- Whether no more input follows. -/
def ended : Parser σ ε Bool := ofScan Scan.ended

/-- The byte `ahead` of the cursor, if it is held. -/
def peek (ahead : Int) : Parser σ ε (Option UInt8) := ofScan (Scan.peek ahead)

/-- Moves past `count` bytes. -/
def advance (count : Int) : Parser σ ε Unit := ofScan (Scan.advance count)

/-- Copies the next `count` bytes and moves past them, if they are there. -/
def read (count : Int) : Parser σ ε (Option (List UInt8)) := ofScan (Scan.read count)

/-- A copy of the bytes in `[low, high)`. -/
def slice (low high : Int) : Parser σ ε (List UInt8) := ofScan (Scan.slice low high)

/-- Runs `p` and applies `f` to the value of a match. -/
def map (f : α → β) (p : Parser σ ε α) : Parser σ ε β := ⟨return (← p.run).map f⟩

/-- Runs `p` and applies `f` to the reason of a mismatch. -/
def mapError (f : ε → φ) (p : Parser σ ε α) : Parser σ φ α := ⟨return (← p.run).mapError f⟩

/-! ## Running the basic parsers -/

variable (s : Scanner σ)

@[simp] theorem run_accept (value : α) :
    (accept value : Parser σ ε α).run s = .ok (.accepted value) s := rfl

@[simp] theorem run_pure (value : α) :
    (pure value : Parser σ ε α).run s = .ok (.accepted value) s := rfl

@[simp] theorem run_reject (error : ε) :
    (reject error : Parser σ ε α).run s = .ok (.rejected error) s := rfl

@[simp] theorem run_wait : (wait : Parser σ ε α).run s = .ok .undecided s := rfl

/-- Going on depends on the first parser's verdict, and starts where it left the scanner. -/
theorem run_bind (p : Parser σ ε α) (f : α → Parser σ ε β) :
    (p >>= f).run s =
      match p.run s with
      | .ok (.accepted value) t => (f value).run t
      | .ok .undecided t => .ok .undecided t
      | .ok (.rejected error) t => .ok (.rejected error) t
      | .error halt t => .error halt t := by
  change EStateM.bind p.run _ s = _
  unfold EStateM.bind
  rcases p.run s with ⟨_ | _ | _, t⟩ | _ <;> rfl

/-- A mapped parser changes the value and nothing else. -/
theorem run_map (f : α → β) (p : Parser σ ε α) :
    (p.map f).run s =
      match p.run s with
      | .ok verdict t => .ok (verdict.map f) t
      | .error halt t => .error halt t := by
  change EStateM.bind p.run _ s = _
  unfold EStateM.bind
  rcases p.run s with _ | _ <;> rfl

/-- A parser with a mapped error changes the error and nothing else. -/
theorem run_mapError (f : ε → φ) (p : Parser σ ε α) :
    (p.mapError f).run s =
      match p.run s with
      | .ok verdict t => .ok (verdict.mapError f) t
      | .error halt t => .error halt t := by
  change EStateM.bind p.run _ s = _
  unfold EStateM.bind
  rcases p.run s with _ | _ <;> rfl

@[simp] theorem run_position :
    (position : Parser σ ε Nat).run s = .ok (.accepted s.cursor.position) s := rfl

@[simp] theorem run_ended :
    (ended : Parser σ ε Bool).run s = .ok (.accepted s.cursor.ended) s := rfl

@[simp] theorem run_peek (ahead : Int) :
    (peek ahead : Parser σ ε (Option UInt8)).run s = .ok (.accepted (s.cursor.peek ahead)) s := rfl

end Parser

end StreamGrammar
