import StreamGrammar.Parser.Basic
import StreamGrammar.Text.Latin

/-!
# Grouping, concatenation and alternation

The combinators that put parsers together without repeating them. `rewinding` is the one that keeps
the contract of parsers: whatever its body does, the cursor is back where it was unless the body
accepts. Everything that runs several parsers in a row goes through it. `alternation`, `optional`
and `captured` do not: they rely on the parsers they are given.
-/

namespace StreamGrammar.Parser

variable {σ ε φ α β : Type}

/-- Runs `p` and puts the cursor back unless `keep` holds of the verdict. -/
def rewindingUnless (keep : Verdict ε α → Bool) (p : Parser σ ε α) : Parser σ ε α := ⟨do
  let here ← Scan.mark
  let verdict ← p.run
  unless keep verdict do Scan.rewind here
  return verdict⟩

/-- The run of a parser that may put the cursor back: `p` runs behind a mark, and the return to it
is the last thing that happens. -/
theorem run_rewindingUnless (keep : Verdict ε α → Bool) (p : Parser σ ε α) (s : Scanner σ) :
    (rewindingUnless keep p).run s =
      match p.run (s.log (.marked s.cursor.position)) with
      | .ok verdict t =>
        if keep verdict then .ok verdict t
        else
          match Scan.rewind s.cursor.position t with
          | .ok _ u => .ok verdict u
          | .error halt u => .error halt u
      | .error halt t => .error halt t := by
  simp only [rewindingUnless, bind, EStateM.bind, Scan.mark]
  rcases p.run (s.log _) with ⟨verdict, t⟩ | _
  · by_cases h : keep verdict = true
    · simp [h, pure, EStateM.pure]
    · simp only [h, Bool.false_eq_true, ↓reduceIte, EStateM.bind]
      rcases Scan.rewind s.cursor.position t with _ | _ <;> rfl
  · rfl

/-- Runs `p` and puts the cursor back unless it accepts. -/
def rewinding (p : Parser σ ε α) : Parser σ ε α := rewindingUnless Verdict.isAccepted p

/-- Whether a verdict is a match whose value says that something was there. -/
def isFind (isEmpty : α → Bool) : Verdict ε α → Bool
  | .accepted value => !isEmpty value
  | _ => false

/-- Runs `p` and puts the cursor back unless it accepts with a value that is not empty. -/
def found (isEmpty : α → Bool) (p : Parser σ ε α) : Parser σ ε α :=
  rewindingUnless (isFind isEmpty) p

/-- The first of `ps` that finds something, leaves open or rejects; `empty` if all come back
empty. -/
def firstFound (isEmpty : α → Bool) (empty : α) : List (Parser σ ε α) → Parser σ ε α
  | [] => return empty
  | p :: ps => do
    let value ← found isEmpty p
    if isEmpty value then firstFound isEmpty empty ps else return value

/-- Runs `ps` one after the other. The first that does not accept ends the run, and the cursor stays
where it left it. -/
def inOrder : List (Parser σ ε α) → Parser σ ε (List α)
  | [] => return []
  | p :: ps => do
    let value ← p
    let values ← inOrder ps
    return value :: values

/-- All of `ps`, one after the other, or nothing. -/
def concatenation (ps : List (Parser σ ε α)) : Parser σ ε (List α) := rewinding (inOrder ps)

/-- The first of `p` and `ps` that does not reject. One that leaves open ends the search, since a
later one must not win over it. If all reject, the last one's reason stands. -/
def alternation (p : Parser σ ε α) : List (Parser σ ε α) → Parser σ ε α
  | [] => p
  | q :: ps => ⟨do
    match ← p.run with
    | .rejected _ => (alternation q ps).run
    | verdict => return verdict⟩

/-- Runs `p`, and accepts with `default` where `p` rejects. -/
def optional (default : α) (p : Parser σ ε α) : Parser σ φ α := ⟨do
  match ← p.run with
  | .accepted value => return .accepted value
  | .undecided => return .undecided
  | .rejected _ => return .accepted default⟩

/-- Yields the input that `p` matched instead of its value. -/
def captured (p : Parser σ ε α) : Parser σ ε String := do
  let start ← position
  let _ ← p
  let bytes ← slice start (← position)
  return Text.latin bytes

end StreamGrammar.Parser
