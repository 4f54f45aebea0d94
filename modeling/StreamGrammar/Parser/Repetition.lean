import StreamGrammar.Parser.Structure

/-!
# Repetition

A repetition runs its element again and again. After each element that settled, with a value or an
error, a `Judge` says whether the repetition ends and how. An element that leaves open ends the
repetition at once: nothing of it may stand while an element is undecided, so it starts over from
its first element when more input has arrived.

Nothing bounds the number of elements, so every repetition is given `fuel`, the number of elements
after which it stops with `Halt.ranOut`.
-/

namespace StreamGrammar

/-- Judges the elements of a repetition. It is told what it has gathered so far, the new element and
the memory, and answers whether the repetition ends: `undecided` asks for another element. -/
abbrev Judge (σ τ ε α φ β : Type) := τ → Except ε α → σ → (Verdict φ β × τ) × σ

/-- A judge that leaves the memory alone. -/
def Judge.pure {σ τ ε α φ β : Type} (f : τ → Except ε α → Verdict φ β × τ) :
    Judge σ τ ε α φ β := fun gathered item memory => (f gathered item, memory)

/-- How often something may be repeated. -/
inductive Count where
  /-- Exactly `n` times. -/
  | times (n : Nat)
  /-- Without an end. -/
  | unbounded
  deriving DecidableEq

namespace Count

/-- Whether `n` elements reach the count. -/
def reachedBy (n : Nat) : Count → Bool
  | times m => m ≤ n
  | unbounded => false

/-- Whether one count is at most another. -/
def le : Count → Count → Bool
  | _, unbounded => true
  | times m, times n => m ≤ n
  | unbounded, times _ => false

end Count

/-- The bounds of a repetition, both included. -/
structure Bounds where
  /-- The least number of elements. -/
  min : Count
  /-- The greatest number of elements. -/
  max : Count
  /-- The bounds are in order. -/
  ordered : min.le max = true := by decide
  deriving DecidableEq

namespace Parser

variable {σ τ ε φ α β : Type}

/-- Runs `p` again and again until `judge` ends the repetition or an element leaves open. -/
def iterate (p : Parser σ ε α) (judge : Judge σ τ ε α φ β) : Nat → τ → Scan σ (Verdict φ β)
  | 0, _ => throw .ranOut
  | fuel + 1, gathered => do
    match (← p.run).settled? with
    | none => return .undecided
    | some item =>
      let (answer, gathered) ← Scan.remember (judge gathered item)
      if answer.isUndecided then iterate p judge fuel gathered else return answer

/-- One round of a repetition: the element runs, and if it settled the judge decides. -/
theorem iterate_succ (p : Parser σ ε α) (judge : Judge σ τ ε α φ β) (fuel : Nat) (gathered : τ)
    (s : Scanner σ) :
    iterate p judge (fuel + 1) gathered s =
      match p.run s with
      | .error halt t => .error halt t
      | .ok verdict t =>
        match verdict.settled? with
        | none => .ok .undecided t
        | some item =>
          let ((answer, gathered), memory) := judge gathered item t.memory
          if answer.isUndecided then iterate p judge fuel gathered { t with memory }
          else .ok answer { t with memory } := by
  rw [iterate]
  change EStateM.bind p.run _ s = _
  unfold EStateM.bind
  rcases p.run s with ⟨verdict, t⟩ | _
  · rcases h : verdict.settled? with _ | item
    · simp only [h]
      rfl
    · simp only [h]
      change EStateM.bind (Scan.remember _) _ t = _
      simp only [EStateM.bind, Scan.remember]
      split <;> simp_all [pure, EStateM.pure]
  · rfl

/-- Repeats `p` under `judge`, which starts with `gathered`. -/
def repeating (fuel : Nat) (gathered : τ) (judge : Judge σ τ ε α φ β) (p : Parser σ ε α) :
    Parser σ φ β := rewinding ⟨iterate p judge fuel gathered⟩

/-- Repeats `p` under `judge`, except that a first element that rejects is the end, with its reason
adapted and without asking `judge`. -/
def repeatingSome (fuel : Nat) (gathered : τ) (judge : Judge σ τ ε α φ β) (adapt : ε → φ)
    (p : Parser σ ε α) : Parser σ φ β := rewinding ⟨do
  match ← p.run with
  | .undecided => return .undecided
  | .rejected error => return .rejected (adapt error)
  | .accepted value =>
    let (answer, gathered) ← Scan.remember (judge gathered (.ok value))
    if answer.isUndecided then iterate p judge fuel gathered else return answer⟩

/-- Gathers values until an element rejects. -/
def collect (values : Array α) : Except ε α → Verdict φ (List α) × Array α
  | .ok value => (.undecided, values.push value)
  | .error _ => (.accepted values.toList, values)

/-- As many elements as there are, even none. -/
def star (fuel : Nat) (p : Parser σ ε α) : Parser σ φ (List α) :=
  repeating fuel #[] (Judge.pure collect) p

/-- As many elements as there are, and at least one. If the first rejects, its reason is adapted. -/
def plus (fuel : Nat) (adapt : ε → φ) (p : Parser σ ε α) : Parser σ φ (List α) :=
  repeatingSome fuel #[] (Judge.pure collect) adapt p

/-- Gathers values until the greatest number is reached or an element rejects. Rejection with fewer
than the least number is the repetition's own. -/
def collectWithin (bounds : Bounds) (values : Array α) : Except ε α → Verdict ε (List α) × Array α
  | .error error =>
    (if bounds.min.reachedBy values.size then .accepted values.toList else .rejected error, values)
  | .ok value =>
    let values := values.push value
    (if bounds.max.reachedBy values.size then .accepted values.toList else .undecided, values)

/-- As many elements as there are, within `bounds`. Nothing is looked at behind the last element
that the bounds allow. -/
def repetition (fuel : Nat) (bounds : Bounds) (p : Parser σ ε α) : Parser σ ε (List α) :=
  if bounds.max = .times 0 then return []
  else repeating fuel #[] (Judge.pure (collectWithin bounds)) p

/-- Elements with separators between them, at least one. A separator that no element follows is not
taken. -/
def sepBy (fuel : Nat) (p : Parser σ ε α) (separator : Parser σ ε β) : Parser σ ε (List α) :=
  let next : Parser σ ε α := rewinding do
    let _ ← separator
    p
  rewinding do
    let first ← p
    let others ← star fuel next
    return first :: others

end Parser

end StreamGrammar
