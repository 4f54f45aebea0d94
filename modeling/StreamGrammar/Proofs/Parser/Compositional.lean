import StreamGrammar.Proofs.Parser.Settle
import Mathlib.Data.List.Forall2

/-!
# Relations between parsers that carry over to what is built of them

A relation `P` between parsers is `Closed` if it respects the few constructions of which the
combinators are made (`Parser.settle` and `Parser.rewindingUnless`). It then relates what each
combinator without repetition makes of related parsers. In the second parser of a related pair the
repetitions may have more fuel than in the first one, so `P` has to hold where the first one runs
out of it, too, to be `Compositional` for all combinators.

A property of a single parser is a relation that ignores the second one.
-/

namespace StreamGrammar.Parser

variable {σ τ ε φ α β : Type}

/-- A relation that carries over from parsers to the constructions behind all combinators. -/
structure Closed (P : ∀ ⦃ε α : Type⦄, Parser σ ε α → Parser σ ε α → Prop) : Prop where
  accept {ε α : Type} (value : α) : P (accept value : Parser σ ε α) (Parser.accept value)
  reject {ε α : Type} (error : ε) : P (reject error : Parser σ ε α) (Parser.reject error)
  settle {ε φ α β : Type} {p q : Parser σ ε α} {next next' : Except ε α → Parser σ φ β} :
    P p q → (∀ item, P (next item) (next' item)) → P (p.settle next) (q.settle next')
  rewindingUnless {ε α : Type} (keep : Verdict ε α → Bool) {p q : Parser σ ε α} :
    P p q → P (rewindingUnless keep p) (Parser.rewindingUnless keep q)

/-- A relation that carries over to repetitions, however much fuel they have. -/
structure Compositional (P : ∀ ⦃ε α : Type⦄, Parser σ ε α → Parser σ ε α → Prop) : Prop
    extends Closed P where
  ranOut {ε α : Type} (q : Parser σ ε α) : P ⟨throw .ranOut⟩ q

/-! ## Without repetition -/

namespace Closed

variable {P : ∀ ⦃ε α : Type⦄, Parser σ ε α → Parser σ ε α → Prop} (h : Closed P)
  {p q : Parser σ ε α} {ps qs : List (Parser σ ε α)}
include h

theorem andThen {f g : α → Parser σ ε β} (hp : P p q) (hf : ∀ value, P (f value) (g value)) :
    P (p.andThen f) (q.andThen g) := by
  rw [andThen_eq_settle, andThen_eq_settle]
  refine h.settle hp fun item => ?_
  cases item with
  | error error => exact h.reject error
  | ok value => exact hf value

theorem map (f : α → β) (hp : P p q) : P (p.map f) (q.map f) := by
  rw [map_eq_settle, map_eq_settle]
  refine h.settle hp fun item => ?_
  cases item with
  | error error => exact h.reject error
  | ok value => exact h.accept (f value)

theorem mapError (f : ε → φ) (hp : P p q) : P (p.mapError f) (q.mapError f) := by
  rw [mapError_eq_settle, mapError_eq_settle]
  refine h.settle hp fun item => ?_
  cases item with
  | error error => exact h.reject (f error)
  | ok value => exact h.accept value

theorem optional (default : α) (hp : P p q) :
    P (p.optional default : Parser σ φ α) (q.optional default) := by
  rw [optional_eq_settle, optional_eq_settle]
  refine h.settle hp fun item => ?_
  cases item with
  | error error => exact h.accept default
  | ok value => exact h.accept value

theorem rewinding (hp : P p q) : P (rewinding p) (Parser.rewinding q) := h.rewindingUnless _ hp

theorem found (isEmpty : α → Bool) (hp : P p q) : P (found isEmpty p) (Parser.found isEmpty q) :=
  h.rewindingUnless _ hp

theorem alternation (hp : P p q) (hps : List.Forall₂ (P (ε := ε) (α := α)) ps qs) :
    P (alternation p ps) (Parser.alternation q qs) := by
  induction hps generalizing p q with
  | nil => exact hp
  | cons hhead _ ih =>
    -- The next alternative is tried where the first one has rejected.
    rw [alternation_cons_eq_settle, alternation_cons_eq_settle]
    refine h.settle hp fun item => ?_
    cases item with
    | error error => exact ih hhead
    | ok value => exact h.accept value

theorem inOrder (hps : List.Forall₂ (P (ε := ε) (α := α)) ps qs) :
    P (inOrder ps) (Parser.inOrder qs) := by
  induction hps with
  | nil => exact h.accept []
  | cons hhead _ ih =>
    exact h.andThen hhead fun value => h.andThen ih fun values => h.accept (value :: values)

theorem concatenation (hps : List.Forall₂ (P (ε := ε) (α := α)) ps qs) :
    P (concatenation ps) (Parser.concatenation qs) := h.rewinding (h.inOrder hps)

theorem firstFound (isEmpty : α → Bool) (empty : α)
    (hps : List.Forall₂ (P (ε := ε) (α := α)) ps qs) :
    P (firstFound isEmpty empty ps) (Parser.firstFound isEmpty empty qs) := by
  induction hps with
  | nil => exact h.accept empty
  | cons hhead _ ih =>
    refine h.andThen (h.found isEmpty hhead) fun value => ?_
    split
    · exact ih
    · exact h.accept value

end Closed

/-! ## With repetition -/

namespace Compositional

variable {P : ∀ ⦃ε α : Type⦄, Parser σ ε α → Parser σ ε α → Prop} (h : Compositional P)
  {p q : Parser σ ε α}
include h

theorem answerOr {next next' : Parser σ ε α} (hnext : P next next') (answer : Verdict ε α) :
    P (next.answerOr answer) (next'.answerOr answer) := by
  cases answer with
  | accepted value => exact h.accept value
  | undecided => exact hnext
  | rejected error => exact h.reject error

/-- A judge may be asked in related parsers. -/
abbrev Asks (P : ∀ ⦃ε α : Type⦄, Parser σ ε α → Parser σ ε α → Prop)
    (judge : Judge σ τ ε α φ β) : Prop :=
  ∀ gathered item, P (ofScan (Scan.remember (judge gathered item)) : Parser σ φ _)
    (ofScan (Scan.remember (judge gathered item)))

theorem asks_pure (f : τ → Except ε α → Verdict φ β × τ) : Asks P (Judge.pure f) := by
  intro gathered item
  rw [remember_pure]
  exact h.accept _

variable {judge : Judge σ τ ε α φ β} (hjudge : Asks P judge) {fuel fuel' : Nat}
include hjudge

theorem judged {next next' : τ → Parser σ φ β}
    (hnext : ∀ gathered, P (next gathered) (next' gathered)) (gathered : τ) (item : Except ε α) :
    P (judged judge next gathered item) (Parser.judged judge next' gathered item) :=
  h.andThen (hjudge gathered item) fun (answer, gathered) => h.answerOr (hnext gathered) answer

/-- By induction on the fuel of the first parser: each round is one more element. -/
theorem iterate (hp : P p q) (hle : fuel ≤ fuel') (gathered : τ) :
    P (⟨Parser.iterate p judge fuel gathered⟩ : Parser σ φ β)
      ⟨Parser.iterate q judge fuel' gathered⟩ := by
  induction fuel generalizing fuel' gathered with
  | zero => exact h.ranOut _
  | succ fuel ih =>
    -- The second parser has fuel for this element, too.
    obtain ⟨fuel', rfl⟩ : ∃ n, fuel' = n + 1 := ⟨fuel' - 1, by omega⟩
    rw [iterate_succ_eq_settle, iterate_succ_eq_settle]
    exact h.settle hp (h.judged hjudge (ih (Nat.le_of_succ_le_succ hle)) gathered)

theorem repeating (hp : P p q) (hle : fuel ≤ fuel') (gathered : τ) :
    P (repeating fuel gathered judge p) (Parser.repeating fuel' gathered judge q) :=
  h.rewinding (h.iterate hjudge hp hle gathered)

theorem iterateSome (adapt : ε → φ) (hp : P p q) (hle : fuel ≤ fuel') (gathered : τ) :
    P (iterateSome p judge adapt fuel gathered)
      (Parser.iterateSome q judge adapt fuel' gathered) := by
  refine h.settle hp fun item => ?_
  cases item with
  | error error => exact h.reject (adapt error)
  | ok value => exact h.judged hjudge (h.iterate hjudge hp hle) gathered (.ok value)

theorem repeatingSome (adapt : ε → φ) (hp : P p q) (hle : fuel ≤ fuel') (gathered : τ) :
    P (repeatingSome fuel gathered judge adapt p)
      (Parser.repeatingSome fuel' gathered judge adapt q) := by
  rw [repeatingSome_eq_rewinding, repeatingSome_eq_rewinding]
  exact h.rewinding (h.iterateSome hjudge adapt hp hle gathered)

omit hjudge

theorem star (hp : P p q) (hle : fuel ≤ fuel') :
    P (star fuel p : Parser σ φ _) (Parser.star fuel' q) :=
  h.repeating (h.asks_pure collect) hp hle #[]

theorem plus (adapt : ε → φ) (hp : P p q) (hle : fuel ≤ fuel') :
    P (plus fuel adapt p) (Parser.plus fuel' adapt q) :=
  h.repeatingSome (h.asks_pure collect) adapt hp hle #[]

theorem repetition (bounds : Bounds) (hp : P p q) (hle : fuel ≤ fuel') :
    P (repetition fuel bounds p) (Parser.repetition fuel' bounds q) := by
  unfold Parser.repetition
  split
  · exact h.accept []
  · exact h.repeating (h.asks_pure (collectWithin bounds)) hp hle #[]

theorem separated (separator separator' : Parser σ ε β) (hp : P p q)
    (hseparator : P separator separator') (hle : fuel ≤ fuel') :
    P (separated fuel p separator) (Parser.separated fuel' q separator') := by
  have hnext := h.rewinding (h.andThen hseparator fun _ => hp)
  refine h.andThen hp fun first => ?_
  exact h.andThen (h.star hnext hle) fun others => h.accept (first :: others)

theorem sepBy (separator separator' : Parser σ ε β) (hp : P p q)
    (hseparator : P separator separator') (hle : fuel ≤ fuel') :
    P (sepBy fuel p separator) (Parser.sepBy fuel' q separator') := by
  rw [sepBy_eq_rewinding, sepBy_eq_rewinding]
  exact h.rewinding (h.separated separator separator' hp hseparator hle)

end Compositional

end StreamGrammar.Parser
