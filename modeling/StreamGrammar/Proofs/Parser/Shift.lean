import StreamGrammar.Proofs.Input.Unread
import StreamGrammar.Proofs.Parser.Contract

/-!
# The same bytes elsewhere

A parser is run twice, on cursors that are abreast: the bytes before them are the same, and what
came before is not. Both runs take the same course, move over as many bytes and answer alike
(`Mirrors`). The answers are the same up to the offsets in them. What this means for the values of a
parser is said by two functions, which turn the errors and the values of the first run into those of
the second one. A parser that answers so to itself `Shifts`.

The combinators pass this on as far as the functions that a parser is built with commute with the
two. Judges commute if, told the values of the second run, they answer as in the first one
(`Judge.Commutes`).
-/

namespace StreamGrammar

open Input (Cursor)

variable {σ τ ε φ α β : Type}

/-- The mismatch at an offset that is `n` more. -/
def Mismatch.shift (n : Int) (m : Mismatch) : Mismatch := ⟨m.expected, m.position + n⟩

/-- Applies `f` to an error, and `g` to a value. -/
def Except.bimap (f : ε → φ) (g : α → β) : Except ε α → Except φ β
  | .ok value => .ok (g value)
  | .error error => .error (f error)

/-- The judge that is told the elements of the second run answers as in the first one. What it has
gathered is related by `k`. -/
def Judge.Commutes (f : ε → ε) (g : α → α) (f' : φ → φ) (g' : β → β) (k : τ → τ)
    (judge : τ → Except ε α → Verdict φ β × τ) : Prop :=
  ∀ gathered item, judge (k gathered) (Except.bimap f g item) =
    ((judge gathered item).1.bimap f' g', k (judge gathered item).2)

namespace Parser

/-- How two runs end that take the same course: either both run out of fuel, or both answer, having
moved over as many bytes. -/
inductive Mirrored (n : Int) (f : ε → ε) (g : α → α) (s s' : Scanner σ) :
    EStateM.Result Halt (Scanner σ) (Verdict ε α) →
      EStateM.Result Halt (Scanner σ) (Verdict ε α) → Prop
  | ranOut {t t' : Scanner σ} : Mirrored n f g s s' (.error .ranOut t) (.error .ranOut t')
  | ok (verdict : Verdict ε α) {t t' : Scanner σ} (left : s.cursor.Onward t.cursor)
      (right : s'.cursor.Onward t'.cursor)
      (position_eq : (t'.cursor.position : Int) = t.cursor.position + n) :
      Mirrored n f g s s' (.ok verdict t) (.ok (verdict.bimap f g) t')

/-- Where `q` has the same bytes before it as `p`, it does the same. -/
def Mirrors (n : Int) (f : ε → ε) (g : α → α) (p q : Parser σ ε α) : Prop :=
  ∀ ⦃input input' : List UInt8⦄ ⦃s s' : Scanner σ⦄,
    s.cursor.Abreast n input input' s'.cursor → Mirrored n f g s s' (p.run s) (q.run s')

/-- The parser does the same wherever it has the same bytes before it. -/
abbrev Shifts (n : Int) (f : ε → ε) (g : α → α) (p : Parser σ ε α) : Prop := Mirrors n f g p p

variable {n : Int} {f : ε → ε} {g : α → α} {f' : φ → φ} {g' : β → β}

/-- Both runs may have come some way before. -/
theorem Mirrored.trans {s s' t t' : Scanner σ}
    {result result' : EStateM.Result Halt (Scanner σ) (Verdict ε α)}
    (h : Mirrored n f g t t' result result') (hleft : s.cursor.Onward t.cursor)
    (hright : s'.cursor.Onward t'.cursor) : Mirrored n f g s s' result result' := by
  cases h with
  | ranOut => exact .ranOut
  | ok verdict left right position_eq =>
    exact .ok verdict (hleft.trans left) (hright.trans right) position_eq

/-- An answer that does not move the cursor. -/
theorem Mirrored.stay {input input' : List UInt8} {s s' : Scanner σ}
    (hs : s.cursor.Abreast n input input' s'.cursor) (verdict : Verdict ε α) :
    Mirrored n f g s s' (.ok verdict s) (.ok (verdict.bimap f g) s') :=
  .ok verdict (.refl hs.left.toInRange) (.refl hs.right.toInRange) hs.position_eq

/-- Two runs that start abreast both run out of fuel, or they take the same number of bytes. -/
theorem Shifts.runs {p : Parser σ ε α} (hp : p.Shifts n f g) {input input' : List UInt8}
    {s s' : Scanner σ} (hs : s.cursor.Abreast n input input' s'.cursor) :
    (∃ t t', p.run s = .error .ranOut t ∧ p.run s' = .error .ranOut t') ∨
    ∃ verdict t t' count, p.run s = .ok verdict t ∧ p.run s' = .ok (verdict.bimap f g) t' ∧
      t.cursor.position = s.cursor.position + count ∧
      t'.cursor.position = s'.cursor.position + count := by
  have hmirrored := hp hs
  generalize p.run s = result, p.run s' = result' at hmirrored
  cases hmirrored with
  | @ranOut t t' => exact .inl ⟨t, t', rfl, rfl⟩
  | @ok verdict t t' left right position_eq =>
    have hle := left.position_le
    have hsteps := hs.consumed_eq left right position_eq
    have hle' := right.position_le
    exact .inr ⟨verdict, t, t', t.cursor.position - s.cursor.position, rfl, rfl, by omega, by omega⟩

/-! ## What the combinators are made of -/

theorem mirrors_ranOut : Mirrors n f g (⟨throw .ranOut⟩ : Parser σ ε α) ⟨throw .ranOut⟩ :=
  fun _ _ _ _ _ => .ranOut

theorem mirrors_accept (value : α) :
    Mirrors n f g (accept value : Parser σ ε α) (accept (g value)) :=
  fun _ _ _ _ hs => .stay hs (.accepted value)

theorem mirrors_reject (error : ε) :
    Mirrors n f g (reject error : Parser σ ε α) (reject (f error)) :=
  fun _ _ _ _ hs => .stay hs (.rejected error)

theorem mirrors_settle {p q : Parser σ ε α} {next next' : Except ε α → Parser σ φ β}
    (hp : Mirrors n f g p q)
    (hok : ∀ value, Mirrors n f' g' (next (.ok value)) (next' (.ok (g value))))
    (herror : ∀ error, Mirrors n f' g' (next (.error error)) (next' (.error (f error)))) :
    Mirrors n f' g' (p.settle next) (q.settle next') := by
  intro input input' s s' hs
  have hfirst := hp hs
  rw [run_settle, run_settle]
  generalize p.run s = first at hfirst ⊢
  generalize q.run s' = first' at hfirst ⊢
  cases hfirst with
  | ranOut => exact .ranOut
  | @ok verdict t t' left right position_eq =>
    -- Both runs go on where they are abreast again.
    have ht := hs.move left right position_eq
    cases verdict with
    | accepted value => exact (hok value ht).trans left right
    | undecided => exact .ok .undecided left right position_eq
    | rejected error => exact (herror error ht).trans left right

theorem mirrors_rewindingUnless {keep : Verdict ε α → Bool}
    (hkeep : ∀ verdict : Verdict ε α, keep (verdict.bimap f g) = keep verdict)
    {p q : Parser σ ε α} (hp : Mirrors n f g p q) :
    Mirrors n f g (rewindingUnless keep p) (rewindingUnless keep q) := by
  intro input input' s s' hs
  -- The marks are taken before the bodies start, and do not move the cursors.
  have hmarked : (s.log (.marked s.cursor.position)).cursor.Abreast n input input'
    (s'.log (.marked s'.cursor.position)).cursor := hs
  have hbody := hp hmarked
  generalize hrun : p.run _ = result, hrun' : q.run _ = result' at hbody
  cases hbody with
  | ranOut =>
    rw [run_rewindingUnless, run_rewindingUnless, hrun, hrun']
    exact .ranOut
  | @ok verdict t t' left right position_eq =>
    have hleft : s.cursor.Onward t.cursor := left
    have hright : s'.cursor.Onward t'.cursor := right
    rw [run_rewindingUnless_of_ok keep hs.left.toInRange hleft.toWithin hrun,
      run_rewindingUnless_of_ok keep hs.right.toInRange hright.toWithin hrun', hkeep]
    split
    · exact .ok verdict hleft hright position_eq
    · exact .ok verdict (.refl hs.left.toInRange) (.refl hs.right.toInRange) hs.position_eq

/-! ## Without repetition -/

theorem Mirrors.andThen {p q : Parser σ ε α} {next next' : α → Parser σ ε β}
    (hp : Mirrors n f g p q) (hnext : ∀ value, Mirrors n f g' (next value) (next' (g value))) :
    Mirrors n f g' (p.andThen next) (q.andThen next') := by
  rw [andThen_eq_settle, andThen_eq_settle]
  exact mirrors_settle hp hnext mirrors_reject

variable {p : Parser σ ε α} {ps : List (Parser σ ε α)}

theorem Shifts.map {h : α → β} (hp : p.Shifts n f g) (hcomm : ∀ value, h (g value) = g' (h value)) :
    (p.map h).Shifts n f g' := by
  rw [Shifts, map_eq_settle]
  refine mirrors_settle hp (fun value => ?_) mirrors_reject
  dsimp only
  rw [hcomm]
  exact mirrors_accept (h value)

theorem Shifts.mapError {h : ε → φ} (hp : p.Shifts n f g)
    (hcomm : ∀ error, h (f error) = f' (h error)) : (p.mapError h).Shifts n f' g := by
  rw [Shifts, mapError_eq_settle]
  refine mirrors_settle hp mirrors_accept fun error => ?_
  dsimp only
  rw [hcomm]
  exact mirrors_reject (h error)

theorem Shifts.optional {default : α} (hp : p.Shifts n f g) (hdefault : g default = default) :
    (p.optional default : Parser σ φ α).Shifts n f' g := by
  rw [Shifts, optional_eq_settle]
  refine mirrors_settle hp mirrors_accept fun _ => ?_
  have haccept := mirrors_accept (σ := σ) (n := n) (f := f') (g := g) default
  rw [hdefault] at haccept
  exact haccept

theorem Shifts.alternation (hp : p.Shifts n f g) (hps : ∀ q ∈ ps, q.Shifts n f g) :
    (alternation p ps).Shifts n f g := by
  induction ps generalizing p with
  | nil => exact hp
  | cons q ps ih =>
    obtain ⟨hq, hps⟩ := List.forall_mem_cons.mp hps
    rw [Shifts, alternation_cons_eq_settle]
    exact mirrors_settle hp mirrors_accept fun _ => ih hq hps

theorem Shifts.inOrder (hps : ∀ q ∈ ps, q.Shifts n f g) :
    (inOrder ps).Shifts n f (List.map g) := by
  induction ps with
  | nil => exact mirrors_accept []
  | cons q ps ih =>
    obtain ⟨hq, hps⟩ := List.forall_mem_cons.mp hps
    refine Mirrors.andThen hq fun value => ?_
    exact Mirrors.andThen (ih hps) fun values => mirrors_accept (value :: values)

theorem Mirrors.rewinding {q : Parser σ ε α} (hp : Mirrors n f g p q) :
    Mirrors n f g (rewinding p) (Parser.rewinding q) := by
  refine mirrors_rewindingUnless (fun verdict => ?_) hp
  cases verdict <;> rfl

theorem Shifts.concatenation (hps : ∀ q ∈ ps, q.Shifts n f g) :
    (concatenation ps).Shifts n f (List.map g) := Mirrors.rewinding (Shifts.inOrder hps)

section Finding

variable {isEmpty : α → Bool} (hempty : ∀ value, isEmpty (g value) = isEmpty value)
include hempty

theorem Shifts.found (hp : p.Shifts n f g) : (found isEmpty p).Shifts n f g := by
  refine mirrors_rewindingUnless (fun verdict => ?_) hp
  cases verdict with
  | accepted value =>
    change (!isEmpty (g value)) = !isEmpty value
    rw [hempty]
  | undecided => rfl
  | rejected error => rfl

theorem Shifts.firstFound {empty : α} (hvalue : g empty = empty)
    (hps : ∀ q ∈ ps, q.Shifts n f g) : (firstFound isEmpty empty ps).Shifts n f g := by
  induction ps with
  | nil =>
    have haccept := mirrors_accept (σ := σ) (n := n) (f := f) (g := g) empty
    rw [hvalue] at haccept
    exact haccept
  | cons q ps ih =>
    obtain ⟨hq, hps⟩ := List.forall_mem_cons.mp hps
    refine Mirrors.andThen (Shifts.found hempty hq) fun value => ?_
    rw [hempty]
    split
    · exact ih hps
    · exact mirrors_accept value

end Finding

/-! ## With repetition -/

variable {judge : τ → Except ε α → Verdict φ β × τ} {k : τ → τ}
  (hjudge : Judge.Commutes f g f' g' k judge)
include hjudge

theorem Mirrors.judged (next next' : τ → Parser σ φ β)
    (hnext : ∀ gathered, Mirrors n f' g' (next gathered) (next' (k gathered))) (gathered : τ)
    (item : Except ε α) :
    Mirrors n f' g' (judged (Judge.pure judge) next gathered item)
      (Parser.judged (Judge.pure judge) next' (k gathered) (Except.bimap f g item)) := by
  rw [Parser.judged, Parser.judged, remember_pure, remember_pure, hjudge gathered item]
  change Mirrors n f' g' (answerOr _ (judge gathered item).1) (answerOr _ (Verdict.bimap f' g' _))
  generalize (judge gathered item).2 = gathered'
  cases (judge gathered item).1 with
  | accepted value => exact mirrors_accept value
  | undecided => exact hnext gathered'
  | rejected error => exact mirrors_reject error

/-- By induction on the fuel: each round is one more element in both runs. -/
theorem Mirrors.iterate {q : Parser σ ε α} (hp : Mirrors n f g p q) (fuel : Nat) (gathered : τ) :
    Mirrors n f' g' ⟨iterate p (Judge.pure judge) fuel gathered⟩
      ⟨Parser.iterate q (Judge.pure judge) fuel (k gathered)⟩ := by
  induction fuel generalizing gathered with
  | zero => exact mirrors_ranOut
  | succ fuel ih =>
    rw [iterate_succ_eq_settle, iterate_succ_eq_settle]
    refine mirrors_settle hp (fun value => ?_) fun error => ?_
    · exact Mirrors.judged hjudge _ _ ih gathered (.ok value)
    · exact Mirrors.judged hjudge _ _ ih gathered (.error error)

variable {gathered : τ} (hgathered : k gathered = gathered)
include hgathered

theorem Shifts.repeating (hp : p.Shifts n f g) (fuel : Nat) :
    (repeating fuel gathered (Judge.pure judge) p).Shifts n f' g' := by
  have hiterate := Mirrors.iterate hjudge hp fuel gathered
  rw [hgathered] at hiterate
  exact hiterate.rewinding

theorem Shifts.repeatingSome {adapt : ε → φ} (hp : p.Shifts n f g)
    (hadapt : ∀ error, adapt (f error) = f' (adapt error)) (fuel : Nat) :
    (repeatingSome fuel gathered (Judge.pure judge) adapt p).Shifts n f' g' := by
  have hiterate := Mirrors.iterate hjudge hp fuel
  rw [Shifts, repeatingSome_eq_rewinding]
  refine Mirrors.rewinding (mirrors_settle hp (fun value => ?_) fun error => ?_)
  · let next (gathered : τ) : Parser σ φ β := ⟨Parser.iterate p (Judge.pure judge) fuel gathered⟩
    have hjudged := Mirrors.judged hjudge next next hiterate gathered (.ok value)
    rw [hgathered] at hjudged
    exact hjudged
  · -- A first element that rejects is not judged.
    dsimp only
    rw [hadapt]
    exact mirrors_reject (adapt error)

omit hjudge hgathered

theorem commutes_collect :
    Judge.Commutes f g f' (List.map g) (Array.map g) (collect : Array α → Except ε α → _) := by
  intro values item
  cases item with
  | error error => exact Prod.ext (by simp [collect, Except.bimap, Verdict.bimap]) rfl
  | ok value => exact Prod.ext rfl (by simp [collect, Except.bimap])

/-- Whether a count is reached does not depend on the values. -/
theorem commutes_collectWithin (bounds : Bounds) :
    Judge.Commutes f g f (List.map g) (Array.map g) (collectWithin bounds) := by
  intro values item
  cases item with
  | error error =>
    refine Prod.ext ?_ rfl
    dsimp only [collectWithin, Except.bimap]
    rw [Array.size_map]
    split <;> simp [Verdict.bimap]
  | ok value =>
    refine Prod.ext ?_ (by simp [collectWithin, Except.bimap])
    dsimp only [collectWithin, Except.bimap]
    rw [← Array.map_push, Array.size_map]
    split <;> simp [Verdict.bimap]

theorem Shifts.star (hp : p.Shifts n f g) (fuel : Nat) :
    (star fuel p : Parser σ φ _).Shifts n f' (List.map g) :=
  Shifts.repeating commutes_collect Array.map_empty hp fuel

theorem Shifts.plus {adapt : ε → φ} (hp : p.Shifts n f g)
    (hadapt : ∀ error, adapt (f error) = f' (adapt error)) (fuel : Nat) :
    (plus fuel adapt p).Shifts n f' (List.map g) :=
  Shifts.repeatingSome commutes_collect Array.map_empty hp hadapt fuel

theorem Shifts.repetition (hp : p.Shifts n f g) (fuel : Nat) (bounds : Bounds) :
    (repetition fuel bounds p).Shifts n f (List.map g) := by
  unfold Parser.repetition
  split
  · exact mirrors_accept []
  · exact Shifts.repeating (commutes_collectWithin bounds) Array.map_empty hp fuel

theorem Shifts.sepBy {h : β → β} {separator : Parser σ ε β} (hp : p.Shifts n f g)
    (hseparator : separator.Shifts n f h) (fuel : Nat) :
    (sepBy fuel p separator).Shifts n f (List.map g) := by
  rw [Shifts, sepBy_eq_rewinding]
  have hnext : (rewinding (separator.andThen fun _ => p)).Shifts n f g :=
    Mirrors.rewinding (Mirrors.andThen hseparator fun _ => hp)
  refine Mirrors.rewinding (Mirrors.andThen hp fun first => ?_)
  exact Mirrors.andThen (hnext.star fuel) fun others => mirrors_accept (first :: others)

/-! ## Terminals -/

variable {input input' : List UInt8} {c d : Cursor}

/-- What is missing is missing in both runs, each at its own offset. -/
theorem missed_shift (h : c.Abreast n input input' d) (expected : String) :
    (missed expected d : Verdict Mismatch α) =
      (missed expected c).bimap (Mismatch.shift n) g := by
  unfold missed
  rw [h.ended_eq, h.position_eq]
  cases c.ended <;> rfl

theorem shifts_byte (test : UInt8 → Bool) (expected : String) :
    (byte test expected : Parser σ _ _).Shifts n (Mismatch.shift n) id := by
  intro input input' s s' hs
  have hpeek' : s'.cursor.peek 0 = s.cursor.peek 0 := hs.peek_eq 0
  rw [run_byte, run_byte, hpeek', missed_shift hs expected]
  cases hpeek : s.cursor.peek 0 with
  | none => exact .stay hs _
  | some value =>
    dsimp only
    split
    · have hlt := Cursor.lt_stop_of_peek 0 hpeek
      have hlt' := Cursor.lt_stop_of_peek 0 (hpeek'.trans hpeek)
      refine .ok (.accepted value) (Cursor.onward_add hs.left.toInRange hlt)
        (Cursor.onward_add hs.right.toInRange hlt') ?_
      have hposition := hs.position_eq
      dsimp only
      omega
    · rw [hs.position_eq]
      exact .stay hs (.rejected (⟨expected, s.cursor.position⟩ : Mismatch))

theorem comparison_shift (h : c.Abreast n input input' d) (l : Literal) (codes : List UInt8)
    (ahead : Nat) :
    comparison l d codes ahead = (comparison l c codes ahead).bimap (Mismatch.shift n) id := by
  induction codes generalizing ahead with
  | nil => rfl
  | cons code codes ih =>
    unfold comparison
    rw [h.peek_eq]
    cases c.peek ahead with
    | none => exact missed_shift h l.expected
    | some value =>
      dsimp only
      split
      · exact ih (ahead + 1)
      · rw [h.position_eq]
        rfl

theorem shifts_literal (l : Literal) :
    (literal l : Parser σ _ _).Shifts n (Mismatch.shift n) id := by
  intro input input' s s' hs
  rw [run_literal hs.left.toInRange, run_literal hs.right.toInRange, comparison_shift hs]
  cases hcomparison : comparison l s.cursor l.codes 0 with
  | accepted value =>
    have hcomparison' := comparison_shift hs l l.codes 0
    rw [hcomparison] at hcomparison'
    have hmoved := Cursor.onward_add hs.left.toInRange
      (add_le_stop_of_comparison hs.left.le_stop hcomparison)
    have hmoved' := Cursor.onward_add hs.right.toInRange
      (add_le_stop_of_comparison hs.right.le_stop hcomparison')
    have hposition : ((s'.cursor.position + l.codes.length : Nat) : Int) =
        (s.cursor.position + l.codes.length : Nat) + n := by
      have h := hs.position_eq
      omega
    -- The texts that are read are the bytes that both cursors move over.
    obtain ⟨bytes, hbytes, hbytes'⟩ := hs.slice_eq hmoved hmoved' hposition
    have hread : s.cursor.slice s.cursor.position _ = .ok bytes := hbytes
    have hread' : s'.cursor.slice s'.cursor.position _ = .ok bytes := hbytes'
    dsimp only [Verdict.bimap]
    rw [hread, hread']
    exact .ok (.accepted _) hmoved hmoved' hposition
  | undecided => exact .stay hs .undecided
  | rejected error => exact .stay hs (.rejected error)

theorem Shifts.captured (hp : p.Shifts n f g) : (captured p).Shifts n f id := by
  intro input input' s s' hs
  have hbody := hp hs
  rw [run_captured, run_captured]
  generalize p.run s = result at hbody ⊢
  generalize p.run s' = result' at hbody ⊢
  cases hbody with
  | ranOut => exact .ranOut
  | @ok verdict t t' left right position_eq =>
    cases verdict with
    | accepted value =>
      obtain ⟨bytes, hbytes, hbytes'⟩ := hs.slice_eq left right position_eq
      dsimp only [Verdict.bimap]
      rw [hbytes, hbytes']
      exact .ok (.accepted _) left right position_eq
    | undecided => exact .ok .undecided left right position_eq
    | rejected error => exact .ok (.rejected error) left right position_eq

end Parser

end StreamGrammar
