import StreamGrammar.Proofs.Parser.Contract

/-!
# Where mismatches are blamed

A mismatch is blamed on a byte that is there, or on the end of an input that has ended
(`Input.Cursor.MayBlame`). The terminals see to that. The combinators pass on the errors of their
parts, which may have been tried further on, also after the cursor has been put back. So the errors
are bounded by the cursor of the whole run (`Parser.RejectsWith`), and not by where the cursor is
when it rejects.
-/

namespace StreamGrammar

open Input (Cursor)

variable {σ τ ε φ α β : Type}

/-! ## Places to blame -/

namespace Input.Cursor

/-- A run from the cursor on may blame the position: a byte is there, or it is the end of an input
that has ended. -/
structure MayBlame (c : Cursor) (position : Int) : Prop where
  position_le : c.position ≤ position
  le_stop : position ≤ c.buffer.stop
  lt_stop : c.ended = false → position < c.buffer.stop

variable {c d : Cursor}

theorem Onward.mayBlame (h : c.Onward d) {position : Int} (hd : d.MayBlame position) :
    c.MayBlame position where
  position_le := Int.le_trans (Int.ofNat_le.mpr h.position_le) hd.position_le
  le_stop := h.buffer_eq ▸ hd.le_stop
  lt_stop := fun hopen => h.buffer_eq ▸ hd.lt_stop (h.ended_eq.trans hopen)

/-- If some byte from the cursor on is held, then so is the next one. -/
theorem mayBlame_of_peek {ahead : Nat} {value : UInt8} (hpeek : c.peek ahead = some value) :
    c.MayBlame c.position := by
  have hlt := lt_stop_of_peek ahead hpeek
  exact ⟨Int.le_refl _, by omega, fun _ => by omega⟩

theorem mayBlame_of_ended (hc : c.InRange) (hended : c.ended = true) : c.MayBlame c.position where
  position_le := Int.le_refl _
  le_stop := Int.ofNat_le.mpr hc.le_stop
  lt_stop := fun hopen => by
    rw [hended] at hopen
    cases hopen

end Input.Cursor

namespace Parser

variable {c : Cursor} {P : ε → Prop} {Q : φ → Prop} {p : Parser σ ε α}
  {ps : List (Parser σ ε α)}

/-- From `c` on, runs go onward, and they reject with the errors of `P` only. -/
def RejectsWith (c : Cursor) (P : ε → Prop) (p : Parser σ ε α) : Prop :=
  ∀ (s t : Scanner σ) (verdict : Verdict ε α), c.Onward s.cursor → p.run s = .ok verdict t →
    c.Onward t.cursor ∧ ∀ error, verdict = .rejected error → P error

/-! ## Terminals -/

theorem mayBlame_of_missed {expected : String} {m : Mismatch} (hc : c.InRange)
    (h : (missed expected c : Verdict Mismatch α) = .rejected m) : c.MayBlame m.position := by
  unfold missed at h
  split at h
  · next hended =>
    obtain rfl := Verdict.rejected.inj h
    exact Cursor.mayBlame_of_ended hc hended
  · cases h

theorem mayBlame_of_comparison {l : Literal} {codes : List UInt8} {ahead : Nat} {m : Mismatch}
    (hc : c.InRange) (h : comparison l c codes ahead = .rejected m) : c.MayBlame m.position := by
  induction codes generalizing ahead with
  | nil => cases h
  | cons code codes ih =>
    unfold comparison at h
    cases hpeek : c.peek ahead with
    | none =>
      rw [hpeek] at h
      exact mayBlame_of_missed hc h
    | some value =>
      rw [hpeek] at h
      dsimp only at h
      split at h
      · exact ih h
      · obtain rfl := Verdict.rejected.inj h
        exact Cursor.mayBlame_of_peek hpeek

/-- A parser rejects with an error about its own place, wherever it is run. -/
theorem RejectsWith.of_keeps {p : Parser σ Mismatch α} (hkeeps : p.Keeps Cursor.Onward)
    (hrejects : ∀ (s t : Scanner σ) (m : Mismatch), s.cursor.InRange →
      p.run s = .ok (.rejected m) t → s.cursor.MayBlame m.position) :
    p.RejectsWith c (c.MayBlame ·.position) := by
  intro s t verdict hs hrun
  refine ⟨hs.trans (hkeeps.ok hs.inRange hrun), fun m hm => ?_⟩
  subst hm
  exact hs.mayBlame (hrejects s t m hs.inRange hrun)

theorem rejectsWith_byte (test : UInt8 → Bool) (expected : String) :
    (byte test expected : Parser σ _ _).RejectsWith c (c.MayBlame ·.position) := by
  refine .of_keeps (keeps_byte test expected) fun s t m hs hrun => ?_
  rcases byte_ok hrun with ⟨_, -, -, h, -⟩ | ⟨value, hpeek, -, h, -⟩ | ⟨-, h, -⟩
  · cases h
  · obtain rfl := Verdict.rejected.inj h
    exact Cursor.mayBlame_of_peek hpeek
  · exact mayBlame_of_missed hs h.symm

theorem rejectsWith_literal (text : Literal) :
    (literal text : Parser σ _ _).RejectsWith c (c.MayBlame ·.position) := by
  refine .of_keeps (keeps_literal text) fun s t m hs hrun => ?_
  rcases literal_ok hs hrun with ⟨_, -, -, h, -⟩ | ⟨-, ⟨-, h⟩ | ⟨error, hcomparison, h⟩⟩
  · cases h
  · cases h
  · obtain rfl := Verdict.rejected.inj h
    exact mayBlame_of_comparison hs hcomparison

/-! ## Going on -/

theorem rejectsWith_accept (value : α) : (accept value : Parser σ ε α).RejectsWith c P := by
  intro s t verdict hs hrun
  obtain ⟨rfl, rfl⟩ := EStateM.Result.ok.inj hrun
  exact ⟨hs, nofun⟩

theorem rejectsWith_reject {error : ε} (h : P error) :
    (reject error : Parser σ ε α).RejectsWith c P := by
  intro s t verdict hs hrun
  obtain ⟨rfl, rfl⟩ := EStateM.Result.ok.inj hrun
  refine ⟨hs, fun error' herror => ?_⟩
  obtain rfl := Verdict.rejected.inj herror
  exact h

theorem rejectsWith_ranOut : (⟨throw .ranOut⟩ : Parser σ ε α).RejectsWith c P := by
  intro s t verdict _ hrun
  cases hrun

/-- What goes on with an error may rely on what is known of it. -/
theorem RejectsWith.settle {next : Except ε α → Parser σ φ β} (hp : p.RejectsWith c P)
    (hnext : ∀ item, (∀ error, item = .error error → P error) → (next item).RejectsWith c Q) :
    (p.settle next).RejectsWith c Q := by
  intro s u verdict hs hrun
  rcases settle_ok hrun with ⟨hbody, rfl⟩ | ⟨first, item, t, hbody, hitem, hrest⟩
  · exact ⟨(hp s u _ hs hbody).1, nofun⟩
  · obtain ⟨ht, herror⟩ := hp s t first hs hbody
    refine hnext item (fun error hitem' => herror error ?_) t u verdict ht hrest
    subst hitem'
    cases first with
    | accepted value => cases hitem
    | undecided => cases hitem
    | rejected error' => rw [Except.error.inj (Option.some.inj hitem)]

theorem RejectsWith.rewindingUnless (keep : Verdict ε α → Bool) (hp : p.RejectsWith c P) :
    (rewindingUnless keep p).RejectsWith c P := by
  intro s u verdict hs hrun
  obtain ⟨t, hbody, -⟩ := rewindingUnless_ok hrun
  obtain ⟨ht, herror⟩ := hp s.marked t verdict hs hbody
  have hwithin : s.cursor.Within t.cursor :=
    ⟨ht.buffer_eq.trans hs.buffer_eq.symm, ht.ended_eq.trans hs.ended_eq.symm, ht.inRange⟩
  rw [run_rewindingUnless_of_ok keep hs.inRange hwithin hbody] at hrun
  obtain ⟨-, rfl⟩ := EStateM.Result.ok.inj hrun
  refine ⟨?_, herror⟩
  split
  · exact ht
  · exact hs

theorem RejectsWith.captured (hp : p.RejectsWith c P) : (captured p).RejectsWith c P := by
  intro s t verdict hs hrun
  rcases captured_ok hrun with ⟨_, _, hbody, rfl, -⟩ | ⟨hbody, rfl⟩ | ⟨error, hbody, rfl⟩
  · exact ⟨(hp s t _ hs hbody).1, nofun⟩
  · exact ⟨(hp s t _ hs hbody).1, nofun⟩
  · obtain ⟨ht, herror⟩ := hp s t _ hs hbody
    refine ⟨ht, fun error' h => ?_⟩
    obtain rfl := Verdict.rejected.inj h
    exact herror error rfl

/-! ## Without repetition -/

section Single

variable (hp : p.RejectsWith c P)
include hp

theorem RejectsWith.andThen {next : α → Parser σ ε β}
    (hnext : ∀ value, (next value).RejectsWith c P) : (p.andThen next).RejectsWith c P := by
  rw [andThen_eq_settle]
  refine hp.settle fun item hitem => ?_
  cases item with
  | error error => exact rejectsWith_reject (hitem error rfl)
  | ok value => exact hnext value

theorem RejectsWith.map (f : α → β) : (p.map f).RejectsWith c P := by
  rw [map_eq_settle]
  refine hp.settle fun item hitem => ?_
  cases item with
  | error error => exact rejectsWith_reject (hitem error rfl)
  | ok value => exact rejectsWith_accept (f value)

theorem RejectsWith.mapError {f : ε → φ} (hf : ∀ error, P error → Q (f error)) :
    (p.mapError f).RejectsWith c Q := by
  rw [mapError_eq_settle]
  refine hp.settle fun item hitem => ?_
  cases item with
  | error error => exact rejectsWith_reject (hf error (hitem error rfl))
  | ok value => exact rejectsWith_accept value

theorem RejectsWith.optional (default : α) :
    (p.optional default : Parser σ φ α).RejectsWith c Q := by
  rw [optional_eq_settle]
  refine hp.settle fun item _ => ?_
  cases item with
  | error error => exact rejectsWith_accept default
  | ok value => exact rejectsWith_accept value

theorem RejectsWith.rewinding : (rewinding p).RejectsWith c P := hp.rewindingUnless _

theorem RejectsWith.found (isEmpty : α → Bool) : (found isEmpty p).RejectsWith c P :=
  hp.rewindingUnless _

/-- The error of the last alternative is the one that counts. -/
theorem RejectsWith.alternation (hps : ∀ q ∈ ps, q.RejectsWith c P) :
    (alternation p ps).RejectsWith c P := by
  induction ps generalizing p with
  | nil => exact hp
  | cons q ps ih =>
    obtain ⟨hq, hps⟩ := List.forall_mem_cons.mp hps
    rw [alternation_cons_eq_settle]
    refine hp.settle fun item _ => ?_
    cases item with
    | error error => exact ih hq hps
    | ok value => exact rejectsWith_accept value

omit hp

theorem rejectsWith_inOrder (hps : ∀ p ∈ ps, p.RejectsWith c P) :
    (inOrder ps).RejectsWith c P := by
  induction ps with
  | nil => exact rejectsWith_accept []
  | cons p ps ih =>
    obtain ⟨hp, hps⟩ := List.forall_mem_cons.mp hps
    exact hp.andThen fun value => (ih hps).andThen fun values => rejectsWith_accept _

theorem rejectsWith_concatenation (hps : ∀ p ∈ ps, p.RejectsWith c P) :
    (concatenation ps).RejectsWith c P := (rejectsWith_inOrder hps).rewinding

theorem rejectsWith_firstFound (isEmpty : α → Bool) (empty : α)
    (hps : ∀ p ∈ ps, p.RejectsWith c P) : (firstFound isEmpty empty ps).RejectsWith c P := by
  induction ps with
  | nil => exact rejectsWith_accept empty
  | cons p ps ih =>
    obtain ⟨hp, hps⟩ := List.forall_mem_cons.mp hps
    refine (hp.found isEmpty).andThen fun value => ?_
    split
    · exact ih hps
    · exact rejectsWith_accept value

end Single

/-! ## With repetition -/

/-- A judge that gathers what `I` is true of, and is told the errors of `P`, rejects with the errors
of `Q` only. -/
def PassesOn (I : τ → Prop) (P : ε → Prop) (Q : φ → Prop)
    (f : τ → Except ε α → Verdict φ β × τ) : Prop :=
  ∀ gathered item, I gathered → (∀ error, item = .error error → P error) →
    I (f gathered item).2 ∧ ∀ error, (f gathered item).1 = .rejected error → Q error

theorem passesOn_collect : PassesOn (fun _ => True) P Q (collect (ε := ε) (α := α)) := by
  intro values item _ _
  cases item <;> exact ⟨trivial, nofun⟩

theorem passesOn_collectWithin (bounds : Bounds) :
    PassesOn (fun _ => True) P P (collectWithin (ε := ε) (α := α) bounds) := by
  intro values item _ hitem
  refine ⟨trivial, fun error h => ?_⟩
  unfold collectWithin at h
  cases item with
  | error error' =>
    dsimp only at h
    split at h
    · cases h
    · obtain rfl := Verdict.rejected.inj h
      exact hitem error' rfl
  | ok value =>
    dsimp only at h
    split at h <;> cases h

section Repeating

variable {I : τ → Prop} {f : τ → Except ε α → Verdict φ β × τ} (hf : PassesOn I P Q f)
include hf

theorem PassesOn.judged {next : τ → Parser σ φ β}
    (hnext : ∀ gathered, I gathered → (next gathered).RejectsWith c Q) {gathered : τ}
    (hgathered : I gathered) {item : Except ε α} (hitem : ∀ error, item = .error error → P error) :
    (judged (Judge.pure f) next gathered item).RejectsWith c Q := by
  obtain ⟨hI, herror⟩ := hf gathered item hgathered hitem
  have hjudged : Parser.judged (Judge.pure f) next gathered item =
      answerOr (next (f gathered item).2) (f gathered item).1 := rfl
  rw [hjudged]
  cases hanswer : (f gathered item).1 with
  | accepted value => exact rejectsWith_accept value
  | undecided => exact hnext _ hI
  | rejected error => exact rejectsWith_reject (herror error hanswer)

variable (hp : p.RejectsWith c P)
include hp

/-- By induction on the fuel: what has been gathered is known in each round. -/
theorem RejectsWith.iterate (fuel : Nat) {gathered : τ} (hgathered : I gathered) :
    (⟨iterate p (Judge.pure f) fuel gathered⟩ : Parser σ φ β).RejectsWith c Q := by
  induction fuel generalizing gathered with
  | zero => exact rejectsWith_ranOut
  | succ fuel ih =>
    rw [iterate_succ_eq_settle]
    exact hp.settle fun item => hf.judged (fun gathered => ih) hgathered

theorem RejectsWith.repeating (fuel : Nat) {gathered : τ} (hgathered : I gathered) :
    (repeating fuel gathered (Judge.pure f) p).RejectsWith c Q :=
  (hp.iterate hf fuel hgathered).rewinding

/-- The first error is adapted, and the others are judged. -/
theorem RejectsWith.repeatingSome {adapt : ε → φ} (hadapt : ∀ error, P error → Q (adapt error))
    (fuel : Nat) {gathered : τ} (hgathered : I gathered) :
    (repeatingSome fuel gathered (Judge.pure f) adapt p).RejectsWith c Q := by
  rw [repeatingSome_eq_rewinding]
  refine (hp.settle fun item hitem => ?_).rewinding
  cases item with
  | error error => exact rejectsWith_reject (hadapt error (hitem error rfl))
  | ok value => exact hf.judged (fun gathered => hp.iterate hf fuel) hgathered hitem

end Repeating

section Plain

variable (hp : p.RejectsWith c P) (fuel : Nat)
include hp

theorem RejectsWith.star : (star fuel p : Parser σ φ _).RejectsWith c Q :=
  hp.repeating passesOn_collect fuel trivial

theorem RejectsWith.plus {adapt : ε → φ} (hadapt : ∀ error, P error → Q (adapt error)) :
    (plus fuel adapt p).RejectsWith c Q :=
  hp.repeatingSome passesOn_collect hadapt fuel trivial

/-- Below the least number the element's error is the one that counts. -/
theorem RejectsWith.repetition (bounds : Bounds) :
    (repetition fuel bounds p).RejectsWith c P := by
  unfold Parser.repetition
  split
  · exact rejectsWith_accept []
  · exact hp.repeating (passesOn_collectWithin bounds) fuel trivial

/-- Of a list only the first element can be missing. -/
theorem RejectsWith.sepBy {separator : Parser σ ε β} (hseparator : separator.RejectsWith c P) :
    (sepBy fuel p separator).RejectsWith c P := by
  have hnext := (hseparator.andThen fun _ => hp).rewinding
  rw [sepBy_eq_rewinding]
  refine (hp.andThen fun first => ?_).rewinding
  exact (hnext.star fuel).andThen fun others => rejectsWith_accept (first :: others)

end Plain

end Parser

end StreamGrammar
