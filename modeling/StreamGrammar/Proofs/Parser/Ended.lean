import StreamGrammar.Proofs.Parser.Contract

/-!
# At the end of the input

Once the input has ended, no kit parser leaves anything open: a byte that is missing is a mismatch.
-/

namespace StreamGrammar.Parser

open Input (Cursor)

variable {σ ε φ α β : Type}

/-- On an input that has ended, the parser settles, and leaves the input alone. -/
def Settles (p : Parser σ ε α) : Prop :=
  ∀ ⦃s t : Scanner σ⦄ ⦃verdict : Verdict ε α⦄, s.cursor.InRange → s.cursor.ended = true →
    p.run s = .ok verdict t → verdict.isUndecided = false ∧ s.cursor.Within t.cursor

theorem settles_settle {p : Parser σ ε α} {next : Except ε α → Parser σ φ β} (hp : p.Settles)
    (hnext : ∀ item, (next item).Settles) : (p.settle next).Settles := by
  intro s u verdict hs hended hrun
  rcases settle_ok hrun with ⟨hbody, -⟩ | ⟨first, item, t, hbody, -, hrest⟩
  · -- The first parser cannot have left open.
    cases (hp hs hended hbody).1
  · have ht := (hp hs hended hbody).2
    obtain ⟨hdecided, hu⟩ := hnext item ht.inRange (ht.ended_eq.trans hended) hrest
    exact ⟨hdecided, ht.trans hu⟩

theorem settles_rewindingUnless (keep : Verdict ε α → Bool) {p : Parser σ ε α} (hp : p.Settles) :
    (rewindingUnless keep p).Settles := by
  intro s u verdict hs hended hrun
  obtain ⟨t, hbody, hu⟩ := rewindingUnless_ok hrun
  obtain ⟨hdecided, ht⟩ := hp (s := s.log _) hs hended hbody
  have hwithin : s.cursor.Within t.cursor := ht
  split at hu
  · subst hu
    exact ⟨hdecided, hwithin⟩
  · rw [Scan.rewind_eq hwithin hs] at hu
    obtain ⟨-, rfl⟩ := EStateM.Result.ok.inj hu
    exact ⟨hdecided, .refl hs⟩

theorem compositional_settles : Compositional (σ := σ) fun _ _ p _ => p.Settles where
  ranOut := by
    intro ε α q s t verdict _ _ hrun
    cases hrun
  accept := by
    intro ε α value s t verdict hs _ hrun
    obtain ⟨rfl, rfl⟩ := EStateM.Result.ok.inj hrun
    exact ⟨rfl, .refl hs⟩
  reject := by
    intro ε α error s t verdict hs _ hrun
    obtain ⟨rfl, rfl⟩ := EStateM.Result.ok.inj hrun
    exact ⟨rfl, .refl hs⟩
  settle := settles_settle
  rewindingUnless := fun keep _ _ => settles_rewindingUnless keep

theorem missed_of_ended {expected : String} {c : Cursor} (hended : c.ended = true) :
    (missed expected c : Verdict Mismatch α) = .rejected ⟨expected, c.position⟩ := by
  unfold missed
  rw [if_pos hended]

theorem settles_byte (test : UInt8 → Bool) (expected : String) :
    (byte test expected : Parser σ _ _).Settles := by
  intro s t verdict hs hended hrun
  refine ⟨?_, ((keeps_byte test expected).ok hs hrun).toWithin⟩
  rcases byte_ok hrun with ⟨value, -, -, rfl, -⟩ | ⟨value, -, -, rfl, -⟩ | ⟨-, rfl, -⟩
  · rfl
  · rfl
  · rw [missed_of_ended hended]
    rfl

theorem comparison_of_ended {l : Literal} {c : Cursor} (hended : c.ended = true)
    (codes : List UInt8) (ahead : Nat) : (comparison l c codes ahead).isUndecided = false := by
  induction codes generalizing ahead with
  | nil => rfl
  | cons code codes ih =>
    unfold comparison
    rw [missed_of_ended hended]
    split
    · rfl
    · split
      · exact ih (ahead + 1)
      · rfl

theorem settles_literal (text : Literal) : (literal text : Parser σ _ _).Settles := by
  intro s t verdict hs hended hrun
  refine ⟨?_, ((keeps_literal text).ok hs hrun).toWithin⟩
  have hdecided := comparison_of_ended (l := text) hended text.codes 0
  rcases literal_ok hs hrun with ⟨bytes, -, -, rfl, -⟩ | ⟨-, ⟨hopen, -⟩ | ⟨error, -, rfl⟩⟩
  · rfl
  · -- The comparison cannot be left open, as it could if more input might come.
    rw [hopen] at hdecided
    cases hdecided
  · rfl

theorem settles_captured {p : Parser σ ε α} (hp : p.Settles) : (captured p).Settles := by
  intro s u verdict hs hended hrun
  rcases captured_ok hrun with ⟨value, bytes, hbody, rfl, -⟩ | ⟨hbody, -⟩ | ⟨error, hbody, rfl⟩
  · exact ⟨rfl, (hp hs hended hbody).2⟩
  · cases (hp hs hended hbody).1
  · exact ⟨rfl, (hp hs hended hbody).2⟩

end StreamGrammar.Parser
