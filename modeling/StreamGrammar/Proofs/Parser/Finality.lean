import StreamGrammar.Proofs.Parser.Contract

/-!
# Decisions are final

Two runs of a parser stand side by side: one on some of the input, the other one on more of it, and
maybe told that this is all. Where the first run settles, the second one settles on the same and
leaves the cursor at the same offset (`Final`). What is left open may change, so each combinator
must pass it on; that is what `Parser.settle` does.
-/

namespace StreamGrammar.Parser

open Input (Cursor)

variable {σ ε φ α β : Type}

/-- From `s` to `t` and from `s'` to `t'` the cursor has moved to the same offset, and nothing else
has changed. -/
structure Alongside (s t s' t' : Scanner σ) : Prop where
  left : s.cursor.Within t.cursor
  right : s'.cursor.Within t'.cursor
  position_eq : t'.cursor.position = t.cursor.position

/-- What `p` settles on, `q` settles on as well when it is shown more. What is in the journal and in
the memory does not matter. -/
def Final (p q : Parser σ ε α) : Prop :=
  ∀ ⦃before more : List UInt8⦄ ⦃s s' t : Scanner σ⦄ ⦃verdict : Verdict ε α⦄,
    s.cursor.Grows before more s'.cursor → p.run s = .ok verdict t → verdict.isUndecided = false →
    ∃ t', q.run s' = .ok verdict t' ∧ Alongside s t s' t'

variable {before more : List UInt8} {s s' t t' u u' : Scanner σ}

theorem Alongside.refl (h : s.cursor.Grows before more s'.cursor) : Alongside s s s' s' :=
  ⟨.refl h.left.toInRange, .refl h.right.toInRange, h.position_eq⟩

theorem Alongside.trans (hst : Alongside s t s' t') (htu : Alongside t u t' u') :
    Alongside s u s' u' :=
  ⟨hst.left.trans htu.left, hst.right.trans htu.right, htu.position_eq⟩

theorem Alongside.grows (h : Alongside s t s' t') (hs : s.cursor.Grows before more s'.cursor) :
    t.cursor.Grows before more t'.cursor := hs.move h.left h.right h.position_eq

/-! ## Combinators -/

theorem final_settle {p q : Parser σ ε α} {next next' : Except ε α → Parser σ φ β} (hp : Final p q)
    (hnext : ∀ item, Final (next item) (next' item)) : Final (p.settle next) (q.settle next') := by
  intro before more s s' u verdict hs hrun hdecided
  -- The whole has settled, so its first parser has. The second run gets to the same place with it.
  rcases settle_ok hrun with ⟨-, rfl⟩ | ⟨first, item, t, hbody, hitem, hrest⟩
  · cases hdecided
  · obtain ⟨t', hbody', ht⟩ := hp hs hbody (Verdict.isUndecided_of_settled hitem)
    obtain ⟨u', hrest', hu⟩ := hnext item (ht.grows hs) hrest hdecided
    rw [run_settle_of_settled hbody' hitem]
    exact ⟨u', hrest', ht.trans hu⟩

theorem final_rewindingUnless (keep : Verdict ε α → Bool) {p q : Parser σ ε α} (hp : Final p q) :
    Final (rewindingUnless keep p) (rewindingUnless keep q) := by
  intro before more s s' u verdict hs hrun hdecided
  obtain ⟨t, hbody, hu⟩ := rewindingUnless_ok hrun
  -- The mark is taken in both runs before the bodies start.
  have hmarked : (s.log (.marked s.cursor.position)).cursor.Grows before more
    (s'.log (.marked s'.cursor.position)).cursor := hs
  obtain ⟨t', hbody', ht⟩ := hp hmarked hbody hdecided
  have hleft : s.cursor.Within t.cursor := ht.left
  have hright : s'.cursor.Within t'.cursor := ht.right
  refine ⟨_, run_rewindingUnless_of_ok keep hs.right.toInRange hright hbody', ?_⟩
  split at hu
  · next hkeep =>
    subst hu
    rw [if_pos hkeep]
    exact ⟨hleft, hright, ht.position_eq⟩
  · next hkeep =>
    -- Each run goes back to where it started, at the same offset.
    rw [Scan.rewind_eq hleft hs.left.toInRange] at hu
    obtain ⟨-, rfl⟩ := EStateM.Result.ok.inj hu
    rw [if_neg hkeep]
    exact ⟨.refl hs.left.toInRange, .refl hs.right.toInRange, hs.position_eq⟩

theorem compositional_final : Compositional (σ := σ) fun _ _ p q => Final p q where
  ranOut := by
    intro ε α q before more s s' t verdict _ hrun
    cases hrun
  accept := by
    intro ε α value before more s s' t verdict hs hrun _
    obtain ⟨rfl, rfl⟩ := EStateM.Result.ok.inj hrun
    exact ⟨s', rfl, .refl hs⟩
  reject := by
    intro ε α error before more s s' t verdict hs hrun _
    obtain ⟨rfl, rfl⟩ := EStateM.Result.ok.inj hrun
    exact ⟨s', rfl, .refl hs⟩
  settle := final_settle
  rewindingUnless := fun keep _ _ => final_rewindingUnless keep

/-! ## Terminals -/

/-- A missing byte decides only at the end of the input, behind which nothing can be shown. -/
theorem missed_eq {c d : Cursor} (h : c.Grows before more d) {expected : String}
    (hdecided : (missed expected c : Verdict Mismatch α).isUndecided = false) :
    c.ended = true ∧ (missed expected d : Verdict Mismatch α) = missed expected c := by
  unfold missed at hdecided ⊢
  split at hdecided
  · next hended =>
    have hended' := (h.ended hended).2
    rw [if_pos hended, if_pos hended', h.position_eq]
    exact ⟨hended, rfl⟩
  · cases hdecided

theorem final_byte (test : UInt8 → Bool) (expected : String) :
    Final (byte test expected : Parser σ _ _) (byte test expected) := by
  intro before more s s' t verdict hs hrun hdecided
  rw [run_byte]
  rcases byte_ok hrun with ⟨value, hpeek, htest, rfl, rfl⟩ | ⟨value, hpeek, htest, rfl, rfl⟩ |
    ⟨hpeek, rfl, rfl⟩
  · have hpeek' : s'.cursor.peek 0 = some value := hs.peek_some 0 hpeek
    have hlt : s.cursor.position + 1 ≤ s.cursor.buffer.stop := Cursor.lt_stop_of_peek 0 hpeek
    have hlt' : s'.cursor.position + 1 ≤ s'.cursor.buffer.stop := Cursor.lt_stop_of_peek 0 hpeek'
    have hmoved := Cursor.onward_add hs.left.toInRange hlt
    have hmoved' := Cursor.onward_add hs.right.toInRange hlt'
    rw [hpeek']
    dsimp only
    rw [if_pos htest]
    exact ⟨_, rfl, hmoved.toWithin, hmoved'.toWithin, congrArg (· + 1) hs.position_eq⟩
  · have hpeek' : s'.cursor.peek 0 = some value := hs.peek_some 0 hpeek
    rw [hpeek']
    dsimp only
    rw [if_neg (by rw [htest]; exact Bool.false_ne_true), hs.position_eq]
    exact ⟨s', rfl, .refl hs⟩
  · -- A byte that has not arrived yet would be left open, so the input has ended.
    obtain ⟨hended, hmissed⟩ := missed_eq hs hdecided
    have hpeek' : s'.cursor.peek 0 = none := hs.peek_none hended 0 hpeek
    rw [hpeek', hmissed]
    exact ⟨s', rfl, .refl hs⟩

theorem comparison_eq {c d : Cursor} (h : c.Grows before more d) (l : Literal) (codes : List UInt8)
    (ahead : Nat) (hdecided : (comparison l c codes ahead).isUndecided = false) :
    comparison l d codes ahead = comparison l c codes ahead := by
  induction codes generalizing ahead with
  | nil => rfl
  | cons code codes ih =>
    unfold comparison at hdecided ⊢
    cases hpeek : c.peek ahead with
    | none =>
      -- The comparison has decided on a missing byte, so the input has ended.
      rw [hpeek] at hdecided
      obtain ⟨hended, hmissed⟩ := missed_eq h hdecided
      rw [h.peek_none hended ahead hpeek]
      exact hmissed
    | some value =>
      rw [hpeek] at hdecided
      rw [h.peek_some ahead hpeek]
      dsimp only at hdecided ⊢
      split at hdecided
      · next hagrees =>
        rw [if_pos hagrees, if_pos hagrees]
        exact ih (ahead + 1) hdecided
      · next hagrees => rw [if_neg hagrees, if_neg hagrees, h.position_eq]

theorem final_literal (text : Literal) : Final (literal text : Parser σ _ _) (literal text) := by
  intro before more s s' t verdict hs hrun hdecided
  have hcomparison' := comparison_eq hs text text.codes 0
  rw [run_literal hs.right.toInRange]
  rcases literal_ok hs.left.toInRange hrun with ⟨bytes, hcomparison, hbytes, rfl, rfl⟩ |
    ⟨rfl, ⟨-, rfl⟩ | ⟨error, hcomparison, rfl⟩⟩
  · rw [hcomparison] at hcomparison'
    have hstop := add_le_stop_of_comparison hs.left.le_stop hcomparison
    have hstop' := add_le_stop_of_comparison hs.right.le_stop (hcomparison' rfl)
    have hmoved := Cursor.onward_add hs.left.toInRange hstop
    have hmoved' := Cursor.onward_add hs.right.toInRange hstop'
    -- The text is read from the same offsets in both runs.
    have hbytes' := hs.slice_eq hbytes (hs.position_eq ▸ Int.ofNat_le.mpr hs.right.start_le)
    rw [hs.position_eq] at hmoved'
    rw [hcomparison' rfl, hs.position_eq, hbytes']
    exact ⟨_, rfl, hmoved.toWithin, hmoved'.toWithin, rfl⟩
  · cases hdecided
  · rw [hcomparison] at hcomparison'
    rw [hcomparison' rfl]
    exact ⟨s', rfl, .refl hs⟩

theorem final_captured {p q : Parser σ ε α} (hp : Final p q) : Final (captured p) (captured q) := by
  intro before more s s' u verdict hs hrun hdecided
  rw [run_captured]
  rcases captured_ok hrun with ⟨value, bytes, hbody, rfl, hbytes⟩ | ⟨-, rfl⟩ | ⟨error, hbody, rfl⟩
  · obtain ⟨u', hbody', hu⟩ := hp hs hbody rfl
    -- The second run holds the bytes from its own start on, which may lie further back.
    have hstart : u'.cursor.buffer.start ≤ s.cursor.position := by
      rw [hu.right.buffer_eq, ← hs.position_eq]
      exact hs.right.start_le
    have hbytes' := (hu.grows hs).slice_eq hbytes (Int.ofNat_le.mpr hstart)
    rw [hbody']
    dsimp only
    rw [hs.position_eq, hu.position_eq, hbytes']
    exact ⟨u', rfl, hu⟩
  · cases hdecided
  · obtain ⟨u', hbody', hu⟩ := hp hs hbody rfl
    rw [hbody']
    exact ⟨u', rfl, hu⟩

end StreamGrammar.Parser
