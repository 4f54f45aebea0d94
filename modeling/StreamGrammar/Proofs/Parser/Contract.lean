import StreamGrammar.Proofs.Parser.Compositional
import StreamGrammar.Proofs.Parser.Terminal

/-!
# The contract of parsers

A parser leaves the input alone and moves the cursor only: behind what it matched when it accepts,
and nowhere otherwise. The two halves are stated apart. `Keeps R` says how the cursor after a run
lies to the one before it, whatever the verdict. `Rewinds keep` says for which verdicts the cursor
is the one before. The combinators that go through `rewindingUnless` have the second half even if
their parts have only the first one (`Keeps.rewinds`), the others have it if their parts do.
-/

namespace StreamGrammar

open Input (Cursor)

variable {σ τ ε φ α β : Type}

/-- A way to get from cursor to cursor that may be gone step by step, with nothing but the position
changing. -/
structure Input.Cursor.IsTravel (R : Cursor → Cursor → Prop) : Prop where
  refl {c : Cursor} : c.InRange → R c c
  trans {c d e : Cursor} : R c d → R d e → R c e
  within {c d : Cursor} : R c d → c.Within d

theorem Input.Cursor.isTravel_within : Cursor.IsTravel Cursor.Within := ⟨.refl, .trans, id⟩

theorem Input.Cursor.isTravel_onward : Cursor.IsTravel Cursor.Onward :=
  ⟨.refl, .trans, (·.toWithin)⟩

/-- A mark that was taken on the way can be returned to. -/
theorem Scan.rewind_eq {c : Cursor} {t : Scanner σ} (h : c.Within t.cursor) (hc : c.InRange) :
    Scan.rewind c.position t = .ok () { t.log (.rewound c.position) with cursor := c } := by
  unfold Scan.rewind Scan.move
  have hrestore : (t.log (.rewound c.position)).cursor.restore c.position = .ok c := h.restore_eq hc
  simp only [hrestore]
  rfl

/-- The scanner whose position has been marked. -/
abbrev Scanner.marked (s : Scanner σ) : Scanner σ := s.log (.marked s.cursor.position)

/-- The scanner whose cursor has been put back to where a mark was taken. -/
def Scanner.putBack (t : Scanner σ) (c : Cursor) : Scanner σ :=
  { t.log (.rewound c.position) with cursor := c }

namespace Parser

theorem run_rewindingUnless_of_ok (keep : Verdict ε α → Bool) {p : Parser σ ε α} {s t : Scanner σ}
    {verdict : Verdict ε α} (hs : s.cursor.InRange) (ht : s.cursor.Within t.cursor)
    (hrun : p.run (s.log (.marked s.cursor.position)) = .ok verdict t) :
    (rewindingUnless keep p).run s = .ok verdict
      (if keep verdict then t
      else { t.log (.rewound s.cursor.position) with cursor := s.cursor }) := by
  rw [run_rewindingUnless, hrun]
  dsimp only
  split
  · rfl
  · rw [Scan.rewind_eq ht hs]

/-! ## Where the cursor goes -/

/-- A run from `c` is not refused by the input, and if it comes to an end, it has gone where `R`
allows. -/
def EndsIn (R : Cursor → Cursor → Prop) (c : Cursor) :
    EStateM.Result Halt (Scanner σ) (Verdict ε α) → Prop
  | .ok _ t => R c t.cursor
  | .error halt _ => halt = .ranOut

/-- The parser is never refused by the input, and goes where `R` allows. -/
def Keeps (R : Cursor → Cursor → Prop) (p : Parser σ ε α) : Prop :=
  ∀ s : Scanner σ, s.cursor.InRange → EndsIn R s.cursor (p.run s)

/-- The parser leaves the input alone. It may leave the cursor anywhere among the held bytes. -/
abbrev Tame (p : Parser σ ε α) : Prop := p.Keeps Cursor.Within

section Keeps

variable {R : Cursor → Cursor → Prop} {p : Parser σ ε α} {s t : Scanner σ}

theorem Keeps.ok (h : p.Keeps R) (hs : s.cursor.InRange) {verdict : Verdict ε α}
    (hrun : p.run s = .ok verdict t) : R s.cursor t.cursor := by
  have hends := h s hs
  rw [hrun] at hends
  exact hends

theorem Keeps.error (h : p.Keeps R) (hs : s.cursor.InRange) {halt : Halt}
    (hrun : p.run s = .error halt t) : halt = .ranOut := by
  have hends := h s hs
  rw [hrun] at hends
  exact hends

theorem Keeps.mono {R' : Cursor → Cursor → Prop} (h : p.Keeps R) (hle : ∀ c d, R c d → R' c d) :
    p.Keeps R' := by
  intro s hs
  have hends := h s hs
  rcases hrun : p.run s with ⟨verdict, t⟩ | _ <;> rw [hrun] at hends
  · exact hle _ _ hends
  · exact hends

variable (hR : Cursor.IsTravel R)
include hR

theorem EndsIn.trans {c d : Cursor} (h : R c d)
    {result : EStateM.Result Halt (Scanner σ) (Verdict ε α)} (hresult : EndsIn R d result) :
    EndsIn R c result := by
  cases result with
  | ok verdict t => exact hR.trans h hresult
  | error halt t => exact hresult

theorem keeps_settle {next : Except ε α → Parser σ φ β} (hp : p.Keeps R)
    (hnext : ∀ item, (next item).Keeps R) : (p.settle next).Keeps R := by
  intro s hs
  have hends := hp s hs
  rw [run_settle]
  rcases hrun : p.run s with ⟨value | _ | error, t⟩ | _ <;> rw [hrun] at hends
  · exact .trans hR hends (hnext _ t (hR.within hends).inRange)
  · exact hends
  · exact .trans hR hends (hnext _ t (hR.within hends).inRange)
  · exact hends

theorem keeps_rewindingUnless (keep : Verdict ε α → Bool) (hp : p.Keeps R) :
    (rewindingUnless keep p).Keeps R := by
  intro s hs
  -- The mark that is taken first goes to the journal and leaves the cursor alone.
  have hends : EndsIn R s.cursor (p.run (s.log _)) := hp (s.log (.marked s.cursor.position)) hs
  rw [run_rewindingUnless]
  rcases hrun : p.run _ with ⟨verdict, t⟩ | _ <;> rw [hrun] at hends
  · dsimp only
    split
    · exact hends
    · rw [Scan.rewind_eq (hR.within hends) hs]
      exact hR.refl hs
  · exact hends

theorem compositional_keeps : Compositional (σ := σ) fun _ _ p _ => p.Keeps R where
  ranOut := fun _ _ _ => rfl
  accept := fun _ _ => hR.refl
  reject := fun _ _ => hR.refl
  settle := keeps_settle hR
  rewindingUnless := fun keep _ _ => keeps_rewindingUnless hR keep

theorem keeps_andThen {next : α → Parser σ ε β} (hp : p.Keeps R)
    (hnext : ∀ value, (next value).Keeps R) : (p.andThen next).Keeps R :=
  (compositional_keeps hR).andThen (q := p) (g := next) hp hnext

theorem keeps_map (f : α → β) (hp : p.Keeps R) : (p.map f).Keeps R :=
  (compositional_keeps hR).map (q := p) f hp

theorem keeps_mapError (f : ε → φ) (hp : p.Keeps R) : (p.mapError f).Keeps R :=
  (compositional_keeps hR).mapError (q := p) f hp

/-- A judge changes the memory at most. -/
theorem keeps_remember (f : σ → α × σ) : (ofScan (Scan.remember f) : Parser σ ε α).Keeps R :=
  fun _ => hR.refl

end Keeps

/-! ## Groups -/

section Groups

variable {p : Parser σ ε α} {s u : Scanner σ} {verdict : Verdict ε α}

theorem run_rewinding_of_ok {t : Scanner σ} (hs : s.cursor.InRange)
    (ht : s.cursor.Within t.cursor) (hrun : p.run s.marked = .ok verdict t) :
    (rewinding p).run s = .ok verdict (if verdict.isAccepted then t else t.putBack s.cursor) :=
  run_rewindingUnless_of_ok Verdict.isAccepted hs ht hrun

/-- The run of a group, whose body leaves the input alone, is that of the body but for the
return. -/
theorem rewinding_ok (hp : p.Tame) (hs : s.cursor.InRange)
    (hrun : (rewinding p).run s = .ok verdict u) :
    ∃ t, p.run s.marked = .ok verdict t ∧
      u = if verdict.isAccepted then t else t.putBack s.cursor := by
  obtain ⟨t, hbody, -⟩ := rewindingUnless_ok hrun
  have ht : s.cursor.Within t.cursor := hp.ok (s := s.marked) hs hbody
  rw [run_rewinding_of_ok hs ht hbody] at hrun
  exact ⟨t, hbody, (EStateM.Result.ok.inj hrun).2.symm⟩

end Groups

/-! ## Terminals -/

theorem keeps_byte (test : UInt8 → Bool) (expected : String) :
    (byte test expected : Parser σ _ _).Keeps Cursor.Onward := by
  intro s hs
  rw [run_byte]
  cases hpeek : s.cursor.peek 0 with
  | none => exact Cursor.Onward.refl hs
  | some value =>
    dsimp only
    split
    · exact Cursor.onward_add hs (Cursor.lt_stop_of_peek 0 hpeek)
    · exact Cursor.Onward.refl hs

theorem keeps_literal (text : Literal) : (literal text : Parser σ _ _).Keeps Cursor.Onward := by
  intro s hs
  rw [run_literal hs]
  cases hcomparison : comparison text s.cursor text.codes 0 with
  | accepted =>
    have hstop := add_le_stop_of_comparison hs.le_stop hcomparison
    obtain ⟨bytes, hbytes, -⟩ := Cursor.read_ok hs hstop
    dsimp only
    rw [hbytes]
    exact Cursor.onward_add hs hstop
  | undecided => exact Cursor.Onward.refl hs
  | rejected error => exact Cursor.Onward.refl hs

/-- The matched input can be copied, since the parser has not moved back. -/
theorem keeps_captured {p : Parser σ ε α} (hp : p.Keeps Cursor.Onward) :
    (captured p).Keeps Cursor.Onward := by
  intro s hs
  have hends := hp s hs
  rw [run_captured]
  -- What is copied lies between the positions before and after, both of which are in range.
  rcases hrun : p.run s with ⟨_ | _ | _, t⟩ | _ <;> rw [hrun] at hends
  · have hstart : t.cursor.buffer.start ≤ s.cursor.position := hends.buffer_eq ▸ hs.start_le
    obtain ⟨bytes, hbytes⟩ := Cursor.slice_ok hstart hends.position_le hends.inRange.le_stop
    dsimp only
    rw [hbytes]
    exact hends
  · exact hends
  · exact hends
  · exact hends

/-! ## Where the cursor is put back -/

/-- The cursor after a run is the one before, unless the verdict is one that `keep` holds of. -/
def Rewinds (keep : Verdict ε α → Bool) (p : Parser σ ε α) : Prop :=
  ∀ (s t : Scanner σ) (verdict : Verdict ε α), s.cursor.InRange →
    p.run s = .ok verdict t → keep verdict = false → t.cursor = s.cursor

section Rewinds

variable {p : Parser σ ε α} {ps : List (Parser σ ε α)}

theorem Rewinds.mono {keep keep' : Verdict ε α → Bool} (h : p.Rewinds keep)
    (hle : ∀ verdict, keep verdict = true → keep' verdict = true) : p.Rewinds keep' := by
  intro s t verdict hs hrun hkeep
  refine h s t verdict hs hrun ?_
  rw [Bool.eq_false_iff] at hkeep ⊢
  exact fun h => hkeep (hle verdict h)

/-- What puts the cursor back unless it accepts, does so where it rejects. -/
theorem Rewinds.of_rejected (h : p.Rewinds Verdict.isAccepted) :
    p.Rewinds fun verdict => !verdict.isRejected := by
  refine h.mono fun verdict hkeep => ?_
  cases verdict with
  | accepted value => rfl
  | undecided => cases hkeep
  | rejected error => cases hkeep

/-- A parser that puts the cursor back does so whatever its body does with it. -/
theorem Keeps.rewinds (keep : Verdict ε α → Bool) (hp : p.Tame) :
    (rewindingUnless keep p).Rewinds keep := by
  intro s u verdict hs hrun hkeep
  obtain ⟨t, hbody, hu⟩ := rewindingUnless_ok hrun
  have ht : s.cursor.Within t.cursor := hp.ok (s := s.log _) hs hbody
  rw [hkeep, if_neg Bool.false_ne_true, Scan.rewind_eq ht hs] at hu
  obtain ⟨-, rfl⟩ := EStateM.Result.ok.inj hu
  rfl

theorem rewinds_accept (keep : Verdict ε α → Bool) (value : α) :
    (accept value : Parser σ ε α).Rewinds keep := by
  intro s t verdict _ hrun _
  obtain ⟨-, rfl⟩ := EStateM.Result.ok.inj hrun
  rfl

theorem rewinds_reject (keep : Verdict ε α → Bool) (error : ε) :
    (reject error : Parser σ ε α).Rewinds keep := by
  intro s t verdict _ hrun _
  obtain ⟨-, rfl⟩ := EStateM.Result.ok.inj hrun
  rfl

/-- Where a parser only goes on after it has rejected, it goes on from where it started. -/
theorem Rewinds.settle {next : Except ε α → Parser σ φ β} (hp : p.Rewinds Verdict.isAccepted)
    (hok : ∀ value, ∃ value', next (.ok value) = accept value')
    (herror : ∀ error, (next (.error error)).Rewinds Verdict.isAccepted) :
    (p.settle next).Rewinds Verdict.isAccepted := by
  intro s u verdict hs hrun hkeep
  rcases settle_ok hrun with ⟨hbody, -⟩ | ⟨first, item, t, hbody, hitem, hrest⟩
  · exact hp s u _ hs hbody rfl
  · cases item with
    | ok value =>
      -- The whole accepts then, and need not put the cursor back.
      obtain ⟨value', hnext⟩ := hok value
      rw [hnext] at hrest
      obtain ⟨rfl, -⟩ := EStateM.Result.ok.inj hrest
      cases hkeep
    | error error =>
      have hfirst : first.isAccepted = false := by
        cases first with
        | accepted value => cases hitem
        | undecided => rfl
        | rejected error => rfl
      have ht : t.cursor = s.cursor := hp s t _ hs hbody hfirst
      rw [← ht]
      exact herror error t u verdict (ht ▸ hs) hrest hkeep

theorem Rewinds.map (hp : p.Rewinds Verdict.isAccepted) (f : α → β) :
    (p.map f).Rewinds Verdict.isAccepted := by
  rw [map_eq_settle]
  exact hp.settle (fun value => ⟨f value, rfl⟩) (rewinds_reject _)

theorem Rewinds.mapError (hp : p.Rewinds Verdict.isAccepted) (f : ε → φ) :
    (p.mapError f).Rewinds Verdict.isAccepted := by
  rw [mapError_eq_settle]
  exact hp.settle (fun value => ⟨value, rfl⟩) fun error => rewinds_reject _ (f error)

theorem Rewinds.optional (hp : p.Rewinds Verdict.isAccepted) (default : α) :
    (p.optional default : Parser σ φ α).Rewinds Verdict.isAccepted := by
  rw [optional_eq_settle]
  exact hp.settle (fun value => ⟨value, rfl⟩) fun _ => rewinds_accept _ default

theorem Rewinds.alternation (hp : p.Rewinds Verdict.isAccepted)
    (hps : ∀ q ∈ ps, q.Rewinds Verdict.isAccepted) :
    (alternation p ps).Rewinds Verdict.isAccepted := by
  induction ps generalizing p with
  | nil => exact hp
  | cons q ps ih =>
    obtain ⟨hq, hps⟩ := List.forall_mem_cons.mp hps
    rw [alternation_cons_eq_settle]
    exact hp.settle (fun value => ⟨value, rfl⟩) fun _ => ih hq hps

theorem Rewinds.captured (hp : p.Rewinds Verdict.isAccepted) :
    (captured p).Rewinds Verdict.isAccepted := by
  intro s u verdict hs hrun hkeep
  rcases captured_ok hrun with ⟨value, bytes, -, rfl, -⟩ | ⟨hbody, -⟩ | ⟨error, hbody, -⟩
  · cases hkeep
  · exact hp s u _ hs hbody rfl
  · exact hp s u _ hs hbody rfl

theorem rewinds_byte (test : UInt8 → Bool) (expected : String) :
    (byte test expected : Parser σ _ _).Rewinds Verdict.isAccepted := by
  intro s t verdict _ hrun hkeep
  rcases byte_ok hrun with ⟨value, -, -, rfl, -⟩ | ⟨value, -, -, -, rfl⟩ | ⟨-, -, rfl⟩
  · cases hkeep
  · rfl
  · rfl

theorem rewinds_literal (text : Literal) :
    (literal text : Parser σ _ _).Rewinds Verdict.isAccepted := by
  intro s t verdict hs hrun hkeep
  rcases literal_ok hs hrun with ⟨bytes, -, -, rfl, -⟩ | ⟨rfl, -⟩
  · cases hkeep
  · rfl

/-- Every alternative is looked for from the same place. -/
theorem rewinds_firstFound (isEmpty : α → Bool) (empty : α) (hps : ∀ p ∈ ps, p.Tame) :
    (firstFound isEmpty empty ps).Rewinds (isFind isEmpty) := by
  induction ps with
  | nil => exact rewinds_accept _ empty
  | cons p ps ih =>
    obtain ⟨hp, hps⟩ := List.forall_mem_cons.mp hps
    have hfound : (found isEmpty p).Rewinds (isFind isEmpty) := hp.rewinds _
    intro s u verdict hs hrun hkeep
    unfold firstFound at hrun
    rw [run_bind] at hrun
    rcases hbody : (found isEmpty p).run s with ⟨value | _ | error, t⟩ | _ <;> rw [hbody] at hrun
    · dsimp only at hrun
      split at hrun
      · next hempty =>
        -- The next alternative starts where this one did.
        have ht : t.cursor = s.cursor := hfound s t _ hs hbody (by simp [isFind, hempty])
        rw [← ht]
        exact ih hps t u verdict (ht ▸ hs) hrun hkeep
      · next hempty =>
        obtain ⟨rfl, -⟩ := EStateM.Result.ok.inj hrun
        exact absurd hkeep (by simp [isFind, hempty])
    · obtain ⟨rfl, rfl⟩ := EStateM.Result.ok.inj hrun
      exact hfound s t _ hs hbody rfl
    · obtain ⟨rfl, rfl⟩ := EStateM.Result.ok.inj hrun
      exact hfound s t _ hs hbody rfl
    · cases hrun

end Rewinds

/-! ## The whole contract -/

/-- The parser keeps the contract. It is never refused by the input, leaves the input alone, does
not move back, and leaves the cursor where it was unless it accepts. -/
structure Obeys (p : Parser σ ε α) : Prop where
  keeps : p.Keeps Cursor.Onward
  rewinds : p.Rewinds Verdict.isAccepted

theorem Obeys.tame {p : Parser σ ε α} (hp : p.Obeys) : p.Tame :=
  hp.keeps.mono fun _ _ => (·.toWithin)

theorem Obeys.map {p : Parser σ ε α} (hp : p.Obeys) (f : α → β) : (p.map f).Obeys :=
  ⟨keeps_map Cursor.isTravel_onward f hp.keeps, hp.rewinds.map f⟩

theorem Obeys.mapError {p : Parser σ ε α} (hp : p.Obeys) (f : ε → φ) : (p.mapError f).Obeys :=
  ⟨keeps_mapError Cursor.isTravel_onward f hp.keeps, hp.rewinds.mapError f⟩

theorem obeys_byte (test : UInt8 → Bool) (expected : String) :
    (byte test expected : Parser σ _ _).Obeys := ⟨keeps_byte _ _, rewinds_byte _ _⟩

end Parser

end StreamGrammar
