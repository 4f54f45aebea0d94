import StreamGrammar.Proofs.Parser.Laws
import StreamGrammar.Proofs.Parser.Recorded

/-!
# Repetition is greedy

What a repetition does is read off the outcomes of its element, run again and again from the entry
(`Greedy`). It takes values as long as the bounds allow, and the first outcome that is not a value
says how it ends. `further` is what is left to do for a repetition that has gathered some values.
A round of it runs the element once (`further_succ`). The last round is one of four (`Stops`), and
by induction on the rounds all others take a value (`further_ok`).
-/

namespace StreamGrammar

open Input (Cursor)

variable {σ ε α : Type}

namespace Count

theorem reachedBy_zero {count : Count} : count.reachedBy 0 = true ↔ count = .times 0 := by
  cases count <;> simp [reachedBy]

theorem reachedBy_mono {count : Count} {m n : Nat} (hle : m ≤ n) (h : count.reachedBy m = true) :
    count.reachedBy n = true := by
  cases count with
  | times k => exact decide_eq_true (Nat.le_trans (of_decide_eq_true h) hle)
  | unbounded => cases h

theorem reachedBy_times (n : Nat) : (times n).reachedBy n = true := decide_eq_true (Nat.le_refl n)

/-- A count is reached first by the number that it is. -/
theorem eq_times_of_reachedBy {count : Count} {n : Nat} (hn : count.reachedBy n = false)
    (h : count.reachedBy (n + 1) = true) : count = .times (n + 1) := by
  cases count with
  | times k =>
    have hlt : n < k := Nat.not_le.mp (of_decide_eq_false hn)
    have hle : k ≤ n + 1 := of_decide_eq_true h
    rw [Nat.le_antisymm hle hlt]
  | unbounded => cases h

end Count

namespace Parser

variable {p : Parser σ ε α} {bounds : Bounds} {fuel : Nat}

/-! ## One round -/

/-- What a repetition does that has gathered `values`. -/
def further (p : Parser σ ε α) (bounds : Bounds) (fuel : Nat) (values : Array α) :
    Parser σ ε (List α) :=
  if bounds.max.reachedBy values.size then accept values.toList
  else ⟨iterate p (Judge.pure (collectWithin bounds)) fuel values⟩

theorem further_of_reached {values : Array α} (hmax : bounds.max.reachedBy values.size = true) :
    further p bounds fuel values = accept values.toList := if_pos hmax

theorem further_zero {values : Array α} (hmax : bounds.max.reachedBy values.size = false) :
    further p bounds 0 values = ⟨throw .ranOut⟩ := if_neg (Bool.eq_false_iff.mp hmax)

/-- A round runs the element, and goes on where it has accepted. -/
theorem further_succ {values : Array α} (hmax : bounds.max.reachedBy values.size = false) :
    further p bounds (fuel + 1) values = p.settle fun
      | .ok value => further p bounds fuel (values.push value)
      | .error error =>
        if bounds.min.reachedBy values.size then accept values.toList else reject error := by
  refine (if_neg (Bool.eq_false_iff.mp hmax)).trans ?_
  rw [iterate_succ_eq_settle]
  refine p.settle_congr (fun value => ?_) fun error => ?_
  · -- The judge ends the repetition here if this was the last value.
    change answerOr _ (if bounds.max.reachedBy (values.push value).size then _ else _) =
      further p bounds fuel (values.push value)
    unfold further
    split <;> rfl
  · change answerOr _ (if bounds.min.reachedBy values.size then _ else _) = _
    split <;> rfl

theorem run_further_succ {values : Array α} (hmax : bounds.max.reachedBy values.size = false)
    (s : Scanner σ) :
    (further p bounds (fuel + 1) values).run s =
      match p.run s with
      | .ok (.accepted value) t => (further p bounds fuel (values.push value)).run t
      | .ok .undecided t => .ok .undecided t
      | .ok (.rejected error) t =>
        .ok (if bounds.min.reachedBy values.size then .accepted values.toList else .rejected error)
          t
      | .error halt t => .error halt t := by
  rw [further_succ hmax, run_settle]
  rcases p.run s with ⟨value | _ | error, t⟩ | _
  · rfl
  · rfl
  · dsimp only
    split <;> rfl
  · rfl

/-- What holds of a repetition that is full and of one without fuel, and is carried over from the
rounds behind an element, holds of all that is left to do for a repetition. -/
theorem further_induction (max : Count) {motive : Nat → Array α → Prop}
    (full : ∀ fuel values, max.reachedBy values.size = true → motive fuel values)
    (ranOut : ∀ values, max.reachedBy values.size = false → motive 0 values)
    (round : ∀ fuel values, max.reachedBy values.size = false →
      (∀ value, motive fuel (values.push value)) → motive (fuel + 1) values)
    (fuel : Nat) (values : Array α) : motive fuel values := by
  induction fuel generalizing values with
  | zero =>
    cases hmax : max.reachedBy values.size with
    | true => exact full 0 values hmax
    | false => exact ranOut values hmax
  | succ fuel ih =>
    cases hmax : max.reachedBy values.size with
    | true => exact full (fuel + 1) values hmax
    | false => exact round fuel values hmax fun value => ih (values.push value)

theorem repetition_eq (hmax : bounds.max ≠ .times 0) :
    repetition fuel bounds p = rewinding (further p bounds fuel #[]) := by
  have hzero : ¬ bounds.max.reachedBy 0 = true := fun h => hmax (Count.reachedBy_zero.mp h)
  exact (if_neg hmax).trans (congrArg rewinding (if_neg hzero).symm)

/-! ## All rounds -/

/-- One after the other, runs from `s` on give these outcomes and lead to the last scanner. -/
inductive InTurn (p : Parser σ ε α) : Scanner σ → List (Verdict ε α) → Scanner σ → Prop
  | nil (s : Scanner σ) : InTurn p s [] s
  | cons {s t u : Scanner σ} {outcome : Verdict ε α} {outcomes : List (Verdict ε α)} :
      p.run s = .ok outcome t → InTurn p t outcomes u → InTurn p s (outcome :: outcomes) u

/-- The outcomes that end a repetition which has taken `values`, its verdict, and the scanner
then. -/
inductive Stops (p : Parser σ ε α) (bounds : Bounds) (values : List α) (s : Scanner σ) :
    List (Verdict ε α) → Verdict ε (List α) → Scanner σ → Prop
  | full : bounds.max = .times values.length → Stops p bounds values s [] (.accepted values) s
  | waits {t : Scanner σ} : bounds.max.reachedBy values.length = false →
      p.run s = .ok .undecided t → Stops p bounds values s [.undecided] .undecided t
  | enough {error : ε} {t : Scanner σ} : bounds.max.reachedBy values.length = false →
      p.run s = .ok (.rejected error) t → t.cursor = s.cursor →
      bounds.min.reachedBy values.length = true →
      Stops p bounds values s [.rejected error] (.accepted values) t
  | few {error : ε} {t : Scanner σ} : bounds.max.reachedBy values.length = false →
      p.run s = .ok (.rejected error) t → bounds.min.reachedBy values.length = false →
      Stops p bounds values s [.rejected error] (.rejected error) t

/-- The outcomes of the element in a repetition from `s` on, its verdict, and the scanner then. -/
inductive Greedy (p : Parser σ ε α) (bounds : Bounds) (s : Scanner σ) :
    List (Verdict ε α) → Verdict ε (List α) → Scanner σ → Prop
  | none : bounds.max = .times 0 → Greedy p bounds s [] (.accepted []) s
  | some {values : List α} {last : List (Verdict ε α)} {verdict : Verdict ε (List α)}
      {t u : Scanner σ} : bounds.max ≠ .times 0 →
      InTurn p s.marked (values.map .accepted) t → Stops p bounds values t last verdict u →
      Greedy p bounds s (values.map .accepted ++ last) verdict
        (if verdict.isAccepted then u else u.putBack s.cursor)

theorem InTurn.onward (hp : p.Obeys) {s t : Scanner σ} {outcomes : List (Verdict ε α)}
    (h : InTurn p s outcomes t) (hs : s.cursor.InRange) : s.cursor.Onward t.cursor := by
  induction h with
  | nil s => exact .refl hs
  | cons hrun _ ih =>
    have ht := hp.keeps.ok hs hrun
    exact ht.trans (ih ht.inRange)

section Runs

variable {s t u : Scanner σ} {verdict : Verdict ε (List α)} {last : List (Verdict ε α)}

/-- Values are taken until the greatest number is reached. -/
theorem run_further_of_inTurn (fuel : Nat) {values : List α}
    (hturn : InTurn p s (values.map .accepted) t) (taken : Array α)
    (hmax : ∀ k < values.length, bounds.max.reachedBy (taken.size + k) = false) :
    (further p bounds (values.length + fuel) taken).run s =
      (further p bounds fuel (taken ++ values.toArray)).run t := by
  induction values generalizing s taken with
  | nil =>
    cases hturn
    simp
  | cons value values ih =>
    rcases hturn with _ | ⟨hrun, hturn⟩
    have hnext := ih hturn (taken.push value) fun k hk => by
      rw [Array.size_push, Nat.add_right_comm]
      exact hmax (k + 1) (Nat.succ_lt_succ hk)
    rw [List.length_cons, Nat.add_right_comm, further_succ (hmax 0 (Nat.zero_lt_succ _)),
      run_settle, hrun]
    dsimp only
    rw [hnext]
    simp

theorem Stops.run {values : List α} (h : Stops p bounds values s last verdict t)
    (hfuel : last.length ≤ fuel) :
    (further p bounds fuel values.toArray).run s = .ok verdict t := by
  cases h with
  | full hmax =>
    have hreached : bounds.max.reachedBy values.toArray.size = true :=
      hmax ▸ Count.reachedBy_times values.length
    rw [further_of_reached hreached]
    rfl
  | waits hmax hrun =>
    obtain ⟨fuel, rfl⟩ := Nat.exists_eq_add_of_le' hfuel
    rw [List.length_singleton, run_further_succ hmax, hrun]
  | enough hmax hrun _ hmin =>
    obtain ⟨fuel, rfl⟩ := Nat.exists_eq_add_of_le' hfuel
    rw [List.length_singleton, run_further_succ hmax, hrun]
    exact congrArg (EStateM.Result.ok · t) (if_pos hmin)
  | few hmax hrun hmin =>
    obtain ⟨fuel, rfl⟩ := Nat.exists_eq_add_of_le' hfuel
    rw [List.length_singleton, run_further_succ hmax, hrun]
    exact congrArg (EStateM.Result.ok · t) (if_neg (Bool.eq_false_iff.mp hmin))

/-- Before a repetition stops, the greatest number is not reached. -/
theorem Stops.reachedBy_of_lt {values : List α} (h : Stops p bounds values s last verdict t)
    {k : Nat} (hk : k < values.length) : bounds.max.reachedBy k = false := by
  have hmono (hmax : bounds.max.reachedBy values.length = false) :
      bounds.max.reachedBy k = false := by
    rw [Bool.eq_false_iff] at hmax ⊢
    exact fun hreached => hmax (Count.reachedBy_mono (Nat.le_of_lt hk) hreached)
  cases h with
  | full hmax =>
    rw [hmax]
    exact decide_eq_false (Nat.not_le.mpr hk)
  | waits hmax _ => exact hmono hmax
  | enough hmax _ _ _ => exact hmono hmax
  | few hmax _ _ => exact hmono hmax

/-- The last round takes nothing. -/
theorem Stops.exists_inTurn {taken : List α} (h : Stops p bounds taken s last verdict u)
    (hlength : last.length ≤ fuel) :
    ∃ values last t, values.length + last.length ≤ fuel ∧ InTurn p s (values.map .accepted) t ∧
      Stops p bounds (taken ++ values) t last verdict u :=
  ⟨[], last, s, (Nat.zero_add _).trans_le hlength, .nil s, by rwa [List.append_nil]⟩

/-- By induction on the rounds: every one but the last takes a value. -/
theorem further_ok (hp : p.Obeys) (hs : s.cursor.InRange) {taken : Array α}
    (hexact : bounds.max.reachedBy taken.size = true → bounds.max = .times taken.size)
    (hrun : (further p bounds fuel taken).run s = .ok verdict u) :
    ∃ values last t, values.length + last.length ≤ fuel ∧ InTurn p s (values.map .accepted) t ∧
      Stops p bounds (taken.toList ++ values) t last verdict u := by
  induction fuel, taken using further_induction bounds.max generalizing s with
  | full fuel taken hfull =>
    rw [further_of_reached hfull] at hrun
    obtain ⟨rfl, rfl⟩ := EStateM.Result.ok.inj hrun
    exact (Stops.full (hexact hfull)).exists_inTurn (Nat.zero_le _)
  | ranOut taken hopen =>
    rw [further_zero hopen] at hrun
    cases hrun
  | round fuel taken hopen ih =>
    have hone : 1 ≤ fuel + 1 := Nat.le_add_left 1 fuel
    rw [run_further_succ hopen] at hrun
    rcases helement : p.run s with ⟨value | _ | error, t⟩ | _ <;> rw [helement] at hrun
    · have ht : t.cursor.InRange := (hp.keeps.ok hs helement).inRange
      have hnext (hreached : bounds.max.reachedBy (taken.push value).size = true) :
          bounds.max = .times (taken.push value).size := by
        rw [Array.size_push] at hreached ⊢
        exact Count.eq_times_of_reachedBy hopen hreached
      obtain ⟨values, last, v, hlength, hturn, hstops⟩ := ih value ht hnext hrun
      refine ⟨value :: values, last, v, ?_, .cons helement hturn, ?_⟩
      · rw [List.length_cons, Nat.add_right_comm]
        exact Nat.succ_le_succ hlength
      · rwa [Array.toList_push, List.append_assoc] at hstops
    · obtain ⟨rfl, rfl⟩ := EStateM.Result.ok.inj hrun
      exact (Stops.waits hopen helement).exists_inTurn hone
    · obtain ⟨rfl, rfl⟩ := EStateM.Result.ok.inj hrun
      have hback := hp.rewinds s _ _ hs helement rfl
      cases hmin : bounds.min.reachedBy taken.size with
      | true => exact (Stops.enough hopen helement hback hmin).exists_inTurn hone
      | false => exact (Stops.few hopen helement hmin).exists_inTurn hone
    · cases hrun

theorem keeps_further {R : Cursor → Cursor → Prop} (hR : Cursor.IsTravel R) (hp : p.Keeps R)
    (values : Array α) : (further p bounds fuel values).Keeps R := by
  have h := compositional_keeps (σ := σ) hR
  unfold further
  split
  · exact h.accept (values.toList)
  · exact h.iterate (q := p) (h.asks_pure _) hp (Nat.le_refl fuel) values

theorem keeps_repetition {R : Cursor → Cursor → Prop} (hR : Cursor.IsTravel R) (hp : p.Keeps R)
    (bounds : Bounds) (fuel : Nat) : (repetition fuel bounds p).Keeps R :=
  (compositional_keeps hR).repetition (q := p) bounds hp (Nat.le_refl fuel)

/-- A repetition comes to an end if and only if the greedy one does, with enough fuel for all
runs. -/
theorem repetition_ok_iff (hp : p.Obeys) (hs : s.cursor.InRange) :
    (repetition fuel bounds p).run s = .ok verdict t ↔
      ∃ outcomes, outcomes.length ≤ fuel ∧ Greedy p bounds s outcomes verdict t := by
  have htame : (further p bounds fuel #[]).Tame := keeps_further Cursor.isTravel_within hp.tame #[]
  constructor
  · intro hrun
    by_cases hmax : bounds.max = .times 0
    · rw [repetition, if_pos hmax] at hrun
      obtain ⟨rfl, rfl⟩ := EStateM.Result.ok.inj hrun
      exact ⟨[], Nat.zero_le _, .none hmax⟩
    · rw [repetition_eq hmax] at hrun
      obtain ⟨u, hbody, rfl⟩ := rewinding_ok htame hs hrun
      have hexact : bounds.max.reachedBy (#[] : Array α).size = true → bounds.max = .times 0 :=
        Count.reachedBy_zero.mp
      obtain ⟨values, last, v, hlength, hturn, hstops⟩ :=
        further_ok (s := s.marked) hp hs hexact hbody
      rw [List.nil_append] at hstops
      refine ⟨values.map .accepted ++ last, ?_, .some hmax hturn hstops⟩
      rwa [List.length_append, List.length_map]
  · rintro ⟨_, hlength, hgreedy⟩
    rcases hgreedy with hmax | ⟨hmax, hturn, hstops⟩
    · rw [repetition, if_pos hmax]
      rfl
    · rename_i values last v u
      rw [List.length_append, List.length_map] at hlength
      obtain ⟨fewer, rfl⟩ := Nat.exists_eq_add_of_le (Nat.le_trans (Nat.le_add_right _ _) hlength)
      have hbody := run_further_of_inTurn fewer hturn #[] fun k hk => by
        rw [Array.size_empty, Nat.zero_add]
        exact hstops.reachedBy_of_lt hk
      rw [Array.empty_append, hstops.run (by omega)] at hbody
      rw [repetition_eq hmax]
      exact run_rewinding_of_ok hs (htame.ok (s := s.marked) hs hbody) hbody

end Runs

/-! ## Recorded runs -/

section Recorded

variable {s t : Scanner σ} {outcomes : List (Verdict ε α)} {verdict : Verdict ε (List α)}

/-- The element, with a record of its outcomes. -/
abbrev counted (p : Parser σ ε α) : Parser (σ × List (Verdict ε α)) ε α :=
  p.recorded fun verdict _ => verdict

theorem InTurn.counted (h : InTurn p s outcomes t) (record : List (Verdict ε α)) :
    InTurn p.counted (s.recording record) outcomes (t.recording (record ++ outcomes)) := by
  induction h generalizing record with
  | nil s =>
    rw [List.append_nil]
    exact .nil _
  | @cons _ _ _ outcome _ hrun _ ih =>
    have hnext := ih (record ++ [outcome])
    rw [List.append_assoc] at hnext
    exact .cons (run_recorded_of_ok hrun record) hnext

theorem Stops.counted {values : List α} (h : Stops p bounds values s outcomes verdict t)
    (record : List (Verdict ε α)) :
    Stops p.counted bounds values (s.recording record) outcomes verdict
      (t.recording (record ++ outcomes)) := by
  cases h with
  | full hmax =>
    rw [List.append_nil]
    exact .full hmax
  | waits hmax hrun => exact .waits hmax (run_recorded_of_ok hrun record)
  | enough hmax hrun hcursor hmin =>
    exact .enough hmax (run_recorded_of_ok hrun record) hcursor hmin
  | few hmax hrun hmin => exact .few hmax (run_recorded_of_ok hrun record) hmin

theorem Greedy.counted (h : Greedy p bounds s outcomes verdict t) :
    Greedy p.counted bounds (s.recording []) outcomes verdict (t.recording outcomes) := by
  rcases h with hmax | ⟨hmax, hturn, hstops⟩
  · exact .none hmax
  · have h := Greedy.some (s := s.recording []) hmax (hturn.counted []) (hstops.counted _)
    rw [List.nil_append] at h
    convert h using 1
    split <;> rfl

theorem Obeys.counted (hp : p.Obeys) : p.counted.Obeys := ⟨hp.keeps.recorded, hp.rewinds.recorded⟩

end Recorded

end Parser

end StreamGrammar
