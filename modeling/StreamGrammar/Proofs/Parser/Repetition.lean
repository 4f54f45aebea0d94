import StreamGrammar.Proofs.Parser.Agreement
import StreamGrammar.Proofs.Parser.Greedy
import StreamGrammar.Proofs.Parser.Laws

/-!
# Repetitions against each other

A repetition with bounds is a number of copies in a row, as many as it needs, and then a repetition
that needs none (`further_eq_inOrder`, `further_behind`). Both are equations between parsers, in
which the fuel that is spent is counted. Where every match takes a byte, more fuel than there are
bytes makes no difference (`run_further_of_available`).
-/

namespace StreamGrammar

open Input (Cursor)

variable {σ ε φ α β : Type}

/-! ## Bounds -/

namespace Count

theorem zero_le (count : Count) : (times 0).le count = true := by
  cases count with
  | times n => exact decide_eq_true (Nat.zero_le n)
  | unbounded => rfl

theorem le_refl (count : Count) : count.le count = true := by
  cases count with
  | times n => exact decide_eq_true (Nat.le_refl n)
  | unbounded => rfl

/-- What is left of a count after the first `n`. -/
def minus (n : Nat) : Count → Count
  | times m => times (m - n)
  | unbounded => unbounded

theorem reachedBy_minus (count : Count) (m n : Nat) :
    (count.minus m).reachedBy n = count.reachedBy (m + n) := by
  cases count with
  | times k => exact decide_eq_decide.mpr (by omega)
  | unbounded => rfl

theorem reachedBy_of_le {count : Count} {m n : Nat} (h : (times m).le count = true) (hn : n < m) :
    count.reachedBy n = false := by
  cases count with
  | times k =>
    have hle : m ≤ k := of_decide_eq_true h
    exact decide_eq_false (by omega)
  | unbounded => rfl

end Count

namespace Bounds

/-- Exactly `n` times. -/
def exactly (n : Nat) : Bounds := ⟨.times n, .times n, Count.le_refl _⟩

/-- Any number of times up to `max`. -/
def upTo (max : Count) : Bounds := ⟨.times 0, max, Count.zero_le max⟩

/-- At least `n` times. -/
def atLeast (n : Nat) : Bounds := ⟨.times n, .unbounded, rfl⟩

end Bounds

namespace Parser

variable {p : Parser σ ε α} {bounds : Bounds}

/-! ## Copies in a row -/

/-- By induction on the copies: as long as the least number is not reached, a repetition goes on and
fails like copies in a row. -/
theorem further_eq_inOrder (n fuel : Nat) (taken : Array α) (next : List α → Parser σ ε (List α))
    (hmin : ∀ k < n, bounds.min.reachedBy (taken.size + k) = false)
    (hmax : ∀ k < n, bounds.max.reachedBy (taken.size + k) = false)
    (hnext : ∀ values : List α, values.length = n →
      further p bounds fuel (taken ++ values.toArray) = next values) :
    further p bounds (n + fuel) taken = (inOrder (List.replicate n p)).andThen next := by
  induction n generalizing taken next with
  | zero =>
    have h := hnext [] rfl
    rw [show taken ++ ([] : List α).toArray = taken from Array.append_empty] at h
    rw [Nat.zero_add]
    exact h
  | succ n ih =>
    have hzero := hmin 0 (Nat.zero_lt_succ n)
    rw [Nat.add_right_comm, further_succ (hmax 0 (Nat.zero_lt_succ n))]
    change _ = (p.andThen fun value => _).andThen next
    rw [andThen_assoc, andThen_eq_settle]
    refine p.settle_congr (fun value => ?_) fun error => if_neg (Bool.eq_false_iff.mp hzero)
    change _ = ((inOrder (List.replicate n p)).andThen fun values => _).andThen next
    rw [andThen_assoc]
    have hsize (k : Nat) : (taken.push value).size + k = taken.size + (k + 1) := by
      rw [Array.size_push, Nat.add_right_comm, Nat.add_assoc]
    refine ih (taken.push value) _ (fun k hk => ?_) (fun k hk => ?_) fun values hlength => ?_
    · rw [hsize]
      exact hmin (k + 1) (Nat.succ_lt_succ hk)
    · rw [hsize]
      exact hmax (k + 1) (Nat.succ_lt_succ hk)
    · have hpush : taken.push value ++ values.toArray = taken ++ (value :: values).toArray := by
        simp
      rw [hpush]
      exact hnext (value :: values) (congrArg Nat.succ hlength)

/-- A repetition that needs `n` values starts with `n` copies. -/
theorem further_eq_copies {n fuel : Nat} {next : List α → Parser σ ε (List α)}
    (hmin : (Count.times n).le bounds.min = true) (hmax : (Count.times n).le bounds.max = true)
    (hnext : ∀ values : List α, values.length = n →
      further p bounds fuel values.toArray = next values) :
    further p bounds (n + fuel) #[] = (inOrder (List.replicate n p)).andThen next := by
  refine further_eq_inOrder n fuel #[] next (fun k hk => ?_) (fun k hk => ?_)
    fun values hlength => ?_
  · rw [Array.size_empty, Nat.zero_add]
    exact Count.reachedBy_of_le hmin hk
  · rw [Array.size_empty, Nat.zero_add]
    exact Count.reachedBy_of_le hmax hk
  · rw [Array.empty_append]
    exact hnext values hlength

/-- By induction on the rounds: the values before some others only come before them. -/
theorem further_behind {rest : Bounds} (fuel : Nat) (taken values : Array α)
    (hmin : ∀ n, bounds.min.reachedBy (taken.size + n) = rest.min.reachedBy n)
    (hmax : ∀ n, bounds.max.reachedBy (taken.size + n) = rest.max.reachedBy n) :
    further p bounds fuel (taken ++ values) =
      (further p rest fuel values).map (taken.toList ++ ·) := by
  have hsame (values : Array α) :
      bounds.max.reachedBy (taken ++ values).size = rest.max.reachedBy values.size := by
    rw [Array.size_append, hmax]
  induction fuel, values using further_induction rest.max with
  | full fuel values hfull =>
    rw [further_of_reached hfull, further_of_reached ((hsame values).trans hfull),
      Array.toList_append]
    rfl
  | ranOut values hopen =>
    rw [further_zero hopen, further_zero ((hsame values).trans hopen)]
    rfl
  | round fuel values hopen ih =>
    rw [further_succ hopen, further_succ ((hsame values).trans hopen), map_settle]
    refine p.settle_congr (fun value => ?_) fun error => ?_
    · dsimp only
      rw [← Array.append_push]
      exact ih value
    · dsimp only
      rw [Array.size_append, hmin, Array.toList_append]
      split <;> rfl

/-! ## Repetitions without an end -/

theorem star_eq_repetition (fuel : Nat) (p : Parser σ ε α) :
    star fuel p = repetition fuel (.upTo .unbounded) p := by
  have hcollect : (collect : Array α → Except ε α → _) = collectWithin (.upTo .unbounded) := by
    funext values item
    cases item <;> rfl
  have hmax : (Bounds.upTo .unbounded).max ≠ .times 0 := by decide
  rw [star, repetition, if_neg hmax, hcollect]

/-- Any number of elements is taken in turn, until one rejects or leaves open. -/
theorem star_ok_iff (hp : p.Obeys) {s u : Scanner σ} (hs : s.cursor.InRange) {fuel : Nat}
    {verdict : Verdict ε (List α)} :
    (star fuel p).run s = .ok verdict u ↔
      ∃ (values : List α) (t : Scanner σ), values.length < fuel ∧
        InTurn p s.marked (values.map .accepted) t ∧
        ((∃ error, p.run t = .ok (.rejected error) u ∧ verdict = .accepted values) ∨
          ∃ v, p.run t = .ok .undecided v ∧ verdict = .undecided ∧ u = v.putBack s.cursor) := by
  rw [star_eq_repetition, repetition_ok_iff hp hs]
  constructor
  · rintro ⟨_, hlength, hgreedy⟩
    rcases hgreedy with hmax | @⟨values, _, _, t, _, -, hturn, hstops⟩
    · cases hmax
    · rw [List.length_append, List.length_map] at hlength
      refine ⟨values, t, ?_⟩
      cases hstops with
      | full hmax => cases hmax
      | waits _ hrun => exact ⟨hlength, hturn, .inr ⟨_, hrun, rfl, rfl⟩⟩
      | enough _ hrun _ _ => exact ⟨hlength, hturn, .inl ⟨_, hrun, rfl⟩⟩
      | few _ _ hmin => cases hmin
  · rintro ⟨values, t, hlength, hturn, hlast⟩
    have hmax : (Bounds.upTo .unbounded).max ≠ .times 0 := nofun
    rcases hlast with ⟨error, hrun, rfl⟩ | ⟨v, hrun, rfl, rfl⟩
    · have ht := hp.rewinds t u _ (hturn.onward hp hs).inRange hrun rfl
      refine ⟨_, ?_, .some hmax hturn (.enough rfl hrun ht rfl)⟩
      rw [List.length_append, List.length_map]
      exact hlength
    · refine ⟨_, ?_, .some hmax hturn (.waits rfl hrun)⟩
      rw [List.length_append, List.length_map]
      exact hlength

/-- Where no more values are needed and any number is allowed, errors do not matter. -/
theorem mapError_further (adapt : ε → φ) (fuel : Nat) (values : Array α)
    (hmin : ∀ n, values.size ≤ n → bounds.min.reachedBy n = true)
    (hmax : bounds.max = .unbounded) :
    (further p bounds fuel values).mapError adapt =
      ⟨iterate p (Judge.pure collect) fuel values⟩ := by
  have hopen (n : Nat) : bounds.max.reachedBy n = false := hmax ▸ rfl
  induction fuel generalizing values with
  | zero =>
    rw [further_zero (hopen _)]
    rfl
  | succ fuel ih =>
    rw [further_succ (hopen _), mapError_settle, iterate_succ_eq_settle]
    refine p.settle_congr (fun value => ?_) fun error => ?_
    · refine ih (values.push value) fun n hn => hmin n ?_
      rw [Array.size_push] at hn
      omega
    · dsimp only
      rw [if_pos (hmin _ (Nat.le_refl _))]
      rfl

/-- At least one element is what a repetition from one on takes, with its error adapted. The first
element is not counted in the fuel. -/
theorem plus_eq_repetition (fuel : Nat) (adapt : ε → φ) (p : Parser σ ε α) :
    plus fuel adapt p = (repetition (fuel + 1) (.atLeast 1) p).mapError adapt := by
  have hmax : (Bounds.atLeast 1).max ≠ .times 0 := nofun
  rw [plus, repeatingSome_eq_rewinding, repetition_eq hmax, mapError_rewinding]
  congr 1
  rw [further_succ rfl, mapError_settle]
  refine p.settle_congr (fun value => ?_) fun error => rfl
  have hmin (n : Nat) (hn : 1 ≤ n) : (Bounds.atLeast 1).min.reachedBy n = true := decide_eq_true hn
  exact (mapError_further adapt fuel #[value] hmin rfl).symm

/-! ## Parsers that never reject -/

/-- The parser does not reject. -/
def Unfailing (p : Parser σ ε α) : Prop := ∀ s error t, p.run s ≠ .ok (.rejected error) t

theorem Unfailing.map (hp : p.Unfailing) (f : α → β) : (p.map f).Unfailing := by
  intro s error t hrun
  rw [run_map] at hrun
  rcases hbody : p.run s with ⟨value | _ | error', u⟩ | _ <;> rw [hbody] at hrun
  · cases hrun
  · cases hrun
  · exact hp s error' u hbody
  · cases hrun

/-- What needs no values cannot have too few. -/
theorem unfailing_further (max : Count) (fuel : Nat) (values : Array α) :
    (further p (.upTo max) fuel values).Unfailing := by
  induction fuel, values using further_induction max with
  | full fuel values hfull =>
    rw [further_of_reached hfull]
    exact fun s error t hrun => by cases hrun
  | ranOut values hopen =>
    rw [further_zero hopen]
    exact fun s error t hrun => by cases hrun
  | round fuel values hopen ih =>
    intro s error t hrun
    rw [run_further_succ hopen] at hrun
    rcases hbody : p.run s with ⟨value | _ | error', u⟩ | _ <;> rw [hbody] at hrun
    · exact ih value u error t hrun
    · cases hrun
    · cases hrun
    · cases hrun

/-- Where a parser in front rejects, what follows it has not moved the cursor. -/
theorem Rewinds.andThen {next : α → Parser σ ε β} (hp : p.Rewinds Verdict.isAccepted)
    (hnext : ∀ value, (next value).Unfailing) :
    (p.andThen next).Rewinds fun verdict => !verdict.isRejected := by
  intro s u verdict hs hrun hkeep
  cases verdict with
  | accepted value => cases hkeep
  | undecided => cases hkeep
  | rejected error =>
    change (p >>= next).run s = _ at hrun
    rw [run_bind] at hrun
    rcases hbody : p.run s with ⟨value | _ | error', t⟩ | _ <;> rw [hbody] at hrun
    · exact absurd hrun (hnext value t error u)
    · cases hrun
    · obtain ⟨-, rfl⟩ := EStateM.Result.ok.inj hrun
      exact hp s t _ hs hbody rfl
    · cases hrun

/-- What never rejects needs no default. -/
theorem Unfailing.optional_eq (hp : p.Unfailing) (default : α) : p.optional default = p := by
  apply eq_of_run_eq
  intro s
  rw [optional_eq_settle, run_settle]
  rcases hrun : p.run s with ⟨value | _ | error, t⟩ | _
  · rfl
  · rfl
  · exact absurd hrun (hp s error t)
  · rfl

/-! ## Fuel -/

/-- A match takes a byte at least. -/
def Consumes (p : Parser σ ε α) : Prop :=
  ∀ (s t : Scanner σ) (value : α), s.cursor.InRange → p.run s = .ok (.accepted value) t →
    s.cursor.position < t.cursor.position

theorem consumes_byte (test : UInt8 → Bool) (expected : String) :
    (byte test expected : Parser σ _ _).Consumes := by
  intro s t value _ hrun
  rcases byte_ok hrun with ⟨_, -, -, -, rfl⟩ | ⟨_, -, -, h, -⟩ | ⟨-, h, -⟩
  · exact Nat.lt_succ_self _
  · cases h
  · unfold missed at h
    split at h <;> cases h

theorem Consumes.settle {next : Except ε α → Parser σ φ β} (hp : p.Consumes)
    (hok : ∀ value, ∃ value', next (.ok value) = accept value')
    (herror : ∀ error, ∃ error', next (.error error) = reject error') :
    (p.settle next).Consumes := by
  intro s u value hs hrun
  rw [run_settle] at hrun
  rcases hbody : p.run s with ⟨value' | _ | error, t⟩ | _ <;> rw [hbody] at hrun <;>
    dsimp only at hrun
  · obtain ⟨_, hnext⟩ := hok value'
    rw [hnext] at hrun
    obtain ⟨-, rfl⟩ := EStateM.Result.ok.inj hrun
    exact hp s t value' hs hbody
  · cases hrun
  · obtain ⟨_, hnext⟩ := herror error
    rw [hnext] at hrun
    cases hrun
  · cases hrun

theorem Consumes.map (hp : p.Consumes) (f : α → β) : (p.map f).Consumes := by
  rw [map_eq_settle]
  exact hp.settle (fun value => ⟨f value, rfl⟩) fun error => ⟨error, rfl⟩

theorem Consumes.mapError (hp : p.Consumes) (f : ε → φ) : (p.mapError f).Consumes := by
  rw [mapError_eq_settle]
  exact hp.settle (fun value => ⟨value, rfl⟩) fun error => ⟨f error, rfl⟩

/-- By induction on the fuel: each match leaves fewer bytes. -/
theorem run_further_of_available (hp : p.Obeys) (hconsumes : p.Consumes) {s : Scanner σ}
    (hs : s.cursor.InRange) {fuel fuel' : Nat} (hfuel : s.cursor.available < fuel)
    (hfuel' : s.cursor.available < fuel') (values : Array α) :
    (further p bounds fuel values).run s = (further p bounds fuel' values).run s := by
  induction fuel generalizing s fuel' values with
  | zero => exact absurd hfuel (Nat.not_lt_zero _)
  | succ fuel ih =>
    obtain ⟨fuel', rfl⟩ : ∃ n, fuel' = n + 1 := ⟨fuel' - 1, by omega⟩
    cases hmax : bounds.max.reachedBy values.size with
    | true => rw [further_of_reached hmax, further_of_reached hmax]
    | false =>
      rw [run_further_succ hmax, run_further_succ hmax]
      rcases hrun : p.run s with ⟨value | _ | error, t⟩ | _
      · have ht := hp.keeps.ok hs hrun
        have hless := ht.available_lt (hconsumes s t value hs hrun)
        exact ih ht.inRange (by omega) (by omega) _
      · rfl
      · rfl
      · rfl

/-! ## Repetitions of parsers without memory -/

section Agree

variable {c : Cursor} (hp : p.Obeys) (hmemory : p.Memoryless) (hc : c.InRange)
include hp hmemory hc

theorem further_agree (bounds : Bounds) (fuel : Nat) (values : Array α) :
    Agree c (further p bounds fuel values) (further p bounds fuel values) := by
  have hrejects := hp.rewinds.of_rejected
  induction fuel, values using further_induction bounds.max generalizing c with
  | full fuel values hfull =>
    rw [further_of_reached hfull]
    exact .accept _
  | ranOut values hopen =>
    rw [further_zero hopen]
    exact fun s s' _ _ => .error .ranOut s s'
  | round fuel values hopen ih =>
    rw [further_succ hopen]
    refine (hmemory c hc).settle hc hp.tame hrejects hrejects (fun value d hd => ?_) fun error => ?_
    · exact ih value hd.inRange
    · dsimp only
      split
      · exact .accept _
      · exact .reject _

theorem repetition_agree (bounds : Bounds) (fuel : Nat) :
    Agree c (repetition fuel bounds p) (further p bounds fuel #[]) := by
  by_cases hmax : bounds.max = .times 0
  · have hreached : bounds.max.reachedBy (#[] : Array α).size = true :=
      Count.reachedBy_zero.mpr hmax
    rw [repetition, if_pos hmax, further_of_reached hreached]
    exact .accept []
  · rw [repetition_eq hmax]
    have hbody := further_agree hp hmemory hc bounds fuel #[]
    exact hbody.rewinding hc (keeps_further Cursor.isTravel_within hp.tame #[])

variable (hconsumes : p.Consumes) {fuel : Nat} (hfuel : c.available < fuel)
include hconsumes hfuel

/-- Once there is fuel for all bytes, it does not matter how much. -/
theorem repetition_agree_further {fuel' : Nat} (hfuel' : c.available < fuel') :
    Agree c (repetition fuel bounds p) (further p bounds fuel' #[]) := by
  refine (repetition_agree hp hmemory hc bounds fuel).trans ?_
  refine (further_agree hp hmemory hc bounds fuel' #[]).of_run_eq ?_
  rintro s rfl
  exact run_further_of_available hp hconsumes hc hfuel hfuel' #[]

/-- A number of elements is that number of copies. -/
theorem exactly_agree (n : Nat) :
    Agree c (repetition fuel (.exactly n) p) (inOrder (List.replicate n p)) := by
  have hfull (values : List α) (hlength : values.length = n) :
      further p (.exactly n) fuel values.toArray = accept values :=
    further_of_reached (hlength ▸ Count.reachedBy_times _)
  have hle := Count.le_refl (.times n)
  have hcopies : further p (.exactly n) (n + fuel) #[] = _ := further_eq_copies hle hle hfull
  rw [andThen_accept] at hcopies
  rw [← hcopies]
  exact repetition_agree_further hp hmemory hc hconsumes hfuel (Nat.lt_add_left n hfuel)

/-- A repetition is the elements that it needs and as many more as it may have. -/
theorem repetition_agree_copies {n : Nat} (hmin : bounds.min = .times n) :
    Agree c (repetition fuel bounds p) ((inOrder (List.replicate n p)).andThen fun values =>
      (further p (.upTo (bounds.max.minus n)) fuel #[]).map (values ++ ·)) := by
  have hmore (values : List α) (hlength : values.length = n) :
      further p bounds fuel values.toArray =
        (further p (.upTo (bounds.max.minus n)) fuel #[]).map (values ++ ·) := by
    refine further_behind fuel values.toArray #[] (fun k => ?_) fun k => ?_
    · rw [hmin]
      exact decide_eq_true (by rw [List.size_toArray]; omega)
    · rw [List.size_toArray, hlength]
      exact (Count.reachedBy_minus _ n k).symm
  rw [← further_eq_copies (hmin ▸ Count.le_refl _) (hmin ▸ bounds.ordered) hmore]
  exact repetition_agree_further hp hmemory hc hconsumes hfuel (Nat.lt_add_left n hfuel)

/-- Any number of elements is none, or one and any number more. -/
theorem repetition_agree_unrolled :
    Agree c (repetition fuel (.upTo .unbounded) p) (p.settle fun
      | .ok value => (further p (.upTo .unbounded) fuel #[]).map (value :: ·)
      | .error _ => accept []) := by
  have hunroll : further p (.upTo .unbounded) (1 + fuel) #[] = p.settle fun
      | .ok value => (further p (.upTo .unbounded) fuel #[]).map (value :: ·)
      | .error _ => accept [] := by
    rw [Nat.add_comm, further_succ rfl]
    refine p.settle_congr (fun value => ?_) fun error => rfl
    exact further_behind fuel #[value] #[] (fun _ => rfl) fun _ => rfl
  rw [← hunroll]
  exact repetition_agree_further hp hmemory hc hconsumes hfuel (Nat.lt_add_left 1 hfuel)

/-! ### Groups -/

theorem exactly_agree_concatenation (n : Nat) :
    Agree c (repetition fuel (.exactly n) p) (concatenation (List.replicate n p)) := by
  have htame : (inOrder (List.replicate n p)).Tame :=
    (compositional_keeps Cursor.isTravel_within).inOrder
      (List.forall₂_same.mpr fun q hq => List.eq_of_mem_replicate hq ▸ hp.tame)
  have hcopies := (exactly_agree hp hmemory hc hconsumes hfuel n).symm
  exact (hcopies.rewinding hc htame).symm

theorem plus_agree_repetition (adapt : ε → φ) :
    Agree c (plus fuel adapt p) ((repetition fuel (.atLeast 1) p).mapError adapt) := by
  have hmore : c.available < fuel + 1 := Nat.lt_succ_of_lt hfuel
  rw [plus_eq_repetition]
  refine Agree.mapError adapt ?_
  exact (repetition_agree_further hp hmemory hc hconsumes hmore hfuel).trans
    (repetition_agree hp hmemory hc _ fuel).symm

theorem repetition_agree_group {n : Nat} (hmin : bounds.min = .times n) :
    Agree c (repetition fuel bounds p) (rewinding do
      let values ← repetition fuel (.exactly n) p
      (repetition fuel (.upTo (bounds.max.minus n)) p).map (values ++ ·)) := by
  have htame (bounds : Bounds) : (repetition fuel bounds p).Tame :=
    keeps_repetition Cursor.isTravel_within hp.tame bounds fuel
  have hgroup := (exactly_agree hp hmemory hc hconsumes hfuel n).andThen hc (htame _)
    fun values d hd => (repetition_agree hp hmemory hd.inRange
      (.upTo (bounds.max.minus n)) fuel).map (values ++ ·)
  refine (repetition_agree_copies hp hmemory hc hconsumes hfuel hmin).trans ?_
  refine (hgroup.rewinding hc ?_).symm
  exact keeps_andThen Cursor.isTravel_within (htame _) fun values =>
    keeps_map Cursor.isTravel_within (values ++ ·) (htame _)

theorem star_agree_group :
    Agree c (star fuel p : Parser σ ε _) (optional [] (rewinding do
      let value ← p
      (star fuel p).map (value :: ·) : Parser σ ε _)) := by
  rw [star_eq_repetition]
  have htame : (p.andThen fun value =>
      (repetition fuel (.upTo .unbounded) p).map (value :: ·)).Tame :=
    keeps_andThen Cursor.isTravel_within hp.tame fun value =>
      keeps_map Cursor.isTravel_within _ (keeps_repetition Cursor.isTravel_within hp.tame _ fuel)
  have hnext (value : α) : ((further p (.upTo .unbounded) fuel #[]).map (value :: ·)).Unfailing :=
    (unfailing_further .unbounded fuel #[]).map _
  have hbody := (hmemory c hc).andThen hc hp.tame fun value d hd =>
    (repetition_agree hp hmemory hd.inRange (.upTo .unbounded) fuel).map (value :: ·)
  have hgroup := (hbody.rewinding hc htame).optional (φ := ε) hc
    (keeps_rewindingUnless Cursor.isTravel_within _ htame) [] (htame.rewinds _).of_rejected
    (hp.rewinds.andThen hnext)
  rw [optional_andThen] at hgroup
  simp only [(hnext _).optional_eq] at hgroup
  exact (repetition_agree_unrolled hp hmemory hc hconsumes hfuel).trans hgroup.symm

end Agree

end Parser

end StreamGrammar
