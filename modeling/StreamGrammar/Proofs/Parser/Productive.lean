import StreamGrammar.Proofs.Parser.Separated

/-!
# Parsers that take bytes and come to an end

A parser that takes a byte whenever it accepts (`Consumes`) can be repeated only as often as there
are bytes (`Greedy.length_le`). So a repetition of it comes to an end if its element does, and
otherwise its bounds have to end it (`finishes_repetition`). What a parser is built of may have
less input before it than the parser had, never more, so it is enough to bound the input once, at
the start (`Finishes`).
-/

namespace StreamGrammar.Parser

open Input (Cursor)

variable {σ ε φ α β : Type} {p : Parser σ ε α} {ps : List (Parser σ ε α)} {bounds : Bounds}

/-! ## Taking a byte -/

theorem consumes_reject (error : ε) : (reject error : Parser σ ε α).Consumes := by
  intro s t value _ hrun
  cases hrun

theorem consumes_literal (text : Literal) (hcodes : text.codes ≠ []) :
    (literal text : Parser σ _ _).Consumes := by
  intro s t value hs hrun
  rcases literal_ok hs hrun with ⟨_, -, -, -, rfl⟩ | ⟨-, ⟨-, h⟩ | ⟨_, -, h⟩⟩
  · exact Nat.lt_add_of_pos_right (List.length_pos_iff.mpr hcodes)
  · cases h
  · cases h

/-- What goes on behind a byte has taken it, and what goes on with a parser that takes one takes
it. -/
theorem consumes_settle {next : Except ε α → Parser σ φ β} (hkeeps : p.Keeps Cursor.Onward)
    (hok : ∀ value, p.Consumes ∧ (next (.ok value)).Keeps Cursor.Onward ∨
      (next (.ok value)).Consumes)
    (herror : ∀ error, (next (.error error)).Consumes) : (p.settle next).Consumes := by
  intro s u value hs hrun
  rcases settle_ok hrun with ⟨-, h⟩ | ⟨first, item, t, hbody, hitem, hrest⟩
  · cases h
  have ht := hkeeps.ok hs hbody
  cases first with
  | accepted value' =>
    obtain rfl := Option.some.inj hitem
    rcases hok value' with ⟨hp, hnext⟩ | hnext
    · exact Nat.lt_of_lt_of_le (hp s t value' hs hbody) (hnext.ok ht.inRange hrest).position_le
    · exact Nat.lt_of_le_of_lt ht.position_le (hnext t u value ht.inRange hrest)
  | undecided => cases hitem
  | rejected error =>
    obtain rfl := Option.some.inj hitem
    exact Nat.lt_of_le_of_lt ht.position_le (herror error t u value ht.inRange hrest)

section Consumes

variable (hkeeps : p.Keeps Cursor.Onward)
include hkeeps

theorem Consumes.andThen (hp : p.Consumes) {next : α → Parser σ ε β}
    (hnext : ∀ value, (next value).Keeps Cursor.Onward) : (p.andThen next).Consumes := by
  rw [andThen_eq_settle]
  exact consumes_settle hkeeps (fun value => .inl ⟨hp, hnext value⟩) consumes_reject

theorem consumes_andThen {next : α → Parser σ ε β} (hnext : ∀ value, (next value).Consumes) :
    (p.andThen next).Consumes := by
  rw [andThen_eq_settle]
  exact consumes_settle hkeeps (fun value => .inr (hnext value)) consumes_reject

theorem Consumes.alternation (hp : p.Consumes)
    (hps : ∀ q ∈ ps, q.Consumes ∧ q.Keeps Cursor.Onward) : (alternation p ps).Consumes := by
  induction ps generalizing p with
  | nil => exact hp
  | cons q ps ih =>
    obtain ⟨⟨hq, hqkeeps⟩, hps⟩ := List.forall_mem_cons.mp hps
    rw [alternation_cons_eq_settle]
    exact consumes_settle hkeeps (fun value => .inl ⟨hp, fun _ => .refl⟩) fun _ =>
      ih hqkeeps hq hps

omit hkeeps

theorem Consumes.captured (hp : p.Consumes) : (captured p).Consumes := by
  intro s t value hs hrun
  rcases captured_ok hrun with ⟨value', _, hbody, -, -⟩ | ⟨-, h⟩ | ⟨_, -, h⟩
  · exact hp s t value' hs hbody
  · cases h
  · cases h

theorem Consumes.rewinding (hp : p.Consumes) : (rewinding p).Consumes := by
  intro s u value hs hrun
  obtain ⟨t, hbody, hu⟩ := rewindingUnless_ok hrun
  obtain rfl : u = t := hu
  exact hp s.marked u value hs hbody

theorem keeps_inOrder (hps : ∀ p ∈ ps, p.Keeps Cursor.Onward) :
    (inOrder ps).Keeps Cursor.Onward :=
  (compositional_keeps Cursor.isTravel_onward).inOrder (List.forall₂_same.mpr hps)

/-- One part that takes a byte is enough. -/
theorem consumes_inOrder (hps : ∀ p ∈ ps, p.Keeps Cursor.Onward)
    (hsome : ∃ p ∈ ps, p.Consumes) : (inOrder ps).Consumes := by
  induction ps with
  | nil =>
    obtain ⟨p, hp, -⟩ := hsome
    cases hp
  | cons p ps ih =>
    obtain ⟨hkeeps, hothers⟩ := List.forall_mem_cons.mp hps
    have hrest : (inOrder ps).Keeps Cursor.Onward := keeps_inOrder hothers
    have haccept (value : List α) : (accept value : Parser σ ε _).Keeps Cursor.Onward :=
      fun _ => .refl
    obtain ⟨q, hmem, hq⟩ := hsome
    rcases List.mem_cons.mp hmem with rfl | hmem
    · exact hq.andThen hkeeps fun value =>
        keeps_andThen Cursor.isTravel_onward hrest fun _ => haccept _
    · exact consumes_andThen hkeeps fun value =>
        (ih hothers ⟨q, hmem, hq⟩).andThen hrest fun _ => haccept _

theorem consumes_concatenation (hps : ∀ p ∈ ps, p.Keeps Cursor.Onward)
    (hsome : ∃ p ∈ ps, p.Consumes) : (concatenation ps).Consumes :=
  (consumes_inOrder hps hsome).rewinding

include hkeeps

/-- A repetition that needs an element takes what the first one takes. -/
theorem Consumes.repetition (hp : p.Consumes) (hmin : bounds.min ≠ .times 0) (fuel : Nat) :
    (repetition fuel bounds p).Consumes := by
  have hfirst : bounds.min.reachedBy (#[] : Array α).size = false :=
    Bool.eq_false_iff.mpr fun h => hmin (Count.reachedBy_zero.mp h)
  have hopen : bounds.max.reachedBy (#[] : Array α).size = false := by
    refine Bool.eq_false_iff.mpr fun h => hmin ?_
    have hordered := bounds.ordered
    rw [Count.reachedBy_zero.mp h] at hordered
    cases hcount : bounds.min with
    | times n =>
      rw [hcount] at hordered
      rw [Nat.le_zero.mp (of_decide_eq_true hordered)]
    | unbounded =>
      rw [hcount] at hordered
      cases hordered
  have hmax : bounds.max ≠ .times 0 := fun h => by
    rw [h] at hopen
    cases hopen
  rw [repetition_eq hmax]
  refine Consumes.rewinding ?_
  cases fuel with
  | zero =>
    rw [further_zero hopen]
    intro s t value _ hrun
    cases hrun
  | succ fuel =>
    rw [further_succ hopen]
    refine consumes_settle hkeeps (fun value => .inl ⟨hp, ?_⟩) fun error => ?_
    · exact keeps_further Cursor.isTravel_onward hkeeps _
    · dsimp only
      rw [if_neg (Bool.eq_false_iff.mp hfirst)]
      exact consumes_reject error

theorem Consumes.plus (hp : p.Consumes) (adapt : ε → φ) (fuel : Nat) :
    (plus fuel adapt p).Consumes := by
  have hmin : (Bounds.atLeast 1).min ≠ .times 0 := by decide
  rw [plus_eq_repetition]
  exact (hp.repetition hkeeps hmin (fuel + 1)).mapError adapt

theorem keeps_behind {separator : Parser σ ε β} (hseparator : separator.Keeps Cursor.Onward) :
    (behind p separator).Keeps Cursor.Onward :=
  keeps_rewindingUnless Cursor.isTravel_onward _
    (keeps_andThen Cursor.isTravel_onward hseparator fun _ => hkeeps)

theorem Consumes.sepBy {separator : Parser σ ε β} (hseparator : separator.Keeps Cursor.Onward)
    (hp : p.Consumes) (fuel : Nat) : (sepBy fuel p separator).Consumes := by
  rw [sepBy_eq_behind]
  refine (hp.andThen hkeeps fun first => ?_).rewinding
  rw [star_eq_repetition]
  have hnext := keeps_behind hkeeps hseparator
  exact keeps_map Cursor.isTravel_onward _ (keeps_repetition Cursor.isTravel_onward hnext _ fuel)

end Consumes

/-! ## Coming to an end -/

/-- Wherever at most `n` bytes are left to be read, a run comes to an end, at the place of its entry
or behind it. -/
def Finishes (n : Nat) (p : Parser σ ε α) : Prop :=
  ∀ s : Scanner σ, s.cursor.InRange → s.cursor.available ≤ n →
    ∃ verdict t, p.run s = .ok verdict t ∧ s.cursor.Onward t.cursor

section Finishes

variable {n fuel : Nat}

theorem Keeps.finishes (hkeeps : p.Keeps Cursor.Onward)
    (hends : ∀ s : Scanner σ, s.cursor.InRange → ∃ verdict t, p.run s = .ok verdict t) :
    p.Finishes n := by
  intro s hs _
  obtain ⟨verdict, t, hrun⟩ := hends s hs
  exact ⟨verdict, t, hrun, hkeeps.ok hs hrun⟩

theorem finishes_byte (test : UInt8 → Bool) (expected : String) :
    (byte test expected : Parser σ _ _).Finishes n := by
  refine (keeps_byte test expected).finishes fun s _ => ?_
  rw [run_byte]
  split
  · exact ⟨_, _, rfl⟩
  · split <;> exact ⟨_, _, rfl⟩

theorem finishes_literal (text : Literal) : (literal text : Parser σ _ _).Finishes n := by
  refine (keeps_literal text).finishes fun s hs => ?_
  rw [run_literal hs]
  cases hcomparison : comparison text s.cursor text.codes 0 with
  | accepted =>
    obtain ⟨bytes, hbytes, -⟩ :=
      Cursor.read_ok hs (add_le_stop_of_comparison hs.le_stop hcomparison)
    dsimp only
    rw [hbytes]
    exact ⟨_, _, rfl⟩
  | undecided => exact ⟨_, _, rfl⟩
  | rejected error => exact ⟨_, _, rfl⟩

/-- What is built of parsers that come to an end does so. What comes behind another one has no more
bytes before it. -/
theorem closed_finishes (n : Nat) : Closed (σ := σ) fun _ _ p _ => p.Finishes n where
  accept := fun _ s hs _ => ⟨_, s, rfl, .refl hs⟩
  reject := fun _ s hs _ => ⟨_, s, rfl, .refl hs⟩
  settle := by
    intro ε φ α β p _ next _ hp hnext s hs hn
    obtain ⟨verdict, t, hrun, ht⟩ := hp s hs hn
    have hrest (item : Except ε α) := hnext item t ht.inRange (Nat.le_trans ht.available_le hn)
    rw [run_settle, hrun]
    cases verdict with
    | accepted value =>
      obtain ⟨verdict, u, hrun, hu⟩ := hrest (.ok value)
      exact ⟨verdict, u, hrun, ht.trans hu⟩
    | undecided => exact ⟨_, t, rfl, ht⟩
    | rejected error =>
      obtain ⟨verdict, u, hrun, hu⟩ := hrest (.error error)
      exact ⟨verdict, u, hrun, ht.trans hu⟩
  rewindingUnless := by
    intro ε α keep p _ hp s hs hn
    obtain ⟨verdict, t, hrun, ht⟩ := hp s.marked hs hn
    refine ⟨verdict, _, run_rewindingUnless_of_ok keep hs ht.toWithin hrun, ?_⟩
    split
    · exact ht
    · exact .refl hs

section Single

variable (hp : p.Finishes n)
include hp

theorem Finishes.map (f : α → β) : (p.map f).Finishes n := (closed_finishes n).map (q := p) f hp

theorem Finishes.mapError (f : ε → φ) : (p.mapError f).Finishes n :=
  (closed_finishes n).mapError (q := p) f hp

theorem Finishes.optional (default : α) : (p.optional default : Parser σ φ α).Finishes n :=
  (closed_finishes n).optional (q := p) default hp

theorem Finishes.andThen {next : α → Parser σ ε β} (hnext : ∀ value, (next value).Finishes n) :
    (p.andThen next).Finishes n := (closed_finishes n).andThen (q := p) (g := next) hp hnext

theorem Finishes.rewinding : (rewinding p).Finishes n := (closed_finishes n).rewinding (q := p) hp

theorem Finishes.alternation (hps : ∀ q ∈ ps, q.Finishes n) : (alternation p ps).Finishes n :=
  (closed_finishes n).alternation (q := p) hp (List.forall₂_same.mpr hps)

omit hp in
theorem finishes_concatenation (hps : ∀ p ∈ ps, p.Finishes n) : (concatenation ps).Finishes n :=
  (closed_finishes n).concatenation (List.forall₂_same.mpr hps)

theorem Finishes.captured : (captured p).Finishes n := by
  intro s hs hn
  obtain ⟨verdict, t, hrun, ht⟩ := hp s hs hn
  rw [run_captured, hrun]
  cases verdict with
  | accepted value =>
    have hstart : t.cursor.buffer.start ≤ s.cursor.position := ht.buffer_eq ▸ hs.start_le
    obtain ⟨bytes, hbytes⟩ := Cursor.slice_ok hstart ht.position_le ht.inRange.le_stop
    dsimp only
    rw [hbytes]
    exact ⟨_, t, rfl, ht⟩
  | undecided => exact ⟨_, t, rfl, ht⟩
  | rejected error => exact ⟨_, t, rfl, ht⟩

/-- By induction on the rounds: each takes a byte, or brings the greatest number nearer. -/
theorem run_further_ends {s : Scanner σ} (hs : s.cursor.InRange) (hn : s.cursor.available ≤ n)
    (values : Array α)
    (hfuel : p.Consumes ∧ s.cursor.available < fuel ∨
      ∃ m, bounds.max = .times m ∧ m ≤ values.size + fuel) :
    ∃ verdict t, (further p bounds fuel values).run s = .ok verdict t ∧
      s.cursor.Onward t.cursor := by
  induction fuel, values using further_induction bounds.max generalizing s with
  | full fuel values hfull =>
    rw [further_of_reached hfull]
    exact ⟨_, s, rfl, .refl hs⟩
  | ranOut values hopen =>
    rcases hfuel with ⟨-, hlt⟩ | ⟨m, hmax, hle⟩
    · exact absurd hlt (Nat.not_lt_zero _)
    · rw [hmax] at hopen
      exact absurd hle (of_decide_eq_false hopen)
  | round fuel values hopen ih =>
    obtain ⟨verdict, t, hrun, ht⟩ := hp s hs hn
    rw [run_further_succ hopen, hrun]
    cases verdict with
    | accepted value =>
      have hnext : p.Consumes ∧ t.cursor.available < fuel ∨
          ∃ m, bounds.max = .times m ∧ m ≤ (values.push value).size + fuel := by
        rcases hfuel with ⟨hconsumes, hlt⟩ | ⟨m, hmax, hle⟩
        · have hless := ht.available_lt (hconsumes s t value hs hrun)
          exact .inl ⟨hconsumes, by omega⟩
        · refine .inr ⟨m, hmax, ?_⟩
          rw [Array.size_push]
          omega
      obtain ⟨verdict, u, hrest, hu⟩ := ih value ht.inRange (Nat.le_trans ht.available_le hn) hnext
      exact ⟨verdict, u, hrest, ht.trans hu⟩
    | undecided => exact ⟨_, t, rfl, ht⟩
    | rejected error => exact ⟨_, t, rfl, ht⟩

/-- A repetition comes to an end if its element takes bytes, or else if its greatest number is no
more than the fuel. -/
theorem Finishes.repetition
    (hfuel : p.Consumes ∧ n < fuel ∨ ∃ m, bounds.max = .times m ∧ m ≤ fuel) :
    (repetition fuel bounds p).Finishes n := by
  by_cases hmax : bounds.max = .times 0
  · rw [Parser.repetition, if_pos hmax]
    exact (closed_finishes n).accept []
  · have hfurther : (further p bounds fuel #[]).Finishes n := by
      intro s hs hn
      refine run_further_ends hp hs hn #[] ?_
      rcases hfuel with ⟨hconsumes, hlt⟩ | ⟨m, hmax, hle⟩
      · exact .inl ⟨hconsumes, Nat.lt_of_le_of_lt hn hlt⟩
      · exact .inr ⟨m, hmax, Nat.le_trans hle (Nat.le_add_left _ _)⟩
    rw [repetition_eq hmax]
    exact hfurther.rewinding

variable (hfuel : n < fuel)
include hfuel

theorem Finishes.star (hconsumes : p.Consumes) : (star fuel p : Parser σ ε _).Finishes n := by
  rw [star_eq_repetition]
  exact hp.repetition (.inl ⟨hconsumes, hfuel⟩)

theorem Finishes.plus (adapt : ε → φ) (hconsumes : p.Consumes) :
    (plus fuel adapt p).Finishes n := by
  rw [plus_eq_repetition]
  exact (hp.repetition (.inl ⟨hconsumes, Nat.lt_succ_of_lt hfuel⟩)).mapError adapt

theorem Finishes.sepBy {separator : Parser σ ε β} (hseparator : separator.Finishes n)
    (hconsumes : (separator.andThen fun _ => p).Consumes) :
    (sepBy fuel p separator).Finishes n := by
  have hbehind : (behind p separator).Finishes n := (hseparator.andThen fun _ => hp).rewinding
  rw [sepBy_eq_behind]
  exact (hp.andThen fun _ => (hbehind.star hfuel hconsumes.rewinding).map _).rewinding

end Single

end Finishes

/-! ## Counting the tries -/

section Tries

variable {s t : Scanner σ} {n : Nat}

/-- Each value that is taken leaves fewer bytes. -/
theorem InTurn.length_le (hp : p.Obeys) (hconsumes : p.Consumes) (hs : s.cursor.InRange)
    {values : List α} (h : InTurn p s (values.map .accepted) t) :
    values.length + t.cursor.available ≤ s.cursor.available := by
  induction values generalizing s with
  | nil =>
    cases h
    exact (Nat.zero_add _).le
  | cons value values ih =>
    rcases h with _ | ⟨hrun, hturn⟩
    have ht := hp.keeps.ok hs hrun
    have hless := ht.available_lt (hconsumes _ _ value hs hrun)
    have hle := ih ht.inRange hturn
    rw [List.length_cons]
    omega

theorem Stops.length_le {values : List α} {last : List (Verdict ε α)}
    {verdict : Verdict ε (List α)} (h : Stops p bounds values s last verdict t) :
    last.length ≤ 1 := by
  cases h with
  | full _ => exact Nat.zero_le 1
  | waits _ _ | enough _ _ _ _ | few _ _ _ => exact Nat.le_refl 1

/-- The element of a greedy repetition is run once for every byte and once more, at most. -/
theorem Greedy.length_le (hp : p.Obeys) (hconsumes : p.Consumes) (hs : s.cursor.InRange)
    {outcomes : List (Verdict ε α)} {verdict : Verdict ε (List α)}
    (h : Greedy p bounds s outcomes verdict t) : outcomes.length ≤ s.cursor.available + 1 := by
  rcases h with _ | ⟨-, hturn, hstops⟩
  · exact Nat.zero_le _
  · have hvalues := hturn.length_le (s := s.marked) hp hconsumes hs
    rw [List.length_append, List.length_map]
    exact Nat.add_le_add (Nat.le_trans (Nat.le_add_right _ _) hvalues) hstops.length_le

/-- A run from `s` that comes to an end runs the element of the repetition at most `n` times. -/
def TriesAtMost (n : Nat) (repeated : ∀ τ : Type, Parser τ ε α → Parser τ φ β)
    (p : Parser σ ε α) (s : Scanner σ) : Prop :=
  ∀ verdict t, (repeated _ p).run s = .ok verdict t → ∃ outcomes : List (Verdict ε α),
    outcomes.length ≤ n ∧
      (repeated _ p.counted).run (s.recording []) = .ok verdict (t.recording outcomes)

section

variable {γ : Type} {repeated : ∀ τ : Type, Parser τ ε α → Parser τ φ β}
  (h : TriesAtMost n repeated p s)
include h

/-- What is made of the verdict of a repetition does not run its element. -/
theorem TriesAtMost.settle {χ : Type} {next : ∀ τ : Type, Except φ β → Parser τ χ γ}
    (hnext : ∀ item, ∃ answer, ∀ τ, next τ item = ⟨pure answer⟩) :
    TriesAtMost n (fun τ p => (repeated τ p).settle (next τ)) p s := by
  intro verdict u hrun
  rcases settle_ok hrun with ⟨hbody, rfl⟩ | ⟨first, item, t, hbody, hitem, hrest⟩
  · obtain ⟨outcomes, hlength, hcounted⟩ := h _ u hbody
    refine ⟨outcomes, hlength, ?_⟩
    dsimp only
    rw [run_settle, hcounted]
  · obtain ⟨answer, hanswer⟩ := hnext item
    rw [hanswer] at hrest
    obtain ⟨rfl, rfl⟩ := EStateM.Result.ok.inj hrest
    obtain ⟨outcomes, hlength, hcounted⟩ := h _ t hbody
    refine ⟨outcomes, hlength, ?_⟩
    dsimp only
    rw [run_settle_of_settled hcounted hitem, hanswer]
    rfl

theorem TriesAtMost.map (f : β → γ) : TriesAtMost n (fun τ p => (repeated τ p).map f) p s := by
  simp only [map_eq_settle]
  refine h.settle fun item => ?_
  cases item <;> exact ⟨_, fun _ => rfl⟩

theorem TriesAtMost.mapError (f : φ → γ) :
    TriesAtMost n (fun τ p => (repeated τ p).mapError f) p s := by
  simp only [mapError_eq_settle]
  refine h.settle fun item => ?_
  cases item <;> exact ⟨_, fun _ => rfl⟩

end

variable (hp : p.Obeys) (hconsumes : p.Consumes) (hs : s.cursor.InRange) (fuel : Nat)
include hp hconsumes hs

theorem tries_repetition (bounds : Bounds) :
    TriesAtMost (s.cursor.available + 1) (fun _ => repetition fuel bounds) p s := by
  intro verdict t hrun
  obtain ⟨outcomes, hlength, hgreedy⟩ := (repetition_ok_iff hp hs).mp hrun
  refine ⟨outcomes, hgreedy.length_le hp hconsumes hs, ?_⟩
  have hs' : (s.recording ([] : List (Verdict ε α))).cursor.InRange := hs
  exact (repetition_ok_iff hp.counted hs').mpr ⟨outcomes, hlength, hgreedy.counted⟩

theorem tries_star :
    TriesAtMost (s.cursor.available + 1) (φ := ε) (fun _ p => star fuel p) p s := by
  simp only [star_eq_repetition]
  exact tries_repetition hp hconsumes hs fuel _

theorem tries_plus (adapt : ε → φ) :
    TriesAtMost (s.cursor.available + 1) (fun _ p => plus fuel adapt p) p s := by
  simp only [plus_eq_repetition]
  exact (tries_repetition hp hconsumes hs (fuel + 1) (.atLeast 1)).mapError adapt

end Tries

end StreamGrammar.Parser
