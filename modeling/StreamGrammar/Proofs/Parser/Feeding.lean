import StreamGrammar.Proofs.Parser.Recorded

/-!
# What a judge is told

A repetition is observed by a record of its events: each run of the element, and each question to
the judge (`Event`). `Feeds` says which records there are. After each element that settles the judge
is asked about its outcome, once, and about nothing else. An element that leaves open is the last
event, and so is an answer of the judge that is not open.

A repetition of at least one element has the same events as one of any number, and does the same,
unless its first element rejects (`Parser.repeating_feeds`). It takes one element less of fuel,
since the first one is not counted.
-/

namespace StreamGrammar

open Input (Cursor)

variable {σ τ κ ε φ α β : Type}

/-- What can be told of a repetition. -/
inductive Event (ε α φ β : Type) where
  /-- The element ran to this verdict, and left the cursor there. -/
  | ran (verdict : Verdict ε α) (stop : Cursor)
  /-- The judge was asked about an element, and answered. -/
  | asked (item : Except ε α) (answer : Verdict φ β)

namespace Event

/-- The events of a repetition, its verdict, and the cursor behind its last element. -/
inductive Feeds : List (Event ε α φ β) → Verdict φ β → Cursor → Prop
  | waits (stop : Cursor) : Feeds [ran .undecided stop] .undecided stop
  | ends {verdict : Verdict ε α} {item : Except ε α} (hitem : verdict.settled? = some item)
      {answer : Verdict φ β} (hanswer : answer.isUndecided = false) (stop : Cursor) :
      Feeds [ran verdict stop, asked item answer] answer stop
  | goesOn {verdict : Verdict ε α} {item : Except ε α} (hitem : verdict.settled? = some item)
      (stop : Cursor) {events : List (Event ε α φ β)} {answer : Verdict φ β} {last : Cursor} :
      Feeds events answer last →
        Feeds (ran verdict stop :: asked item .undecided :: events) answer last

end Event

/-- The judge, observed. -/
abbrev Judge.observed (judge : Judge σ τ ε α φ β) : Judge (σ × List (Event ε α φ β)) τ ε α φ β :=
  judge.recorded Event.asked

namespace Parser

variable {p : Parser σ ε α} {judge : Judge σ τ ε α φ β} {adapt : ε → φ}

/-- The element, observed. -/
abbrev observed (p : Parser σ ε α) : Parser (σ × List (Event ε α φ β)) ε α := p.recorded Event.ran

/-! ## Observing changes nothing -/

section Tracks

variable {p' : Parser (σ × List κ) ε α} (hp : Tracks p' p) (note : Except ε α → Verdict φ β → κ)
include hp

omit hp in
theorem Tracks.judged {next : τ → Parser σ φ β} {next' : τ → Parser (σ × List κ) φ β}
    (hnext : ∀ gathered, Tracks (next' gathered) (next gathered)) (gathered : τ)
    (item : Except ε α) :
    Tracks (judged (judge.recorded note) next' gathered item)
      (Parser.judged judge next gathered item) := by
  unfold Parser.judged
  rw [andThen_eq_settle, andThen_eq_settle]
  refine (tracks_judge note judge gathered item).settle fun answered => ?_
  cases answered with
  | error error => exact fun _ => rfl
  | ok judgement =>
    rcases judgement with ⟨value | _ | error, gathered'⟩
    · exact fun _ => rfl
    · exact hnext gathered'
    · exact fun _ => rfl

theorem Tracks.iterate (fuel : Nat) (gathered : τ) :
    Tracks (⟨iterate p' (judge.recorded note) fuel gathered⟩ : Parser _ φ β)
      ⟨Parser.iterate p judge fuel gathered⟩ := by
  induction fuel generalizing gathered with
  | zero => exact fun _ => rfl
  | succ fuel ih =>
    rw [iterate_succ_eq_settle, iterate_succ_eq_settle]
    exact hp.settle (Tracks.judged note ih gathered)

theorem Tracks.repeating (fuel : Nat) (gathered : τ) :
    Tracks (repeating fuel gathered (judge.recorded note) p')
      (Parser.repeating fuel gathered judge p) := (hp.iterate note fuel gathered).rewinding

theorem Tracks.repeatingSome (fuel : Nat) (gathered : τ) :
    Tracks (repeatingSome fuel gathered (judge.recorded note) adapt p')
      (Parser.repeatingSome fuel gathered judge adapt p) := by
  rw [repeatingSome_eq_rewinding, repeatingSome_eq_rewinding]
  refine (hp.settle fun item => ?_).rewinding
  cases item with
  | error error => exact fun _ => rfl
  | ok value => exact Tracks.judged note (hp.iterate note fuel) gathered (.ok value)

end Tracks

/-! ## The events of a repetition -/

/-- By induction on the fuel: one element and one question come before the rest. -/
theorem iterate_feeds {fuel : Nat} {gathered : τ} {s u : Scanner (σ × List (Event ε α φ β))}
    {answer : Verdict φ β}
    (hrun : iterate p.observed judge.observed fuel gathered s = .ok answer u) :
    ∃ events, u.memory.2 = s.memory.2 ++ events ∧ Event.Feeds events answer u.cursor := by
  induction fuel generalizing gathered s with
  | zero => cases hrun
  | succ fuel ih =>
    rw [iterate_succ] at hrun
    rcases hbody : p.observed.run s with ⟨verdict, t'⟩ | _ <;> rw [hbody] at hrun
    · obtain ⟨t, -, rfl⟩ := recorded_ok hbody
      dsimp only at hrun
      cases hitem : verdict.settled? with
      | none =>
        rw [hitem] at hrun
        obtain ⟨rfl, rfl⟩ := EStateM.Result.ok.inj hrun
        have hopen : verdict.isUndecided = true := (Verdict.settled?_eq_none_iff _).mp hitem
        obtain rfl := (Verdict.isUndecided_iff verdict).mp hopen
        exact ⟨_, rfl, .waits t.cursor⟩
      | some item =>
        rcases hjudge : judge gathered item t.memory with ⟨⟨answered, gathered'⟩, memory⟩
        simp only [hitem, Judge.recorded, Scanner.recording, hjudge] at hrun
        cases hopen : answered.isUndecided with
        | true =>
          rw [hopen, if_pos rfl] at hrun
          obtain ⟨events, hmemory, hfeeds⟩ := ih hrun
          refine ⟨_, ?_, .goesOn hitem t.cursor hfeeds⟩
          simp only [hmemory, (Verdict.isUndecided_iff _).mp hopen, List.append_assoc,
            List.cons_append, List.nil_append]
        | false =>
          rw [hopen, if_neg Bool.false_ne_true] at hrun
          obtain ⟨rfl, rfl⟩ := EStateM.Result.ok.inj hrun
          exact ⟨_, List.append_assoc _ _ _, .ends hitem hopen t.cursor⟩
    · cases hrun

/-- A repetition of at least one element does not differ where the first element does not reject. -/
theorem run_repeatingSome_of_not_rejected (gathered : τ) (fuel : Nat) {s : Scanner σ}
    (hfirst : ∀ error t, p.run s.marked ≠ .ok (.rejected error) t) :
    (repeatingSome fuel gathered judge adapt p).run s =
      (repeating (fuel + 1) gathered judge p).run s := by
  have hbody : (iterateSome p judge adapt fuel gathered).run s.marked =
      (⟨iterate p judge (fuel + 1) gathered⟩ : Parser σ φ β).run s.marked := by
    rw [iterate_succ_eq_settle, iterateSome, run_settle, run_settle]
    rcases hrun : p.run s.marked with ⟨value | _ | error, t⟩ | _
    · rfl
    · rfl
    · exact absurd hrun (hfirst error t)
    · rfl
  rw [repeatingSome_eq_rewinding]
  unfold repeating rewinding
  rw [run_rewindingUnless, run_rewindingUnless, hbody]

/-- Where the first element rejects, its reason is adapted, and the cursor is put back. -/
theorem run_repeatingSome_of_rejected (hp : p.Tame) (gathered : τ) (fuel : Nat)
    {s t : Scanner σ} (hs : s.cursor.InRange) {error : ε}
    (hfirst : p.run s.marked = .ok (.rejected error) t) :
    (repeatingSome fuel gathered judge adapt p).run s =
      .ok (.rejected (adapt error)) (t.putBack s.cursor) := by
  have hbody : (iterateSome p judge adapt fuel gathered).run s.marked =
      .ok (.rejected (adapt error)) t := by
    rw [iterateSome, run_settle, hfirst]
    rfl
  rw [repeatingSome_eq_rewinding]
  exact run_rewinding_of_ok hs (hp.ok (s := s.marked) hs hfirst) hbody

/-- The end of a repetition, by its events. -/
theorem repeating_ends (hp : p.Tame) (judge : Judge σ τ ε α φ β) {fuel : Nat} {gathered : τ}
    {s : Scanner σ} (hs : s.cursor.InRange) {answer : Verdict φ β}
    {u : Scanner (σ × List (Event ε α φ β))}
    (hrun : (repeating fuel gathered judge.observed p.observed).run (s.recording []) =
      .ok answer u) :
    ∃ last, Event.Feeds u.memory.2 answer last ∧
      u.cursor = if answer.isAccepted then last else s.cursor := by
  have htame : (⟨iterate p.observed judge.observed fuel gathered⟩ : Parser _ φ β).Tame :=
    (compositional_keeps Cursor.isTravel_within).iterate (q := p.observed)
      (fun _ _ => keeps_remember Cursor.isTravel_within _) hp.recorded (Nat.le_refl fuel) gathered
  obtain ⟨t, hbody, rfl⟩ := rewinding_ok htame hs hrun
  obtain ⟨events, hmemory, hfeeds⟩ := iterate_feeds hbody
  have hrecord : t.memory.2 = events := hmemory
  refine ⟨t.cursor, ?_⟩
  split
  · exact ⟨hrecord ▸ hfeeds, rfl⟩
  · exact ⟨hrecord ▸ hfeeds, rfl⟩

/-- A repetition tells its judge the outcome of each element, in order and once, and ends with an
element that leaves open or with an answer that does not. With at least one element it does the same
and has the same record, unless the first one rejects. -/
theorem repeating_feeds (hp : p.Tame) (judge : Judge σ τ ε α φ β) (adapt : ε → φ) (gathered : τ)
    {s : Scanner σ} (hs : s.cursor.InRange) (fuel : Nat) :
    -- To observe a repetition changes nothing.
    (∀ record,
      erasedEnd ((repeating fuel gathered judge.observed p.observed).run (s.recording record)) =
          (repeating fuel gathered judge p).run s ∧
        erasedEnd ((repeatingSome fuel gathered judge.observed adapt p.observed).run
          (s.recording record)) = (repeatingSome fuel gathered judge adapt p).run s) ∧
    (∀ answer u,
      (repeating fuel gathered judge.observed p.observed).run (s.recording []) = .ok answer u →
        ∃ last, Event.Feeds u.memory.2 answer last ∧
          u.cursor = if answer.isAccepted then last else s.cursor) ∧
    ((∀ error t, p.run s.marked ≠ .ok (.rejected error) t) → ∀ record,
      (repeatingSome fuel gathered judge.observed adapt p.observed).run (s.recording record) =
        (repeating (fuel + 1) gathered judge.observed p.observed).run (s.recording record)) ∧
    ∀ error t, p.run s.marked = .ok (.rejected error) t →
      (repeatingSome fuel gathered judge.observed adapt p.observed).run (s.recording []) =
        .ok (.rejected (adapt error))
          ((t.putBack s.cursor).recording [.ran (.rejected error) t.cursor]) := by
  have htracks : Tracks (p.observed (φ := φ) (β := β)) p := tracks_recorded _ p
  refine ⟨fun record => ⟨?_, ?_⟩, fun _ _ => repeating_ends hp judge hs, ?_, ?_⟩
  · exact htracks.repeating Event.asked fuel gathered _
  · exact htracks.repeatingSome Event.asked fuel gathered _
  · intro hfirst record
    refine run_repeatingSome_of_not_rejected gathered fuel fun error t' hrun => ?_
    obtain ⟨t, hbody, -⟩ := recorded_ok hrun
    exact hfirst error t hbody
  · intro error t hfirst
    have hobserved : p.observed.run (s.recording []).marked =
        .ok (.rejected error)
          (t.recording [Event.ran (φ := φ) (β := β) (.rejected error) t.cursor]) :=
      run_recorded_of_ok hfirst []
    exact run_repeatingSome_of_rejected hp.recorded gathered fuel hs hobserved

/-- At least one letter a, on the input "b": the letter is tried once and no value is judged. -/
theorem repeating_feeds_mismatch :
    let s : Scanner Unit := { cursor := .ofBytes #[0x62], memory := () }
    let p : Parser Unit Mismatch UInt8 := byte (· == 0x61) "a"
    let judge : Judge Unit (Array UInt8) Mismatch UInt8 String (List UInt8) := Judge.pure collect
    (repeatingSome 5 #[] judge.observed (·.expected) p.observed).run (s.recording []) =
      .ok (.rejected "a") ((s.marked.putBack s.cursor).recording
        [.ran (.rejected ⟨"a", 0⟩) s.cursor]) := by
  intro s p judge
  have hshows : s.marked.cursor.Shows [0x62] := (Cursor.reached_ofBytes #[0x62]).shows
  have hbyte : p.run s.marked = .ok (.rejected ⟨"a", 0⟩) s.marked :=
    run_byte_of_shows hshows rfl _ "a"
  have hp : p.Tame := (obeys_byte _ "a").tame
  have hs : s.cursor.InRange := hshows.toInRange
  exact (repeating_feeds hp judge (·.expected) #[] hs 5).2.2.2 _ _ hbyte

end Parser

end StreamGrammar
