import StreamGrammar.Proofs.Parser.Greedy
import StreamGrammar.Proofs.Stream.Tiling

/-!
# Progress of a reader

A reader takes the value of an attempt unless the attempt ends where it began. A rule that completes
a value before the place where it was started therefore leads the reader back, and may do so for
ever (`thereAndBack`). Where no value leads back (`Forward`), each value has bytes of its own, the
position does not decrease, and a call runs the rule at most once for each byte that is to be read
(`Call.run_counted`). To count the runs, the rule is made to note them down (`Format.counted`).
-/

namespace StreamGrammar

open Input (Cursor)

variable {σ κ ε α : Type}

/-! ## Recorded attempts -/

namespace Parser

variable {p : Parser σ ε α} {s u : Scanner σ}

/-- A group whose body leaves the input alone adds the outcome of its run to the record. -/
theorem run_rewinding_counted_of_ok (hp : p.Tame) (hs : s.cursor.InRange) {verdict : Verdict ε α}
    (hrun : (rewinding p).run s = .ok verdict u) (record : List (Verdict ε α)) :
    (rewinding p.counted).run (s.recording record) =
      .ok verdict (u.recording (record ++ [verdict])) := by
  obtain ⟨t, hbody, rfl⟩ := rewinding_ok hp hs hrun
  have ht : s.cursor.Within t.cursor := hp.ok (s := s.marked) hs hbody
  have hcounted : p.counted.run (s.recording record).marked =
      .ok verdict (t.recording (record ++ [verdict])) :=
    run_recorded_of_ok (s := s.marked) hbody record
  have hgroup := run_rewinding_of_ok (s := s.recording record) (t := t.recording _) hs ht hcounted
  rw [hgroup]
  split <;> rfl

theorem run_rewinding_counted_of_error (hp : p.Tame) (hs : s.cursor.InRange) {halt : Halt}
    (hrun : (rewinding p).run s = .error halt u) (record : List (Verdict ε α)) :
    (rewinding p.counted).run (s.recording record) = .error halt (u.recording record) := by
  unfold rewinding at hrun ⊢
  rw [run_rewindingUnless] at hrun ⊢
  rcases hbody : p.run s.marked with ⟨verdict, t⟩ | ⟨halt', t⟩ <;> rw [hbody] at hrun
  · -- The body has come to an end, and the way back is not refused.
    have ht : s.cursor.Within t.cursor := hp.ok (s := s.marked) hs hbody
    dsimp only at hrun
    split at hrun
    · cases hrun
    · rw [Scan.rewind_eq ht hs] at hrun
      cases hrun
  · obtain ⟨rfl, rfl⟩ := EStateM.Result.error.inj hrun
    have hcounted : p.counted.run (s.recording record).marked = .error halt' (t.recording record) :=
      run_recorded_of_error (s := s.marked) hbody record
    rw [hcounted]

end Parser

namespace Stream

open Reading (behind drain drain_succ)

/-- The format whose rule notes down how each of its runs ends. -/
def Format.counted (format : Format σ ε α) : Format (σ × List (Verdict ε α)) ε α :=
  ⟨format.rule.counted, format.name, format.limit⟩

@[simp] theorem Format.counted_limit (format : Format σ ε α) :
    format.counted.limit = format.limit := rfl

/-- The reader with a record in its memory. -/
def Reader.recording (r : Reader σ ε) (record : List κ) : Reader (σ × List κ) ε :=
  ⟨r.scanner.recording record, r.failure, r.notices⟩

section Recording

variable (r : Reader σ ε) (record : List κ)

@[simp] theorem Reader.recording_position : (r.recording record).position = r.position := rfl

@[simp] theorem Reader.recording_pending : (r.recording record).pending = r.pending := rfl

@[simp] theorem Reader.recording_parsed (t : Scanner σ) (record' : List κ) :
    (r.recording record).parsed (t.recording record') = (r.parsed t).recording record' := rfl

end Recording

/-- What a call comes to, with a record in the memory of the reader. -/
def recordingEnd (record : List κ) :
    EStateM.Result (Stop ε) (Reader σ ε) (List α) →
      EStateM.Result (Stop ε) (Reader (σ × List κ) ε) (List α)
  | .ok values r => .ok values (r.recording record)
  | .error stop r => .error stop (r.recording record)

/-! ## Spans -/

section Spans

variable {start stop : Nat} {spans more : List Span}

theorem Forward.of_prefix (h : Forward more) (hle : spans <+: more) : Forward spans :=
  fun span hspan => h span (hle.subset hspan)

theorem Covers.le (h : Covers start spans stop) : start ≤ stop := by
  induction spans generalizing start with
  | nil => exact Nat.le_of_eq (Eq.symm h)
  | cons span spans ih => exact Nat.le_trans (h.1 ▸ Nat.le_of_lt h.2.1) (ih h.2.2)

theorem Covers.low_lt (h : Covers start spans stop) : ∀ span ∈ spans, span.low < span.high := by
  induction spans generalizing start with
  | nil => exact nofun
  | cons span spans ih => exact List.forall_mem_cons.mpr ⟨h.2.1, ih h.2.2⟩

/-- Each offset on the way lies in one of the spans, and no other offset does. -/
theorem Covers.countP_eq (h : Covers start spans stop) (offset : Nat) :
    (spans.countP fun span => span.low ≤ offset ∧ offset < span.high) =
      if start ≤ offset ∧ offset < stop then 1 else 0 := by
  induction spans generalizing start with
  | nil =>
    obtain rfl : stop = start := h
    rw [List.countP_nil, if_neg fun hoffset => Nat.not_lt.mpr hoffset.1 hoffset.2]
  | cons span spans ih =>
    obtain ⟨rfl, hlt, hrest⟩ := h
    have hle := hrest.le
    rw [List.countP_cons, ih hrest]
    simp only [decide_eq_true_eq]
    split_ifs <;> omega

end Spans

variable {format : Format σ ε α} {calls : List Call} {input : List UInt8} {values : List α}
  {r r' : Reader σ ε}

theorem Reader.spans_prefix (h : r.notices <:+ r'.notices) : r.spans <+: r'.spans :=
  (List.reverse_prefix.mpr h).filterMap _

theorem Reader.spans_parsed (r : Reader σ ε) (scanner : Scanner σ) :
    (r.parsed scanner).spans =
      r.spans ++ [⟨r.position, scanner.cursor.position, scanner.cursor.release.1⟩] := by
  show (_ :: r.notices).reverse.filterMap Notice.span? = _
  rw [List.reverse_cons, List.filterMap_append]
  rfl

/-! ## One call -/

/-- What is noted down stays noted down. -/
theorem notices_drain (format : Format σ ε α) (fuel : Nat) (earlier : Array α) (r : Reader σ ε) :
    r.notices <:+ (behind (drain format fuel earlier r)).notices := by
  induction fuel generalizing earlier r with
  | zero => exact List.suffix_refl _
  | succ fuel ih =>
    rw [drain_succ]
    split
    · exact List.suffix_refl _
    · rcases (Parser.rewinding format.rule).run r.scanner with
        ⟨value | _ | cause, t⟩ | ⟨halt, t⟩ <;> dsimp only
      · split
        · exact List.suffix_cons _ _
        · exact (List.suffix_cons _ _).trans (ih _ (r.parsed t))
      · split
        · exact List.suffix_cons _ _
        · split <;> exact List.suffix_cons _ _
      · exact List.suffix_cons _ _
      · exact List.suffix_refl _

theorem Call.notices_run (call : Call) (fuel : Nat) (r : Reader σ ε) :
    r.notices <:+ (behind (call.run format fuel r)).notices := by
  rcases call.letIn_or r with ⟨error, hfailure⟩ | ⟨bytes, rfl, hfailure, hended⟩ | hletIn
  · rw [Call.run_of_failure call fuel hfailure]
    exact List.suffix_refl _
  · rw [Call.run_push_of_ended fuel bytes hfailure hended]
    exact List.suffix_refl _
  · rw [hletIn.run_eq fuel]
    have hopened : (call.opened r).notices = r.notices := by cases call <;> rfl
    exact hopened ▸ notices_drain format fuel #[] (call.opened r)

/-- A value that was taken and has not led back has moved on. -/
theorem position_lt_of_forward {t : Scanner σ} (hmoved : t.cursor.position ≠ r.position)
    (hforward : Forward (r.parsed t).spans) : r.position < t.cursor.position := by
  have hspan : (⟨r.position, t.cursor.position, t.cursor.release.1⟩ : Span) ∈
      (r.parsed t).spans := by
    rw [Reader.spans_parsed]
    exact List.mem_append_right _ (List.mem_singleton_self _)
  exact Nat.lt_of_le_of_ne (hforward _ hspan) hmoved.symm

section Tame

variable (htame : format.rule.Tame) (hr : r.scanner.cursor.Reached input)
include htame hr

/-- A value that has moved on leaves less to be read. -/
theorem pending_parsed_lt {value : α} {t : Scanner σ}
    (hrun : (Parser.rewinding format.rule).run r.scanner = .ok (.accepted value) t)
    (hlt : r.position < t.cursor.position) : (r.parsed t).pending < r.pending := by
  have hwithin := within_attempt htame hr.shows.toInRange hrun
  have ht := (hr.of_within hwithin).shows
  obtain ⟨n, hdrops, -⟩ := ht.holds.release t.cursor.position
  have hle : t.cursor.position ≤ r.scanner.cursor.buffer.stop := hwithin.buffer_eq ▸ ht.le_stop
  have hpending : (r.parsed t).pending = r.scanner.cursor.buffer.stop - t.cursor.position := by
    rw [← hwithin.buffer_eq, ← hdrops.stop_eq]
    rfl
  have hpending' : r.pending = r.scanner.cursor.buffer.stop - r.position := rfl
  omega

/-- A drain runs the rule at most once for each byte that is left to be read, unless a value leads
back. -/
theorem drain_counted (fuel : Nat) (earlier : Array α) (record : List (Verdict ε α)) :
    ∃ outcomes : List (Verdict ε α),
      drain format.counted fuel earlier (r.recording record) =
        recordingEnd (record ++ outcomes) (drain format fuel earlier r) ∧
      (Forward (behind (drain format fuel earlier r)).spans → outcomes.length ≤ r.pending) := by
  induction fuel generalizing earlier record r with
  | zero => exact ⟨[], by rw [List.append_nil]; rfl, fun _ => Nat.zero_le _⟩
  | succ fuel ih =>
    rw [drain_succ format, drain_succ format.counted, Reader.recording_pending]
    by_cases hpending : r.pending = 0
    · rw [if_pos hpending, if_pos hpending]
      exact ⟨[], by rw [List.append_nil]; rfl, fun _ => Nat.zero_le _⟩
    have hone : 1 ≤ r.pending := Nat.pos_of_ne_zero hpending
    rw [if_neg hpending, if_neg hpending]
    rcases hrun : (Parser.rewinding format.rule).run r.scanner with ⟨verdict, t⟩ | ⟨halt, t⟩
    · have hcounted : (Parser.rewinding format.counted.rule).run (r.recording record).scanner =
          .ok verdict (t.recording (record ++ [verdict])) :=
        Parser.run_rewinding_counted_of_ok htame hr.shows.toInRange hrun record
      rw [hcounted]
      have hcursor : (t.recording (record ++ [verdict])).cursor = t.cursor := rfl
      cases verdict with
      | accepted value =>
        simp only [hcursor, Reader.recording_position, Reader.recording_parsed]
        by_cases hstuck : t.cursor.position = r.position
        · rw [if_pos hstuck, if_pos hstuck]
          exact ⟨[.accepted value], rfl, fun _ => hone⟩
        · -- The drain goes on behind the value, with less to be read.
          have hscanner := hr.of_within (within_attempt htame hr.shows.toInRange hrun)
          have hparsed : (r.parsed t).scanner.cursor.Reached input := hscanner.release
          obtain ⟨outcomes, hdrain, hlength⟩ :=
            ih hparsed (earlier.push value) (record ++ [.accepted value])
          rw [if_neg hstuck, if_neg hstuck]
          refine ⟨.accepted value :: outcomes, ?_, fun hforward => ?_⟩
          · exact List.append_cons record _ outcomes ▸ hdrain
          · have hnotices := notices_drain format fuel (earlier.push value) (r.parsed t)
            have hfirst := hforward.of_prefix (Reader.spans_prefix hnotices)
            have hless := pending_parsed_lt htame hr hrun (position_lt_of_forward hstuck hfirst)
            exact Nat.lt_of_le_of_lt (hlength hforward) hless
      | undecided =>
        refine ⟨[.undecided], ?_, fun _ => hone⟩
        simp only [hcursor, Reader.recording_position, Format.counted_limit]
        split_ifs <;> rfl
      | rejected error => exact ⟨[.rejected error], rfl, fun _ => hone⟩
    · have hcounted : (Parser.rewinding format.counted.rule).run (r.recording record).scanner =
          .error halt (t.recording record) :=
        Parser.run_rewinding_counted_of_error htame hr.shows.toInRange hrun record
      rw [hcounted]
      exact ⟨[], by rw [List.append_nil]; rfl, fun _ => Nat.zero_le _⟩

/-- Where no value leads back and the rule always comes to an end, a drain is only cut short if it
has no more fuel than there are bytes to be read. -/
theorem drain_ranOut_le {fuel : Nat} {earlier : Array α}
    (htotal : ∀ s, s.cursor.InRange → ∃ verdict t, format.rule.run s = .ok verdict t)
    (hdrain : drain format fuel earlier r = .error .ranOut r') (hforward : Forward r'.spans) :
    fuel ≤ r.pending := by
  induction fuel generalizing earlier r with
  | zero => exact Nat.zero_le _
  | succ fuel ih =>
    rw [drain_succ] at hdrain
    by_cases hpending : r.pending = 0
    · rw [if_pos hpending] at hdrain
      cases hdrain
    rw [if_neg hpending] at hdrain
    have hs := hr.shows.toInRange
    obtain ⟨verdict, t, hrun⟩ : ∃ verdict t,
        (Parser.rewinding format.rule).run r.scanner = .ok verdict t := by
      obtain ⟨verdict, t, hbody⟩ := htotal r.scanner.marked hs
      have ht : r.scanner.cursor.Within t.cursor := htame.ok (s := r.scanner.marked) hs hbody
      exact ⟨verdict, _, Parser.run_rewinding_of_ok hs ht hbody⟩
    rw [hrun] at hdrain
    cases verdict with
    | accepted value =>
      dsimp only at hdrain
      split at hdrain
      · cases hdrain
      · next hmoved =>
        have hparsed : (r.parsed t).scanner.cursor.Reached input :=
          (hr.of_within (within_attempt htame hs hrun)).release
        have hnotices := notices_drain format fuel (earlier.push value) (r.parsed t)
        rw [hdrain] at hnotices
        have hfirst := hforward.of_prefix (Reader.spans_prefix hnotices)
        have hless := pending_parsed_lt htame hr hrun (position_lt_of_forward hmoved hfirst)
        exact Nat.lt_of_le_of_lt (ih hparsed hdrain) hless
    | undecided =>
      dsimp only at hdrain
      split at hdrain
      · cases hdrain
      · split at hdrain <;> cases hdrain
    | rejected error => cases hdrain

/-- A call runs the rule at most once for each byte that it finds. -/
theorem Call.run_counted (call : Call) (fuel : Nat) :
    ∃ outcomes : List (Verdict ε α),
      call.run format.counted fuel (r.recording []) =
        recordingEnd outcomes (call.run format fuel r) ∧
      (Forward (behind (call.run format fuel r)).spans →
        outcomes.length ≤ (call.opened r).pending) := by
  let r' : Reader (σ × List (Verdict ε α)) ε := r.recording []
  rcases call.letIn_or r with ⟨error, hfailure⟩ | ⟨bytes, rfl, hfailure, hended⟩ | hletIn
  · have hfailure' : r'.failure = some error := hfailure
    rw [Call.run_of_failure call fuel hfailure, Call.run_of_failure call fuel hfailure']
    exact ⟨[], rfl, fun _ => Nat.zero_le _⟩
  · have hfailure' : r'.failure = none := hfailure
    rw [Call.run_push_of_ended fuel bytes hfailure hended,
      Call.run_push_of_ended fuel bytes hfailure' hended]
    exact ⟨[], rfl, fun _ => Nat.zero_le _⟩
  · have hletIn' : call.LetIn r' := ⟨hletIn.failure, hletIn.openBefore⟩
    have hopened : call.opened r' = (call.opened r).recording [] := by cases call <;> rfl
    obtain ⟨input', hreached⟩ := hletIn.reached_opened hr
    rw [hletIn.run_eq, hletIn'.run_eq, hopened]
    exact drain_counted htame hreached fuel #[] []

/-- A call with fuel for each byte that it finds comes to an end. -/
theorem Call.comesToEnd (call : Call) {fuel : Nat}
    (htotal : ∀ s, s.cursor.InRange → ∃ verdict t, format.rule.run s = .ok verdict t)
    (hforward : Forward (behind (call.run format fuel r)).spans)
    (hfuel : (call.opened r).pending < fuel) : ComesToEnd (call.run format fuel r) := by
  rcases call.letIn_or r with ⟨error, hfailure⟩ | ⟨bytes, rfl, hfailure, hended⟩ | hletIn
  · rw [Call.run_of_failure call fuel hfailure]
    trivial
  · rw [Call.run_push_of_ended fuel bytes hfailure hended]
    trivial
  · obtain ⟨input', hreached⟩ := hletIn.reached_opened hr
    rw [hletIn.run_eq] at hforward ⊢
    rcases hdrain : drain format fuel #[] (call.opened r) with _ | ⟨_ | _ | _, r'⟩
    · trivial
    · trivial
    · trivial
    · rw [hdrain] at hforward
      have hle := drain_ranOut_le htame hreached htotal hdrain hforward
      exact absurd hfuel (Nat.not_lt.mpr hle)

end Tame

/-- The rounds that take values are the first ones of a drain. -/
theorem Takes.drain_eq (h : Takes format r values r') (fuel : Nat) (earlier : Array α) :
    drain format (values.length + fuel) earlier r =
      drain format fuel (earlier ++ values.toArray) r' := by
  induction h generalizing earlier with
  | nil r => rw [List.length_nil, Nat.zero_add, Array.append_empty]
  | @cons r r' value values scanner hpending hrun hmoved _ ih =>
    rw [List.length_cons, Nat.add_right_comm, drain_succ, if_neg hpending, hrun]
    dsimp only
    rw [if_neg hmoved, ih, List.push_append_toArray]

/-- An attempt that completes a value where it began fails the call, and consumes nothing. -/
theorem Call.LetIn.run_of_stuck {call : Call} (h : call.LetIn r)
    (htakes : Takes format (call.opened r) values r') (hpending : r'.pending ≠ 0)
    (hr' : r'.scanner.cursor.InRange) (htame : format.rule.Tame) {value : α} {t : Scanner σ}
    (hrun : format.rule.run r'.scanner.marked = .ok (.accepted value) t)
    (hstuck : t.cursor.position = r'.position) {fuel : Nat} (hfuel : values.length < fuel) :
    ∃ last, call.run format fuel r = .error (.failed (.noProgress r'.position)) last ∧
      last.scanner.cursor = r'.scanner.cursor := by
  have hwithin : r'.scanner.cursor.Within t.cursor := htame.ok (s := r'.scanner.marked) hr' hrun
  have hgroup := Parser.run_rewinding_of_ok hr' hwithin hrun
  have hfails : Fails format r' (.noProgress r'.position) t := .noProgress hgroup hstuck
  obtain ⟨fuel, rfl⟩ := Nat.exists_eq_add_of_lt hfuel
  refine ⟨Reader.failed { r' with scanner := t } (.noProgress r'.position), ?_,
    hfails.cursor_eq htame hr'⟩
  rw [h.run_eq, Nat.add_assoc, htakes.drain_eq, drain_succ, if_neg hpending, hgroup]
  exact if_pos hstuck

/-! ## Any calls -/

theorem Call.comesToEnd_of_answer {result : EStateM.Result (Stop ε) (Reader σ ε) (List α)}
    (h : Call.answer result ≠ .error .ranOut) : ComesToEnd result := by
  rcases result with _ | ⟨_ | _ | _, _⟩
  · trivial
  · trivial
  · trivial
  · exact (h rfl).elim

theorem Call.notices_runAll (format : Format σ ε α) (later : List Call) (fuel : Nat)
    (r : Reader σ ε) :
    r.notices <:+ (Call.runAll format fuel later r).2.notices := by
  induction later generalizing r with
  | nil => exact List.suffix_refl _
  | cons call later ih => exact (call.notices_run fuel r).trans (ih _)

section Ran

variable (htame : format.rule.Tame)
include htame

/-- A call does not lead back if none of its values does. -/
theorem Reader.Ran.position_le_call (hr : r.Ran format calls input values) (call : Call)
    {fuel : Nat} (hends : ComesToEnd (call.run format fuel r))
    (hforward : Forward (behind (call.run format fuel r)).spans) :
    r.position ≤ (behind (call.run format fuel r)).position := by
  obtain ⟨hreached, htraced⟩ := hr.traced htame
  obtain ⟨new, hadds⟩ := htraced.call hreached htame call hends
  rw [hadds.spans_eq] at hforward
  obtain ⟨middle, hbefore, hnew⟩ := leads_append_iff.mp hadds.traced.leads
  obtain rfl := htraced.leads.stop_unique hbefore
  exact (hnew.covers fun span hspan => hforward span (List.mem_append_right _ hspan)).le

/-- By induction on the calls. -/
theorem Reader.Ran.position_le_runAll (hr : r.Ran format calls input values) {later : List Call}
    {fuel : Nat}
    (hends : ∀ answer ∈ (Call.runAll format fuel later r).1, answer ≠ .error .ranOut)
    (hforward : Forward (Call.runAll format fuel later r).2.spans) :
    r.position ≤ (Call.runAll format fuel later r).2.position := by
  induction later generalizing r calls input values with
  | nil => exact Nat.le_refl _
  | cons call later ih =>
    obtain ⟨hfirst, hlater⟩ := List.forall_mem_cons.mp hends
    have hcall : ComesToEnd (call.run format fuel r) := Call.comesToEnd_of_answer hfirst
    have hnotices := Call.notices_runAll format later fuel
      (behind (call.run format fuel r))
    have hbehind := hforward.of_prefix (Reader.spans_prefix hnotices)
    exact Nat.le_trans (hr.position_le_call htame call hcall hbehind)
      (ih (hr.call call hcall) hlater hforward)

/-- For every rule that leaves the input alone, also if it breaks the contract of parsers, and after
any calls: each value that was completed, whether it was returned or lost, was read from where the
one before it had ended, and its attempt ended elsewhere than it began. An attempt that ends where
it began consumes nothing and fails the call. All values have moved on if and only if none has led
back. Then each byte before the position lies in one of their spans and no other byte does. As long
as no value leads back, the position does not decrease, whatever calls follow, and a call runs the
rule at most once for each byte that is to be read, so that it comes to an end if each run of the
rule does. -/
theorem Reader.advances_unless_led_back (hr : r.Ran format calls input values) :
    Leads 0 r.spans r.position ∧ List.Forall₂ (format.ReadsFrom input) values r.spans ∧
      (Forward r.spans ↔ ∀ span ∈ r.spans, span.low < span.high) ∧
      (Forward r.spans → ∀ offset,
        (r.spans.countP fun span => span.low ≤ offset ∧ offset < span.high) =
          if offset < r.position then 1 else 0) ∧
      (∀ (later : List Call) (fuel : Nat),
        (∀ answer ∈ (Call.runAll format fuel later r).1, answer ≠ .error .ranOut) →
        Forward (Call.runAll format fuel later r).2.spans →
        r.position ≤ (Call.runAll format fuel later r).2.position) ∧
      ∀ (call : Call) (fuel : Nat),
        (∀ (taken : List α) (middle : Reader σ ε) (value : α) (t : Scanner σ), call.LetIn r →
          Takes format (call.opened r) taken middle → middle.pending ≠ 0 → taken.length < fuel →
          format.rule.run middle.scanner.marked = .ok (.accepted value) t →
          t.cursor.position = middle.position →
          ∃ last, call.run format fuel r = .error (.failed (.noProgress middle.position)) last ∧
            last.scanner.cursor = middle.scanner.cursor) ∧
        ∃ outcomes : List (Verdict ε α),
          call.run format.counted fuel (r.recording []) =
            recordingEnd outcomes (call.run format fuel r) ∧
          (Forward (behind (call.run format fuel r)).spans →
            outcomes.length ≤ (call.opened r).pending ∧
            ((∀ s, s.cursor.InRange → ∃ verdict t, format.rule.run s = .ok verdict t) →
              (call.opened r).pending < fuel → ComesToEnd (call.run format fuel r))) := by
  obtain ⟨hreached, htraced⟩ := hr.traced htame
  refine ⟨htraced.leads, htraced.reads, ⟨fun hforward => ?_, fun hlt span hspan => ?_⟩,
    fun hforward offset => ?_, fun later fuel => hr.position_le_runAll htame,
    fun call fuel => ⟨?_, ?_⟩⟩
  · exact (htraced.leads.covers hforward).low_lt
  · exact Nat.le_of_lt (hlt span hspan)
  · rw [(htraced.leads.covers hforward).countP_eq]
    simp only [Nat.zero_le, true_and]
  · intro taken middle value t hletIn htakes hpending hfuel hrun hstuck
    obtain ⟨input', hopened⟩ := hletIn.reached_opened hreached
    obtain ⟨hmiddle, -, -⟩ := htakes.reached htame hopened
    exact hletIn.run_of_stuck htakes hpending hmiddle.shows.toInRange htame hrun hstuck hfuel
  · obtain ⟨outcomes, hrun, hlength⟩ := call.run_counted htame hreached fuel
    exact ⟨outcomes, hrun, fun hforward => ⟨hlength hforward, fun htotal hfuel =>
      call.comesToEnd htame hreached htotal hforward hfuel⟩⟩

end Ran

/-- Pairs of bytes. Where the second byte of a pair is missing, the rule is left behind the first
one, which breaks the contract, and the reader puts it back. -/
theorem Reader.advances_unless_led_back_pairs :
    let byte : Parser Unit Mismatch UInt8 := Parser.byte (fun _ => true) "a byte"
    let format : Format Unit Mismatch (List UInt8) := { rule := Parser.inOrder [byte, byte] }
    let r := behind ((Call.push #[0x61, 0x62, 0x63]).run format 4 (Reader.new ()))
    format.rule.Tame ∧ r.spans = [⟨0, 2, 0⟩] ∧
      (∃ values, r.Ran format [.push #[0x61, 0x62, 0x63]] [0x61, 0x62, 0x63] values) ∧
      (r.spans.countP fun span => span.low ≤ 1 ∧ 1 < span.high) = 1 ∧
      r.position ≤ (Call.runAll format 4 [.push #[0x64], .finish] r).2.position ∧
      ∃ outcomes : List (Verdict Mismatch (List UInt8)),
        Call.finish.run format.counted 4 (r.recording []) =
          recordingEnd outcomes (Call.finish.run format 4 r) ∧ outcomes.length ≤ 1 := by
  intro byte format r
  have hbyte : byte.Tame := (Parser.keeps_byte _ _).mono fun _ _ => (·.toWithin)
  have hparts : ∀ part ∈ [byte, byte], part.Tame :=
    List.forall_mem_cons.mpr ⟨hbyte, List.forall_mem_singleton.mpr hbyte⟩
  have htame : format.rule.Tame :=
    (Parser.compositional_keeps Cursor.isTravel_within).inOrder (List.forall₂_same.mpr hparts)
  have hends : ComesToEnd ((Call.push #[0x61, 0x62, 0x63]).run format 4 (Reader.new ())) := by
    decide +kernel
  have hran : r.Ran format ([] ++ [.push #[0x61, 0x62, 0x63]]) ([] ++ [0x61, 0x62, 0x63]) _ :=
    (Reader.Ran.new ()).call _ hends
  have hlater : Forward (Call.runAll format 4 [.push #[0x64], .finish] r).2.spans := by
    decide +kernel
  obtain ⟨-, -, -, hbytes, hposition, hcall⟩ := Reader.advances_unless_led_back htame hran
  obtain ⟨-, outcomes, hrun, hruns⟩ := hcall .finish 4
  refine ⟨htame, by decide +kernel, ⟨_, hran⟩, (hbytes (by decide +kernel) 1).trans ?_,
    hposition _ 4 (by decide +kernel) hlater, outcomes, hrun, ?_⟩
  · decide +kernel
  · exact Nat.le_trans (hruns (by decide +kernel)).1 (by decide +kernel)

/-! ## A rule that leads back -/

/-- A rule that takes a byte where it stands on the first one that is held, and goes back to there
from everywhere else. -/
def thereAndBack : Parser σ ε Unit := ⟨fun s =>
  if s.cursor.position = s.cursor.buffer.start then
    if s.cursor.available = 0 then .ok .undecided s else (Parser.advance 1).run s
  else (Parser.ofScan (Scan.rewind s.cursor.buffer.start)).run s⟩

theorem run_thereAndBack {s : Scanner σ} (hs : s.cursor.InRange) :
    (thereAndBack : Parser σ ε Unit).run s =
      let first := { s.cursor with position := s.cursor.buffer.start }
      if s.cursor.position = s.cursor.buffer.start then
        if s.cursor.available = 0 then .ok .undecided s
        else .ok (.accepted ())
          { s with cursor := { s.cursor with position := s.cursor.position + 1 } }
      else .ok (.accepted ()) (s.putBack first) := by
  unfold thereAndBack
  dsimp only
  split_ifs with hfirst hnone
  · rfl
  · have hstop : s.cursor.position + 1 ≤ s.cursor.buffer.stop := by
      have hle := hs.le_stop
      unfold Cursor.available at hnone
      omega
    have hadvance : s.cursor.advance 1 = _ := Cursor.advance_eq hstop
    rw [Parser.run_advance, hadvance]
  · have hback : Scan.rewind s.cursor.buffer.start s = .ok () (s.putBack
        { s.cursor with position := s.cursor.buffer.start }) := by
      have hwithin : Cursor.Within { s.cursor with position := s.cursor.buffer.start } s.cursor :=
        ⟨rfl, rfl, hs⟩
      exact Scan.rewind_eq hwithin ⟨Nat.le_refl _, Nat.le_trans hs.start_le hs.le_stop⟩
    show EStateM.bind (Scan.rewind s.cursor.buffer.start) _ s = _
    unfold EStateM.bind
    rw [hback]
    rfl

theorem tame_thereAndBack : (thereAndBack : Parser σ ε Unit).Tame := by
  intro s hs
  rw [run_thereAndBack hs]
  dsimp only
  split_ifs with hfirst hnone
  · exact .refl hs
  · have hle := hs.le_stop
    have hstop : s.cursor.position + 1 ≤ s.cursor.buffer.stop := by
      unfold Cursor.available at hnone
      omega
    exact (Cursor.onward_add hs hstop).toWithin
  · exact ⟨rfl, rfl, Nat.le_refl _, Nat.le_trans hs.start_le hs.le_stop⟩

/-- A cursor on the input "ab", which may go on. -/
def openAt (position : Nat) : Cursor :=
  { buffer := Input.Buffer.append {} #[0x61, 0x62], position }

/-- Each of the first two positions leads to the other one. -/
theorem run_rewinding_thereAndBack {s : Scanner σ} {position : Nat} (hposition : position < 2)
    (hs : s.cursor = openAt position) :
    ∃ t, (Parser.rewinding thereAndBack : Parser σ ε Unit).run s = .ok (.accepted ()) t ∧
      t.cursor = openAt (1 - position) := by
  obtain ⟨c, journal, memory⟩ := s
  obtain rfl : c = openAt position := hs
  match position, hposition with
  | 0, _ => exact ⟨_, rfl, rfl⟩
  | 1, _ => exact ⟨_, rfl, rfl⟩

/-- By induction on the fuel: it is all used up, with a value in each round. -/
theorem drain_thereAndBack (name : String) (limit : Int) (fuel : Nat) (earlier : Array Unit)
    {r : Reader σ ε} {position : Nat} (hposition : position < 2)
    (hr : r.scanner.cursor = openAt position) :
    ∃ r', drain ⟨thereAndBack, name, limit⟩ fuel earlier r = .error .ranOut r' ∧
      r'.spans.length = r.spans.length + fuel := by
  induction fuel generalizing earlier r position with
  | zero => exact ⟨r, rfl, rfl⟩
  | succ fuel ih =>
    obtain ⟨t, hrun, ht⟩ := run_rewinding_thereAndBack (ε := ε) hposition hr
    have hpending : r.pending ≠ 0 := by
      unfold Reader.pending
      rw [hr]
      match position, hposition with
      | 0, _ => decide
      | 1, _ => decide
    have hmoved : t.cursor.position ≠ r.position := by
      unfold Reader.position
      rw [hr, ht]
      show 1 - position ≠ position
      omega
    have hparsed : (r.parsed t).scanner.cursor = openAt (1 - position) := by
      show t.cursor.release.2 = _
      rw [ht]
      match position, hposition with
      | 0, _ => decide +kernel
      | 1, _ => decide +kernel
    obtain ⟨r', hdrain, hlength⟩ := ih (earlier.push ()) (by omega) hparsed
    refine ⟨r', ?_, ?_⟩
    · rw [drain_succ, if_neg hpending, hrun]
      exact (if_neg hmoved).trans hdrain
    · rw [hlength, Reader.spans_parsed, List.length_append, Nat.add_right_comm]
      rfl

/-- A rule may lead a reader back, although it only moves to bytes that are held: the second value
begins behind the first byte and ends before it. It may do so for ever, so that however many values
are read, the call goes on. -/
theorem Reader.led_back :
    let format : Format Unit Mismatch Unit := { rule := thereAndBack }
    let call := Call.push #[0x61, 0x62]
    let after (fuel : Nat) := behind (call.run format fuel (Reader.new ()))
    format.rule.Tame ∧
      (after 1).spans = [⟨0, 1, 0⟩] ∧ (after 1).position = 1 ∧
      (after 2).spans = [⟨0, 1, 0⟩, ⟨1, 0, 0⟩] ∧ (after 2).position = 0 ∧
      ∀ fuel, ¬ ComesToEnd (call.run format fuel (Reader.new ())) ∧
        (after fuel).spans.length = fuel := by
  intro format call after
  refine ⟨tame_thereAndBack, by decide +kernel, by decide +kernel, by decide +kernel,
    by decide +kernel, fun fuel => ?_⟩
  have hletIn : call.LetIn (Reader.new () : Reader Unit Mismatch) := ⟨rfl, fun _ _ => rfl⟩
  have hopened : (call.opened (Reader.new () : Reader Unit Mismatch)).scanner.cursor = openAt 0 :=
    rfl
  obtain ⟨r', hdrain, hlength⟩ :=
    drain_thereAndBack format.name format.limit fuel #[] Nat.zero_lt_two hopened
  have hrun : call.run format fuel (Reader.new ()) = .error .ranOut r' :=
    (hletIn.run_eq fuel).trans hdrain
  dsimp only [after]
  rw [hrun]
  refine ⟨id, hlength.trans ?_⟩
  exact Nat.zero_add fuel

end Stream

end StreamGrammar
