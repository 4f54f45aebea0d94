import StreamGrammar.Proofs.Stream.Spans

/-!
# Values tile the input, and the log tells so

Whatever calls are made on a reader, its values lie one behind the other in the bytes that have
arrived (`Reader.values_tile`). Each call adds the lines of the values that it completes, also if it
fails and does not return them, and at most one line more, which says how it ended (`Call.closing`).
The values that a call completes are counted by the fuel that it has; that these are the ones it
takes is `Call.LetIn.completed_of_takes`.
-/

namespace StreamGrammar.Stream

open Input (Cursor)
open Reading (behind completedBy)

variable {σ ε α : Type}

/-! ## The values of a call -/

namespace Call

/-- What a call does to the input. -/
def act : Call → Scan σ Unit
  | push bytes => Scan.append bytes
  | finish => Scan.finish

/-- The bytes that a call adds to the input of a reader. A chunk is only taken by a reader that is
well and open. -/
def brought (r : Reader σ ε) : Call → List UInt8
  | push bytes => if r.failure.isNone && !r.scanner.cursor.ended then bytes.toList else []
  | finish => []

/-- What a call notes down besides its values: that it waits for more, or that it has failed, unless
it only fails as an earlier one did. -/
def closing (r : Reader σ ε) :
    EStateM.Result (Stop ε) (Reader σ ε) (List α) → List (Notice ε)
  | .ok _ r' => if r'.pending = 0 then [] else [.waiting r'.position r'.pending]
  | .error (.failed error) _ => if r.failure.isNone then [.failed error] else []
  | .error (.fault _) _ | .error .ranOut _ => []

end Call

section Completed

variable {format : Format σ ε α} {values : List α} {r r' : Reader σ ε}

/-- A drain that has no more fuel than there are values is cut short. -/
theorem Takes.drain_ranOut (h : Takes format r values r') {fuel : Nat}
    (hfuel : fuel ≤ values.length) (earlier : Array α) :
    ∃ r'', Reading.drain format fuel earlier r = .error .ranOut r'' := by
  induction h generalizing fuel earlier with
  | nil r =>
    obtain rfl := Nat.le_zero.mp hfuel
    exact ⟨r, rfl⟩
  | @cons r r' value values scanner hpending hrun hmoved _ ih =>
    cases fuel with
    | zero => exact ⟨r, rfl⟩
    | succ fuel =>
      rw [Reading.drain_succ, if_neg hpending, hrun]
      dsimp only
      rw [if_neg hmoved]
      exact ih (Nat.le_of_succ_le_succ hfuel) _

/-- With more fuel, all values are completed. -/
theorem Takes.completed_eq (h : Takes format r values r')
    (hlast : (∃ r'', Pauses format r' r'') ∨ ∃ error scanner, Fails format r' error scanner)
    {fuel : Nat} (hfuel : values.length < fuel) : Reading.completed format fuel r = values := by
  induction h generalizing fuel with
  | nil r =>
    obtain ⟨fuel, rfl⟩ := Nat.exists_eq_add_one_of_ne_zero (Nat.ne_of_gt hfuel)
    rw [Reading.completed]
    split
    · rfl
    · next hpending =>
      -- The last round has run the rule, and has taken no value.
      rcases hlast with ⟨_, hpauses⟩ | ⟨error, scanner, hfails⟩
      · cases hpauses with
        | idle hidle => exact absurd hidle hpending
        | waiting _ hrun _ _ => rw [hrun]
      · cases hfails with
        | incomplete hrun _ => rw [hrun]
        | overLimit hrun _ _ => rw [hrun]
        | parseFailed hrun => rw [hrun]
        | noProgress hrun hstuck =>
          rw [hrun]
          exact if_pos hstuck
  | @cons r r' value values scanner hpending hrun hmoved _ ih =>
    obtain ⟨fuel, rfl⟩ := Nat.exists_eq_add_one_of_ne_zero (Nat.ne_zero_of_lt hfuel)
    rw [Reading.completed, if_neg hpending, hrun]
    dsimp only
    rw [if_neg hmoved, ih hlast (Nat.lt_of_succ_lt_succ hfuel)]

variable {call : Call} {fuel : Nat} {input : List UInt8}

theorem Call.LetIn.reached_brought (h : call.LetIn r) (hr : r.scanner.cursor.Reached input) :
    (call.opened r).scanner.cursor.Reached (input ++ call.brought r) := by
  cases call with
  | push bytes =>
    have hopen := h.openBefore bytes rfl
    have hbrought : (Call.push bytes).brought r = bytes.toList := by
      unfold Call.brought
      rw [h.failure, hopen]
      rfl
    rw [hbrought]
    exact hr.append (Cursor.append_eq_ok_iff.mpr ⟨hopen, rfl⟩)
  | finish =>
    have hbrought : Call.finish.brought r = [] := rfl
    rw [hbrought, List.append_nil]
    exact hr.finish

theorem Call.LetIn.completedBy_eq (h : call.LetIn r) (fuel : Nat) :
    completedBy format fuel call.act r = Reading.completed format fuel (call.opened r) := by
  cases call with
  | push bytes => exact (Reading.push_eq format h.failure (h.openBefore bytes rfl) fuel bytes).2
  | finish => exact (Reading.finish_eq format h.failure fuel).2

/-- The values that a call takes, and no other ones, are those that it completes. -/
theorem Call.LetIn.completed_of_takes (h : call.LetIn r)
    (htakes : Takes format (call.opened r) values r')
    (hlast : (∃ r'', Pauses format r' r'') ∨ ∃ error scanner, Fails format r' error scanner)
    (hends : ComesToEnd (call.run format fuel r)) :
    completedBy format fuel call.act r = values := by
  rw [h.completedBy_eq]
  refine htakes.completed_eq hlast (Nat.lt_of_not_le fun hfuel => ?_)
  obtain ⟨r'', hran⟩ := htakes.drain_ranOut hfuel #[]
  rw [h.run_eq, hran] at hends
  exact hends

/-- A call that is not let in completes nothing and adds nothing to the input. -/
theorem Call.idle_of_failure (call : Call) {error : Error ε} (hfailure : r.failure = some error) :
    completedBy format fuel call.act r = [] ∧ call.brought r = [] := by
  have hkept : r.failure.isSome = true := by rw [hfailure]; rfl
  refine ⟨if_pos hkept, ?_⟩
  cases call with
  | push bytes =>
    unfold Call.brought
    rw [hfailure]
    rfl
  | finish => rfl

theorem Call.idle_push_of_ended {bytes : Array UInt8} (hended : r.scanner.cursor.ended = true) :
    completedBy format fuel (Call.push bytes).act r = [] ∧ (Call.push bytes).brought r = [] := by
  have hrefused : r.scanner.cursor.append bytes = .error .ended := if_pos hended
  constructor
  · unfold completedBy Call.act Scan.append Scan.move
    dsimp only
    rw [hrefused]
    split <;> rfl
  · show (if r.failure.isNone && !r.scanner.cursor.ended then bytes.toList else []) = []
    rw [hended, Bool.not_true, Bool.and_false, if_neg Bool.false_ne_true]

end Completed

/-! ## Any calls -/

/-- The calls that were made on a reader, all bytes that they added to its input, the values that
they completed, whether these were returned or lost, and the reader that they lead to. -/
inductive Reader.Ran (format : Format σ ε α) :
    List Call → List UInt8 → List α → Reader σ ε → Prop
  | new (memory : σ) : Ran format [] [] [] (Reader.new memory)
  | call {calls : List Call} {input : List UInt8} {values : List α} {r : Reader σ ε} (call : Call)
      {fuel : Nat} : Ran format calls input values r → ComesToEnd (call.run format fuel r) →
      Ran format (calls ++ [call]) (input ++ call.brought r)
        (values ++ completedBy format fuel call.act r) (behind (call.run format fuel r))

section Ran

variable {format : Format σ ε α} {calls : List Call} {input : List UInt8} {values : List α}
  {spans : List Span} {r r' : Reader σ ε}

/-- What a call that comes to `result` adds where it completes some values: to the notices, to the
spans of the values, and to the input. -/
structure Call.Adds (format : Format σ ε α) (call : Call) (r : Reader σ ε) (completed : List α)
    (result : EStateM.Result (Stop ε) (Reader σ ε) (List α)) (input : List UInt8) (values : List α)
    (spans new : List Span) : Prop where
  length_eq : new.length = completed.length
  notices_eq : (behind result).notices.reverse =
    r.notices.reverse ++ new.map Span.notice ++ Call.closing r result
  traced : (behind result).Traced format (input ++ call.brought r) (values ++ completed)
    (spans ++ new)
  reached : (behind result).scanner.cursor.Reached (input ++ call.brought r)
  /-- A call that returns has lost no value. -/
  completed_eq : ∀ returned r', result = .ok returned r' → returned = completed

/-- A last round that does not fail notes down what is waited for, if anything is. -/
theorem Pauses.notices_eq (h : Pauses format r r')
    (hcursor : r'.scanner.cursor = r.scanner.cursor) : r'.notices.reverse = r.notices.reverse ++
      if r'.pending = 0 then [] else [.waiting r'.position r'.pending] := by
  cases h with
  | idle hidle => rw [if_pos hidle, List.append_nil]
  | @waiting scanner hpending _ _ _ =>
    have hposition : scanner.cursor.position = r.position := congrArg (·.position) hcursor
    have havailable : scanner.cursor.available = r.pending := congrArg (·.available) hcursor
    show (Notice.waiting r.position scanner.cursor.available :: r.notices).reverse =
      r.notices.reverse ++ if scanner.cursor.available = 0 then []
        else [.waiting scanner.cursor.position scanner.cursor.available]
    rw [havailable, if_neg hpending, List.reverse_cons, hposition]

section Call

variable (h : r.Traced format input values spans) (hr : r.scanner.cursor.Reached input)
include h hr

/-- A call without an effect adds nothing. -/
theorem Reader.Traced.idle (call : Call) {completed : List α} {stop : Stop ε}
    (hidle : completed = [] ∧ call.brought r = [])
    (hclosing : Call.closing r (.error stop r : EStateM.Result _ _ (List α)) = []) :
    call.Adds format r completed (.error stop r) input values spans [] := by
  obtain ⟨rfl, hbrought⟩ := hidle
  refine ⟨rfl, ?_, ?_, ?_, nofun⟩
  · rw [hclosing]
    simp [behind]
  · rw [hbrought, List.append_nil, List.append_nil, List.append_nil]
    exact h
  · rw [hbrought, List.append_nil]
    exact hr

variable (htame : format.rule.Tame)
include htame

/-- The values of a call that is let in come behind those of the calls before. -/
theorem Reader.Traced.takes {call : Call} (hletIn : call.LetIn r) {taken : List α}
    (htakes : Takes format (call.opened r) taken r') :
    ∃ new : List Span, new.length = taken.length ∧
      r'.notices.reverse = r.notices.reverse ++ new.map Span.notice ∧
      r'.Traced format (input ++ call.brought r) (values ++ taken) (spans ++ new) := by
  have hopened : (call.opened r).Traced format (input ++ call.brought r) values spans := by
    refine (h.mono _).of_eq ?_ ?_
    · cases call with
      | push bytes => exact Input.Buffer.append_start _ bytes
      | finish => rfl
    · cases call <;> rfl
  have hnotices : (call.opened r).notices = r.notices := by cases call <;> rfl
  rw [← hnotices]
  exact htakes.traced htame (hletIn.reached_brought hr) hopened

theorem Reader.Traced.call (call : Call) {fuel : Nat}
    (hends : ComesToEnd (call.run format fuel r)) :
    ∃ new, call.Adds format r (completedBy format fuel call.act r) (call.run format fuel r) input
      values spans new := by
  have hdoes := call.does htame hr fuel
  generalize hrun : call.run format fuel r = result at hdoes ⊢
  cases hdoes with
  | @kept error hfailure =>
    refine ⟨[], h.idle hr call (Call.idle_of_failure call hfailure) ?_⟩
    show (if r.failure.isNone then _ else _) = _
    rw [hfailure]
    rfl
  | @refused bytes _ hcall hended =>
    subst hcall
    exact ⟨[], h.idle hr (.push bytes) (Call.idle_push_of_ended hended) rfl⟩
  | @returned taken last r' hletIn htakes hpauses =>
    obtain ⟨new, hlength, hnotices, htraced⟩ := h.takes hr htame hletIn htakes
    obtain ⟨hlast, -, -⟩ := htakes.reached htame (hletIn.reached_brought hr)
    have hcursor := hpauses.cursor_eq htame hlast.shows.toInRange
    have hcompleted := hletIn.completed_of_takes htakes (.inl ⟨r', hpauses⟩) hends
    rw [hcompleted]
    refine ⟨new, hlength, ?_, ?_, ?_, ?_⟩
    · rw [← hnotices]
      exact hpauses.notices_eq hcursor
    · exact htraced.of_eq (congrArg (·.buffer.start) hcursor) (congrArg (·.position) hcursor)
    · exact hcursor ▸ hlast
    · intro returned r'' heq
      exact (EStateM.Result.ok.inj heq).1.symm
  | @failed taken last error scanner hletIn htakes hfails =>
    obtain ⟨new, hlength, hnotices, htraced⟩ := h.takes hr htame hletIn htakes
    obtain ⟨hlast, -, -⟩ := htakes.reached htame (hletIn.reached_brought hr)
    have hcursor := hfails.cursor_eq htame hlast.shows.toInRange
    have hcompleted := hletIn.completed_of_takes htakes (.inr ⟨error, scanner, hfails⟩) hends
    rw [hcompleted]
    refine ⟨new, hlength, ?_, ?_, ?_, nofun⟩
    · have hclosing : (if r.failure.isNone then [Notice.failed error] else []) = [.failed error] :=
        if_pos (Option.isNone_iff_eq_none.mpr hletIn.failure)
      show (Notice.failed error :: last.notices).reverse = _ ++ if r.failure.isNone then _ else _
      rw [← hnotices, hclosing, List.reverse_cons]
    · exact htraced.of_eq (congrArg (·.buffer.start) hcursor) (congrArg (·.position) hcursor)
    · show scanner.cursor.Reached _
      exact hcursor ▸ hlast
  | cutShort r' =>
    rw [hrun] at hends
    exact hends.elim

end Call

/-- New notices about values are new spans. -/
theorem Reader.spans_append {new : List Span} {others : List (Notice ε)}
    (hnotices : r'.notices.reverse = r.notices.reverse ++ new.map Span.notice ++ others)
    (hothers : others.filterMap Notice.span? = []) : r'.spans = r.spans ++ new := by
  have hnew : (new.map Span.notice).filterMap (Notice.span? (ε := ε)) = new := by
    rw [List.filterMap_map]
    exact List.filterMap_some
  unfold Reader.spans
  rw [hnotices, List.filterMap_append, List.filterMap_append, hnew, hothers, List.append_nil]

/-- The spans that a call adds are those of its values. -/
theorem Call.Adds.spans_eq {call : Call} {completed : List α} {new : List Span}
    {result : EStateM.Result (Stop ε) (Reader σ ε) (List α)}
    (h : call.Adds format r completed result input values spans new) :
    (behind result).spans = r.spans ++ new := by
  refine Reader.spans_append h.notices_eq ?_
  unfold Call.closing
  split
  · split <;> rfl
  · split <;> rfl
  · rfl
  · rfl

/-- By induction on the calls: whatever they come to, the values can be traced. -/
theorem Reader.Ran.traced (h : r.Ran format calls input values) (htame : format.rule.Tame) :
    r.scanner.cursor.Reached input ∧ r.Traced format input values r.spans := by
  induction h with
  | new memory => exact ⟨.new, Reader.traced_new memory⟩
  | call call _ hends ih =>
    obtain ⟨hreached, htraced⟩ := ih
    obtain ⟨new, hadds⟩ := htraced.call hreached htame call hends
    rw [hadds.spans_eq]
    exact ⟨hadds.reached, hadds.traced⟩

/-- A rule that yields what another parser matched, perhaps as a value of another type. -/
def Captures (rule : Parser σ ε α) (f : String → α) : Prop :=
  ∃ (β : Type) (p : Parser σ ε β), rule = (Parser.captured p).map f

/-- What such a rule reads is the text in the span. -/
theorem Format.ReadsFrom.captured {f : String → α} {value : α} {span : Span}
    (h : format.ReadsFrom input value span) (hkeeps : format.rule.Keeps Cursor.Onward)
    (hcaptures : Captures format.rule f) :
    value = f (Text.latin ((input.take span.high).drop span.low)) := by
  obtain ⟨before, s, t, ⟨more, rfl⟩, hshows, hlow, hrun, hhigh⟩ := h
  obtain ⟨β, p, hrule⟩ := hcaptures
  have honward := hkeeps.ok hshows.toInRange hrun
  have hslice := hshows.slice_onward honward
  rw [hrule, Parser.run_map] at hrun
  rcases hbody : (Parser.captured p).run s with ⟨verdict, u⟩ | _ <;> rw [hbody] at hrun
  · obtain ⟨hverdict, rfl⟩ := EStateM.Result.ok.inj hrun
    rcases Parser.captured_ok hbody with ⟨_, bytes, -, rfl, hbytes⟩ | ⟨-, rfl⟩ | ⟨_, -, rfl⟩
    · have hhigh' : span.high ≤ before.length := by
        rw [← hhigh, ← hshows.holds.stop_eq, ← honward.buffer_eq]
        exact honward.inRange.le_stop
      have htext : bytes = ((before ++ more).take span.high).drop span.low := by
        rw [List.take_append_of_le_length hhigh', List.drop_take, ← hlow, ← hhigh]
        exact Except.ok.inj (hbytes.symm.trans hslice)
      rw [← htext]
      exact (Verdict.accepted.inj hverdict).symm
    · cases hverdict
    · cases hverdict
  · cases hrun

end Ran

end StreamGrammar.Stream
