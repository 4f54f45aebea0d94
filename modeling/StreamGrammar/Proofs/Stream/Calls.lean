import StreamGrammar.Proofs.Parser.Contract
import StreamGrammar.Proofs.Stream.Drain

/-!
# Any calls on a reader

A reader may be called in any order, also after a call that has stopped (`Reader.Reached`). A call
that is let in adds to the input and drains it, and a drain has two parts: the rounds that each take
a value (`Takes`), and a last round that pauses or fails (`Pauses`, `Fails`). `drain_cases` says
that this is all a drain can do. What any calls lead to is derived from it (`Reached.consistent`).

The rule may be any that leaves the input alone. It may break the contract of parsers, and it may
remember things from run to run.
-/

namespace StreamGrammar.Stream

open Input (Cursor)
open StreamGrammar.Parser (Tame)

variable {σ ε α : Type}

/-- A call on a reader. -/
inductive Call where
  /-- A chunk is added to the input. -/
  | push (bytes : Array UInt8)
  /-- The input is ended. -/
  | finish

namespace Call

/-- What a call does. -/
def run (format : Format σ ε α) (fuel : Nat) : Call → Reading σ ε (List α)
  | push bytes => Reading.push format fuel bytes
  | finish => Reading.finish format fuel

/-- The reader after a call has added to its input, and before it is drained. -/
def opened (r : Reader σ ε) : Call → Reader σ ε
  | push bytes => r.appended bytes
  | finish => r.finished

/-- What the caller gets of a call: its values, or why there are none. -/
def answer : EStateM.Result (Stop ε) (Reader σ ε) (List α) → Except (Stop ε) (List α)
  | .ok values _ => .ok values
  | .error stop _ => .error stop

/-- Makes calls one after the other, whether they return or stop. -/
def runAll (format : Format σ ε α) (fuel : Nat) :
    List Call → Reader σ ε → List (Except (Stop ε) (List α)) × Reader σ ε
  | [], r => ([], r)
  | call :: calls, r =>
    let result := call.run format fuel r
    let rest := runAll format fuel calls (Reading.behind result)
    (answer result :: rest.1, rest.2)

end Call

/-- A call comes to an end: it returns or stops, and is not cut short. -/
def ComesToEnd : EStateM.Result (Stop ε) (Reader σ ε) (List α) → Prop
  | .error .ranOut _ => False
  | _ => True

instance ComesToEnd.decidable (result : EStateM.Result (Stop ε) (Reader σ ε) (List α)) :
    Decidable (ComesToEnd result) :=
  match result with
  | .ok .. | .error (.failed _) _ | .error (.fault _) _ => isTrue trivial
  | .error .ranOut _ => isFalse id

/-- The readers that calls lead to, whether these return or stop. -/
inductive Reader.Reached (format : Format σ ε α) : List Call → Reader σ ε → Prop
  | new (memory : σ) : Reached format [] (Reader.new memory)
  | call {calls : List Call} {r : Reader σ ε} (call : Call) {fuel : Nat} : Reached format calls r →
      ComesToEnd (call.run format fuel r) →
      Reached format (calls ++ [call]) (Reading.behind (call.run format fuel r))

/-! ## The rounds of a drain -/

section Rounds

variable (format : Format σ ε α)

/-- Rounds that each take a value, from one reader to another. -/
inductive Takes : Reader σ ε → List α → Reader σ ε → Prop
  | nil (r : Reader σ ε) : Takes r [] r
  | cons {r r' : Reader σ ε} {value : α} {values : List α} {scanner : Scanner σ} :
      r.pending ≠ 0 →
      (Parser.rewinding format.rule).run r.scanner = .ok (.accepted value) scanner →
      scanner.cursor.position ≠ r.position → Takes (r.parsed scanner) values r' →
      Takes r (value :: values) r'

/-- A last round that does not fail, and the reader behind it. -/
inductive Pauses (r : Reader σ ε) : Reader σ ε → Prop
  | idle : r.pending = 0 → Pauses r r
  | waiting {scanner : Scanner σ} : r.pending ≠ 0 →
      (Parser.rewinding format.rule).run r.scanner = .ok .undecided scanner →
      scanner.cursor.ended = false → scanner.cursor.available ≤ format.limit →
      Pauses r (Reader.noted { r with scanner } (.waiting r.position scanner.cursor.available))

/-- A last round that fails, with the failure and the scanner behind it. -/
inductive Fails (r : Reader σ ε) : Error ε → Scanner σ → Prop
  | incomplete {scanner : Scanner σ} :
      (Parser.rewinding format.rule).run r.scanner = .ok .undecided scanner →
      scanner.cursor.ended = true →
      Fails r (.incomplete r.position scanner.cursor.available) scanner
  | overLimit {scanner : Scanner σ} :
      (Parser.rewinding format.rule).run r.scanner = .ok .undecided scanner →
      scanner.cursor.ended = false → format.limit < scanner.cursor.available →
      Fails r (.overLimit r.position format.limit) scanner
  | parseFailed {cause : ε} {scanner : Scanner σ} :
      (Parser.rewinding format.rule).run r.scanner = .ok (.rejected cause) scanner →
      Fails r (.parseFailed r.position cause) scanner
  | noProgress {value : α} {scanner : Scanner σ} :
      (Parser.rewinding format.rule).run r.scanner = .ok (.accepted value) scanner →
      scanner.cursor.position = r.position → Fails r (.noProgress r.position) scanner

variable {format} {r r' : Reader σ ε} {values : List α} {input : List UInt8}
  (htame : format.rule.Tame)

section Tame

include htame

/-- An attempt leaves the input alone. -/
theorem within_attempt (hr : r.scanner.cursor.InRange) {verdict : Verdict ε α} {scanner : Scanner σ}
    (hrun : (Parser.rewinding format.rule).run r.scanner = .ok verdict scanner) :
    r.scanner.cursor.Within scanner.cursor :=
  (Parser.keeps_rewindingUnless Cursor.isTravel_within _ htame).ok hr hrun

namespace Takes

theorem reached (h : Takes format r values r') (hr : r.scanner.cursor.Reached input) :
    r'.scanner.cursor.Reached input ∧ r'.failure = r.failure ∧
      r'.scanner.cursor.ended = r.scanner.cursor.ended := by
  induction h with
  | nil r => exact ⟨hr, rfl, rfl⟩
  | cons _ hrun _ _ ih =>
    have hwithin := within_attempt htame hr.shows.toInRange hrun
    obtain ⟨hreached, hfailure, hended⟩ := ih (hr.of_within hwithin).release
    exact ⟨hreached, hfailure, hended.trans hwithin.ended_eq⟩

end Takes

/-- A drain takes values, and then pauses, fails, or is cut short. -/
theorem drain_cases (hr : r.scanner.cursor.Reached input) (fuel : Nat) (earlier : Array α) :
    (∃ r', Reading.drain format fuel earlier r = .error .ranOut r') ∨
    ∃ values last, Takes format r values last ∧
      ((∃ r', Pauses format last r' ∧
          Reading.drain format fuel earlier r = .ok (earlier.toList ++ values) r') ∨
        ∃ error scanner, Fails format last error scanner ∧
          Reading.drain format fuel earlier r =
            .error (.failed error) (Reader.failed { last with scanner } error)) := by
  induction fuel generalizing earlier r with
  | zero => exact .inl ⟨r, rfl⟩
  | succ fuel ih =>
    rw [Reading.drain_succ]
    by_cases hpending : r.pending = 0
    · rw [if_pos hpending]
      exact .inr ⟨[], r, .nil r, .inl ⟨r, .idle hpending, by rw [List.append_nil]⟩⟩
    rw [if_neg hpending]
    rcases hrun : (Parser.rewinding format.rule).run r.scanner with
      ⟨value | _ | cause, t⟩ | ⟨halt, t⟩ <;> dsimp only
    · by_cases hstuck : t.cursor.position = r.position
      · rw [if_pos hstuck]
        exact .inr ⟨[], r, .nil r, .inr ⟨_, t, .noProgress hrun hstuck, rfl⟩⟩
      · -- The value is taken, and the rounds go on behind it.
        rw [if_neg hstuck]
        have hwithin := within_attempt htame hr.shows.toInRange hrun
        have hparsed : (r.parsed t).scanner.cursor.Reached input := (hr.of_within hwithin).release
        rcases ih hparsed (earlier.push value) with hran | ⟨values, last, htakes, hlast⟩
        · exact .inl hran
        · rw [Array.toList_push, List.append_assoc, List.singleton_append] at hlast
          exact .inr ⟨value :: values, last, .cons hpending hrun hstuck htakes, hlast⟩
    · refine .inr ⟨[], r, .nil r, ?_⟩
      by_cases hended : t.cursor.ended = true
      · rw [if_pos hended]
        exact .inr ⟨_, t, .incomplete hrun hended, rfl⟩
      · have hopen := Bool.eq_false_iff.mpr hended
        rw [if_neg hended]
        by_cases hlimit : format.limit < t.cursor.available
        · rw [if_pos hlimit]
          exact .inr ⟨_, t, .overLimit hrun hopen hlimit, rfl⟩
        · rw [if_neg hlimit, List.append_nil]
          exact .inl ⟨_, .waiting hpending hrun hopen (Int.not_lt.mp hlimit), rfl⟩
    · exact .inr ⟨[], r, .nil r, .inr ⟨_, t, .parseFailed hrun, rfl⟩⟩
    · -- The input does not refuse what such a rule does, so the rule was cut short.
      have hends := Parser.keeps_rewindingUnless Cursor.isTravel_within Verdict.isAccepted htame
      obtain rfl := hends.error hr.shows.toInRange hrun
      exact .inl ⟨_, rfl⟩

/-- A round that fails puts the reader back to where it started, wherever the rule went. -/
theorem Fails.position_eq {error : Error ε} {scanner : Scanner σ} (h : Fails format r error scanner)
    (hr : r.scanner.cursor.InRange) :
    error.position = r.position ∧ scanner.cursor.position = r.position ∧
      r.scanner.cursor.Within scanner.cursor := by
  have hback {verdict : Verdict ε α}
      (hrun : (Parser.rewinding format.rule).run r.scanner = .ok verdict scanner)
      (hrejected : verdict.isAccepted = false) : scanner.cursor.position = r.position :=
    congrArg Cursor.position (htame.rewinds _ _ _ _ hr hrun hrejected)
  cases h with
  | incomplete hrun _ => exact ⟨rfl, hback hrun rfl, within_attempt htame hr hrun⟩
  | overLimit hrun _ _ => exact ⟨rfl, hback hrun rfl, within_attempt htame hr hrun⟩
  | parseFailed hrun => exact ⟨rfl, hback hrun rfl, within_attempt htame hr hrun⟩
  | noProgress hrun hstuck => exact ⟨rfl, hstuck, within_attempt htame hr hrun⟩

/-- A round that takes no value leaves the cursor as it was. -/
theorem Fails.cursor_eq {error : Error ε} {scanner : Scanner σ} (h : Fails format r error scanner)
    (hr : r.scanner.cursor.InRange) : scanner.cursor = r.scanner.cursor := by
  obtain ⟨-, hposition, hbuffer, hended, -⟩ := h.position_eq htame hr
  generalize scanner.cursor = c at *
  obtain ⟨buffer, position, ended⟩ := c
  dsimp only at hposition hbuffer hended
  rw [hposition, hbuffer, hended]
  rfl

theorem Pauses.cursor_eq (h : Pauses format r r') (hr : r.scanner.cursor.InRange) :
    r'.scanner.cursor = r.scanner.cursor := by
  cases h with
  | idle _ => rfl
  | waiting _ hrun _ _ => exact htame.rewinds _ _ _ _ hr hrun rfl

/-- A round that pauses changes nothing about the input, and on an input that has ended nothing is
left. -/
theorem Pauses.consistent (h : Pauses format r r') (hr : r.scanner.cursor.Reached input) :
    r'.scanner.cursor.Reached input ∧ r'.failure = r.failure ∧
      r'.scanner.cursor.ended = r.scanner.cursor.ended ∧
      (r.scanner.cursor.ended = true → r'.pending = 0) := by
  cases h with
  | idle hpending => exact ⟨hr, rfl, rfl, fun _ => hpending⟩
  | waiting _ hrun hopen _ =>
    have hwithin := within_attempt htame hr.shows.toInRange hrun
    refine ⟨hr.of_within hwithin, rfl, hwithin.ended_eq, fun hended => ?_⟩
    rw [← hwithin.ended_eq, hopen] at hended
    cases hended

end Tame

end Rounds

/-! ## Single calls -/

section Call

variable {format : Format σ ε α} {call : Call} {r : Reader σ ε} {input : List UInt8}

/-- A call is let in by a reader that has not failed, and a chunk only before the input has
ended. -/
structure Call.LetIn (call : Call) (r : Reader σ ε) : Prop where
  failure : r.failure = none
  openBefore : ∀ bytes, call = .push bytes → r.scanner.cursor.ended = false

theorem Call.LetIn.failure_opened (h : call.LetIn r) : (call.opened r).failure = none := by
  cases call <;> exact h.failure

theorem Call.LetIn.reached_opened (h : call.LetIn r) (hr : r.scanner.cursor.Reached input) :
    ∃ input', (call.opened r).scanner.cursor.Reached input' := by
  cases call with
  | push bytes => exact ⟨_, hr.append (Cursor.append_eq_ok_iff.mpr ⟨h.openBefore bytes rfl, rfl⟩)⟩
  | finish => exact ⟨_, hr.finish⟩

/-- Such a call drains the reader. -/
theorem Call.LetIn.run_eq (h : call.LetIn r) (fuel : Nat) :
    call.run format fuel r = Reading.drain format fuel #[] (call.opened r) := by
  cases call with
  | push bytes =>
    exact (Reading.push_eq format h.failure (h.openBefore bytes rfl) fuel bytes).1
  | finish => exact (Reading.finish_eq format h.failure fuel).1

/-- A call on a reader that has failed fails again, and does nothing else. -/
theorem Call.run_of_failure (call : Call) (fuel : Nat) {error : Error ε}
    (hfailure : r.failure = some error) :
    call.run format fuel r = .error (.failed error) r := by
  have hcheck : (Reading.checkFailure : Reading σ ε Unit) r = .error (.failed error) r := by
    rw [Reading.checkFailure_eq, hfailure]
  cases call <;> exact Reading.bind_of_error hcheck

/-- A chunk that comes after the end of the input is refused, and has no effect. -/
theorem Call.run_push_of_ended (fuel : Nat) (bytes : Array UInt8) (hfailure : r.failure = none)
    (hended : r.scanner.cursor.ended = true) :
    (Call.push bytes).run format fuel r = .error (.fault .ended) r := by
  have hcheck : (Reading.checkFailure : Reading σ ε Unit) r = .ok () r := by
    rw [Reading.checkFailure_eq, hfailure]
  have hrefused : r.scanner.cursor.append bytes = .error .ended := if_pos hended
  have happend : Scan.append bytes r.scanner = .error (.fault .ended) r.scanner := by
    unfold Scan.append Scan.move
    dsimp only
    rw [hrefused]
    rfl
  exact (Reading.bind_of_ok hcheck).trans (Reading.bind_of_error (Reading.scan_of_error happend))

/-- All that a call can come to. -/
inductive Call.Does (format : Format σ ε α) (call : Call) (r : Reader σ ε) :
    EStateM.Result (Stop ε) (Reader σ ε) (List α) → Prop
  | kept {error : Error ε} : r.failure = some error → Does format call r (.error (.failed error) r)
  | refused {bytes : Array UInt8} : r.failure = none → call = .push bytes →
      r.scanner.cursor.ended = true → Does format call r (.error (.fault .ended) r)
  | returned {values : List α} {last r' : Reader σ ε} : call.LetIn r →
      Takes format (call.opened r) values last → Pauses format last r' →
      Does format call r (.ok values r')
  | failed {values : List α} {last : Reader σ ε} {error : Error ε} {scanner : Scanner σ} :
      call.LetIn r → Takes format (call.opened r) values last → Fails format last error scanner →
      Does format call r (.error (.failed error) (Reader.failed { last with scanner } error))
  | cutShort (r' : Reader σ ε) : Does format call r (.error .ranOut r')

/-- A call is let in, or else it has no effect: the reader has failed, or its input has ended. -/
theorem Call.letIn_or (call : Call) (r : Reader σ ε) :
    (∃ error, r.failure = some error) ∨
      (∃ bytes, call = .push bytes ∧ r.failure = none ∧ r.scanner.cursor.ended = true) ∨
      call.LetIn r := by
  cases hfailure : r.failure with
  | some error => exact .inl ⟨error, rfl⟩
  | none =>
    refine .inr ?_
    by_cases hrefused : ∃ bytes, call = .push bytes ∧ r.scanner.cursor.ended = true
    · obtain ⟨bytes, hcall, hended⟩ := hrefused
      exact .inl ⟨bytes, hcall, rfl, hended⟩
    · refine .inr ⟨hfailure, fun bytes hcall => ?_⟩
      exact Bool.eq_false_iff.mpr fun hended => hrefused ⟨bytes, hcall, hended⟩

theorem Call.does (htame : format.rule.Tame) (hr : r.scanner.cursor.Reached input) (call : Call)
    (fuel : Nat) : call.Does format r (call.run format fuel r) := by
  rcases call.letIn_or r with ⟨error, hfailure⟩ | ⟨bytes, rfl, hfailure, hended⟩ | hletIn
  · rw [Call.run_of_failure call fuel hfailure]
    exact .kept hfailure
  · rw [Call.run_push_of_ended fuel bytes hfailure hended]
    exact .refused hfailure rfl hended
  · obtain ⟨input', hopened⟩ := hletIn.reached_opened hr
    rw [hletIn.run_eq fuel]
    rcases drain_cases htame hopened fuel #[] with ⟨r', heq⟩ | ⟨values, last, htakes, hlast⟩
    · rw [heq]
      exact .cutShort r'
    · rcases hlast with ⟨r', hpauses, heq⟩ | ⟨error, scanner, hfails, heq⟩
      · rw [heq]
        exact .returned hletIn htakes hpauses
      · rw [heq]
        exact .failed hletIn htakes hfails

/-- A failure is kept if a call fails with it, and only then. -/
theorem Call.Does.failure_iff {result : EStateM.Result (Stop ε) (Reader σ ε) (List α)}
    (htame : format.rule.Tame) (hr : r.scanner.cursor.Reached input)
    (h : call.Does format r result) (hends : ComesToEnd result) (error : Error ε) :
    (Reading.behind result).failure = some error ↔ ∃ r', result = .error (.failed error) r' := by
  cases h with
  | @kept error' hfailure =>
    show r.failure = some error ↔ _
    rw [hfailure]
    constructor
    · intro heq
      exact ⟨r, by rw [Option.some.inj heq]⟩
    · rintro ⟨r', heq⟩
      rw [Stop.failed.inj (EStateM.Result.error.inj heq).1]
  | refused hfailure _ _ =>
    show r.failure = some error ↔ _
    rw [hfailure]
    exact ⟨nofun, nofun⟩
  | @returned values last r' hletIn htakes hpauses =>
    obtain ⟨input', hopened⟩ := hletIn.reached_opened hr
    obtain ⟨hlast, hfailure, -⟩ := htakes.reached htame hopened
    obtain ⟨-, hfailure', -, -⟩ := hpauses.consistent htame hlast
    show r'.failure = some error ↔ _
    rw [hfailure', hfailure, hletIn.failure_opened]
    exact ⟨nofun, nofun⟩
  | @failed values last error' scanner _ _ _ =>
    show some error' = some error ↔ _
    constructor
    · intro heq
      exact ⟨_, by rw [Option.some.inj heq]⟩
    · rintro ⟨r', heq⟩
      rw [Stop.failed.inj (EStateM.Result.error.inj heq).1]
  | cutShort r' => exact hends.elim

end Call

/-! ## All calls -/

section Reached

variable {format : Format σ ε α} {calls : List Call} {r : Reader σ ε}

/-- What is known of a reader after any calls. -/
structure Reader.Consistent (calls : List Call) (r : Reader σ ε) : Prop where
  reached : ∃ input, r.scanner.cursor.Reached input
  /-- A reader that has failed stands where its failure says. -/
  position_eq : ∀ error, r.failure = some error → error.position = r.position
  /-- A reader that has not failed has followed all calls. -/
  ended_iff : r.failure = none → (r.scanner.cursor.ended = true ↔ .finish ∈ calls)
  /-- At the end of the input, such a reader has read all of it. -/
  pending_eq : r.failure = none → r.scanner.cursor.ended = true → r.pending = 0

theorem Reader.consistent_new (memory : σ) : (Reader.new memory : Reader σ ε).Consistent [] where
  reached := ⟨[], .new⟩
  position_eq := nofun
  ended_iff := fun _ => ⟨nofun, nofun⟩
  pending_eq := fun _ => nofun

/-- A call without an effect leaves a reader consistent. -/
theorem Reader.Consistent.idle (h : r.Consistent calls) {call : Call}
    (hcall : r.failure = none → call ≠ .finish) : r.Consistent (calls ++ [call]) where
  reached := h.reached
  position_eq := h.position_eq
  ended_iff := by
    intro hfailure
    rw [h.ended_iff hfailure, List.mem_append, List.mem_singleton]
    exact ⟨.inl, fun hmem => hmem.resolve_right fun heq => hcall hfailure heq.symm⟩
  pending_eq := h.pending_eq

variable (htame : format.rule.Tame)
include htame

/-- What is known carries over from call to call. -/
theorem Reader.Consistent.call (h : r.Consistent calls) {call : Call}
    {result : EStateM.Result (Stop ε) (Reader σ ε) (List α)} (hdoes : call.Does format r result)
    (hends : ComesToEnd result) : (Reading.behind result).Consistent (calls ++ [call]) := by
  obtain ⟨input, hreached⟩ := h.reached
  cases hdoes with
  | kept hfailure =>
    refine h.idle fun hnone => ?_
    rw [hfailure] at hnone
    cases hnone
  | refused _ hcall _ =>
    subst hcall
    exact h.idle fun _ => nofun
  | @returned values last r' hletIn htakes hpauses =>
    -- The reader is as it was, but for the call, the values that it took and the pause.
    obtain ⟨input', hopened⟩ := hletIn.reached_opened hreached
    obtain ⟨hlast, hfailure, hended⟩ := htakes.reached htame hopened
    obtain ⟨hreached', hfailure', hended', hall⟩ := hpauses.consistent htame hlast
    have hnone : r'.failure = none := hfailure'.trans (hfailure.trans hletIn.failure_opened)
    refine ⟨⟨input', hreached'⟩, ?_, fun _ => ?_, fun _ hended'' => hall (hended' ▸ hended'')⟩
    · intro error herror
      cases hnone.symm.trans herror
    · show r'.scanner.cursor.ended = true ↔ _
      rw [hended', hended, List.mem_append, List.mem_singleton, ← h.ended_iff hletIn.failure]
      cases call with
      | push bytes => exact ⟨.inl, fun hmem => hmem.resolve_right nofun⟩
      | finish => exact ⟨fun _ => .inr rfl, fun _ => rfl⟩
  | @failed values last error scanner hletIn htakes hfails =>
    obtain ⟨input', hopened⟩ := hletIn.reached_opened hreached
    obtain ⟨hlast, -, -⟩ := htakes.reached htame hopened
    obtain ⟨hposition, hback, hwithin⟩ := hfails.position_eq htame hlast.shows.toInRange
    refine ⟨⟨input', hlast.of_within hwithin⟩, ?_, nofun, nofun⟩
    intro error' herror
    obtain rfl : error = error' := Option.some.inj herror
    exact hposition.trans (congrArg Nat.cast hback.symm)
  | cutShort r' => exact hends.elim

/-- By induction on the calls: whatever they are and whatever they come to. -/
theorem Reader.Reached.consistent (h : r.Reached format calls) : r.Consistent calls := by
  induction h with
  | new memory => exact Reader.consistent_new memory
  | call call _ hends ih =>
    obtain ⟨input, hreached⟩ := ih.reached
    exact ih.call htame (call.does htame hreached _) hends

end Reached

end StreamGrammar.Stream
