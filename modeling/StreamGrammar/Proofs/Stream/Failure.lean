import StreamGrammar.Proofs.Rule.Contract
import StreamGrammar.Proofs.Stream.Calls

/-!
# Failures are the end of a reader

A call that fails leaves the reader where the value began that could not be read, with the failure
kept. Every later call finds it there, before it touches the input or the rule, so that nothing ever
changes again (`Reader.failures_absorb`). Nothing else is kept: a reader whose input has ended
refuses further chunks one by one, and may be ended again.
-/

namespace StreamGrammar.Stream

open Reading (behind)
open StreamGrammar.Parser (Tame)

variable {σ ε α : Type} {format : Format σ ε α} {r : Reader σ ε}

/-- Calls that leave a reader as it is may be made in any number. -/
theorem Call.runAll_of_fixed {fuel : Nat} {answers : Call → Except (Stop ε) (List α)}
    (h : ∀ call : Call, answer (call.run format fuel r) = answers call ∧
      behind (call.run format fuel r) = r) (calls : List Call) :
    Call.runAll format fuel calls r = (calls.map answers, r) := by
  induction calls with
  | nil => rfl
  | cons call calls ih =>
    obtain ⟨hanswer, hbehind⟩ := h call
    rw [Call.runAll, hanswer, hbehind, ih, List.map_cons]

theorem Call.runAll_of_failure {error : Error ε} (hfailure : r.failure = some error) (fuel : Nat)
    (calls : List Call) :
    Call.runAll format fuel calls r = (calls.map fun _ => .error (.failed error), r) := by
  refine Call.runAll_of_fixed (fun call => ?_) calls
  rw [Call.run_of_failure call fuel hfailure]
  exact ⟨rfl, rfl⟩

/-- What a call is answered that comes after the end of the input. -/
def Call.lateAnswer : Call → Except (Stop ε) (List α)
  | push _ => .error (.fault .ended)
  | finish => .ok []

theorem Call.runAll_of_ended (hfailure : r.failure = none) (hended : r.scanner.cursor.ended = true)
    (hpending : r.pending = 0) (fuel : Nat) (calls : List Call) :
    Call.runAll format (fuel + 1) calls r = (calls.map Call.lateAnswer, r) := by
  refine Call.runAll_of_fixed (fun call => ?_) calls
  cases call with
  | push bytes =>
    rw [Call.run_push_of_ended _ bytes hfailure hended]
    exact ⟨rfl, rfl⟩
  | finish =>
    -- To end the input once more changes nothing, and nothing is left to be read.
    have hsame : r.finished = r := by
      obtain ⟨⟨⟨buffer, position, ended⟩, journal, memory⟩, failure, notices⟩ := r
      obtain rfl : ended = true := hended
      rfl
    have hdrain : Call.finish.run format (fuel + 1) r = .ok [] r := by
      show Reading.finish format (fuel + 1) r = .ok [] r
      rw [(Reading.finish_eq format hfailure _).1, hsame, Reading.drain_succ, if_pos hpending]
    rw [hdrain]
    exact ⟨rfl, rfl⟩

/-- The rule was run, behind a mark, where a round failed. -/
theorem Fails.exists_run {error : Error ε} {scanner : Scanner σ}
    (h : Fails format r error scanner) :
    ∃ verdict t, format.rule.run (r.scanner.log (.marked r.position)) = .ok verdict t := by
  have hbody {verdict : Verdict ε α}
      (hrun : (Parser.rewinding format.rule).run r.scanner = .ok verdict scanner) :
      ∃ verdict t, format.rule.run (r.scanner.log (.marked r.position)) = .ok verdict t := by
    obtain ⟨t, ht, -⟩ := Parser.rewindingUnless_ok hrun
    exact ⟨verdict, t, ht⟩
  cases h with
  | incomplete hrun _ => exact hbody hrun
  | overLimit hrun _ _ => exact hbody hrun
  | parseFailed hrun => exact hbody hrun
  | noProgress hrun _ => exact hbody hrun

/-- Whatever calls were made on a reader before, and whatever its rule does with the cursor: a call
that fails does so at the place where the last attempt began, and leaves the reader there. All later
calls, with whatever rule, then fail in the same way and change nothing. Failures are the only stops
that are kept: after the end of the input, a reader that has not failed refuses each chunk, comes to
the end again whenever it is told so, and changes no more. -/
theorem Reader.failures_absorb (htame : format.rule.Tame) {calls : List Call}
    (hr : r.Reached format calls) :
    (∀ (call : Call) (fuel : Nat) (error : Error ε) (r' : Reader σ ε),
      call.run format fuel r = .error (.failed error) r' →
        error.position = r'.position ∧
        (r.failure = none → ∃ values last scanner, Takes format (call.opened r) values last ∧
          (∃ verdict t, format.rule.run (last.scanner.log (.marked last.position)) =
            .ok verdict t) ∧
          Fails format last error scanner ∧ error.position = last.position) ∧
        ∀ (format' : Format σ ε α) (fuel' : Nat) (later : List Call),
          Call.runAll format' fuel' later r' = (later.map fun _ => .error (.failed error), r')) ∧
    (∀ (call : Call) (fuel : Nat), ComesToEnd (call.run format fuel r) → ∀ error,
      (behind (call.run format fuel r)).failure = some error ↔
        ∃ r', call.run format fuel r = .error (.failed error) r') ∧
    (r.failure = none → .finish ∈ calls → ∀ (fuel : Nat) (later : List Call),
      Call.runAll format (fuel + 1) later r = (later.map Call.lateAnswer, r)) := by
  have hconsistent := hr.consistent htame
  obtain ⟨input, hreached⟩ := hconsistent.reached
  refine ⟨fun call fuel error r' hrun => ?_, fun call fuel hends error => ?_, ?_⟩
  · have hdoes := call.does htame hreached fuel
    have hends : ComesToEnd (call.run format fuel r) := by rw [hrun]; trivial
    have hfailure : r'.failure = some error := by
      have hkept := (hdoes.failure_iff htame hreached hends error).mpr ⟨r', hrun⟩
      rw [hrun] at hkept
      exact hkept
    have hbehind := hconsistent.call htame hdoes hends
    rw [hrun] at hbehind hdoes
    refine ⟨hbehind.position_eq error hfailure, fun hnone => ?_, fun format' fuel' later => ?_⟩
    · -- The failure is a new one, so it was a round of this call that failed.
      cases hdoes with
      | kept hfailure' =>
        rw [hnone] at hfailure'
        cases hfailure'
      | @failed values last _ scanner hletIn htakes hfails =>
        obtain ⟨input', hopened⟩ := hletIn.reached_opened hreached
        have hlast := (htakes.reached htame hopened).1.shows.toInRange
        have hposition := (hfails.position_eq htame hlast).1
        exact ⟨values, last, scanner, htakes, hfails.exists_run, hfails, hposition⟩
    · exact Call.runAll_of_failure hfailure fuel' later
  · exact (call.does htame hreached fuel).failure_iff htame hreached hends error
  · intro hnone hfinish fuel later
    have hended := (hconsistent.ended_iff hnone).mpr hfinish
    exact Call.runAll_of_ended hnone hended (hconsistent.pending_eq hnone hended) fuel later

/-- A rule that rejects behind the first byte, which it has taken by then. The reader fails at the
start of the input all the same, and stays there. A reader of nothing that has been ended refuses
chunks, and stays well. -/
theorem Reader.failures_absorb_displaced :
    let format : Format Unit Mismatch Unit := { rule := Parser.displaced }
    let error : Error Mismatch := .parseFailed 0 ⟨"nothing", 0⟩
    let ended := behind (Call.finish.run format 1 (Reader.new ()))
    format.rule.Tame ∧
      (∃ r', (Call.push #[0x61]).run format 1 (Reader.new ()) = .error (.failed error) r' ∧
        error.position = r'.position ∧
        Call.runAll format 1 [.finish, .push #[0x62]] r' =
          ([.error (.failed error), .error (.failed error)], r')) ∧
      ended.failure = none ∧
      Call.runAll format 1 [.push #[0x61], .finish] ended =
        ([.error (.fault .ended), .ok []], ended) := by
  intro format error ended
  have htame : format.rule.Tame := Parser.tame_displaced
  have hnew : (Reader.new () : Reader Unit Mismatch).Reached format [] := .new ()
  have hended : ended.Reached format ([] ++ [.finish]) := hnew.call .finish trivial
  -- The rule takes the byte and rejects, and the cursor is put back.
  let r : Reader Unit Mismatch := (Reader.new ()).appended #[0x61]
  have hr : r.scanner.cursor.Reached ([] ++ [0x61]) := .append .new rfl
  have hpeek : r.scanner.cursor.peek 0 = some 0x61 := hr.shows.peek_eq 0
  let marked := r.scanner.log (.marked 0)
  have hbyte := Parser.run_byte (s := marked) (fun _ => true) "a byte"
  have hpeek' : marked.cursor.peek 0 = some 0x61 := hpeek
  rw [hpeek'] at hbyte
  have hrun : Parser.displaced.run marked = .ok (.rejected ⟨"nothing", 0⟩)
      { marked with cursor := { marked.cursor with position := 1 } } := by
    unfold Parser.displaced
    rw [Parser.andThen_eq_settle, Parser.run_settle, hbyte]
    rfl
  have hwithin := htame.ok (s := marked) hr.shows.toInRange hrun
  have hattempt : (Parser.rewinding format.rule).run r.scanner = _ :=
    Parser.run_rewindingUnless_of_ok Verdict.isAccepted hr.shows.toInRange hwithin hrun
  have hpending : r.pending ≠ 0 := Nat.one_ne_zero
  have hdrain := Reading.drain_succ format 0 #[] r
  rw [if_neg hpending, hattempt] at hdrain
  have hfails := (Reading.push_eq format (r := Reader.new ()) rfl rfl 1 #[0x61]).1.trans hdrain
  have habsorb := (Reader.failures_absorb htame hnew).1 (.push #[0x61]) 1 error _ hfails
  refine ⟨htame, ⟨_, hfails, habsorb.1, habsorb.2.2 format 1 [.finish, .push #[0x62]]⟩, rfl, ?_⟩
  exact (Reader.failures_absorb htame hended).2.2 rfl (List.mem_singleton.mpr rfl) 0
    [.push #[0x61], .finish]

end StreamGrammar.Stream
