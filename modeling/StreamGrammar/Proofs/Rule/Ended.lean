import StreamGrammar.Proofs.Header.Rules
import StreamGrammar.Proofs.Stream.Calls
import StreamGrammar.Proofs.Stream.Rule

/-!
# Kit rules settle when the input has ended

A kit rule that comes to an end on an input that has ended matches or does not match
(`Grammar.settled_at_end`). So a reader of such a rule is never left with an incomplete value, and
an answer on an input that is still open is the one at its end, unless the rule waits.
-/

namespace StreamGrammar

open Input (Cursor)
open StreamGrammar.Stream (Call Fails Format Reader)

/-- Where a text has been found, it can be read. -/
theorem Parser.read_of_agree {σ : Type} {l : Literal} {s t : Scanner σ} (hs : s.cursor.InRange)
    (hrun : (agree l l.codes 0).run s = .ok (.accepted ()) t) :
    ∃ bytes c, t.cursor.read l.codes.length = .ok (some bytes, c) := by
  rw [run_agree] at hrun
  obtain ⟨hcomparison, rfl⟩ := EStateM.Result.ok.inj hrun
  have hstop := add_le_stop_of_comparison hs.le_stop hcomparison
  obtain ⟨bytes, -, hread⟩ := Cursor.read_ok hs hstop
  exact ⟨bytes, _, hread⟩

namespace Stream

variable {σ ε α : Type} {format : Format σ ε α} {r : Reader σ ε}

/-- A rule that settles at the end of the input does not leave a value incomplete. -/
theorem Fails.ne_incomplete (htame : format.rule.Tame) (hsettles : format.rule.Settles)
    {error : Error ε} {scanner : Scanner σ} (h : Fails format r error scanner)
    (hr : r.scanner.cursor.InRange) (position remaining : Int) :
    error ≠ .incomplete position remaining := by
  cases h with
  | incomplete hrun hended =>
    have hwithin := within_attempt htame hr hrun
    have hbefore : r.scanner.cursor.ended = true := hwithin.ended_eq ▸ hended
    have hdecided := (Parser.settles_rewindingUnless _ hsettles hr hbefore hrun).1
    cases hdecided
  | overLimit _ _ _ => exact nofun
  | parseFailed _ => exact nofun
  | noProgress _ _ => exact nofun

/-- By induction on the calls: no call stops with an incomplete value. -/
theorem Reader.Reached.ne_incomplete (htame : format.rule.Tame) (hsettles : format.rule.Settles)
    {calls : List Call} (h : r.Reached format calls) (position remaining : Int) :
    r.failure ≠ some (.incomplete position remaining) ∧ ∀ (call : Call) (fuel : Nat) r',
      call.run format fuel r ≠ .error (.failed (.incomplete position remaining)) r' := by
  -- What a reader has not failed with so far, its next call does not fail with.
  have hstep {calls : List Call} {r : Reader σ ε} (hr : r.Reached format calls)
      (hfailure : r.failure ≠ some (.incomplete position remaining)) (call : Call) (fuel : Nat) r' :
      call.run format fuel r ≠ .error (.failed (.incomplete position remaining)) r' := by
    obtain ⟨input, hreached⟩ := (hr.consistent htame).reached
    have hdoes := call.does htame hreached fuel
    intro hrun
    rw [hrun] at hdoes
    cases hdoes with
    | kept hkept => exact hfailure hkept
    | failed hletIn htakes hfails =>
      obtain ⟨input', hopened⟩ := hletIn.reached_opened hreached
      have hlast := (htakes.reached htame hopened).1.shows.toInRange
      exact hfails.ne_incomplete htame hsettles hlast position remaining rfl
  induction h with
  | new memory => exact ⟨nofun, hstep (.new memory) nofun⟩
  | @call calls r call fuel hr hends ih =>
    have hfailure : (Reading.behind (call.run format fuel r)).failure ≠
        some (.incomplete position remaining) := by
      obtain ⟨input, hreached⟩ := (hr.consistent htame).reached
      have hdoes := call.does htame hreached fuel
      intro hkept
      obtain ⟨r', hrun⟩ := (hdoes.failure_iff htame hreached hends _).mp hkept
      exact ih.2 call fuel r' hrun
    exact ⟨hfailure, hstep (hr.call call hends) hfailure⟩

end Stream

/-- On an input that has ended, a kit rule does not leave anything open, so no call on a reader ends
with an incomplete value. On an open input, what it answers is what it answers when that was all,
unless it waits. A text that has been found is always there to be read, and no header value is left
undecided. -/
theorem Grammar.settled_at_end {grammar : Grammar} {rule : Rule} (hgrammar : grammar.Kit)
    (hrule : rule.Kit) (fuel : Nat) :
    (∀ {s t : Scanner Rule.Memory} {verdict : Verdict Datum Datum}, s.cursor.InRange →
      s.cursor.ended = true → (grammar.parserOf fuel rule).run s = .ok verdict t →
      verdict.isUndecided = false) ∧
    (∀ {name : String} {limit : Int} {calls : List Call} {r : Reader Rule.Memory Datum},
      r.Reached ⟨grammar.parserOf fuel rule, name, limit⟩ calls →
      ∀ (call : Call) (fuel' : Nat) (position remaining : Int) (r' : Reader Rule.Memory Datum),
        call.run ⟨grammar.parserOf fuel rule, name, limit⟩ fuel' r ≠
          .error (.failed (.incomplete position remaining)) r') ∧
    (∀ {input : List UInt8} {s t : Scanner Rule.Memory} {verdict : Verdict Datum Datum},
      s.cursor.Reached input → s.cursor.ended = false →
      (grammar.parserOf fuel rule).run s = .ok verdict t →
      verdict = .undecided ∨
        ∃ t', (grammar.parserOf fuel rule).run { s with cursor := s.cursor.finish } =
          .ok verdict t' ∧ t'.cursor.position = t.cursor.position) ∧
    (∀ (l : Literal) {s t : Scanner Rule.Memory}, s.cursor.InRange →
      (Parser.agree l l.codes 0).run s = .ok (.accepted ()) t →
      ∃ bytes c, t.cursor.read l.codes.length = .ok (some bytes, c)) ∧
    ∀ (bytes : Array UInt8) (s : Scanner Rule.Memory),
      Header.attempt Header.params bytes ≠ .ok .undecided s ∧
        Header.attempt Header.authorization bytes ≠ .ok .undecided s := by
  have hsettles : (grammar.parserOf fuel rule).Settles :=
    Parser.respects_settles.parserOf hgrammar (Nat.le_refl fuel) hrule
  have htame : (grammar.parserOf fuel rule).Tame :=
    (Parser.respects_keeps.parserOf hgrammar (Nat.le_refl fuel) hrule).mono fun _ _ => (·.toWithin)
  refine ⟨?_, ?_, ?_, fun l s t => Parser.read_of_agree, fun bytes s => ?_⟩
  · intro s t verdict hs hended hrun
    exact (hsettles hs hended hrun).1
  · intro name limit calls r hr call fuel' position remaining r'
    exact (hr.ne_incomplete htame hsettles position remaining).2 call fuel' r'
  · intro input s t verdict hs hopen hrun
    cases hdecided : verdict.isUndecided with
    | true =>
      left
      cases verdict with
      | accepted value => cases hdecided
      | undecided => rfl
      | rejected error => cases hdecided
    | false =>
      -- An answer is final, also if all that follows is the end of the input.
      right
      let s' : Scanner Rule.Memory := { s with cursor := s.cursor.finish }
      have hgrows : s.cursor.Grows input [] s'.cursor := by
        refine ⟨hs.shows, ?_, rfl, fun hended => ?_⟩
        · rw [List.append_nil]
          exact hs.finish.shows
        · rw [hopen] at hended
          cases hended
      have hfinal := Parser.respects_final.parserOf hgrammar (Nat.le_refl fuel) hrule
      obtain ⟨t', hrun', ht⟩ := hfinal hgrows hrun hdecided
      exact ⟨t', hrun', ht.position_eq⟩
  · have hheader {rule : Rule} (hrule : rule.Kit) :
        Header.attempt rule bytes ≠ .ok .undecided s := by
      intro hrun
      have hsettles := Parser.respects_settles.parserOf Grammar.kit_nil
        (Nat.le_refl (bytes.size + 2)) hrule
      have hdecided := (hsettles (Cursor.reached_ofBytes bytes).shows.toInRange rfl hrun).1
      cases hdecided
    exact ⟨hheader Header.kit_params, hheader Header.kit_authorization⟩

/-- Of the text "ab" the first letter has arrived. The rule waits, and when the input ends here, it
settles. -/
theorem Grammar.settled_at_end_short :
    let l : Literal := { codes := [0x61, 0x62] }
    let ab : Rule := .literal l
    let s : Scanner Rule.Memory :=
      { cursor := { buffer := Input.Buffer.append {} #[0x61] }, memory := #[] }
    let ended : Scanner Rule.Memory := { s with cursor := s.cursor.finish }
    (Grammar.parserOf [] 1 ab).run s = .ok .undecided s ∧
      ∃ verdict, (Grammar.parserOf [] 1 ab).run ended = .ok verdict ended ∧
        verdict.isUndecided = false := by
  intro l ab s ended
  have hs : s.cursor.Reached ([] ++ [0x61]) := .append .new rfl
  have hrun {t : Scanner Rule.Memory} (ht : t.cursor.Reached [0x61])
      (hposition : t.cursor.position = 0) :
      (Grammar.parserOf [] 1 ab).run t =
        .ok (((Parser.missed l.expected t.cursor).map .text).mapError .mismatch) t := by
    have hfirst : t.cursor.peek (0 : Nat) = some 0x61 := by
      rw [ht.shows.peek_eq, hposition]
      rfl
    have hsecond : t.cursor.peek (1 : Nat) = none := by
      rw [ht.shows.peek_eq, hposition]
      rfl
    -- The first letter agrees and the second one is missing.
    have hcomparison :
        Parser.comparison l t.cursor l.codes 0 = Parser.missed l.expected t.cursor := by
      unfold Parser.comparison
      rw [hfirst]
      change Parser.comparison l t.cursor [0x62] 1 = _
      unfold Parser.comparison
      rw [hsecond]
    have hliteral := Parser.run_literal ht.shows.toInRange l
    rw [hcomparison] at hliteral
    unfold Grammar.parserOf
    rw [Rule.parser, Parser.run_mapError, Parser.run_map, hliteral]
    unfold Parser.missed
    cases t.cursor.ended <;> rfl
  refine ⟨hrun hs rfl, _, hrun hs.finish rfl, ?_⟩
  have hsettled := Grammar.settled_at_end Grammar.kit_nil (.literal l) 1
  exact hsettled.1 hs.finish.shows.toInRange rfl (hrun hs.finish rfl)

end StreamGrammar
