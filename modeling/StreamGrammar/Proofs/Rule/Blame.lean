import StreamGrammar.Proofs.Parser.Blame
import StreamGrammar.Proofs.Rule.Contract
import StreamGrammar.Proofs.Stream.Calls
import StreamGrammar.Rule.Judges

/-!
# Where the mismatches of rules are blamed

A rule of the kit is candid if it reports what its terminals reported: errors are not replaced, but
for saying that at least one element was expected, and judges reject with the error of an element
(`Rule.Candid`). The mismatch of such a rule is blamed on the input that it has looked at, and so is
the one with which a reader fails (`Grammar.blames_examined`).
-/

namespace StreamGrammar

open Input (Cursor)
open StreamGrammar.Stream (Call ComesToEnd Error Format Reader Reading Stop)

/-! ## Candid rules -/

/-- The judges that reject with the error of an element, if they reject. -/
def Rule.Judge.Candid (judge : Rule.Judge) : Prop :=
  ∀ items error, judge items = .rejected error → .error error ∈ items

/-- A judge that rejects with the first error is candid. -/
theorem Rule.Judge.candid_strict : strict.Candid := by
  intro items error h
  unfold strict at h
  split at h
  · next hback =>
    obtain rfl := Verdict.rejected.inj h
    exact Array.mem_of_back? hback
  · cases h

/-- The rules of the kit whose errors come from a terminal, with at most a label added. -/
inductive Rule.Candid : Rule → Prop
  | byte (test : UInt8 → Bool) (expected : String) : Candid (.byte test expected)
  | literal (text : Literal) : Candid (.literal text)
  | captured {body : Rule} : Candid body → Candid (.captured body)
  | map (f : Datum → Datum) {body : Rule} : Candid body → Candid (.map f body)
  | alternation {first : Rule} {others : List Rule} :
      Candid first → (∀ rule ∈ others, Candid rule) → Candid (.alternation first others)
  | optional {body : Rule} : Candid body → Candid (.optional body)
  | concatenation {parts : List Rule} :
      (∀ rule ∈ parts, Candid rule) → Candid (.concatenation parts)
  | star {body : Rule} : Candid body → Candid (.star body)
  | plus (label : String) {body : Rule} :
      Candid body → Candid (.plus (Datum.atLeastOne label) body)
  | repetition (bounds : Bounds) {body : Rule} : Candid body → Candid (.repetition bounds body)
  | sepBy {body separator : Rule} : Candid body → Candid separator → Candid (.sepBy body separator)
  | rewinding {body : Rule} : Candid body → Candid (.rewinding body)
  | found {body : Rule} : Candid body → Candid (.found body)
  | firstFound {alternatives : List Rule} :
      (∀ rule ∈ alternatives, Candid rule) → Candid (.firstFound alternatives)
  | repeating {judge : Rule.Judge} {body : Rule} :
      judge.Candid → Candid body → Candid (.repeating judge body)
  | repeatingSome {judge : Rule.Judge} (label : String) {body : Rule} :
      judge.Candid → Candid body → Candid (.repeatingSome judge (Datum.atLeastOne label) body)
  | ref (name : String) : Candid (.ref name)

/-- The grammars all of whose rules are candid. -/
def Grammar.Candid (grammar : Grammar) : Prop :=
  ∀ name rule, grammar.lookup name = some rule → rule.Candid

/-- The error is a mismatch, blamed on a position that a run from the cursor on may blame. -/
def Rule.Blames (c : Cursor) (error : Datum) : Prop :=
  ∃ m, error = .mismatch m ∧ c.MayBlame m.position

namespace Rule

variable {rule : Rule} {c : Cursor}

theorem Candid.kit (h : rule.Candid) : rule.Kit := by
  induction h with
  | byte test expected => exact .byte test expected
  | literal text => exact .literal text
  | captured _ ih => exact .captured ih
  | map f _ ih => exact .map f ih
  | alternation _ _ ih ihs => exact .alternation ih ihs
  | optional _ ih => exact .optional ih
  | concatenation _ ihs => exact .concatenation ihs
  | star _ ih => exact .star ih
  | plus _ _ ih => exact .plus _ ih
  | repetition bounds _ ih => exact .repetition bounds ih
  | sepBy _ _ ih ihseparator => exact .sepBy ih ihseparator
  | rewinding _ ih => exact .rewinding ih
  | found _ ih => exact .found ih
  | firstFound _ ihs => exact .firstFound ihs
  | repeating _ _ ih => exact .repeating _ ih
  | repeatingSome _ _ _ ih => exact .repeatingSome _ _ ih
  | ref name => exact .ref name

/-- A label does not move the blame. -/
theorem Blames.atLeastOne (label : String) (error : Datum) (h : Blames c error) :
    Blames c (Datum.atLeastOne label error) := by
  obtain ⟨m, rfl, hm⟩ := h
  exact ⟨m.atLeastOne label, rfl, hm⟩

/-- Candid judges gather the errors of elements and pass one of them on. -/
theorem Judge.Candid.passesOn {judge : Rule.Judge} (h : judge.Candid) {P : Datum → Prop} :
    Parser.PassesOn
      (fun items : Array (Except Datum Datum) => ∀ error, .error error ∈ items → P error) P P
      fun items item => (judge (items.push item), items.push item) := by
  intro items item hitems hitem
  have hall (error : Datum) (hmem : .error error ∈ items.push item) : P error := by
    rcases Array.mem_push.mp hmem with hmem | heq
    · exact hitems error hmem
    · exact hitem error heq.symm
  exact ⟨hall, fun error hrejected => hall error (h _ error hrejected)⟩

/-- By induction on the rule, if the rules that it refers to do the same. -/
theorem Candid.parser {refs : String → Rule.Parser} (hrule : rule.Candid)
    (hrefs : ∀ name, (refs name).RejectsWith c (Blames c)) (fuel : Nat) :
    (rule.parser refs fuel).RejectsWith c (Blames c) := by
  have hmismatch (m : Mismatch) (hm : c.MayBlame m.position) : Blames c (.mismatch m) :=
    ⟨m, rfl, hm⟩
  have hnone (error : Datum) (h : .error error ∈ (#[] : Array (Except Datum Datum))) :
      Blames c error := absurd h (Array.not_mem_empty _)
  induction hrule with
  | byte test expected =>
    exact ((Parser.rejectsWith_byte test expected).map _).mapError hmismatch
  | literal text => exact ((Parser.rejectsWith_literal text).map _).mapError hmismatch
  | captured _ ih => exact ih.captured.map _
  | map f _ ih => exact ih.map f
  | alternation _ _ ih ihs => exact ih.alternation (forall_mem_parsers ihs)
  | optional _ ih => exact ih.optional _
  | concatenation _ ihs => exact (Parser.rejectsWith_concatenation (forall_mem_parsers ihs)).map _
  | star _ ih => exact (ih.star fuel).map _
  | plus label _ ih => exact (ih.plus fuel (Blames.atLeastOne label)).map _
  | repetition bounds _ ih => exact (ih.repetition fuel bounds).map _
  | sepBy _ _ ih ihseparator => exact (ih.sepBy fuel ihseparator).map _
  | rewinding _ ih => exact ih.rewinding
  | found _ ih => exact ih.found _
  | firstFound _ ihs => exact Parser.rejectsWith_firstFound _ _ (forall_mem_parsers ihs)
  | repeating hjudge _ ih => exact ih.repeating hjudge.passesOn fuel hnone
  | repeatingSome label hjudge _ ih =>
    exact ih.repeatingSome hjudge.passesOn (Blames.atLeastOne label) fuel hnone
  | ref name => exact hrefs name

end Rule

namespace Grammar

variable {grammar : Grammar} {rule : Rule} {c : Cursor} (hgrammar : grammar.Candid)
include hgrammar

theorem Candid.kit : grammar.Kit := fun name rule hlookup => (hgrammar name rule hlookup).kit

/-- By induction on the depth to which references may be nested. -/
theorem Candid.named (fuel : Nat) (name : String) :
    (grammar.parser fuel name).RejectsWith c (Rule.Blames c) := by
  induction fuel generalizing name with
  | zero => exact Parser.rejectsWith_ranOut
  | succ fuel ih =>
    rw [Grammar.parser]
    cases hrule : grammar.lookup name with
    | none =>
      intro s t verdict _ hrun
      cases hrun
    | some rule => exact (hgrammar name rule hrule).parser ih fuel

theorem Candid.parserOf (hrule : rule.Candid) (fuel : Nat) :
    (grammar.parserOf fuel rule).RejectsWith c (Rule.Blames c) :=
  hrule.parser (hgrammar.named fuel) fuel

end Grammar

/-! ## Readers -/

namespace Stream

variable {σ ε α : Type} {format : Format σ ε α} {calls : List Call} {r r' : Reader σ ε}
  (htame : format.rule.Tame) {P : Cursor → ε → Prop}
  (hrule : ∀ (s t : Scanner σ) (error : ε), s.cursor.InRange →
    format.rule.run s = .ok (.rejected error) t → P s.cursor error)
include htame hrule

theorem Fails.cause {position : Int} {cause : ε} {scanner : Scanner σ}
    (h : Fails format r (.parseFailed position cause) scanner) (hr : r.scanner.cursor.InRange) :
    P scanner.cursor cause := by
  rw [h.cursor_eq htame hr]
  cases h with
  | parseFailed hrun =>
    obtain ⟨t, hbody, -⟩ := Parser.rewinding_ok htame hr hrun
    exact hrule r.scanner.marked t cause hr hbody

/-- By induction on the calls: what is known of the error with which the rule rejects at a cursor is
known of the cause of a failure, and a reader that has failed stays there. -/
theorem Reader.Reached.cause (h : r.Reached format calls) (position : Int) (cause : ε)
    (hfailure : r.failure = some (.parseFailed position cause)) : P r.scanner.cursor cause := by
  induction h with
  | new memory => cases hfailure
  | @call calls r call fuel hr hends ih =>
    obtain ⟨input, hreached⟩ := (hr.consistent htame).reached
    have hdoes := call.does htame hreached fuel
    generalize call.run format fuel r = result at hdoes hends hfailure ⊢
    cases hdoes with
    | kept _ => exact ih hfailure
    | refused _ _ _ => exact ih hfailure
    | returned hletIn htakes hpauses =>
      obtain ⟨input', hopened⟩ := hletIn.reached_opened hreached
      obtain ⟨hlast, hkept, -⟩ := htakes.reached htame hopened
      obtain ⟨-, hkept', -⟩ := hpauses.consistent htame hlast
      cases (hkept'.trans (hkept.trans hletIn.failure_opened)).symm.trans hfailure
    | failed hletIn htakes hfails =>
      obtain ⟨input', hopened⟩ := hletIn.reached_opened hreached
      have hlast := (htakes.reached htame hopened).1.shows.toInRange
      obtain rfl := Option.some.inj hfailure
      exact hfails.cause htame hrule hlast
    | cutShort _ => exact hends.elim

/-- A call that fails leads to a reader that keeps the failure. -/
theorem Call.cause (hr : r.Reached format calls) {call : Call} {fuel : Nat} {position : Int}
    {cause : ε}
    (hrun : call.run format fuel r = .error (.failed (.parseFailed position cause)) r') :
    P r'.scanner.cursor cause ∧ position = r'.position ∧ r'.scanner.cursor.InRange := by
  obtain ⟨input, hreached⟩ := (hr.consistent htame).reached
  have hdoes := call.does htame hreached fuel
  have hends : ComesToEnd (call.run format fuel r) := hrun ▸ trivial
  have hr' := hr.call call hends
  have hkept := (hdoes.failure_iff htame hreached hends _).mpr ⟨r', hrun⟩
  rw [hrun] at hr' hkept
  have hconsistent := hr'.consistent htame
  obtain ⟨input', hreached'⟩ := hconsistent.reached
  exact ⟨hr'.cause htame hrule position cause hkept, hconsistent.position_eq _ hkept,
    hreached'.shows.toInRange⟩

end Stream

/-- The error with which a candid rule rejects is a mismatch, and blames a byte that is there, or
the end of an input that has ended. So does the cause with which a reader fails: it lies behind the
values that were read, and in the bytes that are left. -/
theorem Grammar.blames_examined {grammar : Grammar} {rule : Rule} (hgrammar : grammar.Candid)
    (hrule : rule.Candid) (fuel : Nat) :
    (∀ (s t : Scanner Rule.Memory) (error : Datum), s.cursor.InRange →
      (grammar.parserOf fuel rule).run s = .ok (.rejected error) t →
      ∃ m, error = .mismatch m ∧ s.cursor.position ≤ m.position ∧
        m.position ≤ s.cursor.buffer.stop ∧
        (s.cursor.ended = false → m.position < s.cursor.buffer.stop)) ∧
    ∀ (name : String) (limit : Int) (calls : List Call) (r : Reader Rule.Memory Datum),
      r.Reached ⟨grammar.parserOf fuel rule, name, limit⟩ calls →
      ∀ (call : Call) (fuel' : Nat) (position : Int) (cause : Datum)
        (r' : Reader Rule.Memory Datum),
        call.run ⟨grammar.parserOf fuel rule, name, limit⟩ fuel' r =
          .error (.failed (.parseFailed position cause)) r' →
        ∃ m, cause = .mismatch m ∧ position ≤ m.position ∧ m.position ≤ position + r'.pending ∧
          (r'.scanner.cursor.ended = false → m.position < position + r'.pending) := by
  have hblames (s t : Scanner Rule.Memory) (error : Datum) (hs : s.cursor.InRange)
      (hrun : (grammar.parserOf fuel rule).run s = .ok (.rejected error) t) :
      Rule.Blames s.cursor error :=
    (hgrammar.parserOf hrule fuel s t _ (.refl hs) hrun).2 error rfl
  have htame : (grammar.parserOf fuel rule).Tame :=
    (Parser.respects_keeps.parserOf hgrammar.kit (Nat.le_refl fuel) hrule.kit).mono
      fun _ _ => (·.toWithin)
  refine ⟨fun s t error hs hrun => ?_, ?_⟩
  · obtain ⟨m, rfl, hm⟩ := hblames s t error hs hrun
    exact ⟨m, rfl, hm.position_le, hm.le_stop, hm.lt_stop⟩
  · intro name limit calls r hr call fuel' position cause r' hrun
    obtain ⟨⟨m, rfl, hm⟩, rfl, hr'⟩ := Call.cause htame hblames hr hrun
    -- What is pending reaches from the position to the end of what has arrived.
    have hstop : (r'.position : Int) + r'.pending = r'.scanner.cursor.buffer.stop := by
      have hle := hr'.le_stop
      unfold Reader.position Reader.pending Cursor.available
      omega
    rw [hstop]
    exact ⟨m, rfl, hm.position_le, hm.le_stop, hm.lt_stop⟩

/-- Pairs of letters, of which the second one is wrong: the reader fails at the start of the first
pair, and the second letter of the second pair is blamed. -/
theorem Grammar.blames_examined_pairs :
    let pair : Rule := .concatenation [.byte (· == 0x61) "a", .byte (· == 0x62) "b"]
    let grammar : Grammar := [("pair", pair)]
    let pairs : Rule := .repeating Rule.Judge.strict (.ref "pair")
    let format : Format Rule.Memory Datum Datum := { rule := grammar.parserOf 2 pairs }
    let m : Mismatch := ⟨"b", 3⟩
    ∃ r', (Call.push #[0x61, 0x62, 0x61, 0x63]).run format 2 (Reader.new #[]) =
        .error (.failed (.parseFailed 0 (.mismatch m))) r' ∧
      r'.pending = 4 ∧ 0 ≤ m.position ∧ m.position < 0 + r'.pending := by
  intro pair grammar pairs format m
  have hparts : ∀ rule ∈ [Rule.byte (· == 0x61) "a", .byte (· == 0x62) "b"], rule.Candid :=
    List.forall_mem_cons.mpr ⟨.byte _ _, List.forall_mem_singleton.mpr (.byte _ _)⟩
  have hgrammar : grammar.Candid := by
    intro name rule hlookup
    obtain ⟨rfl, rfl⟩ := Prod.mk.inj (List.mem_singleton.mp (mem_of_lookup hlookup))
    exact .concatenation hparts
  have hpairs : pairs.Candid := .repeating Rule.Judge.candid_strict (.ref "pair")
  have hrun : ∃ r', (Call.push #[0x61, 0x62, 0x61, 0x63]).run format 2 (Reader.new #[]) =
      .error (.failed (.parseFailed 0 (.mismatch m))) r' ∧ r'.pending = 4 ∧
        r'.scanner.cursor.ended = false := ⟨_, by with_unfolding_all rfl, rfl, rfl⟩
  obtain ⟨r', hrun, hpending, hopen⟩ := hrun
  obtain ⟨m', hm', hle, -, hlt⟩ := (blames_examined hgrammar hpairs 2).2 "rule" 65536 []
    (Reader.new #[]) (.new #[]) (.push #[0x61, 0x62, 0x61, 0x63]) 2 0 _ r' hrun
  obtain rfl := Datum.mismatch.inj hm'
  exact ⟨r', hrun, hpending, hle, hlt hopen⟩

end StreamGrammar
