import StreamGrammar.Proofs.Parser.Grouping
import StreamGrammar.Proofs.Rule.Contract

/-!
# Rules of the kit remember nothing

What a rule of the kit does depends on the cursor alone: neither the marks that have been taken nor
what has been remembered make a difference. Of parsers this is said with the place where a run ends
compared for every verdict (`Parser.Oblivious`), so that it carries over to what is built of them
without further conditions. Together with the contract it makes the rules of a grammar reliable
(`Grammar.reliable_parserOf`).
-/

namespace StreamGrammar

open Input (Cursor)

namespace Parser

variable {σ ε φ α β : Type}

/-- Two runs have the same verdict and lead to the same place, or neither comes to an end. -/
inductive Parallel : EStateM.Result Halt (Scanner σ) (Verdict ε α) →
    EStateM.Result Halt (Scanner σ) (Verdict ε α) → Prop
  | ok (verdict : Verdict ε α) {t t' : Scanner σ} : t'.cursor = t.cursor →
      Parallel (.ok verdict t) (.ok verdict t')
  | error (halt : Halt) (t t' : Scanner σ) : Parallel (.error halt t) (.error halt t')

/-- The parser moves the cursor onward at most, and what it does depends on the cursor alone. -/
structure Oblivious (p : Parser σ ε α) : Prop where
  keeps : p.Keeps Cursor.Onward
  parallel {s s' : Scanner σ} : s.cursor.InRange → s'.cursor = s.cursor →
    Parallel (p.run s) (p.run s')

namespace Oblivious

variable {p : Parser σ ε α}

theorem memoryless (hp : p.Oblivious) : p.Memoryless := by
  rintro c hc s s' rfl hs'
  have hruns := hp.parallel hc hs'
  generalize p.run s = run at hruns
  generalize p.run s' = run' at hruns
  cases hruns with
  | ok verdict ht => exact .ok fun _ => ht
  | error halt t t' => exact .error halt t t'

theorem settle {next : Except ε α → Parser σ φ β} (hp : p.Oblivious)
    (hnext : ∀ item, (next item).Oblivious) : (p.settle next).Oblivious where
  keeps := keeps_settle Cursor.isTravel_onward hp.keeps fun item => (hnext item).keeps
  parallel := by
    intro s s' hs hs'
    have hruns := hp.parallel hs hs'
    rw [run_settle, run_settle]
    generalize hrun : p.run s = run at hruns
    generalize p.run s' = run' at hruns
    cases hruns with
    | ok verdict ht =>
      have hrange := (hp.keeps.ok hs hrun).inRange
      cases verdict with
      | accepted value => exact (hnext _).parallel hrange ht
      | undecided => exact .ok .undecided ht
      | rejected error => exact (hnext _).parallel hrange ht
    | error halt t t' => exact .error halt t t'

theorem rewindingUnless (keep : Verdict ε α → Bool) (hp : p.Oblivious) :
    (rewindingUnless keep p).Oblivious where
  keeps := keeps_rewindingUnless Cursor.isTravel_onward keep hp.keeps
  parallel := by
    intro s s' hs hs'
    have hruns : Parallel (p.run s.marked) (p.run s'.marked) := hp.parallel hs hs'
    generalize hrun : p.run s.marked = run at hruns
    generalize hrun' : p.run s'.marked = run' at hruns
    cases hruns with
    | @ok verdict t t' ht =>
      have honward : s.cursor.Onward t.cursor := hp.keeps.ok (s := s.marked) hs hrun
      have honward' : s'.cursor.Onward t'.cursor :=
        hp.keeps.ok (s := s'.marked) (hs'.symm ▸ hs) hrun'
      rw [run_rewindingUnless_of_ok keep hs honward.toWithin hrun,
        run_rewindingUnless_of_ok (s := s') keep (hs'.symm ▸ hs) honward'.toWithin hrun']
      refine .ok verdict ?_
      split
      · exact ht
      · exact hs'
    | error halt t t' =>
      rw [run_rewindingUnless, run_rewindingUnless, hrun, hrun']
      exact .error halt t t'

theorem captured (hp : p.Oblivious) : (captured p).Oblivious where
  keeps := keeps_captured hp.keeps
  parallel := by
    intro s s' hs hs'
    have hruns := hp.parallel hs hs'
    rw [run_captured, run_captured, hs']
    generalize p.run s = run at hruns
    generalize p.run s' = run' at hruns
    cases hruns with
    | @ok verdict t t' ht =>
      cases verdict with
      | accepted value =>
        dsimp only
        rw [ht]
        cases t.cursor.slice s.cursor.position t.cursor.position with
        | ok bytes => exact .ok _ ht
        | error e => exact .error _ t t'
      | undecided => exact .ok .undecided ht
      | rejected error => exact .ok (.rejected error) ht
    | error halt t t' => exact .error halt t t'

end Oblivious

theorem oblivious_byte (test : UInt8 → Bool) (expected : String) :
    (byte test expected : Parser σ _ _).Oblivious where
  keeps := keeps_byte test expected
  parallel := by
    intro s s' _ hs'
    rw [run_byte, run_byte, hs']
    cases s.cursor.peek 0 with
    | none => exact .ok _ hs'
    | some value =>
      dsimp only
      split
      · exact .ok _ rfl
      · exact .ok _ hs'

theorem oblivious_literal (text : Literal) : (literal text : Parser σ _ _).Oblivious where
  keeps := keeps_literal text
  parallel := by
    intro s s' hs hs'
    rw [run_literal hs, run_literal (hs' ▸ hs), hs']
    cases comparison text s.cursor text.codes 0 with
    | accepted =>
      dsimp only
      cases s.cursor.slice s.cursor.position (s.cursor.position + text.codes.length : Nat) with
      | ok bytes => exact .ok _ rfl
      | error e => exact .error _ s s'
    | undecided => exact .ok .undecided hs'
    | rejected error => exact .ok (.rejected error) hs'

theorem respects_oblivious : Respects fun _ _ p _ => p.Oblivious where
  ranOut _ := ⟨fun _ _ => rfl, fun _ _ => .error .ranOut _ _⟩
  accept _ := ⟨fun _ => .refl, fun _ hs' => .ok _ hs'⟩
  reject _ := ⟨fun _ => .refl, fun _ hs' => .ok _ hs'⟩
  settle := Oblivious.settle
  rewindingUnless := fun keep _ _ => Oblivious.rewindingUnless keep
  byte := oblivious_byte
  literal := oblivious_literal
  captured := Oblivious.captured

end Parser

variable {refs : String → Rule.Parser} {fuel : Nat} {rule : Rule}

/-- A rule of the kit is reliable if the rules are that it refers to. -/
theorem Rule.reliable_of_kit (hrule : rule.Kit) (hrefs : ∀ name, (refs name).Oblivious)
    (hrewinds : ∀ name, (refs name).Rewinds Verdict.isAccepted) :
    (rule.parser refs fuel).Reliable where
  keeps := Parser.respects_keeps.parser refs refs hrule (fun name => (hrefs name).keeps)
    (Nat.le_refl fuel)
  rewinds := (rewinds_of_kit fuel (fun name => (hrefs name).keeps) hrewinds hrule).mono
    fun _ => isAccepted_of_keep
  memoryless := (Parser.respects_oblivious.parser refs refs hrule hrefs
    (Nat.le_refl fuel)).memoryless

/-- So are all rules of a grammar of the kit. -/
theorem Grammar.reliable_parserOf {grammar : Grammar} (hgrammar : grammar.Kit) (hrule : rule.Kit) :
    (grammar.parserOf fuel rule).Reliable :=
  Rule.reliable_of_kit hrule (Parser.respects_oblivious.named hgrammar (Nat.le_refl fuel))
    (rewinds_named hgrammar fuel)

end StreamGrammar
