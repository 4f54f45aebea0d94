import StreamGrammar.Proofs.Parser.Ended
import StreamGrammar.Proofs.Parser.Finality
import StreamGrammar.Proofs.Parser.Fuel
import StreamGrammar.Stream.Reader

/-!
# Reading values from an input that is there as a whole

The batch run over a complete input: the rule is run at the start, then behind each value, until the
input is used up or the rule stops it (`Batch`). It says what a reader should bring, however the
input is cut into chunks. Of a rule that always comes to an end, there is exactly one batch run
(`Sound.exists_batch`, `Sound.batch_unique`).

A rule is given here by its parsers with more and more fuel.
-/

namespace StreamGrammar.Stream

open Input (Cursor)
open StreamGrammar.Parser (Final Refines)

variable {σ ε α : Type}

/-- The rule answers with `verdict` if it has enough fuel. -/
def Runs (p : Nat → Parser σ ε α) (s : Scanner σ) (verdict : Verdict ε α) (t : Scanner σ) : Prop :=
  ∃ fuel, (p fuel).run s = .ok verdict t

/-- A rule that keeps the contract of parsers, whose decisions are final, and that always comes to
an end. -/
structure Sound (p : Nat → Parser σ ε α) : Prop where
  keeps (fuel : Nat) : (p fuel).Keeps Cursor.Onward
  settles (fuel : Nat) : (p fuel).Settles
  refines {fuel fuel' : Nat} : fuel ≤ fuel' → Refines (p fuel) (p fuel')
  final {fuel fuel' : Nat} : fuel ≤ fuel' → Final (p fuel) (p fuel')
  terminates {s : Scanner σ} {input : List UInt8} : s.cursor.Reached input →
    ∃ verdict t, Runs p s verdict t

/-- A scanner at a position of an input that is complete. -/
def whole (memory : σ) (input : Array UInt8) (position : Nat) : Scanner σ where
  cursor := { Cursor.ofBytes input with position }
  memory := memory

/-- The batch run from a position on: the values that it brings, and the failure that stops it. -/
inductive Batch (p : Nat → Parser σ ε α) (memory : σ) (input : Array UInt8) :
    Nat → List α → Option (Error ε) → Prop
  | exhausted {position : Nat} : input.size ≤ position → Batch p memory input position [] none
  | value {position : Nat} {value : α} {values : List α} {ending : Option (Error ε)}
      {t : Scanner σ} : position < input.size →
      Runs p (whole memory input position) (.accepted value) t → position < t.cursor.position →
      Batch p memory input t.cursor.position values ending →
      Batch p memory input position (value :: values) ending
  | stuck {position : Nat} {value : α} {t : Scanner σ} : position < input.size →
      Runs p (whole memory input position) (.accepted value) t → t.cursor.position = position →
      Batch p memory input position [] (some (.noProgress position))
  | failed {position : Nat} {cause : ε} {t : Scanner σ} : position < input.size →
      Runs p (whole memory input position) (.rejected cause) t →
      Batch p memory input position [] (some (.parseFailed position cause))

theorem reached_whole (memory : σ) {input : Array UInt8} {position : Nat}
    (hle : position ≤ input.size) : (whole memory input position).cursor.Reached input.toList :=
  Cursor.reached_ofBytes_at hle

namespace Sound

variable {p : Nat → Parser σ ε α} (hp : Sound p) {memory : σ} {input : Array UInt8} {position : Nat}
include hp

/-- The rule answers in one way. -/
theorem runs_unique {verdict verdict' : Verdict ε α} {t t' : Scanner σ}
    (h : Runs p (whole memory input position) verdict t)
    (h' : Runs p (whole memory input position) verdict' t') : verdict = verdict' ∧ t = t' := by
  obtain ⟨fuel, hrun⟩ := h
  obtain ⟨fuel', hrun'⟩ := h'
  have hmax := (hp.refines (Nat.le_max_left fuel fuel')).run_eq hrun
  have hmax' := (hp.refines (Nat.le_max_right fuel fuel')).run_eq hrun'
  exact EStateM.Result.ok.inj (hmax.symm.trans hmax')

/-- By induction on the first of two batch runs. -/
theorem batch_unique {values values' : List α} {ending ending' : Option (Error ε)}
    (h : Batch p memory input position values ending)
    (h' : Batch p memory input position values' ending') : values = values' ∧ ending = ending' := by
  induction h generalizing values' with
  | exhausted hsize =>
    cases h' with
    | exhausted _ => exact ⟨rfl, rfl⟩
    -- In all other cases some input is left.
    | value hlt _ _ _ => omega
    | stuck hlt _ _ => omega
    | failed hlt _ => omega
  | value hlt hrun hmoved _ ih =>
    cases h' with
    | exhausted hsize => omega
    | value _ hrun' _ hrest' =>
      -- The rule brings the same value, behind which both go on from the same place.
      obtain ⟨hverdict, rfl⟩ := hp.runs_unique hrun hrun'
      obtain rfl := Verdict.accepted.inj hverdict
      obtain ⟨rfl, rfl⟩ := ih hrest'
      exact ⟨rfl, rfl⟩
    | stuck _ hrun' hstuck =>
      obtain ⟨-, rfl⟩ := hp.runs_unique hrun hrun'
      omega
    | failed _ hrun' =>
      obtain ⟨hverdict, -⟩ := hp.runs_unique hrun hrun'
      cases hverdict
  | stuck hlt hrun hstuck =>
    cases h' with
    | exhausted hsize => omega
    | value _ hrun' hmoved _ =>
      obtain ⟨-, rfl⟩ := hp.runs_unique hrun hrun'
      omega
    | stuck _ _ _ => exact ⟨rfl, rfl⟩
    | failed _ hrun' =>
      obtain ⟨hverdict, -⟩ := hp.runs_unique hrun hrun'
      cases hverdict
  | failed hlt hrun =>
    cases h' with
    | exhausted hsize => omega
    | value _ hrun' _ _ =>
      obtain ⟨hverdict, -⟩ := hp.runs_unique hrun hrun'
      cases hverdict
    | stuck _ hrun' _ =>
      obtain ⟨hverdict, -⟩ := hp.runs_unique hrun hrun'
      cases hverdict
    | failed _ hrun' =>
      obtain ⟨hverdict, -⟩ := hp.runs_unique hrun hrun'
      obtain rfl := Verdict.rejected.inj hverdict
      exact ⟨rfl, rfl⟩

/-- By induction on the number of bytes that are left. -/
theorem exists_batch (memory : σ) (input : Array UInt8) (position : Nat) :
    ∃ values ending, Batch p memory input position values ending := by
  induction hleft : input.size - position using Nat.strong_induction_on generalizing position with
  | _ left ih =>
    rcases Nat.lt_or_ge position input.size with hlt | hge
    · have hreached := reached_whole memory (Nat.le_of_lt hlt)
      obtain ⟨verdict, t, fuel, hrun⟩ := hp.terminates hreached
      have honward := (hp.keeps fuel).ok hreached.shows.toInRange hrun
      have hsettled := (hp.settles fuel hreached.shows.toInRange rfl hrun).1
      have hle : position ≤ t.cursor.position := honward.position_le
      cases verdict with
      | accepted value =>
        rcases Nat.lt_or_eq_of_le hle with hmoved | hstuck
        · obtain ⟨values, ending, hrest⟩ := ih _ (by omega) t.cursor.position rfl
          exact ⟨_, _, .value hlt ⟨fuel, hrun⟩ hmoved hrest⟩
        · exact ⟨_, _, .stuck hlt ⟨fuel, hrun⟩ hstuck.symm⟩
      | undecided =>
        -- The whole input is there, and the rule has to settle on it.
        cases hsettled
      | rejected cause => exact ⟨_, _, .failed hlt ⟨fuel, hrun⟩⟩
    · exact ⟨_, _, .exhausted hge⟩

end Sound

end StreamGrammar.Stream
