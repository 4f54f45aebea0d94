import StreamGrammar.Proofs.Parser.Greedy
import StreamGrammar.Rule.Build
import Mathlib

/-!
# Bounded repetition

A repetition is built from two bounds, either of which may be infinite, and building it fails if
they are negative or out of order. What it does then is greedy (`Rule.bounded_greedy`).
-/

namespace StreamGrammar

open Input (Cursor)

/-! ## Building -/

namespace Bound

/-- The place of a bound among the numbers. -/
def value : Bound → WithBot (WithTop Int)
  | negInfinity => ⊥
  | finite n => ((n : WithTop Int) : WithBot (WithTop Int))
  | infinity => ((⊤ : WithTop Int) : WithBot (WithTop Int))

theorem value_finite_lt (m n : Int) : (finite m).value < (finite n).value ↔ m < n :=
  WithBot.coe_lt_coe.trans WithTop.coe_lt_coe

theorem value_finite_lt_infinity (n : Int) : (finite n).value < infinity.value :=
  WithBot.coe_lt_coe.mpr (WithTop.coe_lt_top n)

theorem count?_eq_none_iff (bound : Bound) :
    bound.count? = none ↔ bound.value < (finite 0).value := by
  cases bound with
  | negInfinity => exact ⟨fun _ => WithBot.bot_lt_coe _, fun _ => rfl⟩
  | finite n =>
    rw [value_finite_lt, count?]
    split <;> simp_all
  | infinity => exact ⟨nofun, fun h => absurd h (value_finite_lt_infinity 0).asymm⟩

/-- A count is asked for by its number. -/
theorem count?_eq_some {bound : Bound} {count : Count} (h : bound.count? = some count) :
    (∃ n : Nat, bound = finite n ∧ count = .times n) ∨ bound = infinity ∧ count = .unbounded := by
  cases bound with
  | negInfinity => cases h
  | finite n =>
    rw [count?] at h
    split at h
    · cases h
    · next hn =>
      have hcount : count = .times n.toNat := (Option.some.inj h).symm
      exact .inl ⟨n.toNat, by rw [Int.toNat_of_nonneg (not_lt.mp hn)], hcount⟩
  | infinity => exact .inr ⟨rfl, (Option.some.inj h).symm⟩

/-- Counts are in order if and only if the bounds that they are asked for by are. -/
theorem le_eq_false_iff {min max : Bound} {least greatest : Count}
    (hmin : min.count? = some least) (hmax : max.count? = some greatest) :
    least.le greatest = false ↔ max.value < min.value := by
  rcases count?_eq_some hmin with ⟨m, rfl, rfl⟩ | ⟨rfl, rfl⟩ <;>
    rcases count?_eq_some hmax with ⟨n, rfl, rfl⟩ | ⟨rfl, rfl⟩
  · rw [value_finite_lt, Count.le, decide_eq_false_iff_not]
    omega
  · exact ⟨nofun, fun h => absurd h (value_finite_lt_infinity m).asymm⟩
  · exact ⟨fun _ => value_finite_lt_infinity n, fun _ => rfl⟩
  · exact ⟨nofun, fun h => absurd h (lt_irrefl _)⟩

end Bound

/-- Bounds are refused if and only if they are negative or out of order. -/
theorem Bounds.ofBounds_cases (min max : Bound) :
    (∃ bounds, Bounds.ofBounds min max = .ok bounds ∧ min.count? = some bounds.min ∧
        max.count? = some bounds.max ∧
        ¬ (min.value < (Bound.finite 0).value ∨ max.value < min.value)) ∨
      Bounds.ofBounds min max = .error (.invalidBounds min max) ∧
        (min.value < (Bound.finite 0).value ∨ max.value < min.value) := by
  cases hmin : min.count? with
  | none =>
    have hlt := (Bound.count?_eq_none_iff min).mp hmin
    exact .inr ⟨by rw [Bounds.ofBounds, hmin], .inl hlt⟩
  | some least =>
    have hle : ¬ min.value < (Bound.finite 0).value := fun h => by
      rw [(Bound.count?_eq_none_iff min).mpr h] at hmin
      cases hmin
    cases hmax : max.count? with
    | none =>
      have hlt := (Bound.count?_eq_none_iff max).mp hmax
      refine .inr ⟨by rw [Bounds.ofBounds, hmin, hmax], .inr ?_⟩
      exact hlt.trans_le (not_lt.mp hle)
    | some greatest =>
      have horder := Bound.le_eq_false_iff hmin hmax
      unfold Bounds.ofBounds
      simp only [hmin, hmax]
      split
      · next h =>
        refine .inl ⟨_, rfl, rfl, rfl, ?_⟩
        rintro (hlt | hlt)
        · exact hle hlt
        · rw [horder.mpr hlt] at h
          cases h
      · next h => exact .inr ⟨rfl, .inr (horder.mp (Bool.eq_false_iff.mpr h))⟩

/-- To build a bounded repetition fails if and only if its bounds are negative or out of order. -/
theorem Rule.bounded_cases (min max : Bound) (body : Rule) :
    ((∃ error, Rule.bounded min max body = .error error ∧ error.name = "RangeError") ↔
      min.value < (Bound.finite 0).value ∨ max.value < min.value) ∧
    ∀ rule, Rule.bounded min max body = .ok rule → ∃ bounds, rule = .repetition bounds body ∧
      min.count? = some bounds.min ∧ max.count? = some bounds.max := by
  unfold Rule.bounded
  rcases Bounds.ofBounds_cases min max with ⟨bounds, hbounds, hmin, hmax, hvalid⟩ | ⟨hbounds, h⟩ <;>
    rw [hbounds]
  · refine ⟨⟨?_, fun h => absurd h hvalid⟩, ?_⟩
    · rintro ⟨error, herror, -⟩
      cases herror
    · intro rule hrule
      exact ⟨bounds, (Except.ok.inj hrule).symm, hmin, hmax⟩
  · exact ⟨⟨fun _ => h, fun _ => ⟨_, rfl, rfl⟩⟩, nofun⟩

/-! ## Running -/

/-- A bounded repetition is built unless its bounds are negative or out of order. It is greedy, and
runs its body just as often as the greedy one. -/
theorem Rule.bounded_greedy :
    (∀ (min max : Bound) (body : Rule),
      ((∃ error, Rule.bounded min max body = .error error ∧ error.name = "RangeError") ↔
        min.value < (Bound.finite 0).value ∨ max.value < min.value) ∧
      ∀ rule, Rule.bounded min max body = .ok rule → ∃ bounds, rule = .repetition bounds body ∧
        min.count? = some bounds.min ∧ max.count? = some bounds.max) ∧
    ∀ {σ ε α : Type} {p : Parser σ ε α} {s : Scanner σ}, p.Obeys → s.cursor.InRange →
      ∀ (bounds : Bounds) (fuel : Nat) (verdict : Verdict ε (List α)) (t : Scanner σ),
        ((Parser.repetition fuel bounds p).run s = .ok verdict t ↔
          ∃ outcomes, outcomes.length ≤ fuel ∧ p.Greedy bounds s outcomes verdict t) ∧
        ∀ outcomes, outcomes.length ≤ fuel → p.Greedy bounds s outcomes verdict t →
          (Parser.repetition fuel bounds p.counted).run (s.recording []) =
            .ok verdict (t.recording outcomes) := by
  refine ⟨Rule.bounded_cases, ?_⟩
  intro σ ε α p s hp hs bounds fuel verdict t
  refine ⟨Parser.repetition_ok_iff hp hs, fun outcomes hlength hgreedy => ?_⟩
  have hs' : (s.recording ([] : List (Verdict ε α))).cursor.InRange := hs
  exact (Parser.repetition_ok_iff hp.counted hs').mpr ⟨outcomes, hlength, hgreedy.counted⟩

/-- One to three letters a, on the input "aab": the letter is tried three times and taken twice. -/
theorem Rule.bounded_greedy_letters :
    let s : Scanner Unit := { cursor := .ofBytes #[0x61, 0x61, 0x62], memory := () }
    let p : Parser Unit Mismatch UInt8 := .byte (· == 0x61) "a"
    ∃ t : Scanner Unit, t.cursor.position = 2 ∧
      (Parser.repetition 3 ⟨.times 1, .times 3, rfl⟩ p.counted).run (s.recording []) =
        .ok (.accepted [0x61, 0x61])
          (t.recording [.accepted 0x61, .accepted 0x61, .rejected ⟨"a", 2⟩]) := by
  intro s p
  let bounds : Bounds := ⟨.times 1, .times 3, rfl⟩
  let after (position : Nat) : Scanner Unit :=
    { s.marked with cursor := { s.cursor with position } }
  have hreached (position : Nat) (hle : position ≤ 3) :
      Cursor.Reached [0x61, 0x61, 0x62] (after position).cursor := Cursor.reached_ofBytes_at hle
  have hshows (position : Nat) (hle : position ≤ 3) :
      (after position).cursor.Shows [0x61, 0x61, 0x62] := (hreached position hle).shows
  have hfirst : p.run s.marked = .ok (.accepted 0x61) (after 1) :=
    Parser.run_byte_of_shows (hshows 0 (by decide)) rfl _ "a"
  have hsecond : p.run (after 1) = .ok (.accepted 0x61) (after 2) :=
    Parser.run_byte_of_shows (hshows 1 (by decide)) rfl _ "a"
  have hthird : p.run (after 2) = .ok (.rejected ⟨"a", 2⟩) (after 2) :=
    Parser.run_byte_of_shows (hshows 2 (by decide)) rfl _ "a"
  have hturn : p.InTurn s.marked ([0x61, 0x61].map .accepted) (after 2) :=
    .cons hfirst (.cons hsecond (.nil _))
  have hstops : p.Stops bounds [0x61, 0x61] (after 2) _ _ (after 2) := .enough rfl hthird rfl rfl
  have hmax : bounds.max ≠ .times 0 := by decide
  have hgreedy := Parser.Greedy.some hmax hturn hstops
  have hs : s.cursor.InRange := (hshows 0 (by decide)).toInRange
  refine ⟨after 2, rfl, ?_⟩
  exact (Rule.bounded_greedy.2 (Parser.obeys_byte _ "a") hs _ 3 _ _).2 _ (Nat.le_refl 3) hgreedy

end StreamGrammar
