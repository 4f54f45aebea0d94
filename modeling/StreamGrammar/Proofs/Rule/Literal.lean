import StreamGrammar.Proofs.Parser.Reads
import StreamGrammar.Proofs.Text.Ascii
import StreamGrammar.Rule.Core
import StreamGrammar.Rule.Parser

/-!
# Quoted texts

A quoted text is found where the unread bytes stand for its characters one by one, in the same case
or, if case does not matter, in either (`Literal.Stands`). It decides as soon as it can
(`Rule.literal_decides`): the first byte that does not fit is a mismatch, however few bytes have
arrived, and the text only waits where all of them fit and some are missing. A text makes a rule if
its code points are US-ASCII, and only then.
-/

namespace StreamGrammar

open Input (Cursor)

/-! ## Letters in either case -/

theorem Rule.isAlpha_iff {b : UInt8} : isAlpha b = true ↔
    0x41 ≤ b.toNat ∧ b.toNat ≤ 0x5A ∨ 0x61 ≤ b.toNat ∧ b.toNat ≤ 0x7A := by
  simp [isAlpha, UInt8.le_iff_toNat_le]

namespace Literal

/-- The bytes are the same letter, one in upper and the other in lower case. -/
def OtherCase (value code : UInt8) : Prop :=
  Rule.isAlpha value = true ∧ Rule.isAlpha code = true ∧
    (value.toNat + 0x20 = code.toNat ∨ code.toNat + 0x20 = value.toNat)

theorem toNat_fold (b : UInt8) : (fold b).toNat =
    if 0x41 ≤ b.toNat ∧ b.toNat ≤ 0x5A then b.toNat + 0x20 else b.toNat := by
  unfold fold
  simp only [UInt8.le_iff_toNat_le, UInt8.reduceToNat]
  split
  · have hstep : (0x20 : UInt8).toNat = 0x20 := rfl
    rw [UInt8.toNat_add, hstep, Nat.mod_eq_of_lt (by omega)]
  · rfl

theorem fold_eq_fold_iff {value code : UInt8} :
    fold value = fold code ↔ value = code ∨ OtherCase value code := by
  unfold OtherCase
  rw [← UInt8.toNat_inj, ← UInt8.toNat_inj, toNat_fold, toNat_fold, Rule.isAlpha_iff,
    Rule.isAlpha_iff]
  split <;> split <;> omega

variable (l : Literal)

/-- A byte of the input stands for a character of the text. -/
def Stands (value code : UInt8) : Prop :=
  value = code ∨ l.caseSensitive = false ∧ OtherCase value code

theorem agrees_iff {value code : UInt8} : l.agrees value code = true ↔ l.Stands value code := by
  unfold agrees Stands
  cases l.caseSensitive with
  | true => simp
  | false => simp [fold_eq_fold_iff]

/-! ## Bytes against a text -/

/-- The bytes begin with ones that stand for these characters. -/
def Heads (codes bytes : List UInt8) : Prop :=
  codes.length ≤ bytes.length ∧ List.Forall₂ l.Stands (bytes.take codes.length) codes

/-- The bytes stand for the first of these characters, and there are none for the last ones. -/
def Cut (codes bytes : List UInt8) : Prop :=
  bytes.length < codes.length ∧ List.Forall₂ l.Stands bytes (codes.take bytes.length)

variable {l} {value code : UInt8} {bytes codes : List UInt8}

theorem heads_cons_iff :
    l.Heads (code :: codes) (value :: bytes) ↔ l.Stands value code ∧ l.Heads codes bytes := by
  simp only [Heads, List.length_cons, List.take_succ_cons, List.forall₂_cons,
    Nat.add_le_add_iff_right]
  exact and_left_comm

theorem cut_cons_iff :
    l.Cut (code :: codes) (value :: bytes) ↔ l.Stands value code ∧ l.Cut codes bytes := by
  simp only [Cut, List.length_cons, List.take_succ_cons, List.forall₂_cons,
    Nat.add_lt_add_iff_right]
  exact and_left_comm

theorem Heads.not_cut (h : l.Heads codes bytes) : ¬ l.Cut codes bytes :=
  fun hcut => Nat.not_lt.mpr h.1 hcut.1

end Literal

/-! ## Running -/

namespace Parser

variable {σ : Type} {l : Literal} {c : Cursor} {input : List UInt8}

/-- By induction on the characters: the first byte that is missing or differs decides. -/
theorem comparison_cases (hc : c.Shows input) (codes : List UInt8) (ahead : Nat) :
    let bytes := input.drop (c.position + ahead)
    (l.Heads codes bytes ∧ comparison l c codes ahead = .accepted ()) ∨
    (l.Cut codes bytes ∧ comparison l c codes ahead = missed l.expected c) ∨
    (¬ l.Heads codes bytes ∧ ¬ l.Cut codes bytes ∧
      comparison l c codes ahead = .rejected ⟨l.expected, c.position⟩) := by
  intro bytes
  induction codes generalizing ahead with
  | nil => exact .inl ⟨⟨Nat.zero_le _, .nil⟩, rfl⟩
  | cons code codes ih =>
    have hpeek : c.peek ahead = bytes[0]? := by
      rw [List.getElem?_drop]
      exact hc.peek_eq ahead
    have hrest : input.drop (c.position + (ahead + 1)) = bytes.drop 1 := by
      rw [List.drop_drop, Nat.add_assoc]
    have hnext := ih (ahead + 1)
    unfold comparison
    rw [hpeek]
    rw [hrest] at hnext
    cases hbytes : bytes with
    | nil => exact .inr (.inl ⟨⟨Nat.zero_lt_succ _, .nil⟩, rfl⟩)
    | cons value rest =>
      rw [hbytes, List.drop_one, List.tail_cons] at hnext
      simp only [List.getElem?_cons_zero, Literal.heads_cons_iff, Literal.cut_cons_iff]
      by_cases hstands : l.Stands value code
      · rw [if_pos (l.agrees_iff.mpr hstands)]
        simpa only [hstands, true_and] using hnext
      · rw [if_neg (mt l.agrees_iff.mp hstands)]
        exact .inr (.inr ⟨fun h => hstands h.1, fun h => hstands h.1, rfl⟩)

/-- A run on a text does one of three things, by what the unread bytes are to it. -/
theorem run_literal_cases {s : Scanner σ} (hs : s.cursor.Shows input) (l : Literal) :
    let unread := input.drop s.cursor.position
    (l.Heads l.codes unread ∧ (literal l).run s =
      .ok (.accepted (Text.latin (unread.take l.codes.length))) { s with
        cursor := { s.cursor with position := s.cursor.position + l.codes.length } }) ∨
    (l.Cut l.codes unread ∧ (literal l).run s = .ok (missed l.expected s.cursor) s) ∨
    (¬ l.Heads l.codes unread ∧ ¬ l.Cut l.codes unread ∧
      (literal l).run s = .ok (.rejected ⟨l.expected, s.cursor.position⟩) s) := by
  intro unread
  rw [run_literal hs.toInRange]
  rcases comparison_cases hs l.codes 0 with
    ⟨h, hcomparison⟩ | ⟨h, hcomparison⟩ | ⟨h, h', hcomparison⟩
  · refine .inl ⟨h, ?_⟩
    have hstop := add_le_stop_of_comparison hs.le_stop hcomparison
    have hslice : s.cursor.slice s.cursor.position (s.cursor.position + l.codes.length : Nat) = _ :=
      hs.slice_onward (Cursor.onward_add hs.toInRange hstop)
    rw [hcomparison, hslice, Nat.add_sub_cancel_left]
  · refine .inr (.inl ⟨h, ?_⟩)
    rw [hcomparison]
    unfold missed
    cases s.cursor.ended <;> rfl
  · refine .inr (.inr ⟨h, h', ?_⟩)
    rw [hcomparison]

end Parser

/-! ## Building -/

namespace Text

/-- The number of a code point. -/
def Scalar.code : Scalar → Nat
  | char c => c.toNat
  | lone unit => unit.toNat

theorem code_single (u : UInt16) : (single u).code = u.toNat := by
  cases h : single u with
  | char c => exact toNat_of_single h
  | lone unit =>
    unfold single at h
    split at h
    · obtain rfl := Scalar.lone.inj h
      rfl
    · cases h

/-- By the pairs of a text: half of a pair is as little US-ASCII as the whole. -/
theorem forall_lt_iff_forall_code_lt (text : Units) :
    (∀ u ∈ text, u < 0x80) ↔ ∀ scalar ∈ scalars text, scalar.code < 0x80 := by
  have hsingle (u : UInt16) : u < 0x80 ↔ (single u).code < 0x80 := by
    rw [code_single, UInt16.lt_iff_toNat_lt]
    rfl
  induction text using scalars.induct with
  | case1 => simp [scalars]
  | case2 u => simp [scalars, hsingle u]
  | case3 u v rest hpair ih =>
    have hhigh : isHigh u = true := (Bool.and_eq_true_iff.mp hpair).1
    obtain ⟨scalar, rest', hscalars, hwide⟩ := scalars_of_high hhigh (v :: rest)
    rw [hscalars]
    rw [scalars, if_pos hpair] at hscalars
    obtain ⟨rfl, -⟩ := List.cons.inj hscalars
    constructor
    · intro h
      have hlt := UInt16.lt_iff_toNat_lt.mp (h u List.mem_cons_self)
      simp only [isHigh, Bool.and_eq_true, decide_eq_true_eq, UInt16.le_iff_toNat_le,
        UInt16.reduceToNat] at hhigh hlt
      omega
    · exact fun h => absurd (h _ List.mem_cons_self) (Nat.not_lt.mpr (hwide _ rfl))
  | case4 u v rest hpair ih =>
    rw [scalars, if_neg hpair]
    have hcons := List.forall_mem_cons (p := fun scalar : Scalar => scalar.code < 0x80)
      (a := single u) (l := scalars (v :: rest))
    exact List.forall_mem_cons.trans ((and_congr (hsingle u) ih).trans hcons.symm)

end Text

theorem Literal.ofUnits_eq_ok {text : Text.Units} {caseSensitive : Bool} {l : Literal}
    (h : ofUnits text caseSensitive = .ok l) :
    l.codes.map (·.toUInt16) = text ∧ l.caseSensitive = caseSensitive := by
  unfold ofUnits at h
  split at h
  · next hascii =>
    obtain rfl := Except.ok.inj h
    refine ⟨?_, rfl⟩
    rw [List.map_map]
    refine (List.map_congr_left fun u hu => ?_).trans (List.map_id text)
    have hlt := UInt16.lt_iff_toNat_lt.mp (of_decide_eq_true (List.all_eq_true.mp hascii u hu))
    have hbyte : (0x80 : UInt16).toNat = 0x80 := rfl
    rw [Function.comp_apply, ← UInt16.toNat_inj, UInt8.toNat_toUInt16, UInt16.toNat_toUInt8, id_eq]
    exact Nat.mod_eq_of_lt (by omega)
  · cases h

theorem Literal.ofUnits_eq_error_iff {text : Text.Units} {caseSensitive : Bool} :
    (∃ error, ofUnits text caseSensitive = .error error) ↔
      ∃ scalar ∈ Text.scalars text, 0x7F < scalar.code := by
  have hascii : text.all (· < 0x80) = true ↔ ∀ scalar ∈ Text.scalars text, scalar.code < 0x80 := by
    rw [← Text.forall_lt_iff_forall_code_lt, List.all_eq_true]
    simp only [decide_eq_true_eq]
  unfold ofUnits
  split
  · next h =>
    refine ⟨nofun, ?_⟩
    rintro ⟨scalar, hscalar, hwide⟩
    exact absurd (hascii.mp h scalar hscalar) (Nat.not_lt.mpr hwide)
  · next h =>
    rw [hascii] at h
    push Not at h
    exact ⟨fun _ => h, fun _ => ⟨_, rfl⟩⟩

namespace Rule

/-- A quoted text is found, waits or is missed, by what the unread bytes are to it. -/
theorem run_literal_iff (refs : String → Rule.Parser) (fuel : Nat) {input : List UInt8}
    {s : Scanner Memory} (hs : s.cursor.Shows input) (l : Literal) :
    let unread := input.drop s.cursor.position
    let run := ((literal l).parser refs fuel).run s
    (∀ value t, run = .ok (.accepted value) t ↔
      l.Heads l.codes unread ∧ value = .text (Text.latin (unread.take l.codes.length)) ∧
        t = { s with cursor :=
          { s.cursor with position := s.cursor.position + l.codes.length } }) ∧
    (∀ t, run = .ok .undecided t ↔ s.cursor.ended = false ∧ l.Cut l.codes unread ∧ t = s) ∧
    ∀ error t, run = .ok (.rejected error) t ↔
      ¬ l.Heads l.codes unread ∧ ¬ (s.cursor.ended = false ∧ l.Cut l.codes unread) ∧
        error = .mismatch ⟨l.expected, s.cursor.position⟩ ∧ t = s := by
  intro unread run
  have hrun : run = match (Parser.literal l).run s with
      | .ok verdict t => .ok ((verdict.map Datum.text).mapError Datum.mismatch) t
      | .error halt t => .error halt t := by
    change ((literal l).parser refs fuel).run s = _
    rw [parser_literal, Parser.run_mapError, Parser.run_map]
    cases (Parser.literal l).run s <;> rfl
  -- Each of the three answers is given in one case, and is another one in the others.
  have hok {verdict verdict' : Verdict Datum Datum} {t t' : Scanner Memory} :
      (EStateM.Result.ok verdict t : EStateM.Result Halt _ _) = .ok verdict' t' ↔
        verdict = verdict' ∧ t' = t := by
    rw [EStateM.Result.ok.injEq, eq_comm (a := t)]
  rcases Parser.run_literal_cases hs l with ⟨h, hliteral⟩ | ⟨h, hliteral⟩ | ⟨h, h', hliteral⟩
  · have hcut := h.not_cut
    rw [hrun, hliteral]
    simp [hok, Verdict.map, Verdict.mapError, eq_comm (a := Datum.text _), unread, h, hcut]
  · have hheads : ¬ l.Heads l.codes unread := fun hheads => hheads.not_cut h
    rw [hrun, hliteral]
    unfold Parser.missed
    cases hended : s.cursor.ended with
    | true =>
      simp [hok, Verdict.map, Verdict.mapError, eq_comm (a := Datum.mismatch _), hheads]
    | false => simp [hok, Verdict.map, Verdict.mapError, hheads, unread, h]
  · rw [hrun, hliteral]
    simp [hok, Verdict.map, Verdict.mapError, eq_comm (a := Datum.mismatch _), unread, h, h']

/-- A quoted text decides as early as it can. -/
theorem literal_decides (text : Text.Units) (caseSensitive : Bool) :
    ((∃ error, ofText text caseSensitive = .error error) ↔
      ∃ scalar ∈ Text.scalars text, 0x7F < scalar.code) ∧
    (∀ error, ofText text caseSensitive = .error error → error.name = "RangeError") ∧
    ∀ rule, ofText text caseSensitive = .ok rule →
      ∃ l : Literal, rule = literal l ∧ l.codes.map (·.toUInt16) = text ∧
        l.caseSensitive = caseSensitive ∧
        ∀ (refs : String → Rule.Parser) (fuel : Nat) (input : List UInt8) (s : Scanner Memory),
          s.cursor.Reached input →
          let unread := input.drop s.cursor.position
          let run := (rule.parser refs fuel).run s
          (∀ value t, run = .ok (.accepted value) t ↔
            l.Heads l.codes unread ∧ value = .text (Text.latin (unread.take l.codes.length)) ∧
              t = { s with cursor :=
                { s.cursor with position := s.cursor.position + l.codes.length } }) ∧
          (∀ t, run = .ok .undecided t ↔
            s.cursor.ended = false ∧ l.Cut l.codes unread ∧ t = s) ∧
          ∀ error t, run = .ok (.rejected error) t ↔
            ¬ l.Heads l.codes unread ∧ ¬ (s.cursor.ended = false ∧ l.Cut l.codes unread) ∧
              error = .mismatch ⟨l.expected, s.cursor.position⟩ ∧ t = s := by
  unfold ofText
  refine ⟨?_, fun error _ => rfl, fun rule hrule => ?_⟩
  · rw [← @Literal.ofUnits_eq_error_iff text caseSensitive]
    cases Literal.ofUnits text caseSensitive <;> simp
  cases hliteral : Literal.ofUnits text caseSensitive with
  | error error =>
    rw [hliteral] at hrule
    cases hrule
  | ok l =>
    rw [hliteral] at hrule
    obtain rfl := Except.ok.inj hrule
    obtain ⟨hcodes, hcase⟩ := Literal.ofUnits_eq_ok hliteral
    refine ⟨l, rfl, hcodes, hcase, fun refs fuel input s hs => ?_⟩
    exact run_literal_iff refs fuel hs.shows l

/-- The text "a{" in either case: "A{" is found, "A" may become so, and "A[" is missed although the
numbers of both brackets differ as those of letters in the two cases do. -/
theorem literal_decides_brace :
    let scanner (bytes : Array UInt8) : Scanner Memory :=
      { cursor := { buffer := Input.Buffer.append {} bytes }, memory := #[] }
    ∃ rule, ofText [0x61, 0x7B] false = .ok rule ∧
      ∀ (refs : String → Rule.Parser) (fuel : Nat),
        (∃ t, (rule.parser refs fuel).run (scanner #[0x41, 0x7B]) =
          .ok (.accepted (.text (Text.latin [0x41, 0x7B]))) t) ∧
        (rule.parser refs fuel).run (scanner #[0x41]) = .ok .undecided (scanner #[0x41]) ∧
        ∃ error, (rule.parser refs fuel).run (scanner #[0x41, 0x5B]) =
          .ok (.rejected error) (scanner #[0x41, 0x5B]) := by
  intro scanner
  let l : Literal := ⟨[0x61, 0x7B], false, by decide⟩
  have hreached (bytes : Array UInt8) : (scanner bytes).cursor.Reached ([] ++ bytes.toList) :=
    .append .new rfl
  have hletter : l.Stands 0x41 0x61 := .inr ⟨rfl, by decide, by decide, .inl rfl⟩
  have hbracket : ¬ l.Stands 0x5B 0x7B := by
    rintro (h | ⟨-, h, -, -⟩)
    · exact absurd h (by decide)
    · exact absurd h (by decide)
  obtain ⟨l', hl, -, -, hruns⟩ := (literal_decides [0x61, 0x7B] false).2.2 (literal l) rfl
  obtain rfl := Rule.literal.inj hl
  have hheads : l.Heads l.codes [0x41, 0x7B] :=
    ⟨Nat.le_refl 2, .cons hletter (.cons (.inl rfl) .nil)⟩
  have hcut : l.Cut l.codes [0x41] := ⟨Nat.lt_succ_self 1, .cons hletter .nil⟩
  have hmissed : ¬ l.Heads l.codes [0x41, 0x5B] := by
    rintro ⟨-, _ | ⟨-, _ | ⟨hstands, -⟩⟩⟩
    exact hbracket hstands
  have hfull : ¬ l.Cut l.codes [0x41, 0x5B] := fun h => Nat.lt_irrefl 2 h.1
  refine ⟨literal l, rfl, fun refs fuel => ?_⟩
  have hfound := ((hruns refs fuel _ _ (hreached #[0x41, 0x7B])).1 _ _).mpr ⟨hheads, rfl, rfl⟩
  have hwaits := ((hruns refs fuel _ _ (hreached #[0x41])).2.1 _).mpr ⟨rfl, hcut, rfl⟩
  have hrejected := ((hruns refs fuel _ _ (hreached #[0x41, 0x5B])).2.2 _ _).mpr
    ⟨hmissed, fun h => hfull h.2, rfl, rfl⟩
  exact ⟨⟨_, hfound⟩, hwaits, ⟨_, hrejected⟩⟩

end Rule

end StreamGrammar
