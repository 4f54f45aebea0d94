import StreamGrammar.Text.Latin
import StreamGrammar.Text.Units
import Mathlib.Data.List.Basic

/-!
# US-ASCII in UTF-8

A US-ASCII unit is encoded as the byte with its number, and no other text has a byte like this in
its encoding: all bytes of other characters, and of the replacement character that stands for a
surrogate, are `0x80` or more. So what an encoding begins with in US-ASCII is what the text begins
with (`utf8_eq_append_iff`).
-/

namespace StreamGrammar.Text

/-! ## Single characters -/

theorem toNat_ofNat {n : Nat} (h : n.isValidChar) : (Char.ofNat n).toNat = n := by
  unfold Char.ofNat
  rw [dif_pos h]
  rfl

/-- A US-ASCII character is encoded as the byte with its number. -/
theorem Scalar.utf8_of_lt {c : Char} (h : c.toNat < 0x80) :
    (Scalar.char c).utf8 = [c.toNat.toUInt8] := if_pos (Nat.le_of_lt_succ h)

/-- The encoding of anything else begins with a byte that is not US-ASCII. -/
theorem Scalar.exists_lead {scalar : Scalar} (h : ∀ c, scalar = .char c → 0x80 ≤ c.toNat) :
    ∃ b rest, scalar.utf8 = b :: rest ∧ 0x80 ≤ b := by
  cases scalar with
  | lone unit => exact ⟨0xEF, _, rfl, by decide⟩
  | char c =>
    have hwide : ¬ c.val.toNat ≤ 0x7F := Nat.not_le.mpr (h c rfl)
    have hlead (n m : Nat) (hn : n < 64) (hm : 0x80 ≤ m ∧ m ≤ 0xC0 ∨ m = 0xE0 ∨ m = 0xF0)
        (hsum : n + m < 0x100) : 0x80 ≤ UInt8.ofNat (n + m) := by
      rw [UInt8.le_iff_toNat_le, UInt8.toNat_ofNat', Nat.mod_eq_of_lt hsum]
      show 0x80 ≤ n + m
      omega
    unfold Scalar.utf8 String.utf8EncodeChar
    dsimp only
    rw [if_neg hwide]
    -- The first of two, three or four bytes.
    split
    · exact ⟨_, _, rfl, hlead _ _ (by omega) (by omega) (by omega)⟩
    · split
      · exact ⟨_, _, rfl, hlead _ _ (by omega) (by omega) (by omega)⟩
      · exact ⟨_, _, rfl, hlead _ _ (by omega) (by omega) (by omega)⟩

/-! ## Single units -/

/-- A unit that does not begin a pair stands for itself. -/
theorem scalars_cons {u : UInt16} (hu : isHigh u = false) (text : Units) :
    scalars (u :: text) = single u :: scalars text := by
  cases text with
  | nil => rfl
  | cons v rest => rw [scalars, hu, Bool.false_and, if_neg Bool.false_ne_true]

/-- A unit that is not a surrogate is the character with its number. -/
theorem toNat_of_single {u : UInt16} {c : Char} (h : single u = .char c) : c.toNat = u.toNat := by
  unfold single at h
  split at h
  · cases h
  · next hsurrogate =>
    obtain rfl := Scalar.char.inj h
    have hlt := u.toNat_lt
    simp only [isHigh, isLow, Bool.or_eq_true, Bool.and_eq_true, decide_eq_true_eq,
      UInt16.le_iff_toNat_le, UInt16.lt_iff_toNat_lt, UInt16.reduceToNat] at hsurrogate
    refine toNat_ofNat ?_
    unfold Nat.isValidChar
    omega

/-- A US-ASCII unit is encoded as the byte with its number. -/
theorem utf8_single {b : UInt8} (hb : b < 0x80) :
    isHigh b.toUInt16 = false ∧ (single b.toUInt16).utf8 = [b] := by
  have hb' : b.toNat < 0x80 := UInt8.lt_iff_toNat_lt.mp hb
  have hhigh : isHigh b.toUInt16 = false := by
    simp only [isHigh, Bool.and_eq_false_iff, decide_eq_false_iff_not, UInt16.le_iff_toNat_le,
      UInt16.reduceToNat, UInt8.toNat_toUInt16]
    omega
  have hlow : isLow b.toUInt16 = false := by
    simp only [isLow, Bool.and_eq_false_iff, decide_eq_false_iff_not, UInt16.le_iff_toNat_le,
      UInt16.reduceToNat, UInt8.toNat_toUInt16]
    omega
  have hsingle : single b.toUInt16 = .char (Char.ofNat b.toNat) := by
    unfold single
    rw [hhigh, hlow, Bool.or_false, if_neg Bool.false_ne_true, UInt8.toNat_toUInt16]
  have hchar : (Char.ofNat b.toNat).toNat = b.toNat := toNat_ofNat (.inl (by omega))
  refine ⟨hhigh, ?_⟩
  rw [hsingle]
  rw [Scalar.utf8_of_lt (hchar.symm ▸ hb'), hchar]
  exact congrArg (fun b : UInt8 => [b]) UInt8.ofNat_toNat

/-- What a unit stands for that begins a pair, alone or with its partner, is not US-ASCII. -/
theorem scalars_of_high {u : UInt16} (hu : isHigh u = true) (text : Units) :
    ∃ scalar rest, scalars (u :: text) = scalar :: rest ∧
      ∀ c, scalar = .char c → 0x80 ≤ c.toNat := by
  have hlone : single u = .lone u := by
    unfold single
    rw [hu, Bool.true_or, if_pos rfl]
  cases text with
  | nil => exact ⟨_, _, rfl, by rw [hlone]; nofun⟩
  | cons v rest =>
    rw [scalars]
    split
    · next hpair =>
      refine ⟨_, _, rfl, fun c hc => ?_⟩
      obtain rfl := Scalar.char.inj hc
      have hlow : isLow v = true := (Bool.and_eq_true_iff.mp hpair).2
      unfold isHigh at hu
      unfold isLow at hlow
      simp only [Bool.and_eq_true, decide_eq_true_eq, UInt16.le_iff_toNat_le,
        UInt16.lt_iff_toNat_lt, UInt16.reduceToNat] at hu hlow
      have hvalid : (0x10000 + (u.toNat - 0xD800) * 0x400 + (v.toNat - 0xDC00)).isValidChar := by
        unfold Nat.isValidChar
        omega
      have hpaired : (paired u v).toNat =
          0x10000 + (u.toNat - 0xD800) * 0x400 + (v.toNat - 0xDC00) := toNat_ofNat hvalid
      omega
    · exact ⟨_, _, rfl, by rw [hlone]; nofun⟩

/-- A text begins with a US-ASCII unit if its encoding begins with the byte of that number. -/
theorem utf8_eq_cons_iff {text : Units} {b : UInt8} {bytes : List UInt8} (hb : b < 0x80) :
    utf8 text = b :: bytes ↔ ∃ rest, text = b.toUInt16 :: rest ∧ utf8 rest = bytes := by
  have hb' : b.toNat < 0x80 := UInt8.lt_iff_toNat_lt.mp hb
  constructor
  · intro h
    -- The encoding would begin with another byte if the first scalar were not US-ASCII.
    have hascii {scalar : Scalar} {scalars : List Scalar}
        (hbytes : (scalar :: scalars).flatMap Scalar.utf8 = b :: bytes) :
        ∃ c, scalar = .char c ∧ c.toNat < 0x80 := by
      by_contra hnone
      have hwide (c : Char) (hc : scalar = .char c) : 0x80 ≤ c.toNat :=
        Nat.not_lt.mp fun hlt => hnone ⟨c, hc, hlt⟩
      obtain ⟨lead, rest, hlead, hle⟩ := Scalar.exists_lead hwide
      rw [List.flatMap_cons, hlead] at hbytes
      obtain ⟨rfl, -⟩ := List.cons.inj hbytes
      exact absurd hb (UInt8.not_lt.mpr hle)
    cases text with
    | nil => cases h
    | cons u rest =>
      unfold utf8 at h
      cases hu : isHigh u with
      | true =>
        obtain ⟨scalar, scalars', hscalars, hwide⟩ := scalars_of_high hu rest
        rw [hscalars] at h
        obtain ⟨c, hc, hlt⟩ := hascii h
        exact absurd (hwide c hc) (Nat.not_le.mpr hlt)
      | false =>
        rw [scalars_cons hu] at h
        obtain ⟨c, hc, hlt⟩ := hascii h
        rw [List.flatMap_cons, hc, Scalar.utf8_of_lt hlt] at h
        obtain ⟨rfl, hrest⟩ := List.cons.inj h
        have hu : u = c.toNat.toUInt8.toUInt16 := by
          rw [← UInt16.toNat_inj, UInt8.toNat_toUInt16, ← toNat_of_single hc]
          exact (Nat.mod_eq_of_lt (by omega)).symm
        exact ⟨rest, congrArg (· :: rest) hu, hrest⟩
  · rintro ⟨rest, rfl, rfl⟩
    obtain ⟨hhigh, hsingle⟩ := utf8_single hb
    unfold utf8
    rw [scalars_cons hhigh, List.flatMap_cons, hsingle]
    rfl

/-! ## Whole texts -/

/-- Every encoding has a byte. -/
theorem Scalar.utf8_ne_nil (scalar : Scalar) : scalar.utf8 ≠ [] := by
  intro hnil
  by_cases hwide : ∀ c, scalar = .char c → 0x80 ≤ c.toNat
  · obtain ⟨b, rest, hbytes, -⟩ := Scalar.exists_lead hwide
    rw [hbytes] at hnil
    cases hnil
  · obtain ⟨c, rfl, hlt⟩ : ∃ c, scalar = .char c ∧ c.toNat < 0x80 := by simpa using hwide
    rw [Scalar.utf8_of_lt hlt] at hnil
    cases hnil

theorem utf8_eq_nil_iff {text : Units} : utf8 text = [] ↔ text = [] := by
  constructor
  · intro h
    cases text with
    | nil => rfl
    | cons u rest =>
      obtain ⟨scalar, scalars', hscalars⟩ :
          ∃ scalar rest', scalars (u :: rest) = scalar :: rest' := by
        cases hu : isHigh u with
        | true =>
          obtain ⟨scalar, scalars', hscalars, -⟩ := scalars_of_high hu rest
          exact ⟨scalar, scalars', hscalars⟩
        | false => exact ⟨_, _, scalars_cons hu rest⟩
      unfold utf8 at h
      rw [hscalars, List.flatMap_cons] at h
      exact absurd (List.append_eq_nil_iff.mp h).1 scalar.utf8_ne_nil
  · rintro rfl
    rfl

/-- A text begins with a US-ASCII word if its encoding begins with the bytes of the word. -/
theorem utf8_eq_append_iff {text : Units} {word bytes : List UInt8} (hword : ∀ b ∈ word, b < 0x80) :
    utf8 text = word ++ bytes ↔
      ∃ rest, text = word.map (·.toUInt16) ++ rest ∧ utf8 rest = bytes := by
  induction word generalizing text with
  | nil => simp
  | cons b word ih =>
    obtain ⟨hb, hword⟩ := List.forall_mem_cons.mp hword
    rw [List.cons_append, utf8_eq_cons_iff hb]
    constructor
    · rintro ⟨tail, rfl, htail⟩
      obtain ⟨rest, rfl, hrest⟩ := (ih hword).mp htail
      exact ⟨rest, rfl, hrest⟩
    · rintro ⟨rest, rfl, hrest⟩
      exact ⟨_, rfl, (ih hword).mpr ⟨rest, rfl, hrest⟩⟩

/-- The text of which the encoding is a US-ASCII word. -/
theorem utf8_eq_iff {text : Units} {word : List UInt8} (hword : ∀ b ∈ word, b < 0x80) :
    utf8 text = word ↔ text = word.map (·.toUInt16) := by
  have happend : utf8 text = word ++ [] ↔ _ := utf8_eq_append_iff hword
  simp only [List.append_nil, utf8_eq_nil_iff] at happend
  rw [happend]
  constructor
  · rintro ⟨rest, rfl, rfl⟩
    rw [List.append_nil]
  · rintro rfl
    exact ⟨[], (List.append_nil _).symm, rfl⟩

/-! ## Strings -/

/-- All characters of the string are US-ASCII. -/
def IsAscii (s : String) : Prop := ∀ c ∈ s.toList, c.toNat < 0x80

/-- Only the characters of the string are looked at, not all that there are. -/
instance (s : String) : Decidable (IsAscii s) :=
  List.decidableBAll (fun c : Char => c.toNat < 0x80) s.toList

theorem IsAscii.append {s t : String} (hs : IsAscii s) (ht : IsAscii t) : IsAscii (s ++ t) := by
  intro c hc
  rw [String.toList_append, List.mem_append] at hc
  exact hc.elim (hs c) (ht c)

theorem latinChar_toUInt8 {c : Char} (h : c.toNat < 0x80) : latinChar c.toNat.toUInt8 = c := by
  have hbyte : c.toNat.toUInt8.toNat = c.toNat := Nat.mod_eq_of_lt (by omega)
  unfold latinChar
  rw [hbyte, Char.ofNat_toNat]

variable {s : String} (hs : IsAscii s)
include hs

theorem latin_latinBytes : latin (latinBytes s) = s := by
  have hchars : (latinBytes s).map latinChar = s.toList := by
    unfold latinBytes
    rw [List.map_map]
    exact (List.map_congr_left fun c hc => latinChar_toUInt8 (hs c hc)).trans (List.map_id _)
  unfold latin
  rw [hchars, String.ofList_toList]

theorem lt_of_mem_latinBytes : ∀ b ∈ latinBytes s, b < 0x80 := by
  intro b hb
  obtain ⟨c, hc, rfl⟩ := List.mem_map.mp hb
  have hlt := hs c hc
  rw [UInt8.lt_iff_toNat_lt]
  exact Nat.lt_of_le_of_lt (Nat.mod_le _ _) hlt

theorem unitsOf_eq_map : unitsOf s = (latinBytes s).map (·.toUInt16) := by
  have hunits (c : Char) (hc : c ∈ s.toList) : unitsOfChar c = [c.toNat.toUInt8.toUInt16] := by
    have hlt := hs c hc
    have hunit : c.toNat.toUInt16 = c.toNat.toUInt8.toUInt16 := by
      rw [← UInt16.toNat_inj, UInt8.toNat_toUInt16]
      have hbyte : c.toNat.toUInt8.toNat = c.toNat := Nat.mod_eq_of_lt (by omega)
      rw [hbyte]
      exact Nat.mod_eq_of_lt (by omega)
    unfold unitsOfChar
    rw [if_pos (by omega), hunit]
  unfold unitsOf latinBytes
  rw [List.map_map, List.map_eq_flatMap]
  exact List.flatMap_congr hunits

/-- The text of a string, by its encoding. -/
theorem utf8_eq_latinBytes_iff {text : Units} : utf8 text = latinBytes s ↔ text = unitsOf s := by
  rw [utf8_eq_iff (lt_of_mem_latinBytes hs), unitsOf_eq_map hs]

end StreamGrammar.Text
