import StreamGrammar.Header.Rules
import StreamGrammar.Proofs.Parser.Recognizer
import StreamGrammar.Proofs.Text.Ascii

/-!
# Parameter lists as they are written

A parameter is written with its value in quotes or, if it is of digits, without (`Entry`). A list of
them is written with commas between (`written`). What the recognizers make of some bytes is said by
what is written: they take a valid parameter, and all bytes that are taken are those of its text
(`readEntry_iff`, `readEntries_iff`). Since they are functions, no text is written in two ways.
-/

namespace StreamGrammar.Header

open Text (IsAscii latinBytes)

/-! ## Characters -/

/-- A character that may stand between quotes: any that can be printed but the quote itself. -/
def isQuotedChar (c : Char) : Bool := (' ' ≤ c && c ≤ '!') || ('#' ≤ c && c ≤ '~')

/-- The byte of such a character. -/
def isQuotedByte (b : UInt8) : Bool := (0x20 ≤ b && b ≤ 0x21) || (0x23 ≤ b && b ≤ 0x7E)

/-- The characters of a class are US-ASCII, and `test` is passed by their bytes. -/
structure IsClass (ofClass : Char → Bool) (test : UInt8 → Bool) : Prop where
  ascii {c : Char} : ofClass c = true → c.toNat < 0x80
  latinChar (b : UInt8) : ofClass (Text.latinChar b) = test b

/-- What holds of the bytes of all numbers holds of all bytes. -/
theorem forall_byte {P : UInt8 → Prop} (h : ∀ n < 0x100, P (UInt8.ofNat n)) (b : UInt8) : P b := by
  have hb := h b.toNat b.toNat_lt
  rw [UInt8.ofNat_toNat] at hb
  exact hb

/-- A character before a US-ASCII one is one. -/
theorem lt_of_le_ascii {c d : Char} (hcd : c.val ≤ d.val) (hd : d.toNat < 0x80) : c.toNat < 0x80 :=
  Nat.lt_of_le_of_lt (UInt32.le_iff_toNat_le.mp hcd) hd

theorem isClass_isAlpha : IsClass Char.isAlpha Rule.isAlpha := by
  refine ⟨fun {c} hc => ?_, forall_byte (by decide +kernel)⟩
  unfold Char.isAlpha Char.isUpper Char.isLower at hc
  simp only [Bool.or_eq_true, Bool.and_eq_true, decide_eq_true_eq] at hc
  obtain ⟨-, hle⟩ | ⟨-, hle⟩ := hc
  · exact lt_of_le_ascii hle (by decide)
  · exact lt_of_le_ascii hle (by decide)

theorem isClass_isDigit : IsClass Char.isDigit Rule.isDigit := by
  refine ⟨fun {c} hc => ?_, forall_byte (by decide +kernel)⟩
  unfold Char.isDigit at hc
  simp only [Bool.and_eq_true, decide_eq_true_eq] at hc
  exact lt_of_le_ascii hc.2 (by decide)

theorem isClass_isQuotedChar : IsClass isQuotedChar isQuotedByte := by
  refine ⟨fun {c} hc => ?_, forall_byte (by decide +kernel)⟩
  unfold isQuotedChar at hc
  simp only [Bool.or_eq_true, Bool.and_eq_true, decide_eq_true_eq, Char.le_def] at hc
  obtain ⟨-, hle⟩ | ⟨-, hle⟩ := hc
  · exact lt_of_le_ascii hle (by decide)
  · exact lt_of_le_ascii hle (by decide)

/-- A text that is not empty and all characters of which are of a class. -/
def IsWord (ofClass : Char → Bool) (s : String) : Prop :=
  s ≠ "" ∧ ∀ c ∈ s.toList, ofClass c = true

instance (ofClass : Char → Bool) (s : String) : Decidable (IsWord ofClass s) :=
  have := List.decidableBAll (fun c => ofClass c = true) s.toList
  instDecidableAnd

section Words

variable {ofClass : Char → Bool} {test : UInt8 → Bool} (hclass : IsClass ofClass test)
include hclass

theorem IsWord.ascii {s : String} (hs : IsWord ofClass s) : IsAscii s :=
  fun c hc => hclass.ascii (hs.2 c hc)

/-- The words of a class are the texts of bytes that pass its test. -/
theorem isWord_iff {s : String} :
    IsWord ofClass s ↔ ∃ word, word ≠ [] ∧ (∀ b ∈ word, test b = true) ∧ Text.latin word = s := by
  constructor
  · intro hs
    have hlatin := Text.latin_latinBytes (hs.ascii hclass)
    refine ⟨latinBytes s, ?_, fun b hb => ?_, hlatin⟩
    · intro hnil
      rw [hnil] at hlatin
      exact hs.1 hlatin.symm
    · obtain ⟨c, hc, rfl⟩ := List.mem_map.mp hb
      rw [← hclass.latinChar, Text.latinChar_toUInt8 (hs.ascii hclass c hc)]
      exact hs.2 c hc
  · rintro ⟨word, hne, hword, rfl⟩
    have hchars : (Text.latin word).toList = word.map Text.latinChar := String.toList_ofList
    refine ⟨fun hempty => ?_, fun c hc => ?_⟩
    · rw [hempty] at hchars
      exact hne (List.map_eq_nil_iff.mp hchars.symm)
    · rw [hchars] at hc
      obtain ⟨b, hb, rfl⟩ := List.mem_map.mp hc
      rw [hclass.latinChar]
      exact hword b hb

theorem munch_iff {ended : Bool} {bytes rest : List UInt8} {s : String} :
    Recognizer.munch test ended bytes = .accepted (s, rest) ↔
      IsWord ofClass s ∧ rest.dropWhile test = rest ∧ (rest = [] → ended = true) ∧
        bytes = latinBytes s ++ rest := by
  rw [Recognizer.munch_eq_accepted_iff, isWord_iff hclass]
  constructor
  · rintro ⟨word, hne, hword, hrest, hended, rfl, rfl⟩
    rw [Text.latinBytes_latin]
    exact ⟨⟨word, hne, hword, rfl⟩, hrest, hended, rfl⟩
  · rintro ⟨⟨word, hne, hword, rfl⟩, hrest, hended, rfl⟩
    rw [Text.latinBytes_latin]
    exact ⟨word, hne, hword, hrest, hended, rfl, rfl⟩

end Words

/-! ## Parameters -/

/-- A parameter as it is written, with its value in quotes or without. -/
structure Entry where
  /-- The parameter. -/
  param : Param
  /-- Whether the value is in quotes. -/
  quoted : Bool
  deriving DecidableEq

namespace Entry

/-- The characters of which a value may be, in quotes or without. -/
def isValueChar (quoted : Bool) : Char → Bool := if quoted then isQuotedChar else Char.isDigit

/-- The text of a value, in quotes or without. -/
def valueText (quoted : Bool) (value : String) : String :=
  if quoted then "\"" ++ value ++ "\"" else value

/-- The text of a parameter. -/
def text (e : Entry) : String := e.param.key ++ "=" ++ valueText e.quoted e.param.value

/-- The key is of letters. The value is of digits, or of characters that may stand between quotes if
it is in quotes. Neither is empty. -/
structure Valid (e : Entry) : Prop where
  key : IsWord Char.isAlpha e.param.key
  value : IsWord (isValueChar e.quoted) e.param.value

instance (e : Entry) : Decidable e.Valid :=
  decidable_of_iff (IsWord Char.isAlpha e.param.key ∧ IsWord (isValueChar e.quoted) e.param.value)
    ⟨fun h => ⟨h.1, h.2⟩, fun h => ⟨h.key, h.value⟩⟩

end Entry

/-- The text of a list of parameters, with commas between them. -/
def written (entries : List Entry) : String := ",".intercalate (entries.map Entry.text)

/-! ## Recognizers -/

open Recognizer

/-- Takes a value in quotes. -/
def readQuoted : Recognizer String :=
  (byte (· == 0x22)).andThen fun _ => (munch isQuotedByte).andThen fun value =>
    (byte (· == 0x22)).andThen fun _ => accept value

/-- Takes a value, with the word whether it is in quotes. -/
def readValue : Recognizer (Bool × String) :=
  (readQuoted.map (true, ·)).orElse ((munch Rule.isDigit).map (false, ·))

/-- Takes a parameter. -/
def readEntry : Recognizer Entry :=
  (munch Rule.isAlpha).andThen fun key => (byte (· == 0x3D)).andThen fun _ =>
    readValue.map fun (quoted, value) => ⟨⟨key, value⟩, quoted⟩

/-- Takes a list of parameters. -/
def readEntries : Recognizer (List Entry) := readEntry.sepBy (byte (· == 0x2C))

/-- Takes the name of the scheme, a space and a list of parameters. -/
def readBehindScheme : Recognizer (List Entry) :=
  (spelled scheme scheme.codes).andThen fun _ => (byte (· == 0x20)).andThen fun _ => readEntries

variable {ended : Bool} {bytes rest : List UInt8}

/-- The bytes of a string that is put together are those of its parts. -/
theorem latinBytes_append (s t : String) : latinBytes (s ++ t) = latinBytes s ++ latinBytes t := by
  unfold latinBytes
  rw [String.toList_append, List.map_append]

theorem readQuoted_iff {value : String} :
    readQuoted ended bytes = .accepted (value, rest) ↔
      IsWord isQuotedChar value ∧ bytes = latinBytes (Entry.valueText true value) ++ rest := by
  have hbytes : latinBytes (Entry.valueText true value) ++ rest =
      0x22 :: (latinBytes value ++ 0x22 :: rest) := by
    unfold Entry.valueText
    rw [if_pos rfl, latinBytes_append, latinBytes_append]
    simp [latinBytes]
  simp only [readQuoted, andThen_eq_accepted_iff, byte_eq_accepted_iff, beq_iff_eq,
    munch_iff isClass_isQuotedChar, hbytes]
  constructor
  · rintro ⟨_, _, ⟨rfl, rfl⟩, word, _, ⟨hword, -, -, rfl⟩, _, _, ⟨rfl, rfl⟩, haccept⟩
    obtain ⟨rfl, rfl⟩ := Prod.mk.inj (Verdict.accepted.inj haccept)
    exact ⟨hword, rfl⟩
  · rintro ⟨hword, rfl⟩
    -- The quote at the end is not one of the characters before it.
    have hstop : (0x22 :: rest).dropWhile isQuotedByte = 0x22 :: rest :=
      List.dropWhile_cons_of_neg (by decide)
    have hsome : 0x22 :: rest = [] → ended = true := fun hnil => absurd hnil (List.cons_ne_nil _ _)
    exact ⟨0x22, _, ⟨rfl, rfl⟩, value, _, ⟨hword, hstop, hsome, rfl⟩, 0x22, _, ⟨rfl, rfl⟩, rfl⟩

/-- Where digits stand there are no quotes. -/
theorem readQuoted_of_digits {value : String} (hvalue : IsWord Char.isDigit value) :
    readQuoted ended (latinBytes value ++ rest) = .rejected () := by
  obtain ⟨word, hne, hword, rfl⟩ := (isWord_iff isClass_isDigit).mp hvalue
  rw [Text.latinBytes_latin]
  cases word with
  | nil => exact absurd rfl hne
  | cons first others =>
    have hfirst := hword first List.mem_cons_self
    have hquote : ¬ (first == 0x22) = true := by
      intro heq
      rw [beq_iff_eq.mp heq] at hfirst
      cases hfirst
    rw [readQuoted, andThen, List.cons_append, byte, if_neg hquote]

theorem readValue_iff {value : String} {quoted : Bool} :
    readValue ended bytes = .accepted ((quoted, value), rest) ↔
      IsWord (Entry.isValueChar quoted) value ∧
        bytes = latinBytes (Entry.valueText quoted value) ++ rest ∧
        (quoted = false → rest.dropWhile Rule.isDigit = rest ∧ (rest = [] → ended = true)) := by
  simp only [readValue, orElse_eq_accepted_iff, map_eq_accepted_iff, Prod.mk.injEq,
    readQuoted_iff, munch_iff isClass_isDigit]
  cases quoted with
  | true => simp [Entry.isValueChar]
  | false =>
    constructor
    · rintro (⟨_, -, hquoted, -⟩ | ⟨-, _, ⟨hword, hstop, hended, rfl⟩, -, rfl⟩)
      · cases hquoted
      · exact ⟨hword, rfl, fun _ => ⟨hstop, hended⟩⟩
    · rintro ⟨hword, rfl, hrest⟩
      obtain ⟨hstop, hended⟩ := hrest rfl
      refine .inr ⟨?_, value, ⟨hword, hstop, hended, rfl⟩, rfl, rfl⟩
      exact map_eq_rejected_iff.mpr (readQuoted_of_digits hword)

theorem readEntry_iff {e : Entry} :
    readEntry ended bytes = .accepted (e, rest) ↔
      e.Valid ∧ bytes = latinBytes e.text ++ rest ∧
        (e.quoted = false → rest.dropWhile Rule.isDigit = rest ∧ (rest = [] → ended = true)) := by
  simp only [readEntry, andThen_eq_accepted_iff, byte_eq_accepted_iff, beq_iff_eq,
    munch_iff isClass_isAlpha, map_eq_accepted_iff, Prod.exists, readValue_iff]
  obtain ⟨⟨key, value⟩, quoted⟩ := e
  have hbytes : latinBytes (Entry.text ⟨⟨key, value⟩, quoted⟩) ++ rest =
      latinBytes key ++ 0x3D :: (latinBytes (Entry.valueText quoted value) ++ rest) := by
    unfold Entry.text
    rw [latinBytes_append, latinBytes_append]
    simp [latinBytes]
  rw [hbytes]
  constructor
  · rintro ⟨_, _, ⟨hkey, -, -, rfl⟩, _, _, ⟨rfl, rfl⟩, _, _, ⟨hvalue, rfl, hrest⟩, heq⟩
    cases heq
    exact ⟨⟨hkey, hvalue⟩, rfl, hrest⟩
  · rintro ⟨⟨hkey, hvalue⟩, rfl, hrest⟩
    -- An equals sign is not a letter.
    have hstop (others : List UInt8) : (0x3D :: others).dropWhile Rule.isAlpha = 0x3D :: others :=
      List.dropWhile_cons_of_neg (by decide)
    exact ⟨key, _, ⟨hkey, hstop _, fun hnil => absurd hnil (List.cons_ne_nil _ _), rfl⟩, 0x3D, _,
      ⟨rfl, rfl⟩, quoted, value, ⟨hvalue, rfl, hrest⟩, rfl⟩

theorem takes_readEntry : readEntry.Takes 0 := by
  intro ended bytes rest e h
  obtain ⟨-, rfl, -⟩ := readEntry_iff.mp h
  rw [List.length_append]
  exact Nat.le_add_left _ _

/-- The bytes of parameters each of which has a comma before it. -/
def tailBytes (entries : List Entry) : List UInt8 :=
  entries.flatMap fun e => 0x2C :: latinBytes e.text

theorem latinBytes_written (e : Entry) (others : List Entry) :
    latinBytes (written (e :: others)) = latinBytes e.text ++ tailBytes others := by
  unfold written
  induction others generalizing e with
  | nil => simp [tailBytes]
  | cons next others ih =>
    have hnext := ih next
    simp only [latinBytes, tailBytes, String.toList_intercalate, List.map_cons,
      List.intercalate_cons_cons, List.map_append, List.flatMap_cons] at hnext ⊢
    rw [hnext]
    simp

/-- No digit comes where a parameter may end. -/
theorem dropWhile_tailBytes (entries : List Entry) :
    (tailBytes entries).dropWhile Rule.isDigit = tailBytes entries := by
  cases entries with
  | nil => rfl
  | cons e others => exact List.dropWhile_cons_of_neg (by decide)

/-- By induction on the parameters: each one has a comma before it, and the last one ends where the
bytes do. -/
theorem many_readEntry_iff {entries : List Entry} :
    many ((byte (· == 0x2C)).andThen fun _ => readEntry) true bytes = .accepted (entries, []) ↔
      (∀ e ∈ entries, e.Valid) ∧ bytes = tailBytes entries := by
  have htakes : ((byte (· == 0x2C)).andThen fun _ => readEntry).Takes 1 :=
    (takes_byte _).andThen fun _ => takes_readEntry
  induction entries generalizing bytes with
  | nil =>
    rw [many_eq_accepted_nil_iff]
    constructor
    · rintro ⟨-, rfl⟩
      exact ⟨nofun, rfl⟩
    · rintro ⟨-, rfl⟩
      exact ⟨rfl, rfl⟩
  | cons e entries ih =>
    simp only [many_eq_accepted_cons_iff htakes, andThen_eq_accepted_iff, byte_eq_accepted_iff,
      beq_iff_eq, readEntry_iff, ih, List.forall_mem_cons]
    constructor
    · rintro ⟨_, ⟨_, _, ⟨rfl, rfl⟩, hvalid, rfl, -⟩, hvalids, rfl⟩
      exact ⟨⟨hvalid, hvalids⟩, rfl⟩
    · rintro ⟨⟨hvalid, hvalids⟩, rfl⟩
      refine ⟨tailBytes entries, ⟨0x2C, _, ⟨?_, rfl⟩, hvalid, rfl, fun _ => ?_⟩, hvalids, rfl⟩
      · rfl
      · exact ⟨dropWhile_tailBytes entries, fun _ => trivial⟩

/-- Where the bytes are all, those that are taken to the last one are the texts of valid
parameters. -/
theorem readEntries_iff {entries : List Entry} :
    readEntries true bytes = .accepted (entries, []) ↔
      entries ≠ [] ∧ (∀ e ∈ entries, e.Valid) ∧ bytes = latinBytes (written entries) := by
  simp only [readEntries, sepBy, andThen_eq_accepted_iff, readEntry_iff]
  constructor
  · rintro ⟨e, _, ⟨hvalid, rfl, -⟩, others, between, hmany, haccept⟩
    obtain ⟨rfl, rfl⟩ := Prod.mk.inj (Verdict.accepted.inj haccept)
    obtain ⟨hvalids, rfl⟩ := many_readEntry_iff.mp hmany
    refine ⟨List.cons_ne_nil _ _, List.forall_mem_cons.mpr ⟨hvalid, hvalids⟩, ?_⟩
    rw [latinBytes_written]
  · rintro ⟨hne, hvalids, rfl⟩
    cases entries with
    | nil => exact absurd rfl hne
    | cons e others =>
      obtain ⟨hvalid, hvalids⟩ := List.forall_mem_cons.mp hvalids
      have hmany := many_readEntry_iff.mpr ⟨hvalids, rfl⟩
      rw [latinBytes_written]
      have hstop := dropWhile_tailBytes others
      exact ⟨e, tailBytes others, ⟨hvalid, rfl, fun _ => ⟨hstop, fun _ => trivial⟩⟩, others, [],
        hmany, rfl⟩

/-! ## The scheme -/

/-- A character the small form of which is US-ASCII is one itself. -/
theorem lt_of_toLower {c : Char} (h : c.toLower.toNat < 0x80) : c.toNat < 0x80 := by
  by_cases hupper : c.val ≥ 'A'.val ∧ c.val ≤ 'Z'.val
  · exact lt_of_le_ascii hupper.2 (by decide)
  · have hsame : c.toLower = c := by
      unfold Char.toLower
      exact dif_neg hupper
    rwa [hsame] at h

theorem isAscii_of_scheme {name : String}
    (h : name.toList.map Char.toLower = "signature".toList) : IsAscii name := by
  intro c hc
  have hlower : c.toLower ∈ "signature".toList := h ▸ List.mem_map_of_mem hc
  have hascii : IsAscii "signature" := by decide +kernel
  exact lt_of_toLower (hascii _ hlower)

/-- The name of the scheme agrees with the words that are it but for the case of letters. -/
theorem agrees_scheme_iff {word : List UInt8} :
    List.Forall₂ (scheme.agrees · · = true) word scheme.codes ↔
      (Text.latin word).toList.map Char.toLower = "signature".toList := by
  have hlower : ∀ b, (Text.latinChar b).toLower = Text.latinChar (Literal.fold b) :=
    forall_byte (by decide +kernel)
  have hcodes : "signature".toList = (scheme.codes.map Literal.fold).map Text.latinChar := by
    decide +kernel
  have hagrees (v c : UInt8) : scheme.agrees v c = true ↔ Literal.fold v = Literal.fold c :=
    beq_iff_eq
  have hchars : (Text.latin word).toList.map Char.toLower =
      (word.map Literal.fold).map Text.latinChar := by
    unfold Text.latin
    rw [String.toList_ofList, List.map_map, List.map_map]
    exact List.map_congr_left fun b _ => hlower b
  have hinjective : Function.Injective Text.latinChar := by
    intro b b' h
    rw [← Text.toUInt8_latinChar b, h, Text.toUInt8_latinChar]
  simp only [hagrees]
  rw [hchars, hcodes, (List.map_injective_iff.mpr hinjective).eq_iff, ← List.forall₂_eq_eq_eq,
    List.forall₂_map_left_iff, List.forall₂_map_right_iff]

theorem readBehindScheme_iff {entries : List Entry} :
    readBehindScheme true bytes = .accepted (entries, []) ↔
      ∃ (name : String) (behind : List UInt8), name.toList.map Char.toLower = "signature".toList ∧
        bytes = latinBytes name ++ 0x20 :: behind ∧
        readEntries true behind = .accepted (entries, []) := by
  simp only [readBehindScheme, andThen_eq_accepted_iff, spelled_eq_accepted_iff,
    byte_eq_accepted_iff, beq_iff_eq, agrees_scheme_iff]
  constructor
  · rintro ⟨_, _, ⟨word, rfl, hword⟩, _, behind, ⟨rfl, rfl⟩, hentries⟩
    exact ⟨Text.latin word, behind, hword, by rw [Text.latinBytes_latin], hentries⟩
  · rintro ⟨name, behind, hname, rfl, hentries⟩
    have hlatin := Text.latin_latinBytes (isAscii_of_scheme hname)
    exact ⟨(), _, ⟨latinBytes name, rfl, by rw [hlatin]; exact hname⟩, 0x20, behind, ⟨rfl, rfl⟩,
      hentries⟩

end StreamGrammar.Header
