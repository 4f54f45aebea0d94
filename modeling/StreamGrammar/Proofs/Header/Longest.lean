import StreamGrammar.Proofs.Header.Read
import StreamGrammar.Proofs.Parser.Longest

/-!
# The longest list of parameters

A list of parameters has nothing that ends it. The rule `params` takes the longest one that the
input begins with, and waits exactly where the input that is there may still become one
(`munches_readEntries`). That it need not look further is because every part of a parameter is seen
to end: a key before an equals sign, a value in quotes with its quote, and digits before a comma.
Where a header value goes on behind a list, what is reported is the end of the longest one
(`longest_list`).
-/

namespace StreamGrammar.Header

open Computability
open Recognizer
open Text (latinBytes)

/-! ## The language of lists -/

/-- The bytes of a valid parameter. -/
def paramBytes : Language UInt8 := {w | ∃ e : Entry, e.Valid ∧ w = latinBytes e.text}

/-- The bytes of a list of valid parameters: one, and any number of others, each with a comma before
it. -/
def listBytes : Language UInt8 := paramBytes * ({[0x2C]} * paramBytes)∗

/-- The bytes of a value in quotes, in the order in which they are taken. -/
def quotedBytes : Language UInt8 :=
  single (· == 0x22) * (runs isQuotedByte * (single (· == 0x22) * 1))

/-- The bytes of a value. -/
def valueBytes : Language UInt8 := quotedBytes + runs Rule.isDigit

theorem nil_notMem_quotedBytes : [] ∉ quotedBytes := nil_notMem_mul (nil_notMem_single _)

theorem nil_notMem_valueBytes : [] ∉ valueBytes := by
  intro h
  rcases (Language.mem_add _ _ _).mp h with h | h
  · exact nil_notMem_quotedBytes h
  · exact nil_notMem_runs _ h

/-- No digit is a quote. -/
theorem apart_values : Apart quotedBytes (runs Rule.isDigit) := by
  intro b u v hu hv
  obtain ⟨z, c, hc, heq⟩ := exists_cons_of_mul (nil_notMem_single _) hu
  obtain rfl : b = c := (List.cons.inj heq).1
  have hdigit := hv.2 b List.mem_cons_self
  rw [beq_iff_eq.mp hc] at hdigit
  cases hdigit

/-- What is between quotes ends before a quote, which does not stand between quotes. -/
theorem separate_quoted {m : Language UInt8} :
    Separate (runs isQuotedByte) (single (· == 0x22) * m) := by
  refine separate_runs fun b hb => ?_
  rw [beq_iff_eq.mp hb]
  rfl

theorem munches_readQuoted : readQuoted.Munches quotedBytes := by
  have hend (value : String) :
      ((byte (· == 0x22)).andThen fun _ => accept value).Munches (single (· == 0x22) * 1) :=
    (munches_sign 0x22).andThen (fun _ => munches_accept value) separate_one
      ⟨[], (Language.mem_one _).mpr rfl⟩
  have hclosed : ∃ z, z ∈ single (· == 0x22) * 1 := by
    rw [mul_one]
    exact ⟨_, 0x22, rfl, rfl⟩
  have hchars : ∃ b, isQuotedByte b = true := ⟨0x61, rfl⟩
  have hvalue : ((munch isQuotedByte).andThen fun value =>
      (byte (· == 0x22)).andThen fun _ => accept value).Munches _ :=
    (munches_munch hchars).andThen hend separate_quoted hclosed
  refine (munches_sign 0x22).andThen (fun _ => hvalue) (separate_single _) ?_
  obtain ⟨z, hz⟩ := hclosed
  exact ⟨[0x61] ++ z, Language.append_mem_mul ⟨List.cons_ne_nil _ _, by simp; rfl⟩ hz⟩

theorem munches_readValue : readValue.Munches valueBytes :=
  (munches_readQuoted.map _).orElse ((munches_munch ⟨0x30, rfl⟩).map _) apart_values
    nil_notMem_quotedBytes

/-- The bytes of a parameter, in the order in which they are taken. -/
def entryBytes : Language UInt8 := runs Rule.isAlpha * (single (· == 0x3D) * valueBytes)

/-- A key ends before an equals sign, which is not a letter. -/
theorem separate_key : Separate (runs Rule.isAlpha) (single (· == 0x3D) * valueBytes) := by
  refine separate_runs fun b hb => ?_
  rw [beq_iff_eq.mp hb]
  rfl

theorem munches_readEntry : readEntry.Munches entryBytes := by
  have hdigit : [0x30] ∈ valueBytes := by
    refine (Language.mem_add _ _ _).mpr (.inr ⟨List.cons_ne_nil _ _, fun b hb => ?_⟩)
    rw [List.mem_singleton.mp hb]
    rfl
  have hsome : [0x3D] ++ [0x30] ∈ single (· == 0x3D) * valueBytes :=
    Language.append_mem_mul ⟨0x3D, rfl, rfl⟩ hdigit
  refine (munches_munch ⟨0x61, rfl⟩).andThen (fun key => ?_) separate_key ⟨_, hsome⟩
  exact (munches_sign 0x3D).andThen (fun _ => munches_readValue.map _) (separate_single _)
    ⟨_, hdigit⟩

/-- What is taken are the texts of valid parameters. -/
theorem entryBytes_eq : entryBytes = paramBytes := by
  ext w
  rw [munches_readEntry.mem_iff]
  constructor
  · rintro ⟨e, h⟩
    obtain ⟨hvalid, hw, -⟩ := readEntry_iff.mp h
    rw [List.append_nil] at hw
    exact ⟨e, hvalid, hw⟩
  · rintro ⟨e, hvalid, rfl⟩
    exact ⟨e, readEntry_iff.mpr ⟨hvalid, (List.append_nil _).symm, fun _ => ⟨rfl, fun _ => rfl⟩⟩⟩

theorem exists_paramBytes : ∃ w, w ∈ paramBytes :=
  ⟨_, ⟨⟨"a", "1"⟩, false⟩, by decide +kernel, rfl⟩

/-- A parameter ends before a comma: no digits go on with one, and behind a value in quotes the
quotes are closed. -/
theorem endsBefore_comma : EndsBefore entryBytes 0x2C := by
  have hend : EndsBefore (single (· == 0x22) * 1) 0x2C := by
    rw [mul_one]
    exact endsBefore_single _ _
  have hquoted : EndsBefore quotedBytes 0x2C := by
    refine .mul (separate_single _) (.mul separate_quoted hend ?_) ?_
    · exact nil_notMem_mul (nil_notMem_single _)
    · exact nil_notMem_mul (nil_notMem_runs _)
  have hvalue : EndsBefore valueBytes 0x2C :=
    hquoted.add (endsBefore_runs rfl) apart_values nil_notMem_quotedBytes (nil_notMem_runs _)
  refine .mul separate_key (.mul (separate_single _) hvalue nil_notMem_valueBytes) ?_
  exact nil_notMem_mul (nil_notMem_single _)

/-- The longest list is taken, and input that may become a longer one is waited for. -/
theorem munches_readEntries : readEntries.Munches listBytes := by
  have hlm : Separate entryBytes (single (· == 0x2C)) := by
    rintro b z ⟨c, hc, heq⟩
    obtain rfl : b = c := (List.cons.inj heq).1
    rw [beq_iff_eq.mp hc]
    exact endsBefore_comma
  unfold listBytes
  rw [singleton_eq_single, ← entryBytes_eq]
  have hnil : [] ∉ entryBytes := nil_notMem_mul (nil_notMem_runs _)
  exact munches_readEntry.sepBy (munches_sign 0x2C) hlm (separate_single _) hnil
    (nil_notMem_single _) (entryBytes_eq ▸ exists_paramBytes)

/-- Every list may be longer. -/
theorem exists_longer {w : List UInt8} (hw : w ∈ listBytes) :
    ∃ more, more ≠ [] ∧ w ++ more ∈ listBytes := by
  obtain ⟨first, hfirst, others, hothers, rfl⟩ := Language.mem_mul.mp hw
  obtain ⟨next, hnext⟩ := exists_paramBytes
  have hmore : others ++ ([0x2C] ++ next) ∈ ({[0x2C]} * paramBytes : Language UInt8)∗ :=
    append_mem_kstar hothers (Language.append_mem_mul rfl hnext)
  refine ⟨[0x2C] ++ next, List.cons_ne_nil _ _, ?_⟩
  rw [List.append_assoc]
  exact Language.append_mem_mul hfirst hmore

/-! ## The values of lists -/

variable {ended : Bool} {bytes rest : List UInt8}

/-- By induction on the parameters: what is taken behind the first one are the texts of valid
parameters with commas. -/
theorem of_many_readEntry {entries : List Entry}
    (h : many ((byte (· == 0x2C)).andThen fun _ => readEntry) ended bytes =
      .accepted (entries, rest)) :
    (∀ e ∈ entries, e.Valid) ∧ bytes = tailBytes entries ++ rest := by
  have htakes : ((byte (· == 0x2C)).andThen fun _ => readEntry).Takes 1 :=
    (takes_byte _).andThen fun _ => takes_readEntry
  induction entries generalizing bytes with
  | nil => exact ⟨nofun, (many_eq_accepted_nil_iff.mp h).2⟩
  | cons e entries ih =>
    obtain ⟨between, hfirst, hothers⟩ := (many_eq_accepted_cons_iff htakes).mp h
    obtain ⟨hvalids, rfl⟩ := ih hothers
    obtain ⟨_, _, hcomma, hentry⟩ := andThen_eq_accepted_iff.mp hfirst
    obtain ⟨rfl, hsign⟩ := byte_eq_accepted_iff.mp hcomma
    obtain ⟨hvalid, rfl, -⟩ := readEntry_iff.mp hentry
    refine ⟨List.forall_mem_cons.mpr ⟨hvalid, hvalids⟩, ?_⟩
    rw [beq_iff_eq.mp hsign, ← List.cons_append, ← List.append_assoc]
    rfl

/-- The bytes that are taken are those of the list of the parameters that are yielded. -/
theorem of_readEntries {entries : List Entry}
    (h : readEntries ended bytes = .accepted (entries, rest)) :
    entries ≠ [] ∧ (∀ e ∈ entries, e.Valid) ∧ bytes = latinBytes (written entries) ++ rest := by
  obtain ⟨e, between, hfirst, hrest⟩ := andThen_eq_accepted_iff.mp h
  obtain ⟨others, last, hothers, haccept⟩ := andThen_eq_accepted_iff.mp hrest
  obtain ⟨rfl, rfl⟩ := Prod.mk.inj (Verdict.accepted.inj haccept)
  obtain ⟨hvalid, rfl, -⟩ := readEntry_iff.mp hfirst
  obtain ⟨hvalids, rfl⟩ := of_many_readEntry hothers
  refine ⟨List.cons_ne_nil _ _, List.forall_mem_cons.mpr ⟨hvalid, hvalids⟩, ?_⟩
  rw [latinBytes_written, List.append_assoc]

/-- The lists of the language are those that are written. -/
theorem mem_listBytes_iff {w : List UInt8} :
    w ∈ listBytes ↔
      ∃ entries, entries ≠ [] ∧ (∀ e ∈ entries, e.Valid) ∧ w = latinBytes (written entries) := by
  rw [munches_readEntries.mem_iff]
  exact exists_congr fun entries => readEntries_iff

/-- The bytes begin with the list of the parameters, and with no longer list. -/
structure LongestList (entries : List Entry) (bytes : List UInt8) : Prop where
  ne_nil : entries ≠ []
  valid : ∀ e ∈ entries, e.Valid
  isPrefix : latinBytes (written entries) <+: bytes
  length_le : ∀ w ∈ listBytes, w <+: bytes → w.length ≤ (latinBytes (written entries)).length

theorem LongestList.of_readEntries {entries : List Entry}
    (h : readEntries ended bytes = .accepted (entries, rest)) : LongestList entries bytes := by
  obtain ⟨hne, hvalid, rfl⟩ := Header.of_readEntries h
  obtain ⟨w, -, heq, hlongest⟩ := (munches_readEntries ended _).accepted _ _ h
  obtain rfl : latinBytes (written entries) = w := List.append_cancel_right heq
  exact ⟨hne, hvalid, List.prefix_append _ _, hlongest⟩

/-! ## The rule -/

/-- What the rule for lists comes to on a scanner: it waits where what is left may become a list,
and otherwise takes the longest list that this begins with, if there is one. -/
structure RunsLongest (unread : List UInt8) (s t : Scanner Rule.Memory)
    (verdict : Verdict Datum Datum) : Prop where
  undecided_iff : verdict = .undecided ↔
    s.cursor.ended = false ∧ ∃ w ∈ listBytes, unread <+: w
  accepted_iff : (∃ value, verdict = .accepted value) ↔
    verdict ≠ .undecided ∧ ∃ w ∈ listBytes, w <+: unread
  /-- The cursor is behind the list, the parameters of which are the value. -/
  accepted : ∀ value, verdict = .accepted value → ∃ entries, LongestList entries unread ∧
    value = listDatum entries ∧
    t.cursor = { s.cursor with
      position := s.cursor.position + (latinBytes (written entries)).length }
  /-- Nothing is consumed otherwise. -/
  cursor_eq : verdict.isAccepted = false → t.cursor = s.cursor

theorem runsLongest {input : List UInt8} {s : Scanner Rule.Memory} {fuel : Nat}
    (hs : s.cursor.Reached input) (hfuel : (input.drop s.cursor.position).length < fuel) :
    ∃ verdict t, (Grammar.parserOf [] fuel params).run s = .ok verdict t ∧
      RunsLongest (input.drop s.cursor.position) s t verdict := by
  obtain ⟨verdict, t, hrun, ht, hverdict⟩ := readsList_params _ _ hfuel hs.shows (Nat.le_refl _)
  have hlongest := (munches_readEntries.map listDatum) s.cursor.ended (input.drop s.cursor.position)
  rw [hverdict] at hlongest
  have hundecided := hlongest.undecided_iff
  rw [goesOn_iff fun w => exists_longer] at hundecided
  refine ⟨verdict, t, hrun, ?_, ?_, ?_, ?_⟩
  · rw [← hundecided]
    cases verdict <;> simp [Verdict.bimap]
  · cases verdict with
    | accepted value =>
      obtain ⟨w, hw, heq, -⟩ := hlongest.accepted _ _ rfl
      exact iff_of_true ⟨value, rfl⟩ ⟨by simp, w, hw, heq ▸ List.prefix_append _ _⟩
    | undecided => simp
    | rejected error =>
      refine iff_of_false (by simp) ?_
      rintro ⟨-, w, hw, hpre⟩
      exact hlongest.rejected rfl w hw hpre
  · rintro value rfl
    obtain ⟨entries, hentries, rfl⟩ := Recognizer.map_eq_accepted_iff.mp hverdict
    obtain ⟨-, -, hbytes⟩ := of_readEntries hentries
    exact ⟨entries, .of_readEntries hentries, rfl, hs.shows.onward_eq ht hbytes⟩
  · exact (Rule.obeys_of_kit kit_params).rewinds s t verdict hs.shows.toInRange hrun

/-! ## Header values -/

theorem utf8_written {entries : List Entry} (hvalid : ∀ e ∈ entries, e.Valid) :
    Text.utf8 (Text.unitsOf (written entries)) = latinBytes (written entries) :=
  (Text.utf8_eq_latinBytes_iff (isAscii_written hvalid)).mpr rfl

/-- A list is what a text begins with if its bytes are what the bytes of the text begin with, as it
is US-ASCII. -/
theorem isPrefix_iff {entries : List Entry} (hvalid : ∀ e ∈ entries, e.Valid) {text : Text.Units} :
    Text.unitsOf (written entries) <+: text ↔ latinBytes (written entries) <+: Text.utf8 text := by
  have hascii := isAscii_written hvalid
  have happend {behind : List UInt8} :
      Text.utf8 text = latinBytes (written entries) ++ behind ↔ _ :=
    Text.utf8_eq_append_iff (Text.lt_of_mem_latinBytes hascii)
  rw [Text.unitsOf_eq_map hascii]
  constructor
  · rintro ⟨rest, htext⟩
    exact ⟨Text.utf8 rest, (happend.mpr ⟨rest, htext.symm, rfl⟩).symm⟩
  · rintro ⟨behind, hbytes⟩
    obtain ⟨rest, htext, -⟩ := happend.mp hbytes.symm
    exact ⟨rest, htext.symm⟩

/-- A text begins with the one of a list of parameters, and with no longer such text. -/
structure SpellsLongest (entries : List Entry) (before text : Text.Units) : Prop where
  spells : Spells entries before
  isPrefix : before <+: text
  length_le : ∀ entries' before', Spells entries' before' → before' <+: text →
    (Text.utf8 before').length ≤ (Text.utf8 before).length

theorem LongestList.spells {entries : List Entry} {text : Text.Units}
    (h : LongestList entries (Text.utf8 text)) :
    SpellsLongest entries (Text.unitsOf (written entries)) text := by
  refine ⟨⟨h.ne_nil, h.valid, rfl⟩, (isPrefix_iff h.valid).mpr h.isPrefix, ?_⟩
  rintro entries' _ ⟨hne, hvalid, rfl⟩ hpre
  rw [utf8_written hvalid, utf8_written h.valid]
  exact h.length_le _ (mem_listBytes_iff.mpr ⟨entries', hne, hvalid, rfl⟩)
    ((isPrefix_iff hvalid).mp hpre)

instance Error.decidableEqUnexpected {β : Type} (result : Except Error β) (position : Nat) :
    Decidable (result = .error (.unexpected position)) :=
  match result with
  | .error (.unexpected low) => decidable_of_iff (low = position) (by simp)
  | .error (.mismatch _) | .ok _ => isFalse nofun

/-- A value that begins with a list is refused at the end of the longest one. -/
theorem readSignature_error {text : Text.Units} {error : Error}
    (herror : readSignature text = .error error) {entries : List Entry} {before : Text.Units}
    (hspells : Spells entries before) (hpre : before <+: text) :
    ∃ entries before, SpellsLongest entries before text ∧
      error = .unexpected (Text.utf8 before).length ∧
      (Text.utf8 before).length < (Text.utf8 text).length ∧ before.length < text.length := by
  obtain ⟨hne, hvalid, rfl⟩ := hspells
  have hlongest := munches_readEntries true (Text.utf8 text)
  obtain ⟨verdict, t, hrun, havailable, hverdict⟩ := attempt_eq readsList_params (Text.utf8 text)
  rcases hread : readEntries true (Text.utf8 text) with ⟨taken, rest⟩ | _ | _
  · rw [Recognizer.map_eq_accepted_iff.mpr ⟨taken, hread, rfl⟩] at hverdict
    cases verdict with
    | accepted value =>
      obtain ⟨-, rfl⟩ := Prod.mk.inj (Verdict.accepted.inj hverdict)
      obtain ⟨-, htaken, hbytes⟩ := of_readEntries hread
      have hspells := (LongestList.of_readEntries hread).spells
      -- Something is left, as the value is refused.
      unfold readSignature readWhole at herror
      rw [hrun] at herror
      dsimp only at herror
      split at herror
      · cases herror
      · next hrest =>
        rw [havailable, List.length_drop] at hrest
        have hlength := congrArg List.length hbytes
        rw [List.length_append, List.length_drop] at hlength
        have hlt : (Text.utf8 (Text.unitsOf (written taken))).length < (Text.utf8 text).length := by
          rw [utf8_written htaken]
          omega
        refine ⟨taken, _, hspells, ?_, hlt, ?_⟩
        · have hposition : (latinBytes (written taken)).length = t.cursor.position := by omega
          rw [utf8_written htaken, hposition]
          exact (Except.error.inj herror).symm
        · refine Nat.lt_of_le_of_ne hspells.isPrefix.length_le fun heq => ?_
          rw [hspells.isPrefix.eq_of_length heq] at hlt
          exact Nat.lt_irrefl _ hlt
    | undecided => cases hverdict
    | rejected error => cases hverdict
  · cases (hlongest.undecided_iff.mp hread).1
  · exact absurd ((isPrefix_iff hvalid).mp hpre)
      (hlongest.rejected hread _ (mem_listBytes_iff.mpr ⟨entries, hne, hvalid, rfl⟩))

/-- On every cursor, the rule for lists of parameters waits exactly if more bytes may follow and
those that are there begin a list. Otherwise it takes the longest list that they begin with and
yields its parameters, or rejects and leaves the cursor alone if they begin with none. So if the
value of a `Signature` header begins with a list and is refused, what is reported is the end of the
longest list, which is before the end of the value. -/
theorem longest_list :
    (∀ (input : List UInt8) (s : Scanner Rule.Memory) (fuel : Nat), s.cursor.Reached input →
      (input.drop s.cursor.position).length < fuel →
      ∃ verdict t, (Grammar.parserOf [] fuel params).run s = .ok verdict t ∧
        RunsLongest (input.drop s.cursor.position) s t verdict) ∧
    ∀ (text : Text.Units) (error : Error), readSignature text = .error error →
      ∀ (entries : List Entry) (before : Text.Units), Spells entries before → before <+: text →
        ∃ entries before, SpellsLongest entries before text ∧
          error = .unexpected (Text.utf8 before).length ∧
          (Text.utf8 before).length < (Text.utf8 text).length ∧ before.length < text.length :=
  ⟨fun _ _ _ hs hfuel => runsLongest hs hfuel,
    fun _ _ herror _ _ hspells hpre => readSignature_error herror hspells hpre⟩

/-- While more bytes may follow, a comma at the end is waited for. In a value that ends with half a
parameter, the list ends before the comma. -/
theorem longest_list_comma :
    let bytes : Array UInt8 := #[0x61, 0x3D, 0x31, 0x2C]
    let s : Scanner Rule.Memory := { cursor.buffer := Input.Buffer.append {} bytes, memory := #[] }
    let text := Text.unitsOf "a=1,b"
    (∃ t, (Grammar.parserOf [] 5 params).run s = .ok .undecided t ∧
      RunsLongest bytes.toList s t .undecided) ∧
      readSignature text = .error (.unexpected 3) ∧
      ∃ entries before, SpellsLongest entries before text ∧ (Text.utf8 before).length = 3 := by
  intro bytes s text
  have hs : s.cursor.Reached ([] ++ bytes.toList) := .append .new rfl
  have herror : readSignature text = .error (.unexpected 3) := by decide +kernel
  have hspells : Spells [⟨⟨"a", "1"⟩, false⟩] (Text.unitsOf "a=1") :=
    ⟨List.cons_ne_nil _ _, by decide +kernel, by decide +kernel⟩
  refine ⟨?_, herror, ?_⟩
  · obtain ⟨verdict, t, hrun, hlongest⟩ := longest_list.1 _ s 5 hs (by decide)
    have hwaits : verdict = .undecided := by
      refine hlongest.undecided_iff.mpr ⟨rfl, latinBytes "a=1,a=1", ?_, by decide +kernel⟩
      have hvalid : ∀ e ∈ [Entry.mk ⟨"a", "1"⟩ false, ⟨⟨"a", "1"⟩, false⟩], e.Valid := by
        decide +kernel
      exact mem_listBytes_iff.mpr ⟨_, List.cons_ne_nil _ _, hvalid, by decide +kernel⟩
    subst hwaits
    exact ⟨t, hrun, hlongest⟩
  · obtain ⟨entries, before, hspells', heq, -⟩ :=
      longest_list.2 text _ herror _ _ hspells (by decide +kernel)
    exact ⟨entries, before, hspells', (Error.unexpected.inj heq).symm⟩

end StreamGrammar.Header
