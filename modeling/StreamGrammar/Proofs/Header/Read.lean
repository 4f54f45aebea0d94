import StreamGrammar.Proofs.Header.Rules

/-!
# Header values are read exactly

A header value is read if and only if it is a list of parameters as they are written, and what is
read are these parameters (`reads_exactly`). A value is made of 16-bit units, while the rules see
the bytes of its encoding. So it is shown besides that nothing else has the same encoding.
-/

namespace StreamGrammar.Header

open Input (Cursor)

/-- The text is that of a list of valid parameters. -/
structure Spells (entries : List Entry) (text : Text.Units) : Prop where
  ne_nil : entries ≠ []
  valid : ∀ e ∈ entries, e.Valid
  text_eq : text = Text.unitsOf (written entries)

theorem Entry.Valid.ascii {e : Entry} (h : e.Valid) : Text.IsAscii e.text := by
  have hkey := h.key.ascii isClass_isAlpha
  have hsign : Text.IsAscii "=" := by decide +kernel
  have hquote : Text.IsAscii "\"" := by decide +kernel
  have hvalue : Text.IsAscii (valueText e.quoted e.param.value) := by
    have hchars := h.value
    unfold valueText
    cases hquoted : e.quoted with
    | true =>
      rw [hquoted] at hchars
      have hinner := IsWord.ascii isClass_isQuotedChar hchars
      exact (hquote.append hinner).append hquote
    | false =>
      rw [hquoted] at hchars
      exact IsWord.ascii isClass_isDigit hchars
  exact (hkey.append hsign).append hvalue

/-- By induction on the parameters: a list of valid ones is written in US-ASCII. -/
theorem isAscii_written {entries : List Entry} (h : ∀ e ∈ entries, e.Valid) :
    Text.IsAscii (written entries) := by
  have hcomma : Text.IsAscii "," := by decide +kernel
  induction entries with
  | nil => exact nofun
  | cons e others ih =>
    obtain ⟨he, hothers⟩ := List.forall_mem_cons.mp h
    cases others with
    | nil => exact he.ascii
    | cons next others =>
      have hsplit : written (e :: next :: others) = e.text ++ "," ++ written (next :: others) := by
        unfold written
        rw [List.map_cons, List.map_cons, String.intercalate_cons_cons]
      rw [hsplit]
      exact (he.ascii.append hcomma).append (ih hothers)

/-- What is spelled out in 16-bit units is spelled out in bytes. -/
theorem spells_iff {entries : List Entry} {text : Text.Units} :
    Spells entries text ↔ readEntries true (Text.utf8 text) = .accepted (entries, []) := by
  rw [readEntries_iff]
  constructor
  · rintro ⟨hne, hvalid, htext⟩
    exact ⟨hne, hvalid, (Text.utf8_eq_latinBytes_iff (isAscii_written hvalid)).mpr htext⟩
  · rintro ⟨hne, hvalid, hbytes⟩
    exact ⟨hne, hvalid, (Text.utf8_eq_latinBytes_iff (isAscii_written hvalid)).mp hbytes⟩

/-- A list of parameters, as rules hand it over. -/
def listDatum (entries : List Entry) : Datum := .list (entries.map fun e => e.param.toDatum)

theorem listOfDatum_listDatum (entries : List Entry) :
    Param.listOfDatum (listDatum entries) = entries.map (·.param) := by
  change (entries.map fun e => e.param.toDatum).filterMap Param.ofDatum? = _
  rw [List.filterMap_map, ← List.filterMap_eq_map]
  exact List.filterMap_congr fun e _ => Param.ofDatum?_toDatum e.param

/-- The rule does what the recognizer says, with the fuel that a header value is given. -/
def ReadsList (rule : Rule) (r : Recognizer (List Entry)) : Prop :=
  ∀ n fuel, n < fuel → Rule.Reads n fuel rule (r.map listDatum)

section Whole

variable {rule : Rule} {r : Recognizer (List Entry)} (hrule : ReadsList rule r)
include hrule

/-- The run on a header value comes to an end with what the recognizer says. -/
theorem attempt_eq (bytes : List UInt8) :
    ∃ verdict t, attempt rule bytes.toArray = .ok verdict t ∧
      t.cursor.available = (bytes.drop t.cursor.position).length ∧
      r.map listDatum true bytes =
        verdict.bimap (fun _ => ()) fun value => (value, bytes.drop t.cursor.position) := by
  let s : Scanner Rule.Memory := { cursor := .ofBytes bytes.toArray, memory := #[] }
  have hs : s.cursor.Shows bytes := (Cursor.reached_ofBytes bytes.toArray).shows
  have hfuel : bytes.length < bytes.toArray.size + 2 := by
    rw [List.size_toArray]
    omega
  obtain ⟨verdict, t, hrun, ht, hverdict⟩ := hrule _ _ hfuel hs (Nat.le_refl _)
  refine ⟨verdict, t, hrun, ?_, hverdict⟩
  unfold Cursor.available
  rw [ht.buffer_eq, hs.holds.stop_eq, List.length_drop]

theorem readWhole_eq_ok_iff {text : Text.Units} {ps : List Param} :
    readWhole rule text = .ok ps ↔
      ∃ entries, r true (Text.utf8 text) = .accepted (entries, []) ∧
        entries.map (·.param) = ps := by
  obtain ⟨verdict, t, hrun, havailable, hverdict⟩ := attempt_eq hrule (Text.utf8 text)
  have hmapped {entries : List Entry} (h : r true (Text.utf8 text) = .accepted (entries, [])) :
      r.map listDatum true (Text.utf8 text) = .accepted (listDatum entries, []) :=
    Recognizer.map_eq_accepted_iff.mpr ⟨entries, h, rfl⟩
  unfold readWhole
  rw [hrun]
  cases verdict with
  | accepted value =>
    obtain ⟨entries, hentries, rfl⟩ := Recognizer.map_eq_accepted_iff.mp hverdict
    have hzero : t.cursor.available = 0 ↔ (Text.utf8 text).drop t.cursor.position = [] := by
      rw [havailable, List.length_eq_zero_iff]
    dsimp only
    rw [hentries, listOfDatum_listDatum]
    constructor
    · intro hread
      split at hread
      · next hrest =>
        rw [hzero.mp hrest]
        exact ⟨entries, rfl, Except.ok.inj hread⟩
      · cases hread
    · rintro ⟨entries', haccepted, rfl⟩
      obtain ⟨rfl, hrest⟩ := Prod.mk.inj (Verdict.accepted.inj haccepted)
      rw [if_pos (hzero.mpr hrest)]
  | undecided =>
    constructor
    · nofun
    · rintro ⟨entries, haccepted, -⟩
      cases (hmapped haccepted).symm.trans hverdict
  | rejected error =>
    constructor
    · nofun
    · rintro ⟨entries, haccepted, -⟩
      cases (hmapped haccepted).symm.trans hverdict

end Whole

theorem readsList_params : ReadsList params readEntries := fun _ _ hfuel => reads_params hfuel

theorem readsList_authorization : ReadsList authorization readBehindScheme :=
  fun _ _ hfuel => reads_authorization hfuel

theorem readSignature_eq_ok_iff {text : Text.Units} {ps : List Param} :
    readSignature text = .ok ps ↔ ∃ entries, Spells entries text ∧ entries.map (·.param) = ps := by
  simp only [spells_iff]
  exact readWhole_eq_ok_iff readsList_params

/-- The name of the scheme and a space are US-ASCII, so they are what the text begins with. -/
theorem utf8_eq_scheme_iff {text : Text.Units} {name : String} {behind : List UInt8}
    (hname : name.toList.map Char.toLower = "signature".toList) :
    Text.utf8 text = Text.latinBytes name ++ 0x20 :: behind ↔
      ∃ rest, text = Text.unitsOf name ++ 0x20 :: rest ∧ Text.utf8 rest = behind := by
  have hascii := isAscii_of_scheme hname
  have hword : ∀ b ∈ Text.latinBytes name ++ [0x20], b < 0x80 := by
    intro b hb
    rcases List.mem_append.mp hb with hb | hb
    · exact Text.lt_of_mem_latinBytes hascii b hb
    · obtain rfl := List.mem_singleton.mp hb
      decide
  have hbytes : Text.latinBytes name ++ 0x20 :: behind =
      (Text.latinBytes name ++ [0x20]) ++ behind := List.append_cons _ _ _
  have hunits (rest : Text.Units) : Text.unitsOf name ++ 0x20 :: rest =
      (Text.latinBytes name ++ [0x20]).map UInt8.toUInt16 ++ rest := by
    rw [Text.unitsOf_eq_map hascii, List.map_append, List.append_assoc]
    rfl
  simp only [hunits]
  rw [hbytes, Text.utf8_eq_append_iff hword]

/-- The part behind the scheme is read by itself. -/
theorem readAuthorization_eq_ok_iff {text : Text.Units} {ps : List Param} :
    readAuthorization text = .ok ps ↔
      ∃ (name : String) (rest : Text.Units), name.toList.map Char.toLower = "signature".toList ∧
        text = Text.unitsOf name ++ 0x20 :: rest ∧ readSignature rest = .ok ps := by
  have hwhole : readAuthorization text = .ok ps ↔ _ := readWhole_eq_ok_iff readsList_authorization
  simp only [readBehindScheme_iff] at hwhole
  rw [hwhole]
  constructor
  · rintro ⟨entries, ⟨name, behind, hname, hbytes, hentries⟩, hps⟩
    obtain ⟨rest, rfl, rfl⟩ := (utf8_eq_scheme_iff hname).mp hbytes
    have hspells := spells_iff.mpr hentries
    exact ⟨name, rest, hname, rfl, readSignature_eq_ok_iff.mpr ⟨entries, hspells, hps⟩⟩
  · rintro ⟨name, rest, hname, rfl, hrest⟩
    obtain ⟨entries, hspells, hps⟩ := readSignature_eq_ok_iff.mp hrest
    have hbytes := (utf8_eq_scheme_iff hname).mpr ⟨rest, rfl, rfl⟩
    exact ⟨entries, ⟨name, _, hname, hbytes, spells_iff.mp hspells⟩, hps⟩

/-- A text spells one list of parameters at most. -/
theorem Spells.eq {entries entries' : List Entry} {text : Text.Units} (h : Spells entries text)
    (h' : Spells entries' text) : entries = entries' := by
  have hread := (spells_iff.mp h).symm.trans (spells_iff.mp h')
  exact (Prod.mk.inj (Verdict.accepted.inj hread)).1

/-- The value of a `Signature` header is read exactly if it spells a list of valid parameters, and
these are what is read; it cannot be taken to pieces in two ways. The value of an `Authorization`
header is read exactly if it is the name of the scheme in any case of letters, a space, and a text
that is read as a `Signature` header. No run fails to come to an end, and every other value is
refused. So whatever list of parameters is written down is read back. -/
theorem reads_exactly :
    (∀ (text : Text.Units) (ps : List Param),
      readSignature text = .ok ps ↔ ∃ entries, Spells entries text ∧ entries.map (·.param) = ps) ∧
    (∀ (text : Text.Units) (entries entries' : List Entry),
      Spells entries text → Spells entries' text → entries = entries') ∧
    (∀ (text : Text.Units) (ps : List Param),
      readAuthorization text = .ok ps ↔
        ∃ (name : String) (rest : Text.Units), name.toList.map Char.toLower = "signature".toList ∧
          text = Text.unitsOf name ++ 0x20 :: rest ∧ readSignature rest = .ok ps) ∧
    (∀ rule ∈ [params, authorization], ∀ text : Text.Units,
      (∃ verdict s, attempt rule (Text.utf8 text).toArray = .ok verdict s) ∧
        ((∃ ps, readWhole rule text = .ok ps) ∨
          ∃ e, readWhole rule text = .error e ∧ e.name = "InvalidParamsError")) ∧
    ∀ entries : List Entry, entries ≠ [] → (∀ e ∈ entries, e.Valid) →
      readSignature (Text.unitsOf (written entries)) = .ok (entries.map (·.param)) := by
  refine ⟨fun _ _ => readSignature_eq_ok_iff, fun _ _ _ => Spells.eq,
    fun _ _ => readAuthorization_eq_ok_iff, fun rule hrule text => ⟨?_, ?_⟩, ?_⟩
  · obtain ⟨r, hr⟩ : ∃ r, ReadsList rule r := by
      rcases List.mem_pair.mp hrule with rfl | rfl
      · exact ⟨_, readsList_params⟩
      · exact ⟨_, readsList_authorization⟩
    obtain ⟨verdict, s, hrun, -, -⟩ := attempt_eq hr (Text.utf8 text)
    exact ⟨verdict, s, hrun⟩
  · cases readWhole rule text with
    | ok ps => exact .inl ⟨ps, rfl⟩
    | error e => exact .inr ⟨e, rfl, rfl⟩
  · intro entries hne hvalid
    exact readSignature_eq_ok_iff.mpr ⟨entries, ⟨hne, hvalid, rfl⟩, rfl⟩

/-- A value in quotes and one without them. -/
theorem reads_exactly_two :
    readSignature (Text.unitsOf "keyId=\"me, you\",created=15") =
      .ok [⟨"keyId", "me, you"⟩, ⟨"created", "15"⟩] := by
  let entries : List Entry := [⟨⟨"keyId", "me, you"⟩, true⟩, ⟨⟨"created", "15"⟩, false⟩]
  have hvalid : ∀ e ∈ entries, e.Valid := by decide +kernel
  have htext : written entries = "keyId=\"me, you\",created=15" := by decide +kernel
  rw [← htext]
  exact reads_exactly.2.2.2.2 entries (by decide) hvalid

end StreamGrammar.Header
