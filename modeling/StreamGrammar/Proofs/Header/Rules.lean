import StreamGrammar.Header.Read
import StreamGrammar.Proofs.Header.Grammar
import StreamGrammar.Proofs.Rule.Reads
import StreamGrammar.Proofs.Rule.Shift

/-!
# The rules of signature headers

The rules of signature headers do not look at offsets (`shifts_params`), so they are of the kit.
What each of them does is said by a recognizer, with the fuel that a header value is given
(`reads_params`, `reads_authorization`).
-/

namespace StreamGrammar.Header

open Rule

/-! ## They do not look at offsets -/

section Shifts

variable {n : Int}

theorem shifts_character (expected : String) (test : UInt8 → Bool) :
    (character expected test).Shifts n := by
  refine .map (fun d => ?_) (.byte test expected)
  cases d <;> rfl

theorem shifts_oneOrMore (label : String) {body : Rule} (hbody : body.Shifts n) :
    (oneOrMore label body).Shifts n := .captured (.plus (Datum.commutes_atLeastOne n label) hbody)

theorem shifts_quotedCharacter : quotedCharacter.Shifts n :=
  .alternation (.byte _ _) (List.forall_mem_singleton.mpr (.byte _ _))

theorem shifts_quotedValue : quotedValue.Shifts n := by
  have hdquote : dquote.Shifts n := .map (fun _ => rfl) (.byte _ _)
  refine .map (Datum.commutes_item n 1) (.concatenation ?_)
  simp only [List.forall_mem_cons]
  exact ⟨hdquote, shifts_oneOrMore _ shifts_quotedCharacter, hdquote, nofun⟩

theorem shifts_key : key.Shifts n := shifts_oneOrMore _ (shifts_character _ _)

theorem shifts_numberValue : numberValue.Shifts n := shifts_oneOrMore _ (shifts_character _ _)

theorem shifts_param : param.Shifts n := by
  have hparts : Datum.Commutes n paramOfParts := by
    intro parts
    unfold paramOfParts
    rw [Datum.commutes_item, Datum.commutes_item]
    rfl
  refine .map hparts (.concatenation ?_)
  simp only [List.forall_mem_cons]
  exact ⟨shifts_key, .literal _,
    .alternation shifts_quotedValue (List.forall_mem_singleton.mpr shifts_numberValue), nofun⟩

theorem shifts_params : params.Shifts n := .sepBy shifts_param (.literal _)

theorem shifts_authorization : authorization.Shifts n := by
  refine .map (Datum.commutes_item n 2) (.concatenation ?_)
  simp only [List.forall_mem_cons]
  exact ⟨.literal _, shifts_character _ _, shifts_params, nofun⟩

end Shifts

theorem kit_quotedCharacter : quotedCharacter.Kit := (shifts_quotedCharacter (n := 0)).kit

theorem kit_quotedValue : quotedValue.Kit := (shifts_quotedValue (n := 0)).kit

theorem kit_param : param.Kit := (shifts_param (n := 0)).kit

theorem kit_params : params.Kit := (shifts_params (n := 0)).kit

theorem kit_authorization : authorization.Kit := (shifts_authorization (n := 0)).kit

/-! ## What they do -/

open Recognizer (munch)

variable {n fuel : Nat}

/-- Case does not matter to a sign, so it is spelled by one byte only. -/
theorem spelled_sign {l : Literal} {code : UInt8} (hcodes : l.codes = [code])
    (hagrees : ∀ b, l.agrees b code = (b == code)) :
    Recognizer.spelled l l.codes = (Recognizer.byte (· == code)).map fun _ => () := by
  have hsingleton := Recognizer.spelled_singleton l code
  rw [funext hagrees] at hsingleton
  exact hcodes ▸ hsingleton

theorem spelled_equals :
    Recognizer.spelled equals equals.codes = (Recognizer.byte (· == 0x3D)).map fun _ => () :=
  spelled_sign rfl (forall_byte (by decide +kernel))

theorem spelled_comma :
    Recognizer.spelled comma comma.codes = (Recognizer.byte (· == 0x2C)).map fun _ => () :=
  spelled_sign rfl (forall_byte (by decide +kernel))

theorem reads_dquote :
    Reads n fuel dquote ((Recognizer.byte (· == 0x22)).map fun _ => Datum.text "\"") := by
  have hbyte : Reads n fuel (value 0x22 (some "DQUOTE"))
      ((Recognizer.byte (· == 0x22)).map _) := reads_byteIn _ (forall_byte (by decide +kernel))
  have hquote := hbyte.map fun _ => Datum.text "\""
  rw [Recognizer.map_map] at hquote
  exact hquote

theorem reads_quotedCharacter :
    Reads n fuel quotedCharacter
      ((Recognizer.byte isQuotedByte).map fun value => .int value.toNat) := by
  have hfirst : Reads n fuel (range 0x20 0x21 none)
      ((Recognizer.byte fun b => 0x20 ≤ b && b ≤ 0x21).map _) :=
    reads_byteIn _ (forall_byte (by decide +kernel))
  have hsecond : Reads n fuel (range 0x23 0x7E none)
      ((Recognizer.byte fun b => 0x23 ≤ b && b ≤ 0x7E).map _) :=
    reads_byteIn _ (forall_byte (by decide +kernel))
  have hboth := hfirst.alternation (obeys_of_kit (kit_range _ _ _)).rewinds hsecond
  rw [← Recognizer.map_orElse, Recognizer.orElse_byte] at hboth
  exact hboth

section Repetition

variable (hfuel : n < fuel)
include hfuel

/-- One or more of a single byte are the longest run of it. -/
theorem reads_oneOrMore (label : String) {body : Rule} {test : UInt8 → Bool} {f : UInt8 → Datum}
    (hkit : body.Kit) (hbody : Reads n fuel body ((Recognizer.byte test).map f)) :
    Reads n fuel (oneOrMore label body) ((munch test).map .text) := by
  have htakes := (Recognizer.takes_byte test).map f
  have hplus := hbody.plus (obeys_of_kit hkit).rewinds htakes (Nat.le_refl n) hfuel
    (Datum.atLeastOne label)
  have hcaptured := (hplus.map Datum.list).captured
  rw [Recognizer.captured_map, Recognizer.atLeastOne_map, Recognizer.captured_map,
    Recognizer.captured_atLeastOne_byte] at hcaptured
  exact hcaptured.map _

theorem reads_key : Reads n fuel key ((munch isAlpha).map .text) :=
  reads_oneOrMore hfuel "ALPHA" (kit_character _ _) (reads_character _ _)

theorem reads_numberValue : Reads n fuel numberValue ((munch isDigit).map .text) :=
  reads_oneOrMore hfuel "DIGIT" (kit_character _ _) (reads_character _ _)

theorem reads_quotedValue : Reads n fuel quotedValue (readQuoted.map .text) := by
  have hcharacters :=
    reads_oneOrMore hfuel "quoted character" kit_quotedCharacter reads_quotedCharacter
  have hparts := reads_concatenation
    (.cons reads_dquote (.cons hcharacters (.cons reads_dquote .nil)))
  have hvalue : Reads n fuel quotedValue _ := hparts.map (Datum.item 1)
  simpa [Recognizer.inOrder, readQuoted, Datum.item] using hvalue

theorem reads_value :
    Reads n fuel (alternation quotedValue [numberValue])
      (readValue.map fun (_, value) => .text value) := by
  have hquoted : Reads n fuel quotedValue _ := reads_quotedValue hfuel
  have hvalue : Reads n fuel (alternation quotedValue [numberValue]) _ :=
    hquoted.alternation (obeys_of_kit kit_quotedValue).rewinds (reads_numberValue hfuel)
  simpa [readValue] using hvalue

theorem reads_param : Reads n fuel param (readEntry.map fun e => e.param.toDatum) := by
  have hequals : Reads n fuel (.literal equals) _ := reads_literal equals
  have hparts := reads_concatenation
    (.cons (reads_key hfuel) (.cons hequals (.cons (reads_value hfuel) .nil)))
  have hparam : Reads n fuel param _ := hparts.map paramOfParts
  simpa [Recognizer.inOrder, readEntry, spelled_equals, paramOfParts, Datum.item, Param.toDatum]
    using hparam

theorem reads_params :
    Reads n fuel params
      (readEntries.map fun entries => .list (entries.map fun e => e.param.toDatum)) := by
  let element : Recognizer Datum := readEntry.map fun e => e.param.toDatum
  have hcomma : Reads n fuel (.literal comma) _ := reads_literal comma
  have hparam : Reads n fuel param element := reads_param hfuel
  have hnext : (((Recognizer.spelled comma comma.codes).captured.map Datum.text).andThen
      fun _ => element) = (Recognizer.byte (· == 0x2C)).andThen fun _ => element := by
    simp [spelled_comma]
  have htakes : ((Recognizer.byte (· == 0x2C)).andThen fun _ => element).Takes 1 :=
    (Recognizer.takes_byte _).andThen fun _ => takes_readEntry.map _
  have hlist := hparam.sepBy (obeys_of_kit kit_param).tame hcomma
    (obeys_of_kit (.literal comma)).tame (hnext ▸ htakes) (Nat.le_refl n) hfuel
  have hparams : Reads n fuel params _ := hlist.map Datum.list
  rw [Recognizer.sepBy_congr element hnext, Recognizer.sepBy_map, Recognizer.map_map] at hparams
  exact hparams

theorem reads_authorization :
    Reads n fuel authorization
      (readBehindScheme.map fun entries => .list (entries.map fun e => e.param.toDatum)) := by
  have hscheme : Reads n fuel (.literal scheme) _ := reads_literal scheme
  have hspace : Reads n fuel sp _ := reads_character _ _
  have hparts := reads_concatenation
    (.cons hscheme (.cons hspace (.cons (reads_params hfuel) .nil)))
  have hparams : Reads n fuel authorization _ := hparts.map (Datum.item 2)
  simpa [Recognizer.inOrder, readBehindScheme, Datum.item] using hparams

end Repetition

end StreamGrammar.Header
