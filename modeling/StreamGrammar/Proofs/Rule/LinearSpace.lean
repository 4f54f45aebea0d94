import StreamGrammar.Proofs.Parser.Munches
import StreamGrammar.Proofs.Rule.Reads

/-!
# Linear white space

Linear white space is made of blanks, each of which may be on a new line. The rule `lwsp` takes the
longest word of it that the input begins with, which may be empty, so that it never fails
(`lwsp_longest`). It waits where the input that is there is such a word, or one with the beginning
of a line break behind it, as then a blank may follow. Where something else follows, the beginning
of the line break is given back.
-/

namespace StreamGrammar.Rule

open Computability
open Recognizer (EndsBefore Separate Apart single singleton_eq_single endsBefore_single
  separate_single nil_notMem_single nil_notMem_mul exists_cons_of_mul append_mem_kstar
  exists_of_prefix_kstar goesOn_iff munches_sign)

/-! ## The language -/

/-- A space or a horizontal tab. -/
def blanks : Language UInt8 := {[0x20], [0x09]}

/-- A carriage return and a line feed. -/
def lineBreaks : Language UInt8 := {[0x0D, 0x0A]}

/-- A blank, which may be on a new line. -/
def foldedBlanks : Language UInt8 := blanks + lineBreaks * blanks

/-- Any number of blanks, each of which may be on a new line. -/
def linearSpace : Language UInt8 := foldedBlanks∗

theorem blanks_eq : blanks = single (· == 0x20) + single (· == 0x09) := by
  rw [← singleton_eq_single, ← singleton_eq_single]
  rfl

theorem lineBreaks_eq : lineBreaks = single (· == 0x0D) * single (· == 0x0A) := by
  ext w
  constructor
  · rintro rfl
    exact Language.append_mem_mul (a := [0x0D]) ⟨0x0D, rfl, rfl⟩ ⟨0x0A, rfl, rfl⟩
  · intro hw
    obtain ⟨_, ⟨b, hb, rfl⟩, _, ⟨c, hc, rfl⟩, rfl⟩ := Language.mem_mul.mp hw
    rw [beq_iff_eq.mp hb, beq_iff_eq.mp hc]
    rfl

theorem space_mem_blanks : [0x20] ∈ blanks := .inl rfl

theorem exists_of_mem_blanks {w : List UInt8} (h : w ∈ blanks) : ∃ b, w = [b] := by
  rcases h with rfl | rfl
  · exact ⟨_, rfl⟩
  · exact ⟨_, rfl⟩

theorem nil_notMem_blanks : [] ∉ blanks := by
  intro h
  obtain ⟨b, hnil⟩ := exists_of_mem_blanks h
  cases hnil

theorem endsBefore_blanks (b : UInt8) : EndsBefore blanks b := by
  intro u hu w hw h
  obtain ⟨c, rfl⟩ := exists_of_mem_blanks hu
  obtain ⟨d, rfl⟩ := exists_of_mem_blanks hw
  exact absurd h.length_le (Nat.not_succ_le_self 1)

theorem nil_notMem_lineBreaks : [] ∉ lineBreaks := by
  rw [lineBreaks_eq]
  exact nil_notMem_mul (nil_notMem_single _)

theorem separate_lineBreaks {m : Language UInt8} : Separate lineBreaks m := by
  intro b z _
  rw [lineBreaks_eq]
  exact .mul (separate_single _) (endsBefore_single _ b) (nil_notMem_single _)

/-- A line break begins with no blank. -/
theorem apart_lineBreaks : Apart blanks (lineBreaks * blanks) := by
  intro b u v hu hv
  obtain ⟨z, hz⟩ := exists_cons_of_mul nil_notMem_lineBreaks hv
  obtain ⟨rfl, -⟩ := List.cons.inj (show b :: z = [0x0D, 0x0A] from hz)
  rcases hu with hu | hu
  · cases hu
  · cases hu

theorem mem_foldedBlanks_iff {w : List UInt8} :
    w ∈ foldedBlanks ↔ ∃ b, [b] ∈ blanks ∧ (w = [b] ∨ w = [0x0D, 0x0A, b]) := by
  rw [foldedBlanks, Language.mem_add, Language.mem_mul]
  constructor
  · rintro (hblank | ⟨_, rfl, _, hblank, rfl⟩)
    · obtain ⟨b, rfl⟩ := exists_of_mem_blanks hblank
      exact ⟨b, hblank, .inl rfl⟩
    · obtain ⟨b, rfl⟩ := exists_of_mem_blanks hblank
      exact ⟨b, hblank, .inr rfl⟩
  · rintro ⟨b, hblank, rfl | rfl⟩
    · exact .inl hblank
    · exact .inr ⟨_, rfl, _, hblank, rfl⟩

theorem nil_notMem_foldedBlanks : [] ∉ foldedBlanks := by
  intro h
  obtain ⟨b, -, hnil | hnil⟩ := mem_foldedBlanks_iff.mp h
  · cases hnil
  · cases hnil

/-- It is seen where a blank ends, as it is a single byte. -/
theorem separate_foldedBlanks {m : Language UInt8} : Separate foldedBlanks m := fun b _ _ =>
  (endsBefore_blanks b).add (.mul separate_lineBreaks (endsBefore_blanks b) nil_notMem_blanks)
    apart_lineBreaks nil_notMem_blanks (nil_notMem_mul nil_notMem_lineBreaks)

/-- A word ends with a blank, if it is not empty. -/
theorem blank_of_getLast? {word : List UInt8} {b : UInt8} (hword : word ∈ linearSpace)
    (hb : word.getLast? = some b) : [b] ∈ blanks := by
  rw [linearSpace, ← Language.one_add_kstar_mul_self_eq_kstar] at hword
  rcases (Language.mem_add _ _ _).mp hword with hnil | hmore
  · rw [(Language.mem_one _).mp hnil] at hb
    cases hb
  · obtain ⟨u, -, w, hw, rfl⟩ := Language.mem_mul.mp hmore
    obtain ⟨c, hblank, hw⟩ := mem_foldedBlanks_iff.mp hw
    obtain rfl : c = b := by rcases hw with rfl | rfl <;> simpa using hb
    exact hblank

/-- What begins a blank is the whole of it, nothing, or the beginning of a line break. -/
theorem prefix_foldedBlanks {part w : List UInt8} (hw : w ∈ foldedBlanks) (hpre : part <+: w) :
    part = w ∨ part = [] ∨ part = [0x0D] ∨ part = [0x0D, 0x0A] := by
  obtain ⟨b, -, rfl | rfl⟩ := mem_foldedBlanks_iff.mp hw
  · have hparts : part = [] ∨ part = [b] := by
      simpa [List.prefix_cons_iff] using hpre
    rcases hparts with rfl | rfl
    · exact .inr (.inl rfl)
    · exact .inl rfl
  · have hparts : part = [] ∨ ∃ t, part = 0x0D :: t ∧
        (t = [] ∨ ∃ u, t = 0x0A :: u ∧ (u = [] ∨ u = [b])) := by
      simpa [List.prefix_cons_iff] using hpre
    rcases hparts with rfl | ⟨_, rfl, rfl | ⟨_, rfl, rfl | rfl⟩⟩
    · exact .inr (.inl rfl)
    · exact .inr (.inr (.inl rfl))
    · exact .inr (.inr (.inr rfl))
    · exact .inl rfl

/-- What begins a word of linear white space is a word with the beginning of a line break behind it,
or with nothing. -/
theorem prefix_linearSpace_iff {bytes : List UInt8} :
    (∃ word ∈ linearSpace, bytes <+: word) ↔
      ∃ word ∈ linearSpace,
        bytes = word ∨ bytes = word ++ [0x0D] ∨ bytes = word ++ [0x0D, 0x0A] := by
  constructor
  · rintro ⟨word, hword, hpre⟩
    obtain ⟨u, hu, part, rfl, rfl | ⟨w, hw, hpart⟩⟩ := exists_of_prefix_kstar hword hpre
    · exact ⟨u, hu, .inl (List.append_nil u)⟩
    · rcases prefix_foldedBlanks hw hpart with rfl | rfl | rfl | rfl
      · exact ⟨_, append_mem_kstar hu hw, .inl rfl⟩
      · exact ⟨u, hu, .inl (List.append_nil u)⟩
      · exact ⟨u, hu, .inr (.inl rfl)⟩
      · exact ⟨u, hu, .inr (.inr rfl)⟩
  · rintro ⟨word, hword, hbytes⟩
    have hlonger := append_mem_kstar hword
      (mem_foldedBlanks_iff.mpr ⟨0x20, space_mem_blanks, .inr rfl⟩)
    rcases hbytes with rfl | rfl | rfl
    · exact ⟨_, hword, List.prefix_refl _⟩
    · exact ⟨_, hlonger, (List.prefix_append_right_inj _).mpr ⟨[0x0A, 0x20], rfl⟩⟩
    · exact ⟨_, hlonger, (List.prefix_append_right_inj _).mpr ⟨[0x20], rfl⟩⟩

/-- Every word may be longer. -/
theorem exists_longer {word : List UInt8} (hword : word ∈ linearSpace) :
    ∃ more, more ≠ [] ∧ word ++ more ∈ linearSpace :=
  ⟨_, List.cons_ne_nil _ _,
    append_mem_kstar hword (mem_foldedBlanks_iff.mpr ⟨0x20, space_mem_blanks, .inl rfl⟩)⟩

/-! ## The rules -/

/-- The rule takes the longest word of the language where no more than `n` bytes are left. -/
abbrev Munches (n fuel : Nat) (rule : Rule) (l : Language UInt8) : Prop :=
  (Grammar.parserOf [] fuel rule).Munches n l

variable {n fuel : Nat}

theorem munches_character (expected : String) (code : UInt8) :
    Munches n fuel (character expected (· == code)) (single (· == code)) :=
  ⟨_, reads_character expected _, (munches_sign code).map _⟩

theorem munches_wsp : Munches n fuel wsp blanks := by
  have hspace : Munches n fuel sp _ := munches_character "SP" 0x20
  have htab : Munches n fuel htab _ := munches_character "HTAB" 0x09
  rw [blanks_eq]
  refine hspace.alternation (obeys_of_kit (kit_character _ _)).rewinds htab ?_
    (nil_notMem_single _)
  rintro b u v ⟨c, hc, hu⟩ ⟨d, hd, hv⟩
  obtain ⟨rfl, -⟩ := List.cons.inj hu
  obtain ⟨rfl, -⟩ := List.cons.inj hv
  rw [beq_iff_eq.mp hc] at hd
  cases hd

theorem munches_crlf : Munches n fuel crlf lineBreaks := by
  have hcr : Munches n fuel cr _ := munches_character "CR" 0x0D
  have hlf : Munches n fuel lf _ := munches_character "LF" 0x0A
  have hboth := hcr.concatenation hlf (separate_single _) ⟨[0x0A], 0x0A, rfl, rfl⟩
  rw [lineBreaks_eq]
  exact (hboth.map Datum.list).map _

/-- A blank, which may be on a new line: what `lwsp` repeats. -/
def foldedBlank : Rule := alternation wsp [map Datum.joined (concatenation [crlf, wsp])]

theorem kit_foldedBlank : foldedBlank.Kit := by
  have hlwsp : (captured (star foldedBlank)).Kit := kit_lwsp
  cases hlwsp with
  | captured hstar =>
    cases hstar with
    | star hfolded => exact hfolded

theorem munches_foldedBlank : Munches n fuel foldedBlank foldedBlanks := by
  have hwsp : Munches n fuel wsp _ := munches_wsp
  have hcrlf : Munches n fuel crlf _ := munches_crlf
  have hbreak := hcrlf.concatenation hwsp separate_lineBreaks ⟨_, space_mem_blanks⟩
  exact hwsp.alternation (obeys_of_kit kit_wsp).rewinds ((hbreak.map Datum.list).map Datum.joined)
    apart_lineBreaks nil_notMem_blanks

theorem munches_star_foldedBlank (hfuel : n < fuel) :
    Munches n fuel (star foldedBlank) linearSpace := by
  have hfolded : Munches n fuel foldedBlank _ := munches_foldedBlank
  have hstar := hfolded.star (φ := Datum) (obeys_of_kit kit_foldedBlank).rewinds
    separate_foldedBlanks nil_notMem_foldedBlanks hfuel
  exact hstar.map Datum.list

/-- What `lwsp` comes to on a scanner. -/
structure RunsLinearSpace (unread : List UInt8) (s t : Scanner Memory)
    (verdict : Verdict Datum Datum) : Prop where
  /-- It waits on open input, where what is left is a word, or one with the beginning of a line
  break behind it. -/
  undecided_iff : verdict = .undecided ↔ s.cursor.ended = false ∧ ∃ word ∈ linearSpace,
    unread = word ∨ unread = word ++ [0x0D] ∨ unread = word ++ [0x0D, 0x0A]
  /-- This is where what is left begins a word. -/
  begins_iff : (∃ word ∈ linearSpace, unread <+: word) ↔ ∃ word ∈ linearSpace,
    unread = word ∨ unread = word ++ [0x0D] ∨ unread = word ++ [0x0D, 0x0A]
  /-- Otherwise it takes the longest word that what is left begins with. -/
  accepted : verdict ≠ .undecided → ∃ word ∈ linearSpace, word <+: unread ∧
    (∀ u ∈ linearSpace, u <+: unread → u.length ≤ word.length) ∧
    verdict = .accepted (.text (Text.latin word)) ∧
    t.cursor = { s.cursor with position := s.cursor.position + word.length }
  /-- Nothing is consumed while it waits. -/
  undecided : verdict = .undecided → t.cursor = s.cursor

/-- Linear white space is taken as far as it goes, and waited for where it may go further. -/
theorem lwsp_longest (refs : String → Rule.Parser) {input : List UInt8} {s : Scanner Memory}
    {fuel : Nat} (hs : s.cursor.Reached input)
    (hfuel : (input.drop s.cursor.position).length < fuel) :
    ∃ verdict t, (lwsp.parser refs fuel).run s = .ok verdict t ∧
      RunsLinearSpace (input.drop s.cursor.position) s t verdict := by
  obtain ⟨verdict, t, hrun, hundecided, haccepted, hrejected⟩ :=
    (munches_star_foldedBlank hfuel).run_captured hs.shows (Nat.le_refl _)
  have hlwsp := Parser.run_map s Datum.text
    (Parser.captured (Grammar.parserOf [] fuel (star foldedBlank)))
  rw [hrun] at hlwsp
  refine ⟨_, t, hlwsp, ?_, prefix_linearSpace_iff, ?_, ?_⟩
  · have hmap : verdict.map Datum.text = .undecided ↔ verdict = .undecided := by
      cases verdict <;> simp [Verdict.map]
    rw [hmap, hundecided, goesOn_iff fun word => exists_longer, prefix_linearSpace_iff]
  · intro hdecided
    cases verdict with
    | accepted text =>
      obtain ⟨word, hword, hpre, hle, rfl, ht⟩ := haccepted text rfl
      exact ⟨word, hword, hpre, hle, rfl, ht⟩
    | undecided => exact absurd rfl hdecided
    | rejected error =>
      -- There is always a word, the empty one.
      exact absurd List.nil_prefix (hrejected error rfl [] (Language.nil_mem_kstar _))
  · intro hwaits
    exact (obeys_of_kit kit_lwsp).rewinds s t _ hs.shows.toInRange hlwsp (hwaits ▸ rfl)

/-- On the input " \r\n", which arrives in two chunks, the rule waits while more may follow. Where
the input has ended it takes the space and gives the line break back. -/
theorem lwsp_longest_break :
    let buffer := (Input.Buffer.append {} #[0x20, 0x0D]).append #[0x0A]
    let scanner (ended : Bool) : Scanner Memory := { cursor := { buffer, ended }, memory := #[] }
    ∀ refs : String → Rule.Parser,
      (∃ t, (lwsp.parser refs 4).run (scanner false) = .ok .undecided t ∧
        t.cursor = (scanner false).cursor) ∧
      ∃ t, (lwsp.parser refs 4).run (scanner true) = .ok (.accepted (.text " ")) t ∧
        t.cursor = { (scanner true).cursor with position := 1 } := by
  intro buffer scanner refs
  have hopen : (scanner false).cursor.Reached ([] ++ [0x20, 0x0D] ++ [0x0A]) :=
    .append (.append .new rfl) rfl
  have hended : (scanner true).cursor.Reached ([] ++ [0x20, 0x0D] ++ [0x0A]) := .finish hopen
  have hfuel : [0x20, 0x0D, 0x0A].length < 4 := by decide
  have hspace : [0x20] ∈ linearSpace :=
    append_mem_kstar (Language.nil_mem_kstar _)
      (mem_foldedBlanks_iff.mpr ⟨0x20, space_mem_blanks, .inl rfl⟩)
  constructor
  · obtain ⟨verdict, t, hrun, hlongest⟩ := lwsp_longest refs hopen hfuel
    obtain rfl := hlongest.undecided_iff.mpr ⟨rfl, _, hspace, .inr (.inr rfl)⟩
    exact ⟨t, hrun, hlongest.undecided rfl⟩
  · obtain ⟨verdict, t, hrun, hlongest⟩ := lwsp_longest refs hended hfuel
    have hdecided : verdict ≠ .undecided := fun hwaits =>
      Bool.noConfusion (hlongest.undecided_iff.mp hwaits).1
    obtain ⟨word, hword, hpre, hle, rfl, ht⟩ := hlongest.accepted hdecided
    have hpos : 1 ≤ word.length := hle _ hspace ⟨_, rfl⟩
    -- No other word begins the input, as such a one ends with a blank.
    obtain rfl : word = [0x20] := by
      have hcases : word = [] ∨ ∃ u, word = 0x20 :: u ∧
          (u = [] ∨ ∃ v, u = 0x0D :: v ∧ (v = [] ∨ v = [0x0A])) := by
        simpa [List.prefix_cons_iff] using (show word <+: [0x20, 0x0D, 0x0A] from hpre)
      rcases hcases with rfl | ⟨_, rfl, rfl | ⟨_, rfl, rfl | rfl⟩⟩
      · cases hpos
      · rfl
      · rcases blank_of_getLast? hword rfl with h | h <;> cases h
      · rcases blank_of_getLast? hword rfl with h | h <;> cases h
    exact ⟨t, hrun, ht⟩

end StreamGrammar.Rule
