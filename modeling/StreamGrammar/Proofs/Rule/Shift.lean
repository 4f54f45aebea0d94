import StreamGrammar.Proofs.Parser.Shift
import StreamGrammar.Proofs.Rule.Kit

/-!
# A rule sees only the unread bytes

The offsets in a value can be moved all together (`Datum.shift`). Most functions on values do not
look at offsets, and it makes no difference then whether these are moved before or after. A rule
`Shifts` if it is of the kit and all functions in it are of this kind, as those of the library are
except the one that writes out the message of a mismatch.

Such a rule does the same before the same bytes, wherever these stand in an input, and a rule of the
kit does the same before them at the same offset (`Grammar.unread_decides`).
-/

namespace StreamGrammar

open Input (Cursor)

/-! ## Moving the offsets in a value -/

namespace Datum

mutual

/-- The value with `n` added to the offset of every mismatch in it. -/
def shift (n : Int) : Datum → Datum
  | null => null
  | absent => absent
  | bool value => bool value
  | int value => int value
  | text value => text value
  | list items => list (shiftAll n items)
  | record fields => record (shiftFields n fields)
  | mismatch reason => mismatch (reason.shift n)

/-- The values with `n` added to the offset of every mismatch in them. -/
def shiftAll (n : Int) : List Datum → List Datum
  | [] => []
  | item :: items => item.shift n :: shiftAll n items

/-- The fields with `n` added to the offset of every mismatch in their values. -/
def shiftFields (n : Int) : List (String × Datum) → List (String × Datum)
  | [] => []
  | (name, value) :: fields => (name, value.shift n) :: shiftFields n fields

end

theorem shiftAll_eq_map (n : Int) (items : List Datum) :
    shiftAll n items = items.map (shift n) := by
  induction items with
  | nil => rfl
  | cons item items ih => rw [shiftAll, List.map_cons, ih]

mutual

/-- To move by nothing changes nothing. -/
theorem shift_zero : ∀ d : Datum, d.shift 0 = d
  | null => rfl
  | absent => rfl
  | bool _ => rfl
  | int _ => rfl
  | text _ => rfl
  | list items => by rw [shift, shiftAll_zero items]
  | record fields => by rw [shift, shiftFields_zero fields]
  | mismatch reason => by rw [shift, Mismatch.shift, Int.add_zero]

theorem shiftAll_zero : ∀ items : List Datum, shiftAll 0 items = items
  | [] => rfl
  | item :: items => by rw [shiftAll, shift_zero item, shiftAll_zero items]

theorem shiftFields_zero : ∀ fields : List (String × Datum), shiftFields 0 fields = fields
  | [] => rfl
  | (name, value) :: fields => by rw [shiftFields, shift_zero value, shiftFields_zero fields]

end

theorem shift_zero_eq_id : shift 0 = id := funext shift_zero

/-- A function for which it makes no difference whether offsets are moved before or after. -/
def Commutes (n : Int) (f : Datum → Datum) : Prop := ∀ d, f (d.shift n) = (f d).shift n

theorem commutes_zero (f : Datum → Datum) : Commutes 0 f := by
  intro d
  rw [shift_zero, shift_zero]

variable (n : Int)

theorem isNull_shift (d : Datum) : (d.shift n).isNull = d.isNull := by
  cases d <;> rfl

theorem list_shift (items : List Datum) : list (items.map (shift n)) = (list items).shift n := by
  rw [shift, shiftAll_eq_map]

theorem commutes_item (index : Int) : Commutes n (item index) := by
  intro d
  cases d with
  | list items =>
    rw [shift, shiftAll_eq_map, item, item]
    split
    · rfl
    · rw [List.getD_eq_getElem?_getD, List.getD_eq_getElem?_getD, List.getElem?_map]
      cases items[index.toNat]? <;> rfl
  | _ => rfl

theorem commutes_atLeastOne (label : String) : Commutes n (atLeastOne label) := by
  intro d
  cases d <;> rfl

end Datum

/-! ## Rules -/

/-- The answers of a judge to values with their offsets moved are its answers, moved. -/
def Rule.Judge.Shifts (n : Int) (judge : Rule.Judge) : Prop :=
  ∀ items, judge (items.map (Except.bimap (Datum.shift n) (Datum.shift n))) =
    (judge items).bimap (Datum.shift n) (Datum.shift n)

/-- The rules of the kit none of whose functions looks at offsets. -/
inductive Rule.Shifts (n : Int) : Rule → Prop
  | byte (test : UInt8 → Bool) (expected : String) : Shifts n (.byte test expected)
  | literal (text : Literal) : Shifts n (.literal text)
  | captured {body : Rule} : Shifts n body → Shifts n (.captured body)
  | map {f : Datum → Datum} {body : Rule} :
      Datum.Commutes n f → Shifts n body → Shifts n (.map f body)
  | mapError {f : Datum → Datum} {body : Rule} :
      Datum.Commutes n f → Shifts n body → Shifts n (.mapError f body)
  | alternation {first : Rule} {others : List Rule} :
      Shifts n first → (∀ rule ∈ others, Shifts n rule) → Shifts n (.alternation first others)
  | optional {body : Rule} : Shifts n body → Shifts n (.optional body)
  | concatenation {parts : List Rule} :
      (∀ rule ∈ parts, Shifts n rule) → Shifts n (.concatenation parts)
  | star {body : Rule} : Shifts n body → Shifts n (.star body)
  | plus {adapt : Datum → Datum} {body : Rule} :
      Datum.Commutes n adapt → Shifts n body → Shifts n (.plus adapt body)
  | repetition (bounds : Bounds) {body : Rule} : Shifts n body → Shifts n (.repetition bounds body)
  | sepBy {body separator : Rule} :
      Shifts n body → Shifts n separator → Shifts n (.sepBy body separator)
  | rewinding {body : Rule} : Shifts n body → Shifts n (.rewinding body)
  | found {body : Rule} : Shifts n body → Shifts n (.found body)
  | firstFound {alternatives : List Rule} :
      (∀ rule ∈ alternatives, Shifts n rule) → Shifts n (.firstFound alternatives)
  | repeating {judge : Rule.Judge} {body : Rule} :
      judge.Shifts n → Shifts n body → Shifts n (.repeating judge body)
  | repeatingSome {judge : Rule.Judge} {adapt : Datum → Datum} {body : Rule} :
      judge.Shifts n → Datum.Commutes n adapt → Shifts n body →
        Shifts n (.repeatingSome judge adapt body)
  | ref (name : String) : Shifts n (.ref name)

/-- The grammars all of whose rules are of this kind. -/
def Grammar.Shifts (n : Int) (grammar : Grammar) : Prop :=
  ∀ name rule, grammar.lookup name = some rule → rule.Shifts n

namespace Rule

variable {n : Int} {rule : Rule}

theorem Shifts.kit (h : rule.Shifts n) : rule.Kit := by
  induction h with
  | byte test expected => exact .byte test expected
  | literal text => exact .literal text
  | captured _ ih => exact .captured ih
  | map _ _ ih => exact .map _ ih
  | mapError _ _ ih => exact .mapError _ ih
  | alternation _ _ ih ihs => exact .alternation ih ihs
  | optional _ ih => exact .optional ih
  | concatenation _ ihs => exact .concatenation ihs
  | star _ ih => exact .star ih
  | plus _ _ ih => exact .plus _ ih
  | repetition bounds _ ih => exact .repetition bounds ih
  | sepBy _ _ ih ihseparator => exact .sepBy ih ihseparator
  | rewinding _ ih => exact .rewinding ih
  | found _ ih => exact .found ih
  | firstFound _ ihs => exact .firstFound ihs
  | repeating _ _ ih => exact .repeating _ ih
  | repeatingSome _ _ _ ih => exact .repeatingSome _ _ ih
  | ref name => exact .ref name

theorem Judge.shifts_zero (judge : Rule.Judge) : judge.Shifts 0 := by
  have hitem : Except.bimap (Datum.shift 0) (Datum.shift 0) = id := by
    funext item
    rw [Datum.shift_zero_eq_id]
    cases item <;> rfl
  intro items
  rw [hitem, Array.map_id, Datum.shift_zero_eq_id]
  cases judge items <;> rfl

/-- At the same offset any rule of the kit is of this kind, as no function can tell. -/
theorem Kit.shifts_zero (h : rule.Kit) : rule.Shifts 0 := by
  have hcomm := Datum.commutes_zero
  induction h with
  | byte test expected => exact .byte test expected
  | literal text => exact .literal text
  | captured _ ih => exact .captured ih
  | map f _ ih => exact .map (hcomm f) ih
  | mapError f _ ih => exact .mapError (hcomm f) ih
  | alternation _ _ ih ihs => exact .alternation ih ihs
  | optional _ ih => exact .optional ih
  | concatenation _ ihs => exact .concatenation ihs
  | star _ ih => exact .star ih
  | plus adapt _ ih => exact .plus (hcomm adapt) ih
  | repetition bounds _ ih => exact .repetition bounds ih
  | sepBy _ _ ih ihseparator => exact .sepBy ih ihseparator
  | rewinding _ ih => exact .rewinding ih
  | found _ ih => exact .found ih
  | firstFound _ ihs => exact .firstFound ihs
  | repeating judge _ ih => exact .repeating judge.shifts_zero ih
  | repeatingSome judge adapt _ ih => exact .repeatingSome judge.shifts_zero (hcomm adapt) ih
  | ref name => exact .ref name

/-- The parser of a rule, whose values and errors are all of one type. -/
abbrev ParserShifts (n : Int) (p : Rule.Parser) : Prop :=
  p.Shifts n (Datum.shift n) (Datum.shift n)

theorem Judge.commutes_onItems {judge : Rule.Judge} (h : judge.Shifts n) :
    StreamGrammar.Judge.Commutes (Datum.shift n) (Datum.shift n) (Datum.shift n) (Datum.shift n)
      (Array.map (Except.bimap (Datum.shift n) (Datum.shift n)))
      fun items item => (judge (items.push item), items.push item) := by
  intro items item
  dsimp only
  rw [← Array.map_push, h]

/-- By induction on the rule, if what it refers to does the same before the same bytes. -/
theorem Shifts.parser {refs : String → Rule.Parser} (hrule : rule.Shifts n)
    (hrefs : ∀ name, ParserShifts n (refs name)) (fuel : Nat) :
    ParserShifts n (rule.parser refs fuel) := by
  have hlist {p : StreamGrammar.Parser Memory Datum (List Datum)}
      (hp : p.Shifts n (Datum.shift n) (List.map (Datum.shift n))) :
      ParserShifts n (p.map .list) := hp.map (Datum.list_shift n)
  -- A terminal yields a value without offsets, or a mismatch.
  have hterminal {α : Type} {p : StreamGrammar.Parser Memory Mismatch α} {h : α → Datum}
      (hp : p.Shifts n (Mismatch.shift n) id) (hvalue : ∀ value, h value = (h value).shift n) :
      ParserShifts n ((p.map h).mapError .mismatch) := by
    have hmapped : (p.map h).Shifts n (Mismatch.shift n) (Datum.shift n) := hp.map hvalue
    exact hmapped.mapError fun _ => rfl
  induction hrule with
  | byte test expected => exact hterminal (Parser.shifts_byte test expected) fun _ => rfl
  | literal text => exact hterminal (Parser.shifts_literal text) fun _ => rfl
  | captured _ ih => exact ih.captured.map fun _ => rfl
  | map hf _ ih => exact ih.map hf
  | mapError hf _ ih => exact ih.mapError hf
  | alternation _ _ ih ihs => exact ih.alternation (forall_mem_parsers ihs)
  | optional _ ih => exact ih.optional rfl
  | concatenation _ ihs => exact hlist (.concatenation (forall_mem_parsers ihs))
  | star _ ih => exact hlist (ih.star fuel)
  | plus hadapt _ ih => exact hlist (ih.plus hadapt fuel)
  | repetition bounds _ ih => exact hlist (ih.repetition fuel bounds)
  | sepBy _ _ ih ihseparator => exact hlist (ih.sepBy ihseparator fuel)
  | rewinding _ ih => exact ih.rewinding
  | found _ ih => exact ih.found (Datum.isNull_shift n)
  | firstFound _ ihs => exact .firstFound (Datum.isNull_shift n) rfl (forall_mem_parsers ihs)
  | repeating hjudge _ ih =>
    exact ih.repeating (Judge.commutes_onItems hjudge) Array.map_empty fuel
  | repeatingSome hjudge hadapt _ ih =>
    exact ih.repeatingSome (Judge.commutes_onItems hjudge) Array.map_empty hadapt fuel
  | ref name => exact hrefs name

end Rule

namespace Grammar

variable {n : Int} {grammar : Grammar} (hgrammar : grammar.Shifts n)
include hgrammar

/-- By induction on the depth to which references may be nested. -/
theorem Shifts.named (fuel : Nat) (name : String) :
    Rule.ParserShifts n (grammar.parser fuel name) := by
  induction fuel generalizing name with
  | zero => exact Parser.mirrors_ranOut
  | succ fuel ih =>
    rw [Grammar.parser]
    cases hrule : grammar.lookup name with
    | none => exact Parser.mirrors_ranOut
    | some rule => exact (hgrammar name rule hrule).parser ih fuel

theorem Shifts.parserOf {rule : Rule} (hrule : rule.Shifts n) (fuel : Nat) :
    Rule.ParserShifts n (grammar.parserOf fuel rule) :=
  hrule.parser (hgrammar.named fuel) fuel

end Grammar

/-- What a rule does depends on nothing but the bytes before the cursor and on whether these are
all. Two runs before the same bytes either both run out of fuel, or both answer and take the same
number of bytes. What they answer is the same, up to the offsets in mismatches if the bytes stand at
different offsets. -/
theorem Grammar.unread_decides {input input' : List UInt8} {s s' : Scanner Rule.Memory}
    (hs : s.cursor.Reached input) (hs' : s'.cursor.Reached input')
    (hunread : input'.drop s'.cursor.position = input.drop s.cursor.position)
    (hended : s'.cursor.ended = s.cursor.ended) (grammar : Grammar) (rule : Rule) (fuel : Nat) :
    (∀ n : Int, n = s'.cursor.position - s.cursor.position → grammar.Shifts n → rule.Shifts n →
      (∃ t t', (grammar.parserOf fuel rule).run s = .error .ranOut t ∧
        (grammar.parserOf fuel rule).run s' = .error .ranOut t') ∨
      ∃ verdict t t' count, (grammar.parserOf fuel rule).run s = .ok verdict t ∧
        (grammar.parserOf fuel rule).run s' =
          .ok (verdict.bimap (Datum.shift n) (Datum.shift n)) t' ∧
        t.cursor.position = s.cursor.position + count ∧
        t'.cursor.position = s'.cursor.position + count) ∧
    (s'.cursor.position = s.cursor.position → grammar.Kit → rule.Kit →
      (∃ t t', (grammar.parserOf fuel rule).run s = .error .ranOut t ∧
        (grammar.parserOf fuel rule).run s' = .error .ranOut t') ∨
      ∃ verdict t t', (grammar.parserOf fuel rule).run s = .ok verdict t ∧
        (grammar.parserOf fuel rule).run s' = .ok verdict t' ∧
        t'.cursor.position = t.cursor.position) := by
  have habreast {n : Int} (hn : n = s'.cursor.position - s.cursor.position) :
      s.cursor.Abreast n input input' s'.cursor :=
    ⟨hs.shows, hs'.shows, hunread, hended, by omega⟩
  refine ⟨fun n hn hgrammar hrule => (hgrammar.parserOf hrule fuel).runs (habreast hn), ?_⟩
  intro hposition hgrammar hrule
  -- At the same offset nothing is moved, so any functions will do.
  have hgrammar' : grammar.Shifts 0 := fun name rule hlookup =>
    (hgrammar name rule hlookup).shifts_zero
  have hruns := (hgrammar'.parserOf hrule.shifts_zero fuel).runs (habreast (by omega))
  rw [Datum.shift_zero_eq_id] at hruns
  obtain hran | ⟨verdict, t, t', count, hrun, hrun', ht, ht'⟩ := hruns
  · exact .inl hran
  · have hverdict : verdict.bimap id id = verdict := by cases verdict <;> rfl
    rw [hverdict] at hrun'
    exact .inr ⟨verdict, t, t', hrun, hrun', by omega⟩

/-- A letter is not a digit, neither at the start of an input nor behind three digits in another
one, the first chunk of which has been released. -/
theorem Grammar.unread_decides_letter :
    let number : Rule := .mapError (Datum.atLeastOne "DIGIT") (.byte Rule.isDigit "DIGIT")
    let s : Scanner Rule.Memory :=
      { cursor := { buffer := Input.Buffer.append {} #[0x61] }, memory := #[] }
    let held : Cursor :=
      { buffer := (Input.Buffer.append {} #[0x31, 0x32]).append #[0x33, 0x61], position := 3 }
    let s' : Scanner Rule.Memory := { cursor := held.release.2, memory := #[] }
    (Grammar.parserOf [] 1 number).run s =
        .ok (.rejected (.mismatch ⟨"at least one DIGIT", 0⟩)) s ∧
      ∃ t, (Grammar.parserOf [] 1 number).run s' =
          .ok (.rejected (.mismatch ⟨"at least one DIGIT", 3⟩)) t ∧ t.cursor.position = 3 := by
  intro number s held s'
  have hs : s.cursor.Reached ([] ++ [0x61]) := .append .new rfl
  have hs' : s'.cursor.Reached (([] ++ [0x31, 0x32]) ++ [0x33, 0x61]) := by
    let first : Cursor := { buffer := Input.Buffer.append {} #[0x31, 0x32] }
    have hfirst : first.Reached ([] ++ [0x31, 0x32]) := .append .new rfl
    have happend : first.append #[0x33, 0x61] = .ok { held with position := 0 } := rfl
    have happended := hfirst.append happend
    have hstop : 0 + 3 ≤ held.buffer.stop := by
      rw [happended.shows.holds.stop_eq]
      decide
    have hadvance : ({ held with position := 0 } : Cursor).advance 3 = .ok held :=
      Cursor.advance_eq hstop
    exact .release (.advance happended hadvance)
  have hpeek : s.cursor.peek 0 = some 0x61 := hs.shows.peek_eq 0
  have hrun : (Grammar.parserOf [] 1 number).run s =
      .ok (.rejected (.mismatch ⟨"at least one DIGIT", 0⟩)) s := by
    have hbyte := Parser.run_byte (s := s) Rule.isDigit "DIGIT"
    rw [hpeek] at hbyte
    unfold Grammar.parserOf
    rw [Rule.parser, Parser.run_mapError, Rule.parser, Parser.run_mapError, Parser.run_map, hbyte]
    rfl
  have hnumber : number.Shifts 3 :=
    .mapError (Datum.commutes_atLeastOne 3 "DIGIT") (.byte Rule.isDigit "DIGIT")
  have hruns := (Grammar.unread_decides hs hs' rfl rfl [] number 1).1 3 rfl nofun hnumber
  rw [hrun] at hruns
  obtain ⟨t, t', hran, -⟩ | ⟨verdict, t, t', count, hok, hrun', ht, ht'⟩ := hruns
  · cases hran
  · obtain ⟨rfl, rfl⟩ := EStateM.Result.ok.inj hok
    refine ⟨hrun, t', hrun', ?_⟩
    have hposition : s.cursor.position = 0 := rfl
    have hposition' : s'.cursor.position = 3 := rfl
    omega

end StreamGrammar
