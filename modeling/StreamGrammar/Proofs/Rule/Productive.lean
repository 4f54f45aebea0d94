import StreamGrammar.Proofs.Parser.Productive
import StreamGrammar.Proofs.Rule.Reads
import StreamGrammar.Proofs.Stream.Rule
import StreamGrammar.Rule.Build

/-!
# Productive rules come to an end

Whether a rule can match without taking a byte is seen by looking at it (`Rule.nullable`), for the
rules that are built of terminals, groups and plain repetitions (`Rule.Built`). Of a rule that
cannot, a repetition without a greatest number comes to an end, since each match leaves less to be
read. A rule in which no other rule is repeated so is productive, and its runs end on every input
(`Rule.productive_ends`).
-/

namespace StreamGrammar

open Input (Cursor)

namespace Rule

mutual

/-- Whether the rule may match without taking a byte. -/
def nullable : Rule → Bool
  | byte _ _ => false
  | literal text => text.codes.isEmpty
  | captured body | map _ body | mapError _ body | rewinding body | plus _ body | sepBy body _ =>
    body.nullable
  | alternation first others => first.nullable || someNullable others
  | concatenation parts => allNullable parts
  | repetition bounds body => bounds.min == .times 0 || body.nullable
  | _ => true

/-- Whether one of several rules may. -/
def someNullable : List Rule → Bool
  | [] => false
  | rule :: rules => rule.nullable || someNullable rules

/-- Whether all of several rules may. -/
def allNullable : List Rule → Bool
  | [] => true
  | rule :: rules => rule.nullable && allNullable rules

end

theorem someNullable_eq_any (rules : List Rule) : someNullable rules = rules.any nullable := by
  induction rules with
  | nil => rw [someNullable, List.any_nil]
  | cons rule rules ih => rw [someNullable, List.any_cons, ih]

theorem allNullable_eq_all (rules : List Rule) : allNullable rules = rules.all nullable := by
  induction rules with
  | nil => rw [allNullable, List.all_nil]
  | cons rule rules ih => rw [allNullable, List.all_cons, ih]

mutual

/-- The greatest number to which a repetition in the rule is bounded. -/
def widest : Rule → Nat
  | captured body | map _ body | mapError _ body | optional body | star body | plus _ body |
    rewinding body => body.widest
  | alternation first others => max first.widest (widestOf others)
  | concatenation parts => widestOf parts
  | repetition bounds body =>
    match bounds.max with
    | .times n => max n body.widest
    | .unbounded => body.widest
  | sepBy body separator => max body.widest separator.widest
  | _ => 0

/-- The greatest number to which a repetition in one of the rules is bounded. -/
def widestOf : List Rule → Nat
  | [] => 0
  | rule :: rules => max rule.widest (widestOf rules)

end

theorem widest_le_widestOf {rule : Rule} {rules : List Rule} (h : rule ∈ rules) :
    rule.widest ≤ widestOf rules := by
  induction rules with
  | nil => cases h
  | cons other rules ih =>
    rw [widestOf]
    rcases List.mem_cons.mp h with rfl | h
    · exact Nat.le_max_left _ _
    · exact Nat.le_trans (ih h) (Nat.le_max_right _ _)

/-- The rules that are built of terminals, groups and plain repetitions, with `P` holding of each of
the repetitions. -/
inductive Built (P : Rule → Prop) : Rule → Prop
  | byte (test : UInt8 → Bool) (expected : String) : Built P (.byte test expected)
  | literal (text : Literal) : Built P (.literal text)
  | captured {body : Rule} : Built P body → Built P (.captured body)
  | map (f : Datum → Datum) {body : Rule} : Built P body → Built P (.map f body)
  | mapError (f : Datum → Datum) {body : Rule} : Built P body → Built P (.mapError f body)
  | alternation {first : Rule} {others : List Rule} :
      Built P first → (∀ rule ∈ others, Built P rule) → Built P (.alternation first others)
  | optional {body : Rule} : Built P body → Built P (.optional body)
  | concatenation {parts : List Rule} :
      (∀ rule ∈ parts, Built P rule) → Built P (.concatenation parts)
  | rewinding {body : Rule} : Built P body → Built P (.rewinding body)
  | star {body : Rule} : P (.star body) → Built P body → Built P (.star body)
  | plus (adapt : Datum → Datum) {body : Rule} :
      P (.plus adapt body) → Built P body → Built P (.plus adapt body)
  | repetition (bounds : Bounds) {body : Rule} :
      P (.repetition bounds body) → Built P body → Built P (.repetition bounds body)
  | sepBy {body separator : Rule} : P (.sepBy body separator) → Built P body →
      Built P separator → Built P (.sepBy body separator)

/-- The rules that are built so. -/
abbrev Plain : Rule → Prop := Built fun _ => True

/-- If this is a repetition without a greatest number, what it repeats takes a byte. -/
def TakesOrStops : Rule → Prop
  | star body | plus _ body => body.nullable = false
  | repetition bounds body => bounds.max = .unbounded → body.nullable = false
  | sepBy body separator => (body.nullable && separator.nullable) = false
  | _ => True

/-- The rules that are built so, in which a repetition has a greatest number or repeats what takes a
byte. -/
abbrev Productive : Rule → Prop := Built TakesOrStops

theorem Built.mono {P Q : Rule → Prop} {rule : Rule} (h : Built P rule)
    (hle : ∀ rule, P rule → Q rule) : Built Q rule := by
  induction h with
  | byte test expected => exact .byte test expected
  | literal text => exact .literal text
  | captured _ ih => exact .captured ih
  | map f _ ih => exact .map f ih
  | mapError f _ ih => exact .mapError f ih
  | alternation _ _ ih ihs => exact .alternation ih ihs
  | optional _ ih => exact .optional ih
  | concatenation _ ihs => exact .concatenation ihs
  | rewinding _ ih => exact .rewinding ih
  | star h _ ih => exact .star (hle _ h) ih
  | plus adapt h _ ih => exact .plus adapt (hle _ h) ih
  | repetition bounds h _ ih => exact .repetition bounds (hle _ h) ih
  | sepBy h _ _ ih ihseparator => exact .sepBy (hle _ h) ih ihseparator

theorem Built.kit {P : Rule → Prop} {rule : Rule} (h : Built P rule) : rule.Kit := by
  induction h with
  | byte test expected => exact .byte test expected
  | literal text => exact .literal text
  | captured _ ih => exact .captured ih
  | map f _ ih => exact .map f ih
  | mapError f _ ih => exact .mapError f ih
  | alternation _ _ ih ihs => exact .alternation ih ihs
  | optional _ ih => exact .optional ih
  | concatenation _ ihs => exact .concatenation ihs
  | rewinding _ ih => exact .rewinding ih
  | star _ _ ih => exact .star ih
  | plus adapt _ _ ih => exact .plus adapt ih
  | repetition bounds _ _ ih => exact .repetition bounds ih
  | sepBy _ _ _ ih ihseparator => exact .sepBy ih ihseparator

theorem Built.plain {P : Rule → Prop} {rule : Rule} (h : Built P rule) : Plain rule :=
  h.mono fun _ _ => trivial

variable {fuel n : Nat} {rule : Rule} {rules : List Rule}

/-! ## Taking a byte -/

theorem Built.keeps {P : Rule → Prop} (h : Built P rule) :
    (Grammar.parserOf [] fuel rule).Keeps Cursor.Onward := (obeys_of_kit h.kit).keeps

/-- By induction on the rule: what is not nullable has a part that takes a byte. -/
theorem Plain.consumes (h : Plain rule) (hnullable : rule.nullable = false) (fuel : Nat) :
    (Grammar.parserOf [] fuel rule).Consumes := by
  induction h with
  | byte test expected => exact ((Parser.consumes_byte test expected).map _).mapError _
  | literal text =>
    have hcodes : text.codes ≠ [] := by
      rw [nullable] at hnullable
      exact List.isEmpty_eq_false_iff.mp hnullable
    exact ((Parser.consumes_literal text hcodes).map _).mapError _
  | captured _ ih => exact (ih hnullable).captured.map _
  | map f _ ih => exact (ih hnullable).map f
  | mapError f _ ih => exact (ih hnullable).mapError f
  | alternation hfirst hothers ih ihs =>
    rw [nullable, someNullable_eq_any, Bool.or_eq_false_iff, List.any_eq_false] at hnullable
    obtain ⟨hnone, hnones⟩ := hnullable
    refine (ih hnone).alternation hfirst.keeps (forall_mem_parsers fun rule hrule => ?_)
    exact ⟨ihs rule hrule (Bool.eq_false_iff.mpr (hnones rule hrule)), (hothers rule hrule).keeps⟩
  | optional _ _ => cases hnullable
  | concatenation hparts ihs =>
    rw [nullable, allNullable_eq_all, List.all_eq_false] at hnullable
    obtain ⟨rule, hrule, hnone⟩ := hnullable
    have hkeeps : ∀ p ∈ parsers (Grammar.parser [] fuel) fuel _, p.Keeps Cursor.Onward :=
      forall_mem_parsers fun rule hrule => (hparts rule hrule).keeps
    refine (Parser.consumes_concatenation hkeeps ⟨_, ?_, ihs rule hrule ?_⟩).map _
    · rw [parsers_eq_map]
      exact List.mem_map_of_mem hrule
    · exact Bool.eq_false_iff.mpr hnone
  | rewinding _ ih => exact (ih hnullable).rewinding
  | star _ _ _ => cases hnullable
  | plus adapt _ hbody ih => exact ((ih hnullable).plus hbody.keeps adapt fuel).map _
  | repetition bounds _ hbody ih =>
    rw [nullable, Bool.or_eq_false_iff, beq_eq_false_iff_ne] at hnullable
    exact ((ih hnullable.2).repetition hbody.keeps hnullable.1 fuel).map _
  | sepBy _ hbody hseparator ih _ =>
    exact ((ih hnullable).sepBy hbody.keeps hseparator.keeps fuel).map _

/-! ## Coming to an end -/

/-- By induction on the rule: repetitions have fuel for all bytes, and for all rounds if their
number is bounded. -/
theorem Productive.finishes (h : Productive rule) (hn : n < fuel) (hwidest : rule.widest ≤ fuel) :
    (Grammar.parserOf [] fuel rule).Finishes n := by
  induction h with
  | byte test expected => exact ((Parser.finishes_byte test expected).map _).mapError _
  | literal text => exact ((Parser.finishes_literal text).map _).mapError _
  | captured _ ih => exact (ih hwidest).captured.map _
  | map f _ ih => exact (ih hwidest).map f
  | mapError f _ ih => exact (ih hwidest).mapError f
  | alternation _ _ ih ihs =>
    rw [widest, Nat.max_le] at hwidest
    refine (ih hwidest.1).alternation (forall_mem_parsers fun rule hrule => ?_)
    exact ihs rule hrule (Nat.le_trans (widest_le_widestOf hrule) hwidest.2)
  | optional _ ih => exact (ih hwidest).optional _
  | concatenation _ ihs =>
    rw [widest] at hwidest
    refine (Parser.finishes_concatenation (forall_mem_parsers fun rule hrule => ?_)).map _
    exact ihs rule hrule (Nat.le_trans (widest_le_widestOf hrule) hwidest)
  | rewinding _ ih => exact (ih hwidest).rewinding
  | star htakes hbody ih =>
    have hconsumes := hbody.plain.consumes htakes fuel
    exact ((ih hwidest).star hn hconsumes).map _
  | plus adapt htakes hbody ih =>
    have hconsumes := hbody.plain.consumes htakes fuel
    exact ((ih hwidest).plus hn adapt hconsumes).map _
  | repetition bounds htakes hbody ih =>
    rw [widest] at hwidest
    cases hmax : bounds.max with
    | times m =>
      rw [hmax, Nat.max_le] at hwidest
      exact ((ih hwidest.2).repetition (.inr ⟨m, hmax, hwidest.1⟩)).map _
    | unbounded =>
      rw [hmax] at hwidest
      have hconsumes := hbody.plain.consumes (htakes hmax) fuel
      exact ((ih hwidest).repetition (.inl ⟨hconsumes, hn⟩)).map _
  | sepBy htakes hbody hseparator ih ihseparator =>
    rw [widest, Nat.max_le] at hwidest
    refine ((ih hwidest.1).sepBy hn (ihseparator hwidest.2) ?_).map _
    rcases Bool.and_eq_false_iff.mp htakes with hnullable | hnullable
    · have hconsumes := hbody.plain.consumes hnullable fuel
      exact Parser.consumes_andThen hseparator.keeps fun _ => hconsumes
    · have hconsumes := hseparator.plain.consumes hnullable fuel
      exact hconsumes.andThen hseparator.keeps fun _ => hbody.keeps

/-- From every scanner, all runs with enough fuel come to one end. -/
theorem Productive.ends (h : Productive rule) {s : Scanner Memory} (hs : s.cursor.InRange) :
    ∃ verdict t, ∀ fuel, s.cursor.available + rule.widest < fuel →
      (Grammar.parserOf [] fuel rule).run s = .ok verdict t := by
  let enough := s.cursor.available + rule.widest + 1
  have hfinishes : (Grammar.parserOf [] enough rule).Finishes s.cursor.available :=
    h.finishes (by omega) (by omega)
  obtain ⟨verdict, t, hrun, -⟩ := hfinishes s hs (Nat.le_refl _)
  refine ⟨verdict, t, fun fuel hfuel => ?_⟩
  have hrefines := Parser.respects_refines.parserOf Grammar.kit_nil (Nat.succ_le_of_lt hfuel) h.kit
  exact hrefines.run_eq hrun

/-- What is proved of streams of rules that always come to an end holds of productive ones. -/
theorem Productive.terminates (h : Productive rule) : Grammar.Terminates [] rule := by
  intro s input hs
  obtain ⟨verdict, t, hrun⟩ := h.ends hs.shows.toInRange
  exact ⟨_, verdict, t, hrun _ (Nat.lt_succ_self _)⟩

/-! ## Repetitions -/

/-- The repetitions of `body`, and what each of them makes of a parser. -/
inductive Repeats (fuel : Nat) (body : Rule) :
    Rule → (∀ τ : Type, StreamGrammar.Parser τ Datum Datum →
      StreamGrammar.Parser τ Datum (List Datum)) → Prop
  | star : Repeats fuel body (.star body) fun _ p => Parser.star fuel p
  | plus (adapt : Datum → Datum) :
      Repeats fuel body (.plus adapt body) fun _ p => Parser.plus fuel adapt p
  | repetition (bounds : Bounds) :
      Repeats fuel body (.repetition bounds body) fun _ p => Parser.repetition fuel bounds p

section Repeats

variable {body : Rule} {repeated : ∀ τ : Type, StreamGrammar.Parser τ Datum Datum →
  StreamGrammar.Parser τ Datum (List Datum)} (h : Repeats fuel body rule repeated)
include h

theorem Repeats.parserOf_eq :
    Grammar.parserOf [] fuel rule = (repeated _ (Grammar.parserOf [] fuel body)).map .list := by
  cases h <;> rfl

theorem Repeats.tries (hbody : Plain body) (hnullable : body.nullable = false)
    {s : Scanner Memory} (hs : s.cursor.InRange) :
    Parser.TriesAtMost (s.cursor.available + 1) (fun τ p => (repeated τ p).map Datum.list)
      (Grammar.parserOf [] fuel body) s := by
  have hobeys : (Grammar.parserOf [] fuel body).Obeys := obeys_of_kit hbody.kit
  have hconsumes := hbody.consumes hnullable fuel
  cases h with
  | star => exact (Parser.tries_star hobeys hconsumes hs fuel).map _
  | plus adapt => exact (Parser.tries_plus hobeys hconsumes hs fuel adapt).map _
  | repetition bounds => exact (Parser.tries_repetition hobeys hconsumes hs fuel bounds).map _

end Repeats

/-! ## Core rules -/

section Core

variable {P : Rule → Prop}

theorem built_character (expected : String) (test : UInt8 → Bool) :
    Built P (character expected test) := .map byteText (.byte test expected)

theorem built_pair {first second : Rule} (hfirst : Built P first) (hsecond : Built P second) :
    Built P (concatenation [first, second]) :=
  .concatenation (List.forall_mem_cons.mpr ⟨hfirst, List.forall_mem_singleton.mpr hsecond⟩)

theorem built_crlf : Built P crlf := .map _ (built_pair (built_character _ _) (built_character _ _))

theorem built_wsp : Built P wsp :=
  .alternation (built_character _ _) (List.forall_mem_singleton.mpr (built_character _ _))

end Core

theorem productive_lwsp : Productive lwsp := by
  have hbreak : Productive (map Datum.joined (concatenation [crlf, wsp])) :=
    .map Datum.joined (built_pair built_crlf built_wsp)
  exact .captured (.star rfl (.alternation built_wsp (List.forall_mem_singleton.mpr hbreak)))

/-- All core rules are productive, and all take a byte but for linear white space. -/
theorem productive_core {name : String} (hlookup : core.lookup name = some rule) :
    Productive rule ∧ (rule.nullable = true ↔ name = "LWSP") := by
  have hproductive : ∀ entry ∈ core, Productive entry.2 := by
    simp only [core, List.forall_mem_cons]
    exact ⟨built_character _ _, built_character _ _, built_character _ _, built_character _ _,
      built_crlf, built_character _ _, built_character _ _, .map _ (.byte _ _),
      built_character _ _, built_character _ _, built_character _ _, productive_lwsp,
      built_character _ _, built_character _ _, built_character _ _, built_wsp,
      List.forall_mem_nil _⟩
  have hnullable : ∀ entry ∈ core, entry.2.nullable = (entry.1 == "LWSP") := by
    simp only [core, List.forall_mem_cons]
    exact ⟨rfl, rfl, rfl, rfl, rfl, rfl, rfl, rfl, rfl, rfl, rfl, rfl, rfl, rfl, rfl, rfl,
      List.forall_mem_nil _⟩
  have hmem : (name, rule) ∈ core := Grammar.mem_of_lookup hlookup
  refine ⟨hproductive _ hmem, ?_⟩
  rw [hnullable _ hmem]
  exact beq_iff_eq

/-- Rules that are built of terminals, groups and plain repetitions take a byte where they match,
unless they are nullable. From every scanner they come to an end, if they are productive. A
repetition of one that is not nullable tries it once for every byte that is left, and once more, at
most. The core rules are productive, and only linear white space is nullable. -/
theorem productive_ends :
    (∀ rule, Plain rule → rule.nullable = false →
      ∀ fuel, (Grammar.parserOf [] fuel rule).Consumes) ∧
    (∀ rule, Productive rule → ∀ s : Scanner Memory, s.cursor.InRange →
      ∃ verdict t, ∀ fuel, s.cursor.available + rule.widest < fuel →
        (Grammar.parserOf [] fuel rule).run s = .ok verdict t) ∧
    (∀ body, Plain body → body.nullable = false →
      ∀ fuel rule repeated, Repeats fuel body rule repeated →
        Grammar.parserOf [] fuel rule = (repeated _ (Grammar.parserOf [] fuel body)).map .list ∧
        ∀ s : Scanner Memory, s.cursor.InRange →
          Parser.TriesAtMost (s.cursor.available + 1) (fun τ p => (repeated τ p).map Datum.list)
            (Grammar.parserOf [] fuel body) s) ∧
    ∀ name rule, core.lookup name = some rule →
      Productive rule ∧ (rule.nullable = true ↔ name = "LWSP") :=
  ⟨fun _ hrule hnullable => hrule.consumes hnullable, fun _ hrule _ hs => hrule.ends hs,
    fun _ hbody hnullable _ _ _ h =>
      ⟨h.parserOf_eq, fun _ hs => h.tries hbody hnullable hs⟩,
    fun _ _ => productive_core⟩

/-- An optional letter a and a letter b, any number of times, on the input "abb": the pair takes a
byte and is tried four times at most, and with fuel for three bytes the same two pairs are found
however much more there is. -/
theorem productive_ends_pairs :
    let pair : Rule := concatenation [optional (byte (· == 0x61) "a"), byte (· == 0x62) "b"]
    let s : Scanner Memory := { cursor := .ofBytes #[0x61, 0x62, 0x62], memory := #[] }
    let pairs : Datum := .list [.list [.int 0x61, .int 0x62], .list [.null, .int 0x62]]
    (Grammar.parserOf [] 4 pair).Consumes ∧
    (∃ t, ∀ fuel, 3 < fuel →
      (Grammar.parserOf [] fuel (star pair)).run s = .ok (.accepted pairs) t) ∧
    Parser.TriesAtMost (φ := Datum) 4 (fun _ p => (Parser.star 4 p).map Datum.list)
      (Grammar.parserOf [] 4 pair) s := by
  intro pair s pairs
  have hpair {P : Rule → Prop} : Built P pair := built_pair (.optional (.byte _ _)) (.byte _ _)
  have hs : s.cursor.InRange := (Cursor.reached_ofBytes #[0x61, 0x62, 0x62]).shows.toInRange
  have hrun : ∃ t, (Grammar.parserOf [] 4 (star pair)).run s = .ok (.accepted pairs) t :=
    ⟨_, by with_unfolding_all rfl⟩
  obtain ⟨u, hrun⟩ := hrun
  obtain ⟨verdict, t, hends⟩ := productive_ends.2.1 (star pair) (.star rfl hpair) s hs
  have hsame := (hends 4 (Nat.lt_succ_self 3)).symm.trans hrun
  obtain ⟨rfl, rfl⟩ := EStateM.Result.ok.inj hsame
  have htries := (productive_ends.2.2.1 pair hpair rfl 4 _ _ .star).2 s hs
  exact ⟨productive_ends.1 pair hpair rfl 4, ⟨t, hends⟩, htries⟩

end Rule

end StreamGrammar
