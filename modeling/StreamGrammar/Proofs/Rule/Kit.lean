import StreamGrammar.Proofs.Parser.Compositional
import StreamGrammar.Rule.Core
import StreamGrammar.Rule.Parser

/-!
# Rules of the kit

A rule is of the kit if it is built of terminals, the combinators and references, without the rules
that break the contract of parsers on purpose or remember something (`Rule.Kit`). The rules that are
built from numbers and texts are of the kit, and so are the core rules (`Rule.kit_core`). What
relates the terminals and carries over to what is built of parsers relates the parsers of every kit
rule (`Respects.parser`), and those of every grammar all of whose rules are of the kit
(`Respects.parserOf`).
-/

namespace StreamGrammar

/-- The rules that are built of terminals, combinators and references alone. -/
inductive Rule.Kit : Rule → Prop
  | byte (test : UInt8 → Bool) (expected : String) : Kit (.byte test expected)
  | literal (text : Literal) : Kit (.literal text)
  | captured {body : Rule} : Kit body → Kit (.captured body)
  | map (f : Datum → Datum) {body : Rule} : Kit body → Kit (.map f body)
  | mapError (f : Datum → Datum) {body : Rule} : Kit body → Kit (.mapError f body)
  | alternation {first : Rule} {others : List Rule} :
      Kit first → (∀ rule ∈ others, Kit rule) → Kit (.alternation first others)
  | optional {body : Rule} : Kit body → Kit (.optional body)
  | concatenation {parts : List Rule} : (∀ rule ∈ parts, Kit rule) → Kit (.concatenation parts)
  | star {body : Rule} : Kit body → Kit (.star body)
  | plus (adapt : Datum → Datum) {body : Rule} : Kit body → Kit (.plus adapt body)
  | repetition (bounds : Bounds) {body : Rule} : Kit body → Kit (.repetition bounds body)
  | sepBy {body separator : Rule} : Kit body → Kit separator → Kit (.sepBy body separator)
  | rewinding {body : Rule} : Kit body → Kit (.rewinding body)
  | found {body : Rule} : Kit body → Kit (.found body)
  | firstFound {alternatives : List Rule} :
      (∀ rule ∈ alternatives, Kit rule) → Kit (.firstFound alternatives)
  | repeating (judge : Rule.Judge) {body : Rule} : Kit body → Kit (.repeating judge body)
  | repeatingSome (judge : Rule.Judge) (adapt : Datum → Datum) {body : Rule} :
      Kit body → Kit (.repeatingSome judge adapt body)
  | ref (name : String) : Kit (.ref name)

/-- The grammars all of whose rules are of the kit. -/
def Grammar.Kit (grammar : Grammar) : Prop :=
  ∀ name rule, grammar.lookup name = some rule → rule.Kit

/-- A rule that a name stands for is in the grammar, under that name. -/
theorem Grammar.mem_of_lookup {grammar : Grammar} {name : String} {rule : Rule}
    (h : grammar.lookup name = some rule) : (name, rule) ∈ grammar := by
  obtain ⟨before, after, rfl, -⟩ := List.lookup_eq_some_iff.mp h
  exact List.mem_append_right before List.mem_cons_self

theorem Grammar.kit_of_forall_mem {grammar : Grammar} (h : ∀ entry ∈ grammar, entry.2.Kit) :
    grammar.Kit := fun name rule hlookup => h (name, rule) (mem_of_lookup hlookup)

theorem Grammar.kit_nil : Grammar.Kit [] := kit_of_forall_mem nofun

namespace Rule

/-- What holds of the parser of each of several rules holds of their parsers. -/
theorem forall_mem_parsers {P : Rule.Parser → Prop} {refs : String → Rule.Parser} {fuel : Nat}
    {rules : List Rule} (h : ∀ rule ∈ rules, P (rule.parser refs fuel)) :
    ∀ p ∈ parsers refs fuel rules, P p := by
  rw [parsers_eq_map]
  exact List.forall_mem_map.mpr h

theorem kit_range (min max : Int) (expected : Option String) : (range min max expected).Kit :=
  .byte _ _

theorem kit_value (code : Int) (expected : Option String) : (value code expected).Kit := .byte _ _

/-- A quoted text is of the kit, if it makes a rule at all. -/
theorem kit_ofText {text : Text.Units} {caseSensitive : Bool} {rule : Rule}
    (h : ofText text caseSensitive = .ok rule) : rule.Kit := by
  unfold ofText at h
  cases hliteral : Literal.ofUnits text caseSensitive with
  | error cause =>
    rw [hliteral] at h
    cases h
  | ok l =>
    rw [hliteral] at h
    obtain rfl := Except.ok.inj h
    exact .literal l

/-- So is a repetition from a number of times to another one. -/
theorem kit_bounded {min max : Bound} {body rule : Rule} (hbody : body.Kit)
    (h : bounded min max body = .ok rule) : rule.Kit := by
  unfold bounded at h
  cases hbounds : Bounds.ofBounds min max with
  | error cause =>
    rw [hbounds] at h
    cases h
  | ok bounds =>
    rw [hbounds] at h
    obtain rfl := Except.ok.inj h
    exact .repetition bounds hbody

theorem kit_character (expected : String) (test : UInt8 → Bool) : (character expected test).Kit :=
  .map byteText (.byte test expected)

/-- Two rules of the kit one after the other. -/
theorem kit_pair {first second : Rule} (hfirst : first.Kit) (hsecond : second.Kit) :
    (concatenation [first, second]).Kit := by
  refine .concatenation fun rule hrule => ?_
  rcases List.mem_pair.mp hrule with rfl | rfl
  · exact hfirst
  · exact hsecond

theorem kit_crlf : crlf.Kit := .map _ (kit_pair (kit_character _ _) (kit_character _ _))

theorem kit_wsp : wsp.Kit :=
  .alternation (kit_character _ _) (List.forall_mem_singleton.mpr (kit_character _ _))

theorem kit_lwsp : lwsp.Kit := by
  have hbreak : (map Datum.joined (concatenation [crlf, wsp])).Kit :=
    .map Datum.joined (kit_pair kit_crlf kit_wsp)
  exact .captured (.star (.alternation kit_wsp (List.forall_mem_singleton.mpr hbreak)))

/-- All core rules are of the kit. -/
theorem kit_core : Grammar.Kit core := by
  apply Grammar.kit_of_forall_mem
  simp only [core, List.forall_mem_cons]
  exact ⟨kit_character _ _, kit_character _ _, kit_character _ _, kit_character _ _, kit_crlf,
    kit_character _ _, kit_character _ _, .map _ (kit_value _ _), kit_character _ _,
    kit_character _ _, kit_character _ _, kit_lwsp, kit_character _ _, kit_character _ _,
    kit_character _ _, kit_wsp, nofun⟩

end Rule

namespace Parser

/-- A relation that relates the terminals to themselves and carries over to what is built of
parsers. -/
structure Respects
    (P : ∀ ⦃ε α : Type⦄, Parser Rule.Memory ε α → Parser Rule.Memory ε α → Prop) : Prop
    extends Compositional P where
  byte (test : UInt8 → Bool) (expected : String) :
    P (byte test expected) (Parser.byte test expected)
  literal (text : Literal) : P (literal text) (Parser.literal text)
  captured {ε α : Type} {p q : Parser Rule.Memory ε α} :
    P p q → P (captured p) (Parser.captured q)

namespace Respects

variable {P : ∀ ⦃ε α : Type⦄, Parser Rule.Memory ε α → Parser Rule.Memory ε α → Prop}
  (h : Respects P) {fuel fuel' : Nat}
include h

theorem parser (refs refs' : String → Rule.Parser) {rule : Rule} (hrule : rule.Kit)
    (hrefs : ∀ name, P (refs name) (refs' name))
    (hle : fuel ≤ fuel') : P (rule.parser refs fuel) (rule.parser refs' fuel') := by
  -- The parsers of several rules are related if those of each are.
  have hparsers {rules : List Rule}
      (hrules : ∀ rule ∈ rules, P (rule.parser refs fuel) (rule.parser refs' fuel')) :
      List.Forall₂ (P (ε := Datum) (α := Datum)) (Rule.parsers refs fuel rules)
        (Rule.parsers refs' fuel' rules) := by
    rw [Rule.parsers_eq_map, Rule.parsers_eq_map, List.forall₂_map_left_iff,
      List.forall₂_map_right_iff, List.forall₂_same]
    exact hrules
  induction hrule with
  | byte test expected => exact h.mapError _ (h.map _ (h.byte test expected))
  | literal text => exact h.mapError _ (h.map _ (h.literal text))
  | captured _ ih => exact h.map _ (h.captured ih)
  | map f _ ih => exact h.map f ih
  | mapError f _ ih => exact h.mapError f ih
  | alternation _ _ ih ihs => exact h.alternation ih (hparsers ihs)
  | optional _ ih => exact h.optional .null ih
  | concatenation _ ihs => exact h.map _ (h.concatenation (hparsers ihs))
  | star _ ih => exact h.map _ (h.star ih hle)
  | plus adapt _ ih => exact h.map _ (h.plus adapt ih hle)
  | repetition bounds _ ih => exact h.map _ (h.repetition bounds ih hle)
  | sepBy _ _ ih ihseparator => exact h.map _ (h.sepBy _ _ ih ihseparator hle)
  | rewinding _ ih => exact h.rewinding ih
  | found _ ih => exact h.found _ ih
  | firstFound _ ihs => exact h.firstFound _ _ (hparsers ihs)
  | repeating judge _ ih => exact h.repeating (h.asks_pure _) ih hle #[]
  | repeatingSome judge adapt _ ih => exact h.repeatingSome (h.asks_pure _) adapt ih hle #[]
  | ref name => exact hrefs name

variable {grammar : Grammar} (hgrammar : grammar.Kit) (hle : fuel ≤ fuel')
include hgrammar hle

/-- By induction on the depth to which references may be nested in the first parser. -/
theorem named (name : String) :
    P (grammar.parser fuel name) (grammar.parser fuel' name) := by
  induction fuel generalizing fuel' name with
  | zero => exact h.ranOut _
  | succ fuel ih =>
    obtain ⟨fuel', rfl⟩ : ∃ n, fuel' = n + 1 := ⟨fuel' - 1, by omega⟩
    have hle' := Nat.le_of_succ_le_succ hle
    rw [Grammar.parser, Grammar.parser]
    cases hrule : grammar.lookup name with
    | none =>
      -- A name without a rule never comes to an end.
      exact h.ranOut _
    | some rule => exact h.parser _ _ (hgrammar name rule hrule) (ih hle') hle'

theorem parserOf {rule : Rule} (hrule : rule.Kit) :
    P (grammar.parserOf fuel rule) (grammar.parserOf fuel' rule) :=
  h.parser _ _ hrule (h.named hgrammar hle) hle

end Respects

end Parser

end StreamGrammar
