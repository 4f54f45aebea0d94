import StreamGrammar.Proofs.Rule.Oblivious
import StreamGrammar.Proofs.Rule.Repetition

/-!
# Grammars, grouped in other ways

The laws by which a grammar may be rewritten (`Rule.groupings_agree`): alternatives of alternatives
are alternatives, alternatives that begin alike may share the beginning, concatenations of
concatenations are concatenations but for the lists in their values, and a search for the first rule
that is there is an optional alternation. All but the first need rules that keep the contract and
have no memory.

How a concatenation is nested is a tree of its own (`Rule.Nesting`). It says what rule is meant,
what the parts are when the groups are dropped, and how the value is flattened to that of the parts.
-/

namespace StreamGrammar

open Input (Cursor)

namespace Rule

/-- Concatenations within concatenations. -/
inductive Nesting where
  /-- A rule that is no group. -/
  | part (rule : Rule)
  /-- Several rules one after the other, some of which may be groups. -/
  | group (nestings : List Nesting)

namespace Nesting

mutual

/-- The rule that is meant. -/
def rule : Nesting → Rule
  | part rule => rule
  | group nestings => concatenation (rules nestings)

/-- The rules that are meant. -/
def rules : List Nesting → List Rule
  | [] => []
  | nesting :: nestings => nesting.rule :: rules nestings

end

mutual

/-- The rules that are no groups, in order. -/
def parts : Nesting → List Rule
  | part rule => [rule]
  | group nestings => partsOfAll nestings

/-- The rules of several nestings that are no groups, in order. -/
def partsOfAll : List Nesting → List Rule
  | [] => []
  | nesting :: nestings => nesting.parts ++ partsOfAll nestings

end

mutual

/-- The values of the parts in a value of the whole. -/
def flatten : Nesting → Datum → List Datum
  | part _, value => [value]
  | group nestings, .list values => flattenAll nestings values
  | group _, value => [value]

/-- The values of the parts in the values of several nestings. -/
def flattenAll : List Nesting → List Datum → List Datum
  | nesting :: nestings, value :: values => nesting.flatten value ++ flattenAll nestings values
  | _, _ => []

end

end Nesting

variable {refs : String → Rule.Parser} {fuel : Nat} {c : Cursor}

/-- The rule keeps the contract and has no memory. -/
abbrev Reliable (refs : String → Rule.Parser) (fuel : Nat) (rule : Rule) : Prop :=
  (rule.parser refs fuel).Reliable

theorem reliable_parsers {rules : List Rule} (h : ∀ rule ∈ rules, rule.Reliable refs fuel) :
    ∀ p ∈ parsers refs fuel rules, p.Reliable := forall_mem_parsers h

namespace Nesting

mutual

theorem guarded_rule : ∀ nesting : Nesting, (∀ rule ∈ nesting.parts, rule.Reliable refs fuel) →
    (nesting.rule.parser refs fuel).Guarded Verdict.isAccepted
  | part rule, hparts => by
    have hrule : rule.Reliable refs fuel := hparts rule (List.mem_singleton_self rule)
    exact ⟨hrule.tame, hrule.rewinds⟩
  | group nestings, hparts => by
    rw [rule, parser_concatenation]
    exact (Parser.relies Memory).map _ ((Parser.guards Memory).concatenation
      (tame_rules nestings hparts))

theorem tame_rules : ∀ nestings : List Nesting,
    (∀ rule ∈ partsOfAll nestings, rule.Reliable refs fuel) →
    ∀ p ∈ parsers refs fuel (rules nestings), p.Tame
  | [], _ => by
    rw [rules, parsers]
    exact List.forall_mem_nil _
  | nesting :: nestings, hparts => by
    obtain ⟨hfirst, hothers⟩ := List.forall_mem_append.mp hparts
    rw [rules, parsers]
    exact List.forall_mem_cons.mpr ⟨(guarded_rule nesting hfirst).tame, tame_rules nestings hothers⟩

end

theorem tame_inOrder_rules {nestings : List Nesting}
    (hparts : ∀ rule ∈ partsOfAll nestings, rule.Reliable refs fuel) :
    (Parser.inOrder (parsers refs fuel (rules nestings))).Tame :=
  (Parser.compositional_keeps Cursor.isTravel_within).inOrder
    (List.forall₂_same.mpr (tame_rules nestings hparts))

mutual

/-- Without its groups a nesting is its parts in order. -/
theorem agree_flatten : ∀ nesting : Nesting, (∀ rule ∈ nesting.parts, rule.Reliable refs fuel) →
    ∀ c : Cursor, c.InRange →
      Parser.Agree c ((nesting.rule.parser refs fuel).map nesting.flatten)
        (Parser.inOrder (parsers refs fuel nesting.parts))
  | part rule, hparts, c, hc => by
    have hrule : rule.Reliable refs fuel := hparts rule (List.mem_singleton_self rule)
    have hsingle : Parser.inOrder (parsers refs fuel [rule]) =
        (rule.parser refs fuel).map fun value => [value] := by
      simp [parsers, Parser.inOrder, Parser.map_eq_functor_map]
    change Parser.Agree c _ (Parser.inOrder (parsers refs fuel [rule]))
    rw [hsingle]
    exact (hrule.memoryless c hc).map _
  | group nestings, hparts, c, hc => by
    have hgroup : ((group nestings).rule.parser refs fuel).map (group nestings).flatten =
        Parser.rewinding ((Parser.inOrder (parsers refs fuel (rules nestings))).map
          (flattenAll nestings)) := by
      rw [rule, parser_concatenation, Parser.map_map, ← Parser.map_rewinding]
      rfl
    rw [hgroup]
    exact (agree_flattenAll nestings hparts c hc).rewinding hc
      (Parser.keeps_map Cursor.isTravel_within _ (tame_inOrder_rules hparts))

theorem agree_flattenAll : ∀ nestings : List Nesting,
    (∀ rule ∈ partsOfAll nestings, rule.Reliable refs fuel) →
    ∀ c : Cursor, c.InRange →
      Parser.Agree c
        ((Parser.inOrder (parsers refs fuel (rules nestings))).map (flattenAll nestings))
        (Parser.inOrder (parsers refs fuel (partsOfAll nestings)))
  | [], _, c, _ => .accept []
  | nesting :: nestings, hparts, c, hc => by
    obtain ⟨hfirst, hothers⟩ := List.forall_mem_append.mp hparts
    have hfront := agree_flatten nesting hfirst c hc
    have htame := Parser.keeps_map Cursor.isTravel_within nesting.flatten
      (guarded_rule nesting hfirst).tame
    have hrows := hfront.andThen hc htame fun front d hd =>
      (agree_flattenAll nestings hothers d hd.inRange).map (front ++ ·)
    have hleft : (Parser.inOrder (parsers refs fuel (rules (nesting :: nestings)))).map
          (flattenAll (nesting :: nestings)) =
        ((nesting.rule.parser refs fuel).map nesting.flatten).andThen fun front =>
          ((Parser.inOrder (parsers refs fuel (rules nestings))).map (flattenAll nestings)).map
            (front ++ ·) := by
      change _ = ((nesting.rule.parser refs fuel).map nesting.flatten) >>= fun front =>
          ((Parser.inOrder (parsers refs fuel (rules nestings))).map (flattenAll nestings)).map
            (front ++ ·)
      simp [rules, parsers, Parser.inOrder, Parser.map_eq_functor_map, flattenAll]
    have hright : Parser.inOrder (parsers refs fuel (partsOfAll (nesting :: nestings))) =
        (Parser.inOrder (parsers refs fuel nesting.parts)).andThen fun front =>
          (Parser.inOrder (parsers refs fuel (partsOfAll nestings))).map (front ++ ·) := by
      rw [← Parser.inOrder_append, partsOfAll, parsers_eq_map, parsers_eq_map, parsers_eq_map,
        List.map_append]
    rw [hleft, hright]
    exact hrows

end

/-- The value of the parts, from the value of the whole. -/
def flattened (nesting : Nesting) (value : Datum) : Datum := .list (nesting.flatten value)

end Nesting

/-! ## Groupings -/

section Groupings

variable {s : Scanner Memory}

theorem parser_alternation_nested (first next : Rule) (before rest after : List Rule) :
    (alternation first (before ++ alternation next rest :: after)).parser refs fuel =
      (alternation first (before ++ next :: (rest ++ after))).parser refs fuel := by
  simp only [parser_alternation, parsers_eq_map, List.map_append, List.map_cons]
  exact Parser.alternation_nested _ _ _ _ _

theorem parser_alternation_alternation (first : Rule) (others more : List Rule) :
    (alternation (alternation first others) more).parser refs fuel =
      (alternation first (others ++ more)).parser refs fuel := by
  simp only [parser_alternation, parsers_eq_map, List.map_append]
  exact Parser.alternation_alternation _ _ _

theorem parser_alternation_concatenation (front next : Rule) (others : List Rule) :
    (alternation (concatenation [front, next])
        (others.map fun other => concatenation [front, other])).parser refs fuel =
      (Parser.alternation (Parser.concatenation [front.parser refs fuel, next.parser refs fuel])
        ((parsers refs fuel others).map fun p =>
          Parser.concatenation [front.parser refs fuel, p])).map .list := by
  rw [Parser.map_alternation]
  simp only [parser_alternation, parsers_eq_map, List.map_map]
  rfl

variable (hs : s.cursor.InRange)
include hs

theorem sameFrom_factored {front next : Rule} {others : List Rule}
    (hfront : front.Reliable refs fuel) (hnext : next.Reliable refs fuel)
    (hothers : ∀ other ∈ others, other.Reliable refs fuel) :
    SameFrom refs fuel s
      (alternation (concatenation [front, next])
        (others.map fun other => concatenation [front, other]))
      (concatenation [front, alternation next others]) := by
  have hguards := Parser.guards Memory
  have hrelies := Parser.relies Memory
  have hps := reliable_parsers hothers
  have hagree := (Parser.agree_factored hfront hs hnext hps).map Datum.list
  have hpair {p : Rule.Parser} (hp : p.Tame) :
      (Parser.concatenation [front.parser refs fuel, p]).Guarded Verdict.isAccepted :=
    hguards.concatenation (List.forall_mem_cons.mpr ⟨hfront.tame, List.forall_mem_singleton.mpr hp⟩)
  have hleft := (hrelies.alternation (hpair hnext.tame)
    (List.forall_mem_map.mpr fun p hp => hpair (hps p hp).tame)).rewinds.map Datum.list
  have hright := (hpair (hnext.alternation hps).tame).rewinds.map Datum.list
  rw [SameFrom, parser_alternation_concatenation]
  exact hagree.outcome_eq hs rfl hleft hright

theorem sameFrom_flattened {nesting : Nesting}
    (hparts : ∀ rule ∈ nesting.parts, rule.Reliable refs fuel) :
    SameFrom refs fuel s (map nesting.flattened nesting.rule) (concatenation nesting.parts) := by
  have htames : ∀ p ∈ parsers refs fuel nesting.parts, p.Tame :=
    fun p hp => (reliable_parsers hparts p hp).tame
  have hinOrder : (Parser.inOrder (parsers refs fuel nesting.parts)).Tame :=
    (Parser.compositional_keeps Cursor.isTravel_within).inOrder (List.forall₂_same.mpr htames)
  have hflattened : (map nesting.flattened nesting.rule).parser refs fuel =
      ((nesting.rule.parser refs fuel).map nesting.flatten).map .list := by
    rw [parser_map, Parser.map_map]
    rfl
  have hparts' := (nesting.agree_flatten hparts s.cursor hs).symm.rewinding hs hinOrder
  have hagree := hparts'.symm.map Datum.list
  have hleft := ((nesting.guarded_rule hparts).rewinds.map nesting.flatten).map Datum.list
  have hright := ((Parser.guards Memory).concatenation htames).rewinds.map Datum.list
  rw [SameFrom, hflattened, parser_concatenation]
  exact hagree.outcome_eq hs rfl hleft hright

theorem sameFrom_firstFound {first : Rule} {others : List Rule}
    (hrules : ∀ rule ∈ first :: others, rule.Reliable refs fuel)
    (hfinds : ∀ rule ∈ first :: others, (rule.parser refs fuel).Finds Datum.isNull) :
    SameFrom refs fuel s (firstFound ((first :: others).map optional))
      (optional (alternation first others)) := by
  obtain ⟨hfirst, hothers⟩ := List.forall_mem_cons.mp hrules
  have hps := reliable_parsers hothers
  have hoptional : ∀ p ∈ parsers refs fuel ((first :: others).map optional), p.Tame := by
    rw [parsers_eq_map, List.map_map]
    refine List.forall_mem_map.mpr fun rule hrule => ?_
    rw [Function.comp_apply, parser_optional]
    exact ((Parser.relies Memory).optional (φ := Datum) .null
      ⟨(hrules rule hrule).tame, (hrules rule hrule).rewinds⟩).tame
  have hsearch : (firstFound ((first :: others).map optional)).parser refs fuel =
      Parser.firstFound Datum.isNull .null
        ((parsers refs fuel (first :: others)).map fun p => p.optional .null) := by
    simp only [parser_firstFound, parsers_eq_map, List.map_map]
    rfl
  have hfinds' : ∀ p ∈ parsers refs fuel (first :: others), p.Finds Datum.isNull :=
    forall_mem_parsers hfinds
  have hnull : Datum.isNull .null = true := rfl
  have hagree := Parser.agree_firstFound (φ := Datum) hnull hs hfirst hps hfinds'
  have hleft : ((firstFound ((first :: others).map optional)).parser refs fuel).Rewinds
      Verdict.isAccepted := by
    rw [parser_firstFound]
    exact ((Parser.guards Memory).firstFound Datum.isNull .null hoptional).rewinds.mono
      fun _ => @isAccepted_of_keep (firstFound []) _
  have hright := (hfirst.rewinds.alternation fun p hp => (hps p hp).rewinds).optional
    (φ := Datum) .null
  rw [hsearch] at hleft
  rw [SameFrom, hsearch, parser_optional, parser_alternation]
  exact hagree.outcome_eq hs rfl hleft hright

end Groupings

/-- Rules may be regrouped. An alternation of alternations is one alternation, wherever the inner
one stands; alternatives with a common beginning are one concatenation; a concatenation of
concatenations is one, with the value flattened as the parts are nested; and a search in which to
fail is to find nothing is an optional alternation, if no rule comes back with nothing. -/
theorem groupings_agree (refs : String → Rule.Parser) (fuel : Nat) {s : Scanner Memory}
    (hs : s.cursor.InRange) :
    (∀ (first next : Rule) (before rest after : List Rule),
      SameFrom refs fuel s (alternation first (before ++ alternation next rest :: after))
        (alternation first (before ++ next :: (rest ++ after)))) ∧
    (∀ (first : Rule) (others more : List Rule),
      SameFrom refs fuel s (alternation (alternation first others) more)
        (alternation first (others ++ more))) ∧
    (∀ (front next : Rule) (others : List Rule), front.Reliable refs fuel →
      (∀ rule ∈ next :: others, rule.Reliable refs fuel) →
      SameFrom refs fuel s
        (alternation (concatenation [front, next])
          (others.map fun other => concatenation [front, other]))
        (concatenation [front, alternation next others])) ∧
    (∀ nesting : Nesting, (∀ rule ∈ nesting.parts, rule.Reliable refs fuel) →
      SameFrom refs fuel s (map nesting.flattened nesting.rule) (concatenation nesting.parts)) ∧
    (∀ (first : Rule) (others : List Rule),
      (∀ rule ∈ first :: others, rule.Reliable refs fuel) →
      (∀ rule ∈ first :: others, (rule.parser refs fuel).Finds Datum.isNull) →
      SameFrom refs fuel s (firstFound ((first :: others).map optional))
        (optional (alternation first others))) := by
  refine ⟨fun first next before rest after => ?_, fun first others more => ?_,
    fun front next others hfront hothers => ?_, fun nesting hparts => ?_,
    fun first others hrules hfinds => ?_⟩
  · rw [SameFrom, parser_alternation_nested]
  · rw [SameFrom, parser_alternation_alternation]
  · obtain ⟨hnext, hothers⟩ := List.forall_mem_cons.mp hothers
    exact sameFrom_factored hs hfront hnext hothers
  · exact sameFrom_flattened hs hparts
  · exact sameFrom_firstFound hs hrules hfinds

/-- Letters on the input "ab": "a" before "c" or "b", letters in groups, and a search for one. -/
theorem groupings_agree_letters :
    let refs := Grammar.parser [] 1
    let letter (code : UInt8) : Rule := byte (· == code) "a letter"
    let s : Scanner Memory := { cursor := .ofBytes #[0x61, 0x62], memory := #[] }
    let nesting : Nesting :=
      .group [.part (letter 0x61), .group [.part (letter 0x62), .part (letter 0x63)]]
    SameFrom refs 1 s
        (alternation (letter 0x62) ([] ++ alternation (letter 0x63) [letter 0x61] :: []))
        (alternation (letter 0x62) [letter 0x63, letter 0x61]) ∧
      SameFrom refs 1 s
        (alternation (concatenation [letter 0x61, letter 0x63])
          [concatenation [letter 0x61, letter 0x62]])
        (concatenation [letter 0x61, alternation (letter 0x63) [letter 0x62]]) ∧
      SameFrom refs 1 s (map nesting.flattened nesting.rule)
        (concatenation [letter 0x61, letter 0x62, letter 0x63]) ∧
      SameFrom refs 1 s (firstFound [optional (letter 0x62), optional (letter 0x61)])
        (optional (alternation (letter 0x62) [letter 0x61])) := by
  intro refs letter s nesting
  have hs : s.cursor.InRange := (Cursor.reached_ofBytes #[0x61, 0x62]).shows.toInRange
  have hletter (code : UInt8) : (letter code).Reliable refs 1 :=
    Grammar.reliable_parserOf Grammar.kit_nil (.byte _ _)
  have hletters (codes : List UInt8) : ∀ rule ∈ codes.map letter, rule.Reliable refs 1 :=
    List.forall_mem_map.mpr fun code _ => hletter code
  have hfinds (codes : List UInt8) :
      ∀ rule ∈ codes.map letter, (rule.parser refs 1).Finds Datum.isNull := by
    refine List.forall_mem_map.mpr fun code _ => ?_
    exact (Parser.Finds.of_map fun value => rfl).mapError _
  obtain ⟨hnested, -, hfactored, hflattened, hfound⟩ :=
    groupings_agree refs 1 hs
  exact ⟨hnested _ _ [] _ [], hfactored _ _ [_] (hletter 0x61) (hletters [0x63, 0x62]),
    hflattened nesting (hletters [0x61, 0x62, 0x63]),
    hfound _ [_] (hletters [0x62, 0x61]) (hfinds [0x62, 0x61])⟩

end Rule

end StreamGrammar
