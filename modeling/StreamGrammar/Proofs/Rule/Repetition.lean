import StreamGrammar.Proofs.Parser.Repetition
import StreamGrammar.Proofs.Rule.Contract

/-!
# The repetitions of the kit agree

Each repetition of the kit can be had from others of its rules (`Rule.repetitions_agree`). The two
sides mark the position at different places. That does not matter for a body that keeps the contract
and has no memory: then groups within groups may be taken apart, and what is left are equations.
-/

namespace StreamGrammar

open Input (Cursor)

namespace Datum

/-- Two lists as one. -/
def appended : Datum → Datum
  | list [list front, list back] => list (front ++ back)
  | other => other

/-- A value and a list as one list. -/
def consed : Datum → Datum
  | list [head, list tail] => list (head :: tail)
  | other => other

/-- A value and a list as one list, and no value as the empty one. -/
def unrolled : Datum → Datum
  | null => list []
  | other => other.consed

end Datum

namespace Rule

/-- From `s` on, the rules come to the same verdict and the same place. -/
def SameFrom (refs : String → Rule.Parser) (fuel : Nat) (s : Scanner Memory) (rule rule' : Rule) :
    Prop :=
  Parser.outcome ((rule.parser refs fuel).run s) = Parser.outcome ((rule'.parser refs fuel).run s)

variable (refs : String → Rule.Parser) (fuel : Nat) (body : Rule)

/-! ## Parsers of groups -/

theorem parser_replicate (n : Nat) :
    (concatenation (List.replicate n body)).parser refs fuel =
      (Parser.concatenation (List.replicate n (body.parser refs fuel))).map .list := by
  rw [parser, parsers_eq_map, List.map_replicate]

theorem parser_appended (bounds bounds' : Bounds) :
    (map Datum.appended (concatenation [repetition bounds body, repetition bounds' body])).parser
        refs fuel =
      Parser.map .list (Parser.rewinding do
        let values ← Parser.repetition fuel bounds (body.parser refs fuel)
        (Parser.repetition fuel bounds' (body.parser refs fuel)).map (values ++ ·)) := by
  simp only [parser, parsers, Parser.map_map, Parser.map_concatenation_pair, Parser.map_rewinding]
  simp only [Parser.map_eq_functor_map, bind_map_left, map_bind, Functor.map_map]
  rfl

theorem parser_unrolled :
    (map Datum.unrolled (optional (concatenation [body, star body]))).parser refs fuel =
      Parser.map .list (Parser.optional [] (Parser.rewinding do
        let value ← body.parser refs fuel
        (Parser.star fuel (body.parser refs fuel)).map (value :: ·) :
          StreamGrammar.Parser Memory Datum (List Datum))) := by
  simp only [parser, parsers, Parser.map_optional, Parser.map_map, Parser.map_concatenation_pair,
    Parser.map_rewinding]
  simp only [Parser.map_eq_functor_map, map_bind, Functor.map_map]
  rfl

/-! ## Agreement -/

/-- The repetitions of a rule agree with each other, if the rule keeps the contract, has no memory,
and takes a byte at least when it matches. There has to be fuel for all bytes. -/
theorem repetitions_agree {refs : String → Rule.Parser} {fuel : Nat} {body : Rule}
    (hbody : (body.parser refs fuel).Obeys) (hmemory : (body.parser refs fuel).Memoryless)
    (hconsumes : (body.parser refs fuel).Consumes) {s : Scanner Memory}
    (hs : s.cursor.InRange) (hfuel : s.cursor.available < fuel) :
    (∀ n, SameFrom refs fuel s (repetition (.exactly n) body)
      (concatenation (List.replicate n body))) ∧
    SameFrom refs fuel s (star body) (repetition (.upTo .unbounded) body) ∧
    (∀ adapt, SameFrom refs fuel s (plus adapt body)
      (mapError adapt (repetition (.atLeast 1) body))) ∧
    (∀ (bounds : Bounds) (n : Nat), bounds.min = .times n →
      SameFrom refs fuel s (repetition bounds body)
        (map Datum.appended (concatenation
          [repetition (.exactly n) body, repetition (.upTo (bounds.max.minus n)) body]))) ∧
    SameFrom refs fuel s (star body)
      (map Datum.unrolled (optional (concatenation [body, star body]))) := by
  have hguards := Parser.guards Memory
  have hrelies := Parser.relies Memory
  have htame := hbody.tame
  have hrepetition (bounds : Bounds) :=
    hrelies.map Datum.list (hguards.repetition fuel bounds htame)
  have hstar := hrelies.map Datum.list (hguards.star (φ := Datum) fuel htame)
  have hpair {p q : Rule.Parser} (hp : p.Tame) (hq : q.Tame) :
      (Parser.concatenation [p, q]).Guarded Verdict.isAccepted :=
    hguards.concatenation (List.forall_mem_cons.mpr ⟨hp, List.forall_mem_singleton.mpr hq⟩)
  refine ⟨fun n => ?_, ?_, fun adapt => ?_, fun bounds n hmin => ?_, ?_⟩
  · have hcopies : ∀ p ∈ List.replicate n (body.parser refs fuel), p.Tame := by
      intro p hp
      rwa [List.eq_of_mem_replicate hp]
    have hagree := Parser.exactly_agree_concatenation hbody hmemory hs hconsumes hfuel n
    have hlists := hagree.map Datum.list
    rw [← parser_replicate] at hlists
    refine hlists.outcome_eq hs rfl (hrepetition _).rewinds ?_
    rw [parser_replicate]
    exact (hguards.concatenation hcopies).rewinds.map _
  · unfold SameFrom
    rw [parser, parser, Parser.star_eq_repetition]
  · have hagree := Parser.plus_agree_repetition hbody hmemory hs hconsumes hfuel adapt
    have hlists := hagree.map Datum.list
    rw [← Parser.map_mapError] at hlists
    exact hlists.outcome_eq hs rfl ((hguards.plus fuel adapt htame).rewinds.map _)
      ((hrepetition _).rewinds.mapError adapt)
  · have hagree := Parser.repetition_agree_group hbody hmemory hs hconsumes hfuel hmin
    have hlists := hagree.map Datum.list
    rw [← parser_appended] at hlists
    have hparts := hpair (hrepetition (.exactly n)).tame
      (hrepetition (.upTo (bounds.max.minus n))).tame
    exact hlists.outcome_eq hs rfl (hrepetition _).rewinds ((hparts.rewinds.map _).map _)
  · have hagree := Parser.star_agree_group hbody hmemory hs hconsumes hfuel
    have hlists := hagree.map Datum.list
    rw [← parser_unrolled] at hlists
    have hparts := hpair htame hstar.tame
    exact hlists.outcome_eq hs rfl hstar.rewinds (((hparts.rewinds.map _).optional _).map _)

/-- The repetitions of a letter, on the input "aab". -/
theorem repetitions_agree_letter :
    let refs : String → Rule.Parser := fun _ => .wait
    let letter : Rule := byte (· == 0x61) "a"
    let s : Scanner Memory := { cursor := .ofBytes #[0x61, 0x61, 0x62], memory := #[] }
    SameFrom refs 4 s (repetition (.exactly 2) letter) (concatenation [letter, letter]) ∧
      SameFrom refs 4 s (repetition ⟨.times 1, .times 3, rfl⟩ letter)
        (map Datum.appended (concatenation
          [repetition (.exactly 1) letter, repetition (.upTo (.times 2)) letter])) ∧
      SameFrom refs 4 s (star letter)
        (map Datum.unrolled (optional (concatenation [letter, star letter]))) := by
  intro refs letter s
  have hshows := (Cursor.reached_ofBytes #[0x61, 0x61, 0x62]).shows
  have hobeys : (letter.parser refs 4).Obeys := ((Parser.obeys_byte _ "a").map _).mapError _
  have hmemory : (letter.parser refs 4).Memoryless := fun c hc =>
    ((Parser.memoryless_byte _ "a" c hc).map _).mapError _
  have hconsumes : (letter.parser refs 4).Consumes :=
    ((Parser.consumes_byte _ "a").map _).mapError _
  have hfuel : s.cursor.available < 4 := by
    unfold Cursor.available
    rw [hshows.holds.stop_eq]
    decide
  have h := repetitions_agree hobeys hmemory hconsumes hshows.toInRange hfuel
  exact ⟨h.1 2, h.2.2.2.1 _ 1 rfl, h.2.2.2.2⟩

end Rule

end StreamGrammar
