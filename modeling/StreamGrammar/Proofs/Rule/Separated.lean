import StreamGrammar.Proofs.Parser.Separated
import StreamGrammar.Proofs.Rule.Repetition

/-!
# Separated lists

A list with separators is its first element, and then any number of elements with a separator in
front, as a rule of the kit writes it (`Rule.sepBy_chains`). Where the element and the separator
keep the contract and have no memory, it takes a chain of them as far as it goes, and never a
separator that no element follows.
-/

namespace StreamGrammar

open Input (Cursor)

namespace Rule

theorem parser_item (refs : String → Rule.Parser) (fuel : Nat) (body separator : Rule) :
    (map (Datum.item 1) (concatenation [separator, body])).parser refs fuel =
      Parser.behind (body.parser refs fuel) (separator.parser refs fuel) := by
  simp only [parser, parsers, Parser.map_concatenation_pair, Parser.map_rewinding]
  simp only [Parser.map_eq_functor_map, map_bind, Functor.map_map]
  -- The second of the two values is the element's.
  change Parser.rewinding (separator.parser refs fuel >>= fun _ =>
    (fun value => value) <$> body.parser refs fuel) = _
  rw [id_map']
  rfl

theorem parser_sepBy (refs : String → Rule.Parser) (fuel : Nat) (body separator : Rule) :
    (sepBy body separator).parser refs fuel =
      (map Datum.consed (concatenation
        [body, star (map (Datum.item 1) (concatenation [separator, body]))])).parser refs fuel := by
  let item : Rule := map (Datum.item 1) (concatenation [separator, body])
  calc (sepBy body separator).parser refs fuel
    _ = (Parser.sepBy fuel (body.parser refs fuel) (separator.parser refs fuel)).map .list := by
      rw [parser]
    _ = (Parser.rewinding (body.parser refs fuel >>= fun first =>
          (Parser.star fuel (item.parser refs fuel)).map (first :: ·))).map .list := by
      rw [Parser.sepBy_eq_behind, parser_item]
    _ = (map Datum.consed (concatenation [body, star item])).parser refs fuel := by
      simp only [parser, parsers, Parser.map_concatenation_pair, Parser.map_rewinding]
      simp only [Parser.map_eq_functor_map, map_bind, Functor.map_map]
      rfl

/-- A separated list does what the rule does that is its first element and any number of separators
and elements. What it comes to is read off its elements and separators in turn. -/
theorem sepBy_chains :
    (∀ (refs : String → Rule.Parser) (fuel : Nat) (body separator : Rule),
      (sepBy body separator).parser refs fuel =
        (map Datum.consed (concatenation
          [body, star (map (Datum.item 1) (concatenation [separator, body]))])).parser refs fuel) ∧
    ∀ {σ ε α β : Type} {p : StreamGrammar.Parser σ ε α} {separator : StreamGrammar.Parser σ ε β},
      p.Obeys → p.Memoryless → separator.Obeys → separator.Memoryless →
      ∀ {s : Scanner σ}, s.cursor.InRange → ∀ (verdict : Verdict ε (List α)) (d : Cursor),
        (∃ fuel, Parser.outcome ((Parser.sepBy fuel p separator).run s) = .ok (verdict, d)) ↔
          p.Separated separator s.cursor verdict d := by
  refine ⟨parser_sepBy, ?_⟩
  intro σ ε α β p separator hp hmemory hseparator hmemory' s hs verdict d
  constructor
  · rintro ⟨fuel, houtcome⟩
    obtain ⟨t, hrun, rfl⟩ := Parser.outcome_eq_ok_iff.mp houtcome
    exact Parser.separated_of_run hp hseparator hmemory hmemory' hs hrun
  · intro h
    obtain ⟨fuel, t, hrun, ht⟩ := h.exists_run hp hseparator hs
    exact ⟨fuel, Parser.outcome_eq_ok_iff.mpr ⟨t, hrun, ht⟩⟩

/-- Letters with commas between them, on the input "a,b": the comma is put back. -/
theorem sepBy_chains_dangling :
    let s : Scanner Unit := { cursor := .ofBytes #[0x61, 0x2C, 0x62], memory := () }
    let letter : StreamGrammar.Parser Unit Mismatch UInt8 := .byte (· == 0x61) "a"
    let comma : StreamGrammar.Parser Unit Mismatch UInt8 := .byte (· == 0x2C) "a comma"
    ∃ fuel, Parser.outcome ((Parser.sepBy fuel letter comma).run s) =
      .ok (.accepted [0x61], { s.cursor with position := 1 }) := by
  intro s letter comma
  let place (position : Nat) : Cursor := { s.cursor with position }
  have hreached (position : Nat) (hle : position ≤ 3) :
      Cursor.Reached [0x61, 0x2C, 0x62] (place position) := Cursor.reached_ofBytes_at hle
  have hshows (position : Nat) (hle : position ≤ 3) :
      (place position).Shows [0x61, 0x2C, 0x62] := (hreached position hle).shows
  have hletter : letter.Obeys := Parser.obeys_byte _ "a"
  have hcomma : comma.Obeys := Parser.obeys_byte _ "a comma"
  have hmemory : letter.Memoryless := Parser.memoryless_byte _ "a"
  have hmemory' : comma.Memoryless := Parser.memoryless_byte _ "a comma"
  have hfirst : letter.Answers (place 0) (.accepted 0x61) (place 1) :=
    Parser.answers_byte_of_shows (hshows 0 (by decide)) rfl _ "a"
  have hmark : comma.Answers (place 1) (.accepted 0x2C) (place 2) :=
    Parser.answers_byte_of_shows (hshows 1 (by decide)) rfl _ "a comma"
  have hlast : letter.Answers (place 2) (.rejected ⟨"a", 2⟩) (place 2) :=
    Parser.answers_byte_of_shows (hshows 2 (by decide)) rfl _ "a"
  exact (sepBy_chains.2 hletter hmemory hcomma hmemory' (hshows 0 (by decide)).toInRange _ _).mpr
    (.dangles (.one hfirst) hmark hlast)

end Rule

end StreamGrammar
