import StreamGrammar.Proofs.Parser.Captured
import StreamGrammar.Proofs.Rule.Contract

/-!
# Captures

A capture does what its body does, and yields the input that was moved over. It may be moved into
the rule (`Rule.captured_distributes`): the texts of the parts, joined, are the text of the whole.
For that the parts have to keep the contract of parsers, and need not be without memory, since both
sides run them at the same places.
-/

namespace StreamGrammar

open Input (Cursor)

namespace Datum

/-- The text of a value, as a string. -/
def written (d : Datum) : String := d.joinOnto ""

mutual

theorem joinOnto_eq_append (start : String) : ∀ d : Datum, d.joinOnto start = start ++ d.written
  | bool value => by rw [written, joinOnto, joinOnto, String.empty_append]
  | int value => by rw [written, joinOnto, joinOnto, String.empty_append]
  | text value => by rw [written, joinOnto, joinOnto, String.empty_append]
  | list items => by
    rw [written, joinOnto, joinOnto, joinAllOnto_eq_append start items,
      joinAllOnto_eq_append "" items, String.empty_append]
  | null => String.append_empty.symm
  | absent => String.append_empty.symm
  | record _ => String.append_empty.symm
  | mismatch _ => String.append_empty.symm

theorem joinAllOnto_eq_append (start : String) :
    ∀ items : List Datum, joinAllOnto start items = start ++ Parser.spelling written items
  | [] => String.append_empty.symm
  | item :: items => by
    rw [joinAllOnto, joinAllOnto_eq_append _ items, joinOnto_eq_append start item,
      Parser.spelling_cons, String.append_assoc]

end

theorem written_text (value : String) : (text value).written = value := by
  rw [written, joinOnto, String.empty_append]

theorem written_list (items : List Datum) :
    (list items).written = Parser.spelling written items := by
  rw [written, joinOnto, joinAllOnto_eq_append, String.empty_append]

theorem joined_text (value : String) : (text value).joined = text value :=
  congrArg text (written_text value)

end Datum

namespace Rule

variable (refs : String → Rule.Parser) (fuel : Nat)

/-- From `s` on, the rules run alike: they come to the same verdict and leave the same scanner. -/
def RunAlike (s : Scanner Memory) (rule rule' : Rule) : Prop :=
  (rule.parser refs fuel).run s = (rule'.parser refs fuel).run s

/-- The first rule runs like the second one, and its values have as their text what is moved
over. -/
def Spells (rule rule' : Rule) : Prop :=
  Parser.Spells "" Datum.written (rule.parser refs fuel) (rule'.parser refs fuel)

variable {refs fuel} {body separator rule rule' : Rule}

/-- A capture yields the text of what spells its body. -/
theorem Spells.runAlike (h : Spells refs fuel rule rule') {s : Scanner Memory}
    {input : List UInt8} (hs : s.cursor.Shows input) :
    RunAlike refs fuel s (captured rule') (map Datum.joined rule) := by
  have hwritten : (map Datum.joined rule).parser refs fuel =
      ((rule.parser refs fuel).map Datum.written).map .text := by
    rw [parser_map, Parser.map_map]
    rfl
  rw [RunAlike, hwritten, parser_captured, Parser.run_map, Parser.run_map, h.run_captured_eq hs]

/-! ## What spells a rule -/

theorem spells_captured (hbody : (body.parser refs fuel).Obeys) :
    Spells refs fuel (captured body) body := by
  rw [Spells, parser_captured]
  refine (Parser.spells_captured hbody.keeps).map_left fun value rest hvalue => ?_
  rw [Datum.written_text]
  exact hvalue

theorem spells_list {p q : StreamGrammar.Parser Memory Datum (List Datum)}
    (h : Parser.Spells "" (Parser.spelling Datum.written) q p) :
    Parser.Spells "" Datum.written (q.map Datum.list) (p.map Datum.list) := by
  refine (h.map_left fun values rest hvalues => ?_).map_right _
  rw [Datum.written_list]
  exact hvalues

theorem spells_parsers {parts : List Rule}
    (hparts : ∀ part ∈ parts, (part.parser refs fuel).Obeys) :
    List.Forall₂ (Parser.Spells "" Datum.written) (parsers refs fuel (parts.map captured))
      (parsers refs fuel parts) := by
  rw [parsers_eq_map, parsers_eq_map, List.map_map, List.forall₂_map_left_iff,
    List.forall₂_map_right_iff, List.forall₂_same]
  exact fun part hpart => spells_captured (hparts part hpart)

theorem rewinds_parsers {parts : List Rule}
    (hparts : ∀ part ∈ parts, (part.parser refs fuel).Obeys) :
    ∀ p ∈ parsers refs fuel parts, p.Rewinds Verdict.isAccepted :=
  forall_mem_parsers fun part hpart => (hparts part hpart).rewinds

theorem spells_concatenation {parts : List Rule}
    (hparts : ∀ part ∈ parts, (part.parser refs fuel).Obeys) :
    Spells refs fuel (concatenation (parts.map captured)) (concatenation parts) := by
  rw [Spells, parser_concatenation, parser_concatenation]
  exact spells_list (.concatenation (spells_parsers hparts) (rewinds_parsers hparts))

theorem spells_star (h : Spells refs fuel rule rule') (hobeys : (rule'.parser refs fuel).Obeys) :
    Spells refs fuel (star rule) (star rule') := by
  rw [Spells, parser_star, parser_star]
  exact spells_list (Parser.Spells.star h hobeys.rewinds fuel)

theorem parser_joined_captured (body : Rule) :
    (map Datum.joined (captured body)).parser refs fuel = (captured body).parser refs fuel := by
  rw [parser_map, parser_captured, Parser.map_map]
  exact congrArg (Parser.map · _) (funext Datum.joined_text)

/-- A text need not be joined. -/
theorem parser_joined_alternation (first : Rule) (others : List Rule) :
    (map Datum.joined (alternation (captured first) (others.map captured))).parser refs fuel =
      (alternation (captured first) (others.map captured)).parser refs fuel := by
  have hothers : (parsers refs fuel (others.map captured)).map (Parser.map Datum.joined) =
      parsers refs fuel (others.map captured) := by
    rw [parsers_eq_map, List.map_map, List.map_map, List.map_map]
    exact List.map_congr_left fun other _ => parser_joined_captured other
  rw [parser_map, parser_alternation, Parser.map_alternation, hothers]
  exact congrArg (Parser.alternation · _) (parser_joined_captured first)

theorem spells_alternation {first : Rule} {others : List Rule}
    (hfirst : (first.parser refs fuel).Obeys)
    (hothers : ∀ other ∈ others, (other.parser refs fuel).Obeys) :
    Spells refs fuel (alternation (captured first) (others.map captured))
      (alternation first others) := by
  rw [Spells, parser_alternation, parser_alternation]
  exact Parser.Spells.alternation (spells_captured hfirst) hfirst.rewinds (spells_parsers hothers)
    (rewinds_parsers hothers)

/-- Two rules one after the other spell what goes on where the first of their bodies has matched. -/
theorem spells_pair {α β : Type} {p : StreamGrammar.Parser Memory Datum α}
    {next : α → StreamGrammar.Parser Memory Datum β} {q q' : Rule.Parser}
    (h : Parser.Spells "" Datum.written q p) (hp : p.Rewinds Verdict.isAccepted)
    (hnext : ∀ value, Parser.Spells "" Datum.written q' (next value)) :
    Parser.Spells "" Datum.written ((Parser.concatenation [q, q']).map .list)
      (Parser.rewinding (p.andThen next)) := by
  rw [Parser.map_concatenation_pair]
  refine (h.andThen hp fun value value' => ?_).rewinding
  refine (hnext value).map_left fun second rest hsecond => ?_
  rw [Datum.written_list, Parser.spelling_cons, Parser.spelling_cons, hsecond, String.empty_append]
  exact congrArg (value'.written ++ ·) String.append_empty

theorem spells_sepBy (hbody : (body.parser refs fuel).Obeys)
    (hseparator : (separator.parser refs fuel).Obeys) :
    Spells refs fuel
      (concatenation [captured body, star (concatenation [captured separator, captured body])])
      (sepBy body separator) := by
  have hobeys := Parser.obeys_behind hbody hseparator
  -- The separator and the element behind it, then any number of these, then all with the first.
  have hitem : Parser.Spells "" Datum.written
      ((concatenation [captured separator, captured body]).parser refs fuel)
      (Parser.behind (body.parser refs fuel) (separator.parser refs fuel)) :=
    spells_pair (spells_captured hseparator) hseparator.rewinds fun _ => spells_captured hbody
  have hitems : Parser.Spells "" Datum.written
      ((star (concatenation [captured separator, captured body])).parser refs fuel)
      (Parser.star fuel (Parser.behind (body.parser refs fuel) (separator.parser refs fuel))) := by
    rw [parser_star]
    refine (Parser.Spells.star hitem hobeys.rewinds fuel).map_left fun values rest hvalues => ?_
    rw [Datum.written_list]
    exact hvalues
  have hlist := spells_pair (spells_captured hbody) hbody.rewinds fun first =>
    hitems.map_right (first :: ·)
  have hsepBy : (sepBy body separator).parser refs fuel = Parser.map .list (Parser.rewinding
      ((body.parser refs fuel).andThen fun first => (Parser.star fuel (Parser.behind
        (body.parser refs fuel) (separator.parser refs fuel))).map (first :: ·))) := by
    change Parser.map Datum.list
      (Parser.sepBy fuel (body.parser refs fuel) (separator.parser refs fuel)) = _
    rw [Parser.sepBy_eq_behind]
    rfl
  rw [Spells, hsepBy]
  exact hlist.map_right Datum.list

/-! ## Captures of parts -/

/-- A capture yields the input from where it starts to where its body ends, and is like its body in
all other ways. It may be moved into a concatenation, a repetition, an alternation and a separated
list of rules that keep the contract. -/
theorem captured_distributes (refs : String → Rule.Parser) (fuel : Nat) {input : List UInt8}
    {s : Scanner Memory} (hs : s.cursor.Reached input) :
    (∀ body : Rule, (body.parser refs fuel).Obeys →
      ((captured body).parser refs fuel).run s =
        match (body.parser refs fuel).run s with
        | .ok verdict t => .ok (verdict.map fun _ =>
            .text (Text.excerpt input s.cursor.position t.cursor.position)) t
        | .error halt t => .error halt t) ∧
    (∀ low high, Text.latinBytes (Text.excerpt input low high) = (input.take high).drop low) ∧
    (∀ parts : List Rule, (∀ part ∈ parts, (part.parser refs fuel).Obeys) →
      RunAlike refs fuel s (captured (concatenation parts))
        (map Datum.joined (concatenation (parts.map captured)))) ∧
    (∀ body : Rule, (body.parser refs fuel).Obeys →
      RunAlike refs fuel s (captured (star body)) (map Datum.joined (star (captured body)))) ∧
    (∀ (first : Rule) (others : List Rule), (first.parser refs fuel).Obeys →
      (∀ other ∈ others, (other.parser refs fuel).Obeys) →
      RunAlike refs fuel s (captured (alternation first others))
        (alternation (captured first) (others.map captured))) ∧
    (∀ body separator : Rule, (body.parser refs fuel).Obeys →
      (separator.parser refs fuel).Obeys →
      RunAlike refs fuel s (captured (sepBy body separator))
        (map Datum.joined (concatenation
          [captured body, star (concatenation [captured separator, captured body])]))) := by
  have hshows := hs.shows
  refine ⟨fun body hbody => ?_, Text.latinBytes_excerpt input, fun parts hparts => ?_,
    fun body hbody => ?_, fun first others hfirst hothers => ?_,
    fun body separator hbody hsep => ?_⟩
  · rw [parser_captured, Parser.run_map, Parser.run_captured_of_shows hbody.keeps hshows]
    rcases (body.parser refs fuel).run s with ⟨_ | _ | _, t⟩ | _ <;> rfl
  · exact (spells_concatenation hparts).runAlike hshows
  · exact (spells_star (spells_captured hbody) hbody).runAlike hshows
  · rw [RunAlike, ← parser_joined_alternation]
    exact (spells_alternation hfirst hothers).runAlike hshows
  · exact (spells_sepBy hbody hsep).runAlike hshows

/-- Letters and commas, on the input "aa,a" that has arrived in two chunks. -/
theorem captured_distributes_chunked :
    let refs : String → Rule.Parser := fun _ => .wait
    let letter : Rule := byte (· == 0x61) "a"
    let comma : Rule := byte (· == 0x2C) "a comma"
    let buffer := (Input.Buffer.append {} #[0x61]).append #[0x61, 0x2C, 0x61]
    let s : Scanner Memory := { cursor := { buffer }, memory := #[] }
    RunAlike refs 4 s (captured (concatenation [letter, letter]))
        (map Datum.joined (concatenation [captured letter, captured letter])) ∧
      RunAlike refs 4 s (captured (star letter)) (map Datum.joined (star (captured letter))) ∧
      RunAlike refs 4 s (captured (alternation comma [letter]))
        (alternation (captured comma) [captured letter]) ∧
      RunAlike refs 4 s (captured (sepBy letter comma))
        (map Datum.joined (concatenation
          [captured letter, star (concatenation [captured comma, captured letter])])) := by
  intro refs letter comma buffer s
  have hreached : s.cursor.Reached ([] ++ [0x61] ++ [0x61, 0x2C, 0x61]) :=
    .append (.append .new rfl) rfl
  have hbyte (test : UInt8 → Bool) (expected : String) :
      ((byte test expected).parser refs 4).Obeys :=
    ((Parser.obeys_byte test expected).map _).mapError _
  have hletter : (letter.parser refs 4).Obeys := hbyte _ "a"
  have hcomma : (comma.parser refs 4).Obeys := hbyte _ "a comma"
  obtain ⟨-, -, hconcatenation, hstar, halternation, hsepBy⟩ :=
    captured_distributes refs 4 hreached
  refine ⟨hconcatenation [letter, letter] ?_, hstar letter hletter,
    halternation comma [letter] hcomma ?_, hsepBy letter comma hletter hcomma⟩
  · exact List.forall_mem_cons.mpr ⟨hletter, List.forall_mem_singleton.mpr hletter⟩
  · exact List.forall_mem_singleton.mpr hletter

end Rule

end StreamGrammar
