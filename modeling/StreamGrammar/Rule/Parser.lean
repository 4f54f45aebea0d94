import StreamGrammar.Rule.Basic

/-!
# What rules do

The parser of a rule (`Rule.parser`), given the parsers of the rules it refers to, and the parsers
of a grammar's rules (`Grammar.parser`), which may refer to each other and to themselves.
-/

namespace StreamGrammar

/-- How often each scripted rule has been run, by slot. -/
abbrev Rule.Memory := Array Nat

/-- The parser of a rule. -/
abbrev Rule.Parser := StreamGrammar.Parser Rule.Memory Datum Datum

namespace Rule

/-- The runs of a slot so far, and the memory in which there is one more. -/
def Memory.count (slot : Nat) (memory : Memory) : Nat × Memory :=
  (memory.getD slot 0, (memory.rightpad (slot + 1) 0).modify slot (· + 1))

/-- The run that a script prescribes after `n` earlier ones. -/
def Script.move (script : Script) (n : Nat) : Move := script.moves.getD n script.last

/-- The parser that follows a script. A run counts even if the input refuses what it tries. -/
def followScript (slot : Nat) (script : Script) : Rule.Parser := ⟨do
  let runs ← Scan.remember (Memory.count slot)
  let move := script.move runs
  if let some target := move.rewind then Scan.rewind target
  if let some count := move.advance then Scan.advance count
  return move.answer⟩

/-- A judge of all elements, as one that is told them one by one. -/
def Judge.onItems (judge : Rule.Judge) :
    StreamGrammar.Judge Memory (Array (Except Datum Datum)) Datum Datum Datum Datum :=
  .pure fun items item =>
    let items := items.push item
    (judge items, items)

mutual

/-- The parser of a rule whose references stand for `refs`. Repetitions in it are given `fuel`. -/
def parser (refs : String → Rule.Parser) (fuel : Nat) : Rule → Rule.Parser
  | byte test expected =>
    ((Parser.byte test expected).map fun value => .int value.toNat).mapError .mismatch
  | literal text => ((Parser.literal text).map .text).mapError .mismatch
  | captured body => (Parser.captured (body.parser refs fuel)).map .text
  | map f body => (body.parser refs fuel).map f
  | mapError f body => (body.parser refs fuel).mapError f
  | alternation first others =>
    Parser.alternation (first.parser refs fuel) (parsers refs fuel others)
  | optional body => (body.parser refs fuel).optional .null
  | concatenation parts => (Parser.concatenation (parsers refs fuel parts)).map .list
  | star body => (Parser.star fuel (body.parser refs fuel)).map .list
  | plus adapt body => (Parser.plus fuel adapt (body.parser refs fuel)).map .list
  | repetition bounds body => (Parser.repetition fuel bounds (body.parser refs fuel)).map .list
  | sepBy body separator =>
    (Parser.sepBy fuel (body.parser refs fuel) (separator.parser refs fuel)).map .list
  | rewinding body => Parser.rewinding (body.parser refs fuel)
  | found body => Parser.found Datum.isNull (body.parser refs fuel)
  | firstFound alternatives =>
    Parser.firstFound Datum.isNull .null (parsers refs fuel alternatives)
  | repeating judge body =>
    Parser.repeating fuel #[] (Judge.onItems judge) (body.parser refs fuel)
  | repeatingSome judge adapt body =>
    Parser.repeatingSome fuel #[] (Judge.onItems judge) adapt (body.parser refs fuel)
  | ref name => refs name
  | unguarded parts => (Parser.inOrder (parsers refs fuel parts)).map .list
  | scripted slot script => followScript slot script

/-- The parsers of several rules. -/
def parsers (refs : String → Rule.Parser) (fuel : Nat) : List Rule → List Rule.Parser
  | [] => []
  | rule :: rules => rule.parser refs fuel :: parsers refs fuel rules

end

/-- The parsers of several rules are those of each. -/
theorem parsers_eq_map (refs : String → Rule.Parser) (fuel : Nat) (rules : List Rule) :
    parsers refs fuel rules = rules.map (parser refs fuel) := by
  induction rules with
  | nil => rw [parsers, List.map_nil]
  | cons rule rules ih => rw [parsers, List.map_cons, ih]

/-! The parsers of single constructs, to rewrite with where the whole definition is not needed. -/

section Parsers

variable (refs : String → Rule.Parser) (fuel : Nat) (body : Rule)

theorem parser_literal (text : Literal) :
    (literal text).parser refs fuel =
      ((Parser.literal text).map .text).mapError .mismatch := rfl

theorem parser_captured :
    (captured body).parser refs fuel = (Parser.captured (body.parser refs fuel)).map .text := rfl

theorem parser_map (f : Datum → Datum) :
    (map f body).parser refs fuel = (body.parser refs fuel).map f := rfl

theorem parser_alternation (first : Rule) (others : List Rule) :
    (alternation first others).parser refs fuel =
      Parser.alternation (first.parser refs fuel) (parsers refs fuel others) := rfl

theorem parser_optional :
    (optional body).parser refs fuel = (body.parser refs fuel).optional .null := rfl

theorem parser_concatenation (parts : List Rule) :
    (concatenation parts).parser refs fuel =
      (Parser.concatenation (parsers refs fuel parts)).map .list := rfl

theorem parser_star :
    (star body).parser refs fuel = (Parser.star fuel (body.parser refs fuel)).map .list := rfl

theorem parser_firstFound (alternatives : List Rule) :
    (firstFound alternatives).parser refs fuel =
      Parser.firstFound Datum.isNull .null (parsers refs fuel alternatives) := rfl

end Parsers

end Rule

/-- The rules of a grammar by name. Of two rules of one name the first counts. -/
abbrev Grammar := List (String × Rule)

namespace Grammar

/-- The parser of the rule of a name. References may be nested `fuel` deep, and a name without a
rule is a reference that never ends. -/
def parser (grammar : Grammar) : Nat → String → Rule.Parser
  | 0, _ => ⟨throw .ranOut⟩
  | fuel + 1, name => ⟨fun scanner =>
    match grammar.lookup name with
    | some rule => (rule.parser (grammar.parser fuel) fuel).run scanner
    | none => .error .ranOut scanner⟩

/-- The parser of a rule that refers to the rules of a grammar. -/
def parserOf (grammar : Grammar) (fuel : Nat) (rule : Rule) : Rule.Parser :=
  rule.parser (grammar.parser fuel) fuel

end Grammar

end StreamGrammar
