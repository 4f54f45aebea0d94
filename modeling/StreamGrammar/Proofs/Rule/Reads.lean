import StreamGrammar.Proofs.Parser.Reads
import StreamGrammar.Proofs.Rule.Oblivious

/-!
# Rules that read as recognizers

What a rule does that refers to no other rule can be said by a recognizer (`Rule.Reads`). Here it is
said of single bytes, of texts and of rules one after the other. What other rules do is put together
of it by the lemmas on parsers.
-/

namespace StreamGrammar.Rule

/-- The rule does what the recognizer says where no more than `n` bytes are left. -/
abbrev Reads (n fuel : Nat) (rule : Rule) (r : Recognizer Datum) : Prop :=
  (Grammar.parserOf [] fuel rule).Reads n r

variable {n fuel : Nat} {rule : Rule}

/-- A rule of the kit obeys the contract, if it refers to no other rule. -/
theorem obeys_of_kit (hrule : rule.Kit) : (Grammar.parserOf [] fuel rule).Obeys :=
  (Grammar.reliable_parserOf Grammar.kit_nil hrule).toObeys

theorem reads_byte (test : UInt8 → Bool) (expected : String) :
    Reads n fuel (.byte test expected)
      ((Recognizer.byte test).map fun value => .int value.toNat) :=
  ((Parser.reads_byte test expected).map _).mapError _

theorem reads_character (expected : String) (test : UInt8 → Bool) :
    Reads n fuel (character expected test)
      ((Recognizer.byte test).map fun value => byteText (.int value.toNat)) := by
  have hbyte : Reads n fuel (.byte test expected) _ := reads_byte test expected
  have hcharacter := hbyte.map byteText
  rw [Recognizer.map_map] at hcharacter
  exact hcharacter

theorem reads_literal (l : Literal) :
    Reads n fuel (.literal l) ((Recognizer.spelled l l.codes).captured.map .text) :=
  ((Parser.reads_literal l).map _).mapError _

theorem reads_concatenation {parts : List Rule} {rs : List (Recognizer Datum)}
    (h : List.Forall₂ (Reads n fuel) parts rs) :
    Reads n fuel (concatenation parts) ((Recognizer.inOrder rs).map .list) := by
  have hparts : List.Forall₂ (Parser.Reads n)
      (parsers (Grammar.parser [] fuel) fuel parts) rs := by
    rw [parsers_eq_map]
    exact List.forall₂_map_left_iff.mpr h
  exact (Parser.reads_inOrder hparts).rewinding.map _

/-- What the byte of some ranges does, with the test of a byte written as one of bytes. -/
theorem reads_byteIn {ranges : List (Int × Int)} {test : UInt8 → Bool} (expected : String)
    (htest : ∀ b : UInt8, (ranges.any fun r => r.1 ≤ b.toNat && b.toNat ≤ r.2) = test b) :
    Reads n fuel (byteIn ranges expected)
      ((Recognizer.byte test).map fun value => .int value.toNat) := by
  have hbyte : Reads n fuel (byteIn ranges expected) ((Recognizer.byte
      fun b => ranges.any fun r => r.1 ≤ b.toNat && b.toNat ≤ r.2).map _) := reads_byte _ expected
  rwa [funext htest] at hbyte

end StreamGrammar.Rule
