import StreamGrammar.Proofs.Rule.Finality
import StreamGrammar.Proofs.Stream.Session

/-!
# Streams of kit rules

What is proved of readers holds of every kit rule that always comes to an end: however the input is
cut into chunks, a reader brings what the batch run over the whole input brings
(`Grammar.streaming_eq_batch`).
-/

namespace StreamGrammar

open Input (Cursor)
open StreamGrammar.Stream (Batch Reader Session Sound session)

theorem Parser.respects_settles : Respects fun _ _ p _ => p.Settles where
  toCompositional := compositional_settles
  byte := settles_byte
  literal := settles_literal
  captured := settles_captured

theorem Parser.respects_refines : Respects fun _ _ p q => Refines p q where
  toCompositional := compositional_refines
  byte := fun _ _ => .refl _
  literal := fun _ => .refl _
  captured := refines_captured

namespace Grammar

/-- Wherever it is run, the rule comes to an end. -/
def Terminates (grammar : Grammar) (rule : Rule) : Prop :=
  ∀ (s : Scanner Rule.Memory) (input : List UInt8), s.cursor.Reached input →
    ∃ fuel verdict t, (grammar.parserOf fuel rule).run s = .ok verdict t

variable {grammar : Grammar} {rule : Rule} (hgrammar : grammar.Kit) (hrule : rule.Kit)
  (hterminates : grammar.Terminates rule)
include hgrammar hrule hterminates

theorem sound : Sound (grammar.parserOf · rule) where
  keeps := fun _ => Parser.respects_keeps.parserOf hgrammar (Nat.le_refl _) hrule
  settles := fun _ => Parser.respects_settles.parserOf hgrammar (Nat.le_refl _) hrule
  refines := fun hle => Parser.respects_refines.parserOf hgrammar hle hrule
  final := fun hle => Parser.respects_final.parserOf hgrammar hle hrule
  terminates := by
    intro s input hs
    obtain ⟨fuel, verdict, t, hrun⟩ := hterminates s input hs
    exact ⟨verdict, t, fuel, hrun⟩

/-- There is exactly one batch run over an input, and every reader to which the input is brought in
chunks agrees with it, unless it exceeds its limit. -/
theorem streaming_eq_batch (input : Array UInt8) :
    ∃ values ending, Batch (grammar.parserOf · rule) #[] input 0 values ending ∧
      (∀ values' ending', Batch (grammar.parserOf · rule) #[] input 0 values' ending' →
        values' = values ∧ ending' = ending) ∧
      ∀ chunks : List (Array UInt8), chunks.flatMap Array.toList = input.toList →
        ∀ (name : String) (limit : Int) (memory : Rule.Memory), ∃ enough S,
          (∀ fuel, enough ≤ fuel →
            session ⟨grammar.parserOf fuel rule, name, limit⟩ fuel chunks (Reader.new memory) = S) ∧
          (S.Exceeds ∨ S.Agrees (chunks.length + 1) values ending) := by
  have hsound := sound hgrammar hrule hterminates
  obtain ⟨values, ending, hbatch⟩ := hsound.exists_batch #[] input 0
  refine ⟨values, ending, hbatch, fun _ _ hbatch' => hsound.batch_unique hbatch' hbatch, ?_⟩
  intro chunks hchunks name limit memory
  have hreads : Stream.Reads (ε := Datum) [] (chunks.flatMap Array.toList) (Reader.new memory) :=
    ⟨rfl, .new, nofun⟩
  obtain ⟨enough, S, hsession, hS⟩ :=
    hsound.exists_session #[] name limit chunks hreads rfl hchunks
  refine ⟨enough, S, hsession, ?_⟩
  -- The batch run that the session agrees with is the only one.
  rcases hS with hexceeds | ⟨values', ending', hbatch', hagrees⟩
  · exact .inl hexceeds
  · obtain ⟨rfl, rfl⟩ := hsound.batch_unique hbatch' hbatch
    exact .inr hagrees

omit hgrammar hrule hterminates

/-- A terminal has no use for fuel. -/
theorem terminates_literal (text : Literal) : Terminates [] (.literal text) := by
  intro s input hs
  have hrange := hs.shows.toInRange
  refine ⟨0, ?_⟩
  unfold parserOf
  rw [Rule.parser, Parser.run_mapError, Parser.run_map]
  rcases hrun : (Parser.literal text).run s with ⟨verdict, t⟩ | ⟨halt, t⟩
  · exact ⟨_, _, rfl⟩
  · -- It could only run out, but no way to stop of a text does.
    have hran := (Parser.keeps_literal text).error hrange hrun
    rw [Parser.run_literal hrange] at hrun
    split at hrun
    · split at hrun
      · cases hrun
      · obtain ⟨rfl, -⟩ := EStateM.Result.error.inj hrun
        cases hran
    · cases hrun
    · cases hrun

/-- The input "ababa" in three chunks, read as a sequence of "ab". -/
theorem streaming_eq_batch_ab :
    let ab : Rule := .literal { codes := [0x61, 0x62] }
    let chunks : List (Array UInt8) := [#[0x61], #[0x62, 0x61, 0x62], #[0x61]]
    ∃ values ending,
      Batch (parserOf [] · ab) #[] #[0x61, 0x62, 0x61, 0x62, 0x61] 0 values ending ∧
      ∃ enough S, (∀ fuel, enough ≤ fuel →
          session ⟨parserOf [] fuel ab, "ab", 65536⟩ fuel chunks (Reader.new #[]) = S) ∧
        (S.Exceeds ∨ S.Agrees 4 values ending) := by
  intro ab chunks
  have hgrammar : Grammar.Kit [] := kit_of_forall_mem nofun
  obtain ⟨values, ending, hbatch, -, hchunks⟩ :=
    streaming_eq_batch hgrammar (.literal _) (terminates_literal { codes := [0x61, 0x62] })
      #[0x61, 0x62, 0x61, 0x62, 0x61]
  exact ⟨values, ending, hbatch, hchunks chunks rfl "ab" 65536 #[]⟩

end Grammar

end StreamGrammar
