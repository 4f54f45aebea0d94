import StreamGrammar.Proofs.Parser.Finality
import StreamGrammar.Proofs.Rule.Contract

/-!
# Decisions of kit rules are final

A kit rule that has settled on the input so far settles on the same when any chunks follow, whether
or not the input ends with them (`Grammar.decisions_final`). More fuel does not change it either.
-/

namespace StreamGrammar

open Input (Cursor)

theorem Parser.respects_final : Respects fun _ _ p q => Final p q where
  toCompositional := compositional_final
  byte := final_byte
  literal := final_literal
  captured := final_captured

/-- On an open cursor, only what is undecided can change when more input arrives. -/
theorem Grammar.decisions_final {grammar : Grammar} {rule : Rule} (hgrammar : grammar.Kit)
    (hrule : rule.Kit) {fuel fuel' : Nat} (hle : fuel ≤ fuel') {input : List UInt8}
    {s t : Scanner Rule.Memory} (hs : s.cursor.Reached input) (hopen : s.cursor.ended = false)
    {verdict : Verdict Datum Datum} (hrun : (grammar.parserOf fuel rule).run s = .ok verdict t)
    (hdecided : verdict.isUndecided = false) (chunks : List (Array UInt8)) :
    ∃ c, chunks.foldlM Cursor.append s.cursor = .ok c ∧
      ∀ s' : Scanner Rule.Memory, s'.cursor = c ∨ s'.cursor = c.finish →
        ∃ t', (grammar.parserOf fuel' rule).run s' = .ok verdict t' ∧
          t'.cursor.position = t.cursor.position ∧
          (verdict.isAccepted = false → t'.cursor = s'.cursor) := by
  obtain ⟨c, hfold, hc, hposition, -⟩ := hs.foldlM_append hopen chunks
  refine ⟨c, hfold, fun s' hs' => ?_⟩
  -- The second cursor has been shown the chunks as well, and may have been told that this is all.
  have hgrows : s.cursor.Grows input (chunks.flatMap Array.toList) s'.cursor := by
    have hclosed : ¬ s.cursor.ended = true := by rw [hopen]; exact Bool.false_ne_true
    rcases hs' with hs' | hs' <;> rw [hs']
    · exact ⟨hs.shows, hc.shows, hposition, fun hended => absurd hended hclosed⟩
    · exact ⟨hs.shows, hc.finish.shows, hposition, fun hended => absurd hended hclosed⟩
  obtain ⟨t', hrun', ht⟩ := Parser.respects_final.parserOf hgrammar hle hrule hgrows hrun hdecided
  refine ⟨t', hrun', ht.position_eq, fun hrejected => ?_⟩
  have hrewinds := Rule.rewinds_of_kit fuel' (keeps_named hgrammar fuel')
    (rewinds_named hgrammar fuel') hrule
  refine hrewinds s' t' verdict hgrows.right.toInRange hrun' ?_
  rw [Bool.eq_false_iff] at hrejected ⊢
  exact fun hkeep => hrejected (Rule.isAccepted_of_keep hkeep)

/-- An optional byte that is not there is decided by the byte that is. -/
theorem Grammar.decisions_final_optional :
    let letter : Rule := .optional (.byte (· == 0x61) "a")
    let s : Scanner Rule.Memory :=
      { cursor := { buffer := Input.Buffer.append {} #[0x62] }, memory := #[] }
    (Grammar.parserOf [] 1 letter).run s = .ok (.accepted .null) s ∧
      ∃ c, [#[0x61], #[]].foldlM Cursor.append s.cursor = .ok c ∧
        ∀ s' : Scanner Rule.Memory, s'.cursor = c ∨ s'.cursor = c.finish →
          ∃ t', (Grammar.parserOf [] 2 letter).run s' = .ok (.accepted .null) t' ∧
            t'.cursor.position = 0 ∧
            ((Verdict.accepted .null : Verdict Datum Datum).isAccepted = false →
              t'.cursor = s'.cursor) := by
  intro letter s
  have hs : s.cursor.Reached ([] ++ [0x62]) := .append .new rfl
  have hpeek : s.cursor.peek 0 = some 0x62 := hs.shows.peek_eq 0
  have hbyte := Parser.run_byte (s := s) (· == 0x61) "a"
  rw [hpeek] at hbyte
  have hrun : (Grammar.parserOf [] 1 letter).run s = .ok (.accepted .null) s := by
    unfold Grammar.parserOf
    simp only [letter, Rule.parser]
    rw [Parser.optional_eq_settle, Parser.run_settle, Parser.run_mapError, Parser.run_map, hbyte]
    rfl
  have hgrammar : Grammar.Kit [] := Grammar.kit_of_forall_mem fun _ => nofun
  have hletter : letter.Kit := .optional (.byte _ _)
  refine ⟨hrun, ?_⟩
  exact Grammar.decisions_final hgrammar hletter (Nat.le_succ 1) hs rfl hrun rfl [#[0x61], #[]]

end StreamGrammar
