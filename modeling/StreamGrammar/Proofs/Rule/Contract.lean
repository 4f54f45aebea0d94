import StreamGrammar.Proofs.Parser.Contract
import StreamGrammar.Proofs.Rule.Kit

/-!
# All rules of the kit keep the contract

`Rule.contract` has three parts. Whatever kit rule is run, the input is left alone, the cursor does
not move back, and it is where it was unless the rule matched. The combinators that mark the
position guarantee the latter for any parts that leave the input alone, whether they put the cursor
back or not (`Guards`). The ones that do not mark it pass on what their parts guarantee (`Relies`).
-/

namespace StreamGrammar

open Input (Cursor)

namespace Parser

/-- The parser leaves the input alone, and puts the cursor back unless `keep` holds. -/
structure Guarded {σ ε α : Type} (keep : Verdict ε α → Bool) (p : Parser σ ε α) : Prop where
  tame : p.Tame
  rewinds : p.Rewinds keep

/-- The combinators that put the cursor back themselves, over parts that may leave it anywhere. -/
structure Guards (σ : Type) : Prop where
  rewinding {ε α : Type} {p : Parser σ ε α} :
    p.Tame → (rewinding p).Guarded Verdict.isAccepted
  concatenation {ε α : Type} {ps : List (Parser σ ε α)} :
    (∀ p ∈ ps, p.Tame) → (concatenation ps).Guarded Verdict.isAccepted
  repeating {τ ε φ α β : Type} (fuel : Nat) (gathered : τ) (judge : Judge σ τ ε α φ β)
    {p : Parser σ ε α} : p.Tame → (repeating fuel gathered judge p).Guarded Verdict.isAccepted
  repeatingSome {τ ε φ α β : Type} (fuel : Nat) (gathered : τ) (judge : Judge σ τ ε α φ β)
    (adapt : ε → φ) {p : Parser σ ε α} :
    p.Tame → (repeatingSome fuel gathered judge adapt p).Guarded Verdict.isAccepted
  star {ε φ α : Type} (fuel : Nat) {p : Parser σ ε α} :
    p.Tame → (star fuel p : Parser σ φ _).Guarded Verdict.isAccepted
  plus {ε φ α : Type} (fuel : Nat) (adapt : ε → φ) {p : Parser σ ε α} :
    p.Tame → (plus fuel adapt p).Guarded Verdict.isAccepted
  repetition {ε α : Type} (fuel : Nat) (bounds : Bounds) {p : Parser σ ε α} :
    p.Tame → (repetition fuel bounds p).Guarded Verdict.isAccepted
  sepBy {ε α β : Type} (fuel : Nat) {p : Parser σ ε α} {separator : Parser σ ε β} :
    p.Tame → separator.Tame → (sepBy fuel p separator).Guarded Verdict.isAccepted
  found {ε α : Type} (isEmpty : α → Bool) {p : Parser σ ε α} :
    p.Tame → (found isEmpty p).Guarded (isFind isEmpty)
  firstFound {ε α : Type} (isEmpty : α → Bool) (empty : α) {ps : List (Parser σ ε α)} :
    (∀ p ∈ ps, p.Tame) → (firstFound isEmpty empty ps).Guarded (isFind isEmpty)

/-- The combinators that rely on their parts to put the cursor back. -/
structure Relies (σ : Type) : Prop where
  alternation {ε α : Type} {p : Parser σ ε α} {ps : List (Parser σ ε α)} :
    p.Guarded Verdict.isAccepted → (∀ q ∈ ps, q.Guarded Verdict.isAccepted) →
      (alternation p ps).Guarded Verdict.isAccepted
  optional {ε φ α : Type} (default : α) {p : Parser σ ε α} :
    p.Guarded Verdict.isAccepted →
      (p.optional default : Parser σ φ α).Guarded Verdict.isAccepted
  map {ε α β : Type} (f : α → β) {p : Parser σ ε α} :
    p.Guarded Verdict.isAccepted → (p.map f).Guarded Verdict.isAccepted
  mapError {ε φ α : Type} (f : ε → φ) {p : Parser σ ε α} :
    p.Guarded Verdict.isAccepted → (p.mapError f).Guarded Verdict.isAccepted
  captured {ε α : Type} {p : Parser σ ε α} :
    p.Rewinds Verdict.isAccepted →
      (captured p).Rewinds Verdict.isAccepted ∧ (p.Keeps Cursor.Onward → (captured p).Tame)

theorem guards (σ : Type) : Guards σ := by
  have h : Compositional (σ := σ) fun _ _ p _ => p.Tame :=
    compositional_keeps Cursor.isTravel_within
  have hasks {τ ε φ α β : Type} (judge : Judge σ τ ε α φ β) :
      Compositional.Asks (fun _ _ p _ => p.Tame) judge :=
    fun _ _ => keeps_remember Cursor.isTravel_within _
  have hguarded {ε α : Type} {p : Parser σ ε α} (hp : p.Tame) :
      (rewinding p).Guarded Verdict.isAccepted := ⟨h.rewinding hp (q := p), hp.rewinds _⟩
  constructor
  case rewinding => exact hguarded
  case concatenation =>
    intro ε α ps hps
    exact hguarded (h.inOrder (List.forall₂_same.mpr hps))
  case repeating =>
    intro τ ε φ α β fuel gathered judge p hp
    exact hguarded (h.iterate (hasks judge) (q := p) hp (Nat.le_refl _) gathered)
  case repeatingSome =>
    intro τ ε φ α β fuel gathered judge adapt p hp
    rw [repeatingSome_eq_rewinding]
    exact hguarded (h.iterateSome (hasks judge) adapt (q := p) hp (Nat.le_refl _) gathered)
  case star =>
    intro ε φ α fuel p hp
    exact hguarded (h.iterate (hasks _) (q := p) hp (Nat.le_refl _) #[])
  case plus =>
    intro ε φ α fuel adapt p hp
    rw [plus, repeatingSome_eq_rewinding]
    exact hguarded (h.iterateSome (hasks _) adapt (q := p) hp (Nat.le_refl _) #[])
  case repetition =>
    intro ε α fuel bounds p hp
    unfold repetition
    split
    · exact ⟨h.accept [], rewinds_accept _ []⟩
    · exact hguarded (h.iterate (hasks _) (q := p) hp (Nat.le_refl _) #[])
  case sepBy =>
    intro ε α β fuel p separator hp hseparator
    rw [sepBy_eq_rewinding]
    exact hguarded (h.separated separator separator (q := p) hp hseparator (Nat.le_refl _))
  case found =>
    intro ε α isEmpty p hp
    exact ⟨h.found isEmpty (q := p) hp, hp.rewinds _⟩
  case firstFound =>
    intro ε α isEmpty empty ps hps
    exact ⟨h.firstFound isEmpty empty (List.forall₂_same.mpr hps), rewinds_firstFound _ _ hps⟩

theorem relies (σ : Type) : Relies σ := by
  have h : Compositional (σ := σ) fun _ _ p _ => p.Tame :=
    compositional_keeps Cursor.isTravel_within
  constructor
  case alternation =>
    intro ε α p ps hp hps
    refine ⟨h.alternation (q := p) hp.tame (List.forall₂_same.mpr fun q hq => (hps q hq).tame), ?_⟩
    exact hp.rewinds.alternation fun q hq => (hps q hq).rewinds
  case optional =>
    intro ε φ α default p hp
    exact ⟨h.optional default (q := p) hp.tame, hp.rewinds.optional default⟩
  case map =>
    intro ε α β f p hp
    exact ⟨h.map f (q := p) hp.tame, hp.rewinds.map f⟩
  case mapError =>
    intro ε φ α f p hp
    exact ⟨h.mapError f (q := p) hp.tame, hp.rewinds.mapError f⟩
  case captured =>
    intro ε α p hp
    exact ⟨hp.captured, fun hkeeps => (keeps_captured hkeeps).mono fun _ _ => (·.toWithin)⟩

theorem respects_keeps : Respects fun _ _ p _ => p.Keeps Cursor.Onward where
  toCompositional := compositional_keeps Cursor.isTravel_onward
  byte := keeps_byte
  literal := keeps_literal
  captured := keeps_captured

end Parser

namespace Rule

/-- The verdicts with which a rule leaves the cursor behind what it matched. A rule that may come
back with nothing puts the cursor back in this case, too. -/
def keep : Rule → Verdict Datum Datum → Bool
  | found _ | firstFound _ => Parser.isFind Datum.isNull
  | _ => Verdict.isAccepted

theorem isAccepted_of_keep {rule : Rule} {verdict : Verdict Datum Datum}
    (h : rule.keep verdict = true) : verdict.isAccepted = true := by
  cases verdict with
  | accepted value => rfl
  | undecided => cases rule <;> exact h
  | rejected error => cases rule <;> exact h

variable {refs : String → Rule.Parser} (fuel : Nat)
  (hkeeps : ∀ name, (refs name).Keeps Cursor.Onward)
  (hrewinds : ∀ name, (refs name).Rewinds Verdict.isAccepted)
include hkeeps hrewinds

/-- By induction on the rule. Where a rule does not put the cursor back itself, its parts do. -/
theorem rewinds_of_kit {rule : Rule} (hrule : rule.Kit) :
    (rule.parser refs fuel).Rewinds rule.keep := by
  have hguards := Parser.guards Memory
  -- That the parts leave the input alone is known of all rules already.
  have htame {rule : Rule} (hrule : rule.Kit) : (rule.parser refs fuel).Tame :=
    (Parser.respects_keeps.parser refs refs hrule hkeeps (Nat.le_refl fuel)).mono
      fun _ _ => (·.toWithin)
  have htames {rules : List Rule} (hrules : ∀ rule ∈ rules, rule.Kit) :
      ∀ p ∈ parsers refs fuel rules, p.Tame :=
    forall_mem_parsers fun rule hrule => htame (hrules rule hrule)
  have weaken {rule : Rule} (h : (rule.parser refs fuel).Rewinds rule.keep) :
      (rule.parser refs fuel).Rewinds Verdict.isAccepted := h.mono fun _ => isAccepted_of_keep
  induction hrule with
  | byte test expected => exact ((Parser.rewinds_byte test expected).map _).mapError _
  | literal text => exact ((Parser.rewinds_literal text).map _).mapError _
  | captured _ ih => exact (weaken ih).captured.map _
  | map f _ ih => exact (weaken ih).map f
  | mapError f _ ih => exact (weaken ih).mapError f
  | alternation _ _ ih ihs =>
    exact (weaken ih).alternation (forall_mem_parsers fun rule hrule => weaken (ihs rule hrule))
  | optional _ ih => exact (weaken ih).optional .null
  | concatenation hparts => exact (hguards.concatenation (htames hparts)).rewinds.map _
  | star hbody => exact (hguards.star fuel (htame hbody)).rewinds.map _
  | plus adapt hbody => exact (hguards.plus fuel adapt (htame hbody)).rewinds.map _
  | repetition bounds hbody =>
    exact (hguards.repetition fuel bounds (htame hbody)).rewinds.map _
  | sepBy hbody hseparator =>
    exact (hguards.sepBy fuel (htame hbody) (htame hseparator)).rewinds.map _
  | rewinding hbody => exact (hguards.rewinding (htame hbody)).rewinds
  | found hbody => exact (hguards.found _ (htame hbody)).rewinds
  | firstFound hrules => exact (hguards.firstFound _ _ (htames hrules)).rewinds
  | repeating judge hbody => exact (hguards.repeating fuel #[] _ (htame hbody)).rewinds
  | repeatingSome judge adapt hbody =>
    exact (hguards.repeatingSome fuel #[] _ adapt (htame hbody)).rewinds
  | ref name => exact hrewinds name

end Rule

variable {grammar : Grammar} (hgrammar : grammar.Kit)
include hgrammar

theorem Grammar.keeps_named (fuel : Nat) (name : String) :
    (grammar.parser fuel name).Keeps Cursor.Onward :=
  Parser.respects_keeps.named hgrammar (Nat.le_refl fuel) name

theorem Grammar.rewinds_named (fuel : Nat) (name : String) :
    (grammar.parser fuel name).Rewinds Verdict.isAccepted := by
  induction fuel generalizing name with
  | zero =>
    intro s t verdict _ hrun
    cases hrun
  | succ fuel ih =>
    rw [Grammar.parser]
    cases hrule : grammar.lookup name with
    | none =>
      intro s t verdict _ hrun
      cases hrun
    | some rule =>
      have h := Rule.rewinds_of_kit fuel (keeps_named hgrammar fuel) ih (hgrammar name rule hrule)
      exact h.mono fun _ => Rule.isAccepted_of_keep

omit hgrammar

/-- The contract of the whole rule language. -/
theorem Rule.contract :
    (∀ (grammar : Grammar) (rule : Rule) (fuel : Nat), grammar.Kit → rule.Kit →
      (grammar.parserOf fuel rule).Keeps Cursor.Onward ∧
        (grammar.parserOf fuel rule).Rewinds rule.keep) ∧
    (∀ σ, Parser.Guards σ) ∧ ∀ σ, Parser.Relies σ := by
  refine ⟨?_, Parser.guards, Parser.relies⟩
  intro grammar rule fuel hgrammar hrule
  constructor
  · exact Parser.respects_keeps.parserOf hgrammar (Nat.le_refl fuel) hrule
  · exact Rule.rewinds_of_kit fuel (Grammar.keeps_named hgrammar fuel)
      (Grammar.rewinds_named hgrammar fuel) hrule

/-- A parser that takes a byte and rejects then, which leaves the cursor behind the byte. -/
def Parser.displaced : Parser Unit Mismatch Unit :=
  (byte (fun _ => true) "a byte").andThen fun _ => reject ⟨"nothing", 0⟩

theorem Parser.tame_displaced : displaced.Tame := by
  have h := compositional_keeps (σ := Unit) Cursor.isTravel_within
  have hbyte : (byte (fun _ => true) "a byte" : Parser Unit _ _).Tame :=
    (keeps_byte _ _).mono fun _ _ => (·.toWithin)
  exact h.andThen (q := byte (fun _ => true) "a byte") hbyte (g := fun _ => reject ⟨"nothing", 0⟩)
    fun _ => h.reject _

/-- On the input "a" that parser is displaced, and the combinator puts the cursor back. The rule
`pair` of two bytes is of the kit, and so is a reference to it that may find nothing. -/
theorem Rule.contract_displaced :
    let s : Scanner Unit := { cursor := .ofBytes #[0x61], memory := () }
    let pair : Rule := .concatenation [.byte (· == 0x61) "a", .byte (· == 0x62) "b"]
    (∃ t, Parser.displaced.run s = .ok (.rejected ⟨"nothing", 0⟩) t ∧ t.cursor ≠ s.cursor) ∧
      (Parser.rewinding Parser.displaced).Guarded Verdict.isAccepted ∧
      (Grammar.parserOf [("pair", pair)] 3 (.found (.ref "pair"))).Rewinds
        (Parser.isFind Datum.isNull) := by
  intro s pair
  have hpair : pair.Kit := kit_pair (.byte _ _) (.byte _ _)
  have hgrammar : Grammar.Kit [("pair", pair)] := Grammar.kit_of_forall_mem (by simpa using hpair)
  refine ⟨?_, ?_, ?_⟩
  · -- The byte is taken before the parser rejects.
    have hpeek : s.cursor.peek 0 = some 0x61 := (Cursor.reached_ofBytes #[0x61]).shows.peek_eq 0
    have hbyte := Parser.run_byte (s := s) (fun _ => true) "a byte"
    rw [hpeek] at hbyte
    refine ⟨{ s with cursor := { s.cursor with position := 1 } }, ?_, ?_⟩
    · unfold Parser.displaced
      rw [Parser.andThen_eq_settle, Parser.run_settle, hbyte]
      rfl
    · intro heq
      cases congrArg Cursor.position heq
  · exact (Rule.contract.2.1 Unit).rewinding Parser.tame_displaced
  · exact (Rule.contract.1 _ (.found (.ref "pair")) 3 hgrammar (.found (.ref "pair"))).2

end StreamGrammar
