import StreamGrammar.Proofs.Parser.Contract

/-!
# Parsers that keep a record

To speak of how often a parser is run, and of what a judge is asked, both are made to write it down:
the memory has room for a record besides, and each run and each question adds a note to it. Nothing
else changes. A parser `Tracks` another one if it does the same once the record is erased, and the
combinators carry this over from their parts.
-/

namespace StreamGrammar

open Input (Cursor)

variable {σ τ κ ε φ α β : Type}

namespace Scanner

/-- The scanner with a record in its memory. -/
def recording (s : Scanner σ) (record : List κ) : Scanner (σ × List κ) :=
  ⟨s.cursor, s.journal, (s.memory, record)⟩

/-- The scanner without its record. -/
def erased (s : Scanner (σ × List κ)) : Scanner σ := ⟨s.cursor, s.journal, s.memory.1⟩

end Scanner

/-- The end of a run without its record. -/
def erasedEnd : EStateM.Result Halt (Scanner (σ × List κ)) β → EStateM.Result Halt (Scanner σ) β
  | .ok result t => .ok result t.erased
  | .error halt t => .error halt t.erased

/-- The judge that notes down what it is asked and what it answers. -/
def Judge.recorded (note : Except ε α → Verdict φ β → κ) (judge : Judge σ τ ε α φ β) :
    Judge (σ × List κ) τ ε α φ β := fun gathered item memory =>
  let judgement := judge gathered item memory.1
  (judgement.1, judgement.2, memory.2 ++ [note item judgement.1.1])

namespace Parser

/-- The parser that notes down how each of its runs ends. -/
def recorded (note : Verdict ε α → Cursor → κ) (p : Parser σ ε α) :
    Parser (σ × List κ) ε α := ⟨fun s =>
  match p.run s.erased with
  | .ok verdict t => .ok verdict (t.recording (s.memory.2 ++ [note verdict t.cursor]))
  | .error halt t => .error halt (t.recording s.memory.2)⟩

variable {note : Verdict ε α → Cursor → κ} {p : Parser σ ε α}

theorem recorded_ok {s' u' : Scanner (σ × List κ)} {verdict : Verdict ε α}
    (hrun : (p.recorded note).run s' = .ok verdict u') :
    ∃ u, p.run s'.erased = .ok verdict u ∧
      u' = u.recording (s'.memory.2 ++ [note verdict u.cursor]) := by
  unfold recorded at hrun
  rcases hbody : p.run s'.erased with ⟨verdict', u⟩ | _ <;> simp only [hbody] at hrun
  · obtain ⟨rfl, rfl⟩ := EStateM.Result.ok.inj hrun
    exact ⟨u, rfl, rfl⟩
  · cases hrun

theorem run_recorded_of_ok {s t : Scanner σ} {verdict : Verdict ε α}
    (hrun : p.run s = .ok verdict t) (record : List κ) :
    (p.recorded note).run (s.recording record) =
      .ok verdict (t.recording (record ++ [note verdict t.cursor])) := by
  have herased : (s.recording record).erased = s := rfl
  simp only [recorded, herased, hrun]
  rfl

theorem run_recorded_of_error {s t : Scanner σ} {halt : Halt} (hrun : p.run s = .error halt t)
    (record : List κ) :
    (p.recorded note).run (s.recording record) = .error halt (t.recording record) := by
  have herased : (s.recording record).erased = s := rfl
  simp only [recorded, herased, hrun]
  rfl

theorem Keeps.recorded {R : Cursor → Cursor → Prop} (hp : p.Keeps R) :
    (p.recorded note).Keeps R := by
  intro s' hs
  have hends := hp s'.erased hs
  unfold Parser.recorded
  rcases hrun : p.run s'.erased with ⟨verdict, t⟩ | _ <;> simp only [hrun] at hends ⊢ <;>
    exact hends

theorem Rewinds.recorded {keep : Verdict ε α → Bool} (hp : p.Rewinds keep) :
    (p.recorded note).Rewinds keep := by
  intro s' u' verdict hs hrun hkeep
  obtain ⟨u, hbody, rfl⟩ := recorded_ok hrun
  exact hp s'.erased u verdict hs hbody hkeep

/-! ## Erasing the record -/

/-- Without its record, `p'` does what `p` does. -/
def Tracks (p' : Parser (σ × List κ) ε α) (p : Parser σ ε α) : Prop :=
  ∀ s, erasedEnd (p'.run s) = p.run s.erased

theorem tracks_recorded (note : Verdict ε α → Cursor → κ) (p : Parser σ ε α) :
    Tracks (p.recorded note) p := by
  intro s'
  unfold recorded
  rcases hrun : p.run s'.erased with _ | _ <;> simp only [hrun] <;> rfl

theorem tracks_judge (note : Except ε α → Verdict φ β → κ) (judge : Judge σ τ ε α φ β)
    (gathered : τ) (item : Except ε α) :
    Tracks (ofScan (Scan.remember (judge.recorded note gathered item)) : Parser _ φ _)
      (ofScan (Scan.remember (judge gathered item))) := fun _ => rfl

theorem Tracks.settle {p' : Parser (σ × List κ) ε α} {next : Except ε α → Parser σ φ β}
    {next' : Except ε α → Parser (σ × List κ) φ β} (hp : Tracks p' p)
    (hnext : ∀ item, Tracks (next' item) (next item)) :
    Tracks (p'.settle next') (p.settle next) := by
  intro s'
  have herased := hp s'
  rw [run_settle, run_settle, ← herased]
  rcases p'.run s' with ⟨value | _ | error, t'⟩ | _
  · exact hnext (.ok value) t'
  · rfl
  · exact hnext (.error error) t'
  · rfl

/-- Whether a position is still held does not hang on the memory. -/
theorem erasedEnd_rewind (target : Int) (s' : Scanner (σ × List κ)) :
    erasedEnd (Scan.rewind target s') = Scan.rewind target s'.erased := by
  unfold Scan.rewind Scan.move
  have hcursor : (s'.erased.log (.rewound target)).cursor = (s'.log (.rewound target)).cursor := rfl
  simp only [hcursor]
  cases (s'.log (.rewound target)).cursor.restore target <;> rfl

theorem Tracks.rewinding {p' : Parser (σ × List κ) ε α} (hp : Tracks p' p) :
    Tracks (rewinding p') (rewinding p) := by
  intro s'
  have herased : erasedEnd (p'.run (s'.log (.marked s'.cursor.position))) =
    p.run (s'.erased.log (.marked s'.erased.cursor.position)) := hp _
  unfold Parser.rewinding
  rw [run_rewindingUnless, run_rewindingUnless, ← herased]
  rcases p'.run _ with ⟨verdict, t'⟩ | _
  · dsimp only [erasedEnd]
    cases verdict.isAccepted with
    | true => rfl
    | false =>
      have hrewind : erasedEnd (Scan.rewind s'.cursor.position t') =
        Scan.rewind s'.erased.cursor.position t'.erased := erasedEnd_rewind _ t'
      rw [← hrewind]
      cases Scan.rewind s'.cursor.position t' <;> rfl
  · rfl

end Parser

end StreamGrammar
