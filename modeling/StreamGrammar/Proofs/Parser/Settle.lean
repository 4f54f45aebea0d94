import StreamGrammar.Parser.Repetition

/-!
# Going on where a parser has settled

All combinators that run parsers one after the other do the same where one of them leaves open: the
whole leaves open, too. `Parser.settle` is this one step. Here the combinators are shown to be made
of it, of parsers that do not look at the input, and of `rewindingUnless`, so that a property of
parsers need be proved for these only.
-/

namespace StreamGrammar

/-- Applies `f` to the reason of a mismatch, and `g` to the value of a match. -/
def Verdict.bimap {ε φ α β : Type} (f : ε → φ) (g : α → β) : Verdict ε α → Verdict φ β
  | accepted value => accepted (g value)
  | undecided => undecided
  | rejected error => rejected (f error)

theorem Verdict.isUndecided_of_settled {ε α : Type} {verdict : Verdict ε α} {item : Except ε α}
    (h : verdict.settled? = some item) : verdict.isUndecided = false := by
  cases verdict with
  | accepted value => rfl
  | undecided => cases h
  | rejected error => rfl

namespace Parser

variable {σ τ ε φ α β : Type}

/-- Runs `p` and, where it settles, goes on with the parser that `next` makes of the outcome. -/
def settle (p : Parser σ ε α) (next : Except ε α → Parser σ φ β) : Parser σ φ β := ⟨do
  match (← p.run).settled? with
  | none => return .undecided
  | some item => (next item).run⟩

theorem run_settle (p : Parser σ ε α) (next : Except ε α → Parser σ φ β) (s : Scanner σ) :
    (p.settle next).run s =
      match p.run s with
      | .ok (.accepted value) t => (next (.ok value)).run t
      | .ok .undecided t => .ok .undecided t
      | .ok (.rejected error) t => (next (.error error)).run t
      | .error halt t => .error halt t := by
  change EStateM.bind p.run _ s = _
  unfold EStateM.bind
  rcases p.run s with ⟨_ | _ | _, t⟩ | _ <;> rfl

theorem run_settle_of_settled {p : Parser σ ε α} {next : Except ε α → Parser σ φ β}
    {s t : Scanner σ} {verdict : Verdict ε α} {item : Except ε α} (hrun : p.run s = .ok verdict t)
    (hitem : verdict.settled? = some item) : (p.settle next).run s = (next item).run t := by
  rw [run_settle, hrun]
  cases verdict with
  | accepted value =>
    obtain rfl := Option.some.inj hitem
    rfl
  | undecided => cases hitem
  | rejected error =>
    obtain rfl := Option.some.inj hitem
    rfl

/-- A run comes to an end where the first parser leaves open, or where the second one ends that goes
on with what the first one has settled on. -/
theorem settle_ok {p : Parser σ ε α} {next : Except ε α → Parser σ φ β} {s u : Scanner σ}
    {verdict : Verdict φ β} (hrun : (p.settle next).run s = .ok verdict u) :
    (p.run s = .ok .undecided u ∧ verdict = .undecided) ∨
      ∃ first item t, p.run s = .ok first t ∧ first.settled? = some item ∧
        (next item).run t = .ok verdict u := by
  rw [run_settle] at hrun
  rcases hfirst : p.run s with ⟨value | _ | error, t⟩ | _ <;> rw [hfirst] at hrun
  · exact .inr ⟨_, _, t, rfl, rfl, hrun⟩
  · obtain ⟨rfl, rfl⟩ := EStateM.Result.ok.inj hrun
    exact .inl ⟨rfl, rfl⟩
  · exact .inr ⟨_, _, t, rfl, rfl, hrun⟩
  · cases hrun

/-- A run that may put the cursor back comes to an end where its body does. -/
theorem rewindingUnless_ok {keep : Verdict ε α → Bool} {p : Parser σ ε α} {s u : Scanner σ}
    {verdict : Verdict ε α} (hrun : (rewindingUnless keep p).run s = .ok verdict u) :
    ∃ t, p.run (s.log (.marked s.cursor.position)) = .ok verdict t ∧
      if keep verdict then u = t else Scan.rewind s.cursor.position t = .ok () u := by
  rw [run_rewindingUnless] at hrun
  rcases hbody : p.run _ with ⟨verdict', t⟩ | _ <;> rw [hbody] at hrun
  · refine ⟨t, ?_⟩
    dsimp only at hrun
    -- The mark is dropped with the verdicts that are kept, and returned to with the others.
    split at hrun
    · next hkeep =>
      obtain ⟨rfl, rfl⟩ := EStateM.Result.ok.inj hrun
      rw [if_pos hkeep]
      exact ⟨rfl, rfl⟩
    · next hkeep =>
      rcases hrewind : Scan.rewind s.cursor.position t with ⟨_, u'⟩ | _ <;> rw [hrewind] at hrun
      · obtain ⟨rfl, rfl⟩ := EStateM.Result.ok.inj hrun
        rw [if_neg hkeep]
        exact ⟨rfl, rfl⟩
      · cases hrun
  · cases hrun

/-- Parsers are the same where their runs are. -/
theorem eq_of_run_eq {p q : Parser σ ε α} (h : ∀ s, p.run s = q.run s) : p = q := by
  cases p
  cases q
  congr 1
  exact funext h

/-- The parser that answers with a verdict if it is settled, and otherwise runs `next`. -/
def answerOr (next : Parser σ ε α) : Verdict ε α → Parser σ ε α
  | .accepted value => accept value
  | .undecided => next
  | .rejected error => reject error

/-! ## Without repetition -/

theorem andThen_eq_settle (p : Parser σ ε α) (f : α → Parser σ ε β) :
    p.andThen f = p.settle fun
      | .error error => reject error
      | .ok value => f value := by
  apply eq_of_run_eq
  intro s
  -- The verdicts but the accepted one are passed on in both forms.
  have hbind := run_bind s p f
  rw [run_settle]
  rcases hp : p.run s with ⟨_ | _ | _, t⟩ | _ <;> rw [hp] at hbind <;> exact hbind

theorem map_eq_settle (f : α → β) (p : Parser σ ε α) :
    p.map f = p.settle fun
      | .error error => reject error
      | .ok value => accept (f value) := by
  apply eq_of_run_eq
  intro s
  rw [run_map, run_settle]
  rcases p.run s with ⟨_ | _ | _, t⟩ | _ <;> rfl

theorem mapError_eq_settle (f : ε → φ) (p : Parser σ ε α) :
    p.mapError f = p.settle fun
      | .error error => reject (f error)
      | .ok value => accept value := by
  apply eq_of_run_eq
  intro s
  rw [run_mapError, run_settle]
  rcases p.run s with ⟨_ | _ | _, t⟩ | _ <;> rfl

theorem optional_eq_settle (default : α) (p : Parser σ ε α) :
    (p.optional default : Parser σ φ α) = p.settle fun
      | .error _ => accept default
      | .ok value => accept value := by
  apply eq_of_run_eq
  intro s
  rw [run_settle]
  change EStateM.bind p.run _ s = _
  unfold EStateM.bind
  rcases p.run s with ⟨_ | _ | _, t⟩ | _ <;> rfl

theorem alternation_cons_eq_settle (p q : Parser σ ε α) (ps : List (Parser σ ε α)) :
    alternation p (q :: ps) = p.settle fun
      | .error _ => alternation q ps
      | .ok value => accept value := by
  apply eq_of_run_eq
  intro s
  rw [run_settle, alternation]
  change EStateM.bind p.run _ s = _
  unfold EStateM.bind
  rcases p.run s with ⟨_ | _ | _, t⟩ | _ <;> rfl

/-! ## With repetition -/

/-- What becomes of a repetition that has a new element: the judge answers, or `next` goes on. -/
def judged (judge : Judge σ τ ε α φ β) (next : τ → Parser σ φ β) (gathered : τ)
    (item : Except ε α) : Parser σ φ β :=
  (ofScan (Scan.remember (judge gathered item))).andThen fun (answer, gathered) =>
    answerOr (next gathered) answer

theorem iterate_succ_eq_settle (p : Parser σ ε α) (judge : Judge σ τ ε α φ β) (fuel : Nat)
    (gathered : τ) :
    (⟨iterate p judge (fuel + 1) gathered⟩ : Parser σ φ β) =
      p.settle (judged judge (fun gathered => ⟨iterate p judge fuel gathered⟩) gathered) := by
  apply eq_of_run_eq
  intro s
  rw [run_settle]
  refine (iterate_succ p judge fuel gathered s).trans ?_
  -- To judge an element is to ask the judge, and to go on if its answer is open.
  have hjudged (item : Except ε α) (t : Scanner σ) :
      (judged judge (fun gathered => ⟨iterate p judge fuel gathered⟩) gathered item).run t =
        let judgement := judge gathered item t.memory
        let memory := judgement.2
        if judgement.1.1.isUndecided then iterate p judge fuel judgement.1.2 { t with memory }
        else .ok judgement.1.1 { t with memory } := by
    change (answerOr _ (judge gathered item t.memory).1.1).run _ = _
    rcases judge gathered item t.memory with ⟨⟨_ | _ | _, _⟩, _⟩ <;> rfl
  rcases p.run s with ⟨_ | _ | _, t⟩ | _
  · exact (hjudged _ _).symm
  · rfl
  · exact (hjudged _ _).symm
  · rfl

/-- The elements of a repetition whose first element is not judged if it rejects. -/
def iterateSome (p : Parser σ ε α) (judge : Judge σ τ ε α φ β) (adapt : ε → φ) (fuel : Nat)
    (gathered : τ) : Parser σ φ β :=
  p.settle fun
    | .error error => reject (adapt error)
    | .ok value =>
      judged judge (fun gathered => ⟨iterate p judge fuel gathered⟩) gathered (.ok value)

theorem repeatingSome_eq_rewinding (fuel : Nat) (gathered : τ) (judge : Judge σ τ ε α φ β)
    (adapt : ε → φ) (p : Parser σ ε α) :
    repeatingSome fuel gathered judge adapt p =
      rewinding (iterateSome p judge adapt fuel gathered) := by
  unfold repeatingSome iterateSome
  congr 1
  apply eq_of_run_eq
  intro s
  rw [run_settle]
  change EStateM.bind p.run _ s = _
  unfold EStateM.bind
  rcases p.run s with ⟨value | _ | error, t⟩ | _
  · -- The first element is judged like every other one.
    change EStateM.bind (Scan.remember _) _ t = (answerOr _ (judge gathered _ t.memory).1.1).run _
    simp only [EStateM.bind, Scan.remember]
    rcases judge gathered (.ok value) t.memory with ⟨⟨_ | _ | _, _⟩, _⟩ <;> rfl
  · rfl
  · rfl
  · rfl

/-- Elements with separators between them, of which the last separator is put back but no element
is. -/
def separated (fuel : Nat) (p : Parser σ ε α) (separator : Parser σ ε β) : Parser σ ε (List α) :=
  p.andThen fun first =>
    (star fuel (rewinding (separator.andThen fun _ => p))).andThen fun others =>
      accept (first :: others)

theorem sepBy_eq_rewinding (fuel : Nat) (p : Parser σ ε α) (separator : Parser σ ε β) :
    sepBy fuel p separator = rewinding (separated fuel p separator) := rfl

/-- A judge that leaves the memory alone can be asked without running anything. -/
theorem remember_pure (f : τ → Except ε α → Verdict φ β × τ) (gathered : τ) (item : Except ε α) :
    (ofScan (Scan.remember (Judge.pure f gathered item)) : Parser σ φ (Verdict φ β × τ)) =
      accept (f gathered item) := rfl

end Parser

end StreamGrammar
