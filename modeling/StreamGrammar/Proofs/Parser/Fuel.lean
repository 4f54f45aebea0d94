import StreamGrammar.Proofs.Parser.Compositional
import StreamGrammar.Proofs.Parser.Terminal

/-!
# More fuel changes nothing

A parser refines another one if it does exactly what the other one does, wherever that one does not
run out of fuel. The relation carries over to all combinators, so a rule that comes to an end with
some fuel comes to the same end with any more of it.
-/

namespace StreamGrammar.Parser

variable {σ ε φ α β : Type}

/-- `q` does what `p` does, unless `p` runs out of fuel. -/
def Refines (p q : Parser σ ε α) : Prop :=
  ∀ s, (∃ t, p.run s = .error .ranOut t) ∨ q.run s = p.run s

theorem Refines.refl (p : Parser σ ε α) : Refines p p := fun _ => .inr rfl

theorem Refines.run_eq {p q : Parser σ ε α} (h : Refines p q) {s t : Scanner σ}
    {verdict : Verdict ε α} (hrun : p.run s = .ok verdict t) : q.run s = .ok verdict t := by
  rcases h s with ⟨u, hran⟩ | heq
  · rw [hran] at hrun
    cases hrun
  · rw [heq, hrun]

theorem refines_settle {p q : Parser σ ε α} {next next' : Except ε α → Parser σ φ β}
    (hp : Refines p q) (hnext : ∀ item, Refines (next item) (next' item)) :
    Refines (p.settle next) (q.settle next') := by
  intro s
  rw [run_settle, run_settle]
  rcases hp s with ⟨t, hran⟩ | heq
  · left
    rw [hran]
    exact ⟨t, rfl⟩
  · rw [heq]
    rcases p.run s with ⟨value | _ | error, t⟩ | _
    · exact hnext (.ok value) t
    · exact .inr rfl
    · exact hnext (.error error) t
    · exact .inr rfl

theorem refines_rewindingUnless (keep : Verdict ε α → Bool) {p q : Parser σ ε α}
    (hp : Refines p q) : Refines (rewindingUnless keep p) (rewindingUnless keep q) := by
  intro s
  rw [run_rewindingUnless, run_rewindingUnless]
  rcases hp (s.log (.marked s.cursor.position)) with ⟨t, hran⟩ | heq
  · left
    rw [hran]
    exact ⟨t, rfl⟩
  · right
    rw [heq]

theorem refines_captured {p q : Parser σ ε α} (hp : Refines p q) :
    Refines (captured p) (captured q) := by
  intro s
  rw [run_captured, run_captured]
  rcases hp s with ⟨t, hran⟩ | heq
  · left
    rw [hran]
    exact ⟨t, rfl⟩
  · right
    rw [heq]

theorem compositional_refines : Compositional (σ := σ) fun _ _ p q => Refines p q where
  ranOut := fun _ s => .inl ⟨s, rfl⟩
  accept := fun _ => .refl _
  reject := fun _ => .refl _
  settle := refines_settle
  rewindingUnless := fun keep _ _ => refines_rewindingUnless keep

end StreamGrammar.Parser
