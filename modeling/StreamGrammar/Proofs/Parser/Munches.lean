import StreamGrammar.Proofs.Parser.Longest
import StreamGrammar.Proofs.Parser.Reads

/-!
# Parsers that take the longest word

A parser `Munches` a language if it does what a recognizer says that munches it. So the parsers that
are put together of such ones are known by their languages, without a look at what they yield. What
is yielded where the bytes are captured is the word itself (`Munches.run_captured`).
-/

namespace StreamGrammar.Parser

open Computability
open Recognizer (GoesOn Separate Apart)

variable {σ ε φ α β : Type}

/-- With no more than `bound` bytes before it, the parser comes to an end, and takes the longest
word of the language. -/
def Munches (bound : Nat) (p : Parser σ ε α) (l : Language UInt8) : Prop :=
  ∃ r : Recognizer α, p.Reads bound r ∧ r.Munches l

variable {bound : Nat} {p q : Parser σ ε α} {l m : Language UInt8}

namespace Munches

theorem map (hp : p.Munches bound l) (f : α → β) : (p.map f).Munches bound l := by
  obtain ⟨r, hreads, hr⟩ := hp
  exact ⟨_, hreads.map f, hr.map f⟩

theorem alternation (hp : p.Munches bound l) (hrewinds : p.Rewinds Verdict.isAccepted)
    (hq : q.Munches bound m) (hapart : Apart l m) (hnil : [] ∉ l) :
    (alternation p [q]).Munches bound (l + m) := by
  obtain ⟨r, hreads, hr⟩ := hp
  obtain ⟨other, hreads', hother⟩ := hq
  exact ⟨_, hreads.alternation hrewinds hreads', hr.orElse hother hapart hnil⟩

theorem concatenation (hp : p.Munches bound l) (hq : q.Munches bound m) (hsep : Separate l m)
    (hm : ∃ z, z ∈ m) : (concatenation [p, q]).Munches bound (l * m) := by
  obtain ⟨r, hreads, hr⟩ := hp
  obtain ⟨other, hreads', hother⟩ := hq
  have hparts : List.Forall₂ (Reads bound) [p, q] [r, other] := .cons hreads (.cons hreads' .nil)
  exact ⟨_, (reads_inOrder hparts).rewinding, hr.pair hother hsep hm⟩

theorem star (hp : p.Munches bound l) (hrewinds : p.Rewinds Verdict.isAccepted)
    (hsep : Separate l l) (hnil : [] ∉ l) {fuel : Nat} (hfuel : bound < fuel) :
    (star fuel p : Parser σ φ (List α)).Munches bound l∗ := by
  obtain ⟨r, hreads, hr⟩ := hp
  have hstar := hreads.star (φ := φ) hrewinds (hr.takes hnil) (Nat.le_refl bound) hfuel
  exact ⟨_, hstar, hr.many hsep hnil⟩

/-- The bytes of the longest word are yielded. Where there is none the parser fails, and it waits
where the bytes that are there go on in a longer word. -/
theorem run_captured (hp : p.Munches bound l) {input : List UInt8} {s : Scanner σ}
    (hs : s.cursor.Shows input) (hlength : (input.drop s.cursor.position).length ≤ bound) :
    let unread := input.drop s.cursor.position
    ∃ verdict t, (captured p).run s = .ok verdict t ∧
      (verdict = .undecided ↔ GoesOn l s.cursor.ended unread) ∧
      (∀ text, verdict = .accepted text → ∃ word ∈ l, word <+: unread ∧
        (∀ u ∈ l, u <+: unread → u.length ≤ word.length) ∧ text = Text.latin word ∧
        t.cursor = { s.cursor with position := s.cursor.position + word.length }) ∧
      ∀ error, verdict = .rejected error → ∀ u ∈ l, ¬ u <+: unread := by
  intro unread
  obtain ⟨r, hreads, hr⟩ := hp
  obtain ⟨verdict, t, hrun, ht, hverdict⟩ := hreads.captured hs hlength
  have hlongest := hr.captured s.cursor.ended unread
  rw [hverdict] at hlongest
  refine ⟨verdict, t, hrun, ?_, ?_, ?_⟩
  · rw [← hlongest.undecided_iff]
    cases verdict <;> simp [Verdict.bimap]
  · rintro text rfl
    obtain ⟨word, hword, hunread, hle⟩ := hlongest.accepted _ _ rfl
    exact ⟨word, hword, ⟨_, hunread.symm⟩, hle, Recognizer.eq_of_captured hverdict hunread,
      hs.onward_eq ht hunread⟩
  · rintro error rfl
    exact hlongest.rejected rfl

end Munches

end StreamGrammar.Parser
