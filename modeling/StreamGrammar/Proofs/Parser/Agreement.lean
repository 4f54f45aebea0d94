import StreamGrammar.Proofs.Parser.Contract

/-!
# Parsers that agree

Two parsers agree at a cursor if they have the same verdict there, whatever has been marked and
remembered before, and leave the cursor at the same place where they accept (`Agree`). Where they do
not accept, the cursor is not compared, so to put it back changes nothing (`Agree.rewinding`), and
groups within groups can be taken apart. A parser without memory agrees with itself everywhere.

Of two parsers that agree and keep the contract, the outcomes are the same (`Agree.outcome_eq`).
-/

namespace StreamGrammar.Parser

open Input (Cursor)

variable {σ ε φ α β : Type}

/-- What a run comes to. -/
def outcome : EStateM.Result Halt (Scanner σ) (Verdict ε α) → Except Halt (Verdict ε α × Cursor)
  | .ok verdict t => .ok (verdict, t.cursor)
  | .error halt _ => .error halt

theorem outcome_eq_ok_iff {run : EStateM.Result Halt (Scanner σ) (Verdict ε α)}
    {verdict : Verdict ε α} {d : Cursor} :
    outcome run = .ok (verdict, d) ↔ ∃ t, run = .ok verdict t ∧ t.cursor = d := by
  cases run with
  | ok verdict' t => simp [outcome]
  | error halt t => simp [outcome]

/-- Two runs have the same verdict, and lead to the same place if it is a match. -/
inductive Alike : EStateM.Result Halt (Scanner σ) (Verdict ε α) →
    EStateM.Result Halt (Scanner σ) (Verdict ε α) → Prop
  | ok {verdict : Verdict ε α} {t t' : Scanner σ} :
      (verdict.isAccepted = true → t'.cursor = t.cursor) →
      Alike (.ok verdict t) (.ok verdict t')
  | error (halt : Halt) (t t' : Scanner σ) : Alike (.error halt t) (.error halt t')

theorem Alike.symm {run run' : EStateM.Result Halt (Scanner σ) (Verdict ε α)}
    (h : Alike run run') : Alike run' run := by
  cases h with
  | ok ht => exact .ok fun haccepted => (ht haccepted).symm
  | error halt t t' => exact .error halt t' t

theorem Alike.trans {run run' run'' : EStateM.Result Halt (Scanner σ) (Verdict ε α)}
    (h : Alike run run') (h' : Alike run' run'') : Alike run run'' := by
  cases h with
  | ok ht =>
    cases h' with
    | ok ht' => exact .ok fun haccepted => (ht' haccepted).trans (ht haccepted)
  | error halt t t' =>
    cases h' with
    | error => exact .error halt t _

/-- Runs stay alike if a function is applied to their verdicts that leaves matches matches. -/
theorem Alike.map {f : Verdict ε α → Verdict φ β}
    (hf : ∀ verdict, (f verdict).isAccepted = verdict.isAccepted)
    {run run' : EStateM.Result Halt (Scanner σ) (Verdict ε α)} :
    Alike run run' → Alike
      (match run with
      | .ok verdict t => .ok (f verdict) t
      | .error halt t => .error halt t)
      (match run' with
      | .ok verdict t => .ok (f verdict) t
      | .error halt t => .error halt t) := by
  intro h
  cases h with
  | @ok verdict t t' ht => exact .ok (hf verdict ▸ ht)
  | error halt t t' => exact .error halt t t'

/-- The parsers do alike from `c` on. -/
def Agree (c : Cursor) (p q : Parser σ ε α) : Prop :=
  ∀ s s' : Scanner σ, s.cursor = c → s'.cursor = c → Alike (p.run s) (q.run s')

/-- What the parser does depends on the input alone. -/
def Memoryless (p : Parser σ ε α) : Prop := ∀ c : Cursor, c.InRange → Agree c p p

variable {c : Cursor} {p q r : Parser σ ε α}

namespace Agree

theorem symm (h : Agree c p q) : Agree c q p := fun s s' hs hs' => (h s' s hs' hs).symm

theorem trans (h : Agree c p q) (h' : Agree c q r) : Agree c p r :=
  fun s s' hs hs' => (h s s hs hs).trans (h' s s' hs hs')

/-- A parser may be replaced where its runs are those of another one. -/
theorem of_run_eq (hq : Agree c q q) (h : ∀ s : Scanner σ, s.cursor = c → p.run s = q.run s) :
    Agree c p q := by
  intro s s' hs hs'
  rw [h s hs]
  exact hq s s' hs hs'

theorem accept (value : α) : Agree c (accept value : Parser σ ε α) (Parser.accept value) :=
  fun _ _ hs hs' => .ok fun _ => hs'.trans hs.symm

theorem reject (error : ε) : Agree c (reject error : Parser σ ε α) (Parser.reject error) :=
  fun _ _ _ _ => .ok nofun

theorem map (f : α → β) (h : Agree c p q) : Agree c (p.map f) (q.map f) := by
  intro s s' hs hs'
  rw [run_map, run_map]
  exact (h s s' hs hs').map (Verdict.isAccepted_map f)

theorem mapError (f : ε → φ) (h : Agree c p q) : Agree c (p.mapError f) (q.mapError f) := by
  intro s s' hs hs'
  rw [run_mapError, run_mapError]
  exact (h s s' hs hs').map (Verdict.isAccepted_mapError f)

section Tame

variable (hc : c.InRange) (hp : p.Tame)
include hc hp

theorem andThen {f g : α → Parser σ ε β} (h : Agree c p q)
    (hnext : ∀ value d, c.Within d → Agree d (f value) (g value)) :
    Agree c (p.andThen f) (q.andThen g) := by
  rintro s s' rfl hs'
  have hruns := h s s' rfl hs'
  change Alike ((p >>= f).run s) ((q >>= g).run s')
  rw [run_bind, run_bind]
  generalize hrun : p.run s = run at hruns
  generalize q.run s' = run' at hruns
  cases hruns with
  | @ok verdict t t' ht =>
    cases verdict with
    | accepted value => exact hnext value _ (hp.ok hc hrun) _ _ rfl (ht rfl)
    | undecided => exact .ok nofun
    | rejected error => exact .ok nofun
  | error halt t t' => exact .error halt t t'

/-- Where the parsers have rejected, what follows starts at `c`. -/
theorem settle {f g : Except ε α → Parser σ φ β} (h : Agree c p q)
    (hp' : p.Rewinds fun verdict => !verdict.isRejected)
    (hq' : q.Rewinds fun verdict => !verdict.isRejected)
    (hok : ∀ value d, c.Within d → Agree d (f (.ok value)) (g (.ok value)))
    (herror : ∀ error, Agree c (f (.error error)) (g (.error error))) :
    Agree c (p.settle f) (q.settle g) := by
  rintro s s' rfl hs'
  have hruns := h s s' rfl hs'
  rw [run_settle, run_settle]
  generalize hrun : p.run s = run at hruns
  generalize hrun' : q.run s' = run' at hruns
  cases hruns with
  | @ok verdict t t' ht =>
    cases verdict with
    | accepted value => exact hok value _ (hp.ok hc hrun) _ _ rfl (ht rfl)
    | undecided => exact .ok nofun
    | rejected error =>
      have hback := hp' s t _ hc hrun rfl
      have hback' := hq' s' t' _ (hs' ▸ hc) hrun' rfl
      exact herror error t t' hback (hback'.trans hs')
  | error halt t t' => exact .error halt t t'

theorem optional (default : α) (h : Agree c p q)
    (hp' : p.Rewinds fun verdict => !verdict.isRejected)
    (hq' : q.Rewinds fun verdict => !verdict.isRejected) :
    Agree c (p.optional default : Parser σ φ α) (q.optional default) := by
  rw [optional_eq_settle, optional_eq_settle]
  exact h.settle hc hp hp' hq' (fun value _ _ => .accept value) fun _ => .accept default

/-- Whether a parser that does not match puts the cursor back is not compared. -/
theorem rewinding (h : Agree c p q) : Agree c (rewinding p) q := by
  rintro s s' rfl hs'
  have hruns := h s.marked s' rfl hs'
  generalize hrun : p.run s.marked = run at hruns
  generalize q.run s' = run' at hruns
  cases hruns with
  | @ok verdict t t' ht =>
    rw [run_rewinding_of_ok hc (hp.ok (s := s.marked) hc hrun) hrun]
    refine .ok fun haccepted => ?_
    rw [if_pos haccepted]
    exact ht haccepted
  | error halt t t' =>
    have herror : (Parser.rewinding p).run s = .error halt t := by
      unfold Parser.rewinding
      rw [run_rewindingUnless, hrun]
    rw [herror]
    exact .error halt t t'

end Tame

/-- Parsers that keep the contract leave the cursor at the same place if they agree. -/
theorem outcome_eq {s s' : Scanner σ} (h : Agree s.cursor p q) (hs : s.cursor.InRange)
    (hs' : s'.cursor = s.cursor) (hp : p.Rewinds Verdict.isAccepted)
    (hq : q.Rewinds Verdict.isAccepted) : outcome (p.run s) = outcome (q.run s') := by
  have hruns := h s s' rfl hs'
  generalize hrun : p.run s = run at hruns
  generalize hrun' : q.run s' = run' at hruns
  cases hruns with
  | @ok verdict t t' ht =>
    cases haccepted : verdict.isAccepted with
    | true => rw [outcome, outcome, ht haccepted]
    | false =>
      have hback := hp s t verdict hs hrun haccepted
      have hback' := hq s' t' verdict (hs' ▸ hs) hrun' haccepted
      rw [outcome, outcome, hback, hback', hs']
  | error halt t t' => rfl

end Agree

theorem memoryless_byte (test : UInt8 → Bool) (expected : String) :
    (byte test expected : Parser σ _ _).Memoryless := by
  rintro c - s s' rfl hs'
  rw [run_byte, run_byte, hs']
  cases s.cursor.peek 0 with
  | none => exact .ok fun _ => hs'
  | some value =>
    dsimp only
    split
    · exact .ok fun _ => rfl
    · exact .ok nofun

end StreamGrammar.Parser
