import StreamGrammar.Proofs.Input.Unread
import StreamGrammar.Proofs.Parser.Contract
import StreamGrammar.Proofs.Parser.Recognizer

/-!
# Parsers that read as recognizers

What a parser does depends on the bytes before the cursor and on the word whether these are all, so
it can be said by a recognizer. A parser `Reads` as one if it comes to an end with what that says,
as long as no more than a given number of bytes are before it: a repetition needs fuel for them.
-/

namespace StreamGrammar

open Input (Cursor)

namespace Parser

variable {σ ε φ α β : Type}

/-- With no more than `bound` bytes before it, `p` comes to an end with what `r` says. -/
def Reads (bound : Nat) (p : Parser σ ε α) (r : Recognizer α) : Prop :=
  ∀ ⦃input : List UInt8⦄ ⦃s : Scanner σ⦄, s.cursor.Shows input →
    (input.drop s.cursor.position).length ≤ bound →
    ∃ verdict t, p.run s = .ok verdict t ∧ s.cursor.Onward t.cursor ∧
      r s.cursor.ended (input.drop s.cursor.position) =
        verdict.bimap (fun _ => ()) fun value => (value, input.drop t.cursor.position)

variable {bound : Nat} {p q : Parser σ ε α} {r r' : Recognizer α}

theorem Reads.mono (h : p.Reads bound r) {n : Nat} (hn : n ≤ bound) : p.Reads n r :=
  fun _ _ hs hlength => h hs (Nat.le_trans hlength hn)

/-! ## Without repetition -/

theorem reads_accept (value : α) : (accept value : Parser σ ε α).Reads bound (.accept value) :=
  fun _ s hs _ => ⟨.accepted value, s, rfl, .refl hs.toInRange, rfl⟩

theorem Reads.map (hp : p.Reads bound r) (f : α → β) : (p.map f).Reads bound (r.map f) := by
  intro input s hs hlength
  obtain ⟨verdict, t, hrun, ht, hr⟩ := hp hs hlength
  refine ⟨verdict.map f, t, ?_, ht, ?_⟩
  · rw [run_map, hrun]
  · unfold Recognizer.map
    rw [hr]
    cases verdict <;> rfl

theorem Reads.mapError (hp : p.Reads bound r) (f : ε → φ) : (p.mapError f).Reads bound r := by
  intro input s hs hlength
  obtain ⟨verdict, t, hrun, ht, hr⟩ := hp hs hlength
  refine ⟨verdict.mapError f, t, ?_, ht, ?_⟩
  · rw [run_mapError, hrun]
  · rw [hr]
    cases verdict <;> rfl

/-- The second parser has no more bytes before it than the first one. -/
theorem Reads.andThen {next : α → Parser σ ε β} {next' : α → Recognizer β} (hp : p.Reads bound r)
    (hnext : ∀ value, (next value).Reads bound (next' value)) :
    (p.andThen next).Reads bound (r.andThen next') := by
  intro input s hs hlength
  obtain ⟨verdict, t, hrun, ht, hr⟩ := hp hs hlength
  unfold Recognizer.andThen
  rw [andThen_eq_settle, run_settle, hrun, hr]
  cases verdict with
  | accepted value =>
    have hle := ht.position_le
    have hlength' : (input.drop t.cursor.position).length ≤ bound := by
      rw [List.length_drop] at hlength ⊢
      omega
    obtain ⟨verdict', u, hrun', hu, hr'⟩ := hnext value (hs.of_within ht.toWithin) hlength'
    rw [ht.ended_eq] at hr'
    exact ⟨verdict', u, hrun', ht.trans hu, hr'⟩
  | undecided => exact ⟨.undecided, t, rfl, ht, rfl⟩
  | rejected error => exact ⟨.rejected error, t, rfl, ht, rfl⟩

theorem reads_inOrder {ps : List (Parser σ ε α)} {rs : List (Recognizer α)}
    (h : List.Forall₂ (Reads bound) ps rs) : (inOrder ps).Reads bound (.inOrder rs) := by
  induction h with
  | nil => exact reads_accept []
  | cons hhead _ ih =>
    exact Reads.andThen hhead fun value => ih.andThen fun values => reads_accept (value :: values)

theorem Reads.rewinding (hp : p.Reads bound r) : (rewinding p).Reads bound r := by
  intro input s hs hlength
  have hmarked : (s.log (.marked s.cursor.position)).cursor.Shows input := hs
  obtain ⟨verdict, t, hrun, ht, hr⟩ := hp hmarked hlength
  have hmoved : s.cursor.Onward t.cursor := ht
  have hrewinding := run_rewindingUnless_of_ok Verdict.isAccepted hs.toInRange hmoved.toWithin hrun
  cases verdict with
  | accepted value => exact ⟨_, _, hrewinding, hmoved, hr⟩
  | undecided => exact ⟨_, _, hrewinding, .refl hs.toInRange, hr⟩
  | rejected error => exact ⟨_, _, hrewinding, .refl hs.toInRange, hr⟩

/-- The other parser starts where the first one did, if that puts the cursor back. -/
theorem Reads.alternation (hp : p.Reads bound r) (hrewinds : p.Rewinds Verdict.isAccepted)
    (hq : q.Reads bound r') : (alternation p [q]).Reads bound (r.orElse r') := by
  intro input s hs hlength
  obtain ⟨verdict, t, hrun, ht, hr⟩ := hp hs hlength
  unfold Recognizer.orElse
  rw [alternation_cons_eq_settle, run_settle, hrun, hr]
  cases verdict with
  | accepted value => exact ⟨.accepted value, t, rfl, ht, rfl⟩
  | undecided => exact ⟨.undecided, t, rfl, ht, rfl⟩
  | rejected error =>
    have hback : t.cursor = s.cursor := hrewinds s t _ hs.toInRange hrun rfl
    obtain ⟨verdict', u, hrun', hu, hr'⟩ := hq (hback ▸ hs) (hback ▸ hlength)
    rw [hback] at hu hr'
    exact ⟨verdict', u, hrun', hu, hr'⟩

theorem Reads.captured (hp : p.Reads bound r) : (captured p).Reads bound r.captured := by
  intro input s hs hlength
  obtain ⟨verdict, t, hrun, ht, hr⟩ := hp hs hlength
  unfold Recognizer.captured
  rw [run_captured, hrun, hr]
  cases verdict with
  | accepted value =>
    dsimp only
    rw [hs.slice_unread ht]
    exact ⟨_, t, rfl, ht, rfl⟩
  | undecided => exact ⟨.undecided, t, rfl, ht, rfl⟩
  | rejected error => exact ⟨.rejected error, t, rfl, ht, rfl⟩

/-! ## With repetition -/

section Repetition

variable (hp : p.Reads bound r) (hrewinds : p.Rewinds Verdict.isAccepted) (htakes : r.Takes 1)
  {n fuel : Nat} (hn : n ≤ bound) (hfuel : n < fuel)
include hp hrewinds htakes hn hfuel

/-- By induction on the fuel: each element but the last one takes a byte, so there are more rounds
allowed than bytes left. -/
theorem Reads.iterate (gathered : Array α) :
    (⟨iterate p (Judge.pure collect) fuel gathered⟩ : Parser σ φ (List α)).Reads n
      (.map (gathered.toList ++ ·) r.many) := by
  induction fuel generalizing n gathered with
  | zero => omega
  | succ fuel ih =>
    intro input s hs hlength
    obtain ⟨verdict, t, hrun, ht, hr⟩ := hp hs (Nat.le_trans hlength hn)
    have hround := iterate_succ (φ := φ) p (Judge.pure collect) fuel gathered s
    rw [hrun] at hround
    cases verdict with
    | accepted value =>
      have hshorter := htakes hr
      obtain ⟨verdict, u, hrun', hu, hmany⟩ :=
        ih (n := n - 1) (by omega) (by omega) (gathered.push value) (hs.of_within ht.toWithin)
          (by omega)
      refine ⟨verdict, u, hround.trans hrun', ht.trans hu, ?_⟩
      rw [← hmany, ht.ended_eq]
      unfold Recognizer.map
      rw [Recognizer.many_of_accepted htakes hr]
      cases r.many s.cursor.ended (input.drop t.cursor.position) with
      | accepted result => simp [Verdict.map]
      | undecided => rfl
      | rejected error => rfl
    | undecided =>
      refine ⟨.undecided, t, hround, ht, ?_⟩
      unfold Recognizer.map
      rw [Recognizer.many, hr]
      rfl
    | rejected error =>
      -- The element that ends the repetition has put the cursor back.
      have hback : t.cursor = s.cursor := hrewinds s t _ hs.toInRange hrun rfl
      refine ⟨.accepted gathered.toList, t, hround, ht, ?_⟩
      unfold Recognizer.map
      rw [Recognizer.many, hr, hback]
      simp [Verdict.map, Verdict.bimap]

theorem Reads.star : (star fuel p : Parser σ φ (List α)).Reads n r.many := by
  have hiterate := Reads.iterate (φ := φ) hp hrewinds htakes hn hfuel #[]
  have hmany : Recognizer.map (#[].toList ++ ·) r.many = r.many := by
    funext ended bytes
    unfold Recognizer.map
    cases r.many ended bytes <;> rfl
  rw [hmany] at hiterate
  exact hiterate.rewinding

theorem Reads.plus (adapt : ε → φ) : (plus fuel adapt p).Reads n r.atLeastOne := by
  have hiterate := Reads.iterate (φ := φ) hp hrewinds htakes hn hfuel
  rw [Parser.plus, repeatingSome_eq_rewinding]
  apply Reads.rewinding
  intro input s hs hlength
  obtain ⟨verdict, t, hrun, ht, hr⟩ := hp hs (Nat.le_trans hlength hn)
  unfold iterateSome Recognizer.atLeastOne Recognizer.andThen
  rw [run_settle, hrun, hr]
  cases verdict with
  | accepted value =>
    -- The first element is gathered, and the others come behind it.
    have hshorter := htakes hr
    obtain ⟨verdict, u, hrun', hu, hmany⟩ :=
      hiterate #[value] (hs.of_within ht.toWithin) (by omega)
    rw [ht.ended_eq] at hmany
    exact ⟨verdict, u, hrun', ht.trans hu, hmany⟩
  | undecided => exact ⟨.undecided, t, rfl, ht, rfl⟩
  | rejected error => exact ⟨.rejected (adapt error), t, rfl, ht, rfl⟩

end Repetition

/-- The cursor is put back where a separator has no element behind it. -/
theorem Reads.sepBy {separator : Parser σ ε β} {between : Recognizer β} {n fuel : Nat}
    (hp : p.Reads bound r) (htame : p.Tame) (hseparator : separator.Reads bound between)
    (htame' : separator.Tame) (htakes : (between.andThen fun _ => r).Takes 1) (hn : n ≤ bound)
    (hfuel : n < fuel) :
    (sepBy fuel p separator).Reads n (r.sepBy between) := by
  have hnext := Reads.rewinding (hseparator.andThen fun _ => hp)
  have hback : (Parser.rewinding (separator.andThen fun _ => p)).Rewinds Verdict.isAccepted := by
    have h := compositional_keeps (σ := σ) Cursor.isTravel_within
    have hboth : (separator.andThen fun _ => p).Tame :=
      h.andThen (q := separator) htame' (g := fun _ => p) fun _ => htame
    exact hboth.rewinds _
  have hothers := hnext.star (φ := ε) hback htakes hn hfuel
  rw [sepBy_eq_rewinding]
  refine Reads.rewinding (Reads.andThen (hp.mono hn) fun first => ?_)
  exact Reads.andThen hothers fun others => reads_accept (first :: others)

/-! ## Terminals -/

variable {input : List UInt8} {c : Cursor}

theorem missing_eq (expected : String) (f : α → β × List UInt8) :
    (Recognizer.missing c.ended : Verdict Unit (β × List UInt8)) =
      (missed expected c : Verdict Mismatch α).bimap (fun _ => ()) f := by
  unfold Recognizer.missing missed
  cases c.ended <;> rfl

theorem reads_byte (test : UInt8 → Bool) (expected : String) :
    (byte test expected : Parser σ _ _).Reads bound (.byte test) := by
  intro input s hs _
  have hpeek : s.cursor.peek 0 = (input.drop s.cursor.position)[0]? := by
    rw [List.getElem?_drop]
    exact hs.peek_eq 0
  rw [run_byte, hpeek]
  cases hbytes : input.drop s.cursor.position with
  | nil => exact ⟨_, s, rfl, .refl hs.toInRange, missing_eq expected _⟩
  | cons value rest =>
    rw [hbytes] at hpeek
    dsimp only [List.getElem?_cons_zero]
    unfold Recognizer.byte
    split
    · next htest =>
      have hlt : s.cursor.position + 1 ≤ s.cursor.buffer.stop := Cursor.lt_stop_of_peek 0 hpeek
      refine ⟨.accepted value, _, rfl, Cursor.onward_add hs.toInRange hlt, ?_⟩
      dsimp only [Verdict.bimap]
      rw [if_pos htest, ← List.drop_drop, hbytes]
      rfl
    · next htest =>
      refine ⟨.rejected _, s, rfl, .refl hs.toInRange, ?_⟩
      dsimp only [Verdict.bimap]
      rw [if_neg htest]

theorem spelled_eq (hc : c.Shows input) (l : Literal) (codes : List UInt8) (ahead : Nat) :
    Recognizer.spelled l codes c.ended (input.drop (c.position + ahead)) =
      (comparison l c codes ahead).bimap (fun _ => ()) fun _ =>
        ((), input.drop (c.position + ahead + codes.length)) := by
  induction codes generalizing ahead with
  | nil => rfl
  | cons code codes ih =>
    have hpeek : c.peek ahead = (input.drop (c.position + ahead))[0]? := by
      rw [List.getElem?_drop]
      exact hc.peek_eq ahead
    unfold comparison
    rw [hpeek]
    cases hbytes : input.drop (c.position + ahead) with
    | nil => exact missing_eq l.expected _
    | cons value rest =>
      have hrest : rest = input.drop (c.position + (ahead + 1)) := by
        rw [← Nat.add_assoc, ← List.drop_drop, hbytes]
        rfl
      dsimp only [List.getElem?_cons_zero]
      unfold Recognizer.spelled
      split
      · have hnext := ih (ahead + 1)
        rw [← hrest] at hnext
        have hsum : c.position + (ahead + 1) + codes.length =
            c.position + ahead + (code :: codes).length := by
          rw [List.length_cons]
          omega
        rw [hnext, hsum]
      · rfl

theorem reads_literal (l : Literal) :
    (literal l : Parser σ _ _).Reads bound (Recognizer.spelled l l.codes).captured := by
  intro input s hs _
  have hspelled := spelled_eq hs l l.codes 0
  rw [Nat.add_zero] at hspelled
  rw [run_literal hs.toInRange]
  unfold Recognizer.captured
  rw [hspelled]
  cases hcomparison : comparison l s.cursor l.codes 0 with
  | accepted value =>
    have hmoved := Cursor.onward_add hs.toInRange (add_le_stop_of_comparison hs.le_stop hcomparison)
    have hread : s.cursor.slice s.cursor.position (s.cursor.position + l.codes.length : Nat) = _ :=
      hs.slice_unread hmoved
    dsimp only
    rw [hread]
    exact ⟨_, _, rfl, hmoved, rfl⟩
  | undecided => exact ⟨.undecided, s, rfl, .refl hs.toInRange, rfl⟩
  | rejected error => exact ⟨.rejected error, s, rfl, .refl hs.toInRange, rfl⟩

end Parser

end StreamGrammar
