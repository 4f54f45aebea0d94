import StreamGrammar.Proofs.Input.Access

/-!
# How long a mark lasts

A mark is the position at which it was taken. It can be returned to until a release drops a chunk
that reaches beyond it, and never again after that (`lasts_until_dropped`). A release that is made
at or before a mark drops no such chunk, whatever was done in between, and whoever returns finds the
bytes that were to come when the mark was taken, and behind them those that have arrived since.

What carries over from call to call is where the held bytes start. Only a release moves that place,
and it moves beyond the mark exactly when it drops such a chunk (`lt_start_after_iff`). The place
never moves back, so what has been dropped before does not have to be kept in mind.
-/

namespace StreamGrammar

open Input (Cursor)

variable {σ : Type}

/-! ## What the statements say -/

/-- From the position on, the input delivers `bytes`, and then no more for now. -/
structure Scanner.Delivers (s : Scanner σ) (bytes : List UInt8) : Prop where
  available_eq : s.cursor.available = bytes.length
  peek_eq : ∀ ahead : Nat, Scan.peek ahead s = .ok bytes[ahead]? s
  /-- Any number of them is read in one go, and the position moves past these. -/
  read_eq : ∀ count : Nat, count ≤ bytes.length →
    Scan.read count s =
      .ok (some (bytes.take count)) { s with cursor.position := s.cursor.position + count }
  read_short : ∀ count : Nat, bytes.length < count → Scan.read count s = .ok none s

/-- The cursor can be put back to a mark, where it delivers `bytes`. Nothing else changes. -/
def Scanner.ReturnsTo (s : Scanner σ) (mark : Nat) (bytes : List UInt8) : Prop :=
  ∃ t, Scan.rewind mark s = .ok () t ∧ t.cursor = { s.cursor with position := mark } ∧
    t.Delivers bytes

/-- The return to a mark is refused. -/
def Scanner.Refuses (s : Scanner σ) (mark : Nat) : Prop :=
  Scan.rewind mark s = .error (.fault (.released mark)) (s.log (.rewound mark))

namespace Scan

namespace Call

/-- Calls that are made one after the other, each with the scanner that it finds. -/
def turns : Scanner σ → List Call → List (Scanner σ × Call)
  | _, [] => []
  | s, call :: calls => (s, call) :: turns (after s call) calls

/-- A call that drops a chunk which reaches beyond the mark. -/
def DropsBeyond (mark : Nat) (s : Scanner σ) (call : Call) : Prop :=
  ∃ c ∈ s.cursor.buffer.chunks, c ∉ (after s call).cursor.buffer.chunks ∧ mark < c.stop

end Call

/-- What becomes of a mark with the calls `later`, where `bytes` is what was to come from the mark
on, with what has arrived since. -/
structure Lasts (marked : Scanner σ) (mark : Nat) (later : List Call) (bytes : List UInt8) :
    Prop where
  /-- It is kept where every release was made at or before it. -/
  kept : (∀ turn ∈ Call.turns marked later,
      turn.2.isRelease → turn.1.cursor.position ≤ mark) →
    (later.foldl Call.after marked).ReturnsTo mark bytes
  /-- The return is refused exactly when a release has dropped a chunk that reaches beyond it. -/
  refuses_iff : (later.foldl Call.after marked).Refuses mark ↔
    ∃ turn ∈ Call.turns marked later, turn.2.isRelease ∧ Call.DropsBeyond mark turn.1 turn.2
  /-- A return that is not refused leads to the mark. -/
  returns : ¬ (later.foldl Call.after marked).Refuses mark →
    (later.foldl Call.after marked).ReturnsTo mark bytes
  /-- What is refused once is refused for ever. -/
  forever : (later.foldl Call.after marked).Refuses mark →
    ∀ more, ((later ++ more).foldl Call.after marked).Refuses mark

end Scan

/-! ## One call -/

variable {s : Scanner σ} {input : List UInt8} {mark : Nat}

namespace Scanner

theorem Delivers.of_shows (h : s.cursor.Shows input) :
    s.Delivers (input.drop s.cursor.position) := by
  have hstart := h.start_le
  have hstop := h.le_stop
  have havailable : s.cursor.available = (input.drop s.cursor.position).length := by
    rw [List.length_drop, ← h.holds.stop_eq]
    rfl
  constructor
  case available_eq => exact havailable
  case peek_eq =>
    intro ahead
    have hpeek : Scan.peek ahead s = .ok (s.cursor.peek ahead) s := rfl
    rw [hpeek, h.peek_eq, List.getElem?_drop]
  case read_eq =>
    intro count hle
    rw [Scan.run_read h, if_neg (by omega), if_neg (by omega), Int.toNat_natCast]
  case read_short =>
    intro count hlt
    rw [Scan.run_read h, if_pos (by omega)]

/-- A return is refused where the mark lies before what is held. -/
theorem refuses_iff (hle : mark ≤ s.cursor.buffer.stop) :
    s.Refuses mark ↔ mark < s.cursor.buffer.start := by
  unfold Refuses
  rw [Scan.run_rewind]
  constructor
  · intro h
    split at h
    · omega
    · cases h
  · intro hlt
    rw [if_pos (by omega)]

theorem returnsTo_of_shows (h : s.cursor.Shows input) (hstart : s.cursor.buffer.start ≤ mark)
    (hstop : mark ≤ s.cursor.buffer.stop) : s.ReturnsTo mark (input.drop mark) := by
  refine ⟨{ s.log (.rewound mark) with cursor.position := mark }, ?_, rfl, ?_⟩
  · rw [Scan.run_rewind, if_neg (by omega), Int.toNat_natCast]
  · exact .of_shows (h.of_within ⟨rfl, rfl, hstart, hstop⟩)

end Scanner

namespace Scan

namespace Call

/-- Of all calls, only a release moves the start of what is held, and it does so by dropping
chunks. -/
theorem lt_start_after_iff (h : s.cursor.Shows input) (call : Call) :
    mark < (after s call).cursor.buffer.start ↔
      mark < s.cursor.buffer.start ∨ call.isRelease ∧ DropsBeyond mark s call := by
  have heffect := after_effect h call
  unfold DropsBeyond
  generalize (after s call).cursor = d at heffect ⊢
  cases heffect with
  | appended hopen => simp [isRelease, Input.Buffer.append_start]
  | refused hended => simp [isRelease]
  | finished => simp [isRelease, Cursor.finish]
  | released =>
    simp only [isRelease, true_and]
    exact h.holds.lt_start_release_iff
  | moved _ _ hrelease hcd => simp [hrelease, hcd.buffer_eq]

/-- A release that is made at or before the mark drops no chunk that reaches beyond it. -/
theorem not_dropsBeyond {call : Call} (hrelease : call.isRelease)
    (hposition : s.cursor.position ≤ mark) : ¬ DropsBeyond mark s call := by
  rintro ⟨c, hc, hdropped, hlt⟩
  cases call with
  | release =>
    have hstop : (c.stop : Int) ≤ s.cursor.position :=
      Input.Buffer.stop_le_of_dropped hc hdropped
    omega
  | _ => cases hrelease

/-! ## All calls -/

/-- By induction on the calls: the held bytes start beyond the mark if they did so before, or if one
of the releases has dropped a chunk that reaches beyond it. -/
theorem lt_start_foldl_iff (h : s.cursor.Shows input) (calls : List Call) :
    mark < (calls.foldl after s).cursor.buffer.start ↔
      mark < s.cursor.buffer.start ∨
        ∃ turn ∈ turns s calls, turn.2.isRelease ∧ DropsBeyond mark turn.1 turn.2 := by
  induction calls generalizing s input with
  | nil => simp [turns]
  | cons call calls ih =>
    rw [List.foldl_cons, ih (after_shows h call).1, lt_start_after_iff h, turns, or_assoc]
    simp only [List.exists_mem_cons_iff]

end Call

theorem Lasts.of_shows (h : s.cursor.Shows input) (hstart : s.cursor.buffer.start ≤ mark)
    (hstop : mark ≤ s.cursor.buffer.stop) (later : List Call) :
    Lasts s mark later
      (input.drop mark ++ if s.cursor.ended then [] else Call.arrived later) := by
  -- The mark stays at or before the end, as there is only more input.
  have hlength : mark ≤ input.length := h.holds.stop_eq ▸ hstop
  have hle (calls : List Call) : mark ≤ (calls.foldl Call.after s).cursor.buffer.stop := by
    rw [(Call.foldl_shows h calls).1.holds.stop_eq, List.length_append]
    omega
  have hrefuses (calls : List Call) := Scanner.refuses_iff (hle calls)
  have hdrops : (later.foldl Call.after s).Refuses mark ↔ ∃ turn ∈ Call.turns s later,
      turn.2.isRelease ∧ Call.DropsBeyond mark turn.1 turn.2 := by
    rw [hrefuses, Call.lt_start_foldl_iff h, or_iff_right (Nat.not_lt_of_le hstart)]
  have hreturns (hkept : ¬ (later.foldl Call.after s).Refuses mark) :
      (later.foldl Call.after s).ReturnsTo mark
        (input.drop mark ++ if s.cursor.ended then [] else Call.arrived later) := by
    rw [hrefuses, Nat.not_lt] at hkept
    have hreturn := Scanner.returnsTo_of_shows (Call.foldl_shows h later).1 hkept (hle later)
    rw [List.drop_append_of_le_length hlength] at hreturn
    exact hreturn
  constructor
  case kept =>
    intro hearly
    apply hreturns
    rw [hdrops]
    rintro ⟨turn, hturn, hrelease, hbeyond⟩
    exact Call.not_dropsBeyond hrelease (hearly turn hturn hrelease) hbeyond
  case refuses_iff => exact hdrops
  case returns => exact hreturns
  case forever =>
    intro hrefused more
    rw [hrefuses] at hrefused ⊢
    rw [List.foldl_append, Call.lt_start_foldl_iff (Call.foldl_shows h later).1]
    exact Or.inl hrefused

/-- A mark that is taken after any calls stands for the position, from which on the bytes to come
are delivered. Any calls may follow, with any arguments, refused ones and other returns included:
the mark can be returned to until a release drops a chunk that reaches beyond it. Then the same
bytes are delivered from it as before, and behind them those that have arrived since. -/
theorem lasts_until_dropped (before later : List Call) (memory : σ) :
    let s := Call.afterAll before memory
    let mark := s.cursor.position
    let unread := (Call.arrived before).drop mark
    let since := if before.any Call.isFinish then [] else Call.arrived later
    ∃ marked, Scan.mark s = .ok mark marked ∧ s.Delivers unread ∧
      Lasts marked mark later (unread ++ since) := by
  intro s mark unread since
  obtain ⟨hshows, hended⟩ := Call.afterAll_shows before memory
  have hlasts :=
    Lasts.of_shows (s := s.log (.marked mark)) hshows hshows.start_le hshows.le_stop later
  have hopen : (s.log (.marked mark)).cursor.ended = before.any Call.isFinish := hended
  rw [hopen] at hlasts
  exact ⟨s.log (.marked mark), rfl, .of_shows hshows, hlasts⟩

/-- The release comes after a return to a place before the mark, and drops the first of two chunks.
Another chunk has arrived by then. -/
theorem lasts_until_dropped_rewound :
    let before : List Call := [.append #[97, 98, 99], .append #[100, 101, 102], .advance 4]
    let later : List Call := [.append #[103], .rewind 3, .release, .advance 2]
    ∃ marked, Scan.mark (Call.afterAll before ()) = .ok 4 marked ∧
      (∀ turn ∈ Call.turns marked later, turn.2.isRelease → turn.1.cursor.position ≤ 4) ∧
      (later.foldl Call.after marked).cursor.buffer.start = 3 ∧
      (later.foldl Call.after marked).ReturnsTo 4 [101, 102, 103] := by
  intro before later
  obtain ⟨marked, hmark, -, hlasts⟩ := lasts_until_dropped before later ()
  obtain ⟨-, rfl⟩ := EStateM.Result.ok.inj hmark
  have hearly : ∀ turn ∈ Call.turns ((Call.afterAll before ()).log (.marked 4)) later,
      turn.2.isRelease → turn.1.cursor.position ≤ 4 := by decide +kernel
  exact ⟨_, rfl, hearly, by decide +kernel, hlasts.kept hearly⟩

end Scan

end StreamGrammar
