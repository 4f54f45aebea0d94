import StreamGrammar.Proofs.Input.Buffer
import Mathlib.Order.Bounds.Basic

/-!
# A buffer after any calls

A buffer that starts empty and takes any calls, in any order and with any arguments, is the input
that has arrived without its released front (`Buffer.run_refines`). What carries over from call to
call is `Buffer.Follows`: the buffer holds the input so far, and the places at which its chunks stop
are the boundaries between the chunks that arrived, as far as they lie behind the start.
-/

namespace StreamGrammar.Input.Buffer

/-- A call on a buffer. -/
inductive Call where
  | append (bytes : Array UInt8)
  | get (offset : Int)
  | copy (low high : Int)
  | release (offset : Int)

/-- The bytes that arrive with a call. -/
def Call.bytes : Call → List UInt8
  | .append bytes => bytes.toList
  | .get _ | .copy _ _ | .release _ => []

/-- The buffer behind a call. Reading does not change it. -/
def after (b : Buffer) : Call → Buffer
  | .append bytes => b.append bytes
  | .get _ | .copy _ _ => b
  | .release offset => (b.release offset).2

/-- The buffer behind all calls, where the first one finds it empty. -/
def run (calls : List Call) : Buffer := calls.foldl after {}

/-- The bytes that arrive with all calls. -/
def arrived (calls : List Call) : List UInt8 := calls.flatMap Call.bytes

/-- An offset at which a chunk of the input starts or stops: so many bytes had arrived after the
first calls. -/
def IsBoundary (calls : List Call) (offset : Nat) : Prop :=
  ∃ n, offset = (arrived (calls.take n)).length

/-! ## What the statements say -/

/-- The held chunks are the pieces of one range, from the start to the stop. -/
structure WellFormed (b : Buffer) : Prop where
  nonempty : ∀ c ∈ b.chunks, c.bytes ≠ #[]
  contiguous : b.chunks.toList.IsChain fun c d => c.stop = d.start
  start_eq : ∀ c, b.chunks.toList.head? = some c → c.start = b.start
  stop_eq : ∀ c, b.chunks.toList.getLast? = some c → c.stop = b.stop
  start_eq_stop : b.chunks = #[] → b.start = b.stop

/-- The buffer answers as the input from `b.start` on would. -/
structure Refines (b : Buffer) (input : List UInt8) : Prop where
  wellFormed : b.WellFormed
  stop_eq : b.stop = input.length
  /-- A held byte is that of the input. -/
  get?_held : ∀ i : Int, b.start ≤ i → i < b.stop →
    ∃ h : i.toNat < input.length, b.get? i = some input[i.toNat]
  get?_outside : ∀ i : Int, i < b.start ∨ b.stop ≤ i → b.get? i = none
  /-- A held range is copied from the input, to its last byte. -/
  copy_held : ∀ low high : Int, b.start ≤ low → low ≤ high → high ≤ b.stop →
    b.copy low high = .ok ((input.take high.toNat).drop low.toNat)
  copy_outside : ∀ low high : Int, low < b.start ∨ b.stop < high ∨ high < low →
    ∃ e, b.copy low high = .error e ∧ e.name = "RangeError"

/-- The effect of a release: the start moves to the last boundary that is not behind `offset`, and
stays where there is none behind it. -/
structure Releases (calls : List Call) (b : Buffer) (offset : Int) (released : Nat)
    (b' : Buffer) : Prop where
  isGreatest : (∃ x, IsBoundary calls x ∧ b.start < x ∧ x ≤ offset) →
    IsGreatest {x : Nat | IsBoundary calls x ∧ x ≤ offset} b'.start
  stays : (¬ ∃ x, IsBoundary calls x ∧ b.start < x ∧ x ≤ offset) → b'.start = b.start
  released_eq : b.start + released = b'.start
  stop_eq : b'.stop = b.stop
  /-- No byte that is still held changes. -/
  get?_eq : ∀ i : Int, b'.start ≤ i → b'.get? i = b.get? i

namespace Holds

variable {b : Buffer} {input : List UInt8}

theorem wellFormed (h : b.Holds input) : b.WellFormed where
  nonempty := by
    intro c hc
    have hlt := (h.tiles.le_start_of_mem c (Array.mem_toList_iff.mpr hc)).2
    rintro hempty
    rw [Chunk.stop, hempty] at hlt
    exact Nat.lt_irrefl _ hlt
  contiguous := h.tiles.isChain
  start_eq := by
    intro c hc
    rw [List.head?_eq_getElem?] at hc
    exact h.tiles.start_eq hc
  stop_eq := by
    intro c hc
    rw [h.stop_eq]
    exact h.tiles.stop_getLast? hc
  start_eq_stop := h.start_eq_stop

theorem refines (h : b.Holds input) : b.Refines input where
  wellFormed := h.wellFormed
  stop_eq := h.stop_eq
  get?_held := by
    intro i hstart hstop
    have hlt : i.toNat < input.length := by rw [← h.stop_eq]; omega
    refine ⟨hlt, ?_⟩
    rw [h.get?_eq, if_pos ⟨hstart, hstop⟩, List.getElem?_eq_getElem hlt]
  get?_outside := by
    intro i hi
    rw [h.get?_eq, if_neg (by omega)]
  copy_held := by
    intro low high hstart hle hstop
    rw [h.copy_eq, if_neg (by omega)]
  copy_outside := by
    intro low high hout
    rw [h.copy_eq, if_pos hout]
    exact ⟨_, rfl, rfl⟩

end Holds

/-! ## One call -/

section Boundaries

variable {calls : List Call} {call : Call} {x : Nat}

theorem arrived_snoc : arrived (calls ++ [call]) = arrived calls ++ call.bytes := by
  unfold arrived
  rw [List.flatMap_append, List.flatMap_singleton]

theorem isBoundary_length : IsBoundary calls (arrived calls).length :=
  ⟨calls.length, by rw [List.take_length]⟩

theorem IsBoundary.le (h : IsBoundary calls x) : x ≤ (arrived calls).length := by
  obtain ⟨n, rfl⟩ := h
  have hsplit : arrived calls = arrived (calls.take n) ++ arrived (calls.drop n) := by
    unfold arrived
    rw [← List.flatMap_append, List.take_append_drop]
  calc (arrived (calls.take n)).length
      ≤ (arrived (calls.take n)).length + (arrived (calls.drop n)).length := Nat.le_add_right _ _
    _ = (arrived calls).length := by rw [← List.length_append, ← hsplit]

/-- A call adds at most one boundary, the new end of the input. -/
theorem isBoundary_snoc :
    IsBoundary (calls ++ [call]) x ↔
      IsBoundary calls x ∨ x = (arrived (calls ++ [call])).length := by
  constructor
  · rintro ⟨n, rfl⟩
    -- Only the bytes that arrive with all calls reach to the new end.
    rcases Nat.lt_or_ge calls.length n with hn | hn
    · right
      rw [List.take_of_length_le]
      rw [List.length_append]
      exact hn
    · left
      exact ⟨n, by rw [List.take_append_of_le_length hn]⟩
  · rintro (⟨n, rfl⟩ | rfl)
    · refine ⟨min n calls.length, ?_⟩
      rw [List.take_append_of_le_length (Nat.min_le_right _ _), ← List.take_take, List.take_length]
    · exact isBoundary_length

/-- Where nothing arrives, the boundaries are those there were. -/
theorem isBoundary_snoc_of_quiet (hquiet : call.bytes = []) :
    IsBoundary (calls ++ [call]) x ↔ IsBoundary calls x := by
  rw [isBoundary_snoc, arrived_snoc, hquiet, List.append_nil]
  constructor
  · rintro (h | rfl)
    · exact h
    · exact isBoundary_length
  · exact Or.inl

end Boundaries

/-- The buffer represents what has arrived with the calls. From its start on, the boundaries are the
start and the places at which a chunk stops. -/
structure Follows (b : Buffer) (calls : List Call) : Prop where
  holds : b.Holds (arrived calls)
  isBoundary : ∀ x, b.start ≤ x →
    (IsBoundary calls x ↔ x = b.start ∨ ∃ c ∈ b.chunks.toList, c.stop = x)

namespace Follows

variable {b : Buffer} {calls : List Call}

theorem empty : Follows {} [] where
  holds := .empty
  isBoundary := by
    intro x _
    simp [IsBoundary, arrived]

theorem append (h : b.Follows calls) (bytes : Array UInt8) :
    (b.append bytes).Follows (calls ++ [.append bytes]) := by
  refine ⟨?_, ?_⟩
  · rw [arrived_snoc]
    exact h.holds.append bytes
  · intro x hx
    rw [Buffer.append] at hx ⊢
    split at hx <;> rename_i hempty
    · -- A chunk without bytes is not kept, and adds no boundary.
      rw [if_pos hempty]
      rw [Array.isEmpty_iff] at hempty
      rw [isBoundary_snoc_of_quiet (by rw [Call.bytes, hempty]), h.isBoundary x hx]
    · -- The only new boundary is where the new chunk stops.
      have hstop : (arrived (calls ++ [.append bytes])).length = b.stop + bytes.size := by
        rw [arrived_snoc, List.length_append, ← h.holds.stop_eq, Call.bytes, Array.length_toList]
      rw [if_neg hempty, isBoundary_snoc, hstop, h.isBoundary x hx, Array.toList_push]
      simp [or_and_right, exists_or, or_assoc, Chunk.stop, eq_comm]

/-- After a release, the start is at the place where the last dropped chunk stops. -/
theorem start_of_drops (h : b.Follows calls) {b' : Buffer} {offset : Int} {n : Nat}
    (hdrops : b.Drops b' offset n) (hb' : b'.Holds (arrived calls)) :
    b.start ≤ b'.start ∧ (∀ c ∈ b.chunks.toList.take n, c.stop ≤ b'.start) ∧
      (b'.start = b.start ∨ ∃ c ∈ b.chunks.toList.take n, c.stop = b'.start) :=
  h.holds.tiles.start_drop (hdrops.chunks_eq ▸ hb'.tiles)

theorem of_drops (h : b.Follows calls) {b' : Buffer} {offset : Int} {n : Nat}
    (hdrops : b.Drops b' offset n) (hb' : b'.Holds (arrived calls)) : b'.Follows calls := by
  obtain ⟨hle, hstop, hstart⟩ := h.start_of_drops hdrops hb'
  refine ⟨hb', fun x hx => ?_⟩
  rw [h.isBoundary x (Nat.le_trans hle hx), hdrops.chunks_eq]
  constructor
  · -- A chunk that stops behind the new start has not been dropped.
    rintro (rfl | ⟨c, hc, rfl⟩)
    · exact Or.inl (Nat.le_antisymm hle hx)
    · rw [← List.take_append_drop n b.chunks.toList] at hc
      rcases List.mem_append.mp hc with hc | hc
      · exact Or.inl (Nat.le_antisymm (hstop c hc) hx)
      · exact Or.inr ⟨c, hc, rfl⟩
  · -- The new start is the old one, or the place where a dropped chunk stops.
    rintro (rfl | ⟨c, hc, rfl⟩)
    · exact hstart.imp id fun ⟨c, hc, hstop⟩ => ⟨c, List.mem_of_mem_take hc, hstop⟩
    · exact Or.inr ⟨c, List.mem_of_mem_drop hc, rfl⟩

theorem after (h : b.Follows calls) (call : Call) : (b.after call).Follows (calls ++ [call]) := by
  -- Only an appended chunk adds to the input.
  have quiet {b' : Buffer} (hquiet : call.bytes = []) (h' : b'.Follows calls) :
      b'.Follows (calls ++ [call]) := by
    have harrived : arrived (calls ++ [call]) = arrived calls := by
      rw [arrived_snoc, hquiet, List.append_nil]
    refine ⟨harrived ▸ h'.holds, fun x hx => ?_⟩
    rw [isBoundary_snoc_of_quiet hquiet]
    exact h'.isBoundary x hx
  cases call with
  | append bytes => exact h.append bytes
  | get offset => exact quiet rfl h
  | copy low high => exact quiet rfl h
  | release offset =>
    obtain ⟨n, hdrops, hb', -⟩ := h.holds.release offset
    exact quiet rfl (h.of_drops hdrops hb')

/-- A release moves the start to a boundary. -/
theorem releases (h : b.Follows calls) (offset : Int) :
    Releases calls b offset (b.release offset).1 (b.release offset).2 := by
  obtain ⟨n, hdrops, hb', hreleased⟩ := h.holds.release offset
  obtain ⟨hle, hstop, hstart⟩ := h.start_of_drops hdrops hb'
  have hfollows := h.of_drops hdrops hb'
  generalize (b.release offset).2 = b' at *
  -- A boundary behind the old start that is not behind the offset ends a chunk that is dropped.
  have hdropped {x : Nat} (hx : IsBoundary calls x) (hlt : b.start < x) (hoffset : x ≤ offset) :
      x ≤ b'.start := by
    rcases (h.isBoundary x (Nat.le_of_lt hlt)).mp hx with rfl | ⟨c, hc, rfl⟩
    · exact absurd hlt (Nat.lt_irrefl _)
    · rw [← List.take_append_drop n b.chunks.toList] at hc
      rcases List.mem_append.mp hc with hc | hc
      · exact hstop c hc
      · have := hdrops.lt_stop_of_mem h.holds c (hdrops.chunks_eq ▸ hc)
        omega
  have hboundary : IsBoundary calls b'.start :=
    (hfollows.isBoundary _ (Nat.le_refl _)).mpr (Or.inl rfl)
  refine ⟨?_, ?_, hreleased, hdrops.stop_eq, ?_⟩
  · -- There is such a boundary, so the last dropped chunk stops at the greatest one.
    rintro ⟨x, hx, hlt, hoffset⟩
    have hx' := hdropped hx hlt hoffset
    refine ⟨⟨hboundary, ?_⟩, ?_⟩
    · rcases hstart with hstart | ⟨c, hc, hstart⟩
      · omega
      · rw [← hstart]
        exact hdrops.stop_le c hc
    · rintro y ⟨hy, hyoffset⟩
      rcases Nat.lt_or_ge b.start y with hlt' | hge
      · exact hdropped hy hlt' hyoffset
      · exact Nat.le_trans hge hle
  · -- There is none, so no chunk is dropped, as it would stop at one.
    intro hnone
    rcases hstart with hstart | ⟨c, hc, hstart⟩
    · exact hstart
    · refine absurd ⟨c.stop, hstart ▸ hboundary, ?_, hdrops.stop_le c hc⟩ hnone
      have hc' := h.holds.tiles.le_start_of_mem c (List.mem_of_mem_take hc)
      exact Nat.lt_of_le_of_lt hc'.1 hc'.2
  · intro i hi
    rw [hb'.get?_eq, h.holds.get?_eq, hdrops.stop_eq]
    have hrange : (b'.start : Int) ≤ i ∧ i < b.stop ↔ (b.start : Int) ≤ i ∧ i < b.stop := by omega
    simp only [hrange]

end Follows

/-! ## All calls -/

theorem run_snoc (calls : List Call) (call : Call) :
    run (calls ++ [call]) = (run calls).after call := by
  unfold run
  rw [List.foldl_append, List.foldl_cons, List.foldl_nil]

theorem run_follows (calls : List Call) : (run calls).Follows calls := by
  induction calls using List.reverseRecOn with
  | nil => exact .empty
  | append_singleton calls call ih =>
    rw [run_snoc]
    exact ih.after call

/-- After any calls, the buffer answers as the input without its released front would, and another
release moves the end of that front to a boundary between chunks. -/
theorem run_refines (calls : List Call) :
    (run calls).Refines (arrived calls) ∧
      ∀ offset, Releases calls (run calls) offset ((run calls).release offset).1
        ((run calls).release offset).2 := by
  have h := run_follows calls
  constructor
  · exact h.holds.refines
  · exact h.releases

end StreamGrammar.Input.Buffer
