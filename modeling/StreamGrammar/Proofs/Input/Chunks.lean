import StreamGrammar.Input.Buffer
import Mathlib.Data.List.Chain
import Mathlib.Tactic.Common

/-!
# Chunks that hold a piece of the input

A list of chunks is a representation of the input from some offset on: the chunks are not empty,
each starts where the one before it stops, and together they hold the bytes up to the input's end
(`Tiles`). The two ways in which a buffer reads its chunks are specified here over such lists. The
bisection finds the last chunk that starts at or before an offset (`bisect_spec`), and the copying
loop gathers the bytes of a range (`gather_eq`).
-/

namespace StreamGrammar.Input

/-- The chunks lie one behind the other from `start` to the end of `input`, and hold its bytes. -/
def Tiles (input : List UInt8) : Nat → List Chunk → Prop
  | start, [] => start = input.length
  | start, c :: cs =>
    c.start = start ∧ c.bytes ≠ #[] ∧ c.bytes.toList <+: input.drop start ∧ Tiles input c.stop cs

namespace Tiles

variable {input : List UInt8} {start : Nat} {cs : List Chunk} {c : Chunk}

/-- A chunk that holds bytes of the input stops within it. -/
theorem stop_le (h : Tiles input start (c :: cs)) : c.stop ≤ input.length := by
  obtain ⟨rfl, hne, hbytes, -⟩ := h
  have hlen := hbytes.length_le
  have hpos : 0 < c.bytes.size := Array.size_pos_iff.mpr hne
  rw [Array.length_toList, List.length_drop] at hlen
  rw [Chunk.stop]
  omega

/-- Chunks that are not empty stop behind their start. -/
theorem start_lt_stop (h : Tiles input start (c :: cs)) : start < c.stop := by
  obtain ⟨rfl, hne, -, -⟩ := h
  exact Nat.lt_add_of_pos_right (Array.size_pos_iff.mpr hne)

/-- The first chunk starts within the input. -/
theorem start_le (h : Tiles input start cs) : start ≤ input.length := by
  cases cs with
  | nil => exact Nat.le_of_eq h
  | cons c cs => exact Nat.le_trans (Nat.le_of_lt h.start_lt_stop) h.stop_le

/-- The bytes of the first chunk are those of the input at its place. -/
theorem bytes_eq (h : Tiles input start (c :: cs)) :
    c.bytes.toList = (input.take c.stop).drop start := by
  obtain ⟨rfl, -, hbytes, -⟩ := h
  rw [List.drop_take, Chunk.stop, Nat.add_sub_cancel_left, ← Array.length_toList]
  exact List.prefix_iff_eq_take.mp hbytes

/-- Input that arrives is held by one more chunk. -/
theorem append {bytes : Array UInt8} (hne : bytes ≠ #[]) :
    ∀ {start : Nat} {cs : List Chunk}, Tiles input start cs →
      Tiles (input ++ bytes.toList) start (cs ++ [⟨input.length, bytes⟩])
  | _, [], h => by
    -- Without chunks the list starts at the end, where the new chunk comes.
    obtain rfl : _ = input.length := h
    refine ⟨rfl, hne, ?_, ?_⟩
    · exact ⟨[], by rw [List.append_nil, List.drop_left]⟩
    · simp [Tiles, Chunk.stop]
  | start, c :: cs, h => by
    have hle := h.start_le
    obtain ⟨hstart, hc, hbytes, htail⟩ := h
    refine ⟨hstart, hc, ?_, append hne htail⟩
    rw [List.drop_append_of_le_length hle]
    exact hbytes.trans (List.prefix_append _ _)

/-- The chunks behind the first `n` hold the rest of the input. -/
theorem drop :
    ∀ {start : Nat} {cs : List Chunk} (n : Nat), Tiles input start cs →
      Tiles input (((cs.drop n)[0]?.map Chunk.start).getD input.length) (cs.drop n)
  | _, [], n, _ => by simp [Tiles]
  | _, c :: cs, 0, h => by
    obtain ⟨rfl, h⟩ := h
    exact ⟨rfl, h⟩
  | _, _ :: _, n + 1, h => drop n h.2.2.2

/-- The chunks from an index on start with the chunk at that index. -/
theorem drop_of_getElem? {n : Nat} (h : Tiles input start cs) (hc : cs[n]? = some c) :
    Tiles input c.start (c :: cs.drop (n + 1)) := by
  obtain ⟨hn, rfl⟩ := List.getElem?_eq_some_iff.mp hc
  have htail := h.drop n
  rw [List.drop_eq_getElem_cons hn] at htail
  exact htail

/-- Every chunk starts at or behind the first one, and is not empty. -/
theorem le_start_of_mem :
    ∀ {start : Nat} {cs : List Chunk}, Tiles input start cs →
      ∀ c ∈ cs, start ≤ c.start ∧ c.start < c.stop
  | _, [], _, _, hmem => absurd hmem List.not_mem_nil
  | _, d :: ds, h, c, hmem => by
    have hlt := h.start_lt_stop
    rcases List.mem_cons.mp hmem with rfl | hmem
    · rw [h.1]
      exact ⟨Nat.le_refl _, hlt⟩
    · obtain ⟨hle, hc⟩ := le_start_of_mem h.2.2.2 c hmem
      exact ⟨Nat.le_trans (Nat.le_of_lt hlt) hle, hc⟩

/-- Of two chunks the earlier one stops before the later one starts, or where it starts. -/
theorem pairwise (h : Tiles input start cs) : cs.Pairwise fun c d => c.stop ≤ d.start := by
  induction cs generalizing start with
  | nil => exact List.Pairwise.nil
  | cons c cs ih =>
    exact List.pairwise_cons.mpr ⟨fun d hd => (le_start_of_mem h.2.2.2 d hd).1, ih h.2.2.2⟩

/-- Of two chunks the later one starts behind the start of the earlier one. -/
theorem start_lt {i j : Nat} {d : Chunk} (h : Tiles input start cs) (hij : i < j)
    (hc : cs[i]? = some c) (hd : cs[j]? = some d) : c.start < d.start := by
  obtain ⟨hi, rfl⟩ := List.getElem?_eq_some_iff.mp hc
  obtain ⟨hj, rfl⟩ := List.getElem?_eq_some_iff.mp hd
  have hstop := List.pairwise_iff_getElem.mp h.pairwise i j hi hj hij
  exact Nat.lt_of_lt_of_le (h.drop_of_getElem? hc).start_lt_stop hstop

/-- Where the chunks behind the first `n` start, the last of the first `n` stops. -/
theorem start_drop :
    ∀ {start : Nat} {cs : List Chunk} {middle n : Nat}, Tiles input start cs →
      Tiles input middle (cs.drop n) →
      start ≤ middle ∧ (∀ c ∈ cs.take n, c.stop ≤ middle) ∧
        (middle = start ∨ ∃ c ∈ cs.take n, c.stop = middle)
  | start, [], middle, n, h, hdrop => by
    rw [List.drop_nil] at hdrop
    obtain rfl : start = middle := Eq.trans h (Eq.symm hdrop)
    simp
  | start, c :: cs, middle, 0, h, hdrop => by
    obtain rfl : start = middle := h.1.symm.trans hdrop.1
    simp
  | start, c :: cs, middle, n + 1, h, hdrop => by
    obtain ⟨hle, hall, hlast⟩ := start_drop h.2.2.2 hdrop
    refine ⟨Nat.le_trans (Nat.le_of_lt h.start_lt_stop) hle, ?_, Or.inr ?_⟩
    · intro d hd
      rcases List.mem_cons.mp hd with rfl | hd
      · exact hle
      · exact hall d hd
    · rcases hlast with rfl | ⟨d, hd, rfl⟩
      · exact ⟨c, List.mem_cons_self, rfl⟩
      · exact ⟨d, List.mem_cons_of_mem _ hd, rfl⟩

/-- A chunk holds the bytes of the input at the offsets that it covers. -/
theorem getElem?_bytes {offset : Nat} (h : Tiles input start (c :: cs)) (hstart : start ≤ offset)
    (hstop : offset < c.stop) : c.bytes[offset - start]? = input[offset]? := by
  rw [← Array.getElem?_toList, h.bytes_eq, List.getElem?_drop, List.getElem?_take,
    Nat.add_sub_cancel' hstart, if_pos hstop]

/-- The part of a chunk in a range holds the bytes of the input there. -/
theorem part_eq (h : Tiles input start (c :: cs)) (low high : Nat) :
    c.part low high = ((input.take high).take c.stop).drop (max low start) := by
  have hstart := h.1
  have hlt := h.start_lt_stop
  -- A part is cut out of the chunk relative to the start of the chunk.
  have hlow : c.start + (max low c.start - c.start) = max low c.start := by omega
  rw [Chunk.part, Array.toList_extract, List.extract_eq_take_drop, h.bytes_eq, ← h.1,
    List.drop_drop, hlow, List.drop_take, List.take_take, List.take_take, List.drop_take]
  congr 1
  omega

/-- The first chunk of a list that tiles from an offset starts there. -/
theorem start_eq (h : Tiles input start cs) (hc : cs[0]? = some c) : c.start = start := by
  obtain ⟨d, ds, rfl⟩ := List.exists_cons_of_ne_nil (List.ne_nil_of_mem (List.mem_of_getElem? hc))
  rw [List.getElem?_cons_zero, Option.some.injEq] at hc
  exact hc ▸ h.1

/-- The chunk from which the rest starts stops behind whatever is not behind the start. -/
theorem le_stop_of_drop {chunks : Array Chunk} {low n : Nat}
    (h : Tiles input start (chunks.toList.drop n)) (hle : low ≤ start) :
    ∀ c, chunks[n]? = some c → low ≤ c.stop := by
  intro c hc
  have hfirst : (chunks.toList.drop n)[0]? = some c := by
    rw [List.getElem?_drop, Nat.add_zero, Array.getElem?_toList, hc]
  have hstop := (h.drop_of_getElem? hfirst).start_lt_stop
  rw [h.start_eq hfirst] at hstop
  omega

/-- The chunks lie one behind the other, without a gap. -/
theorem isChain (h : Tiles input start cs) : cs.IsChain fun c d => c.stop = d.start := by
  induction cs generalizing start with
  | nil => exact List.IsChain.nil
  | cons c cs ih =>
    refine List.isChain_cons.mpr ⟨fun d hd => ?_, ih h.2.2.2⟩
    rw [List.head?_eq_getElem?] at hd
    exact (h.2.2.2.start_eq hd).symm

/-- The last chunk stops where the input does. -/
theorem stop_getLast? (h : Tiles input start cs) (hc : cs.getLast? = some c) :
    c.stop = input.length := by
  induction cs generalizing start with
  | nil => cases hc
  | cons d ds ih =>
    have hrest := h.2.2.2
    cases ds with
    | nil =>
      obtain rfl : d = c := Option.some.inj hc
      exact hrest
    | cons e es => exact ih hrest hc

end Tiles

namespace Buffer

variable {input : List UInt8} {start : Nat} {chunks : Array Chunk}

/-- The answer of a bisection over the indices `[low, high]`: the chunk at `index` starts at or
before `offset`, and every chunk after it starts later. -/
structure IsLast (chunks : Array Chunk) (offset low high index : Nat) : Prop where
  /-- The index is not before the first one searched. -/
  low_le : low ≤ index
  /-- The index is not behind the last one searched. -/
  le_high : index ≤ high
  /-- The chunk starts at or before the offset. -/
  start_le : ∀ c, chunks[index]? = some c → c.start ≤ offset
  /-- The chunks after it start behind the offset. -/
  lt_start : ∀ j, index < j → j ≤ high → ∀ c, chunks[j]? = some c → offset < c.start

/-- The bisection finds the last chunk that starts at or before an offset, if the first one searched
does. What carries over from round to round is that the chunk at `low` does. -/
theorem bisect_spec (h : Tiles input start chunks.toList) {offset low high : Nat} (hle : low ≤ high)
    (hhigh : high < chunks.size) (hlow : ∀ c, chunks[low]? = some c → c.start ≤ offset) :
    IsLast chunks offset low high (bisect chunks offset low high) := by
  fun_induction bisect chunks offset low high with
  | case1 low high hlt middle c hc hstart ih =>
    -- The search goes on from the middle, which starts at or before the offset.
    obtain ⟨hge, hle', hfirst, hrest⟩ := ih (by omega) hhigh fun d hd => by
      rw [hc, Option.some.injEq] at hd
      exact hd ▸ hstart
    exact ⟨by omega, hle', hfirst, hrest⟩
  | case2 low high hlt middle c hc hstart ih =>
    -- The middle starts behind the offset, and so does every chunk after it.
    obtain ⟨hge, hle', hfirst, hrest⟩ := ih (by omega) (by omega) hlow
    refine ⟨hge, by omega, hfirst, fun j hj hjhigh d hd => ?_⟩
    rcases Nat.lt_trichotomy j middle with hjm | rfl | hjm
    · exact hrest j hj (by omega) d hd
    · rw [hc, Option.some.injEq] at hd
      exact hd ▸ Nat.lt_of_not_le hstart
    · rw [← Array.getElem?_toList] at hc hd
      exact Nat.lt_trans (Nat.lt_of_not_le hstart) (h.start_lt hjm hc hd)
  | case3 low high hlt middle hc ih =>
    -- There is a chunk in the middle.
    rw [Array.getElem?_eq_none_iff] at hc
    omega
  | case4 low high hlt =>
    obtain rfl : low = high := by omega
    exact ⟨Nat.le_refl _, Nat.le_refl _, hlow, fun j hj hjhigh => by omega⟩

/-- The chunk found for an offset reaches beyond it, unless it is the last one. -/
theorem IsLast.lt_stop {offset low index : Nat} {c : Chunk}
    (hlast : IsLast chunks offset low (chunks.size - 1) index) (h : Tiles input start chunks.toList)
    (hc : chunks[index]? = some c) : offset < c.stop ∨ c.stop = input.length := by
  have hrest := (h.drop_of_getElem? (Array.getElem?_toList.trans hc)).2.2.2
  by_cases hnext : index + 1 < chunks.size
  · left
    rw [List.drop_eq_getElem_cons (by simpa using hnext)] at hrest
    rw [← hrest.1, Array.getElem_toList]
    exact hlast.lt_start _ (Nat.lt_succ_self _) (by omega) _ (Array.getElem?_eq_getElem hnext)
  · right
    rw [List.drop_eq_nil_of_le (by simpa using hnext)] at hrest
    exact hrest

/-- Where chunks are held, the search for an offset that is not released answers with the last chunk
that starts at or before it. -/
theorem locate_spec {b : Buffer} {offset : Nat} (h : Tiles input b.start b.chunks.toList)
    (hne : b.chunks ≠ #[]) (hstart : b.start ≤ offset) :
    IsLast b.chunks offset 0 (b.chunks.size - 1) (b.locate offset) := by
  have hpos : 0 < b.chunks.size := Array.size_pos_iff.mpr hne
  refine bisect_spec h (Nat.zero_le _) (Nat.sub_lt hpos Nat.one_pos) fun c hc => ?_
  rw [h.start_eq (Array.getElem?_toList.trans hc)]
  exact hstart

/-- The copying loop gathers the bytes of a range, if it starts at a chunk that does not stop before
the range starts. -/
theorem gather_eq {low high index : Nat} (h : Tiles input start (chunks.toList.drop index))
    (hlow : ∀ c, chunks[index]? = some c → low ≤ c.stop) :
    gather chunks low high index = (input.take high).drop (max low start) := by
  fun_induction gather chunks low high index generalizing start with
  | case1 index hlt chunk hstart =>
    rename_i ih
    rw [List.drop_eq_getElem_cons (by simpa using hlt), Array.getElem_toList] at h
    have hle : low ≤ chunk.stop := hlow _ (Array.getElem?_eq_getElem hlt)
    have htail : Tiles input chunk.stop (chunks.toList.drop (index + 1)) := h.2.2.2
    have hmax : max low start ≤ chunk.stop := Nat.max_le.mpr ⟨hle, Nat.le_of_lt h.start_lt_stop⟩
    -- The part stops where the rest starts.
    have hrest : (input.take high).drop chunk.stop =
        ((input.take high).drop (max low start)).drop (chunk.stop - max low start) := by
      rw [List.drop_drop, Nat.add_sub_cancel' hmax]
    rw [h.part_eq, ih htail (htail.le_stop_of_drop hle), Nat.max_eq_right hle, List.drop_take,
      hrest, List.take_append_drop]
  | case2 index hlt chunk =>
    -- The chunk starts behind the range, and there is nothing left to gather.
    rename_i hstart
    rw [List.drop_eq_getElem_cons (by simpa using hlt), Array.getElem_toList] at h
    have hhigh : high ≤ start := by rw [← h.1]; exact Nat.le_of_not_lt hstart
    rw [List.drop_eq_nil_of_le]
    rw [List.length_take]
    omega
  | case3 index hlt =>
    -- There are no more chunks, so the input ends here.
    rw [List.drop_eq_nil_of_le (by simpa using hlt)] at h
    obtain rfl : start = input.length := h
    rw [List.drop_eq_nil_of_le]
    rw [List.length_take]
    omega

end Buffer

end StreamGrammar.Input
