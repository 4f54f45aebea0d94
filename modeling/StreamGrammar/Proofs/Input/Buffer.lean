import StreamGrammar.Proofs.Input.Chunks

/-!
# A buffer is the input without what was released

`Buffer.Holds b input` says that `b` represents `input`, all bytes that ever arrived, of which those
before `b.start` have been released. Each operation on a buffer is specified against it: appending
adds to the input (`Holds.append`), a byte and a range are those of the input (`Holds.get?_eq`,
`Holds.copy_eq`), and releasing moves the start to the end of a chunk and nothing else
(`Holds.release`).
-/

namespace StreamGrammar.Input

namespace Buffer

variable {b : Buffer} {input : List UInt8}

/-- The buffer holds the bytes of `input` from `b.start` on. -/
structure Holds (b : Buffer) (input : List UInt8) : Prop where
  /-- The chunks hold the bytes from the start to the end of the input. -/
  tiles : Tiles input b.start b.chunks.toList
  /-- The buffer stops where the input does. -/
  stop_eq : b.stop = input.length

/-- Appending releases nothing. -/
theorem append_start (b : Buffer) (bytes : Array UInt8) : (b.append bytes).start = b.start := by
  unfold Buffer.append
  split <;> rfl

namespace Holds

/-- A new buffer holds the input of which nothing has arrived. -/
theorem empty : Holds {} [] := ⟨rfl, rfl⟩

/-- Where no chunk is held, everything has been released. -/
theorem start_eq_stop (h : b.Holds input) (hnone : b.chunks = #[]) : b.start = b.stop := by
  have htiles := h.tiles
  rw [hnone] at htiles
  exact Eq.trans htiles h.stop_eq.symm

/-- What is appended comes behind the input so far. -/
theorem append (h : b.Holds input) (bytes : Array UInt8) :
    (b.append bytes).Holds (input ++ bytes.toList) := by
  rw [Buffer.append]
  split
  · next hempty =>
    rw [Array.isEmpty_iff] at hempty
    rw [hempty, List.append_nil]
    exact h
  · next hne =>
    rw [Array.isEmpty_iff] at hne
    refine ⟨?_, ?_⟩
    · rw [Array.toList_push, h.stop_eq]
      exact h.tiles.append hne
    · simp [h.stop_eq]

/-- Where chunks are held, the search for an offset that is not released finds a chunk that starts
at or before it, and stops behind it or is the last one. -/
theorem exists_chunk (h : b.Holds input) (hne : b.chunks ≠ #[]) (offset : Nat)
    (hstart : b.start ≤ offset) :
    ∃ c cs, b.chunks[b.locate offset]? = some c ∧ b.chunks.toList.drop (b.locate offset) = c :: cs ∧
      Tiles input c.start (c :: cs) ∧ c.start ≤ offset ∧ (offset < c.stop ∨ c.stop = b.stop) := by
  have hlast := locate_spec h.tiles hne hstart
  have hindex : b.locate offset < b.chunks.size :=
    Nat.lt_of_le_pred (Array.size_pos_iff.mpr hne) hlast.le_high
  have hc := Array.getElem?_eq_getElem hindex
  have hdrop := List.drop_eq_getElem_cons (Array.length_toList ▸ hindex)
  rw [Array.getElem_toList] at hdrop
  refine ⟨_, _, hc, hdrop, ?_, hlast.start_le _ hc, ?_⟩
  · exact h.tiles.drop_of_getElem? (Array.getElem?_toList.trans hc)
  · rw [h.stop_eq]
    exact hlast.lt_stop h.tiles hc

/-- A byte that is asked for is that of the input, if it is held. -/
theorem get?_eq (h : b.Holds input) (offset : Int) :
    b.get? offset = if b.start ≤ offset ∧ offset < b.stop then input[offset.toNat]? else none := by
  rw [Buffer.get?]
  by_cases hrange : b.start ≤ offset ∧ offset < b.stop
  · have hne : b.chunks ≠ #[] := by
      intro hnone
      have hstop := h.start_eq_stop hnone
      omega
    -- The chunk that is found covers the offset, which lies before the end.
    obtain ⟨c, cs, hc, -, htiles, hle, hlt⟩ := h.exists_chunk hne offset.toNat (by omega)
    rw [if_neg (by omega), if_pos hrange, hc]
    exact htiles.getElem?_bytes hle (by omega)
  · rw [if_pos (by omega), if_neg hrange]

/-- A range that is asked for is that of the input, if it is held; otherwise it is refused. -/
theorem copy_eq (h : b.Holds input) (low high : Int) :
    b.copy low high =
      if low < b.start ∨ b.stop < high ∨ high < low then .error (.outside low high b.start b.stop)
      else .ok ((input.take high.toNat).drop low.toNat) := by
  rw [Buffer.copy]
  split
  · rfl
  · by_cases hnone : b.chunks = #[]
    · -- The range is empty, as everything has been released.
      have hstop := h.start_eq_stop hnone
      rw [gather, dif_neg (by simp [hnone]), List.drop_eq_nil_of_le]
      rw [List.length_take]
      omega
    · obtain ⟨c, cs, hc, hdrop, htiles, hle, hlt⟩ := h.exists_chunk hnone low.toNat (by omega)
      rw [gather_eq (hdrop ▸ htiles) fun d hd => ?_, Nat.max_eq_left hle]
      obtain rfl : c = d := Option.some.inj (hc.symm.trans hd)
      omega

end Holds

/-- Dropping the first `n` chunks of `b` gives `b'`. These are the chunks that stop at or before the
offset, and the only ones. -/
structure Drops (b b' : Buffer) (offset : Int) (n : Nat) : Prop where
  chunks_eq : b'.chunks.toList = b.chunks.toList.drop n
  stop_eq : b'.stop = b.stop
  stop_le : ∀ c ∈ b.chunks.toList.take n, c.stop ≤ offset
  lt_stop : ∀ c, b.chunks.toList[n]? = some c → offset < c.stop

theorem release_eq (b : Buffer) (offset : Int) :
    ∃ n, (∀ c ∈ b.chunks.toList.take n, c.stop ≤ offset) ∧
      (∀ c, b.chunks.toList[n]? = some c → offset < c.stop) ∧
      b.release offset =
        let start := (b.chunks.toList[n]?.map Chunk.start).getD b.stop
        if n = 0 then (0, b)
        else (start - b.start, { b with chunks := (b.chunks.toList.drop n).toArray, start }) := by
  obtain ⟨⟨cs⟩, start, stop⟩ := b
  -- The chunks that are dropped are those before the first one that reaches beyond the offset.
  refine ⟨cs.findIdx fun c => !decide ((c.stop : Int) ≤ offset), ?_, ?_, ?_⟩
  · intro c hc
    obtain ⟨i, hi, rfl⟩ := List.mem_take_iff_getElem.mp hc
    simpa using List.not_of_lt_findIdx (Nat.lt_of_lt_of_le hi (Nat.min_le_left _ _))
  · intro c hc
    simpa using List.findIdx_of_getElem?_eq_some hc
  · unfold Buffer.release
    simp [List.takeWhile_eq_take_findIdx_not, List.findIdx_le_length, List.take_of_length_le]

/-- A chunk that a release drops stops at or before its offset. -/
theorem stop_le_of_dropped {offset : Int} {c : Chunk} (hc : c ∈ b.chunks)
    (hdropped : c ∉ (b.release offset).2.chunks) : c.stop ≤ offset := by
  obtain ⟨n, hstop, -, heq⟩ := release_eq b offset
  apply hstop
  have hall := Array.mem_toList_iff.mpr hc
  rw [← List.take_append_drop n b.chunks.toList] at hall
  refine (List.mem_append.mp hall).resolve_right fun hrest => hdropped ?_
  rw [heq]
  dsimp only
  split
  · exact hc
  · exact List.mem_toArray.mpr hrest

namespace Holds

/-- A release drops chunks that stop at or before the offset, and answers with the distance by which
the start moves. The input is the same. -/
theorem release (h : b.Holds input) (offset : Int) :
    ∃ n, b.Drops (b.release offset).2 offset n ∧ (b.release offset).2.Holds input ∧
      b.start + (b.release offset).1 = (b.release offset).2.start := by
  obtain ⟨n, hstop, hlt, heq⟩ := release_eq b offset
  have htiles := h.tiles.drop n
  rw [List.getElem?_drop, Nat.add_zero, ← h.stop_eq] at htiles
  obtain ⟨hle, -⟩ := h.tiles.start_drop htiles
  rw [heq]
  refine ⟨n, ?_⟩
  by_cases hn : n = 0
  · -- Nothing is dropped, and the buffer is left alone.
    subst hn
    exact ⟨⟨rfl, rfl, hstop, hlt⟩, h, rfl⟩
  · rw [if_neg hn]
    exact ⟨⟨rfl, rfl, hstop, hlt⟩, ⟨htiles, h.stop_eq⟩, Nat.add_sub_cancel' hle⟩

end Holds

/-- A release drops bytes before its offset and keeps all other ones. -/
theorem Holds.get?_release (h : b.Holds input) {offset i : Int}
    (hi : (b.release offset).2.start ≤ i) : (b.release offset).2.get? i = b.get? i := by
  obtain ⟨n, hdrops, holds, hstart⟩ := h.release offset
  rw [holds.get?_eq, h.get?_eq, hdrops.stop_eq]
  refine if_congr ?_ rfl rfl
  omega

/-- A release moves the start beyond a position only by dropping a chunk that reaches beyond it. -/
theorem Holds.lt_start_release_iff (h : b.Holds input) {offset : Int} {position : Nat} :
    position < (b.release offset).2.start ↔
      position < b.start ∨
        ∃ c ∈ b.chunks, c ∉ (b.release offset).2.chunks ∧ position < c.stop := by
  obtain ⟨n, hdrops, holds, -⟩ := h.release offset
  obtain ⟨hle, hall, hlast⟩ := h.tiles.start_drop (hdrops.chunks_eq ▸ holds.tiles)
  have hkept (c : Chunk) : c ∈ (b.release offset).2.chunks ↔ c ∈ b.chunks.toList.drop n := by
    rw [← Array.mem_toList_iff, hdrops.chunks_eq]
  constructor
  · intro hlt
    rcases hlast with hsame | ⟨c, hc, hstop⟩
    · exact Or.inl (hsame ▸ hlt)
    · -- The last chunk that is dropped stops where the new start is, before all that are kept.
      refine Or.inr ⟨c, Array.mem_toList_iff.mp (List.mem_of_mem_take hc), ?_, hstop ▸ hlt⟩
      intro hc'
      have hstart := holds.tiles.le_start_of_mem c (Array.mem_toList_iff.mpr hc')
      omega
  · rintro (hlt | ⟨c, hc, hdropped, hlt⟩)
    · omega
    · rw [hkept] at hdropped
      have hsplit := Array.mem_toList_iff.mpr hc
      rw [← List.take_append_drop n b.chunks.toList] at hsplit
      exact Nat.lt_of_lt_of_le hlt (hall c ((List.mem_append.mp hsplit).resolve_right hdropped))

/-- Every chunk that a release keeps reaches beyond its offset, as the first of them does. -/
theorem Drops.lt_stop_of_mem {b' : Buffer} {offset : Int} {n : Nat} (hdrops : b.Drops b' offset n)
    (h : b.Holds input) : ∀ c ∈ b'.chunks.toList, offset < c.stop := by
  intro c hc
  rw [hdrops.chunks_eq] at hc
  cases hrest : b.chunks.toList.drop n with
  | nil =>
    rw [hrest] at hc
    cases hc
  | cons d ds =>
    -- The first chunk that is kept reaches beyond the offset, and the others lie behind it.
    have hd : b.chunks.toList[n]? = some d := by
      rw [← Nat.add_zero n, ← List.getElem?_drop, hrest, List.getElem?_cons_zero]
    have hlt := hdrops.lt_stop d hd
    have htiles := h.tiles.drop_of_getElem? hd
    rw [hrest] at hc
    rcases List.mem_cons.mp hc with rfl | hc
    · exact hlt
    · have htail := htiles.2.2.2
      rw [← List.drop_drop, hrest, List.drop_one, List.tail_cons] at htail
      obtain ⟨hle, hlt'⟩ := htail.le_start_of_mem c hc
      omega

end Buffer

end StreamGrammar.Input
