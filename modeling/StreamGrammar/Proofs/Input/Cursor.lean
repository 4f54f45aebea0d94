import StreamGrammar.Input.Cursor
import StreamGrammar.Proofs.Input.Buffer

/-!
# Cursors that look at the same input

Three relations between cursors carry what is proved about parsers. `Within` is between the cursor
before and after a run: the input is the same and only the position may differ, so the earlier
position can be restored. `Onward` says besides that the position has not moved back. `Grows` is
between the cursors of two runs side by side: they stand at the same offset, and the second one has
been shown more of the input.
-/

namespace StreamGrammar.Input.Cursor

/-- The cursors that calls lead to, with the input that has arrived by then. A call that is refused
has no effect. -/
inductive Reached : List UInt8 → Cursor → Prop
  | new : Reached [] {}
  | append {input : List UInt8} {c d : Cursor} {bytes : Array UInt8} :
      Reached input c → c.append bytes = .ok d → Reached (input ++ bytes.toList) d
  | finish {input : List UInt8} {c : Cursor} : Reached input c → Reached input c.finish
  | advance {input : List UInt8} {c d : Cursor} {count : Int} :
      Reached input c → c.advance count = .ok d → Reached input d
  | read {input : List UInt8} {c d : Cursor} {count : Int} {bytes : Option (List UInt8)} :
      Reached input c → c.read count = .ok (bytes, d) → Reached input d
  | restore {input : List UInt8} {c d : Cursor} {position : Int} :
      Reached input c → c.restore position = .ok d → Reached input d
  | release {input : List UInt8} {c : Cursor} : Reached input c → Reached input c.release.2

variable {c d e : Cursor}

/-- The position is that of a held byte, or the end. -/
structure InRange (c : Cursor) : Prop where
  start_le : c.buffer.start ≤ c.position
  le_stop : c.position ≤ c.buffer.stop

/-! ## Before and after -/

/-- From `c` to `d` nothing but the position has changed, and it is in range. -/
structure Within (c d : Cursor) : Prop where
  buffer_eq : d.buffer = c.buffer
  ended_eq : d.ended = c.ended
  inRange : d.InRange

namespace Within

theorem refl (h : c.InRange) : c.Within c := ⟨rfl, rfl, h⟩

theorem trans (hcd : c.Within d) (hde : d.Within e) : c.Within e where
  buffer_eq := hde.buffer_eq.trans hcd.buffer_eq
  ended_eq := hde.ended_eq.trans hcd.ended_eq
  inRange := hde.inRange

theorem symm (h : c.Within d) (hc : c.InRange) : d.Within c :=
  ⟨h.buffer_eq.symm, h.ended_eq.symm, hc⟩

/-- A position that was in range can be restored. -/
theorem restore_eq (h : c.Within d) (hc : c.InRange) : d.restore c.position = .ok c := by
  have hstart := hc.start_le
  have hstop := hc.le_stop
  obtain ⟨hbuffer, hended, -⟩ := h
  unfold restore
  rw [hbuffer, if_neg (by omega), Int.toNat_natCast]
  cases c
  cases d
  simp_all

end Within

/-- From `c` to `d` the position has not moved back, and nothing else has changed. -/
structure Onward (c d : Cursor) : Prop extends Within c d where
  position_le : c.position ≤ d.position

namespace Onward

theorem refl (h : c.InRange) : c.Onward c := ⟨.refl h, Nat.le_refl _⟩

theorem trans (hcd : c.Onward d) (hde : d.Onward e) : c.Onward e :=
  ⟨hcd.toWithin.trans hde.toWithin, Nat.le_trans hcd.position_le hde.position_le⟩

/-- Whoever moves on has less before them. -/
theorem available_le (h : c.Onward d) : d.available ≤ c.available := by
  have hle := h.position_le
  unfold available
  rw [h.buffer_eq]
  omega

theorem available_lt (h : c.Onward d) (hlt : c.position < d.position) :
    d.available < c.available := by
  have hstop := h.inRange.le_stop
  unfold available
  rw [h.buffer_eq] at hstop ⊢
  omega

end Onward

/-! ## Single calls -/

theorem lt_stop_of_peek (ahead : Nat) {value : UInt8} (h : c.peek ahead = some value) :
    c.position + ahead < c.buffer.stop := by
  unfold peek Buffer.get? at h
  split at h
  · cases h
  · omega

theorem advance_eq {count : Nat} (h : c.position + count ≤ c.buffer.stop) :
    c.advance count = .ok { c with position := c.position + count } := by
  unfold advance available
  rw [if_neg (by omega), Int.toNat_natCast]

/-- The cursor that has moved past bytes that have arrived. -/
theorem onward_add {count : Nat} (hc : c.InRange) (h : c.position + count ≤ c.buffer.stop) :
    c.Onward { c with position := c.position + count } :=
  ⟨⟨rfl, rfl, ⟨Nat.le_trans hc.start_le (Nat.le_add_right _ _), h⟩⟩, Nat.le_add_right _ _⟩

theorem slice_ok {low high : Nat} (hstart : c.buffer.start ≤ low) (hle : low ≤ high)
    (hstop : high ≤ c.buffer.stop) : ∃ bytes, c.slice low high = .ok bytes := by
  unfold slice Buffer.copy
  rw [if_neg (by omega)]
  exact ⟨_, rfl⟩

/-- Bytes that have arrived can be read. -/
theorem read_ok {count : Nat} (hc : c.InRange) (h : c.position + count ≤ c.buffer.stop) :
    ∃ bytes, c.slice c.position (c.position + count : Nat) = .ok bytes ∧
      c.read count = .ok (some bytes, { c with position := c.position + count }) := by
  obtain ⟨bytes, hbytes⟩ := slice_ok hc.start_le (Nat.le_add_right _ count) h
  refine ⟨bytes, hbytes, ?_⟩
  rw [Int.natCast_add] at hbytes
  unfold read available
  rw [if_neg (by omega), hbytes, Int.toNat_natCast]
  rfl

/-! ## The input behind a cursor -/

variable {input before more : List UInt8}

/-- The cursor stands somewhere in `input`, all of which has arrived. -/
structure Shows (c : Cursor) (input : List UInt8) : Prop extends InRange c where
  holds : c.buffer.Holds input

namespace Shows

theorem of_within (h : c.Shows input) (hcd : c.Within d) : d.Shows input :=
  ⟨hcd.inRange, hcd.buffer_eq ▸ h.holds⟩

theorem peek_eq (h : c.Shows input) (ahead : Nat) : c.peek ahead = input[c.position + ahead]? := by
  have hstart := h.start_le
  unfold peek
  rw [h.holds.get?_eq, ← Int.natCast_add, Int.toNat_natCast]
  split
  · rfl
  · rw [List.getElem?_eq_none]
    rw [← h.holds.stop_eq]
    omega

theorem append (h : c.Shows input) (bytes : Array UInt8) :
    Shows { c with buffer := c.buffer.append bytes } (input ++ bytes.toList) := by
  have holds := h.holds.append bytes
  refine ⟨⟨?_, ?_⟩, holds⟩
  · exact c.buffer.append_start bytes ▸ h.start_le
  · rw [holds.stop_eq, List.length_append, ← h.holds.stop_eq]
    exact Nat.le_add_right_of_le h.le_stop

/-- A release leaves the position in range, as it drops nothing behind it. -/
theorem release (h : c.Shows input) :
    c.release.2.Shows input ∧ c.release.2.position = c.position ∧ c.release.2.ended = c.ended := by
  obtain ⟨n, hdrops, holds, -⟩ := h.holds.release c.position
  refine ⟨⟨⟨?_, ?_⟩, holds⟩, rfl, rfl⟩
  · -- The new start is the old one, or the place where a chunk stops that lies before the position.
    have hstart := (h.holds.tiles.start_drop (hdrops.chunks_eq ▸ holds.tiles)).2.2
    rcases hstart with hstart | ⟨d, hd, hstart⟩
    · exact hstart ▸ h.start_le
    · have hle := hdrops.stop_le d hd
      rw [hstart] at hle
      exact Int.ofNat_le.mp hle
  · exact hdrops.stop_eq ▸ h.le_stop

end Shows

theorem append_eq_ok_iff {bytes : Array UInt8} :
    c.append bytes = .ok d ↔ c.ended = false ∧ d = { c with buffer := c.buffer.append bytes } := by
  unfold Cursor.append
  cases c.ended with
  | true => simp
  | false => simp [eq_comm]

theorem Within.of_advance {count : Int} (hc : c.InRange) (h : c.advance count = .ok d) :
    c.Within d := by
  unfold advance available at h
  split at h
  · cases h
  · obtain rfl := Except.ok.inj h
    have hstop := hc.le_stop
    exact (onward_add hc (by omega)).toWithin

theorem Within.of_read {count : Int} {bytes : Option (List UInt8)} (hc : c.InRange)
    (h : c.read count = .ok (bytes, d)) : c.Within d := by
  unfold read available at h
  split at h
  · obtain ⟨rfl, rfl⟩ := Prod.mk.inj (Except.ok.inj h)
    exact .refl hc
  · cases hcopied : c.slice c.position (c.position + count) with
    | error _ =>
      rw [hcopied] at h
      cases h
    | ok copied =>
      rw [hcopied] at h
      obtain ⟨-, rfl⟩ := Prod.mk.inj (Except.ok.inj h)
      have hstop := hc.le_stop
      exact (onward_add hc (by omega)).toWithin

theorem Within.of_restore {position : Int} (h : c.restore position = .ok d) : c.Within d := by
  unfold restore at h
  split at h
  · cases h
  · obtain rfl := Except.ok.inj h
    exact ⟨rfl, rfl, ⟨by dsimp; omega, by dsimp; omega⟩⟩

/-- By induction on the calls: whatever they are, the position stays in range. -/
theorem Reached.shows (h : Reached input c) : c.Shows input := by
  induction h with
  | new => exact ⟨⟨Nat.le_refl _, Nat.le_refl _⟩, .empty⟩
  | append _ hd ih =>
    obtain ⟨-, rfl⟩ := append_eq_ok_iff.mp hd
    exact ih.append _
  | finish _ ih => exact ⟨⟨ih.start_le, ih.le_stop⟩, ih.holds⟩
  | advance _ hd ih => exact ih.of_within (.of_advance ih.toInRange hd)
  | read _ hd ih => exact ih.of_within (.of_read ih.toInRange hd)
  | restore _ hd ih => exact ih.of_within (.of_restore hd)
  | release _ ih => exact ih.release.1

theorem Reached.of_within (h : Reached input c) (hcd : c.Within d) : Reached input d :=
  h.restore ((hcd.symm h.shows.toInRange).restore_eq hcd.inRange)

/-- An open cursor takes any number of chunks, and stands where it stood. -/
theorem Reached.foldlM_append (h : Reached input c) (hopen : c.ended = false)
    (chunks : List (Array UInt8)) :
    ∃ d, chunks.foldlM Cursor.append c = .ok d ∧
      Reached (input ++ chunks.flatMap Array.toList) d ∧ d.position = c.position ∧
      d.ended = false := by
  induction chunks generalizing c input with
  | nil =>
    rw [List.flatMap_nil, List.append_nil]
    exact ⟨c, rfl, h, rfl, hopen⟩
  | cons chunk chunks ih =>
    have happend : c.append chunk = .ok { c with buffer := c.buffer.append chunk } :=
      append_eq_ok_iff.mpr ⟨hopen, rfl⟩
    obtain ⟨d, hfold, hd, hposition, hended⟩ := ih (h.append happend) hopen
    refine ⟨d, ?_, ?_, hposition, hended⟩
    · rw [List.foldlM_cons, happend]
      exact hfold
    · rw [List.flatMap_cons, ← List.append_assoc]
      exact hd

theorem reached_ofBytes (bytes : Array UInt8) : Reached bytes.toList (ofBytes bytes) :=
  have happend : Reached ([] ++ bytes.toList) _ := .append .new rfl
  happend.finish

/-- A cursor somewhere in an input that is complete. -/
theorem reached_ofBytes_at {bytes : Array UInt8} {position : Nat} (hle : position ≤ bytes.size) :
    Reached bytes.toList { ofBytes bytes with position } := by
  have h := reached_ofBytes bytes
  have hstart : (ofBytes bytes).buffer.start = 0 := Buffer.append_start {} bytes
  refine h.of_within ⟨rfl, rfl, ?_, ?_⟩
  · exact hstart ▸ Nat.zero_le _
  · rw [h.shows.holds.stop_eq, Array.length_toList]
    exact hle

/-! ## Side by side -/

/-- Both cursors stand at the same offset. The first has been shown `before`, the second one also
`more`, and what the first was told to be all is all. They may hold different parts of the input. -/
structure Grows (before more : List UInt8) (c d : Cursor) : Prop where
  left : c.Shows before
  right : d.Shows (before ++ more)
  position_eq : d.position = c.position
  ended : c.ended = true → more = [] ∧ d.ended = true

namespace Grows

/-- Runs that lead to the same place stay side by side. -/
theorem move {c' d' : Cursor} (h : Grows before more c d) (hc : c.Within c') (hd : d.Within d')
    (hposition : d'.position = c'.position) : Grows before more c' d' where
  left := h.left.of_within hc
  right := h.right.of_within hd
  position_eq := hposition
  ended := by
    rw [hc.ended_eq, hd.ended_eq]
    exact h.ended

/-- A byte that has arrived does not change. -/
theorem peek_some (h : Grows before more c d) (ahead : Nat) {value : UInt8}
    (hvalue : c.peek ahead = some value) : d.peek ahead = some value := by
  rw [h.left.peek_eq] at hvalue
  rw [h.right.peek_eq, h.position_eq]
  rw [List.getElem?_append_left (List.getElem?_eq_some_iff.mp hvalue).1]
  exact hvalue

/-- A byte that is missing at the end of the input stays missing. -/
theorem peek_none (h : Grows before more c d) (hended : c.ended = true) (ahead : Nat)
    (hnone : c.peek ahead = none) : d.peek ahead = none := by
  rw [h.left.peek_eq] at hnone
  rw [h.right.peek_eq, h.position_eq, (h.ended hended).1, List.append_nil]
  exact hnone

/-- A range that has arrived does not change while it is held. -/
theorem slice_eq (h : Grows before more c d) {low high : Int} {bytes : List UInt8}
    (hbytes : c.slice low high = .ok bytes) (hlow : d.buffer.start ≤ low) :
    d.slice low high = .ok bytes := by
  have hstop := h.left.holds.stop_eq
  have hstop' := h.right.holds.stop_eq
  rw [List.length_append] at hstop'
  unfold slice at hbytes ⊢
  rw [h.left.holds.copy_eq] at hbytes
  split at hbytes
  · cases hbytes
  · rw [h.right.holds.copy_eq, if_neg (by omega), List.take_append_of_le_length (by omega)]
    exact hbytes

end Grows

end StreamGrammar.Input.Cursor
