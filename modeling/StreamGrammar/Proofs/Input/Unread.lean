import StreamGrammar.Proofs.Input.Cursor

/-!
# Cursors before the same bytes

Two inputs may go on alike although different things came before, and were cut into different
chunks. Cursors that stand where they go on alike are `Abreast`. What they show ahead is the same
(`Abreast.peek_eq`), and they stay abreast when both move by the same number of bytes
(`Abreast.move`). What both have moved over is the same then (`Abreast.slice_eq`).
-/

namespace StreamGrammar.Input.Cursor

/-- What has been moved over is held. -/
theorem Shows.slice_onward {c d : Cursor} {input : List UInt8} (hc : c.Shows input)
    (hd : c.Onward d) :
    d.slice c.position d.position =
      .ok ((input.drop c.position).take (d.position - c.position)) := by
  have hstart := hc.start_le
  have hle := hd.position_le
  have hstop := hd.inRange.le_stop
  have heq := hd.buffer_eq
  unfold slice
  rw [heq] at hstop ⊢
  rw [hc.holds.copy_eq, if_neg (by omega), Int.toNat_natCast, Int.toNat_natCast, List.drop_take]

/-- What has been moved over are the bytes that are not left. -/
theorem Shows.slice_unread {c d : Cursor} {input : List UInt8} (hc : c.Shows input)
    (hd : c.Onward d) :
    let unread := input.drop c.position
    let rest := input.drop d.position
    d.slice c.position d.position = .ok (unread.take (unread.length - rest.length)) := by
  intro unread rest
  have hstop := hd.inRange.le_stop
  rw [hd.buffer_eq, hc.holds.stop_eq] at hstop
  have hcount : unread.length - rest.length = d.position - c.position := by
    rw [List.length_drop, List.length_drop]
    omega
  rw [hc.slice_onward hd, hcount]

/-- What is left tells how far the cursor has moved. -/
theorem Shows.onward_eq {c d : Cursor} {input word : List UInt8} (hc : c.Shows input)
    (hd : c.Onward d) (hword : input.drop c.position = word ++ input.drop d.position) :
    d = { c with position := c.position + word.length } := by
  have hposition : d.position = c.position + word.length := by
    have hlength := congrArg List.length hword
    have hle := hd.position_le
    have hstop := hd.inRange.le_stop
    rw [hd.buffer_eq, hc.holds.stop_eq] at hstop
    rw [List.length_append, List.length_drop, List.length_drop] at hlength
    omega
  obtain ⟨⟨hbuffer, hended, -⟩, -⟩ := hd
  obtain ⟨buffer, position, ended⟩ := d
  dsimp only at hbuffer hended hposition
  rw [hbuffer, hended, hposition]

/-- Both cursors have the same bytes before them, which are all in either case or in neither. The
offset of the second one is `n` more than that of the first one. -/
structure Abreast (n : Int) (input input' : List UInt8) (c d : Cursor) : Prop where
  left : c.Shows input
  right : d.Shows input'
  unread_eq : input'.drop d.position = input.drop c.position
  ended_eq : d.ended = c.ended
  position_eq : (d.position : Int) = c.position + n

namespace Abreast

variable {n : Int} {input input' : List UInt8} {c d c' d' : Cursor}

theorem peek_eq (h : Abreast n input input' c d) (ahead : Nat) : d.peek ahead = c.peek ahead := by
  rw [h.left.peek_eq, h.right.peek_eq, ← List.getElem?_drop, ← List.getElem?_drop, h.unread_eq]

variable (h : Abreast n input input' c d) (hc : c.Onward c') (hd : d.Onward d')
  (hposition : (d'.position : Int) = c'.position + n)
include h hc hd hposition

/-- Both have moved by the same number of bytes. -/
theorem consumed_eq : d'.position - d.position = c'.position - c.position := by
  have hn := h.position_eq
  have hle := hc.position_le
  have hle' := hd.position_le
  omega

theorem move : Abreast n input input' c' d' where
  left := h.left.of_within hc.toWithin
  right := h.right.of_within hd.toWithin
  unread_eq := by
    have hsteps := h.consumed_eq hc hd hposition
    have hrest : input.drop c'.position =
        (input.drop c.position).drop (c'.position - c.position) := by
      rw [List.drop_drop, Nat.add_sub_cancel' hc.position_le]
    have hrest' : input'.drop d'.position =
        (input'.drop d.position).drop (d'.position - d.position) := by
      rw [List.drop_drop, Nat.add_sub_cancel' hd.position_le]
    rw [hrest, hrest', h.unread_eq, hsteps]
  ended_eq := by rw [hc.ended_eq, hd.ended_eq, h.ended_eq]
  position_eq := hposition

/-- What has been moved over is held in both cursors, and it is the same. -/
theorem slice_eq :
    ∃ bytes, c'.slice c.position c'.position = .ok bytes ∧
      d'.slice d.position d'.position = .ok bytes := by
  have hsteps := h.consumed_eq hc hd hposition
  refine ⟨_, h.left.slice_onward hc, ?_⟩
  rw [h.right.slice_onward hd, h.unread_eq, hsteps]

end Abreast

end StreamGrammar.Input.Cursor
