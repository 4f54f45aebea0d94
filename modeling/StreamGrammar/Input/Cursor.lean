import StreamGrammar.Input.Buffer

/-!
# A read position over a growing input

A `Cursor` is a position in the held bytes, together with the word whether more input may follow.
Positions are offsets from the first byte of the input, so they keep their meaning when bytes before
them are released, and a position is all that is needed to come back later (`Cursor.restore`).

Counts and positions come from callers and may be any integers. A call that cannot be served fails
with an `Input.Error` and has no effect.
-/

namespace StreamGrammar.Input

/-- A read position over an input that may still be growing. -/
structure Cursor where
  /-- The held bytes. -/
  buffer : Buffer := {}
  /-- The offset of the next byte to read. -/
  position : Nat := 0
  /-- Whether no more input follows. -/
  ended : Bool := false
  deriving DecidableEq

namespace Cursor

/-- The number of bytes that have arrived after the position. -/
def available (c : Cursor) : Nat := c.buffer.stop - c.position

/-- The number of bytes held, before and after the position. -/
def buffered (c : Cursor) : Nat := c.buffer.stop - c.buffer.start

/-- Adds a chunk of input, unless the input has ended. -/
def append (c : Cursor) (bytes : Array UInt8) : Except Error Cursor :=
  if c.ended then .error .ended else .ok { c with buffer := c.buffer.append bytes }

/-- Declares that no more input follows. -/
def finish (c : Cursor) : Cursor := { c with ended := true }

/-- A cursor at the start of an input that is already complete. -/
def ofBytes (bytes : Array UInt8) : Cursor := { buffer := Buffer.append {} bytes, ended := true }

/-- The byte `ahead` of the position, if it is held. -/
def peek (c : Cursor) (ahead : Int) : Option UInt8 := c.buffer.get? (c.position + ahead)

/-- Moves past `count` bytes. -/
def advance (c : Cursor) (count : Int) : Except Error Cursor :=
  if count < 0 ∨ c.available < count then .error (.beyond count c.available)
  else .ok { c with position := c.position + count.toNat }

/-- A copy of the bytes in `[low, high)`. -/
def slice (c : Cursor) (low high : Int) : Except Error (List UInt8) := c.buffer.copy low high

/-- Copies the next `count` bytes and moves past them. With fewer bytes there, nothing is read and
the cursor stays. -/
def read (c : Cursor) (count : Int) : Except Error (Option (List UInt8) × Cursor) :=
  if c.available < count then .ok (none, c)
  else do
    let bytes ← c.slice c.position (c.position + count)
    return (some bytes, { c with position := c.position + count.toNat })

/-- Puts the cursor back to a position that is still held. -/
def restore (c : Cursor) (position : Int) : Except Error Cursor :=
  if position < c.buffer.start ∨ c.buffer.stop < position then .error (.released position)
  else .ok { c with position := position.toNat }

/-- Drops the chunks that lie before the position, and says how many bytes these were. -/
def release (c : Cursor) : Nat × Cursor :=
  let (dropped, buffer) := c.buffer.release c.position
  (dropped, { c with buffer })

end Cursor

end StreamGrammar.Input
