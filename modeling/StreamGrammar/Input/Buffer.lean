import StreamGrammar.Input.Error

/-!
# The held part of an input

Input arrives in chunks of any size and is addressed by offsets from its very first byte. A `Buffer`
holds the chunks that may still be needed. Chunks are added at the back and dropped, whole, at the
front, so the held bytes are always those of one range `[start, stop)`. The chunk of an offset is
found by bisection over the chunks' first offsets (`Buffer.locate`).
-/

namespace StreamGrammar.Input

/-- A stretch of input that arrived in one piece. -/
structure Chunk where
  /-- The offset of the first byte. -/
  start : Nat
  /-- The bytes, in order. -/
  bytes : Array UInt8
  deriving DecidableEq

namespace Chunk

/-- The offset one past the last byte. -/
def stop (c : Chunk) : Nat := c.start + c.bytes.size

/-- The bytes of a chunk that lie in `[low, high)`. -/
def part (c : Chunk) (low high : Nat) : List UInt8 :=
  (c.bytes.extract (max low c.start - c.start) (min high c.stop - c.start)).toList

end Chunk

/-- The chunks of an input that are still held. -/
structure Buffer where
  /-- The held chunks, in order. -/
  chunks : Array Chunk := #[]
  /-- The offset of the first held byte. -/
  start : Nat := 0
  /-- The offset one past the last byte that has arrived. -/
  stop : Nat := 0
  deriving DecidableEq

namespace Buffer

/-- Adds a chunk at the back. An empty chunk leaves no trace. -/
def append (b : Buffer) (bytes : Array UInt8) : Buffer :=
  if bytes.isEmpty then b
  else { b with chunks := b.chunks.push ⟨b.stop, bytes⟩, stop := b.stop + bytes.size }

/-- The greatest index in `[low, high]` whose chunk starts at or before `offset`, or `low` if there
is none. The middle is rounded up, so a half of two indices has one. -/
def bisect (chunks : Array Chunk) (offset low high : Nat) : Nat :=
  if low < high then
    let middle := (low + high + 1) / 2
    match chunks[middle]? with
    | some c =>
      if c.start ≤ offset then bisect chunks offset middle high
      else bisect chunks offset low (middle - 1)
    | none => bisect chunks offset low (middle - 1)
  else low
termination_by high - low
decreasing_by all_goals omega

/-- The index of the chunk that holds `offset`, and zero if no chunk is held. -/
def locate (b : Buffer) (offset : Nat) : Nat := bisect b.chunks offset 0 (b.chunks.size - 1)

/-- The byte at an offset, if it is held. -/
def get? (b : Buffer) (offset : Int) : Option UInt8 :=
  if offset < b.start ∨ b.stop ≤ offset then none
  else do
    let chunk ← b.chunks[b.locate offset.toNat]?
    chunk.bytes[offset.toNat - chunk.start]?

/-- The bytes in `[low, high)` of the chunks from `index` on. -/
def gather (chunks : Array Chunk) (low high index : Nat) : List UInt8 :=
  if h : index < chunks.size then
    let chunk := chunks[index]
    if chunk.start < high then chunk.part low high ++ gather chunks low high (index + 1) else []
  else []
termination_by chunks.size - index

/-- A copy of the bytes in `[low, high)`, which must lie within the held range. -/
def copy (b : Buffer) (low high : Int) : Except Error (List UInt8) :=
  if low < b.start ∨ b.stop < high ∨ high < low then .error (.outside low high b.start b.stop)
  else .ok (gather b.chunks low.toNat high.toNat (b.locate low.toNat))

/-- Drops the chunks that end at or before `offset`, and says how many bytes these were. -/
def release (b : Buffer) (offset : Int) : Nat × Buffer :=
  let count := (b.chunks.takeWhile fun c => (c.stop : Int) ≤ offset).size
  if count = 0 then (0, b)
  else
    let chunks := b.chunks.extract count
    let start := (chunks[0]?.map Chunk.start).getD b.stop
    (start - b.start, { b with chunks, start })

end Buffer

end StreamGrammar.Input
