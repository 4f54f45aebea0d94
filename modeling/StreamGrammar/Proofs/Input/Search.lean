import StreamGrammar.Proofs.Input.History
import Mathlib.Algebra.Group.Nat.Defs
import Mathlib.Data.Nat.Log

/-!
# Every chunk that is looked up is there

A buffer looks its chunks up by an index, and has an answer also for an index out of range. In a
well-formed buffer these answers are never given. To say so, the bisection, the reading of a byte
and the copying loop are written once more in steps that give up where a chunk is missing, and the
bisection also where it needs more rounds than it should (`Buffer.Strict`). None of them gives up,
and all of them answer as the buffer does (`Strict.bisect_eq`, `Strict.get?_eq`, `Strict.copy_eq`).

The search itself finds the last chunk that starts at or before an offset (`WellFormed.searches`).
-/

namespace StreamGrammar.Input

/-- Chunks that lie one behind the other hold the bytes of some input from their start on. -/
theorem exists_tiles {cs : List Chunk} (hne : ∀ c ∈ cs, c.bytes ≠ #[])
    (hchain : cs.IsChain fun c d => c.stop = d.start) (front : List UInt8)
    (hstart : ∀ c, cs.head? = some c → c.start = front.length) :
    Tiles (front ++ cs.flatMap fun c => c.bytes.toList) front.length cs := by
  induction cs generalizing front with
  | nil => simp [Tiles]
  | cons c cs ih =>
    obtain ⟨hnext, hchain⟩ := List.isChain_cons.mp hchain
    have hc : c.start = front.length := hstart c rfl
    have hstop : c.stop = (front ++ c.bytes.toList).length := by
      rw [List.length_append, ← hc, Array.length_toList, Chunk.stop]
    -- For the chunks behind it, the bytes of the first chunk are a part of what lies in front.
    have htail := ih (fun d hd => hne d (List.mem_cons_of_mem _ hd)) hchain
      (front ++ c.bytes.toList) fun d hd => by rw [← hstop, hnext d hd]
    rw [← hstop, List.append_assoc] at htail
    rw [List.flatMap_cons]
    refine ⟨hc, hne c List.mem_cons_self, ?_, htail⟩
    rw [List.drop_left]
    exact List.prefix_append _ _

namespace Buffer

variable {b : Buffer} {input : List UInt8} {chunks : Array Chunk} {offset start low high : Nat}

/-- A well-formed buffer holds some input, of which the part that has been released can be any. -/
theorem WellFormed.exists_holds (h : b.WellFormed) : ∃ input, b.Holds input := by
  have hfront : (List.replicate b.start (0 : UInt8)).length = b.start := List.length_replicate
  have htiles := exists_tiles (fun c hc => h.nonempty c (Array.mem_toList_iff.mp hc)) h.contiguous
    (List.replicate b.start 0) fun c hc => by rw [hfront, h.start_eq c hc]
  rw [hfront] at htiles
  refine ⟨_, htiles, ?_⟩
  cases hlast : b.chunks.toList.getLast? with
  | none =>
    have hnone : b.chunks.toList = [] := List.getLast?_eq_none_iff.mp hlast
    rw [hnone, List.flatMap_nil, List.append_nil, hfront]
    exact (h.start_eq_stop (Array.toList_eq_nil_iff.mp hnone)).symm
  | some c =>
    rw [← htiles.stop_getLast? hlast]
    exact (h.stop_eq c hlast).symm

/-! ## Looking up without a way out -/

namespace Strict

/-- The bisection in at most so many rounds. It gives up where one more is needed, and where there
is no chunk in the middle. -/
def bisect (chunks : Array Chunk) (offset : Nat) : Nat → Nat → Nat → Option Nat
  | 0, low, high => if low < high then none else some low
  | rounds + 1, low, high =>
    if low < high then do
      let middle := (low + high + 1) / 2
      let c ← chunks[middle]?
      if c.start ≤ offset then bisect chunks offset rounds middle high
      else bisect chunks offset rounds low (middle - 1)
    else some low

/-- The index of the chunk that holds `offset`. The number of rounds is the logarithm of the number
of chunks, rounded up, so there is none where no chunk is held. -/
def locate (b : Buffer) (offset : Nat) : Option Nat :=
  bisect b.chunks offset (Nat.clog 2 b.chunks.size) 0 (b.chunks.size - 1)

/-- The byte at an offset, if it is held. It gives up where the chunk that is found is missing. -/
def get? (b : Buffer) (offset : Int) : Option (Option UInt8) :=
  if offset < b.start ∨ b.stop ≤ offset then some none
  else do
    let index ← locate b offset.toNat
    let chunk ← b.chunks[index]?
    some chunk.bytes[offset.toNat - chunk.start]?

/-- The next `count` bytes of the range `[low, high)`, from the chunks from `index` on. It gives up
where the chunks end before these bytes are there. -/
def gather (chunks : Array Chunk) (low high count index : Nat) : Option (List UInt8) :=
  if count = 0 then some []
  else if h : index < chunks.size then
    let part := chunks[index].part low high
    (part ++ ·) <$> gather chunks low high (count - part.length) (index + 1)
  else none
termination_by chunks.size - index

/-- A copy of the bytes in `[low, high)`, or the refusal of it. -/
def copy (b : Buffer) (low high : Int) : Option (Except Error (List UInt8)) :=
  if low < b.start ∨ b.stop < high ∨ high < low then
    some (.error (.outside low high b.start b.stop))
  else do
    let index ← locate b low.toNat
    .ok <$> gather b.chunks low.toNat high.toNat (high - low).toNat index

/-- A round leaves at most half of the indices, so the rounds are enough, and the middle is never
behind the last index. Nothing is said of the chunks but that there are as many. -/
theorem bisect_eq {rounds : Nat} (hhigh : low < high → high < chunks.size)
    (hrounds : high - low < 2 ^ rounds) :
    bisect chunks offset rounds low high = some (Buffer.bisect chunks offset low high) := by
  induction rounds generalizing low high with
  | zero =>
    have hdone : ¬ low < high := by omega
    rw [bisect, Buffer.bisect, if_neg hdone, if_neg hdone]
  | succ rounds ih =>
    rw [bisect, Buffer.bisect]
    split
    · next hlt =>
      have hsize := hhigh hlt
      have hmiddle : (low + high + 1) / 2 < chunks.size := by omega
      rw [Nat.pow_succ] at hrounds
      dsimp only
      rw [Array.getElem?_eq_getElem hmiddle, Option.bind_eq_bind, Option.bind_some]
      dsimp only
      split
      · exact ih (fun _ => hsize) (by omega)
      · exact ih (by omega) (by omega)
    · rfl

theorem locate_eq (b : Buffer) (offset : Nat) : locate b offset = some (b.locate offset) := by
  have hrounds : b.chunks.size ≤ 2 ^ Nat.clog 2 b.chunks.size :=
    Nat.le_pow_clog Nat.one_lt_two _
  have hpos : 0 < 2 ^ Nat.clog 2 b.chunks.size := Nat.two_pow_pos _
  exact bisect_eq (by omega) (by omega)

theorem get?_eq (h : b.Holds input) (offset : Int) : get? b offset = some (b.get? offset) := by
  unfold get? Buffer.get?
  split
  · rfl
  · next hin =>
    have hne : b.chunks ≠ #[] := by
      intro hnone
      have hstop := h.start_eq_stop hnone
      omega
    obtain ⟨c, -, hc, -⟩ := h.exists_chunk hne offset.toNat (by omega)
    rw [locate_eq, Option.bind_eq_bind, Option.bind_some, hc]
    rfl

/-- The chunks do not end before the bytes up to `high` are there. What carries over from chunk to
chunk is that the bytes still to come are those behind the chunk's start. -/
theorem gather_eq {count index : Nat} (h : Tiles input start (chunks.toList.drop index))
    (hlow : ∀ c, chunks[index]? = some c → low ≤ c.stop) (hhigh : high ≤ input.length)
    (hcount : count = high - max low start) :
    gather chunks low high count index = some (Buffer.gather chunks low high index) := by
  fun_induction gather chunks low high count index generalizing start with
  | case1 index =>
    -- The range ends before the chunk starts.
    rw [Buffer.gather_eq h hlow, List.drop_eq_nil_of_le]
    rw [List.length_take]
    omega
  | case2 count index hmore hlt part =>
    rename_i ih
    rw [List.drop_eq_getElem_cons (by simpa using hlt), Array.getElem_toList] at h
    have hle : low ≤ chunks[index].stop := hlow _ (Array.getElem?_eq_getElem hlt)
    have htail : Tiles input chunks[index].stop (chunks.toList.drop (index + 1)) := h.2.2.2
    have hlength : part.length = min high chunks[index].stop - max low start := by
      have hstop := h.stop_le
      have hpart : part = _ := h.part_eq low high
      rw [hpart, List.length_drop, List.length_take, List.length_take]
      omega
    have hstart := h.1
    have hstop := h.start_lt_stop
    rw [Buffer.gather, dif_pos hlt, if_pos (by omega),
      ih htail (htail.le_stop_of_drop hle) (by omega)]
    rfl
  | case3 count index hmore hlt =>
    -- The input ends here, and so does the range.
    rw [List.drop_eq_nil_of_le (by simpa using hlt)] at h
    obtain rfl : start = input.length := h
    omega

theorem copy_eq (h : b.Holds input) (low high : Int) :
    copy b low high = some (b.copy low high) := by
  unfold copy Buffer.copy
  split
  · rfl
  · next hin =>
    have hstop := h.stop_eq
    by_cases hnone : b.chunks = #[]
    · -- The range is empty, as everything has been released.
      have hstart := h.start_eq_stop hnone
      have hcount : (high - low).toNat = 0 := by omega
      have hsize : ¬ b.locate low.toNat < b.chunks.size := by simp [hnone]
      rw [locate_eq, Option.bind_eq_bind, Option.bind_some, gather, if_pos hcount, Buffer.gather,
        dif_neg hsize]
      rfl
    · obtain ⟨c, cs, hc, hdrop, htiles, hle, hlt⟩ := h.exists_chunk hnone low.toNat (by omega)
      have hstop' : ∀ d, b.chunks[b.locate low.toNat]? = some d → low.toNat ≤ d.stop := by
        intro d hd
        obtain rfl : c = d := Option.some.inj (hc.symm.trans hd)
        omega
      have hgather : gather b.chunks low.toNat high.toNat (high - low).toNat _ = _ :=
        gather_eq (hdrop ▸ htiles) hstop' (by omega) (by omega)
      rw [locate_eq, Option.bind_eq_bind, Option.bind_some, hgather]
      rfl

end Strict

/-! ## The search -/

/-- What the search for the chunk of an offset answers, and that every chunk that is looked up on
the way, or with the answer, is there. -/
structure Searches (b : Buffer) : Prop where
  /-- The chunk that is found is the last one that starts at or before the offset, which may lie
  behind the end. -/
  isGreatest : b.chunks ≠ #[] → ∀ offset, b.start ≤ offset →
    IsGreatest {i | ∃ c, b.chunks[i]? = some c ∧ c.start ≤ offset} (b.locate offset)
  /-- It covers the offset, if the offset is held. -/
  covers : ∀ offset, b.start ≤ offset → offset < b.stop →
    ∃ c, b.chunks[b.locate offset]? = some c ∧ c.start ≤ offset ∧ offset < c.stop
  /-- Where no chunk is held, the answer is the first index. To look at any chunk would be to give
  up. -/
  empty : b.chunks = #[] → ∀ offset, b.locate offset = 0 ∧ Strict.locate b offset = some 0
  /-- The search ends, and finds a chunk in every middle. -/
  locate_eq : ∀ offset, Strict.locate b offset = some (b.locate offset)
  /-- A byte is read from a chunk that is there. -/
  get?_eq : ∀ offset, Strict.get? b offset = some (b.get? offset)
  /-- A range is copied from chunks that are there. -/
  copy_eq : ∀ low high, Strict.copy b low high = some (b.copy low high)

theorem IsLast.isGreatest {index : Nat} (h : IsLast chunks offset 0 (chunks.size - 1) index)
    (hne : chunks ≠ #[]) : IsGreatest {i | ∃ c, chunks[i]? = some c ∧ c.start ≤ offset} index := by
  have hindex : index < chunks.size := Nat.lt_of_le_pred (Array.size_pos_iff.mpr hne) h.le_high
  refine ⟨⟨_, Array.getElem?_eq_getElem hindex, ?_⟩, ?_⟩
  · exact h.start_le _ (Array.getElem?_eq_getElem hindex)
  · rintro i ⟨c, hc, hle⟩
    have hi : i < chunks.size := (Array.getElem?_eq_some_iff.mp hc).1
    by_contra hlt
    have hbehind := h.lt_start i (by omega) (by omega) c hc
    omega

/-- Where the chunks of a buffer are not empty and lie one behind the other, from its start to its
stop, the search for an offset that is not released finds the last chunk that starts at or before
it, in as many rounds as the logarithm of the number of chunks, and no chunk is ever missing. -/
theorem WellFormed.searches (h : b.WellFormed) : b.Searches := by
  obtain ⟨input, holds⟩ := h.exists_holds
  constructor
  case isGreatest =>
    intro hne offset hstart
    exact (locate_spec holds.tiles hne hstart).isGreatest hne
  case covers =>
    intro offset hstart hstop
    have hne : b.chunks ≠ #[] := by
      intro hnone
      have hsame := holds.start_eq_stop hnone
      omega
    obtain ⟨c, -, hc, -, -, hle, hlt⟩ := holds.exists_chunk hne offset hstart
    exact ⟨c, hc, hle, by omega⟩
  case empty =>
    intro hnone offset
    have hstrict : Strict.locate b offset = some 0 := by simp [Strict.locate, Strict.bisect, hnone]
    have hsame := Strict.locate_eq b offset
    rw [hstrict, Option.some.injEq] at hsame
    exact ⟨hsame.symm, hstrict⟩
  case locate_eq => exact Strict.locate_eq b
  case get?_eq => exact Strict.get?_eq holds
  case copy_eq => exact Strict.copy_eq holds

/-- Three chunks of two, one and three bytes are held, and the three bytes in front of them are
released. A boundary between two chunks belongs to the later one. -/
theorem WellFormed.searches_three :
    let b : Buffer := ⟨#[⟨3, #[97, 98]⟩, ⟨5, #[99]⟩, ⟨6, #[100, 101, 102]⟩], 3, 9⟩
    b.WellFormed ∧ b.Searches ∧
      b.locate 4 = 0 ∧ b.locate 5 = 1 ∧ b.locate 6 = 2 ∧ b.locate 100 = 2 := by
  intro b
  have hformed : b.WellFormed := by
    constructor
    case nonempty => simp [b]
    case contiguous => simp [b, Chunk.stop]
    case start_eq => simp [b]
    case stop_eq => simp [b, Chunk.stop]
    case start_eq_stop => simp [b]
  have hsearches : b.Searches := hformed.searches
  have found {offset index : Nat} (hstrict : Strict.locate b offset = some index) :
      b.locate offset = index :=
    Option.some.inj ((hsearches.locate_eq offset).symm.trans hstrict)
  refine ⟨hformed, hsearches, ?_, ?_, ?_, ?_⟩
  · exact found (by decide)
  · exact found (by decide)
  · exact found (by decide)
  · exact found (by decide)

end Buffer

end StreamGrammar.Input
