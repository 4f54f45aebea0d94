import StreamGrammar.Parser.Basic
import StreamGrammar.Proofs.Input.Cursor

/-!
# An input after any calls

Whatever calls are made on an input, in any order and with any arguments, it answers the next one as
a position in the bytes that have arrived would (`answers_after`). What a call can do to the cursor
is said once (`Call.Effect`). What carries over from call to call is that the cursor shows these
bytes (`after_shows`), and from this alone every answer follows (`Answers.of_shows`). A call that is
refused, or that finds nothing, leaves the cursor as it was.
-/

namespace StreamGrammar

open Input (Cursor)

namespace Scan

variable {σ : Type}

/-- A call on an input. -/
inductive Call where
  | append (bytes : Array UInt8)
  | finish
  | advance (count : Int)
  | peek (ahead : Int)
  | read (count : Int)
  | slice (low high : Int)
  | mark
  | rewind (target : Int)
  | release

/-- What a call answers that is not refused. -/
inductive Answer where
  /-- The call only has an effect. -/
  | done
  /-- A byte, if it is there. -/
  | byte (value : Option UInt8)
  /-- Some bytes, if they are there. -/
  | bytes (value : Option (List UInt8))
  /-- An offset or a number of bytes. -/
  | number (n : Nat)

namespace Call

/-- What a call does. -/
def run : Call → Scan σ Answer
  | append bytes => (fun _ => .done) <$> Scan.append bytes
  | finish => (fun _ => .done) <$> Scan.finish
  | advance count => (fun _ => .done) <$> Scan.advance count
  | peek ahead => .byte <$> Scan.peek ahead
  | read count => .bytes <$> Scan.read count
  | slice low high => (fun bytes => .bytes (some bytes)) <$> Scan.slice low high
  | mark => .number <$> Scan.mark
  | rewind target => (fun _ => .done) <$> Scan.rewind target
  | release => .number <$> Scan.release

/-- The scanner behind a call, whether it is refused or not. -/
def after (s : Scanner σ) (call : Call) : Scanner σ :=
  match call.run s with
  | .ok _ t | .error _ t => t

/-- Whether a call ends the input. -/
def isFinish : Call → Bool
  | finish => true
  | _ => false

/-- Whether a call releases what lies before the position. -/
def isRelease : Call → Bool
  | release => true
  | _ => false

/-- The bytes that a call brings. -/
def bytes : Call → List UInt8
  | append bytes => bytes.toList
  | _ => []

/-- The bytes that have arrived with calls: those that were brought before the input was ended. -/
def arrived (calls : List Call) : List UInt8 := (calls.takeWhile (!·.isFinish)).flatMap bytes

/-- The scanner behind all calls, where the first one finds an input of which nothing has
arrived. -/
def afterAll (calls : List Call) (memory : σ) : Scanner σ :=
  calls.foldl after { cursor := {}, memory }

end Call

end Scan

/-- The calls on an input answer as a position in `input` would, which is all that has arrived. The
bytes before the start of the buffer have been released. -/
structure Scanner.Answers {σ : Type} (input : List UInt8) (ended : Bool) (s : Scanner σ) :
    Prop where
  /-- The position is that of a held byte, or the end. -/
  inRange : s.cursor.InRange
  stop_eq : s.cursor.buffer.stop = input.length
  ended_eq : s.cursor.ended = ended
  available_eq : (s.cursor.available : Int) = s.cursor.buffer.stop - s.cursor.position
  buffered_eq : (s.cursor.buffered : Int) = s.cursor.buffer.stop - s.cursor.buffer.start
  available_le : s.cursor.available ≤ s.cursor.buffered
  mark : Scan.mark s = .ok s.cursor.position (s.log (.marked s.cursor.position))
  finish : Scan.finish s = .ok () { s with cursor.ended := true }
  /-- A chunk is added unless the input has ended. -/
  append_ok : ended = false → ∀ bytes : Array UInt8, ∃ buffer : Input.Buffer,
    Scan.append bytes s = .ok () { s with cursor.buffer := buffer } ∧
      buffer.Holds (input ++ bytes.toList) ∧ buffer.start = s.cursor.buffer.start
  append_refused : ended = true → ∀ bytes : Array UInt8,
    Scan.append bytes s = .error (.fault .ended) s
  peek_held : ∀ ahead : Int, s.cursor.buffer.start ≤ s.cursor.position + ahead →
    s.cursor.position + ahead < s.cursor.buffer.stop →
    ∃ h : (s.cursor.position + ahead).toNat < input.length,
      Scan.peek ahead s = .ok (some input[(s.cursor.position + ahead).toNat]) s
  peek_outside : ∀ ahead : Int, s.cursor.position + ahead < s.cursor.buffer.start ∨
    s.cursor.buffer.stop ≤ s.cursor.position + ahead → Scan.peek ahead s = .ok none s
  advance_ok : ∀ count : Int, 0 ≤ count → count ≤ s.cursor.available →
    Scan.advance count s = .ok () { s with cursor.position := s.cursor.position + count.toNat }
  advance_refused : ∀ count : Int, count < 0 ∨ s.cursor.available < count →
    Scan.advance count s = .error (.fault (.beyond count s.cursor.available)) s
  slice_ok : ∀ low high : Int, s.cursor.buffer.start ≤ low → low ≤ high →
    high ≤ s.cursor.buffer.stop →
    Scan.slice low high s = .ok ((input.take high.toNat).drop low.toNat) s
  slice_refused : ∀ low high : Int,
    low < s.cursor.buffer.start ∨ s.cursor.buffer.stop < high ∨ high < low →
    Scan.slice low high s =
      .error (.fault (.outside low high s.cursor.buffer.start s.cursor.buffer.stop)) s
  /-- The next bytes are read to the last one, and moved past. -/
  read_ok : ∀ count : Int, 0 ≤ count → count ≤ s.cursor.available →
    Scan.read count s =
      .ok (some ((input.drop s.cursor.position).take count.toNat))
        { s with cursor.position := s.cursor.position + count.toNat }
  read_short : ∀ count : Int, s.cursor.available < count → Scan.read count s = .ok none s
  /-- A negative number of bytes is refused as a range that ends before it begins. -/
  read_refused : ∀ count : Int, count < 0 →
    Scan.read count s = .error (.fault (.outside s.cursor.position (s.cursor.position + count)
      s.cursor.buffer.start s.cursor.buffer.stop)) s
  rewind_ok : ∀ target : Int, s.cursor.buffer.start ≤ target → target ≤ s.cursor.buffer.stop →
    Scan.rewind target s =
      .ok () { s.log (.rewound target) with cursor.position := target.toNat }
  rewind_refused : ∀ target : Int,
    target < s.cursor.buffer.start ∨ s.cursor.buffer.stop < target →
    Scan.rewind target s = .error (.fault (.released target)) (s.log (.rewound target))
  /-- A release drops bytes before the position, and no other ones. -/
  release : ∃ (n : Nat) (buffer : Input.Buffer),
    Scan.release s = .ok n { s with cursor.buffer := buffer } ∧ buffer.Holds input ∧
      buffer.start = s.cursor.buffer.start + n ∧ buffer.start ≤ s.cursor.position ∧
      ∀ i : Int, buffer.start ≤ i → buffer.get? i = s.cursor.buffer.get? i

namespace Scan

variable {σ α : Type} {s : Scanner σ} {input : List UInt8}

/-! ## One call -/

theorem move_of_ok {f : Cursor → Except Input.Error (α × Cursor)} {a : α} {cursor : Cursor}
    (h : f s.cursor = .ok (a, cursor)) : move f s = .ok a { s with cursor } := by
  unfold move
  rw [h]

theorem move_of_error {f : Cursor → Except Input.Error (α × Cursor)} {error : Input.Error}
    (h : f s.cursor = .error error) : move f s = .error (.fault error) s := by
  unfold move
  rw [h]

/-- A range of the input is served from the held bytes, or refused. -/
theorem run_slice (h : s.cursor.Shows input) (low high : Int) :
    slice low high s =
      if low < s.cursor.buffer.start ∨ s.cursor.buffer.stop < high ∨ high < low then
        .error (.fault (.outside low high s.cursor.buffer.start s.cursor.buffer.stop)) s
      else .ok ((input.take high.toNat).drop low.toNat) s := by
  have hcopy : s.cursor.slice low high = _ := h.holds.copy_eq low high
  split
  · next hout =>
    rw [if_pos hout] at hcopy
    exact move_of_error (by rw [hcopy]; rfl)
  · next hin =>
    rw [if_neg hin] at hcopy
    exact move_of_ok (by rw [hcopy]; rfl)

theorem run_advance (count : Int) :
    advance count s =
      if count < 0 ∨ s.cursor.available < count then
        .error (.fault (.beyond count s.cursor.available)) s
      else .ok () { s with cursor.position := s.cursor.position + count.toNat } := by
  split
  · next hout =>
    have hrefused : s.cursor.advance count = _ := if_pos hout
    exact move_of_error (by rw [hrefused]; rfl)
  · next hin =>
    have hmoved : s.cursor.advance count = _ := if_neg hin
    exact move_of_ok (by rw [hmoved]; rfl)

/-- A read is refused like the slice that it copies, unless there are too few bytes. -/
theorem run_read (h : s.cursor.Shows input) (count : Int) :
    read count s =
      if s.cursor.available < count then .ok none s
      else if count < 0 then .error (.fault (.outside s.cursor.position
        (s.cursor.position + count) s.cursor.buffer.start s.cursor.buffer.stop)) s
      else .ok (some ((input.drop s.cursor.position).take count.toNat))
        { s with cursor.position := s.cursor.position + count.toNat } := by
  have hstart := h.start_le
  have hstop := h.le_stop
  have hcopy : s.cursor.slice s.cursor.position (s.cursor.position + count) = _ :=
    h.holds.copy_eq _ _
  by_cases hshort : s.cursor.available < count
  · rw [if_pos hshort]
    have hread : s.cursor.read count = _ := if_pos hshort
    exact move_of_ok hread
  rw [if_neg hshort]
  have hread : s.cursor.read count = (do
      let bytes ← s.cursor.slice s.cursor.position (s.cursor.position + count)
      return (some bytes, { s.cursor with position := s.cursor.position + count.toNat })) :=
    if_neg hshort
  by_cases hnegative : count < 0
  · rw [if_pos hnegative]
    rw [if_pos (by omega)] at hcopy
    exact move_of_error (by rw [hread, hcopy]; rfl)
  · have hcount : (s.cursor.position + count).toNat = s.cursor.position + count.toNat := by omega
    have havailable : s.cursor.available = s.cursor.buffer.stop - s.cursor.position := rfl
    rw [if_neg hnegative]
    rw [if_neg (by omega), hcount, Int.toNat_natCast, List.drop_take,
      Nat.add_sub_cancel_left] at hcopy
    exact move_of_ok (by rw [hread, hcopy]; rfl)

theorem run_rewind (target : Int) :
    rewind target s =
      if target < s.cursor.buffer.start ∨ s.cursor.buffer.stop < target then
        .error (.fault (.released target)) (s.log (.rewound target))
      else .ok () { s.log (.rewound target) with cursor.position := target.toNat } := by
  split
  · next hout =>
    have hrefused : s.cursor.restore target = _ := if_pos hout
    exact move_of_error (s := s.log (.rewound target)) (by
      show (((), ·)) <$> s.cursor.restore target = _
      rw [hrefused]
      rfl)
  · next hin =>
    have hmoved : s.cursor.restore target = _ := if_neg hin
    exact move_of_ok (s := s.log (.rewound target)) (by
      show (((), ·)) <$> s.cursor.restore target = _
      rw [hmoved]
      rfl)

theorem run_append (bytes : Array UInt8) :
    append bytes s =
      if s.cursor.ended then .error (.fault .ended) s
      else .ok () { s with cursor.buffer := s.cursor.buffer.append bytes } := by
  split
  · next hended =>
    have hrefused : s.cursor.append bytes = _ := if_pos hended
    exact move_of_error (by rw [hrefused]; rfl)
  · next hopen =>
    have hadded : s.cursor.append bytes = _ := if_neg hopen
    exact move_of_ok (by rw [hadded]; rfl)

end Scan

/-- A cursor that shows the input answers as a position in it. -/
theorem Scanner.Answers.of_shows {σ : Type} {s : Scanner σ} {input : List UInt8}
    (h : s.cursor.Shows input) : s.Answers input s.cursor.ended := by
  have hstart := h.start_le
  have hstop := h.le_stop
  have havailable : s.cursor.available = s.cursor.buffer.stop - s.cursor.position := rfl
  have hbuffered : s.cursor.buffered = s.cursor.buffer.stop - s.cursor.buffer.start := rfl
  have hpeek (ahead : Int) : Scan.peek ahead s = .ok (s.cursor.peek ahead) s := rfl
  constructor
  case inRange => exact h.toInRange
  case stop_eq => exact h.holds.stop_eq
  case ended_eq => rfl
  case available_eq => omega
  case buffered_eq => omega
  case available_le => omega
  case mark => rfl
  case finish => rfl
  case append_ok =>
    intro hopen bytes
    refine ⟨s.cursor.buffer.append bytes, ?_, h.holds.append bytes, ?_⟩
    · rw [Scan.run_append, hopen, if_neg Bool.false_ne_true]
    · exact s.cursor.buffer.append_start bytes
  case append_refused =>
    intro hended bytes
    rw [Scan.run_append, if_pos hended]
  case peek_held =>
    intro ahead hlow hhigh
    have hlt : (s.cursor.position + ahead).toNat < input.length := by
      rw [← h.holds.stop_eq]
      omega
    refine ⟨hlt, ?_⟩
    rw [hpeek, Cursor.peek, h.holds.get?_eq, if_pos ⟨hlow, hhigh⟩, List.getElem?_eq_getElem hlt]
  case peek_outside =>
    intro ahead hout
    rw [hpeek, Cursor.peek, h.holds.get?_eq, if_neg (by omega)]
  case advance_ok =>
    intro count hcount hle
    rw [Scan.run_advance, if_neg (by omega)]
  case advance_refused =>
    intro count hout
    rw [Scan.run_advance, if_pos hout]
  case slice_ok =>
    intro low high hlow hle hhigh
    rw [Scan.run_slice h, if_neg (by omega)]
  case slice_refused =>
    intro low high hout
    rw [Scan.run_slice h, if_pos hout]
  case read_ok =>
    intro count hcount hle
    rw [Scan.run_read h, if_neg (by omega), if_neg (by omega)]
  case read_short =>
    intro count hshort
    rw [Scan.run_read h, if_pos hshort]
  case read_refused =>
    intro count hcount
    rw [Scan.run_read h, if_neg (by omega), if_pos hcount]
  case rewind_ok =>
    intro target hlow hhigh
    rw [Scan.run_rewind, if_neg (by omega)]
  case rewind_refused =>
    intro target hout
    rw [Scan.run_rewind, if_pos hout]
  case release =>
    obtain ⟨_, -, holds, hstart'⟩ := h.holds.release s.cursor.position
    refine ⟨_, _, rfl, holds, hstart'.symm, h.release.1.start_le, fun i hi => ?_⟩
    exact h.holds.get?_release hi

namespace Scan

variable {σ α β : Type} {s t : Scanner σ} {input : List UInt8}

/-! ## What a call leaves behind -/

theorem of_move_ok {f : Cursor → Except Input.Error (α × Cursor)} {a : α}
    (h : move f s = .ok a t) : f s.cursor = .ok (a, t.cursor) := by
  unfold move at h
  split at h
  · next hf =>
    obtain ⟨rfl, rfl⟩ := EStateM.Result.ok.inj h
    exact hf
  · cases h

/-- A move without an answer leads where the cursor is moved to. -/
theorem of_move_unit_ok {f : Cursor → Except Input.Error Cursor}
    (h : move (fun c => ((), ·) <$> f c) s = .ok () t) : f s.cursor = .ok t.cursor := by
  have hf := of_move_ok h
  cases hmoved : f s.cursor with
  | error _ =>
    rw [hmoved] at hf
    cases hf
  | ok cursor =>
    rw [hmoved] at hf
    exact congrArg Except.ok (Prod.mk.inj (Except.ok.inj hf)).2

theorem of_move_error {f : Cursor → Except Input.Error (α × Cursor)} {halt : Halt}
    (h : move f s = .error halt t) : t = s := by
  unfold move at h
  split at h
  · cases h
  · exact (EStateM.Result.error.inj h).2.symm

/-- To apply a function to what is computed does not change what is left behind. -/
theorem of_map_ok {f : α → β} {scan : Scan σ α} {b : β} (h : (f <$> scan) s = .ok b t) :
    ∃ a, scan s = .ok a t ∧ f a = b := by
  change EStateM.map f scan s = _ at h
  unfold EStateM.map at h
  split at h
  · next a _ hscan =>
    obtain ⟨hb, rfl⟩ := EStateM.Result.ok.inj h
    exact ⟨a, hscan, hb⟩
  · cases h

theorem of_map_error {f : α → β} {scan : Scan σ α} {halt : Halt}
    (h : (f <$> scan) s = .error halt t) : scan s = .error halt t := by
  change EStateM.map f scan s = _ at h
  unfold EStateM.map at h
  split at h
  · cases h
  · next hscan =>
    obtain ⟨rfl, rfl⟩ := EStateM.Result.error.inj h
    exact hscan

namespace Call

/-- A call that is refused has no effect on the cursor. -/
theorem cursor_of_error {call : Call} {halt : Halt} (h : call.run s = .error halt t) :
    t.cursor = s.cursor := by
  cases call with
  | append bytes => exact congrArg Scanner.cursor (of_move_error (of_map_error h))
  | advance count => exact congrArg Scanner.cursor (of_move_error (of_map_error h))
  | read count => exact congrArg Scanner.cursor (of_move_error (of_map_error h))
  | slice low high => exact congrArg Scanner.cursor (of_move_error (of_map_error h))
  | rewind target =>
    -- The return is refused behind its entry in the journal.
    have hrewind : move (fun c => ((), ·) <$> c.restore target) (s.log (.rewound target)) =
        .error halt t := of_map_error h
    have ht : t = s.log (.rewound target) := of_move_error hrewind
    exact ht ▸ rfl
  | finish => cases of_map_error h
  | peek ahead => cases of_map_error h
  | mark => cases of_map_error h
  | release => cases of_map_error h

/-- A call that finds nothing has no effect on the cursor. -/
theorem cursor_of_missing {call : Call} {answer : Answer} (h : call.run s = .ok answer t)
    (hmissing : answer = .byte none ∨ answer = .bytes none) : t.cursor = s.cursor := by
  cases call with
  | peek ahead =>
    obtain ⟨_, hpeek, -⟩ := of_map_ok h
    exact congrArg Scanner.cursor (EStateM.Result.ok.inj hpeek).2.symm
  | read count =>
    obtain ⟨bytes, hread, rfl⟩ := of_map_ok h
    obtain rfl : bytes = none := by simpa using hmissing
    have hread := of_move_ok hread
    unfold Cursor.read at hread
    split at hread
    · exact (Prod.mk.inj (Except.ok.inj hread)).2.symm
    · -- Bytes that are there are not missing.
      cases hcopied : s.cursor.slice s.cursor.position (s.cursor.position + count) with
      | error _ =>
        rw [hcopied] at hread
        cases hread
      | ok copied =>
        rw [hcopied] at hread
        cases hread
  | _ =>
    obtain ⟨_, -, rfl⟩ := of_map_ok h
    simp at hmissing

/-- What a call does to a cursor. -/
inductive Effect (c : Cursor) : Call → Cursor → Prop
  /-- A chunk is added while the input is open. -/
  | appended {bytes : Array UInt8} :
      c.ended = false → Effect c (append bytes) { c with buffer := c.buffer.append bytes }
  /-- A chunk is refused behind the end. -/
  | refused {bytes : Array UInt8} : c.ended = true → Effect c (append bytes) c
  | finished : Effect c finish c.finish
  | released : Effect c release c.release.2
  /-- All other calls bring nothing, and only move within what is held. -/
  | moved {call : Call} {d : Cursor} : call.bytes = [] → call.isFinish = false →
      call.isRelease = false → c.Within d → Effect c call d

theorem after_effect (h : s.cursor.Shows input) (call : Call) :
    Effect s.cursor call (after s call).cursor := by
  have hstay : s.cursor.Within s.cursor := .refl h.toInRange
  unfold after
  split
  · next answer t hrun =>
    cases call with
    | append bytes =>
      obtain ⟨_, hmove, -⟩ := of_map_ok hrun
      obtain ⟨hopen, hcursor⟩ := Cursor.append_eq_ok_iff.mp (of_move_unit_ok hmove)
      exact hcursor ▸ .appended hopen
    | finish =>
      obtain ⟨_, hmove, -⟩ := of_map_ok hrun
      obtain ⟨-, hcursor⟩ := Prod.mk.inj (Except.ok.inj (of_move_ok hmove))
      exact hcursor ▸ .finished
    | advance count =>
      obtain ⟨_, hmove, -⟩ := of_map_ok hrun
      exact .moved rfl rfl rfl (.of_advance h.toInRange (of_move_unit_ok hmove))
    | peek ahead =>
      obtain ⟨_, hpeek, -⟩ := of_map_ok hrun
      obtain ⟨-, rfl⟩ := EStateM.Result.ok.inj hpeek
      exact .moved rfl rfl rfl hstay
    | read count =>
      obtain ⟨_, hmove, -⟩ := of_map_ok hrun
      exact .moved rfl rfl rfl (.of_read h.toInRange (of_move_ok hmove))
    | slice low high =>
      obtain ⟨_, hslice, -⟩ := of_map_ok hrun
      rw [run_slice h] at hslice
      split at hslice
      · cases hslice
      · obtain ⟨-, rfl⟩ := EStateM.Result.ok.inj hslice
        exact .moved rfl rfl rfl hstay
    | mark =>
      obtain ⟨_, hmark, -⟩ := of_map_ok hrun
      obtain ⟨-, rfl⟩ := EStateM.Result.ok.inj hmark
      exact .moved rfl rfl rfl hstay
    | rewind target =>
      obtain ⟨_, hmove, -⟩ := of_map_ok hrun
      have hmove : move (fun c => ((), ·) <$> c.restore target) (s.log (.rewound target)) = _ :=
        hmove
      exact .moved rfl rfl rfl (.of_restore (of_move_unit_ok hmove))
    | release =>
      obtain ⟨_, hmove, -⟩ := of_map_ok hrun
      obtain ⟨-, hcursor⟩ := Prod.mk.inj (Except.ok.inj (of_move_ok hmove))
      exact hcursor ▸ .released
  · next halt t hrun =>
    have hcursor := cursor_of_error hrun
    cases call with
    | append bytes =>
      have hrefused : Scan.append bytes s = .error halt t := of_map_error hrun
      rw [run_append] at hrefused
      split at hrefused
      · next hended =>
        rw [hcursor]
        exact .refused hended
      · cases hrefused
    | finish => cases of_map_error hrun
    | release => cases of_map_error hrun
    | _ => exact .moved rfl rfl rfl (hcursor.symm ▸ hstay)

/-- A call keeps the input in view, and adds to it what it brings while the input is open. -/
theorem after_shows (h : s.cursor.Shows input) (call : Call) :
    (after s call).cursor.Shows (input ++ if s.cursor.ended then [] else call.bytes) ∧
      (after s call).cursor.ended = (s.cursor.ended || call.isFinish) := by
  have heffect := after_effect h call
  generalize (after s call).cursor = d at heffect ⊢
  cases heffect with
  | appended hopen =>
    rw [if_neg (hopen ▸ Bool.false_ne_true)]
    exact ⟨h.append _, (Bool.or_false _).symm⟩
  | refused hended =>
    rw [if_pos hended, List.append_nil, hended]
    exact ⟨h, rfl⟩
  | finished =>
    have hbytes : finish.bytes = [] := rfl
    rw [hbytes, ite_self, List.append_nil]
    exact ⟨⟨⟨h.start_le, h.le_stop⟩, h.holds⟩, (Bool.or_true _).symm⟩
  | released =>
    obtain ⟨hshows, -, hended⟩ := h.release
    have hbytes : release.bytes = [] := rfl
    rw [hbytes, ite_self, List.append_nil, hended]
    exact ⟨hshows, (Bool.or_false _).symm⟩
  | moved hbytes hfinish _ hcd =>
    rw [hbytes, ite_self, List.append_nil, hfinish, Bool.or_false]
    exact ⟨h.of_within hcd, hcd.ended_eq⟩

/-- What comes after a call that ends the input is not brought. -/
theorem arrived_cons (call : Call) (calls : List Call) :
    arrived (call :: calls) = call.bytes ++ if call.isFinish then [] else arrived calls := by
  unfold arrived
  cases call <;> simp [isFinish, bytes]

/-- By induction on the calls: what has arrived is in view. -/
theorem foldl_shows (h : s.cursor.Shows input) (calls : List Call) :
    (calls.foldl after s).cursor.Shows (input ++ if s.cursor.ended then [] else arrived calls) ∧
      (calls.foldl after s).cursor.ended = (s.cursor.ended || calls.any isFinish) := by
  induction calls generalizing s input with
  | nil =>
    have hnone : arrived [] = [] := rfl
    rw [hnone, ite_self, List.append_nil, List.any_nil, Bool.or_false]
    exact ⟨h, rfl⟩
  | cons call calls ih =>
    obtain ⟨hshows, hended⟩ := after_shows h call
    obtain ⟨hall, hall'⟩ := ih hshows
    rw [hended] at hall hall'
    rw [List.any_cons, ← Bool.or_assoc, arrived_cons]
    refine ⟨?_, hall'⟩
    cases hopen : s.cursor.ended <;> simpa [hopen] using hall

theorem afterAll_shows (calls : List Call) (memory : σ) :
    (afterAll calls memory).cursor.Shows (arrived calls) ∧
      (afterAll calls memory).cursor.ended = calls.any isFinish :=
  foldl_shows (s := { cursor := {}, memory }) Cursor.Reached.new.shows calls

end Call

/-- Whatever calls were made on an input of which nothing had arrived at first, all further ones are
answered as at a position in what has arrived by now. A call that is refused, and one that finds
nothing, leaves the cursor as it is: its position, the held bytes and whether the input has
ended. -/
theorem answers_after (calls : List Call) (memory : σ) :
    let s := Call.afterAll calls memory
    s.Answers (Call.arrived calls) (calls.any Call.isFinish) ∧
      (∀ (call : Call) (halt : Halt) (t : Scanner σ),
        call.run s = .error halt t → t.cursor = s.cursor) ∧
      ∀ (call : Call) (answer : Answer) (t : Scanner σ), call.run s = .ok answer t →
        answer = .byte none ∨ answer = .bytes none → t.cursor = s.cursor := by
  intro s
  obtain ⟨hshows, hended⟩ := Call.afterAll_shows calls memory
  refine ⟨?_, fun call halt t h => Call.cursor_of_error h, fun call answer t h hmissing => ?_⟩
  · rw [← hended]
    exact .of_shows hshows
  · exact Call.cursor_of_missing h hmissing

end Scan

end StreamGrammar
