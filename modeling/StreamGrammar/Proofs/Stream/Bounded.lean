import StreamGrammar.Proofs.Rule.Contract
import StreamGrammar.Proofs.Stream.Calls

/-!
# How much a reader holds

A reader keeps the bytes of the value that its rule is undecided about, and as little else as its
chunks allow. What carries over from call to call is that every chunk which is held stops behind the
position (`Cursor.Tight`): chunks are added at the end, and taking a value releases all those that
lie before it. The limit is only looked at where the rule is undecided, so a reader that exceeds it
has been `Suspended` there, however much arrived at a time (`Reader.buffering_bounded`).
-/

namespace StreamGrammar

open Input (Chunk Cursor)

/-! ## Cursors -/

namespace Input.Cursor

variable {c : Cursor} {input : List UInt8}

/-- Every chunk that is held stops behind the position. -/
def Tight (c : Cursor) : Prop := ∀ chunk ∈ c.buffer.chunks.toList, c.position < chunk.stop

/-- No more is held than the chunks that may still be read. -/
structure Frugal (c : Cursor) : Prop where
  tight : c.Tight
  /-- The position lies in the first chunk and in no other one. What is held before the position is
  less than this chunk. -/
  first : ∀ chunk others, c.buffer.chunks.toList = chunk :: others →
    c.buffer.start ≤ c.position ∧ c.position - c.buffer.start < chunk.bytes.size ∧
      chunk.start ≤ c.position ∧ c.position < chunk.stop ∧
      ∀ other ∈ others, c.position < other.start
  /-- Where nothing is left to be read, nothing is held. -/
  empty_iff : c.available = 0 ↔ c.buffer.chunks = #[]
  buffered_eq : c.available = 0 → c.buffered = 0

theorem tight_new : Tight {} := nofun

/-- A new chunk stops behind everything that has arrived before. -/
theorem Tight.append (h : c.Tight) (hc : c.InRange) (bytes : Array UInt8) :
    Tight { c with buffer := c.buffer.append bytes } := by
  unfold Buffer.append
  split
  · exact h
  · next hne =>
    intro chunk hchunk
    rw [Array.toList_push] at hchunk
    rcases List.mem_append.mp hchunk with hchunk | hchunk
    · exact h chunk hchunk
    · obtain rfl := List.mem_singleton.mp hchunk
      rw [Array.isEmpty_iff_size_eq_zero] at hne
      exact Nat.lt_of_le_of_lt hc.le_stop (Nat.lt_add_of_pos_right (Nat.pos_of_ne_zero hne))

/-- A release drops all chunks that are not behind the position. -/
theorem Shows.tight_release (h : c.Shows input) : c.release.2.Tight := by
  obtain ⟨n, hdrops, -⟩ := h.holds.release c.position
  intro chunk hchunk
  exact Int.ofNat_lt.mp (hdrops.lt_stop_of_mem h.holds chunk hchunk)

theorem Tight.frugal (h : c.Tight) (hc : c.Shows input) : c.Frugal := by
  have hstart := hc.start_le
  have hstop := hc.le_stop
  have htiles := hc.holds.tiles
  have hempty : c.available = 0 ↔ c.buffer.chunks = #[] := by
    unfold available
    constructor
    · intro hnone
      cases hchunks : c.buffer.chunks.toList with
      | nil => exact Array.toList_eq_nil_iff.mp hchunks
      | cons chunk others =>
        -- The chunk would stop behind the position, and so behind the end.
        have hlt := h chunk (hchunks ▸ List.mem_cons_self)
        rw [hchunks] at htiles
        have hle := htiles.stop_le
        rw [← hc.holds.stop_eq] at hle
        omega
    · intro hnone
      have hall := hc.holds.start_eq_stop hnone
      omega
  refine ⟨h, fun chunk others hchunks => ?_, hempty, fun hnone => ?_⟩
  · have hmem : chunk ∈ c.buffer.chunks.toList := hchunks ▸ List.mem_cons_self
    have hlt := h chunk hmem
    rw [hchunks] at htiles
    have hfirst := htiles.1
    have hsize : chunk.stop = chunk.start + chunk.bytes.size := rfl
    refine ⟨hstart, by omega, by omega, hlt, fun other hother => ?_⟩
    exact Nat.lt_of_lt_of_le hlt (List.rel_of_pairwise_cons htiles.pairwise hother)
  · have hall := hc.holds.start_eq_stop (hempty.mp hnone)
    unfold buffered
    omega

end Input.Cursor

namespace Stream

open Reading (behind)
open StreamGrammar.Parser (Tame)

variable {σ ε α : Type} {format : Format σ ε α} {calls : List Call} {r r' : Reader σ ε}
  {input : List UInt8}

/-! ## Undecided rules -/

/-- A reader that attempts a value in the course of some calls: one of them was let in, and took the
values before this one. -/
inductive Reader.Attempting (format : Format σ ε α) (calls : List Call) (r : Reader σ ε) : Prop
  | intro {earlier : List Call} {call : Call} {r₀ : Reader σ ε} {values : List α} :
      earlier ++ [call] <+: calls → r₀.Reached format earlier → call.LetIn r₀ →
      Takes format (call.opened r₀) values r → Attempting format calls r

/-- In the course of some calls, the rule was run on what is before the reader, and was
undecided. -/
def Reader.Suspended (format : Format σ ε α) (calls : List Call) (r : Reader σ ε) : Prop :=
  ∃ (attempt : Reader σ ε) (t : Scanner σ), attempt.Attempting format calls ∧
    attempt.scanner.cursor = r.scanner.cursor ∧
    format.rule.run (attempt.scanner.log (.marked attempt.position)) = .ok .undecided t

theorem Reader.Suspended.mono (h : r.Suspended format calls) (call : Call) :
    r.Suspended format (calls ++ [call]) := by
  obtain ⟨attempt, t, ⟨hbefore, hreached, hletIn, htakes⟩, hcursor, hrun⟩ := h
  exact ⟨attempt, t, ⟨hbefore.trans (List.prefix_append _ _), hreached, hletIn, htakes⟩, hcursor,
    hrun⟩

/-- The rule is undecided about more bytes than the limit allows. -/
structure Reader.Overfull (format : Format σ ε α) (calls : List Call) (r : Reader σ ε)
    (position limit : Int) : Prop where
  position_eq : position = r.position
  limit_eq : limit = format.limit
  isOpen : r.scanner.cursor.ended = false
  limit_lt : format.limit < r.pending
  suspended : r.Suspended format calls

section Tame

variable (htame : format.rule.Tame)
include htame

/-- An attempt at a value that leaves everything open also leaves the cursor where it was. -/
theorem suspended_of_attempt {earlier : List Call} {call : Call} {r₀ : Reader σ ε}
    {values : List α} (hreached : r₀.Reached format earlier) (hletIn : call.LetIn r₀)
    (htakes : Takes format (call.opened r₀) values r) (hr : r.scanner.cursor.InRange)
    {scanner : Scanner σ}
    (hrun : (Parser.rewinding format.rule).run r.scanner = .ok .undecided scanner) :
    scanner.cursor = r.scanner.cursor ∧
      ∀ r' : Reader σ ε, r'.scanner.cursor = scanner.cursor →
        r'.Suspended format (earlier ++ [call]) := by
  have hback : scanner.cursor = r.scanner.cursor := htame.rewinds _ _ _ _ hr hrun rfl
  obtain ⟨t, hbody, -⟩ := Parser.rewindingUnless_ok hrun
  refine ⟨hback, fun r' hcursor => ⟨r, t, ?_, (hcursor.trans hback).symm, hbody⟩⟩
  exact ⟨List.prefix_refl _, hreached, hletIn, htakes⟩

/-- Every value that is taken releases what lies before it. -/
theorem Takes.tight {values : List α} (h : Takes format r values r')
    (hr : r.scanner.cursor.Reached input) (htight : r.scanner.cursor.Tight) :
    r'.scanner.cursor.Tight := by
  induction h with
  | nil r => exact htight
  | cons _ hrun _ _ ih =>
    have hscanner := hr.of_within (within_attempt htame hr.shows.toInRange hrun)
    exact ih hscanner.release hscanner.shows.tight_release

end Tame

/-! ## Any calls -/

theorem Call.LetIn.tight_opened {call : Call} (h : call.LetIn r)
    (hr : r.scanner.cursor.InRange) (htight : r.scanner.cursor.Tight) :
    (call.opened r).scanner.cursor.Tight := by
  cases call with
  | push bytes => exact htight.append hr bytes
  | finish => exact htight

/-- What is known of what a reader holds after any calls. -/
structure Reader.Economical (format : Format σ ε α) (calls : List Call) (r : Reader σ ε) :
    Prop where
  tight : r.scanner.cursor.Tight
  overfull : ∀ position limit, r.failure = some (.overLimit position limit) →
    r.Overfull format calls position limit

/-- A call without an effect leaves a reader economical. -/
theorem Reader.Economical.idle (h : r.Economical format calls) (call : Call) :
    r.Economical format (calls ++ [call]) where
  tight := h.tight
  overfull := fun position limit hfailure =>
    have hover := h.overfull position limit hfailure
    { hover with suspended := hover.suspended.mono call }

section Tame

variable (htame : format.rule.Tame)
include htame

/-- What is known carries over from call to call. -/
theorem Reader.Economical.call (h : r.Economical format calls) (hr : r.Reached format calls)
    {call : Call} {result : EStateM.Result (Stop ε) (Reader σ ε) (List α)}
    (hdoes : call.Does format r result) (hends : ComesToEnd result) :
    (behind result).Economical format (calls ++ [call]) := by
  obtain ⟨input, hreached⟩ := (hr.consistent htame).reached
  -- The values of the call, if it is let in, leave a reader that is tight and has not failed.
  have hlast {values : List α} {last : Reader σ ε} (hletIn : call.LetIn r)
      (htakes : Takes format (call.opened r) values last) :
      last.scanner.cursor.Tight ∧ last.failure = none ∧
        ∃ input', last.scanner.cursor.Reached input' := by
    obtain ⟨input', hopened⟩ := hletIn.reached_opened hreached
    have htight := hletIn.tight_opened hreached.shows.toInRange h.tight
    obtain ⟨hreached', hfailure, -⟩ := htakes.reached htame hopened
    exact ⟨htakes.tight htame hopened htight, hfailure.trans hletIn.failure_opened, input',
      hreached'⟩
  cases hdoes with
  | kept _ => exact h.idle call
  | refused _ _ _ => exact h.idle call
  | @returned values last r' hletIn htakes hpauses =>
    obtain ⟨htight, hnone, input', hreached'⟩ := hlast hletIn htakes
    have hcursor := hpauses.cursor_eq htame hreached'.shows.toInRange
    obtain ⟨-, hfailure, -, -⟩ := hpauses.consistent htame hreached'
    refine ⟨hcursor.symm ▸ htight, fun position limit hover => ?_⟩
    cases (hfailure.trans hnone).symm.trans hover
  | @failed values last error scanner hletIn htakes hfails =>
    obtain ⟨htight, -, input', hreached'⟩ := hlast hletIn htakes
    have hcursor := hfails.cursor_eq htame hreached'.shows.toInRange
    refine ⟨hcursor.symm ▸ htight, fun position limit hover => ?_⟩
    obtain rfl : error = .overLimit position limit := Option.some.inj hover
    cases hfails with
    | overLimit hrun hopen hlimit =>
      obtain ⟨-, hsuspended⟩ :=
        suspended_of_attempt htame hr hletIn htakes hreached'.shows.toInRange hrun
      have hposition : scanner.cursor.position = last.position := congrArg Cursor.position hcursor
      exact ⟨congrArg Nat.cast hposition.symm, rfl, hopen, hlimit, hsuspended _ rfl⟩
  | cutShort r' => exact hends.elim

/-- By induction on the calls: whatever they are and whatever they come to. -/
theorem Reader.Reached.economical (h : r.Reached format calls) : r.Economical format calls := by
  induction h with
  | new memory => exact ⟨Cursor.tight_new, nofun⟩
  | call call hr hends ih =>
    obtain ⟨input, hreached⟩ := (hr.consistent htame).reached
    exact ih.call htame hr (call.does htame hreached _) hends

/-- Whatever calls were made on a reader before, and whatever its rule does with the cursor and its
limit is, also if it is not positive: a call that returns leaves nothing to be read, or else more
input may follow, and the rule was undecided about what is left, which is within the limit. Of what
lies before the position, no more is held than a part of one chunk. A call fails over the limit only
where the rule was undecided about more bytes than the limit allows, before the end of the input,
also if it is an earlier failure that was kept. -/
theorem Reader.buffering_bounded (hr : r.Reached format calls) (call : Call) (fuel : Nat) :
    (∀ (values : List α) (r' : Reader σ ε), call.run format fuel r = .ok values r' →
      (r'.pending = 0 ∨ (∃ bytes, call = .push bytes) ∧ r'.pending ≤ format.limit ∧
        r'.Suspended format (calls ++ [call])) ∧
      r'.scanner.cursor.Frugal) ∧
    ∀ (position limit : Int) (r' : Reader σ ε),
      call.run format fuel r = .error (.failed (.overLimit position limit)) r' →
        r'.Overfull format (calls ++ [call]) position limit := by
  obtain ⟨input, hreached⟩ := (hr.consistent htame).reached
  have hdoes := call.does htame hreached fuel
  have hbehind (hends : ComesToEnd (call.run format fuel r)) :
      (behind (call.run format fuel r)).Reached format (calls ++ [call]) := hr.call call hends
  constructor
  · intro values r' hrun
    rw [hrun] at hbehind hdoes
    have hr' : r'.Reached format (calls ++ [call]) := hbehind trivial
    obtain ⟨input', hreached'⟩ := (hr'.consistent htame).reached
    refine ⟨?_, (hr'.economical htame).tight.frugal hreached'.shows⟩
    cases hdoes with
    | @returned _ last _ hletIn htakes hpauses =>
      obtain ⟨input'', hopened⟩ := hletIn.reached_opened hreached
      obtain ⟨hlast, -, hended⟩ := htakes.reached htame hopened
      cases hpauses with
      | idle hpending => exact .inl hpending
      | waiting _ hattempt hopen hlimit =>
        obtain ⟨hcursor, hsuspended⟩ :=
          suspended_of_attempt htame hr hletIn htakes hlast.shows.toInRange hattempt
        refine .inr ⟨?_, hlimit, hsuspended _ rfl⟩
        cases call with
        | push bytes => exact ⟨bytes, rfl⟩
        | finish =>
          -- The input has ended, and the rule is not waited for.
          rw [hcursor, hended] at hopen
          cases hopen
  · intro position limit r' hrun
    have hends : ComesToEnd (call.run format fuel r) := by rw [hrun]; trivial
    have hfailure := (hdoes.failure_iff htame hreached hends _).mpr ⟨r', hrun⟩
    have hover := ((hbehind hends).economical htame).overfull position limit hfailure
    rw [hrun] at hover
    exact hover

end Tame

/-- A rule that is undecided about everything, with a limit of one byte. The first byte is waited
for, and the second one is too much. What fails once fails again. -/
theorem Reader.buffering_bounded_wait :
    let format : Format Unit Mismatch Unit := { rule := Parser.wait, limit := 1 }
    let first := (Call.push #[0x61]).run format 1 (Reader.new ())
    let second := (Call.push #[0x62]).run format 1 (behind first)
    format.rule.Tame ∧
      (∃ r', first = .ok [] r' ∧ r'.pending = 1 ∧ r'.scanner.cursor.Frugal) ∧
      (∃ r', second = .error (.failed (.overLimit 0 1)) r' ∧ r'.pending = 2) ∧
      ∃ r', Call.finish.run format 1 (behind second) = .error (.failed (.overLimit 0 1)) r' ∧
        r'.Overfull format [.push #[0x61], .push #[0x62], .finish] 0 1 := by
  intro format first second
  have htame : format.rule.Tame := fun _ => .refl
  have hnew : (Reader.new () : Reader Unit Mismatch).Reached format [] := .new ()
  have hfirst : (behind first).Reached format [.push #[0x61]] := hnew.call _ trivial
  have hsecond : (behind second).Reached format [.push #[0x61], .push #[0x62]] :=
    hfirst.call _ trivial
  refine ⟨htame, ⟨_, rfl, rfl, ?_⟩, ⟨_, rfl, rfl⟩, ⟨_, rfl, ?_⟩⟩
  · exact ((Reader.buffering_bounded htame hnew (.push #[0x61]) 1).1 [] _ rfl).2
  · exact (Reader.buffering_bounded htame hsecond .finish 1).2 0 1 _ rfl

end Stream

end StreamGrammar
