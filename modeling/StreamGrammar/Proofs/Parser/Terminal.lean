import StreamGrammar.Parser.Structure
import StreamGrammar.Parser.Terminal
import StreamGrammar.Proofs.Input.Cursor

/-!
# Running the parsers that look at bytes

On a cursor in range, a terminal either does not move and answers with what can be read off the
cursor, or moves past the bytes that it matched (`run_byte`, `run_literal`). It is never refused by
the input.
-/

namespace StreamGrammar.Parser

open Input (Cursor)

variable {σ ε α : Type} {s : Scanner σ}

/-! ## Calls on the cursor -/

theorem run_move (f : Cursor → Except Input.Error (α × Cursor)) :
    (ofScan (Scan.move f) : Parser σ ε α).run s =
      match f s.cursor with
      | .ok (a, cursor) => .ok (.accepted a) { s with cursor }
      | .error e => .error (.fault e) s := by
  change EStateM.bind (Scan.move f) _ s = _
  unfold EStateM.bind Scan.move
  dsimp only
  rcases f s.cursor with _ | ⟨_, _⟩ <;> rfl

theorem run_advance (count : Int) :
    (advance count : Parser σ ε Unit).run s =
      match s.cursor.advance count with
      | .ok cursor => .ok (.accepted ()) { s with cursor }
      | .error e => .error (.fault e) s := by
  refine (run_move fun c => ((), ·) <$> c.advance count).trans ?_
  cases s.cursor.advance count <;> rfl

theorem run_read (count : Int) :
    (read count : Parser σ ε _).run s =
      match s.cursor.read count with
      | .ok (bytes, cursor) => .ok (.accepted bytes) { s with cursor }
      | .error e => .error (.fault e) s := by
  refine (run_move fun c => c.read count).trans ?_
  rcases s.cursor.read count with _ | ⟨_, _⟩ <;> rfl

theorem run_slice (low high : Int) :
    (slice low high : Parser σ ε _).run s =
      match s.cursor.slice low high with
      | .ok bytes => .ok (.accepted bytes) s
      | .error e => .error (.fault e) s := by
  refine (run_move fun c => (·, c) <$> c.slice low high).trans ?_
  cases s.cursor.slice low high <;> rfl

/-! ## Terminals -/

/-- The answer at a cursor where a byte is missing. -/
def missed (expected : String) (c : Cursor) : Verdict Mismatch α :=
  if c.ended then .rejected ⟨expected, c.position⟩ else .undecided

theorem run_missing (expected : String) :
    (missing expected : Parser σ Mismatch α).run s = .ok (missed expected s.cursor) s := by
  unfold missing missed
  rw [run_bind, run_ended]
  cases s.cursor.ended <;> rfl

theorem run_differing (expected : String) :
    (differing expected : Parser σ Mismatch α).run s =
      .ok (.rejected ⟨expected, s.cursor.position⟩) s := rfl

theorem run_byte (test : UInt8 → Bool) (expected : String) :
    (byte test expected).run s =
      match s.cursor.peek 0 with
      | none => .ok (missed expected s.cursor) s
      | some value =>
        if test value then
          .ok (.accepted value) { s with
            cursor := { s.cursor with position := s.cursor.position + 1 } }
        else .ok (.rejected ⟨expected, s.cursor.position⟩) s := by
  unfold byte
  rw [run_bind, run_peek]
  cases hpeek : s.cursor.peek 0 with
  | none => exact run_missing expected
  | some value =>
    -- The byte has arrived, so the input does not refuse to move past it.
    have hlt : s.cursor.position + 1 ≤ s.cursor.buffer.stop := Cursor.lt_stop_of_peek 0 hpeek
    dsimp only
    split
    · have hadvance : s.cursor.advance 1 = _ := Cursor.advance_eq hlt
      rw [run_bind, run_advance, hadvance]
      rfl
    · exact run_differing expected

/-- On an input that goes on with a byte, the byte decides. -/
theorem run_byte_of_shows {input : List UInt8} (hs : s.cursor.Shows input) {value : UInt8}
    (hvalue : input[s.cursor.position]? = some value) (test : UInt8 → Bool) (expected : String) :
    (byte test expected).run s =
      if test value then
        .ok (.accepted value) { s with
          cursor := { s.cursor with position := s.cursor.position + 1 } }
      else .ok (.rejected ⟨expected, s.cursor.position⟩) s := by
  have hpeek : s.cursor.peek 0 = some value := (hs.peek_eq 0).trans hvalue
  rw [run_byte, hpeek]

/-- A run on a byte comes to an end in one of three ways. Only where the byte passes the test does
the cursor move. -/
theorem byte_ok {test : UInt8 → Bool} {expected : String} {t : Scanner σ}
    {verdict : Verdict Mismatch UInt8} (hrun : (byte test expected).run s = .ok verdict t) :
    (∃ value, s.cursor.peek 0 = some value ∧ test value = true ∧ verdict = .accepted value ∧
      t = { s with cursor := { s.cursor with position := s.cursor.position + 1 } }) ∨
    (∃ value, s.cursor.peek 0 = some value ∧ test value = false ∧
      verdict = .rejected ⟨expected, s.cursor.position⟩ ∧ t = s) ∨
    (s.cursor.peek 0 = none ∧ verdict = missed expected s.cursor ∧ t = s) := by
  rw [run_byte] at hrun
  cases hpeek : s.cursor.peek 0 with
  | none =>
    rw [hpeek] at hrun
    obtain ⟨rfl, rfl⟩ := EStateM.Result.ok.inj hrun
    exact .inr (.inr ⟨rfl, rfl, rfl⟩)
  | some value =>
    rw [hpeek] at hrun
    dsimp only at hrun
    cases htest : test value with
    | true =>
      rw [htest, if_pos rfl] at hrun
      obtain ⟨rfl, rfl⟩ := EStateM.Result.ok.inj hrun
      exact .inl ⟨value, rfl, htest, rfl, rfl⟩
    | false =>
      rw [htest, if_neg Bool.false_ne_true] at hrun
      obtain ⟨rfl, rfl⟩ := EStateM.Result.ok.inj hrun
      exact .inr (.inl ⟨value, rfl, htest, rfl, rfl⟩)

/-- What comparing the bytes from `ahead` of the cursor on with `codes` comes to. -/
def comparison (l : Literal) (c : Cursor) : List UInt8 → Nat → Verdict Mismatch Unit
  | [], _ => .accepted ()
  | code :: codes, ahead =>
    match c.peek ahead with
    | none => missed l.expected c
    | some value =>
      if l.agrees value code then comparison l c codes (ahead + 1)
      else .rejected ⟨l.expected, c.position⟩

theorem run_agree (l : Literal) (codes : List UInt8) (ahead : Nat) :
    (agree l codes ahead).run s = .ok (comparison l s.cursor codes ahead) s := by
  induction codes generalizing ahead with
  | nil => rfl
  | cons code codes ih =>
    unfold agree comparison
    rw [run_bind, run_peek]
    cases s.cursor.peek ahead with
    | none => exact run_missing l.expected
    | some value =>
      dsimp only
      split
      · exact ih (ahead + 1)
      · exact run_differing l.expected

/-- All bytes of a text that was found have arrived. -/
theorem add_le_stop_of_comparison {l : Literal} {c : Cursor} {codes : List UInt8} {ahead : Nat}
    (hstop : c.position + ahead ≤ c.buffer.stop) (h : comparison l c codes ahead = .accepted ()) :
    c.position + ahead + codes.length ≤ c.buffer.stop := by
  induction codes generalizing ahead with
  | nil => exact hstop
  | cons code codes ih =>
    unfold comparison at h
    cases hpeek : c.peek ahead with
    | none =>
      rw [hpeek] at h
      dsimp only [missed] at h
      split at h <;> cases h
    | some value =>
      have hlt := Cursor.lt_stop_of_peek ahead hpeek
      rw [hpeek] at h
      dsimp only at h
      split at h
      · have hle := ih hlt h
        rw [List.length_cons]
        omega
      · cases h

theorem run_literal (hc : s.cursor.InRange) (l : Literal) :
    (literal l).run s =
      match comparison l s.cursor l.codes 0 with
      | .accepted () =>
        match s.cursor.slice s.cursor.position (s.cursor.position + l.codes.length : Nat) with
        | .ok bytes => .ok (.accepted (Text.latin bytes)) { s with
            cursor := { s.cursor with position := s.cursor.position + l.codes.length } }
        | .error e => .error (.fault e) s
      | .undecided => .ok .undecided s
      | .rejected error => .ok (.rejected error) s := by
  unfold literal
  rw [run_bind, run_agree]
  cases hcomparison : comparison l s.cursor l.codes 0 with
  | accepted =>
    -- All bytes of the text have been looked at, so they can be read.
    have hstop := add_le_stop_of_comparison hc.le_stop hcomparison
    obtain ⟨bytes, hbytes, hread⟩ := Cursor.read_ok hc hstop
    dsimp only
    rw [run_bind, run_read, hread, hbytes]
    rfl
  | undecided => rfl
  | rejected error => rfl

/-- A run on a text comes to an end in one of two ways. Either the text is there, and the cursor
moves behind it, or the comparison decides and the cursor stays. -/
theorem literal_ok (hc : s.cursor.InRange) {l : Literal} {t : Scanner σ}
    {verdict : Verdict Mismatch String} (hrun : (literal l).run s = .ok verdict t) :
    (∃ bytes, comparison l s.cursor l.codes 0 = .accepted () ∧
      s.cursor.slice s.cursor.position (s.cursor.position + l.codes.length : Nat) = .ok bytes ∧
      verdict = .accepted (Text.latin bytes) ∧
      t = { s with
        cursor := { s.cursor with position := s.cursor.position + l.codes.length } }) ∨
    (t = s ∧ (comparison l s.cursor l.codes 0 = .undecided ∧ verdict = .undecided ∨
      ∃ error, comparison l s.cursor l.codes 0 = .rejected error ∧
        verdict = .rejected error)) := by
  rw [run_literal hc] at hrun
  cases hcomparison : comparison l s.cursor l.codes 0 with
  | accepted =>
    rw [hcomparison] at hrun
    dsimp only at hrun
    split at hrun
    · next bytes hbytes =>
      obtain ⟨rfl, rfl⟩ := EStateM.Result.ok.inj hrun
      exact .inl ⟨bytes, rfl, hbytes, rfl, rfl⟩
    · cases hrun
  | undecided =>
    rw [hcomparison] at hrun
    obtain ⟨rfl, rfl⟩ := EStateM.Result.ok.inj hrun
    exact .inr ⟨rfl, .inl ⟨rfl, rfl⟩⟩
  | rejected error =>
    rw [hcomparison] at hrun
    obtain ⟨rfl, rfl⟩ := EStateM.Result.ok.inj hrun
    exact .inr ⟨rfl, .inr ⟨error, rfl, rfl⟩⟩

theorem run_captured (p : Parser σ ε α) (s : Scanner σ) :
    (captured p).run s =
      match p.run s with
      | .ok (.accepted _) t =>
        match t.cursor.slice s.cursor.position t.cursor.position with
        | .ok bytes => .ok (.accepted (Text.latin bytes)) t
        | .error e => .error (.fault e) t
      | .ok .undecided t => .ok .undecided t
      | .ok (.rejected error) t => .ok (.rejected error) t
      | .error halt t => .error halt t := by
  unfold captured
  rw [run_bind, run_position]
  dsimp only
  rw [run_bind]
  rcases p.run s with ⟨_ | _ | _, t⟩ | _
  · dsimp only
    rw [run_bind, run_position]
    dsimp only
    rw [run_bind, run_slice]
    cases t.cursor.slice s.cursor.position t.cursor.position <;> rfl
  · rfl
  · rfl
  · rfl

/-- A run that yields the matched input comes to an end where the body does. -/
theorem captured_ok {p : Parser σ ε α} {s u : Scanner σ} {verdict : Verdict ε String}
    (hrun : (captured p).run s = .ok verdict u) :
    (∃ value bytes, p.run s = .ok (.accepted value) u ∧ verdict = .accepted (Text.latin bytes) ∧
      u.cursor.slice s.cursor.position u.cursor.position = .ok bytes) ∨
    (p.run s = .ok .undecided u ∧ verdict = .undecided) ∨
    ∃ error, p.run s = .ok (.rejected error) u ∧ verdict = .rejected error := by
  rw [run_captured] at hrun
  rcases hbody : p.run s with ⟨value | _ | error, t⟩ | _ <;> rw [hbody] at hrun
  · dsimp only at hrun
    split at hrun
    · next bytes hbytes =>
      obtain ⟨rfl, rfl⟩ := EStateM.Result.ok.inj hrun
      exact .inl ⟨value, bytes, rfl, rfl, hbytes⟩
    · cases hrun
  · obtain ⟨rfl, rfl⟩ := EStateM.Result.ok.inj hrun
    exact .inr (.inl ⟨rfl, rfl⟩)
  · obtain ⟨rfl, rfl⟩ := EStateM.Result.ok.inj hrun
    exact .inr (.inr ⟨error, rfl, rfl⟩)
  · cases hrun

end StreamGrammar.Parser
