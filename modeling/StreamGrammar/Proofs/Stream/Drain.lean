import StreamGrammar.Stream.Reader
import Mathlib.Tactic.Common

/-!
# Rounds of a reader

A call on a reader adds to the input and then drains it: round after round, the rule is run and its
value is taken. `drain_succ` says what one round comes to. A call that stops does not hand over the
values of its earlier rounds; `completed` says which ones these are (`eq_append_completed`,
`countP_notices`).

How many rounds a call takes, and how much fuel the rule needs in each, depends on the input.
`DrainsTo` is what a drain comes to with any fuel that is enough.
-/

namespace StreamGrammar.Stream

variable {σ ε α : Type}

namespace Reader

/-- The reader after it has noted down something. -/
def noted (r : Reader σ ε) (notice : Notice ε) : Reader σ ε :=
  { r with notices := notice :: r.notices }

/-- The reader after it has failed. -/
def failed (r : Reader σ ε) (error : Error ε) : Reader σ ε :=
  { r with failure := some error, notices := .failed error :: r.notices }

/-- The reader after it has taken a value, behind which the scanner stands. -/
def parsed (r : Reader σ ε) (scanner : Scanner σ) : Reader σ ε where
  scanner := { scanner with cursor := scanner.cursor.release.2 }
  failure := r.failure
  notices := .parsed r.position scanner.cursor.position scanner.cursor.release.1 :: r.notices

/-- The reader after a chunk has been added to its input. -/
def appended (r : Reader σ ε) (bytes : Array UInt8) : Reader σ ε :=
  { r with scanner.cursor.buffer := r.scanner.cursor.buffer.append bytes }

/-- The reader after its input has ended. -/
def finished (r : Reader σ ε) : Reader σ ε := { r with scanner.cursor := r.scanner.cursor.finish }

end Reader

namespace Reading

/-! ## One round -/

theorem bind_of_ok {β : Type} {m : Reading σ ε α} {f : α → Reading σ ε β} {r r' : Reader σ ε}
    {a : α} (h : m r = .ok a r') : (m >>= f) r = f a r' := by
  change EStateM.bind m f r = _
  unfold EStateM.bind
  rw [h]

theorem bind_of_error {β : Type} {m : Reading σ ε α} {f : α → Reading σ ε β} {r r' : Reader σ ε}
    {stop : Stop ε} (h : m r = .error stop r') : (m >>= f) r = .error stop r' := by
  change EStateM.bind m f r = _
  unfold EStateM.bind
  rw [h]

theorem scan_of_ok {act : Scan σ α} {r : Reader σ ε} {a : α} {scanner : Scanner σ}
    (h : act r.scanner = .ok a scanner) :
    (scan act : Reading σ ε α) r = .ok a { r with scanner } := by
  unfold scan
  rw [h]

theorem scan_of_error {act : Scan σ α} {r : Reader σ ε} {halt : Halt} {scanner : Scanner σ}
    (h : act r.scanner = .error halt scanner) :
    (scan act : Reading σ ε α) r = .error (.ofHalt halt) { r with scanner } := by
  unfold scan
  rw [h]

theorem fail_eq (error : Error ε) (r : Reader σ ε) :
    (fail error : Reading σ ε α) r = .error (.failed error) (r.failed error) := rfl

theorem checkFailure_eq (r : Reader σ ε) :
    (checkFailure : Reading σ ε Unit) r =
      match r.failure with
      | some error => .error (.failed error) r
      | none => .ok () r := by
  unfold checkFailure
  refine (bind_of_ok (rfl : (get : Reading σ ε (Reader σ ε)) r = .ok r r)).trans ?_
  cases r.failure <;> rfl

variable (format : Format σ ε α)

theorem drain_succ (fuel : Nat) (values : Array α) (r : Reader σ ε) :
    drain format (fuel + 1) values r =
      if r.pending = 0 then .ok values.toList r
      else
        match (Parser.rewinding format.rule).run r.scanner with
        | .error halt scanner => .error (.ofHalt halt) { r with scanner }
        | .ok .undecided scanner =>
          let pending := scanner.cursor.available
          if scanner.cursor.ended then
            let error := .incomplete r.position pending
            .error (.failed error) (Reader.failed { r with scanner } error)
          else if format.limit < pending then
            let error := .overLimit r.position format.limit
            .error (.failed error) (Reader.failed { r with scanner } error)
          else .ok values.toList (Reader.noted { r with scanner } (.waiting r.position pending))
        | .ok (.rejected cause) scanner =>
          let error := .parseFailed r.position cause
          .error (.failed error) (Reader.failed { r with scanner } error)
        | .ok (.accepted value) scanner =>
          if scanner.cursor.position = r.position then
            let error := .noProgress r.position
            .error (.failed error) (Reader.failed { r with scanner } error)
          else drain format fuel (values.push value) (r.parsed scanner) := by
  -- Each step of the round is opened in turn: it brings a value, or it stops the round.
  have hget (r : Reader σ ε) : (get : Reading σ ε (Reader σ ε)) r = .ok r r := rfl
  rw [drain]
  refine (bind_of_ok (hget r)).trans ((bind_of_ok (hget r)).trans ?_)
  by_cases hpending : r.pending = 0
  · rw [if_pos hpending, if_pos hpending]
    rfl
  · rw [if_neg hpending, if_neg hpending]
    rcases hrun : (Parser.rewinding format.rule).run r.scanner with
      ⟨value | _ | cause, t⟩ | ⟨halt, t⟩
    · refine (bind_of_ok (scan_of_ok hrun)).trans ((bind_of_ok (hget _)).trans ?_)
      dsimp only
      by_cases hstuck : t.cursor.position = r.position
      · rw [if_pos hstuck]
        exact (congrFun (if_pos hstuck) _).trans (bind_of_error (fail_eq _ _))
      · rw [if_neg hstuck]
        exact congrFun (if_neg hstuck) _
    · refine (bind_of_ok (scan_of_ok hrun)).trans ?_
      refine (bind_of_ok (hget _)).trans ((bind_of_ok (hget _)).trans ?_)
      dsimp only
      by_cases hended : t.cursor.ended = true
      · rw [if_pos hended, if_pos hended]
        exact bind_of_error (fail_eq _ _)
      · rw [if_neg hended, if_neg hended]
        by_cases hlimit : format.limit < t.cursor.available
        · rw [if_pos hlimit]
          exact (congrFun (if_pos hlimit) _).trans (bind_of_error (fail_eq _ _))
        · rw [if_neg hlimit]
          exact congrFun (if_neg hlimit) _
    · exact (bind_of_ok (scan_of_ok hrun)).trans (fail_eq _ _)
    · exact bind_of_error (scan_of_error hrun)

/-! ## All rounds of a call -/

/-- The values that a drain completes, whether it returns them or not. -/
def completed : Nat → Reader σ ε → List α
  | 0, _ => []
  | fuel + 1, r =>
    if r.pending = 0 then []
    else
      match (Parser.rewinding format.rule).run r.scanner with
      | .ok (.accepted value) scanner =>
        if scanner.cursor.position = r.position then []
        else value :: completed fuel (r.parsed scanner)
      | _ => []

/-- What a drain that returns adds to the values is what it has completed. -/
theorem eq_append_completed {fuel : Nat} {values : Array α} {r r' : Reader σ ε} {result : List α}
    (h : drain format fuel values r = .ok result r') :
    result = values.toList ++ completed format fuel r := by
  induction fuel generalizing values r with
  | zero => cases h
  | succ fuel ih =>
    rw [drain_succ] at h
    rw [completed]
    by_cases hpending : r.pending = 0
    · rw [if_pos hpending] at h ⊢
      rw [List.append_nil]
      exact (EStateM.Result.ok.inj h).1.symm
    · rw [if_neg hpending] at h ⊢
      rcases hrun : (Parser.rewinding format.rule).run r.scanner with ⟨value | _ | cause, t⟩ | _ <;>
        rw [hrun] at h <;> dsimp only at h ⊢
      · split at h
        · cases h
        · next hmoved =>
          rw [if_neg hmoved, ih h, Array.toList_push, List.append_assoc, List.singleton_append]
      · rw [List.append_nil]
        split at h
        · cases h
        · split at h
          · cases h
          · exact (EStateM.Result.ok.inj h).1.symm
      · cases h
      · cases h

/-- Whether a notice is about a value that was read. -/
def isParsed : Notice ε → Bool
  | .parsed .. => true
  | .waiting .. | .failed _ => false

/-- The reader that a drain leaves behind, whether it returns or stops. -/
def behind : EStateM.Result (Stop ε) (Reader σ ε) (List α) → Reader σ ε
  | .ok _ r | .error _ r => r

/-- Every value that a drain completes is noted down, also if the drain stops and does not return
it. -/
theorem countP_notices (fuel : Nat) (values : Array α) (r : Reader σ ε) :
    (behind (drain format fuel values r)).notices.countP isParsed =
      r.notices.countP isParsed + (completed format fuel r).length := by
  induction fuel generalizing values r with
  | zero => rfl
  | succ fuel ih =>
    rw [drain_succ, completed]
    by_cases hpending : r.pending = 0
    · rw [if_pos hpending, if_pos hpending]
      rfl
    · rw [if_neg hpending, if_neg hpending]
      rcases (Parser.rewinding format.rule).run r.scanner with ⟨value | _ | cause, t⟩ | _
      · dsimp only
        split
        · rfl
        · have hparsed : (r.parsed t).notices.countP isParsed =
              r.notices.countP isParsed + 1 := List.countP_cons_of_pos rfl
          rw [ih, hparsed, List.length_cons]
          omega
      · dsimp only
        split
        · rfl
        · split
          · rfl
          · rfl
      · rfl
      · rfl

/-- The values that a call completes that begins with `act`, whether it returns them or not. -/
def completedBy (fuel : Nat) (act : Scan σ Unit) (r : Reader σ ε) : List α :=
  if r.failure.isSome then []
  else
    match act r.scanner with
    | .ok _ scanner => completed format fuel { r with scanner }
    | .error .. => []

/-- A call on a reader that has not failed drains it after it has added to the input. -/
theorem checkFailure_bind {r : Reader σ ε} {scanner : Scanner σ} {act : Scan σ Unit}
    {next : Reading σ ε (List α)} (hfailure : r.failure = none)
    (hact : act r.scanner = .ok () scanner) :
    (do checkFailure; scan act; next) r = next { r with scanner } := by
  have hcheck : (checkFailure : Reading σ ε Unit) r = .ok () r := by rw [checkFailure_eq, hfailure]
  exact (bind_of_ok hcheck).trans (bind_of_ok (scan_of_ok hact))

theorem push_eq {r : Reader σ ε} (hfailure : r.failure = none)
    (hopen : r.scanner.cursor.ended = false) (fuel : Nat) (bytes : Array UInt8) :
    push format fuel bytes r = drain format fuel #[] (r.appended bytes) ∧
      completedBy format fuel (Scan.append bytes) r = completed format fuel (r.appended bytes) := by
  have hcursor : r.scanner.cursor.append bytes = .ok (r.appended bytes).scanner.cursor :=
    if_neg (by rw [hopen]; exact Bool.false_ne_true)
  have happend : Scan.append bytes r.scanner = .ok () (r.appended bytes).scanner := by
    unfold Scan.append Scan.move
    dsimp only
    rw [hcursor]
    rfl
  constructor
  · exact checkFailure_bind hfailure happend
  · unfold completedBy
    rw [if_neg (by rw [hfailure]; exact Bool.false_ne_true), happend]
    rfl

theorem finish_eq {r : Reader σ ε} (hfailure : r.failure = none) (fuel : Nat) :
    finish format fuel r = drain format fuel #[] r.finished ∧
      completedBy format fuel Scan.finish r = completed format fuel r.finished := by
  constructor
  · exact checkFailure_bind hfailure rfl
  · unfold completedBy
    rw [if_neg (by rw [hfailure]; exact Bool.false_ne_true)]
    rfl

/-! ## Enough fuel -/

/-- What a drain comes to: it returns the values, or it stops. -/
def outcome (values : List α) (r : Reader σ ε) :
    Option (Stop ε) → EStateM.Result (Stop ε) (Reader σ ε) (List α)
  | none => .ok values r
  | some stop => .error stop r

/-- With enough fuel for the rule and for the rounds, a drain of `r` completes `values`, and then
returns or stops with `r'`. The rule is given by its parsers with more and more fuel. -/
def DrainsTo (p : Nat → Parser σ ε α) (name : String) (limit : Int) (r : Reader σ ε)
    (values : List α) (stop : Option (Stop ε)) (r' : Reader σ ε) : Prop :=
  ∃ enough, ∀ fuel rounds, enough ≤ fuel → enough ≤ rounds →
    completed ⟨p fuel, name, limit⟩ rounds r = values ∧
      ∀ earlier, drain ⟨p fuel, name, limit⟩ rounds earlier r =
        outcome (earlier.toList ++ values) r' stop

namespace DrainsTo

variable {p : Nat → Parser σ ε α} {name : String} {limit : Int} {r r' : Reader σ ε}
  {scanner : Scanner σ}

theorem idle (hpending : r.pending = 0) : DrainsTo p name limit r [] none r := by
  refine ⟨1, fun fuel rounds _ hrounds => ?_⟩
  obtain ⟨rounds, rfl⟩ : ∃ n, rounds = n + 1 := ⟨rounds - 1, by omega⟩
  constructor
  · rw [completed, if_pos hpending]
  · intro earlier
    rw [drain_succ, if_pos hpending, List.append_nil]
    rfl

variable {enough : Nat} (hpending : r.pending ≠ 0)
include hpending

/-- A round that completes no value is the last one. -/
theorem last {verdict : Verdict ε α} {stop : Option (Stop ε)}
    (hrun : ∀ fuel, enough ≤ fuel → (Parser.rewinding (p fuel)).run r.scanner = .ok verdict scanner)
    (hlast : ∀ value, verdict = .accepted value → scanner.cursor.position = r.position)
    (hdrain : ∀ fuel rounds earlier, enough ≤ fuel →
      drain ⟨p fuel, name, limit⟩ (rounds + 1) earlier r = outcome earlier.toList r' stop) :
    DrainsTo p name limit r [] stop r' := by
  refine ⟨enough + 1, fun fuel rounds hfuel hrounds => ?_⟩
  obtain ⟨rounds, rfl⟩ : ∃ n, rounds = n + 1 := ⟨rounds - 1, by omega⟩
  constructor
  · rw [completed, if_neg hpending, hrun fuel (by omega)]
    cases verdict with
    | accepted value => exact if_pos (hlast value rfl)
    | undecided => rfl
    | rejected error => rfl
  · intro earlier
    rw [hdrain fuel rounds earlier (by omega), List.append_nil]

theorem waiting (hrun : ∀ fuel, enough ≤ fuel →
      (Parser.rewinding (p fuel)).run r.scanner = .ok .undecided scanner)
    (hopen : scanner.cursor.ended = false) (hlimit : scanner.cursor.available ≤ limit) :
    DrainsTo p name limit r [] none
      (Reader.noted { r with scanner } (.waiting r.position scanner.cursor.available)) := by
  refine last hpending hrun nofun fun fuel rounds earlier hfuel => ?_
  rw [drain_succ, if_neg hpending, hrun fuel hfuel]
  dsimp only
  rw [if_neg (by rw [hopen]; exact Bool.false_ne_true), if_neg (Int.not_lt.mpr hlimit)]
  rfl

theorem overLimit (hrun : ∀ fuel, enough ≤ fuel →
      (Parser.rewinding (p fuel)).run r.scanner = .ok .undecided scanner)
    (hopen : scanner.cursor.ended = false) (hlimit : limit < scanner.cursor.available) :
    DrainsTo p name limit r [] (some (.failed (.overLimit r.position limit)))
      (Reader.failed { r with scanner } (.overLimit r.position limit)) := by
  refine last hpending hrun nofun fun fuel rounds earlier hfuel => ?_
  rw [drain_succ, if_neg hpending, hrun fuel hfuel]
  dsimp only
  rw [if_neg (by rw [hopen]; exact Bool.false_ne_true), if_pos hlimit]
  rfl

theorem parseFailed {cause : ε} (hrun : ∀ fuel, enough ≤ fuel →
      (Parser.rewinding (p fuel)).run r.scanner = .ok (.rejected cause) scanner) :
    DrainsTo p name limit r [] (some (.failed (.parseFailed r.position cause)))
      (Reader.failed { r with scanner } (.parseFailed r.position cause)) := by
  refine last hpending hrun nofun fun fuel rounds earlier hfuel => ?_
  rw [drain_succ, if_neg hpending, hrun fuel hfuel]
  rfl

variable {value : α} (hrun : ∀ fuel, enough ≤ fuel →
  (Parser.rewinding (p fuel)).run r.scanner = .ok (.accepted value) scanner)
include hrun

theorem noProgress (hstuck : scanner.cursor.position = r.position) :
    DrainsTo p name limit r [] (some (.failed (.noProgress r.position)))
      (Reader.failed { r with scanner } (.noProgress r.position)) := by
  refine last hpending hrun (fun _ _ => hstuck) fun fuel rounds earlier hfuel => ?_
  rw [drain_succ, if_neg hpending, hrun fuel hfuel]
  dsimp only
  rw [if_pos hstuck]
  rfl

/-- A round that completes a value is followed by others. -/
theorem parsed {values : List α} {stop : Option (Stop ε)}
    (hmoved : scanner.cursor.position ≠ r.position)
    (hrest : DrainsTo p name limit (r.parsed scanner) values stop r') :
    DrainsTo p name limit r (value :: values) stop r' := by
  obtain ⟨enough', hrest⟩ := hrest
  refine ⟨enough + enough' + 1, fun fuel rounds hfuel hrounds => ?_⟩
  obtain ⟨rounds, rfl⟩ : ∃ n, rounds = n + 1 := ⟨rounds - 1, by omega⟩
  obtain ⟨hcompleted, hdrain⟩ := hrest fuel rounds (by omega) (by omega)
  constructor
  · rw [completed, if_neg hpending, hrun fuel (by omega)]
    dsimp only
    rw [if_neg hmoved, hcompleted]
  · intro earlier
    rw [drain_succ, if_neg hpending, hrun fuel (by omega)]
    dsimp only
    rw [if_neg hmoved, hdrain, Array.toList_push, List.append_assoc, List.singleton_append]

end DrainsTo

end Reading

end StreamGrammar.Stream
