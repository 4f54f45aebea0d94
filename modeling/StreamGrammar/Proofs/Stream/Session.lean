import StreamGrammar.Proofs.Stream.Batch
import StreamGrammar.Proofs.Stream.Drain

/-!
# A reader brings what the batch run brings

A session is a reader's life: the chunks are pushed one after the other, then the input is ended,
and the first call that stops ends it. However the input is cut, the session brings the values of
the batch run over the whole input and stops with the same failure (`Sound.exists_session`). What
carries over from round to round, and from call to call, is `Reads`: the bytes that have arrived and
the ones that have not make up the input, and the reader stands where the batch run does.
-/

namespace StreamGrammar.Stream

open Input (Cursor)
open Reading (DrainsTo completed)

variable {σ ε α : Type}

/-- What the calls on a reader bring. -/
structure Session (ε α : Type) where
  /-- The values that each call returns, up to the first one that stops. -/
  returned : List (List α)
  /-- The values that the call that stops has completed. -/
  lost : List α := []
  /-- How the first call stops that does, if any. -/
  stop : Option (Stop ε) := none

/-- Pushes the chunks one after the other, and then ends the input. -/
def session (format : Format σ ε α) (fuel : Nat) :
    List (Array UInt8) → Reader σ ε → Session ε α
  | [], r =>
    match Reading.finish format fuel r with
    | .ok values _ => { returned := [values] }
    | .error stop _ =>
      { returned := [], lost := Reading.completedBy format fuel Scan.finish r, stop := some stop }
  | bytes :: chunks, r =>
    match Reading.push format fuel bytes r with
    | .ok values r' =>
      let rest := session format fuel chunks r'
      { rest with returned := values :: rest.returned }
    | .error stop _ =>
      { returned := []
        lost := Reading.completedBy format fuel (Scan.append bytes) r
        stop := some stop }

/-- The reader is well, and reads an input of which `arrived` has arrived and `rest` has not. -/
structure Reads (arrived rest : List UInt8) (r : Reader σ ε) : Prop where
  failure : r.failure = none
  reached : r.scanner.cursor.Reached arrived
  ended : r.scanner.cursor.ended = true → rest = []

variable {p : Nat → Parser σ ε α} {memory : σ} {input : Array UInt8} {arrived rest : List UInt8}
  {r r' : Reader σ ε} {values : List α} {stop : Option (Stop ε)} {t : Scanner σ}

namespace Reads

/-- The reader and the batch run look at the same place. -/
theorem grows (h : Reads arrived rest r) (hinput : arrived ++ rest = input.toList) :
    r.scanner.cursor.Grows arrived rest (whole memory input r.position).cursor := by
  have hstop := h.reached.shows.le_stop
  have hsize : arrived.length + rest.length = input.size := by
    rw [← List.length_append, hinput, Array.length_toList]
  rw [h.reached.shows.holds.stop_eq] at hstop
  have hwhole : (whole memory input r.position).cursor.Reached input.toList :=
    reached_whole memory (Nat.le_trans hstop (by omega))
  exact ⟨h.reached.shows, hinput ▸ hwhole.shows, rfl, fun hended => ⟨h.ended hended, rfl⟩⟩

/-- What waits is what has arrived behind the reader's position. -/
theorem pending_eq (h : Reads arrived rest r) : r.pending = arrived.length - r.position := by
  rw [← h.reached.shows.holds.stop_eq]
  rfl

theorem appended (h : Reads arrived rest r) (bytes : Array UInt8) (chunks : List (Array UInt8))
    (hopen : r.scanner.cursor.ended = false) :
    Reads (arrived ++ bytes.toList) (chunks.flatMap Array.toList) (r.appended bytes) where
  failure := h.failure
  reached := h.reached.append (Cursor.append_eq_ok_iff.mpr ⟨hopen, rfl⟩)
  ended := fun hended => absurd (hopen.symm.trans hended) Bool.false_ne_true

theorem finished (h : Reads arrived [] r) : Reads arrived [] r.finished where
  failure := h.failure
  reached := h.reached.finish
  ended := fun _ => rfl

/-- A value that is taken leaves the rest of the input as it is. -/
theorem parsed (h : Reads arrived rest r) (ht : r.scanner.cursor.Within t.cursor) :
    Reads arrived rest (r.parsed t) where
  failure := h.failure
  reached := (h.reached.of_within ht).release
  ended := by
    intro hended
    exact h.ended (ht.ended_eq ▸ hended)

end Reads

/-! ## One call -/

/-- What one drain of `r` comes to: it returns values of the batch run and stands where they end, it
stops where the batch run stops, or it exceeds its limit. -/
inductive Drained (p : Nat → Parser σ ε α) (memory : σ) (input : Array UInt8)
    (arrived rest : List UInt8) (r : Reader σ ε) :
    List α → Option (Stop ε) → Reader σ ε → Prop
  | returned {values : List α} {r' : Reader σ ε} : Reads arrived rest r' →
      r'.scanner.cursor.ended = r.scanner.cursor.ended →
      (r.scanner.cursor.ended = true → r'.pending = 0) →
      (∀ later ending, Batch p memory input r'.position later ending →
        Batch p memory input r.position (values ++ later) ending) →
      Drained p memory input arrived rest r values none r'
  | failed {values : List α} {error : Error ε} {r' : Reader σ ε} :
      Batch p memory input r.position values (some error) →
      Drained p memory input arrived rest r values (some (.failed error)) r'
  | overLimit {values : List α} {position limit : Int} {r' : Reader σ ε} :
      Drained p memory input arrived rest r values (some (.failed (.overLimit position limit))) r'

/-- A reader that waits stays where it is. -/
theorem Drained.waiting (h : Reads arrived rest r) (ht : t.cursor = r.scanner.cursor)
    (hopen : r.scanner.cursor.ended = false) (notice : Notice ε) :
    Drained p memory input arrived rest r [] none
      (Reader.noted { r with scanner := t } notice) := by
  have hreads : Reads arrived rest (Reader.noted { r with scanner := t } notice) :=
    ⟨h.failure, ht ▸ h.reached, ht ▸ h.ended⟩
  refine .returned hreads (congrArg Cursor.ended ht) ?_ ?_
  · intro hended
    exact absurd (hopen.symm.trans hended) Bool.false_ne_true
  · intro later ending hlater
    have hposition : t.cursor.position = r.position := congrArg Cursor.position ht
    exact hposition ▸ hlater

/-- A value in front of what one drain comes to. -/
theorem Drained.value {value : α}
    (h : Drained p memory input arrived rest r values stop r') {before : Reader σ ε}
    (hended : r.scanner.cursor.ended = before.scanner.cursor.ended)
    (hvalue : ∀ later ending, Batch p memory input r.position later ending →
      Batch p memory input before.position (value :: later) ending) :
    Drained p memory input arrived rest before (value :: values) stop r' := by
  cases h with
  | returned hreads hended' hall hbatch =>
    refine .returned hreads (hended'.trans hended) (fun h => hall (hended.trans h)) ?_
    exact fun later ending hlater => hvalue _ _ (hbatch later ending hlater)
  | failed hbatch => exact .failed (hvalue _ _ hbatch)
  | overLimit => exact .overLimit

section Drain

variable (hp : Sound p)
include hp

/-- One round, with fuel enough for the rule. Unless the rule leaves open, it answers as in the
batch run. -/
theorem exists_run (memory : σ) (h : Reads arrived rest r)
    (hinput : arrived ++ rest = input.toList) :
    ∃ enough verdict t,
      (∀ fuel, enough ≤ fuel → (Parser.rewinding (p fuel)).run r.scanner = .ok verdict t) ∧
      r.scanner.cursor.Onward t.cursor ∧
      (verdict.isAccepted = false → t.cursor = r.scanner.cursor) ∧
      (verdict.isUndecided = true → r.scanner.cursor.ended = false) ∧
      (verdict.isUndecided = false → ∃ u, Runs p (whole memory input r.position) verdict u ∧
        (verdict.isAccepted = true → u.cursor.position = t.cursor.position)) := by
  -- The rule runs behind the mark that is taken first.
  have hmarked : (r.scanner.log (.marked r.scanner.cursor.position)).cursor.Reached arrived :=
    h.reached
  have hrange : r.scanner.cursor.InRange := hmarked.shows.toInRange
  obtain ⟨verdict, t, enough, hrun⟩ := hp.terminates hmarked
  have honward : r.scanner.cursor.Onward t.cursor :=
    (hp.keeps enough).ok (s := r.scanner.log _) hrange hrun
  have hrunAll (fuel : Nat) (hfuel : enough ≤ fuel) :=
    Parser.run_rewindingUnless_of_ok Verdict.isAccepted hrange honward.toWithin
      ((hp.refines hfuel).run_eq hrun)
  refine ⟨enough, verdict, _, hrunAll, ?_, ?_, ?_, ?_⟩
  · split
    · exact honward
    · exact .refl hrange
  · intro hrejected
    rw [if_neg (by rw [hrejected]; exact Bool.false_ne_true)]
  · intro hundecided
    rw [Bool.eq_false_iff]
    intro hended
    have hdecided := (hp.settles enough (s := r.scanner.log _) hrange hended hrun).1
    rw [hundecided] at hdecided
    cases hdecided
  · intro hdecided
    have hgrows : (r.scanner.log (.marked r.scanner.cursor.position)).cursor.Grows arrived rest
        (whole memory input r.position).cursor := h.grows hinput
    obtain ⟨u, hrun', hu⟩ := hp.final (Nat.le_refl enough) hgrows hrun hdecided
    refine ⟨u, ⟨enough, hrun'⟩, fun haccepted => ?_⟩
    rw [if_pos haccepted, hu.position_eq]

/-- By induction on the number of bytes that wait for the rule to decide. -/
theorem exists_drained (memory : σ) (name : String) (limit : Int) (h : Reads arrived rest r)
    (hinput : arrived ++ rest = input.toList) :
    ∃ values stop r', DrainsTo p name limit r values stop r' ∧
      Drained p memory input arrived rest r values stop r' := by
  induction hleft : r.pending using Nat.strong_induction_on generalizing r with
  | _ left ih =>
    by_cases hpending : r.pending = 0
    · exact ⟨[], none, r, .idle hpending, .returned h rfl (fun _ => hpending) fun _ _ => id⟩
    have hleft' : left = arrived.length - r.position := hleft ▸ h.pending_eq
    have hsize : r.position < input.size := by
      rw [← Array.length_toList, ← hinput, List.length_append]
      omega
    obtain ⟨enough, verdict, t, hrun, honward, hback, hopen, hbatch⟩ :=
      exists_run hp memory h hinput
    cases verdict with
    | undecided =>
      -- The reader stays where it is, and waits unless too much is pending.
      have ht : t.cursor = r.scanner.cursor := hback rfl
      have hopen' : t.cursor.ended = false := ht ▸ hopen rfl
      by_cases hlimit : limit < t.cursor.available
      · exact ⟨_, _, _, .overLimit hpending hrun hopen' hlimit, .overLimit⟩
      · have hlimit := Int.not_lt.mp hlimit
        exact ⟨_, _, _, .waiting hpending hrun hopen' hlimit, .waiting h ht (hopen rfl) _⟩
    | rejected cause =>
      obtain ⟨u, hu, -⟩ := hbatch rfl
      exact ⟨_, _, _, .parseFailed hpending hrun, .failed (.failed hsize hu)⟩
    | accepted value =>
      obtain ⟨u, hu, hposition⟩ := hbatch rfl
      have hposition : u.cursor.position = t.cursor.position := hposition rfl
      rcases Nat.lt_or_eq_of_le honward.position_le with hmoved | hstuck
      · -- The rest of the drain starts behind the value, with fewer bytes to decide about.
        have hparsed := h.parsed honward.toWithin
        have hmoved : r.position < t.cursor.position := hmoved
        have hless : (r.parsed t).pending < left := by
          have hpending' : (r.parsed t).pending = arrived.length - t.cursor.position :=
            hparsed.pending_eq
          omega
        obtain ⟨values, stop, r', hdrains, hdrained⟩ := ih _ hless hparsed rfl
        refine ⟨_, _, _, .parsed hpending hrun (Nat.ne_of_gt hmoved) hdrains, hdrained.value ?_ ?_⟩
        · exact honward.ended_eq
        · intro later ending hlater
          have hmoved' : r.position < u.cursor.position := hposition ▸ hmoved
          have hlater' : Batch p memory input t.cursor.position later ending := hlater
          exact .value hsize hu hmoved' (hposition ▸ hlater')
      · have hstuck' : u.cursor.position = r.position := hposition.trans hstuck.symm
        exact ⟨_, _, _, .noProgress hpending hrun hstuck.symm, .failed (.stuck hsize hu hstuck')⟩

end Drain

/-! ## All calls -/

/-- A session whose first call completes `values`, and that goes on as `rest` if the call returns.
-/
def Session.cons (values : List α) (rest : Session ε α) : Option (Stop ε) → Session ε α
  | none => { rest with returned := values :: rest.returned }
  | some stop => { returned := [], lost := values, stop := some stop }

theorem session_nil {format : Format σ ε α} {fuel : Nat} (hfailure : r.failure = none)
    (hcompleted : completed format fuel r.finished = values)
    (hdrain : Reading.drain format fuel #[] r.finished = Reading.outcome values r' stop) :
    session format fuel [] r = Session.cons values { returned := [] } stop := by
  obtain ⟨hfinish, hlost⟩ := Reading.finish_eq format hfailure fuel
  rw [session, hfinish, hdrain, hlost, hcompleted]
  cases stop <;> rfl

theorem session_cons {format : Format σ ε α} {fuel : Nat} {bytes : Array UInt8}
    (chunks : List (Array UInt8)) (hfailure : r.failure = none)
    (hopen : r.scanner.cursor.ended = false)
    (hcompleted : completed format fuel (r.appended bytes) = values)
    (hdrain : Reading.drain format fuel #[] (r.appended bytes) = Reading.outcome values r' stop) :
    session format fuel (bytes :: chunks) r =
      Session.cons values (session format fuel chunks r') stop := by
  obtain ⟨hpush, hlost⟩ := Reading.push_eq format hfailure hopen fuel bytes
  rw [session, hpush, hdrain, hlost, hcompleted]
  cases stop <;> rfl

/-- What the calls bring compared with the batch run: they bring all its values and none stops, or
the first one that stops does so with the failure of the batch run, and the values that are missing
are those that it has completed. -/
structure Session.Agrees (S : Session ε α) (calls : Nat) (values : List α)
    (ending : Option (Error ε)) : Prop where
  stop_eq : S.stop = ending.map .failed
  values_eq : S.returned.flatten ++ S.lost = values
  all_return : ending = none → S.lost = [] ∧ S.returned.length = calls

/-- A session that exceeds its limit. -/
def Session.Exceeds (S : Session ε α) : Prop :=
  ∃ position limit, S.stop = some (.failed (.overLimit position limit))

/-- By induction on the chunks that are left. -/
theorem Sound.exists_session (hp : Sound p) (memory : σ) (name : String) (limit : Int)
    (chunks : List (Array UInt8)) (h : Reads arrived (chunks.flatMap Array.toList) r)
    (hopen : r.scanner.cursor.ended = false)
    (hinput : arrived ++ chunks.flatMap Array.toList = input.toList) :
    ∃ enough S, (∀ fuel, enough ≤ fuel → session ⟨p fuel, name, limit⟩ fuel chunks r = S) ∧
      (S.Exceeds ∨ ∃ values ending, Batch p memory input r.position values ending ∧
        S.Agrees (chunks.length + 1) values ending) := by
  induction chunks generalizing arrived r with
  | nil =>
    obtain ⟨values, stop, r', ⟨enough, hdrains⟩, hdrained⟩ :=
      exists_drained hp memory name limit h.finished hinput
    have hsession (fuel : Nat) (hfuel : enough ≤ fuel) :=
      session_nil h.failure (hdrains fuel fuel hfuel hfuel).1
        ((hdrains fuel fuel hfuel hfuel).2 #[])
    refine ⟨enough, _, hsession, ?_⟩
    cases hdrained with
    | returned hreads hended hall hbatch =>
      right
      -- Nothing waits any more, so the reader is at the end of the input.
      have hsize : input.size ≤ r'.position := by
        have hpending := hreads.pending_eq
        rw [hall rfl] at hpending
        rw [← Array.length_toList, ← hinput, List.flatMap_nil, List.append_nil]
        omega
      refine ⟨_, _, hbatch [] none (.exhausted hsize), rfl, ?_, fun _ => ⟨rfl, rfl⟩⟩
      show [values].flatten ++ [] = values ++ []
      rw [List.flatten_cons, List.flatten_nil, List.append_nil]
    | failed hbatch => exact .inr ⟨_, _, hbatch, rfl, rfl, nofun⟩
    | overLimit => exact .inl ⟨_, _, rfl⟩
  | cons bytes chunks ih =>
    have hinput' : (arrived ++ bytes.toList) ++ chunks.flatMap Array.toList = input.toList := by
      rw [List.append_assoc, ← List.flatMap_cons, hinput]
    obtain ⟨values, stop, r', ⟨enough, hdrains⟩, hdrained⟩ :=
      exists_drained hp memory name limit (h.appended bytes chunks hopen) hinput'
    have hsession (fuel : Nat) (hfuel : enough ≤ fuel) :=
      session_cons chunks h.failure hopen (hdrains fuel fuel hfuel hfuel).1
        ((hdrains fuel fuel hfuel hfuel).2 #[])
    cases hdrained with
    | returned hreads hended hall hbatch =>
      -- The session goes on with the chunks that are left, and the batch run behind the values.
      obtain ⟨enough', S, hrest, hS⟩ := ih hreads (hended.trans hopen) hinput'
      refine ⟨enough + enough', { S with returned := values :: S.returned }, ?_, ?_⟩
      · intro fuel hfuel
        rw [hsession fuel (by omega), ← hrest fuel (by omega)]
        rfl
      · rcases hS with hexceeds | ⟨later, ending, hlater, hagrees⟩
        · exact .inl hexceeds
        · right
          refine ⟨_, _, hbatch later ending hlater, hagrees.stop_eq, ?_, fun hending => ?_⟩
          · rw [List.flatten_cons, List.append_assoc, hagrees.values_eq]
          · obtain ⟨hlost, hlength⟩ := hagrees.all_return hending
            exact ⟨hlost, congrArg (· + 1) hlength⟩
    | failed hbatch => exact ⟨enough, _, hsession, .inr ⟨_, _, hbatch, rfl, rfl, nofun⟩⟩
    | overLimit => exact ⟨enough, _, hsession, .inl ⟨_, _, rfl⟩⟩

end StreamGrammar.Stream
