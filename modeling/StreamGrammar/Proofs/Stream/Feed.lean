import StreamGrammar.Proofs.Stream.Calls
import StreamGrammar.Stream.Feed

/-!
# Values are handed over in turn

Reading from a sequence of chunks has three parties. The sequence is asked for one element at a
time, the reader is called with each chunk, and the consumer takes one value at a time, and may have
enough after any of them. `Serving` says what they do, turn by turn. It looks at the sequence only
where no value waits for the consumer, and `Turn.Due` follows by induction on the turns: whatever a
call has returned is handed over before anything else happens (`Serving.due`). `feed` brings what
the turns come to (`exists_serving`), and there is one way to take them (`Serving.unique`).
-/

namespace StreamGrammar.Stream

variable {σ ε φ α : Type}

/-! ## Turns -/

/-- Something that one of the parties does. -/
inductive Turn (φ α : Type) where
  /-- The sequence is asked for its next element, which is pushed if it is a chunk. -/
  | asked (element : Except φ (Array UInt8))
  /-- The sequence has no more elements, and the input of the reader is ended. -/
  | finished
  /-- The consumer takes a value. -/
  | handed (value : α)

namespace Turn

/-- The value that is handed over, if the turn is the consumer's. -/
def value? : Turn φ α → Option α
  | handed value => some value
  | asked _ | finished => none

/-- The element that is asked for, if the turn is that of the sequence. -/
def element? : Turn φ α → Option (Except φ (Array UInt8))
  | asked element => some element
  | finished | handed _ => none

/-- The call that is made on the reader, if any. -/
def call? : Turn φ α → Option Call
  | asked (.ok bytes) => some (.push bytes)
  | finished => some .finish
  | asked (.error _) | handed _ => none

end Turn

/-- The turns of handing values over, and how they end. The consumer has a demand, `waiting` are the
values that a call has returned and that were not handed over yet, and the elements are those that
were not asked for yet, unless the input has been ended. -/
inductive Serving (format : Format σ ε α) (fuel : Nat) :
    Demand → List α → Option (List (Except φ (Array UInt8))) → Reader σ ε →
      List (Turn φ α) → Ending ε φ → Prop
  | enough {demand : Demand} {value : α} {waiting : List α}
      {elements : Option (List (Except φ (Array UInt8)))} {r : Reader σ ε} :
      demand.after [value] = none →
      Serving format fuel demand (value :: waiting) elements r [.handed value] .served
  | handed {demand demand' : Demand} {value : α} {waiting : List α}
      {elements : Option (List (Except φ (Array UInt8)))} {r : Reader σ ε}
      {turns : List (Turn φ α)} {ending : Ending ε φ} :
      demand.after [value] = some demand' →
      Serving format fuel demand' waiting elements r turns ending →
      Serving format fuel demand (value :: waiting) elements r (.handed value :: turns) ending
  | pushed {demand : Demand} {bytes : Array UInt8} {elements : List (Except φ (Array UInt8))}
      {r r' : Reader σ ε} {values : List α} {turns : List (Turn φ α)} {ending : Ending ε φ} :
      (Call.push bytes).run format fuel r = .ok values r' →
      Serving format fuel demand values (some elements) r' turns ending →
      Serving format fuel demand [] (some (.ok bytes :: elements)) r
        (.asked (.ok bytes) :: turns) ending
  | stopped {demand : Demand} {bytes : Array UInt8} {elements : List (Except φ (Array UInt8))}
      {r r' : Reader σ ε} {stop : Stop ε} :
      (Call.push bytes).run format fuel r = .error stop r' →
      Serving format fuel demand [] (some (.ok bytes :: elements)) r [.asked (.ok bytes)]
        (.stopped stop)
  | fault {demand : Demand} {error : φ} {elements : List (Except φ (Array UInt8))}
      {r : Reader σ ε} :
      Serving format fuel demand [] (some (.error error :: elements)) r [.asked (.error error)]
        (.fault error)
  | finished {demand : Demand} {r r' : Reader σ ε} {values : List α} {turns : List (Turn φ α)}
      {ending : Ending ε φ} :
      Call.finish.run format fuel r = .ok values r' →
      Serving format fuel demand values none r' turns ending →
      Serving format fuel demand [] (some []) r (.finished :: turns) ending
  | stoppedAtEnd {demand : Demand} {r r' : Reader σ ε} {stop : Stop ε} :
      Call.finish.run format fuel r = .error stop r' →
      Serving format fuel demand [] (some []) r [.finished] (.stopped stop)
  | closed {demand : Demand} {r : Reader σ ε} : Serving format fuel demand [] none r [] .served

/-! ## Demand -/

namespace Demand

variable {demand demand' : Demand} {value : α} {values : List α}

theorem after_atMost_eq_none_iff {n : Nat} :
    (atMost n).after values = none ↔ n ≤ values.length := by
  show (if n ≤ values.length then none else some (atMost (n - values.length))) = none ↔ _
  split <;> simp_all

theorem after_atMost_eq_some_iff {n : Nat} : (atMost n).after values = some demand ↔
    values.length < n ∧ demand = .atMost (n - values.length) := by
  show (if n ≤ values.length then none else some (atMost (n - values.length))) = some demand ↔ _
  split
  · next hle => simp [Nat.not_lt.mpr hle]
  · next hlt => simp [Nat.not_le.mp hlt, eq_comm]

theorem after_nil (h : demand ≠ .atMost 0) : demand.after ([] : List α) = some demand := by
  cases demand with
  | all => rfl
  | atMost n =>
    have hpos : 0 < n := Nat.pos_of_ne_zero fun hzero => h (congrArg atMost hzero)
    exact after_atMost_eq_some_iff.mpr ⟨hpos, rfl⟩

/-- Whoever has enough with one value has enough with more of them. -/
theorem after_cons_of_enough (h : demand.after [value] = none) :
    demand.after (value :: values) = none := by
  cases demand with
  | all => cases h
  | atMost n =>
    have hle : n ≤ 1 := after_atMost_eq_none_iff.mp h
    exact after_atMost_eq_none_iff.mpr (Nat.le_trans hle (Nat.le_add_left 1 values.length))

/-- Whoever wants more after some values wants something. -/
theorem ne_zero_of_after (h : demand.after values = some demand') : demand' ≠ .atMost 0 := by
  cases demand with
  | all =>
    obtain rfl := Option.some.inj h
    exact Demand.noConfusion
  | atMost n =>
    obtain ⟨hlt, rfl⟩ := after_atMost_eq_some_iff.mp h
    intro hzero
    have hsub : n - values.length = 0 := atMost.inj hzero
    omega

/-- Whoever wants more after some values has taken them all. -/
theorem taken_of_after (h : demand.after values = some demand') : demand.taken values = values := by
  cases demand with
  | all => rfl
  | atMost n => exact List.take_of_length_le (Nat.le_of_lt (after_atMost_eq_some_iff.mp h).1)

/-- Whoever has enough with one value, and wanted something, takes no other one. -/
theorem taken_cons_of_enough (hdemand : demand ≠ .atMost 0) (h : demand.after [value] = none) :
    demand.taken (value :: values) = [value] := by
  cases demand with
  | all => cases h
  | atMost n =>
    have hle : n ≤ 1 := after_atMost_eq_none_iff.mp h
    have hzero : n ≠ 0 := fun hzero => hdemand (congrArg atMost hzero)
    obtain rfl : n = 1 := by omega
    rfl

section More

variable (h : demand.after [value] = some demand')
include h

theorem taken_cons_of_more : demand.taken (value :: values) = value :: demand'.taken values := by
  cases demand with
  | all =>
    obtain rfl := Option.some.inj h
    rfl
  | atMost n =>
    obtain ⟨hlt, rfl⟩ := after_atMost_eq_some_iff.mp h
    obtain ⟨m, rfl⟩ : ∃ m, n = m + 1 := ⟨n - 1, by omega⟩
    rfl

/-- Values that are offered together may be offered one after the other. -/
theorem after_cons_of_more : demand.after (value :: values) = demand'.after values := by
  cases demand with
  | all =>
    obtain rfl := Option.some.inj h
    rfl
  | atMost n =>
    obtain ⟨hlt, rfl⟩ := after_atMost_eq_some_iff.mp h
    rw [List.length_singleton] at hlt ⊢
    cases hrest : (atMost (n - 1)).after values with
    | none =>
      have hle := after_atMost_eq_none_iff.mp hrest
      exact after_atMost_eq_none_iff.mpr (by rw [List.length_cons]; omega)
    | some demand'' =>
      obtain ⟨hlt', rfl⟩ := after_atMost_eq_some_iff.mp hrest
      rw [Nat.sub_sub, Nat.add_comm 1]
      exact after_atMost_eq_some_iff.mpr ⟨by rw [List.length_cons]; omega, rfl⟩

end More

end Demand

/-! ## The turns of a feed -/

section Feed

variable {format : Format σ ε α} {fuel : Nat} {demand demand' : Demand} {waiting : List α}
  {elements : Option (List (Except φ (Array UInt8)))} {r : Reader σ ε} {turns : List (Turn φ α)}
  {ending : Ending ε φ}

/-- The values that are handed over in some turns. -/
abbrev handedIn (turns : List (Turn φ α)) : List α := turns.filterMap Turn.value?

/-- The elements that are asked for in some turns. -/
abbrev askedIn (turns : List (Turn φ α)) : List (Except φ (Array UInt8)) :=
  turns.filterMap Turn.element?

/-- The calls that are made in some turns. -/
abbrev calledIn (turns : List (Turn φ α)) : List Call := turns.filterMap Turn.call?

/-- What a consumer gets in some turns. -/
def Served.ofTurns (turns : List (Turn φ α)) (ending : Ending ε φ) : Served ε φ α :=
  ⟨handedIn turns, (askedIn turns).length, ending⟩

theorem Served.ofTurns_finished :
    Served.ofTurns (.finished :: turns) ending = Served.ofTurns turns ending := rfl

theorem Served.ofTurns_asked (element : Except φ (Array UInt8)) :
    Served.ofTurns (.asked element :: turns) ending =
      ⟨(Served.ofTurns turns ending).values, (Served.ofTurns turns ending).pulled + 1, ending⟩ :=
  rfl

theorem Served.ofTurns_handed (values : List α) (turns : List (Turn φ α)) (ending : Ending ε φ) :
    Served.ofTurns (values.map .handed ++ turns) ending =
      ⟨values ++ (Served.ofTurns turns ending).values, (Served.ofTurns turns ending).pulled,
        ending⟩ := by
  have hhanded : (values.map (Turn.handed (φ := φ))).filterMap Turn.value? = values := by
    rw [List.filterMap_map]
    exact List.filterMap_some
  have hasked : (values.map (Turn.handed (φ := φ))).filterMap Turn.element? = [] := by
    rw [List.filterMap_map, List.filterMap_eq_nil_iff]
    exact fun _ _ => rfl
  unfold Served.ofTurns handedIn askedIn
  rw [List.filterMap_append, List.filterMap_append, hhanded, hasked, List.nil_append]

/-- By induction on the values that wait: the consumer takes one after the other until it has
enough. -/
theorem Serving.of_enough (hdemand : demand ≠ .atMost 0) (h : demand.after waiting = none) :
    Serving format fuel demand waiting elements r ((demand.taken waiting).map .handed ++ [])
      .served := by
  rw [List.append_nil]
  induction waiting generalizing demand with
  | nil =>
    rw [Demand.after_nil hdemand] at h
    cases h
  | cons value waiting ih =>
    cases hone : demand.after [value] with
    | none =>
      rw [Demand.taken_cons_of_enough hdemand hone]
      exact .enough hone
    | some demand' =>
      rw [Demand.after_cons_of_more hone] at h
      rw [Demand.taken_cons_of_more hone]
      exact .handed hone (ih (Demand.ne_zero_of_after hone) h)

/-- By induction on the values that wait: if the consumer wants more than these, the turns go on
behind them. -/
theorem Serving.of_more (hdemand : demand ≠ .atMost 0) (h : demand.after waiting = some demand')
    (hrest : Serving format fuel demand' [] elements r turns ending) :
    Serving format fuel demand waiting elements r (waiting.map .handed ++ turns) ending := by
  induction waiting generalizing demand with
  | nil =>
    rw [Demand.after_nil hdemand] at h
    obtain rfl := Option.some.inj h
    exact hrest
  | cons value waiting ih =>
    cases hone : demand.after [value] with
    | none =>
      rw [Demand.after_cons_of_enough hone] at h
      cases h
    | some demand'' =>
      rw [Demand.after_cons_of_more hone] at h
      exact .handed hone (ih (Demand.ne_zero_of_after hone) h)

/-- Where the input has been ended, the consumer takes what it wants, and that is all. -/
theorem Serving.at_end (hdemand : demand ≠ .atMost 0) :
    Serving (φ := φ) format fuel demand waiting none r
      ((demand.taken waiting).map .handed ++ []) .served := by
  cases hafter : demand.after waiting with
  | none => exact .of_enough hdemand hafter
  | some demand' =>
    rw [Demand.taken_of_after hafter]
    exact .of_more hdemand hafter .closed

/-- By induction on the sequence: what a feed brings is what some turns bring. -/
theorem exists_serving (hdemand : demand ≠ .atMost 0) (source : List (Except φ (Array UInt8)))
    (r : Reader σ ε) :
    ∃ (turns : List (Turn φ α)) (ending : Ending ε φ),
      Serving format fuel demand [] (some source) r turns ending ∧
        feed format fuel demand source r = .ofTurns turns ending := by
  induction source generalizing demand r with
  | nil =>
    rw [feed]
    cases hrun : Reading.finish format fuel r with
    | error stop r' => exact ⟨_, _, .stoppedAtEnd hrun, rfl⟩
    | ok values r' =>
      refine ⟨_, _, .finished hrun (.at_end hdemand), ?_⟩
      rw [Served.ofTurns_finished, Served.ofTurns_handed]
      exact congrArg (Served.mk · 0 .served) (List.append_nil _).symm
  | cons element source ih =>
    cases element with
    | error error => exact ⟨_, _, .fault, rfl⟩
    | ok bytes =>
      rw [feed]
      cases hrun : Reading.push format fuel bytes r with
      | error stop r' => exact ⟨_, _, .stopped hrun, rfl⟩
      | ok values r' =>
        dsimp only
        cases hafter : demand.after values with
        | none =>
          refine ⟨_, _, .pushed hrun (.of_enough hdemand hafter), ?_⟩
          rw [Served.ofTurns_asked, Served.ofTurns_handed]
          exact congrArg (Served.mk · 1 .served) (List.append_nil _).symm
        | some demand' =>
          obtain ⟨turns, ending, hserving, hfeed⟩ := ih (Demand.ne_zero_of_after hafter) r'
          refine ⟨_, _, .pushed hrun (.of_more hdemand hafter hserving), ?_⟩
          dsimp only
          rw [Served.ofTurns_asked, Served.ofTurns_handed, hfeed]
          rfl

/-- By induction on the turns: in each state only one turn can be taken. -/
theorem Serving.unique {turns' : List (Turn φ α)} {ending' : Ending ε φ}
    (h : Serving format fuel demand waiting elements r turns ending)
    (h' : Serving format fuel demand waiting elements r turns' ending') :
    turns' = turns ∧ ending' = ending := by
  induction h generalizing turns' with
  | enough hone =>
    cases h' with
    | enough _ => exact ⟨rfl, rfl⟩
    | handed hone' _ => cases hone.symm.trans hone'
  | handed hone _ ih =>
    cases h' with
    | enough hone' => cases hone.symm.trans hone'
    | handed hone' hrest =>
      obtain rfl := Option.some.inj (hone.symm.trans hone')
      obtain ⟨rfl, rfl⟩ := ih hrest
      exact ⟨rfl, rfl⟩
  | pushed hrun _ ih =>
    cases h' with
    | pushed hrun' hrest =>
      obtain ⟨rfl, rfl⟩ := EStateM.Result.ok.inj (hrun.symm.trans hrun')
      obtain ⟨rfl, rfl⟩ := ih hrest
      exact ⟨rfl, rfl⟩
    | stopped hrun' => cases hrun.symm.trans hrun'
  | stopped hrun =>
    cases h' with
    | pushed hrun' _ => cases hrun.symm.trans hrun'
    | stopped hrun' =>
      obtain ⟨rfl, rfl⟩ := EStateM.Result.error.inj (hrun.symm.trans hrun')
      exact ⟨rfl, rfl⟩
  | fault =>
    cases h'
    exact ⟨rfl, rfl⟩
  | finished hrun _ ih =>
    cases h' with
    | finished hrun' hrest =>
      obtain ⟨rfl, rfl⟩ := EStateM.Result.ok.inj (hrun.symm.trans hrun')
      obtain ⟨rfl, rfl⟩ := ih hrest
      exact ⟨rfl, rfl⟩
    | stoppedAtEnd hrun' => cases hrun.symm.trans hrun'
  | stoppedAtEnd hrun =>
    cases h' with
    | finished hrun' _ => cases hrun.symm.trans hrun'
    | stoppedAtEnd hrun' =>
      obtain ⟨rfl, rfl⟩ := EStateM.Result.error.inj (hrun.symm.trans hrun')
      exact ⟨rfl, rfl⟩
  | closed =>
    cases h'
    exact ⟨rfl, rfl⟩

/-! ## Nothing is done too early -/

/-- The values that calls return which are made one after the other. -/
def Call.returned (format : Format σ ε α) (fuel : Nat) (calls : List Call) (r : Reader σ ε) :
    List α :=
  (Call.runAll format fuel calls r).1.flatMap fun
    | .ok values => values
    | .error _ => []

theorem Call.returned_cons_of_ok {call : Call} {r' : Reader σ ε} {values : List α}
    (hrun : call.run format fuel r = .ok values r') (calls : List Call) :
    Call.returned format fuel (call :: calls) r =
      values ++ Call.returned format fuel calls r' := by
  rw [Call.returned, Call.runAll, hrun]
  rfl

theorem Call.returned_of_error {call : Call} {r' : Reader σ ε} {stop : Stop ε}
    (hrun : call.run format fuel r = .error stop r') :
    Call.returned format fuel [call] r = [] := by
  rw [Call.returned, Call.runAll, hrun]
  rfl

/-- What is known of a turn in which no value is handed over, from the turns `before` it and those
`after` it. -/
structure Turn.Due (format : Format σ ε α) (fuel : Nat) (demand : Demand) (waiting : List α)
    (elements : Option (List (Except φ (Array UInt8)))) (r : Reader σ ε) (ending : Ending ε φ)
    (before : List (Turn φ α)) (turn : Turn φ α) (after : List (Turn φ α)) : Prop where
  /-- Everything that the calls so far have returned was handed over. -/
  handed_eq : handedIn before = waiting ++ Call.returned format fuel (calledIn before) r
  /-- The consumer wants more. -/
  wanted : (demand.after (handedIn before)).isSome = true
  /-- The input is ended where all elements have been asked for. -/
  all_asked : turn = .finished → elements = some (askedIn before)
  /-- A call that stops is the end. -/
  stopped : ∀ call stop, turn.call? = some call →
    Call.answer (call.run format fuel (Call.runAll format fuel (calledIn before) r).2) =
      .error stop → after = [] ∧ ending = .stopped stop
  /-- A fault of the sequence is the end. -/
  fault : ∀ error, turn = .asked (.error error) → after = [] ∧ ending = .fault error

/-- The first turn is due where no value waits for the consumer. -/
theorem Turn.due_first (hdemand : demand ≠ .atMost 0) {turn : Turn φ α}
    (hall : turn = .finished → elements = some [])
    (hstopped : ∀ call stop, turn.call? = some call →
      Call.answer (call.run format fuel r) = .error stop → turns = [] ∧ ending = .stopped stop)
    (hfault : ∀ error, turn = .asked (.error error) → turns = [] ∧ ending = .fault error) :
    turn.Due format fuel demand [] elements r ending [] turns where
  handed_eq := rfl
  wanted := by
    show (demand.after ([] : List α)).isSome = true
    rw [Demand.after_nil hdemand]
    rfl
  all_asked := hall
  stopped := hstopped
  fault := hfault

section Due

variable {turn : Turn φ α} {before after : List (Turn φ α)}

/-- What is due behind a value is due behind one more. -/
theorem Turn.Due.behind_value {value : α} (hone : demand.after [value] = some demand')
    (h : turn.Due format fuel demand' waiting elements r ending before after) :
    turn.Due format fuel demand (value :: waiting) elements r ending (.handed value :: before)
      after where
  handed_eq := congrArg (value :: ·) h.handed_eq
  wanted := by
    show (demand.after (value :: handedIn before)).isSome = true
    rw [Demand.after_cons_of_more hone]
    exact h.wanted
  all_asked := h.all_asked
  stopped := h.stopped
  fault := h.fault

/-- What is due behind the values of a call is due behind the call. -/
theorem Turn.Due.behind_call {first : Turn φ α} {call : Call} {values : List α} {r' : Reader σ ε}
    {others : Option (List (Except φ (Array UInt8)))} (hcall : first.call? = some call)
    (hfirst : first.value? = none) (hrun : call.run format fuel r = .ok values r')
    (hall : others = some (askedIn before) → elements = some (askedIn (first :: before)))
    (h : turn.Due format fuel demand values others r' ending before after) :
    turn.Due format fuel demand [] elements r ending (first :: before) after := by
  have hhanded : handedIn (first :: before) = handedIn before := List.filterMap_cons_none hfirst
  have hcalled : calledIn (first :: before) = call :: calledIn before :=
    List.filterMap_cons_some hcall
  have hbehind : (Call.runAll format fuel (call :: calledIn before) r).2 =
      (Call.runAll format fuel (calledIn before) r').2 := by
    rw [Call.runAll, hrun]
    rfl
  constructor
  · rw [hhanded, hcalled, List.nil_append, Call.returned_cons_of_ok hrun]
    exact h.handed_eq
  · rw [hhanded]
    exact h.wanted
  · exact fun hfinished => hall (h.all_asked hfinished)
  · rw [hcalled, hbehind]
    exact h.stopped
  · exact h.fault

/-- By induction on the turns: what is not a hand-over is due where it comes. -/
theorem Serving.due (h : Serving format fuel demand waiting elements r turns ending)
    (hdemand : demand ≠ .atMost 0) (hsplit : turns = before ++ turn :: after)
    (hturn : turn.value? = none) :
    turn.Due format fuel demand waiting elements r ending before after := by
  -- The turn is the first one, or it comes behind the first one.
  induction h generalizing before with
  | enough hone =>
    rcases List.cons_eq_append_iff.mp hsplit with ⟨rfl, hfirst⟩ | ⟨before, rfl, hrest⟩
    · obtain ⟨rfl, -⟩ := List.cons.inj hfirst
      cases hturn
    · cases before <;> cases hrest
  | handed hone _ ih =>
    rcases List.cons_eq_append_iff.mp hsplit with ⟨rfl, hfirst⟩ | ⟨before, rfl, hrest⟩
    · obtain ⟨rfl, -⟩ := List.cons.inj hfirst
      cases hturn
    · exact (ih (Demand.ne_zero_of_after hone) hrest).behind_value hone
  | pushed hrun _ ih =>
    rcases List.cons_eq_append_iff.mp hsplit with ⟨rfl, hfirst⟩ | ⟨before, rfl, hrest⟩
    · obtain ⟨rfl, -⟩ := List.cons.inj hfirst
      refine Turn.due_first hdemand nofun (fun call stop hcall hstop => ?_) nofun
      obtain rfl := Option.some.inj hcall
      rw [hrun] at hstop
      cases hstop
    · refine (ih hdemand hrest).behind_call rfl rfl hrun fun hothers => ?_
      rw [Option.some.inj hothers]
      rfl
  | stopped hrun =>
    rcases List.cons_eq_append_iff.mp hsplit with ⟨rfl, hfirst⟩ | ⟨before, rfl, hrest⟩
    · obtain ⟨rfl, rfl⟩ := List.cons.inj hfirst
      refine Turn.due_first hdemand nofun (fun call stop hcall hstop => ⟨rfl, ?_⟩) nofun
      obtain rfl := Option.some.inj hcall
      rw [hrun] at hstop
      rw [Except.error.inj hstop]
    · cases before <;> cases hrest
  | fault =>
    rcases List.cons_eq_append_iff.mp hsplit with ⟨rfl, hfirst⟩ | ⟨before, rfl, hrest⟩
    · obtain ⟨rfl, rfl⟩ := List.cons.inj hfirst
      refine Turn.due_first hdemand nofun (fun call stop hcall _ => ?_) fun error herror =>
        ⟨rfl, ?_⟩
      · cases hcall
      · rw [Except.error.inj (Turn.asked.inj herror)]
    · cases before <;> cases hrest
  | finished hrun _ ih =>
    rcases List.cons_eq_append_iff.mp hsplit with ⟨rfl, hfirst⟩ | ⟨before, rfl, hrest⟩
    · obtain ⟨rfl, -⟩ := List.cons.inj hfirst
      refine Turn.due_first hdemand (fun _ => rfl) (fun call stop hcall hstop => ?_) nofun
      obtain rfl := Option.some.inj hcall
      rw [hrun] at hstop
      cases hstop
    · exact (ih hdemand hrest).behind_call rfl rfl hrun fun hothers => by cases hothers
  | stoppedAtEnd hrun =>
    rcases List.cons_eq_append_iff.mp hsplit with ⟨rfl, hfirst⟩ | ⟨before, rfl, hrest⟩
    · obtain ⟨rfl, rfl⟩ := List.cons.inj hfirst
      refine Turn.due_first hdemand (fun _ => rfl) (fun call stop hcall hstop => ⟨rfl, ?_⟩) nofun
      obtain rfl := Option.some.inj hcall
      rw [hrun] at hstop
      rw [Except.error.inj hstop]
    · cases before <;> cases hrest
  | closed => cases before <;> cases hsplit

end Due

/-- By induction on the turns: the values that calls have returned are handed over in order, as far
as they are wanted. -/
theorem Serving.handedIn_eq (h : Serving format fuel demand waiting elements r turns ending)
    (hdemand : demand ≠ .atMost 0) :
    handedIn turns = demand.taken (waiting ++ Call.returned format fuel (calledIn turns) r) := by
  have htaken (demand : Demand) : demand.taken ([] : List α) = [] := by
    cases demand with
    | all => rfl
    | atMost n => exact List.take_nil
  induction h with
  | enough hone => exact (Demand.taken_cons_of_enough hdemand hone).symm
  | handed hone _ ih =>
    rw [List.cons_append, Demand.taken_cons_of_more hone]
    exact congrArg _ (ih (Demand.ne_zero_of_after hone))
  | @pushed _ bytes _ r _ _ turns _ hrun _ ih =>
    refine (ih hdemand).trans ?_
    rw [← Call.returned_cons_of_ok hrun]
    rfl
  | stopped hrun =>
    show [] = Demand.taken (_ ++ Call.returned format fuel [_] _) _
    rw [Call.returned_of_error hrun]
    exact (htaken _).symm
  | fault => exact (htaken _).symm
  | finished hrun _ ih =>
    refine (ih hdemand).trans ?_
    rw [← Call.returned_cons_of_ok hrun]
    rfl
  | stoppedAtEnd hrun =>
    show [] = Demand.taken (_ ++ Call.returned format fuel [_] _) _
    rw [Call.returned_of_error hrun]
    exact (htaken _).symm
  | closed => exact (htaken _).symm

/-- By induction on the turns: the elements are asked for in order. -/
theorem Serving.askedIn_prefix (h : Serving format fuel demand waiting elements r turns ending) :
    askedIn turns <+: elements.getD [] := by
  induction h with
  | enough _ => exact List.nil_prefix
  | handed _ _ ih => exact ih
  | pushed _ _ ih => exact List.prefix_cons_inj _ |>.mpr ih
  | stopped _ => exact List.prefix_cons_inj _ |>.mpr List.nil_prefix
  | fault => exact List.prefix_cons_inj _ |>.mpr List.nil_prefix
  | finished _ _ ih => exact ih
  | stoppedAtEnd _ => exact List.nil_prefix
  | closed => exact List.nil_prefix

/-- For every rule, every sequence of elements and every consumer that wants something: what `feed`
brings is what is brought when the sequence, the reader and the consumer take turns, and there is
one way to take them. The elements are asked for in order, and the values that the calls return are
handed over in order, as many as are wanted. An element is only asked for, and the input only ended,
where everything returned so far has been handed over and more is wanted. The input is ended behind
the last element, a call that stops is the end, and so is a fault of the sequence. -/
theorem feed_serves_in_turn (format : Format σ ε α) (fuel : Nat) (hdemand : demand ≠ .atMost 0)
    (source : List (Except φ (Array UInt8))) (r : Reader σ ε) :
    ∃ (turns : List (Turn φ α)) (ending : Ending ε φ),
      Serving format fuel demand [] (some source) r turns ending ∧
      (∀ turns' ending', Serving format fuel demand [] (some source) r turns' ending' →
        turns' = turns ∧ ending' = ending) ∧
      feed format fuel demand source r = ⟨handedIn turns, (askedIn turns).length, ending⟩ ∧
      askedIn turns <+: source ∧
      handedIn turns = demand.taken (Call.returned format fuel (calledIn turns) r) ∧
      ∀ before turn after, turns = before ++ turn :: after → turn.value? = none →
        turn.Due format fuel demand [] (some source) r ending before after := by
  obtain ⟨turns, ending, hserving, hfeed⟩ := exists_serving hdemand source r
  refine ⟨turns, ending, hserving, fun _ _ => hserving.unique, hfeed, hserving.askedIn_prefix,
    hserving.handedIn_eq hdemand, fun _ _ _ => hserving.due hdemand⟩

/-- Two bytes are wanted of the chunks "a" and "bc". The second byte of the last chunk is left, and
the sequence is not asked for more, so that its fault goes unnoticed. -/
theorem feed_serves_in_turn_two :
    let format : Format Unit Mismatch UInt8 := { rule := Parser.byte (fun _ => true) "a byte" }
    let source : List (Except String (Array UInt8)) :=
      [.ok #[0x61], .ok #[0x62, 0x63], .error "gone"]
    Demand.atMost 2 ≠ .atMost 0 ∧
      ∃ (turns : List (Turn String UInt8)) (ending : Ending Mismatch String),
        Serving format 3 (.atMost 2) [] (some source) (Reader.new ()) turns ending ∧
          handedIn turns = [0x61, 0x62] ∧ (askedIn turns).length = 2 ∧ ending = .served := by
  intro format source
  have hdemand : Demand.atMost 2 ≠ .atMost 0 := by decide
  have hfeed : feed format 3 (.atMost 2) source (Reader.new ()) =
      ⟨[0x61, 0x62], 2, .served⟩ := by
    decide +kernel
  obtain ⟨turns, ending, hserving, -, hserved, -⟩ :=
    feed_serves_in_turn format 3 hdemand source (Reader.new ())
  obtain ⟨hhanded, hasked, hending⟩ := Served.mk.inj (hserved.symm.trans hfeed)
  exact ⟨hdemand, turns, ending, hserving, hhanded, hasked, hending⟩

end Feed

end StreamGrammar.Stream
