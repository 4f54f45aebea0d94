import StreamGrammar.Stream.Reader

/-!
# Reading from a sequence of chunks

The values of a stream whose chunks come from a sequence that is asked for one chunk at a time. A
chunk is asked for only when all values of the chunks before it have been handed over, so a consumer
that has enough leaves the rest of the sequence untouched. The sequence itself may fail.
-/

namespace StreamGrammar.Stream

/-- How the handing over of values ended. -/
inductive Ending (ε φ : Type) where
  /-- All values were handed over, or as many as were wanted. -/
  | served
  /-- The reader brought no further values. -/
  | stopped (stop : Stop ε)
  /-- The sequence of chunks failed. -/
  | fault (error : φ)
  deriving DecidableEq

/-- What a consumer got. -/
structure Served (ε φ α : Type) where
  /-- The values, in order. -/
  values : List α
  /-- The number of elements of the sequence that were asked for. -/
  pulled : Nat
  /-- How it ended. -/
  ending : Ending ε φ
  deriving DecidableEq

/-- How many more values a consumer wants. -/
inductive Demand where
  /-- As many as there are. -/
  | all
  /-- At most `n`. -/
  | atMost (n : Nat)
  deriving DecidableEq

namespace Demand

variable {α : Type}

/-- The values that a consumer takes of those that are there. -/
def taken (values : List α) : Demand → List α
  | all => values
  | atMost n => values.take n

/-- What a consumer wants after it was offered values; nothing once it has enough. -/
def after (values : List α) : Demand → Option Demand
  | all => some all
  | atMost n => if n ≤ values.length then none else some (atMost (n - values.length))

end Demand

variable {σ ε φ α : Type}

/-- Reads from a sequence of chunks until the consumer has what it wants. -/
def feed (format : Format σ ε α) (fuel : Nat) :
    Demand → List (Except φ (Array UInt8)) → Reader σ ε → Served ε φ α
  | demand, [], reader =>
    match Reading.finish format fuel reader with
    | .ok values _ => ⟨demand.taken values, 0, .served⟩
    | .error stop _ => ⟨[], 0, .stopped stop⟩
  | _, .error error :: _, _ => ⟨[], 1, .fault error⟩
  | demand, .ok bytes :: chunks, reader =>
    match Reading.push format fuel bytes reader with
    | .error stop _ => ⟨[], 1, .stopped stop⟩
    | .ok values reader =>
      match demand.after values with
      | none => ⟨demand.taken values, 1, .served⟩
      | some demand =>
        let rest := feed format fuel demand chunks reader
        ⟨values ++ rest.values, rest.pulled + 1, rest.ending⟩

end StreamGrammar.Stream
