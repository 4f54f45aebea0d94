/-!
# Verdicts

What a parser says about the input it was shown. Input may still be arriving, so there are three
answers and not two: the input matches, it does not match, or the part that has arrived does not
decide. Only the third may change when more input arrives.
-/

namespace StreamGrammar

/-- The answer of one parsing attempt. -/
inductive Verdict (ε α : Type) where
  /-- The input matches and yields `value`. -/
  | accepted (value : α)
  /-- The input that has arrived does not decide; the attempt is made again once there is more. -/
  | undecided
  /-- The input does not match, for the reason `error`. -/
  | rejected (error : ε)
  deriving DecidableEq

namespace Verdict

variable {ε φ α β : Type}

/-- Whether the input matched. -/
def isAccepted : Verdict ε α → Bool
  | accepted _ => true
  | _ => false

/-- Whether the input that has arrived does not decide. -/
def isUndecided : Verdict ε α → Bool
  | undecided => true
  | _ => false

/-- Whether the input does not match. -/
def isRejected : Verdict ε α → Bool
  | rejected _ => true
  | _ => false

/-- The value or the error of a final answer, and nothing while the answer is open. -/
def settled? : Verdict ε α → Option (Except ε α)
  | accepted value => some (.ok value)
  | undecided => none
  | rejected error => some (.error error)

/-- Applies `f` to the value of a match. -/
def map (f : α → β) : Verdict ε α → Verdict ε β
  | accepted value => accepted (f value)
  | undecided => undecided
  | rejected error => rejected error

/-- Applies `f` to the reason of a mismatch. -/
def mapError (f : ε → φ) : Verdict ε α → Verdict φ α
  | accepted value => accepted value
  | undecided => undecided
  | rejected error => rejected (f error)

/-- An answer is open exactly when it has neither a value nor an error. -/
theorem settled?_eq_none_iff (v : Verdict ε α) : v.settled? = none ↔ v.isUndecided = true := by
  cases v <;> simp [settled?, isUndecided]

theorem isUndecided_iff (v : Verdict ε α) : v.isUndecided = true ↔ v = .undecided := by
  cases v <;> simp [isUndecided]

@[simp] theorem isAccepted_map (f : α → β) (v : Verdict ε α) :
    (v.map f).isAccepted = v.isAccepted := by cases v <;> rfl

@[simp] theorem isAccepted_mapError (f : ε → φ) (v : Verdict ε α) :
    (v.mapError f).isAccepted = v.isAccepted := by cases v <;> rfl

end Verdict

end StreamGrammar
