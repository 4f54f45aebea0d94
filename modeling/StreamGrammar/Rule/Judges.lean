import StreamGrammar.Rule.Basic

/-!
# Ready-made judges

Ways to end a repetition. Each one sees the elements that have settled in the current run.
-/

namespace StreamGrammar.Rule.Judge

/-- The values among settled elements. -/
def values (items : Array (Except Datum Datum)) : List Datum :=
  items.toList.filterMap fun
    | .ok value => some value
    | .error _ => none

/-- A settled element as a value. -/
def itemDatum : Except Datum Datum → Datum
  | .ok value => .record [("ok", .bool true), ("value", value)]
  | .error error => .record [("ok", .bool false), ("error", error)]

/-- The settled elements as a list. -/
def itemsDatum (items : Array (Except Datum Datum)) : Datum :=
  .list (items.toList.map itemDatum)

/-- Gathers values until an element rejects. -/
def collect : Rule.Judge := fun items =>
  match items.back? with
  | some (.error _) => .accepted (.list (values items))
  | _ => .undecided

/-- Gathers values, and rejects with the first element that rejects. -/
def strict : Rule.Judge := fun items =>
  match items.back? with
  | some (.error error) => .rejected error
  | _ => .undecided

/-- Gathers `n` elements, whether they match or not. -/
def take (n : Int) : Rule.Judge := fun items =>
  if n ≤ items.size then .accepted (itemsDatum items) else .undecided

/-- Counts values until an element rejects, and rejects at the `n`-th value. -/
def limit (n : Int) : Rule.Judge := fun items =>
  match items.back? with
  | some (.error _) => .accepted (.int (items.size - 1 : Nat))
  | some (.ok value) =>
    if n ≤ items.size then .rejected (.record [("limit", .int n), ("last", value)]) else .undecided
  | none => .undecided

/-- Answers with the given verdicts in order, and then accepts with the elements so far. -/
def script (answers : Array (Verdict Datum Datum)) : Rule.Judge := fun items =>
  match answers[items.size - 1]? with
  | some answer => answer
  | none => .accepted (.record [("items", itemsDatum items)])

end StreamGrammar.Rule.Judge
