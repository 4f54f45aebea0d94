import StreamGrammar.Parser.Terminal
import Mathlib.Data.List.Forall2
import Mathlib.Data.List.DropRight

/-!
# Recognizers

A `Recognizer` says what is made of some bytes, without a cursor that has to be moved and put back
and without fuel. There is one for every combinator that header rules use. Their laws bring a
recognizer into the form in which it is understood best, with values made where they are needed.
-/

namespace StreamGrammar

/-- What is made of some bytes, given whether these are all. If they match, it is a value and the
bytes that are left. -/
abbrev Recognizer (α : Type) := Bool → List UInt8 → Verdict Unit (α × List UInt8)

namespace Recognizer

variable {α β : Type}

/-- Takes nothing. -/
def accept (value : α) : Recognizer α := fun _ bytes => .accepted (value, bytes)

/-- The answer where a byte is missing. -/
def missing (ended : Bool) : Verdict Unit α := if ended then .rejected () else .undecided

/-- Takes a byte that passes `test`. -/
def byte (test : UInt8 → Bool) : Recognizer UInt8
  | ended, [] => missing ended
  | _, value :: rest => if test value then .accepted (value, rest) else .rejected ()

/-- Takes the characters of a text. -/
def spelled (l : Literal) : List UInt8 → Recognizer Unit
  | [], _, bytes => .accepted ((), bytes)
  | _ :: _, ended, [] => missing ended
  | code :: codes, ended, value :: rest =>
    if l.agrees value code then spelled l codes ended rest else .rejected ()

/-- Applies `f` to the value. -/
def map (f : α → β) (r : Recognizer α) : Recognizer β := fun ended bytes =>
  (r ended bytes).map fun (value, rest) => (f value, rest)

/-- Takes what `r` takes, and then what the recognizer takes that `next` makes of the value. -/
def andThen (r : Recognizer α) (next : α → Recognizer β) : Recognizer β := fun ended bytes =>
  match r ended bytes with
  | .accepted (value, rest) => next value ended rest
  | .undecided => .undecided
  | .rejected () => .rejected ()

/-- All of several recognizers, one after the other. -/
def inOrder : List (Recognizer α) → Recognizer (List α)
  | [] => accept []
  | r :: rs => r.andThen fun value => (inOrder rs).andThen fun values => accept (value :: values)

/-- Takes what `r` takes, or if `r` rejects, what `other` takes. -/
def orElse (r other : Recognizer α) : Recognizer α := fun ended bytes =>
  match r ended bytes with
  | .rejected () => other ended bytes
  | verdict => verdict

/-- Yields the bytes that `r` takes. -/
def captured (r : Recognizer α) : Recognizer String := fun ended bytes =>
  (r ended bytes).map fun (_, rest) =>
    (Text.latin (bytes.take (bytes.length - rest.length)), rest)

/-- Takes what `r` takes, as often as there is something to take. -/
def many (r : Recognizer α) (ended : Bool) (bytes : List UInt8) :
    Verdict Unit (List α × List UInt8) :=
  match r ended bytes with
  | .accepted (value, rest) =>
    if rest.length < bytes.length then
      (many r ended rest).map fun (values, rest) => (value :: values, rest)
    else .rejected ()
  | .undecided => .undecided
  | .rejected () => .accepted ([], bytes)
termination_by bytes.length

/-- Takes what `r` takes, at least once. -/
def atLeastOne (r : Recognizer α) : Recognizer (List α) :=
  r.andThen fun value => map (value :: ·) (many r)

/-- Takes what `r` takes, with what `separator` takes between. -/
def sepBy (r : Recognizer α) (separator : Recognizer β) : Recognizer (List α) :=
  r.andThen fun first => andThen (many (separator.andThen fun _ => r)) fun others =>
    accept (first :: others)

/-- Takes the longest run of bytes that pass `test`, at least one. On open input there may be more
of them at the end. -/
def munch (test : UInt8 → Bool) : Recognizer String := fun ended bytes =>
  if bytes.dropWhile test = [] ∧ ended = false then .undecided
  else if bytes.takeWhile test = [] then .rejected ()
  else .accepted (Text.latin (bytes.takeWhile test), bytes.dropWhile test)

/-! ## Laws -/

section Laws

variable {γ : Type} (r : Recognizer α)

@[simp] theorem map_accept (f : α → β) (value : α) : (accept value).map f = accept (f value) := rfl

@[simp] theorem map_map (f : α → β) (g : β → γ) :
    (r.map f).map g = r.map fun value => g (f value) := by
  funext ended bytes
  unfold map
  dsimp only
  cases r ended bytes <;> rfl

@[simp] theorem map_andThen (f : α → β) (next : β → Recognizer γ) :
    (r.map f).andThen next = r.andThen fun value => next (f value) := by
  funext ended bytes
  unfold map andThen
  dsimp only
  cases r ended bytes <;> rfl

@[simp] theorem andThen_map (next : α → Recognizer β) (f : β → γ) :
    (r.andThen next).map f = r.andThen fun value => (next value).map f := by
  funext ended bytes
  unfold map andThen
  dsimp only
  cases r ended bytes <;> rfl

@[simp] theorem andThen_accept (f : α → β) :
    (r.andThen fun value => accept (f value)) = r.map f := by
  funext ended bytes
  unfold map andThen
  dsimp only
  cases r ended bytes <;> rfl

@[simp] theorem map_orElse (other : Recognizer α) (f : α → β) :
    (r.orElse other).map f = (r.map f).orElse (other.map f) := by
  funext ended bytes
  unfold map orElse
  dsimp only
  cases r ended bytes <;> rfl

@[simp] theorem captured_map (f : α → β) : (r.map f).captured = r.captured := by
  funext ended bytes
  unfold map captured
  dsimp only
  cases r ended bytes <;> rfl

/-- Where the bytes that were taken are not used, they need not be yielded. -/
@[simp] theorem captured_andThen (next : Recognizer β) :
    (r.captured.andThen fun _ => next) = r.andThen fun _ => next := by
  funext ended bytes
  unfold captured andThen
  dsimp only
  cases r ended bytes <;> rfl

/-- By induction on the bytes that are left. -/
theorem many_map (f : α → β) : many (r.map f) = map (List.map f) (many r) := by
  funext ended bytes
  induction hn : bytes.length using Nat.strongRecOn generalizing bytes with
  | ind n ih =>
    subst hn
    have hmap : r.map f ended bytes =
        (r ended bytes).map fun (value, rest) => (f value, rest) := rfl
    change many (r.map f) ended bytes =
      (many r ended bytes).map fun (values, rest) => (values.map f, rest)
    rw [many, many, hmap]
    rcases r ended bytes with ⟨value, rest⟩ | _ | _
    · dsimp only [Verdict.map]
      split
      · next hlt =>
        rw [ih rest.length hlt rest rfl]
        unfold map
        dsimp only
        cases r.many ended rest <;> rfl
      · rfl
    · rfl
    · rfl

@[simp] theorem atLeastOne_map (f : α → β) :
    (r.map f).atLeastOne = r.atLeastOne.map (List.map f) := by
  unfold atLeastOne
  rw [many_map]
  simp

@[simp] theorem sepBy_map (separator : Recognizer γ) (f : α → β) :
    (r.map f).sepBy separator = (r.sepBy separator).map (List.map f) := by
  unfold sepBy
  have hnext : (separator.andThen fun _ => r.map f) = (separator.andThen fun _ => r).map f :=
    (andThen_map separator _ f).symm
  rw [hnext, many_map]
  simp

/-- What a separator yields is not used. -/
theorem sepBy_congr {separator : Recognizer β} {separator' : Recognizer γ}
    (h : (separator.andThen fun _ => r) = separator'.andThen fun _ => r) :
    r.sepBy separator = r.sepBy separator' := by
  unfold sepBy
  rw [h]

/-- A byte that passes one of two tests. -/
theorem orElse_byte (test test' : UInt8 → Bool) :
    (byte test).orElse (byte test') = byte fun value => test value || test' value := by
  funext ended bytes
  unfold orElse
  cases bytes with
  | nil => cases ended <;> rfl
  | cons value rest =>
    by_cases htest : test value = true
    · simp [byte, htest]
    · simp [byte, htest]

/-- A text of one character is a single byte. -/
theorem spelled_singleton (l : Literal) (code : UInt8) :
    spelled l [code] = (byte (l.agrees · code)).map fun _ => () := by
  funext ended bytes
  cases bytes with
  | nil =>
    unfold spelled byte map missing
    cases ended <;> rfl
  | cons value rest =>
    unfold spelled byte map
    dsimp only
    split <;> rfl

/-- As many bytes as there are that pass `test` are taken. -/
theorem many_byte (test : UInt8 → Bool) (ended : Bool) (bytes : List UInt8) :
    many (byte test) ended bytes =
      if bytes.dropWhile test = [] ∧ ended = false then .undecided
      else .accepted (bytes.takeWhile test, bytes.dropWhile test) := by
  induction bytes with
  | nil =>
    rw [many, byte, missing]
    cases ended <;> rfl
  | cons value rest ih =>
    rw [many, byte]
    cases htest : test value with
    | true =>
      have hlt : rest.length < (value :: rest).length := Nat.lt_succ_self _
      rw [if_pos rfl, List.dropWhile_cons_of_pos htest, List.takeWhile_cons_of_pos htest]
      dsimp only
      rw [if_pos hlt, ih]
      split <;> rfl
    | false =>
      have hne : ¬ test value = true := by rw [htest]; exact Bool.false_ne_true
      rw [if_neg Bool.false_ne_true, List.dropWhile_cons_of_neg hne, List.takeWhile_cons_of_neg hne]
      rfl

/-- The bytes that are taken are those of the longest run. -/
theorem captured_atLeastOne_byte (test : UInt8 → Bool) :
    (byte test).atLeastOne.captured = munch test := by
  funext ended bytes
  unfold atLeastOne captured munch andThen map
  cases bytes with
  | nil =>
    rw [byte, missing]
    cases ended <;> rfl
  | cons value rest =>
    rw [byte]
    cases htest : test value with
    | true =>
      have htake : (value :: rest).take
          ((value :: rest).length - (rest.dropWhile test).length) =
            value :: rest.takeWhile test := by
        have hlength :
            (rest.takeWhile test).length + (rest.dropWhile test).length = rest.length := by
          rw [← List.length_append, List.takeWhile_append_dropWhile]
        have hcount : (value :: rest).length - (rest.dropWhile test).length =
            (value :: rest.takeWhile test).length := by
          rw [List.length_cons, List.length_cons]
          omega
        have hsplit : value :: rest = (value :: rest.takeWhile test) ++ rest.dropWhile test := by
          rw [List.cons_append, List.takeWhile_append_dropWhile]
        rw [hcount]
        conv_lhs => rw [hsplit]
        exact List.take_left' rfl
      rw [if_pos rfl, List.dropWhile_cons_of_pos htest, List.takeWhile_cons_of_pos htest]
      dsimp only
      rw [many_byte]
      split
      · rfl
      · rw [if_neg (List.cons_ne_nil _ _)]
        dsimp only [Verdict.map]
        rw [htake]
    | false =>
      have hne : ¬ test value = true := by rw [htest]; exact Bool.false_ne_true
      rw [if_neg Bool.false_ne_true, List.dropWhile_cons_of_neg hne, List.takeWhile_cons_of_neg hne,
        if_neg (fun h => List.cons_ne_nil _ _ h.1), if_pos rfl]
      rfl

end Laws

/-! ## Matches -/

variable {r other : Recognizer α} {ended : Bool} {bytes rest : List UInt8}

theorem map_eq_accepted_iff {f : α → β} {value : β} :
    r.map f ended bytes = .accepted (value, rest) ↔
      ∃ value', r ended bytes = .accepted (value', rest) ∧ f value' = value := by
  unfold map
  rcases r ended bytes with ⟨value', rest'⟩ | _ | _
  · simp [Verdict.map, and_comm]
  · simp [Verdict.map]
  · simp [Verdict.map]

theorem map_eq_rejected_iff {f : α → β} :
    r.map f ended bytes = .rejected () ↔ r ended bytes = .rejected () := by
  unfold map
  rcases r ended bytes with ⟨value', rest'⟩ | _ | _ <;> simp [Verdict.map]

/-- The bytes that are taken are yielded. -/
theorem eq_of_captured {word : List UInt8} {text : String}
    (h : r.captured ended bytes = .accepted (text, rest)) (hword : bytes = word ++ rest) :
    text = Text.latin word := by
  unfold captured at h
  rcases hverdict : r ended bytes with ⟨value, rest'⟩ | _ | _ <;> rw [hverdict] at h
  · obtain ⟨rfl, rfl⟩ := Prod.mk.inj (Verdict.accepted.inj h)
    rw [hword, List.length_append, Nat.add_sub_cancel, List.take_left' rfl]
  · cases h
  · cases h

theorem andThen_eq_accepted_iff {next : α → Recognizer β} {value : β} :
    r.andThen next ended bytes = .accepted (value, rest) ↔
      ∃ first between, r ended bytes = .accepted (first, between) ∧
        next first ended between = .accepted (value, rest) := by
  unfold andThen
  rcases r ended bytes with ⟨first, between⟩ | _ | _
  · simp
  · simp
  · simp

theorem orElse_eq_accepted_iff {value : α} :
    r.orElse other ended bytes = .accepted (value, rest) ↔
      r ended bytes = .accepted (value, rest) ∨
        r ended bytes = .rejected () ∧ other ended bytes = .accepted (value, rest) := by
  unfold orElse
  rcases r ended bytes with ⟨first, between⟩ | _ | _
  · simp
  · simp
  · simp

theorem byte_eq_accepted_iff {test : UInt8 → Bool} {value : UInt8} :
    byte test ended bytes = .accepted (value, rest) ↔
      bytes = value :: rest ∧ test value = true := by
  cases bytes with
  | nil => cases ended <;> simp [byte, missing]
  | cons first others =>
    rw [byte]
    split
    · next htest =>
      simp only [Verdict.accepted.injEq, Prod.mk.injEq, List.cons.injEq]
      constructor
      · rintro ⟨rfl, rfl⟩
        exact ⟨⟨rfl, rfl⟩, htest⟩
      · exact fun h => h.1
    · next htest =>
      simp only [reduceCtorEq, List.cons.injEq, false_iff]
      rintro ⟨⟨rfl, rfl⟩, hvalue⟩
      exact htest hvalue

/-- A text is taken whose characters agree with those that are expected. -/
theorem spelled_eq_accepted_iff {l : Literal} {codes : List UInt8} {value : Unit} :
    spelled l codes ended bytes = .accepted (value, rest) ↔
      ∃ word, bytes = word ++ rest ∧ List.Forall₂ (l.agrees · · = true) word codes := by
  induction codes generalizing bytes with
  | nil =>
    simp only [spelled, List.forall₂_nil_right_iff]
    constructor
    · intro h
      obtain ⟨-, rfl⟩ := Prod.mk.inj (Verdict.accepted.inj h)
      exact ⟨[], rfl, rfl⟩
    · rintro ⟨_, rfl, rfl⟩
      rfl
  | cons code codes ih =>
    simp only [List.forall₂_cons_right_iff]
    cases bytes with
    | nil =>
      constructor
      · intro h
        cases ended <;> cases h
      · rintro ⟨_, hbytes, first, word, -, -, rfl⟩
        cases hbytes
    | cons first others =>
      rw [spelled]
      split
      · next hagrees =>
        rw [ih]
        constructor
        · rintro ⟨word, rfl, hword⟩
          exact ⟨first :: word, rfl, first, word, hagrees, hword, rfl⟩
        · rintro ⟨_, hbytes, first', word, -, hword, rfl⟩
          exact ⟨word, (List.cons.inj hbytes).2, hword⟩
      · next hagrees =>
        constructor
        · nofun
        · rintro ⟨_, hbytes, first', word, hfirst, -, rfl⟩
          exact absurd ((List.cons.inj hbytes).1 ▸ hfirst) hagrees

/-- A run of bytes is taken as a whole: what is left does not go on with one of them. On open input
something has to be left for this to be known. -/
theorem munch_eq_accepted_iff {test : UInt8 → Bool} {text : String} :
    munch test ended bytes = .accepted (text, rest) ↔
      ∃ word, word ≠ [] ∧ (∀ b ∈ word, test b = true) ∧ rest.dropWhile test = rest ∧
        (rest = [] → ended = true) ∧ bytes = word ++ rest ∧ Text.latin word = text := by
  unfold munch
  constructor
  · intro h
    split at h
    · cases h
    · next hopen =>
      split at h
      · cases h
      · next hsome =>
        obtain ⟨rfl, rfl⟩ := Prod.mk.inj (Verdict.accepted.inj h)
        refine ⟨bytes.takeWhile test, hsome, fun b hb => List.mem_takeWhile_imp hb,
          List.dropWhile_idempotent _ _, fun hnil => ?_, List.takeWhile_append_dropWhile.symm, rfl⟩
        exact Bool.not_eq_false _ |>.mp fun hended => hopen ⟨hnil, hended⟩
  · rintro ⟨word, hne, hword, hrest, hended, rfl, rfl⟩
    have hnone : rest.takeWhile test = [] := by
      have hsplit := List.takeWhile_append_dropWhile (p := test) (l := rest)
      rw [hrest] at hsplit
      exact List.append_left_eq_self.mp hsplit
    rw [List.dropWhile_append_of_pos hword, List.takeWhile_append_of_pos hword, hrest, hnone,
      List.append_nil, if_neg hne, if_neg]
    rintro ⟨hnil, hopen⟩
    rw [hended hnil] at hopen
    cases hopen

/-! ## Repeated matches -/

/-- At least `n` bytes are taken with every match. -/
def Takes (r : Recognizer α) (n : Nat) : Prop :=
  ∀ ⦃ended : Bool⦄ ⦃bytes rest : List UInt8⦄ ⦃value : α⦄,
    r ended bytes = .accepted (value, rest) → rest.length + n ≤ bytes.length

theorem takes_byte (test : UInt8 → Bool) : (byte test).Takes 1 := by
  intro ended bytes rest value h
  obtain ⟨rfl, -⟩ := byte_eq_accepted_iff.mp h
  exact Nat.le_refl _

theorem Takes.map {n : Nat} (hr : r.Takes n) (f : α → β) : (r.map f).Takes n := by
  intro ended bytes rest value h
  obtain ⟨value', hvalue', -⟩ := map_eq_accepted_iff.mp h
  exact hr hvalue'

theorem Takes.andThen {next : α → Recognizer β} {m n : Nat} (hr : r.Takes m)
    (hnext : ∀ value, (next value).Takes n) : (r.andThen next).Takes (m + n) := by
  intro ended bytes rest value h
  obtain ⟨first, between, hfirst, hrest⟩ := andThen_eq_accepted_iff.mp h
  have hle := hr hfirst
  have hle' := hnext first hrest
  omega

/-- One more match and then the others, if the match has taken something. -/
theorem many_of_accepted (hr : r.Takes 1) {value : α}
    (h : r ended bytes = .accepted (value, rest)) :
    many r ended bytes =
      (many r ended rest).map fun (values, rest) => (value :: values, rest) := by
  have hlength := hr h
  rw [many, h]
  exact if_pos hlength

/-- There is nothing to take where the first match is missing. -/
theorem many_eq_accepted_nil_iff :
    many r ended bytes = .accepted ([], rest) ↔ r ended bytes = .rejected () ∧ bytes = rest := by
  rw [many]
  rcases r ended bytes with ⟨value, between⟩ | _ | _
  · dsimp only
    split
    · rcases r.many ended between with _ | _ | _ <;> simp [Verdict.map]
    · simp
  · simp
  · simp

theorem many_eq_accepted_cons_iff (hr : r.Takes 1) {value : α} {values : List α} :
    many r ended bytes = .accepted (value :: values, rest) ↔
      ∃ between, r ended bytes = .accepted (value, between) ∧
        many r ended between = .accepted (values, rest) := by
  constructor
  · intro hmany
    rcases h : r ended bytes with ⟨first, between⟩ | _ | _
    · rw [many_of_accepted hr h] at hmany
      rcases hothers : r.many ended between with ⟨others, last⟩ | _ | _ <;> rw [hothers] at hmany
      · obtain ⟨hvalues, rfl⟩ := Prod.mk.inj (Verdict.accepted.inj hmany)
        obtain ⟨rfl, rfl⟩ := List.cons.inj hvalues
        exact ⟨between, rfl, hothers⟩
      · cases hmany
      · cases hmany
    · rw [many, h] at hmany
      cases hmany
    · rw [many, h] at hmany
      cases hmany
  · rintro ⟨between, h, hothers⟩
    rw [many_of_accepted hr h, hothers]
    rfl

end Recognizer

end StreamGrammar
