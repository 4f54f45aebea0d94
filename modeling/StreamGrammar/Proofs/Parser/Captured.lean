import StreamGrammar.Proofs.Input.Unread
import StreamGrammar.Proofs.Parser.Separated

/-!
# What was matched, put together from its parts

A capture yields the input from where it started to where its body left the cursor
(`run_captured_of_shows`). The same text can be had from captures of the parts of the body. Then the
two sides run alike step by step, and all that has to be seen is how the text grows: a parser
`Spells` another one if it runs like it and its values have as their text what was moved over,
behind what had been moved over before. So it is for a capture and its body, and this carries over
to what is built of parsers.
-/

namespace StreamGrammar

open Input (Cursor)

namespace Text

theorem latin_append (front back : List UInt8) :
    latin (front ++ back) = latin front ++ latin back := by
  rw [latin, List.map_append, String.ofList_append]
  rfl

/-- The text of the input from one offset to another one. -/
def excerpt (input : List UInt8) (low high : Nat) : String := latin ((input.take high).drop low)

theorem latinBytes_excerpt (input : List UInt8) (low high : Nat) :
    latinBytes (excerpt input low high) = (input.take high).drop low := latinBytes_latin _

theorem excerpt_self (input : List UInt8) (n : Nat) : excerpt input n n = "" := by
  rw [excerpt, List.drop_eq_nil_of_le (List.length_take_le n input)]
  rfl

theorem excerpt_append (input : List UInt8) {low middle high : Nat} (hlow : low ≤ middle)
    (hhigh : middle ≤ high) :
    excerpt input low middle ++ excerpt input middle high = excerpt input low high := by
  have hsplit : (input.take high).drop low =
      (input.take middle).drop low ++ (input.take high).drop middle := by
    calc (input.take high).drop low
      _ = ((input.take high).drop low).take (middle - low) ++
          ((input.take high).drop low).drop (middle - low) := (List.take_append_drop _ _).symm
      _ = (input.take middle).drop low ++ (input.take high).drop middle := by
        rw [List.drop_drop, Nat.add_sub_cancel' hlow, ← List.drop_take, List.take_take,
          Nat.min_eq_left hhigh]
  rw [excerpt, excerpt, ← latin_append, ← hsplit]
  rfl

end Text

namespace Parser

variable {σ ε φ α β γ δ : Type}

/-- A capture runs like its body, and yields what was moved over. -/
theorem run_captured_of_shows {p : Parser σ ε α} (hp : p.Keeps Cursor.Onward) {s : Scanner σ}
    {input : List UInt8} (hs : s.cursor.Shows input) :
    (captured p).run s =
      match p.run s with
      | .ok verdict t =>
        .ok (verdict.map fun _ => Text.excerpt input s.cursor.position t.cursor.position) t
      | .error halt t => .error halt t := by
  rw [run_captured]
  rcases hrun : p.run s with ⟨value | _ | error, t⟩ | _
  · have hslice := hs.slice_onward (hp.ok hs.toInRange hrun)
    rw [← List.drop_take] at hslice
    dsimp only
    rw [hslice]
    rfl
  · rfl
  · rfl
  · rfl

/-! ## Runs that spell what they move over -/

/-- Of two runs from `c` on, the second one is like the first. Where they match, its value has as
its text `before` and what was moved over. -/
inductive Spelled (input : List UInt8) (c : Cursor) (before : String) (text : β → String) :
    EStateM.Result Halt (Scanner σ) (Verdict ε α) →
    EStateM.Result Halt (Scanner σ) (Verdict ε β) → Prop
  | accepted {value : α} {value' : β} {t : Scanner σ} : c.Onward t.cursor →
      text value' = before ++ Text.excerpt input c.position t.cursor.position →
      Spelled input c before text (.ok (.accepted value) t) (.ok (.accepted value') t)
  | undecided (t : Scanner σ) :
      Spelled input c before text (.ok .undecided t) (.ok .undecided t)
  | rejected (error : ε) (t : Scanner σ) :
      Spelled input c before text (.ok (.rejected error) t) (.ok (.rejected error) t)
  | halted (halt : Halt) (t : Scanner σ) :
      Spelled input c before text (.error halt t) (.error halt t)

/-- Wherever `p` runs, `q` runs like it and spells what is moved over, behind `before`. -/
def Spells (before : String) (text : β → String) (q : Parser σ ε β) (p : Parser σ ε α) : Prop :=
  ∀ ⦃input : List UInt8⦄ ⦃s : Scanner σ⦄, s.cursor.Shows input →
    Spelled input s.cursor before text (p.run s) (q.run s)

theorem spells_captured {p : Parser σ ε α} (hp : p.Keeps Cursor.Onward) :
    Spells "" id (captured p) p := by
  intro input s hs
  rw [run_captured_of_shows hp hs]
  rcases hrun : p.run s with ⟨value | _ | error, t⟩ | ⟨halt, t⟩
  · exact .accepted (hp.ok hs.toInRange hrun) String.empty_append.symm
  · exact .undecided t
  · exact .rejected error t
  · exact .halted halt t

/-- The text of several values in a row. -/
def spelling (text : β → String) (values : List β) : String := String.join (values.map text)

theorem spelling_cons (text : β → String) (value : β) (values : List β) :
    spelling text (value :: values) = text value ++ spelling text values := String.join_cons

theorem spelling_push (text : β → String) (values : Array β) (value : β) :
    spelling text (values.push value).toList = spelling text values.toList ++ text value := by
  rw [Array.toList_push, spelling, List.map_append, String.join_append]
  simp [spelling]

namespace Spells

variable {before : String} {text : β → String} {text' : δ → String}
variable {p : Parser σ ε α} {q : Parser σ ε β}

/-- What spells a parser has as its text what a capture of it yields. -/
theorem run_captured_eq (h : Spells "" text q p) {s : Scanner σ} {input : List UInt8}
    (hs : s.cursor.Shows input) : (captured p).run s = (q.map text).run s := by
  have hspelled := h hs
  rw [run_captured, run_map]
  generalize p.run s = run at hspelled
  generalize q.run s = run' at hspelled
  cases hspelled with
  | @accepted value value' t honward htext =>
    have hslice := hs.slice_onward honward
    rw [← List.drop_take] at hslice
    dsimp only
    rw [hslice, Verdict.map, htext, String.empty_append]
    rfl
  | undecided t => rfl
  | rejected error t => rfl
  | halted halt t => rfl

theorem map_left {f : β → δ} {before' : String}
    (hf : ∀ value rest, text value = before ++ rest → text' (f value) = before' ++ rest)
    (h : Spells before text q p) : Spells before' text' (q.map f) p := by
  intro input s hs
  have hspelled := h hs
  rw [run_map]
  generalize p.run s = run at hspelled
  generalize q.run s = run' at hspelled
  cases hspelled with
  | accepted honward htext => exact .accepted honward (hf _ _ htext)
  | undecided t => exact .undecided t
  | rejected error t => exact .rejected error t
  | halted halt t => exact .halted halt t

theorem map_right (f : α → γ) (h : Spells before text q p) : Spells before text q (p.map f) := by
  intro input s hs
  have hspelled := h hs
  rw [run_map]
  generalize p.run s = run at hspelled
  generalize q.run s = run' at hspelled
  cases hspelled with
  | accepted honward htext => exact .accepted honward htext
  | undecided t => exact .undecided t
  | rejected error t => exact .rejected error t
  | halted halt t => exact .halted halt t

theorem accept (value : α) (value' : β) :
    Spells (text value') text (accept value' : Parser σ ε β) (accept value : Parser σ ε α) := by
  intro input s hs
  refine .accepted (.refl hs.toInRange) ?_
  rw [Text.excerpt_self, String.append_empty]

/-- An empty list spells nothing. -/
theorem accept_nil : Spells "" (spelling text) (Parser.accept [] : Parser σ ε (List β))
    (Parser.accept [] : Parser σ ε (List α)) := @accept _ _ _ _ (spelling text) [] []

theorem reject (error : ε) :
    Spells before text (reject error : Parser σ ε β) (reject error : Parser σ ε α) :=
  fun _ s _ => .rejected error s

/-- What follows a match has the text of the match before it. -/
theorem settle {f : Except ε α → Parser σ φ γ} {g : Except ε β → Parser σ φ δ}
    (h : Spells "" text q p) (hp : p.Rewinds Verdict.isAccepted)
    (hok : ∀ value value', Spells (before ++ text value') text' (g (.ok value')) (f (.ok value)))
    (herror : ∀ error, Spells before text' (g (.error error)) (f (.error error))) :
    Spells before text' (q.settle g) (p.settle f) := by
  intro input s hs
  have hspelled := h hs
  rw [run_settle, run_settle]
  generalize hrun : p.run s = run at hspelled
  generalize q.run s = run' at hspelled
  cases hspelled with
  | @accepted value value' t honward htext =>
    have hnext := hok value value' (hs.of_within honward.toWithin)
    dsimp only
    generalize (f (.ok value)).run t = result at hnext
    generalize (g (.ok value')).run t = result' at hnext
    cases hnext with
    | accepted honward' htext' =>
      refine .accepted (honward.trans honward') ?_
      rw [htext', htext, String.empty_append, String.append_assoc,
        Text.excerpt_append input honward.position_le honward'.position_le]
    | undecided t => exact .undecided t
    | rejected error t => exact .rejected error t
    | halted halt t => exact .halted halt t
  | undecided t => exact .undecided t
  | rejected error t =>
    -- The cursor is back where both have started.
    have ht := hp s t _ hs.toInRange hrun rfl
    have hshows : t.cursor.Shows input := ht ▸ hs
    have hnext := herror error hshows
    rw [ht] at hnext
    exact hnext
  | halted halt t => exact .halted halt t

theorem andThen {f : α → Parser σ ε γ} {g : β → Parser σ ε δ} (h : Spells "" text q p)
    (hp : p.Rewinds Verdict.isAccepted)
    (hnext : ∀ value value', Spells (text value') text' (g value') (f value)) :
    Spells "" text' (q.andThen g) (p.andThen f) := by
  rw [andThen_eq_settle, andThen_eq_settle]
  refine h.settle hp (fun value value' => ?_) reject
  rw [String.empty_append]
  exact hnext value value'

theorem rewinding (h : Spells before text q p) :
    Spells before text (rewinding q) (rewinding p) := by
  intro input s hs
  have hspelled := h (s := s.marked) hs
  unfold Parser.rewinding
  rw [run_rewindingUnless, run_rewindingUnless]
  generalize p.run _ = run at hspelled
  generalize q.run _ = run' at hspelled
  cases hspelled with
  | accepted honward htext => exact .accepted honward htext
  | undecided t =>
    dsimp only [Verdict.isAccepted]
    rcases Scan.rewind s.cursor.position t with ⟨_, u⟩ | ⟨halt, u⟩
    · exact .undecided u
    · exact .halted halt u
  | rejected error t =>
    dsimp only [Verdict.isAccepted]
    rcases Scan.rewind s.cursor.position t with ⟨_, u⟩ | ⟨halt, u⟩
    · exact .rejected error u
    · exact .halted halt u
  | halted halt t => exact .halted halt t

/-! ### Several parsers -/

theorem alternation {ps : List (Parser σ ε α)} {qs : List (Parser σ ε β)}
    (h : Spells "" text q p) (hp : p.Rewinds Verdict.isAccepted)
    (hs : List.Forall₂ (Spells "" text) qs ps)
    (hps : ∀ p ∈ ps, p.Rewinds Verdict.isAccepted) :
    Spells "" text (alternation q qs) (alternation p ps) := by
  induction hs generalizing p q with
  | nil => exact h
  | cons hnext _ ih =>
    obtain ⟨hp', hps⟩ := List.forall_mem_cons.mp hps
    rw [alternation_cons_eq_settle, alternation_cons_eq_settle]
    refine h.settle hp (fun value value' => ?_) fun _ => ih hnext hp' hps
    rw [String.empty_append]
    exact accept value value'

theorem inOrder {ps : List (Parser σ ε α)} {qs : List (Parser σ ε β)}
    (hs : List.Forall₂ (Spells "" text) qs ps) (hps : ∀ p ∈ ps, p.Rewinds Verdict.isAccepted) :
    Spells "" (spelling text) (inOrder qs) (inOrder ps) := by
  induction hs with
  | nil => exact accept_nil
  | @cons q p qs ps hfirst _ ih =>
    obtain ⟨hp, hps⟩ := List.forall_mem_cons.mp hps
    have hrest (value : α) (value' : β) : Spells (text value') (spelling text)
        ((Parser.inOrder qs).map (value' :: ·)) ((Parser.inOrder ps).map (value :: ·)) := by
      refine ((ih hps).map_left fun values rest hvalues => ?_).map_right _
      rw [spelling_cons, hvalues, String.empty_append]
    have h := hfirst.andThen hp hrest
    simp only [map_eq_functor_map, map_eq_pure_bind] at h
    exact h

theorem concatenation {ps : List (Parser σ ε α)} {qs : List (Parser σ ε β)}
    (hs : List.Forall₂ (Spells "" text) qs ps) (hps : ∀ p ∈ ps, p.Rewinds Verdict.isAccepted) :
    Spells "" (spelling text) (concatenation qs) (concatenation ps) := (inOrder hs hps).rewinding

/-- By induction on the rounds, with the values that both have gathered so far. -/
theorem further (h : Spells "" text q p) (hp : p.Rewinds Verdict.isAccepted) (bounds : Bounds)
    (fuel : Nat) (values : Array α) (values' : Array β) (hsize : values'.size = values.size) :
    Spells (spelling text values'.toList) (spelling text)
      (further q bounds fuel values') (further p bounds fuel values) := by
  induction fuel, values using further_induction bounds.max generalizing values' with
  | full fuel values hfull =>
    rw [further_of_reached hfull, further_of_reached (hsize ▸ hfull)]
    exact accept _ _
  | ranOut values hopen =>
    rw [further_zero hopen, further_zero (hsize ▸ hopen)]
    exact fun _ s _ => .halted .ranOut s
  | round fuel values hopen ih =>
    rw [further_succ hopen, further_succ (hsize ▸ hopen)]
    refine h.settle hp (fun value value' => ?_) fun error => ?_
    · rw [← spelling_push]
      exact ih value (values'.push value') (by rw [Array.size_push, Array.size_push, hsize])
    · dsimp only
      rw [hsize]
      split
      · exact accept _ _
      · exact reject error

theorem repetition (h : Spells "" text q p) (hp : p.Rewinds Verdict.isAccepted) (bounds : Bounds)
    (fuel : Nat) :
    Spells "" (spelling text) (repetition fuel bounds q) (repetition fuel bounds p) := by
  by_cases hmax : bounds.max = .times 0
  · rw [Parser.repetition, Parser.repetition, if_pos hmax, if_pos hmax]
    exact accept_nil
  · rw [repetition_eq hmax, repetition_eq hmax]
    exact (h.further hp bounds fuel #[] #[] rfl).rewinding

theorem star (h : Spells "" text q p) (hp : p.Rewinds Verdict.isAccepted) (fuel : Nat) :
    Spells "" (spelling text) (star fuel q : Parser σ ε _) (star fuel p) := by
  rw [star_eq_repetition, star_eq_repetition]
  exact h.repetition hp (.upTo .unbounded) fuel

end Spells

end Parser

end StreamGrammar
