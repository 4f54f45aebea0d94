import StreamGrammar.Proofs.Parser.Repetition

/-!
# Separated elements

What a list with separators comes to is read off the answers of its element and its separator
(`Separated`). Elements and separators make a `Chain`, which is taken as far as it goes. Where the
separator does not match, or no element follows it, the cursor stands behind the last element.
Where one of the two leaves open, everything does.
-/

namespace StreamGrammar.Parser

open Input (Cursor)

variable {σ ε α β : Type}

/-- Wherever the cursor is `c`, the parser comes to this verdict and leaves the cursor at `d`. -/
def Answers (p : Parser σ ε α) (c : Cursor) (verdict : Verdict ε α) (d : Cursor) : Prop :=
  ∀ s : Scanner σ, s.cursor = c → outcome (p.run s) = .ok (verdict, d)

theorem Answers.run {p : Parser σ ε α} {c d : Cursor} {verdict : Verdict ε α}
    (h : p.Answers c verdict d) {s : Scanner σ} (hs : s.cursor = c) :
    ∃ t, p.run s = .ok verdict t ∧ t.cursor = d := outcome_eq_ok_iff.mp (h s hs)

/-- What a parser without memory has answered once it answers always. -/
theorem Obeys.answers {p : Parser σ ε α} (hp : p.Obeys) (hmemory : p.Memoryless) {s t : Scanner σ}
    (hs : s.cursor.InRange) {verdict : Verdict ε α} (hrun : p.run s = .ok verdict t) :
    p.Answers s.cursor verdict t.cursor := by
  intro s' hs'
  have heq := (hmemory _ hs).outcome_eq hs hs' hp.rewinds hp.rewinds
  rw [← heq, hrun]
  rfl

theorem Obeys.answers_back {p : Parser σ ε α} (hp : p.Obeys) (hmemory : p.Memoryless)
    {s t : Scanner σ} (hs : s.cursor.InRange) {verdict : Verdict ε α}
    (hrun : p.run s = .ok verdict t) (hverdict : verdict.isAccepted = false) :
    p.Answers s.cursor verdict s.cursor := by
  have h := hp.answers hmemory hs hrun
  rwa [hp.rewinds s t verdict hs hrun hverdict] at h

theorem answers_byte_of_shows {c : Cursor} {input : List UInt8} (hc : c.Shows input)
    {value : UInt8} (hvalue : input[c.position]? = some value) (test : UInt8 → Bool)
    (expected : String) :
    (byte test expected : Parser σ _ _).Answers c
      (if test value then .accepted value else .rejected ⟨expected, c.position⟩)
      (if test value then { c with position := c.position + 1 } else c) := by
  rintro s rfl
  rw [run_byte_of_shows hc hvalue]
  split <;> rfl

section Separated

variable (p : Parser σ ε α) (separator : Parser σ ε β)

/-- Elements from one cursor to another, with separators between them. -/
inductive Chain : Cursor → List α → Cursor → Prop
  | one {c d : Cursor} {value : α} : p.Answers c (.accepted value) d → Chain c [value] d
  | cons {c d e f : Cursor} {value : α} {mark : β} {values : List α} :
      p.Answers c (.accepted value) d → separator.Answers d (.accepted mark) e →
      Chain e values f → Chain c (value :: values) f

/-- What a list with separators comes to from `c` on. -/
inductive Separated (c : Cursor) : Verdict ε (List α) → Cursor → Prop
  | fails {error : ε} : p.Answers c (.rejected error) c → Separated c (.rejected error) c
  | waits : p.Answers c .undecided c → Separated c .undecided c
  | ends {values : List α} {d : Cursor} {error : ε} : Chain p separator c values d →
      separator.Answers d (.rejected error) d → Separated c (.accepted values) d
  | dangles {values : List α} {d e : Cursor} {mark : β} {error : ε} :
      Chain p separator c values d → separator.Answers d (.accepted mark) e →
      p.Answers e (.rejected error) e → Separated c (.accepted values) d
  | waitsForSeparator {values : List α} {d : Cursor} : Chain p separator c values d →
      separator.Answers d .undecided d → Separated c .undecided c
  | waitsForElement {values : List α} {d e : Cursor} {mark : β} :
      Chain p separator c values d → separator.Answers d (.accepted mark) e →
      p.Answers e .undecided e → Separated c .undecided c

/-- An element with its separator in front. -/
def behind : Parser σ ε α := rewinding (separator.andThen fun _ => p)

theorem sepBy_eq_behind (fuel : Nat) :
    sepBy fuel p separator =
      rewinding (p >>= fun first => (star fuel (behind p separator)).map (first :: ·)) := by
  simp only [map_eq_functor_map, map_eq_pure_bind]
  rfl

/-- What an element with its separator in front comes to from `c` on. -/
inductive Follows (c : Cursor) : Verdict ε α → Cursor → Prop
  | takes {mark : β} {value : α} {d e : Cursor} : separator.Answers c (.accepted mark) d →
      p.Answers d (.accepted value) e → Follows c (.accepted value) e
  | ends {error : ε} : separator.Answers c (.rejected error) c → Follows c (.rejected error) c
  | dangles {mark : β} {error : ε} {d : Cursor} : separator.Answers c (.accepted mark) d →
      p.Answers d (.rejected error) d → Follows c (.rejected error) c
  | waitsForSeparator : separator.Answers c .undecided c → Follows c .undecided c
  | waitsForElement {mark : β} {d : Cursor} : separator.Answers c (.accepted mark) d →
      p.Answers d .undecided d → Follows c .undecided c

end Separated

variable {p : Parser σ ε α} {separator : Parser σ ε β}
variable (hp : p.Obeys) (hseparator : separator.Obeys)
include hp hseparator

theorem tame_follower : (separator.andThen fun _ => p).Tame :=
  keeps_andThen Cursor.isTravel_within hseparator.tame fun _ => hp.tame

theorem obeys_behind : (behind p separator).Obeys where
  keeps := keeps_rewindingUnless Cursor.isTravel_onward _
    (keeps_andThen Cursor.isTravel_onward hseparator.keeps fun _ => hp.keeps)
  rewinds := (tame_follower hp hseparator).rewinds _

theorem tame_list (fuel : Nat) : Tame (p >>= fun first =>
    (star fuel (behind p separator) : Parser σ ε _).map (first :: ·)) := by
  have hstar : (star fuel (behind p separator) : Parser σ ε _).Tame := by
    rw [star_eq_repetition]
    exact keeps_repetition Cursor.isTravel_within (obeys_behind hp hseparator).tame _ fuel
  exact keeps_andThen Cursor.isTravel_within hp.tame fun first =>
    keeps_map Cursor.isTravel_within (first :: ·) hstar

theorem Follows.run {s : Scanner σ} (hs : s.cursor.InRange) {verdict : Verdict ε α} {d : Cursor}
    (h : Follows p separator s.cursor verdict d) :
    ∃ t, (behind p separator).run s = .ok verdict t ∧ t.cursor = d := by
  have hgroup {verdict : Verdict ε α} {t : Scanner σ}
      (hbody : (separator >>= fun _ => p).run s.marked = .ok verdict t) :=
    run_rewinding_of_ok hs ((tame_follower hp hseparator).ok (s := s.marked) hs hbody) hbody
  cases h with
  | takes hmark helement =>
    obtain ⟨t, hfirst, rfl⟩ := hmark.run (s := s.marked) rfl
    obtain ⟨u, hsecond, rfl⟩ := helement.run (s := t) rfl
    exact ⟨u, hgroup (by rw [run_bind, hfirst]; exact hsecond), rfl⟩
  | ends hmark =>
    obtain ⟨t, hfirst, -⟩ := hmark.run (s := s.marked) rfl
    exact ⟨_, hgroup (t := t) (by rw [run_bind, hfirst]), rfl⟩
  | dangles hmark helement =>
    obtain ⟨t, hfirst, rfl⟩ := hmark.run (s := s.marked) rfl
    obtain ⟨u, hsecond, -⟩ := helement.run (s := t) rfl
    exact ⟨_, hgroup (t := u) (by rw [run_bind, hfirst]; exact hsecond), rfl⟩
  | waitsForSeparator hmark =>
    obtain ⟨t, hfirst, -⟩ := hmark.run (s := s.marked) rfl
    exact ⟨_, hgroup (t := t) (by rw [run_bind, hfirst]), rfl⟩
  | waitsForElement hmark helement =>
    obtain ⟨t, hfirst, rfl⟩ := hmark.run (s := s.marked) rfl
    obtain ⟨u, hsecond, -⟩ := helement.run (s := t) rfl
    exact ⟨_, hgroup (t := u) (by rw [run_bind, hfirst]; exact hsecond), rfl⟩

/-- The elements behind the first one of a chain are taken in turn. -/
theorem Chain.inTurn {c d : Cursor} {values : List α} (h : Chain p separator c values d) :
    ∃ head tail e, values = head :: tail ∧ p.Answers c (.accepted head) e ∧
      ∀ s : Scanner σ, s.cursor.InRange → s.cursor = e →
        ∃ t, InTurn (behind p separator) s (tail.map .accepted) t ∧ t.cursor = d := by
  induction h with
  | one helement => exact ⟨_, [], _, rfl, helement, fun s _ hs => ⟨s, .nil s, hs⟩⟩
  | cons helement hmark _ ih =>
    obtain ⟨head, tail, e, rfl, hhead, htail⟩ := ih
    refine ⟨_, head :: tail, _, rfl, helement, fun s hs heq => ?_⟩
    subst heq
    obtain ⟨t, hrun, ht⟩ := (Follows.takes hmark hhead).run hp hseparator hs
    have hrange := ((obeys_behind hp hseparator).keeps.ok hs hrun).inRange
    obtain ⟨u, hturn, hu⟩ := htail t hrange ht
    exact ⟨u, .cons hrun hturn, hu⟩

variable (hmemory : p.Memoryless) (hmemory' : separator.Memoryless)
include hmemory hmemory'

theorem behind_ok {s t : Scanner σ} (hs : s.cursor.InRange) {verdict : Verdict ε α}
    (hrun : (behind p separator).run s = .ok verdict t) :
    Follows p separator s.cursor verdict t.cursor := by
  obtain ⟨u, hbody, rfl⟩ := rewinding_ok (tame_follower hp hseparator) hs hrun
  change (separator >>= fun _ => p).run s.marked = _ at hbody
  rw [run_bind] at hbody
  rcases hmark : separator.run s.marked with ⟨mark | _ | error, v⟩ | _ <;> rw [hmark] at hbody
  · have hv : v.cursor.InRange := (hseparator.keeps.ok (s := s.marked) hs hmark).inRange
    have hfirst : separator.Answers s.cursor (.accepted mark) v.cursor :=
      hseparator.answers hmemory' (s := s.marked) hs hmark
    cases verdict with
    | accepted value => exact .takes hfirst (hp.answers hmemory hv hbody)
    | undecided => exact .waitsForElement hfirst (hp.answers_back hmemory hv hbody rfl)
    | rejected error => exact .dangles hfirst (hp.answers_back hmemory hv hbody rfl)
  · obtain ⟨rfl, rfl⟩ := EStateM.Result.ok.inj hbody
    exact .waitsForSeparator (hseparator.answers_back hmemory' (s := s.marked) hs hmark rfl)
  · obtain ⟨rfl, rfl⟩ := EStateM.Result.ok.inj hbody
    exact .ends (hseparator.answers_back hmemory' (s := s.marked) hs hmark rfl)
  · cases hbody

/-- By induction on the elements behind the first one. -/
theorem chain_of_inTurn {c : Cursor} {head : α} {tail : List α} {s t : Scanner σ}
    (hhead : p.Answers c (.accepted head) s.cursor) (hs : s.cursor.InRange)
    (hturn : InTurn (behind p separator) s (tail.map .accepted) t) :
    Chain p separator c (head :: tail) t.cursor := by
  induction tail generalizing c head s with
  | nil =>
    cases hturn
    exact .one hhead
  | cons value tail ih =>
    rcases hturn with _ | @⟨_, u, _, _, _, hrun, hturn⟩
    have hrange := ((obeys_behind hp hseparator).keeps.ok hs hrun).inRange
    have hfollows := behind_ok hp hseparator hmemory hmemory' hs hrun
    generalize hcursor : u.cursor = d at hfollows
    cases hfollows with
    | takes hmark helement => exact .cons hhead hmark (ih (hcursor ▸ helement) hrange hturn)

/-! ## Lists -/

/-- A list is read off its first element and the ones behind it. -/
theorem separated_of_star {c : Cursor} {head : α} {fuel : Nat} {s t : Scanner σ}
    {answer : Verdict ε (List α)} (hhead : p.Answers c (.accepted head) s.cursor)
    (hs : s.cursor.InRange) (hstar : (star fuel (behind p separator)).run s = .ok answer t) :
    Separated p separator c (answer.map (head :: ·))
      (if answer.isAccepted then t.cursor else c) := by
  have hobeys := obeys_behind hp hseparator
  obtain ⟨tail, u, -, hturn, hlast⟩ := (star_ok_iff hobeys hs).mp hstar
  have hu := (hturn.onward hobeys hs).inRange
  have hchain := chain_of_inTurn (s := s.marked) hp hseparator hmemory hmemory' hhead hs hturn
  rcases hlast with ⟨error, hlast, rfl⟩ | ⟨v, hlast, rfl, -⟩
  · have hfollows := behind_ok hp hseparator hmemory hmemory' hu hlast
    generalize t.cursor = d at hfollows
    cases hfollows with
    | ends hmark => exact .ends hchain hmark
    | dangles hmark helement => exact .dangles hchain hmark helement
  · have hfollows := behind_ok hp hseparator hmemory hmemory' hu hlast
    generalize v.cursor = d at hfollows
    cases hfollows with
    | waitsForSeparator hmark => exact .waitsForSeparator hchain hmark
    | waitsForElement hmark helement => exact .waitsForElement hchain hmark helement

theorem separated_of_run {s u : Scanner σ} (hs : s.cursor.InRange) {fuel : Nat}
    {verdict : Verdict ε (List α)} (hrun : (sepBy fuel p separator).run s = .ok verdict u) :
    Separated p separator s.cursor verdict u.cursor := by
  rw [sepBy_eq_behind] at hrun
  obtain ⟨t, hbody, rfl⟩ := rewinding_ok (tame_list hp hseparator fuel) hs hrun
  rw [run_bind] at hbody
  rcases hfirst : p.run s.marked with ⟨head | _ | error, v⟩ | _ <;> rw [hfirst] at hbody
  · have hv := (hp.keeps.ok (s := s.marked) hs hfirst).inRange
    have hhead : p.Answers s.cursor (.accepted head) v.cursor :=
      hp.answers hmemory (s := s.marked) hs hfirst
    dsimp only at hbody
    rw [run_map] at hbody
    rcases hstar : (star fuel (behind p separator)).run v with ⟨answer, w⟩ | _ <;>
      rw [hstar] at hbody
    · obtain ⟨rfl, rfl⟩ := EStateM.Result.ok.inj hbody
      have h := separated_of_star hp hseparator hmemory hmemory' hhead hv hstar
      cases answer <;> exact h
    · cases hbody
  · obtain ⟨rfl, rfl⟩ := EStateM.Result.ok.inj hbody
    exact .waits (hp.answers_back hmemory (s := s.marked) hs hfirst rfl)
  · obtain ⟨rfl, rfl⟩ := EStateM.Result.ok.inj hbody
    exact .fails (hp.answers_back hmemory (s := s.marked) hs hfirst rfl)
  · cases hbody

omit hmemory hmemory'

theorem run_sepBy {s t : Scanner σ} (hs : s.cursor.InRange) {fuel : Nat}
    {verdict : Verdict ε (List α)}
    (hbody : (p >>= fun first => (star fuel (behind p separator)).map (first :: ·)).run s.marked =
      .ok verdict t) :
    (sepBy fuel p separator).run s =
      .ok verdict (if verdict.isAccepted then t else t.putBack s.cursor) := by
  rw [sepBy_eq_behind]
  exact run_rewinding_of_ok hs ((tame_list hp hseparator fuel).ok (s := s.marked) hs hbody) hbody

/-- The run of a list whose first element has matched. -/
theorem run_sepBy_of_star {s t u : Scanner σ} (hs : s.cursor.InRange) {head : α} {fuel : Nat}
    {answer : Verdict ε (List α)} (hfirst : p.run s.marked = .ok (.accepted head) t)
    (hstar : (star fuel (behind p separator)).run t = .ok answer u) :
    ∃ v, (sepBy fuel p separator).run s = .ok (answer.map (head :: ·)) v ∧
      v.cursor = if answer.isAccepted then u.cursor else s.cursor := by
  refine ⟨_, run_sepBy (t := u) hp hseparator hs ?_, ?_⟩
  · rw [run_bind, hfirst]
    dsimp only
    rw [run_map, hstar]
  · cases answer <;> rfl

/-- Where elements and separators have matched in turn, what comes next decides. -/
theorem Chain.exists_run {c d : Cursor} {values : List α} (h : Chain p separator c values d)
    {s : Scanner σ} (hs : s.cursor.InRange) (hc : s.cursor = c) {e : Cursor}
    {verdict : Verdict ε α} (hfollows : Follows p separator d verdict e)
    (hverdict : verdict.isAccepted = false) :
    ∃ fuel u, (sepBy fuel p separator).run s =
        .ok (if verdict.isRejected then .accepted values else .undecided) u ∧
      u.cursor = if verdict.isRejected then d else c := by
  subst hc
  have hobeys := obeys_behind hp hseparator
  obtain ⟨head, tail, e, rfl, hhead, htail⟩ := h.inTurn hp hseparator
  obtain ⟨t, hfirst, rfl⟩ := hhead.run (s := s.marked) rfl
  have ht := (hp.keeps.ok (s := s.marked) hs hfirst).inRange
  obtain ⟨u, hturn, rfl⟩ := htail t.marked ht rfl
  have hu := (hturn.onward hobeys ht).inRange
  obtain ⟨v, hlast, rfl⟩ := hfollows.run hp hseparator hu
  have hv := hobeys.rewinds u v _ hu hlast hverdict
  cases verdict with
  | accepted value => cases hverdict
  | undecided =>
    have hstar := (star_ok_iff hobeys ht).mpr
      ⟨tail, u, Nat.lt_succ_self _, hturn, .inr ⟨v, hlast, rfl, rfl⟩⟩
    exact ⟨_, run_sepBy_of_star hp hseparator hs hfirst hstar⟩
  | rejected error =>
    have hstar := (star_ok_iff hobeys ht).mpr
      ⟨tail, u, Nat.lt_succ_self _, hturn, .inl ⟨error, hlast, rfl⟩⟩
    rw [← hv]
    exact ⟨_, run_sepBy_of_star hp hseparator hs hfirst hstar⟩

theorem Separated.exists_run {s : Scanner σ} (hs : s.cursor.InRange)
    {verdict : Verdict ε (List α)} {d : Cursor} (h : Separated p separator s.cursor verdict d) :
    ∃ fuel u, (sepBy fuel p separator).run s = .ok verdict u ∧ u.cursor = d := by
  cases h with
  | fails hfirst =>
    obtain ⟨t, hrun, -⟩ := hfirst.run (s := s.marked) rfl
    exact ⟨0, _, run_sepBy (t := t) hp hseparator hs (by rw [run_bind, hrun]), rfl⟩
  | waits hfirst =>
    obtain ⟨t, hrun, -⟩ := hfirst.run (s := s.marked) rfl
    exact ⟨0, _, run_sepBy (t := t) hp hseparator hs (by rw [run_bind, hrun]), rfl⟩
  | ends hchain hmark => exact hchain.exists_run hp hseparator hs rfl (.ends hmark) rfl
  | dangles hchain hmark helement =>
    exact hchain.exists_run hp hseparator hs rfl (.dangles hmark helement) rfl
  | waitsForSeparator hchain hmark =>
    exact hchain.exists_run hp hseparator hs rfl (.waitsForSeparator hmark) rfl
  | waitsForElement hchain hmark helement =>
    exact hchain.exists_run hp hseparator hs rfl (.waitsForElement hmark helement) rfl

end StreamGrammar.Parser
