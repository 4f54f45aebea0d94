import StreamGrammar.Proofs.Parser.Agreement
import StreamGrammar.Proofs.Parser.Laws

/-!
# Alternatives and sequences, grouped in other ways

Alternatives that begin alike may share their beginning (`agree_factored`), and a search that takes
an alternative which fails for one that found nothing is an optional alternation
(`agree_firstFound`). The two sides run the same parsers in a different order, and some of them more
than once from the same place. So the parsers have to be `Reliable`: what they did there once they
do again.
-/

namespace StreamGrammar.Parser

open Input (Cursor)

variable {σ ε φ α β γ : Type}

/-- The parser keeps the contract, and what it does depends on the input alone. -/
structure Reliable (p : Parser σ ε α) : Prop extends Obeys p where
  memoryless : p.Memoryless

theorem Obeys.alternation {p : Parser σ ε α} {ps : List (Parser σ ε α)} (hp : p.Obeys)
    (hps : ∀ q ∈ ps, q.Obeys) : (alternation p ps).Obeys where
  keeps := (compositional_keeps Cursor.isTravel_onward).alternation (q := p) hp.keeps
    (List.forall₂_same.mpr fun q hq => (hps q hq).keeps)
  rewinds := hp.rewinds.alternation fun q hq => (hps q hq).rewinds

namespace Reliable

variable {p q : Parser σ ε α} {ps : List (Parser σ ε α)}

theorem map (hp : p.Reliable) (f : α → β) : (p.map f).Reliable where
  toObeys := hp.toObeys.map f
  memoryless := fun c hc => (hp.memoryless c hc).map f

theorem alternation (hp : p.Reliable) (hps : ∀ q ∈ ps, q.Reliable) :
    (alternation p ps).Reliable where
  toObeys := hp.toObeys.alternation fun q hq => (hps q hq).toObeys
  memoryless := by
    intro c hc
    induction ps generalizing p with
    | nil => exact hp.memoryless c hc
    | cons q ps ih =>
      obtain ⟨hq, hps⟩ := List.forall_mem_cons.mp hps
      have hrejects := hp.rewinds.of_rejected
      rw [alternation_cons_eq_settle]
      exact (hp.memoryless c hc).settle hc hp.tame hrejects hrejects
        (fun value _ _ => .accept value) fun _ => ih hq hps

section AndThen

variable {f : α → Parser σ ε β} (hp : p.Reliable) (hf : ∀ value, (f value).Reliable)
include hp hf

/-- Two parsers in a row leave the input alone, but not the cursor where it was. -/
theorem tame_andThen : (p.andThen f).Tame :=
  keeps_andThen Cursor.isTravel_within hp.tame fun value => (hf value).tame

theorem memoryless_andThen : (p.andThen f).Memoryless := fun c hc =>
  (hp.memoryless c hc).andThen hc hp.tame fun value d hd => (hf value).memoryless d hd.inRange

theorem group : (rewinding (p.andThen f)).Reliable where
  keeps := keeps_rewindingUnless Cursor.isTravel_onward _
    (keeps_andThen Cursor.isTravel_onward hp.keeps fun value => (hf value).keeps)
  rewinds := (tame_andThen hp hf).rewinds _
  memoryless := by
    intro c hc
    have htame := tame_andThen hp hf
    exact (((memoryless_andThen hp hf c hc).rewinding hc htame).symm.rewinding hc htame)

end AndThen

end Reliable

variable {c : Cursor}

/-- Of two alternatives the second one is run from the same place. -/
theorem Reliable.agree_alternation {p q q' : Parser σ ε α} (hp : p.Reliable) (hc : c.InRange)
    (hq : Agree c q q') : Agree c (Parser.alternation p [q]) (Parser.alternation p [q']) := by
  have hrejects := hp.rewinds.of_rejected
  rw [alternation_cons_eq_settle, alternation_cons_eq_settle]
  exact (hp.memoryless c hc).settle hc hp.tame hrejects hrejects (fun value _ _ => .accept value)
    fun _ => hq

/-! ## A common beginning -/

section Factored

variable {p : Parser σ ε α} (hp : p.Reliable) (hc : c.InRange)
include hp hc

/-- Where what follows the beginning rejects, the beginning runs once more from the same place. -/
theorem agree_factored_pair {f g : α → Parser σ ε β} (hf : ∀ value, (f value).Reliable)
    (hg : ∀ value, (g value).Reliable) :
    Agree c (alternation (rewinding (p.andThen f)) [p.andThen g])
      (p.andThen fun value => alternation (f value) [g value]) := by
  rintro s s' rfl hs'
  have hgroup : Alike ((rewinding (p.andThen f)).run s) ((p >>= f).run s') :=
    (hp.memoryless_andThen hf s.cursor hc).rewinding hc (hp.tame_andThen hf) s s' rfl hs'
  have hback := (hp.tame_andThen hf).rewinds Verdict.isAccepted s
  have hagain (t : Scanner σ) (ht : t.cursor = s.cursor) :
      Alike ((p >>= g).run t) ((p >>= g).run s') :=
    hp.memoryless_andThen hg s.cursor hc t s' ht hs'
  change Alike _ ((p >>= fun value => alternation (f value) [g value]).run s')
  rw [alternation_cons_eq_settle, run_settle, run_bind]
  rw [run_bind s' p f] at hgroup
  rw [run_bind s' p g] at hagain
  change ∀ t verdict, _ → (rewinding (p.andThen f)).run s = _ → _ at hback
  generalize (rewinding (p.andThen f)).run s = run at hgroup hback
  rcases hbegin : p.run s' with ⟨value | _ | error, u⟩ | _ <;> rw [hbegin] at hgroup hagain <;>
    dsimp only at hgroup hagain ⊢
  · rw [alternation_cons_eq_settle, run_settle]
    generalize hrest : (f value).run u = run' at hgroup
    cases hgroup with
    | @ok verdict t t' ht =>
      cases verdict with
      | accepted value' => exact .ok ht
      | undecided => exact .ok nofun
      | rejected error =>
        have hu : u.cursor.InRange := (hp.tame.ok (hs' ▸ hc) hbegin).inRange
        have ht' := (hf value).rewinds u t' _ hu hrest rfl
        exact (hagain t (hback t _ hc rfl rfl)).trans ((hg value).memoryless _ hu u t' rfl ht')
    | error halt t t' => exact .error halt t t'
  · cases hgroup with
    | ok => exact .ok nofun
  · cases hgroup with
    | @ok _ t _ _ => exact hagain t (hback t _ hc rfl rfl)
  · cases hgroup
    exact .error _ _ _

/-- By induction on the alternatives, with the ones behind the first as a single one. -/
theorem agree_factored_all {f : α → β → γ} {q : Parser σ ε β} {qs : List (Parser σ ε β)}
    (hq : q.Reliable) (hqs : ∀ q ∈ qs, q.Reliable) :
    Agree c
      (alternation (rewinding (p.andThen fun value => q.map (f value)))
        (qs.map fun q => rewinding (p.andThen fun value => q.map (f value))))
      (p.andThen fun value => (alternation q qs).map (f value)) := by
  have hmap {q : Parser σ ε β} (hq : q.Reliable) (value : α) : (q.map (f value)).Reliable :=
    hq.map (f value)
  induction qs generalizing q with
  | nil =>
    exact (hp.memoryless_andThen (hmap hq) c hc).rewinding hc (hp.tame_andThen (hmap hq))
  | cons q' qs ih =>
    obtain ⟨hq', hqs⟩ := List.forall_mem_cons.mp hqs
    have hothers := (hp.group (hmap hq)).agree_alternation hc (ih hq' hqs)
    have hpair := agree_factored_pair hp hc (hmap hq) (hmap (hq'.alternation hqs))
    have hmapped (value : α) : (alternation q (q' :: qs)).map (f value) =
        alternation (q.map (f value)) [(alternation q' qs).map (f value)] := by
      rw [alternation_cons, map_alternation]
      rfl
    rw [List.map_cons, alternation_cons]
    simp only [hmapped]
    exact hothers.trans hpair

/-- Alternatives that begin alike are one beginning and the alternatives behind it. -/
theorem agree_factored {q : Parser σ ε α} {qs : List (Parser σ ε α)} (hq : q.Reliable)
    (hqs : ∀ q ∈ qs, q.Reliable) :
    Agree c (alternation (concatenation [p, q]) (qs.map fun q => concatenation [p, q]))
      (concatenation [p, alternation q qs]) := by
  simp only [concatenation_pair]
  have hrest (value : α) : ((alternation q qs).map ([value, ·])).Reliable :=
    (hq.alternation hqs).map _
  have hfactored := agree_factored_all hp hc (f := fun first second => [first, second]) hq hqs
  have hgroup := (hp.memoryless_andThen hrest c hc).rewinding hc (hp.tame_andThen hrest)
  exact hfactored.trans hgroup.symm

end Factored

/-! ## Nothing found -/

theorem run_optional (default : α) (p : Parser σ ε α) (s : Scanner σ) :
    (p.optional default : Parser σ φ α).run s =
      match p.run s with
      | .ok (.accepted value) t => .ok (.accepted value) t
      | .ok .undecided t => .ok .undecided t
      | .ok (.rejected _) t => .ok (.accepted default) t
      | .error halt t => .error halt t := by
  rw [optional_eq_settle, run_settle]
  rcases p.run s with ⟨_ | _ | _, t⟩ | _ <;> rfl

/-- The parser never accepts with a value that says that nothing was there. -/
def Finds (isEmpty : α → Bool) (p : Parser σ ε α) : Prop :=
  ∀ (s t : Scanner σ) (value : α), s.cursor.InRange → p.run s = .ok (.accepted value) t →
    isEmpty value = false

/-- Where a function has no empty values, what is mapped by it finds something if it accepts. -/
theorem Finds.of_map {f : α → β} {isEmpty : β → Bool} {p : Parser σ ε α}
    (hf : ∀ value, isEmpty (f value) = false) : (p.map f).Finds isEmpty := by
  intro s t value _ hrun
  rw [run_map] at hrun
  rcases hbody : p.run s with ⟨value' | _ | error, u⟩ | _ <;> rw [hbody] at hrun
  · obtain ⟨hvalue, -⟩ := EStateM.Result.ok.inj hrun
    obtain rfl := Verdict.accepted.inj hvalue
    exact hf value'
  · cases hrun
  · cases hrun
  · cases hrun

theorem Finds.mapError {isEmpty : α → Bool} {p : Parser σ ε α} (hp : p.Finds isEmpty)
    (f : ε → φ) : (p.mapError f).Finds isEmpty := by
  intro s t value hs hrun
  rw [run_mapError] at hrun
  rcases hbody : p.run s with ⟨value' | _ | error, u⟩ | _ <;> rw [hbody] at hrun
  · obtain ⟨hvalue, rfl⟩ := EStateM.Result.ok.inj hrun
    obtain rfl := Verdict.accepted.inj hvalue
    exact hp s u value' hs hbody
  · cases hrun
  · cases hrun
  · cases hrun

section Found

variable {p : Parser σ ε α} {isEmpty : α → Bool} {empty : α} (hempty : isEmpty empty = true)
include hempty

/-- Where a parser fails, nothing is found. -/
theorem run_found_optional (hp : p.Tame) (hfinds : p.Finds isEmpty) {s : Scanner σ}
    (hs : s.cursor.InRange) :
    (found isEmpty (p.optional empty) : Parser σ φ α).run s =
      match p.run s.marked with
      | .ok (.accepted value) t => .ok (.accepted value) t
      | .ok .undecided t => .ok .undecided (t.putBack s.cursor)
      | .ok (.rejected _) t => .ok (.accepted empty) (t.putBack s.cursor)
      | .error halt t => .error halt t := by
  have hoptional := run_optional (φ := φ) empty p s.marked
  rcases hrun : p.run s.marked with ⟨value | _ | error, t⟩ | ⟨halt, t⟩ <;> rw [hrun] at hoptional
  · have hvalue := hfinds s.marked t value hs hrun
    have hgroup := run_rewindingUnless_of_ok (isFind isEmpty) hs (hp.ok (s := s.marked) hs hrun)
      hoptional
    rw [isFind, hvalue] at hgroup
    exact hgroup
  · exact run_rewindingUnless_of_ok _ hs (hp.ok (s := s.marked) hs hrun) hoptional
  · have hgroup := run_rewindingUnless_of_ok (isFind isEmpty) hs (hp.ok (s := s.marked) hs hrun)
      hoptional
    rw [isFind, hempty] at hgroup
    exact hgroup
  · rw [found, run_rewindingUnless, hoptional]

/-- To find nothing is to fail, and the search goes on from the same place. -/
theorem agree_found {c : Cursor} (hc : c.InRange) (hp : p.Reliable) (hfinds : p.Finds isEmpty)
    {rest : Parser σ φ α} (hrest : Agree c rest rest) :
    Agree c
      ((found isEmpty (p.optional empty)).andThen fun value =>
        if isEmpty value then rest else accept value)
      (p.settle fun
        | .error _ => rest
        | .ok value => accept value) := by
  rintro s s' rfl hs'
  have hruns := hp.memoryless s.cursor hc s.marked s' rfl hs'
  change Alike ((found isEmpty (p.optional empty) >>= _).run s) _
  rw [run_bind, run_settle, run_found_optional hempty hp.tame hfinds hc]
  generalize hrun : p.run s.marked = run at hruns
  generalize hrun' : p.run s' = run' at hruns
  cases hruns with
  | @ok verdict t t' ht =>
    cases verdict with
    | accepted value =>
      have hvalue := hfinds s.marked t value hc hrun
      dsimp only
      rw [hvalue]
      exact .ok ht
    | undecided => exact .ok nofun
    | rejected error =>
      have ht' := hp.rewinds s' t' _ (hs' ▸ hc) hrun' rfl
      dsimp only
      rw [if_pos hempty]
      exact hrest _ t' rfl (ht'.trans hs')
  | error halt t t' => exact .error halt t t'

/-- By induction on the parsers: a search for the first that finds something, where those that fail
find nothing, is an alternation that may fail. -/
theorem agree_firstFound {c : Cursor} (hc : c.InRange) {ps : List (Parser σ ε α)}
    (hp : p.Reliable) (hps : ∀ q ∈ ps, q.Reliable) (hfinds : ∀ q ∈ p :: ps, q.Finds isEmpty) :
    Agree c
      (firstFound isEmpty empty ((p :: ps).map fun p => p.optional empty) : Parser σ φ α)
      ((alternation p ps).optional empty) := by
  obtain ⟨hfirst, hothers⟩ := List.forall_mem_cons.mp hfinds
  induction ps generalizing p with
  | nil =>
    have hlast : (p.optional empty : Parser σ φ α) = p.settle fun
        | .error _ => accept empty
        | .ok value => accept value := optional_eq_settle empty p
    change Agree c _ (p.optional empty)
    rw [hlast]
    exact agree_found hempty hc hp hfirst (.accept empty)
  | cons q ps ih =>
    obtain ⟨hq, hps⟩ := List.forall_mem_cons.mp hps
    obtain ⟨hnext, hothers'⟩ := List.forall_mem_cons.mp hothers
    have hrest := ih hq hps hothers hnext hothers'
    have h := agree_found hempty hc hp hfirst (hrest.trans hrest.symm)
    have hrejects := hp.rewinds.of_rejected
    rw [optional_alternation_cons]
    refine h.trans ?_
    exact (hp.memoryless c hc).settle hc hp.tame hrejects hrejects
      (fun value _ _ => .accept value) fun _ => hrest

end Found

end StreamGrammar.Parser
