import StreamGrammar.Proofs.Parser.Settle

/-!
# Laws of parsers

Equations between parsers, whatever these do. Going on where a parser has settled is associative
(`settle_settle`), so parsers are a lawful monad, and a grouping may be moved past a function that
is applied to its value or its error.
-/

namespace StreamGrammar.Parser

variable {σ ε φ ψ α β γ : Type}

/-! ## Going on -/

theorem settle_settle (p : Parser σ ε α) (f : Except ε α → Parser σ φ β)
    (g : Except φ β → Parser σ ψ γ) :
    (p.settle f).settle g = p.settle fun item => (f item).settle g := by
  apply eq_of_run_eq
  intro s
  rw [run_settle, run_settle, run_settle]
  rcases p.run s with ⟨value | _ | error, t⟩ | _
  · exact (run_settle (f (.ok value)) g t).symm
  · rfl
  · exact (run_settle (f (.error error)) g t).symm
  · rfl

/-- To go on with the outcome itself is to do nothing more. -/
theorem settle_self (p : Parser σ ε α) {f : Except ε α → Parser σ ε α}
    (hok : ∀ value, f (.ok value) = accept value)
    (herror : ∀ error, f (.error error) = reject error) : p.settle f = p := by
  apply eq_of_run_eq
  intro s
  rw [run_settle]
  rcases p.run s with ⟨value | _ | error, t⟩ | _
  · dsimp only
    rw [hok]
    rfl
  · rfl
  · dsimp only
    rw [herror]
    rfl
  · rfl

/-- Parsers go on alike if they do so for each outcome. -/
theorem settle_congr (p : Parser σ ε α) {f g : Except ε α → Parser σ φ β}
    (hok : ∀ value, f (.ok value) = g (.ok value))
    (herror : ∀ error, f (.error error) = g (.error error)) : p.settle f = p.settle g := by
  congr 1
  funext item
  cases item with
  | ok value => exact hok value
  | error error => exact herror error

theorem map_settle (p : Parser σ ε α) (next : Except ε α → Parser σ φ β) (f : β → γ) :
    (p.settle next).map f = p.settle fun item => (next item).map f := by
  rw [map_eq_settle, settle_settle]
  exact p.settle_congr (fun _ => (map_eq_settle f _).symm) fun _ => (map_eq_settle f _).symm

theorem mapError_settle (p : Parser σ ε α) (next : Except ε α → Parser σ φ β) (f : φ → ψ) :
    (p.settle next).mapError f = p.settle fun item => (next item).mapError f := by
  rw [mapError_eq_settle, settle_settle]
  exact p.settle_congr (fun _ => (mapError_eq_settle f _).symm)
    fun _ => (mapError_eq_settle f _).symm

/-! ## Parsers are a lawful monad -/

theorem andThen_accept (p : Parser σ ε α) : p.andThen accept = p := by
  rw [andThen_eq_settle]
  exact p.settle_self (fun _ => rfl) fun _ => rfl

theorem andThen_assoc (p : Parser σ ε α) (f : α → Parser σ ε β) (g : β → Parser σ ε γ) :
    (p.andThen f).andThen g = p.andThen fun value => (f value).andThen g := by
  simp only [andThen_eq_settle, settle_settle]
  exact p.settle_congr (fun _ => rfl) fun _ => rfl

instance : LawfulMonad (Parser σ ε) :=
  .mk' _ andThen_accept (fun _ _ => rfl) andThen_assoc

theorem map_eq_functor_map (f : α → β) (p : Parser σ ε α) : p.map f = f <$> p := by
  rw [map_eq_settle, map_eq_pure_bind]
  exact (andThen_eq_settle p _).symm

theorem map_map (f : α → β) (g : β → γ) (p : Parser σ ε α) : (p.map f).map g = p.map (g ∘ f) := by
  simp only [map_eq_functor_map, Functor.map_map, Function.comp_def]

theorem map_mapError (f : α → β) (g : ε → φ) (p : Parser σ ε α) :
    (p.map f).mapError g = (p.mapError g).map f := by
  apply eq_of_run_eq
  intro s
  rw [run_mapError, run_map, run_map, run_mapError]
  rcases p.run s with ⟨_ | _ | _, t⟩ | _ <;> rfl

theorem map_optional (f : α → β) (default : α) (p : Parser σ ε α) :
    (p.optional default : Parser σ φ α).map f = (p.map f).optional (f default) := by
  rw [optional_eq_settle, optional_eq_settle, map_settle, map_eq_settle, settle_settle]
  exact p.settle_congr (fun _ => rfl) fun _ => rfl

theorem optional_andThen (p : Parser σ ε α) (next : α → Parser σ ε β) (default : β) :
    ((p.andThen next).optional default : Parser σ φ β) = p.settle fun
      | .ok value => (next value).optional default
      | .error _ => accept default := by
  rw [optional_eq_settle, andThen_eq_settle, settle_settle]
  exact p.settle_congr (fun value => (optional_eq_settle default _).symm) fun _ => rfl

/-! ## Alternatives -/

theorem map_alternation (f : α → β) (p : Parser σ ε α) (ps : List (Parser σ ε α)) :
    (alternation p ps).map f = alternation (p.map f) (ps.map fun p => p.map f) := by
  induction ps generalizing p with
  | nil => rfl
  | cons q ps ih =>
    rw [List.map_cons, alternation_cons_eq_settle, alternation_cons_eq_settle, map_settle,
      map_eq_settle, settle_settle]
    exact p.settle_congr (fun _ => rfl) fun _ => ih q

theorem alternation_cons (p q : Parser σ ε α) (ps : List (Parser σ ε α)) :
    alternation p (q :: ps) = alternation p [alternation q ps] := by
  rw [alternation_cons_eq_settle, alternation_cons_eq_settle]
  rfl

/-- Alternatives behind an alternation are alternatives of it. -/
theorem alternation_alternation (p : Parser σ ε α) (ps qs : List (Parser σ ε α)) :
    alternation (alternation p ps) qs = alternation p (ps ++ qs) := by
  induction ps generalizing p with
  | nil => rfl
  | cons p' ps ih =>
    cases qs with
    | nil => rw [List.append_nil, alternation]
    | cons q qs =>
      rw [List.cons_append, alternation_cons_eq_settle, alternation_cons_eq_settle, settle_settle,
        alternation_cons_eq_settle p p']
      refine p.settle_congr (fun _ => rfl) fun _ => ?_
      rw [← ih p', alternation_cons_eq_settle (alternation p' ps)]

/-- The alternatives of an alternative are alternatives themselves. -/
theorem alternation_nested (p q : Parser σ ε α) (ps qs rs : List (Parser σ ε α)) :
    alternation p (ps ++ alternation q qs :: rs) = alternation p (ps ++ q :: (qs ++ rs)) := by
  rw [← alternation_alternation, ← alternation_alternation, alternation_cons_eq_settle,
    alternation_cons_eq_settle, alternation_alternation q]

/-- An alternation may reject if its last alternative does, so only that one need be optional. -/
theorem optional_alternation_cons (default : α) (p q : Parser σ ε α) (ps : List (Parser σ ε α)) :
    ((alternation p (q :: ps)).optional default : Parser σ φ α) = p.settle fun
      | .error _ => (alternation q ps).optional default
      | .ok value => accept value := by
  rw [optional_eq_settle, alternation_cons_eq_settle, settle_settle]
  exact p.settle_congr (fun _ => rfl) fun _ => (optional_eq_settle default _).symm

/-! ## Grouping -/

/-- Where a parser does what `p` does and `f` is applied to its verdict, so it is for the groups of
both, if `f` leaves matches matches and makes no others. -/
theorem run_rewinding_of_run {f : Verdict ε α → Verdict φ β}
    (hf : ∀ verdict, (f verdict).isAccepted = verdict.isAccepted) {p : Parser σ ε α}
    {q : Parser σ φ β} (hq : ∀ s, q.run s =
      match p.run s with
      | .ok verdict t => .ok (f verdict) t
      | .error halt t => .error halt t) (s : Scanner σ) :
    (rewinding q).run s =
      match (rewinding p).run s with
      | .ok verdict t => .ok (f verdict) t
      | .error halt t => .error halt t := by
  unfold rewinding
  rw [run_rewindingUnless, run_rewindingUnless, hq]
  rcases p.run _ with ⟨verdict, t⟩ | _
  · dsimp only
    rw [hf]
    split
    · rfl
    · cases Scan.rewind s.cursor.position t <;> rfl
  · rfl

theorem map_rewinding (f : α → β) (p : Parser σ ε α) :
    (rewinding p).map f = rewinding (p.map f) := by
  apply eq_of_run_eq
  intro s
  rw [run_map]
  exact (run_rewinding_of_run (Verdict.isAccepted_map f) (run_map · f p) s).symm

theorem mapError_rewinding (f : ε → φ) (p : Parser σ ε α) :
    (rewinding p).mapError f = rewinding (p.mapError f) := by
  apply eq_of_run_eq
  intro s
  rw [run_mapError]
  exact (run_rewinding_of_run (Verdict.isAccepted_mapError f) (run_mapError · f p) s).symm

theorem inOrder_append (ps qs : List (Parser σ ε α)) :
    inOrder (ps ++ qs) =
      (inOrder ps).andThen fun values => (inOrder qs).map (values ++ ·) := by
  change _ = inOrder ps >>= fun values => (inOrder qs).map (values ++ ·)
  induction ps with
  | nil => simp [inOrder, map_eq_functor_map]
  | cons p ps ih => simp [inOrder, ih, map_eq_functor_map]

theorem concatenation_pair (p q : Parser σ ε α) :
    concatenation [p, q] =
      rewinding (p.andThen fun first => q.map fun second => [first, second]) := by
  change _ = rewinding (p >>= fun first => q.map fun second => [first, second])
  unfold concatenation
  simp only [map_eq_functor_map, inOrder, map_eq_pure_bind, bind_assoc, pure_bind]

/-- A function of two parsers in a row, applied to their values. -/
theorem map_concatenation_pair (f : List α → β) (p q : Parser σ ε α) :
    (concatenation [p, q]).map f =
      rewinding (p >>= fun first => q.map fun second => f [first, second]) := by
  unfold concatenation
  rw [map_rewinding]
  simp only [map_eq_functor_map, inOrder, map_eq_pure_bind, bind_assoc, pure_bind]

end StreamGrammar.Parser
