import StreamGrammar.Proofs.Parser.Recognizer
import Mathlib.Computability.Language

/-!
# Recognizers of languages

What may match is a language, a set of words. A recognizer `Munches` a language if it takes the
longest word that the bytes begin with, rejects bytes that begin with no word, and waits exactly
where the bytes that are there are the beginning of a longer word. A recognizer never takes a word
back, so where words of two languages follow each other, a word of the first one must be seen to end
before the second one begins (`Separate`). With this, the recognizers of concatenations, unions and
repetitions munch the concatenations, unions and repetitions of languages.
-/

namespace StreamGrammar.Recognizer

open Computability

variable {l m m' : Language UInt8} {b : UInt8}

/-! ## Where words end -/

/-- No word goes on with the byte in a longer word. -/
def EndsBefore (l : Language UInt8) (b : UInt8) : Prop := ∀ u ∈ l, ∀ w ∈ l, ¬ (u ++ [b]) <+: w

/-- No word of the first language goes on with a byte that begins a word of the second one. -/
def Separate (l m : Language UInt8) : Prop := ∀ ⦃b z⦄, b :: z ∈ m → EndsBefore l b

/-- No words of the two languages begin with the same byte. -/
def Apart (l m : Language UInt8) : Prop := ∀ ⦃b u v⦄, b :: u ∈ l → b :: v ∉ m

/-- The words of one byte that passes `test`. -/
def single (test : UInt8 → Bool) : Language UInt8 := {w | ∃ b, test b = true ∧ w = [b]}

/-- The words of bytes that pass `test`, but the empty one. -/
def runs (test : UInt8 → Bool) : Language UInt8 := {w | w ≠ [] ∧ ∀ b ∈ w, test b = true}

theorem singleton_eq_single (code : UInt8) : ({[code]} : Language UInt8) = single (· == code) := by
  ext w
  constructor
  · rintro rfl
    exact ⟨code, beq_self_eq_true code, rfl⟩
  · rintro ⟨b, hb, rfl⟩
    rw [beq_iff_eq.mp hb]
    rfl

theorem nil_notMem_single (test : UInt8 → Bool) : [] ∉ single test := by
  rintro ⟨b, -, hnil⟩
  cases hnil

theorem nil_notMem_runs (test : UInt8 → Bool) : [] ∉ runs test := fun h => h.1 rfl

/-- A word that is put together of two is empty only if both are. -/
theorem nil_notMem_mul (hl : [] ∉ l) : [] ∉ l * m := by
  intro h
  obtain ⟨u, hu, v, -, hnil⟩ := Language.mem_mul.mp h
  obtain ⟨rfl, -⟩ := List.append_eq_nil_iff.mp hnil
  exact hl hu

/-- What a word of a concatenation begins with, a word of the first language begins with. -/
theorem exists_cons_of_mul (hl : [] ∉ l) {z : List UInt8} (h : b :: z ∈ l * m) :
    ∃ z', b :: z' ∈ l := by
  obtain ⟨u, hu, v, -, heq⟩ := Language.mem_mul.mp h
  cases u with
  | nil => exact absurd hu hl
  | cons c u =>
    obtain rfl : c = b := (List.cons.inj heq).1
    exact ⟨u, hu⟩

theorem exists_cons_of_kstar (hl : [] ∉ l) {z : List UInt8} (h : b :: z ∈ l∗) :
    ∃ z', b :: z' ∈ l := by
  rw [← Language.one_add_self_mul_kstar_eq_kstar] at h
  rcases (Language.mem_add _ _ _).mp h with h | h
  · cases (Language.mem_one _).mp h
  · exact exists_cons_of_mul hl h

theorem append_mem_kstar {u w : List UInt8} (hu : u ∈ l∗) (hw : w ∈ l) : u ++ w ∈ l∗ :=
  (kstar_mul_le_kstar : l∗ * l ≤ l∗) (Language.append_mem_mul hu hw)

/-- What begins a repetition of words is a repetition with the beginning of a word behind it, or
nothing. By induction on the words. -/
theorem exists_of_prefix_kstar {bytes word : List UInt8} (hword : word ∈ l∗)
    (hpre : bytes <+: word) :
    ∃ u ∈ l∗, ∃ part, bytes = u ++ part ∧ (part = [] ∨ ∃ w ∈ l, part <+: w) := by
  obtain ⟨words, rfl, hwords⟩ := Language.mem_kstar.mp hword
  clear hword
  induction words generalizing bytes with
  | nil =>
    obtain rfl := List.prefix_nil.mp hpre
    exact ⟨[], Language.nil_mem_kstar l, [], rfl, .inl rfl⟩
  | cons w words ih =>
    rw [List.flatten_cons] at hpre
    obtain ⟨hw, hwords⟩ := List.forall_mem_cons.mp hwords
    rcases List.prefix_or_prefix_of_prefix hpre (List.prefix_append w _) with hpart | ⟨rest, rfl⟩
    · exact ⟨[], Language.nil_mem_kstar l, bytes, rfl, .inr ⟨w, hw, hpart⟩⟩
    · obtain ⟨u, hu, part, rfl, hpart⟩ := ih hwords ((List.prefix_append_right_inj w).mp hpre)
      refine ⟨w ++ u, ?_, part, (List.append_assoc _ _ _).symm, hpart⟩
      exact (mul_kstar_le_kstar : l * l∗ ≤ l∗) (Language.append_mem_mul hw hu)

theorem Separate.of_first (h : Separate l m) (hfirst : ∀ b z, b :: z ∈ m' → ∃ z', b :: z' ∈ m) :
    Separate l m' := by
  intro b z hz
  obtain ⟨z', hz'⟩ := hfirst b z hz
  exact h hz'

theorem separate_one : Separate l 1 := by
  intro b z hz
  cases (Language.mem_one _).mp hz

/-- Where two words of the first language begin the same bytes, and the shorter one is followed by a
word of the second one, this is empty or the two are the same. -/
theorem Separate.eq_or_nil (h : Separate l m) {u w z whole : List UInt8} (hu : u ∈ l) (hw : w ∈ l)
    (hz : z ∈ m) (hle : u.length ≤ w.length) (huz : (u ++ z) <+: whole) (hwhole : w <+: whole) :
    u = w ∨ z = [] := by
  cases z with
  | nil => exact .inr rfl
  | cons b z =>
    left
    have huw : u <+: w :=
      List.prefix_of_prefix_length_le ((List.prefix_append _ _).trans huz) hwhole hle
    by_contra hne
    have hlt : u.length < w.length :=
      Nat.lt_of_le_of_ne hle fun heq => hne (huw.eq_of_length heq)
    -- The byte behind the shorter word is one of the longer word.
    have hnext : (u ++ [b]) <+: w := by
      refine List.prefix_of_prefix_length_le ?_ hwhole ?_
      · rw [List.append_cons] at huz
        exact (List.prefix_append _ _).trans huz
      · rw [List.length_append]
        exact hlt
    exact h hz u hu w hw hnext

/-- A word of a concatenation, which begins with no longer word of the first language than `w` and
is part of what begins with `w`: it goes on behind `w` with a word of the second language, or it is
itself a word of the first one. -/
theorem Separate.eq_append_or_mem (h : Separate l m) {w rest word : List UInt8} (hw : w ∈ l)
    (hlongest : ∀ u ∈ l, u <+: word → u.length ≤ w.length) (hword : word ∈ l * m)
    (hpre : word <+: (w ++ rest)) :
    (∃ x ∈ m, word = w ++ x ∧ x <+: rest) ∨ (word ∈ l ∧ [] ∈ m) := by
  obtain ⟨u, hu, x, hx, rfl⟩ := Language.mem_mul.mp hword
  have hle := hlongest u hu (List.prefix_append _ _)
  rcases h.eq_or_nil hu hw hx hle hpre (List.prefix_append _ _) with rfl | rfl
  · exact .inl ⟨x, hx, rfl, (List.prefix_append_right_inj _).mp hpre⟩
  · exact .inr ⟨(List.append_nil u).symm ▸ hu, hx⟩

theorem endsBefore_single (test : UInt8 → Bool) (b : UInt8) : EndsBefore (single test) b := by
  rintro _ ⟨c, -, rfl⟩ _ ⟨d, -, rfl⟩ h
  exact absurd h.length_le (Nat.not_succ_le_self 1)

theorem separate_single (test : UInt8 → Bool) : Separate (single test) m :=
  fun b _ _ => endsBefore_single test b

theorem endsBefore_runs {test : UInt8 → Bool} (hb : test b = false) :
    EndsBefore (runs test) b := by
  rintro u - w ⟨-, hw⟩ h
  have hmem : b ∈ w := h.subset (List.mem_append_right u List.mem_cons_self)
  rw [hw b hmem] at hb
  cases hb

/-- A run of bytes ends before a byte of another kind. -/
theorem separate_runs {test test' : UInt8 → Bool} (h : ∀ b, test' b = true → test b = false) :
    Separate (runs test) (single test' * m) := by
  intro b z hz
  obtain ⟨z', c, hc, heq⟩ := exists_cons_of_mul (nil_notMem_single test') hz
  obtain rfl : b = c := (List.cons.inj heq).1
  exact endsBefore_runs (h b hc)

theorem EndsBefore.mul (h : Separate l m) (hm : EndsBefore m b) (hnil : [] ∉ m) :
    EndsBefore (l * m) b := by
  intro uz huz wx hwx hpre
  obtain ⟨u, hu, z, hz, rfl⟩ := Language.mem_mul.mp huz
  obtain ⟨w, hw, x, hx, rfl⟩ := Language.mem_mul.mp hwx
  have huz' : (u ++ z) <+: (w ++ x) := (List.prefix_append _ _).trans hpre
  -- The words of the first language are the same, as each is followed by one that is not empty.
  have heq : u = w := by
    rcases Nat.le_total u.length w.length with hle | hle
    · refine (h.eq_or_nil hu hw hz hle huz' (List.prefix_append _ _)).resolve_right fun hz' => ?_
      exact hnil (hz' ▸ hz)
    · have hu' : u <+: (w ++ x) := (List.prefix_append _ _).trans huz'
      refine ((h.eq_or_nil hw hu hx hle (List.prefix_refl _) hu').resolve_right fun hx' => ?_).symm
      exact hnil (hx' ▸ hx)
  subst heq
  rw [List.append_assoc, List.prefix_append_right_inj] at hpre
  exact hm z hz x hx hpre

/-- Words of which the first byte tells to which language they belong. -/
theorem EndsBefore.add (hl : EndsBefore l b) (hm : EndsBefore m b) (h : Apart l m)
    (hnil : [] ∉ l) (hnil' : [] ∉ m) : EndsBefore (l + m) b := by
  -- A word that begins another one is of the same language.
  have hapart {u w : List UInt8} (hu : u ∈ l) (hw : w ∈ m) : ¬ (u ++ [b]) <+: w ∧
      ¬ (w ++ [b]) <+: u := by
    cases u with
    | nil => exact absurd hu hnil
    | cons c u =>
      cases w with
      | nil => exact absurd hw hnil'
      | cons d w =>
        have hne : c ≠ d := fun heq => h hu (heq ▸ hw)
        constructor
        · exact fun hpre => hne (List.cons_prefix_cons.mp hpre).1
        · exact fun hpre => hne (List.cons_prefix_cons.mp hpre).1.symm
  intro u hu w hw
  rcases (Language.mem_add _ _ _).mp hu with hu | hu <;>
    rcases (Language.mem_add _ _ _).mp hw with hw | hw
  · exact hl u hu w hw
  · exact (hapart hu hw).1
  · exact (hapart hw hu).2
  · exact hm u hu w hw

/-! ## Longest words -/

/-- More bytes may follow, and may make a longer word of all of them. -/
def GoesOn (l : Language UInt8) (ended : Bool) (bytes : List UInt8) : Prop :=
  ended = false ∧ ∃ more, more ≠ [] ∧ bytes ++ more ∈ l

/-- Where every word may be longer, bytes go on that begin a word. -/
theorem goesOn_iff {ended : Bool} {bytes : List UInt8}
    (hlonger : ∀ w ∈ l, ∃ more, more ≠ [] ∧ w ++ more ∈ l) :
    GoesOn l ended bytes ↔ ended = false ∧ ∃ w ∈ l, bytes <+: w := by
  refine and_congr_right fun _ => ⟨?_, ?_⟩
  · rintro ⟨more, -, hmem⟩
    exact ⟨_, hmem, List.prefix_append _ _⟩
  · rintro ⟨_, hmem, rest, rfl⟩
    obtain ⟨more, hne, hmore⟩ := hlonger _ hmem
    refine ⟨rest ++ more, List.append_ne_nil_of_right_ne_nil _ hne, ?_⟩
    rw [← List.append_assoc]
    exact hmore

/-- The verdict on some bytes is the one that a language calls for: it takes the longest word that
the bytes begin with, rejects if there is none, and leaves open exactly where the word may go on. -/
structure IsLongest {α : Type} (l : Language UInt8) (ended : Bool) (bytes : List UInt8)
    (verdict : Verdict Unit (α × List UInt8)) : Prop where
  undecided_iff : verdict = .undecided ↔ GoesOn l ended bytes
  accepted : ∀ value rest, verdict = .accepted (value, rest) →
    ∃ w ∈ l, bytes = w ++ rest ∧ ∀ u ∈ l, u <+: bytes → u.length ≤ w.length
  rejected : verdict = .rejected () → ∀ u ∈ l, ¬ u <+: bytes

variable {α β : Type} {r other : Recognizer α} {ended : Bool} {bytes : List UInt8}

/-- The recognizer does what the language calls for. -/
def Munches (r : Recognizer α) (l : Language UInt8) : Prop :=
  ∀ ended bytes, IsLongest l ended bytes (r ended bytes)

namespace IsLongest

variable {verdict : Verdict Unit (α × List UInt8)}

theorem of_undecided (h : GoesOn l ended bytes) :
    IsLongest l ended bytes (.undecided : Verdict Unit (α × List UInt8)) where
  undecided_iff := iff_of_true rfl h
  accepted := nofun
  rejected := nofun

theorem of_rejected (h : ¬ GoesOn l ended bytes) (hnone : ∀ u ∈ l, ¬ u <+: bytes) :
    IsLongest l ended bytes (.rejected () : Verdict Unit (α × List UInt8)) where
  undecided_iff := iff_of_false nofun h
  accepted := nofun
  rejected := fun _ => hnone

theorem of_accepted {w rest : List UInt8} (h : ¬ GoesOn l ended bytes) (hw : w ∈ l)
    (hbytes : bytes = w ++ rest) (hlongest : ∀ u ∈ l, u <+: bytes → u.length ≤ w.length)
    (value : α) : IsLongest l ended bytes (.accepted (value, rest)) where
  undecided_iff := iff_of_false nofun h
  accepted := by
    intro value' rest' heq
    obtain ⟨-, rfl⟩ := Prod.mk.inj (Verdict.accepted.inj heq)
    exact ⟨w, hw, hbytes, hlongest⟩
  rejected := nofun

/-- A verdict is only given where no word goes on behind the bytes. -/
theorem not_goesOn (h : IsLongest l ended bytes verdict) (hsettled : verdict.isUndecided = false) :
    ¬ GoesOn l ended bytes := by
  intro hmore
  rw [h.undecided_iff.mpr hmore] at hsettled
  cases hsettled

/-- Where no word goes on behind the bytes, they begin with every word that goes as far. -/
theorem isPrefix (h : ¬ GoesOn l ended bytes) (hopen : ended = false) {u more : List UInt8}
    (hu : u ∈ l) (hmore : u <+: (bytes ++ more)) : u <+: bytes := by
  by_contra hnot
  have hlt : bytes.length < u.length := by
    by_contra hle
    have hbytes : bytes <+: (bytes ++ more) := List.prefix_append _ _
    exact hnot (List.prefix_of_prefix_length_le hmore hbytes (Nat.le_of_not_lt hle))
  obtain ⟨x, rfl⟩ :=
    List.prefix_of_prefix_length_le (List.prefix_append _ _) hmore (Nat.le_of_lt hlt)
  have hne : x ≠ [] := by
    rintro rfl
    rw [List.append_nil] at hlt
    exact Nat.lt_irrefl _ hlt
  exact h ⟨hopen, x, hne, hu⟩

theorem map (h : IsLongest l ended bytes verdict) (f : α → β) :
    IsLongest l ended bytes (verdict.map fun (value, rest) => (f value, rest)) := by
  rcases verdict with ⟨value, rest⟩ | _ | _
  · obtain ⟨w, hw, rfl, hlongest⟩ := h.accepted _ _ rfl
    exact .of_accepted (h.not_goesOn rfl) hw rfl hlongest _
  · exact .of_undecided (h.undecided_iff.mp rfl)
  · exact .of_rejected (h.not_goesOn rfl) (h.rejected rfl)

theorem captured (h : IsLongest l ended bytes (r ended bytes)) :
    IsLongest l ended bytes (r.captured ended bytes) := by
  unfold Recognizer.captured
  rcases hverdict : r ended bytes with ⟨value, rest⟩ | _ | _ <;> rw [hverdict] at h
  · obtain ⟨w, hw, hbytes, hlongest⟩ := h.accepted _ _ rfl
    exact .of_accepted (h.not_goesOn rfl) hw hbytes hlongest _
  · exact .of_undecided (h.undecided_iff.mp rfl)
  · exact .of_rejected (h.not_goesOn rfl) (h.rejected rfl)

/-- Words of one language and then of another one. Once the first recognizer has taken a word, no
other word of the first language can be followed by one of the second. -/
theorem andThen {next : α → Recognizer β} (h : IsLongest l ended bytes (r ended bytes))
    (hnext : ∀ value rest, r ended bytes = .accepted (value, rest) →
      IsLongest m ended rest (next value ended rest)) (hsep : Separate l m) (hm : ∃ z, z ∈ m) :
    IsLongest (l * m) ended bytes (r.andThen next ended bytes) := by
  unfold Recognizer.andThen
  rcases hverdict : r ended bytes with ⟨value, rest⟩ | _ | _ <;> rw [hverdict] at h
  · have hrest := hnext value rest hverdict
    have hsettled := h.not_goesOn rfl
    obtain ⟨w, hw, rfl, hlongest⟩ := h.accepted _ _ rfl
    -- What a word of the concatenation is that the bytes begin with.
    have hsplit {word : List UInt8} (hword : word ∈ l * m) (hpre : word <+: (w ++ rest)) :=
      hsep.eq_append_or_mem hw (fun u hu hu' => hlongest u hu (hu'.trans hpre)) hword hpre
    refine ⟨hrest.undecided_iff.trans ⟨?_, ?_⟩, ?_, ?_⟩
    · rintro ⟨hopen, more, hne, hmem⟩
      refine ⟨hopen, more, hne, ?_⟩
      rw [List.append_assoc]
      exact Language.append_mem_mul hw hmem
    · rintro ⟨hopen, more, hne, hmem⟩
      have hbehind : (w ++ rest ++ more) <+: (w ++ (rest ++ more)) := by
        rw [List.append_assoc]
      have hlongest' (u : List UInt8) (hu : u ∈ l) (hpre : u <+: (w ++ rest ++ more)) :
          u.length ≤ w.length :=
        hlongest u hu (isPrefix hsettled hopen hu hpre)
      rcases hsep.eq_append_or_mem hw hlongest' hmem hbehind with ⟨x, hx, heq, -⟩ | ⟨hmem, -⟩
      · rw [List.append_assoc] at heq
        exact ⟨hopen, more, hne, List.append_cancel_left heq ▸ hx⟩
      · exact absurd ⟨hopen, more, hne, hmem⟩ hsettled
    · intro value' rest' heq
      obtain ⟨z, hz, rfl, hlongest'⟩ := hrest.accepted _ _ heq
      refine ⟨w ++ z, Language.append_mem_mul hw hz, (List.append_assoc _ _ _).symm, ?_⟩
      intro word hword hpre
      rw [List.length_append]
      rcases hsplit hword hpre with ⟨x, hx, rfl, hpre'⟩ | ⟨hword', -⟩
      · rw [List.length_append]
        exact Nat.add_le_add_left (hlongest' x hx hpre') _
      · exact Nat.le_add_right_of_le (hlongest word hword' hpre)
    · intro heq word hword hpre
      rcases hsplit hword hpre with ⟨x, hx, -, hpre'⟩ | ⟨-, hnil⟩
      · exact hrest.rejected heq x hx hpre'
      · exact hrest.rejected heq [] hnil List.nil_prefix
  · obtain ⟨hopen, more, hne, hmem⟩ := h.undecided_iff.mp rfl
    obtain ⟨z, hz⟩ := hm
    refine .of_undecided ⟨hopen, more ++ z, ?_, ?_⟩
    · exact fun hnil => hne (List.append_eq_nil_iff.mp hnil).1
    · rw [← List.append_assoc]
      exact Language.append_mem_mul hmem hz
  · have hnone := h.rejected rfl
    have hsettled := h.not_goesOn rfl
    refine .of_rejected ?_ ?_
    · rintro ⟨hopen, more, hne, hmem⟩
      obtain ⟨u, hu, z, hz, heq⟩ := Language.mem_mul.mp hmem
      exact hnone u hu (isPrefix hsettled hopen hu ⟨z, heq⟩)
    · intro uz huz hpre
      obtain ⟨u, hu, z, -, rfl⟩ := Language.mem_mul.mp huz
      exact hnone u hu ((List.prefix_append _ _).trans hpre)

/-- Words of either of two languages, where the first byte tells which. -/
theorem orElse (h : IsLongest l ended bytes (r ended bytes))
    (hother : IsLongest m ended bytes (other ended bytes)) (hapart : Apart l m) (hnil : [] ∉ l) :
    IsLongest (l + m) ended bytes (r.orElse other ended bytes) := by
  unfold Recognizer.orElse
  rcases hverdict : r ended bytes with ⟨value, rest⟩ | _ | _ <;> rw [hverdict] at h
  · have hsettled := h.not_goesOn rfl
    obtain ⟨w, hw, rfl, hlongest⟩ := h.accepted _ _ rfl
    cases w with
    | nil => exact absurd hw hnil
    | cons b w =>
      refine .of_accepted ?_ ((Language.mem_add _ _ _).mpr (.inl hw)) rfl ?_ value
      · rintro ⟨hopen, more, hne, hmem⟩
        rcases (Language.mem_add _ _ _).mp hmem with hmem | hmem
        · exact hsettled ⟨hopen, more, hne, hmem⟩
        · exact absurd hmem (hapart hw)
      · intro u hu hpre
        rcases (Language.mem_add _ _ _).mp hu with hu | hu
        · exact hlongest u hu hpre
        · cases u with
          | nil => exact Nat.zero_le _
          | cons c u =>
            obtain rfl : c = b := (List.cons_prefix_cons.mp hpre).1
            exact absurd hu (hapart hw)
  · obtain ⟨hopen, more, hne, hmem⟩ := h.undecided_iff.mp rfl
    exact .of_undecided ⟨hopen, more, hne, (Language.mem_add _ _ _).mpr (.inl hmem)⟩
  · have hnone := h.rejected rfl
    have hsettled := h.not_goesOn rfl
    refine ⟨hother.undecided_iff.trans ⟨?_, ?_⟩, ?_, ?_⟩
    · rintro ⟨hopen, more, hne, hmem⟩
      exact ⟨hopen, more, hne, (Language.mem_add _ _ _).mpr (.inr hmem)⟩
    · rintro ⟨hopen, more, hne, hmem⟩
      refine ⟨hopen, more, hne, ((Language.mem_add _ _ _).mp hmem).resolve_left fun hmem => ?_⟩
      exact hsettled ⟨hopen, more, hne, hmem⟩
    · intro value rest heq
      obtain ⟨w, hw, hbytes, hlongest⟩ := hother.accepted _ _ heq
      refine ⟨w, (Language.mem_add _ _ _).mpr (.inr hw), hbytes, fun u hu hpre => ?_⟩
      rcases (Language.mem_add _ _ _).mp hu with hu | hu
      · exact absurd hpre (hnone u hu)
      · exact hlongest u hu hpre
    · intro heq u hu hpre
      rcases (Language.mem_add _ _ _).mp hu with hu | hu
      · exact hnone u hu hpre
      · exact hother.rejected heq u hu hpre

end IsLongest

/-! ## The recognizers -/

/-- To take as many words as there are is to take one and then the others, or else none, as there is
nothing that makes the others be rejected. -/
theorem many_eq_orElse (hr : r.Takes 1)
    (hothers : ∀ value rest, r ended bytes = .accepted (value, rest) →
      many r ended rest ≠ .rejected ()) :
    many r ended bytes =
      (r.andThen fun value => Recognizer.map (value :: ·) (many r)).orElse (accept []) ended
        bytes := by
  unfold Recognizer.orElse Recognizer.andThen
  rcases hverdict : r ended bytes with ⟨value, rest⟩ | _ | _
  · rw [many_of_accepted hr hverdict]
    have hnot := hothers value rest hverdict
    unfold Recognizer.map
    dsimp only
    rcases hrest : many r ended rest with _ | _ | _
    · rfl
    · rfl
    · exact absurd hrest hnot
  · rw [many, hverdict]
  · rw [many, hverdict]
    rfl

theorem munches_accept (value : α) : (accept value).Munches 1 := by
  intro ended bytes
  have hsettled : ¬ GoesOn 1 ended bytes := by
    rintro ⟨-, more, hne, hmem⟩
    exact hne (List.append_eq_nil_iff.mp ((Language.mem_one _).mp hmem)).2
  refine .of_accepted hsettled ((Language.mem_one _).mpr rfl) rfl (fun u hu _ => ?_) value
  exact Nat.le_of_eq (congrArg List.length ((Language.mem_one _).mp hu))

theorem munches_byte {test : UInt8 → Bool} (hsome : ∃ b, test b = true) :
    (byte test).Munches (single test) := by
  obtain ⟨c, hc⟩ := hsome
  intro ended bytes
  cases bytes with
  | nil =>
    have hnone : ∀ u ∈ single test, ¬ u <+: [] := by
      rintro _ ⟨b, -, rfl⟩ hpre
      cases List.prefix_nil.mp hpre
    unfold byte missing
    cases ended with
    | true => exact .of_rejected (fun h => Bool.noConfusion h.1) hnone
    | false => exact .of_undecided ⟨rfl, [c], List.cons_ne_nil _ _, c, hc, rfl⟩
  | cons b rest =>
    have hsettled : ¬ GoesOn (single test) ended (b :: rest) := by
      rintro ⟨-, more, hne, d, -, heq⟩
      exact hne (List.append_eq_nil_iff.mp (List.cons.inj heq).2).2
    rw [byte]
    split
    · next htest =>
      have hmem : [b] ∈ single test := ⟨b, htest, rfl⟩
      refine .of_accepted hsettled hmem rfl ?_ b
      rintro _ ⟨d, -, rfl⟩ -
      exact Nat.le_refl _
    · next htest =>
      refine .of_rejected hsettled ?_
      rintro _ ⟨d, hd, rfl⟩ hpre
      exact htest ((List.cons_prefix_cons.mp hpre).1 ▸ hd)

theorem munches_sign (code : UInt8) : (byte (· == code)).Munches (single (· == code)) :=
  munches_byte ⟨code, beq_self_eq_true code⟩

theorem munches_munch {test : UInt8 → Bool} (hsome : ∃ b, test b = true) :
    (munch test).Munches (runs test) := by
  obtain ⟨c, hc⟩ := hsome
  intro ended bytes
  -- A word that the bytes begin with is part of the run that they begin with.
  have hrun {u : List UInt8} (hu : u ∈ runs test) (hpre : u <+: bytes) :
      u <+: bytes.takeWhile test := by
    obtain ⟨x, rfl⟩ := hpre
    rw [List.takeWhile_append_of_pos hu.2]
    exact List.prefix_append _ _
  have hopen_iff : (∃ more, more ≠ [] ∧ bytes ++ more ∈ runs test) ↔ bytes.dropWhile test = [] := by
    rw [List.dropWhile_eq_nil_iff]
    constructor
    · rintro ⟨more, -, -, hall⟩ b hb
      exact hall b (List.mem_append_left _ hb)
    · intro hall
      refine ⟨[c], List.cons_ne_nil _ _, ?_, fun b hb => ?_⟩
      · simp
      · rcases List.mem_append.mp hb with hb | hb
        · exact hall b hb
        · exact List.mem_singleton.mp hb ▸ hc
  unfold munch
  split
  · next hwait => exact .of_undecided ⟨hwait.2, hopen_iff.mpr hwait.1⟩
  · next hwait =>
    have hsettled : ¬ GoesOn (runs test) ended bytes := fun h => hwait ⟨hopen_iff.mp h.2, h.1⟩
    split
    · next hnone =>
      refine .of_rejected hsettled fun u hu hpre => ?_
      exact hu.1 (List.prefix_nil.mp (hnone ▸ hrun hu hpre))
    · next hsome =>
      have hmem : bytes.takeWhile test ∈ runs test :=
        ⟨hsome, fun b hb => List.mem_takeWhile_imp hb⟩
      exact .of_accepted hsettled hmem List.takeWhile_append_dropWhile.symm
        (fun u hu hpre => (hrun hu hpre).length_le) _

namespace Munches

theorem map (h : r.Munches l) (f : α → β) : (r.map f).Munches l :=
  fun ended bytes => (h ended bytes).map f

theorem andThen {next : α → Recognizer β} (h : r.Munches l)
    (hnext : ∀ value, (next value).Munches m) (hsep : Separate l m) (hm : ∃ z, z ∈ m) :
    (r.andThen next).Munches (l * m) :=
  fun ended bytes => (h ended bytes).andThen (fun value rest _ => hnext value ended rest) hsep hm

theorem orElse (h : r.Munches l) (hother : other.Munches m) (hapart : Apart l m) (hnil : [] ∉ l) :
    (r.orElse other).Munches (l + m) :=
  fun ended bytes => (h ended bytes).orElse (hother ended bytes) hapart hnil

/-- Two recognizers, one after the other. -/
theorem pair {other : Recognizer α} (h : r.Munches l) (hother : other.Munches m)
    (hsep : Separate l m) (hm : ∃ z, z ∈ m) : (inOrder [r, other]).Munches (l * m) := by
  have hpair : inOrder [r, other] =
      r.andThen fun first => other.map fun second => [first, second] := by simp [inOrder]
  rw [hpair]
  exact h.andThen (fun first => hother.map _) hsep hm

theorem captured (h : r.Munches l) : r.captured.Munches l := fun ended bytes =>
  (h ended bytes).captured

/-- A word takes something, if the empty word is not one. -/
theorem takes (h : r.Munches l) (hnil : [] ∉ l) : r.Takes 1 := by
  intro ended bytes rest value heq
  obtain ⟨w, hw, rfl, -⟩ := (h ended bytes).accepted _ _ heq
  cases w with
  | nil => exact absurd hw hnil
  | cons b w =>
    rw [List.cons_append, List.length_cons, List.length_append]
    omega

/-- By induction on the bytes: a first word and then as many as there are, or none. -/
theorem many (h : r.Munches l) (hsep : Separate l l) (hnil : [] ∉ l) :
    Munches (Recognizer.many r) l∗ := by
  have hstar : Separate l l∗ := hsep.of_first fun b z => exists_cons_of_kstar hnil
  intro ended bytes
  induction hn : bytes.length using Nat.strongRecOn generalizing bytes with
  | ind n ih =>
    subst hn
    let more : Recognizer (List α) :=
      r.andThen fun value => Recognizer.map (value :: ·) (Recognizer.many r)
    have hmore : IsLongest (l * l∗) ended bytes (more ended bytes) := by
      refine (h ended bytes).andThen (fun value rest heq => ?_) hstar ⟨[], Language.nil_mem_kstar l⟩
      exact (ih rest.length (h.takes hnil heq) rest rfl).map _
    have hall : IsLongest (l * l∗ + 1) ended bytes (more.orElse (accept []) ended bytes) := by
      refine hmore.orElse (munches_accept [] ended bytes) (fun b u v _ hv => ?_)
        (nil_notMem_mul hnil)
      cases (Language.mem_one _).mp hv
    rw [add_comm, Language.one_add_self_mul_kstar_eq_kstar] at hall
    have heq : Recognizer.many r ended bytes = more.orElse (accept []) ended bytes := by
      refine many_eq_orElse (h.takes hnil) fun value rest haccepted hrejected => ?_
      have hrest := ih rest.length (h.takes hnil haccepted) rest rfl
      exact hrest.rejected hrejected [] (Language.nil_mem_kstar l) List.nil_prefix
    rw [heq]
    exact hall

/-- Elements with separators between them. It must be seen where an element ends and a separator
begins, and the other way round. -/
theorem sepBy {between : Recognizer β} (h : r.Munches l) (hbetween : between.Munches m)
    (hlm : Separate l m) (hml : Separate m l) (hl : [] ∉ l) (hm : [] ∉ m) (hsome : ∃ w, w ∈ l) :
    (r.sepBy between).Munches (l * (m * l)∗) := by
  have hnil : [] ∉ m * l := nil_notMem_mul hm
  have hnext : (between.andThen fun _ => r).Munches (m * l) :=
    hbetween.andThen (fun _ => h) hml hsome
  have hends : Separate (m * l) (m * l) := by
    intro b z hz
    obtain ⟨z', hz'⟩ := exists_cons_of_mul hm hz
    exact EndsBefore.mul hml (hlm hz') hl
  have hothers (first : α) : (Recognizer.andThen (Recognizer.many (between.andThen fun _ => r))
      fun others => accept (first :: others)).Munches (m * l)∗ := by
    have hmany := andThen (hnext.many hends hnil) (fun others => munches_accept (first :: others))
      separate_one ⟨[], (Language.mem_one _).mpr rfl⟩
    rwa [mul_one] at hmany
  refine h.andThen hothers (hlm.of_first fun b z hz => ?_) ⟨[], Language.nil_mem_kstar _⟩
  obtain ⟨z', hz'⟩ := exists_cons_of_kstar hnil hz
  exact exists_cons_of_mul hm hz'

/-- The words of the language are what is taken as a whole where the bytes are all. -/
theorem mem_iff (h : r.Munches l) {w : List UInt8} :
    w ∈ l ↔ ∃ value, r true w = .accepted (value, []) := by
  constructor
  · intro hw
    rcases hverdict : r true w with ⟨value, rest⟩ | _ | _
    · obtain ⟨u, -, hbytes, hlongest⟩ := (h true w).accepted _ _ hverdict
      have hle := hlongest w hw (List.prefix_refl _)
      have hlength := congrArg List.length hbytes
      rw [List.length_append] at hlength
      obtain rfl : rest = [] := List.length_eq_zero_iff.mp (by omega)
      exact ⟨value, rfl⟩
    · cases ((h true w).undecided_iff.mp hverdict).1
    · exact absurd (List.prefix_refl w) ((h true w).rejected hverdict w hw)
  · rintro ⟨value, heq⟩
    obtain ⟨u, hu, hbytes, -⟩ := (h true w).accepted _ _ heq
    rw [List.append_nil] at hbytes
    exact hbytes ▸ hu

end Munches

end StreamGrammar.Recognizer
