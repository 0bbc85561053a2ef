import Mathlib.Data.List.Basic

/-!
# Runs that make checks

A run makes checks one after the other and ends at the first that fails, with an error that the
check may give.  What is known of the checks in their order tells where it ends, and what holds
along the run is what holds of the checks it comes to (`Checks.Makes`).
-/

/-- Checks: which of them pass, and the errors that the others may give. -/
structure Checks (C E : Type) where
  passes : C → Prop
  gives : C → E → Prop

namespace Checks

variable {C E S : Type} (K : Checks C E) {l m : List C} {c d : C}

/-- The check `c` is one of `l` that is made: those before it pass. -/
def Reaches (l : List C) (c : C) : Prop :=
  ∃ l₁ l₂, l = l₁ ++ c :: l₂ ∧ ∀ d ∈ l₁, K.passes d

/-- The check `c` is the first of `l` that fails. -/
def StopsAt (l : List C) (c : C) : Prop := K.Reaches l c ∧ ¬ K.passes c

/-- All the checks of `l` pass. -/
def AllPass (l : List C) : Prop := ∀ c ∈ l, K.passes c

variable {K}

/-! ## The checks that are made -/

theorem Reaches.mem (h : K.Reaches l c) : c ∈ l := by
  obtain ⟨l₁, l₂, rfl, -⟩ := h
  exact List.mem_append_right _ List.mem_cons_self

@[simp] theorem not_reaches_nil : ¬ K.Reaches [] c := by
  intro h
  exact absurd h.mem List.not_mem_nil

@[simp] theorem reaches_cons : K.Reaches (c :: l) d ↔ d = c ∨ K.passes c ∧ K.Reaches l d := by
  constructor
  · rintro ⟨l₁, l₂, heq, hp⟩
    cases l₁ with
    | nil =>
      cases heq
      exact .inl rfl
    | cons c₁ l₁ =>
      cases heq
      rw [List.forall_mem_cons] at hp
      exact .inr ⟨hp.1, l₁, l₂, rfl, hp.2⟩
  · rintro (rfl | ⟨hc, l₁, l₂, rfl, hp⟩)
    · exact ⟨[], l, rfl, by simp⟩
    · exact ⟨c :: l₁, l₂, rfl, List.forall_mem_cons.mpr ⟨hc, hp⟩⟩

@[simp] theorem allPass_append : K.AllPass (l ++ m) ↔ K.AllPass l ∧ K.AllPass m :=
  List.forall_mem_append

theorem allPass_nil : K.AllPass [] := List.forall_mem_nil _

theorem allPass_singleton : K.AllPass [c] ↔ K.passes c := List.forall_mem_singleton

theorem reaches_append :
    K.Reaches (l ++ m) d ↔ K.Reaches l d ∨ K.AllPass l ∧ K.Reaches m d := by
  induction l with
  | nil => simp [AllPass]
  | cons c l ih =>
    rw [List.cons_append, reaches_cons, reaches_cons, ih, AllPass, AllPass, List.forall_mem_cons]
    tauto

/-- When all the checks pass, all are made. -/
theorem AllPass.reaches (h : K.AllPass l) : K.Reaches l c ↔ c ∈ l := by
  refine ⟨Reaches.mem, fun hc => ?_⟩
  obtain ⟨l₁, l₂, rfl⟩ := List.append_of_mem hc
  exact ⟨l₁, l₂, rfl, (allPass_append.mp h).1⟩

theorem StopsAt.not_allPass (h : K.StopsAt l c) : ¬ K.AllPass l := by
  intro hall
  exact h.2 (hall c h.1.mem)

/-- There is one check at most at which a run stops. -/
theorem StopsAt.unique (h : K.StopsAt l c) (h' : K.StopsAt l d) : c = d := by
  induction l with
  | nil => exact absurd h.1 not_reaches_nil
  | cons c₁ l ih =>
    obtain ⟨hc, hfails⟩ := h
    obtain ⟨hd, hfails'⟩ := h'
    rcases reaches_cons.mp hc with rfl | ⟨hp, hc⟩
    · rcases reaches_cons.mp hd with rfl | ⟨hp, -⟩
      · rfl
      · exact absurd hp hfails
    · rcases reaches_cons.mp hd with rfl | ⟨-, hd⟩
      · exact absurd hp hfails'
      · exact ih ⟨hc, hfails⟩ ⟨hd, hfails'⟩

/-- The checks that are made are those before the one that fails, and that one. -/
theorem StopsAt.reaches_append (h : K.StopsAt l c) (hd : K.Reaches (l ++ m) d) :
    K.Reaches l d := by
  rcases Checks.reaches_append.mp hd with hd | ⟨hall, -⟩
  · exact hd
  · exact absurd hall h.not_allPass

/-! ## Runs -/

/-- The run `x` makes the checks `l`: it succeeds in a state of `I` when they pass, and ends with
an error of the first that fails otherwise.  `A` says of the run that `R` holds of the checks it
comes to. -/
structure Makes (K : Checks C E) (I : S → Prop) (R : C → Prop) (l : List C) (x : Except E S)
    (A : Prop) : Prop where
  ok : ∀ s, x = .ok s → K.AllPass l ∧ I s
  error : ∀ e, x = .error e → ∃ c, K.StopsAt l c ∧ K.gives c e
  along : A ↔ ∀ c, K.Reaches l c → R c

namespace Makes

variable {I : S → Prop} {R : C → Prop} {x : Except E S} {A : Prop}

theorem congr {B : Prop} (h : K.Makes I R l x A) (hAB : B ↔ A) : K.Makes I R l x B :=
  ⟨h.ok, h.error, hAB.trans h.along⟩

/-- A run that makes no check. -/
theorem nil {s : S} (hs : I s) : K.Makes I R [] (.ok s) True where
  ok := by
    rintro _ ⟨⟩
    exact ⟨allPass_nil, hs⟩
  error := by
    rintro _ ⟨⟩
  along := by simp

/-- A check. -/
theorem check (hok : ∀ s, x = .ok s → K.passes c ∧ I s)
    (herr : ∀ e, x = .error e → ¬ K.passes c ∧ K.gives c e) (hA : A ↔ R c) :
    K.Makes I R [c] x A where
  ok s hs := ⟨allPass_singleton.mpr (hok s hs).1, (hok s hs).2⟩
  error e he := ⟨c, ⟨reaches_cons.mpr (.inl rfl), (herr e he).1⟩, (herr e he).2⟩
  along := by simp [hA]

/-- What holds along a run and the one after it. -/
theorem bind {f : S → Except E S} {B : S → Prop} (hx : K.Makes I R l x A)
    (hf : ∀ s, x = .ok s → I s → K.Makes I R m (f s) (B s)) :
    K.Makes I R (l ++ m) (x >>= f) (A ∧ ∀ s, x = .ok s → B s) := by
  cases x with
  | error e =>
    obtain ⟨c, hc, hgives⟩ := hx.error e rfl
    refine ⟨nofun, fun e' he => ?_, ?_⟩
    · cases he
      exact ⟨c, ⟨Checks.reaches_append.mpr (.inl hc.1), hc.2⟩, hgives⟩
    · rw [hx.along]
      refine ⟨fun h d hd => h.1 d (hc.reaches_append hd), fun h => ⟨fun d hd => ?_, nofun⟩⟩
      exact h d (Checks.reaches_append.mpr (.inl hd))
  | ok s =>
    obtain ⟨hall, hs⟩ := hx.ok s rfl
    have hfs := hf s rfl hs
    refine ⟨fun s' hs' => ?_, fun e he => ?_, ?_⟩
    · obtain ⟨hall', hs'⟩ := hfs.ok s' hs'
      exact ⟨allPass_append.mpr ⟨hall, hall'⟩, hs'⟩
    · obtain ⟨c, hc, hgives⟩ := hfs.error e he
      exact ⟨c, ⟨Checks.reaches_append.mpr (.inr ⟨hall, hc.1⟩), hc.2⟩, hgives⟩
    · have hB : (∀ s', Except.ok s = (.ok s' : Except E S) → B s') ↔ B s :=
        ⟨fun h => h s rfl, by rintro h _ ⟨⟩; exact h⟩
      rw [hB, hx.along, hfs.along]
      refine ⟨fun h d hd => ?_, fun h => ⟨fun d hd => ?_, fun d hd => ?_⟩⟩
      · rcases Checks.reaches_append.mp hd with hd | ⟨-, hd⟩
        · exact h.1 d hd
        · exact h.2 d hd
      · exact h d (Checks.reaches_append.mpr (.inl hd))
      · exact h d (Checks.reaches_append.mpr (.inr ⟨hall, hd⟩))

/-- What comes after makes no check and never fails. -/
theorem andThen {f : S → Except E S} (hx : K.Makes I R l x A)
    (hf : ∀ s, x = .ok s → I s → ∃ s', f s = .ok s' ∧ I s') : K.Makes I R l (x >>= f) A := by
  have h := hx.bind (m := []) (f := f) (B := fun _ => True) fun s hs hI => by
    obtain ⟨s', hs', hI'⟩ := hf s hs hI
    rw [hs']
    exact nil hI'
  rw [List.append_nil] at h
  exact h.congr (by simp)

/-- A run that comes to its end has made all its checks, and the others are cut short. -/
theorem allPass_iff (h : K.Makes I R l x A) : (∃ s, x = .ok s) ↔ K.AllPass l := by
  cases x with
  | ok s => exact ⟨fun _ => (h.ok s rfl).1, fun _ => ⟨s, rfl⟩⟩
  | error e =>
    obtain ⟨c, hc, -⟩ := h.error e rfl
    refine ⟨?_, fun hall => absurd hall hc.not_allPass⟩
    rintro ⟨s, ⟨⟩⟩

end Makes

end Checks
