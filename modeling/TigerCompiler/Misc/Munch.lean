import Mathlib.Data.List.Basic

/-!
# The longest match

A scanner driven by rules tries all of them where it stands and takes the one that matches most,
the first of them when several match as much.
-/

/-- A pattern, given by how much of the text it matches at most, and what is done then. -/
structure Rule (σ α : Type) where
  len : List σ → Option Nat
  action : α

namespace Rule

variable {σ α : Type} {s : List σ} {rules : List (Rule σ α)}

/-- The better of two matches, the second being that of a later rule. -/
def better : Option (Nat × α) → Option (Nat × α) → Option (Nat × α)
  | some x, some y => if x.1 < y.1 then some y else some x
  | some x, none => some x
  | none, y => y

/-- The match of one rule. -/
def run (r : Rule σ α) (s : List σ) : Option (Nat × α) :=
  (r.len s).map fun n => (n, r.action)

/-- The match that wins. -/
def longest : List (Rule σ α) → List σ → Option (Nat × α)
  | [], _ => none
  | r :: rules, s => better (r.run s) (longest rules s)

@[simp] theorem better_none_left (y : Option (Nat × α)) : better none y = y := rfl

@[simp] theorem better_none_right (x : Option (Nat × α)) : better x none = x := by
  cases x <;> rfl

/-- The match that wins is the match of a rule. -/
theorem mem_of_longest {m : Nat × α} (h : longest rules s = some m) :
    ∃ r ∈ rules, r.run s = some m := by
  induction rules with
  | nil => cases h
  | cons r rules ih =>
    rw [longest] at h
    cases hr : r.run s with
    | none =>
      rw [hr, better_none_left] at h
      obtain ⟨r', hr', hrun⟩ := ih h
      exact ⟨r', List.mem_cons_of_mem _ hr', hrun⟩
    | some x =>
      cases hl : longest rules s with
      | none =>
        rw [hr, hl, better_none_right] at h
        exact ⟨r, List.mem_cons_self, hr.trans h⟩
      | some y =>
        rw [hr, hl] at h
        by_cases hxy : x.1 < y.1
        · rw [better, if_pos hxy] at h
          obtain ⟨r', hr', hrun⟩ := ih (hl.trans h)
          exact ⟨r', List.mem_cons_of_mem _ hr', hrun⟩
        · rw [better, if_neg hxy] at h
          exact ⟨r, List.mem_cons_self, hr.trans h⟩

theorem better_assoc (x y z : Option (Nat × α)) :
    better (better x y) z = better x (better y z) := by
  cases x with
  | none => rfl
  | some x =>
    cases y with
    | none => rfl
    | some y =>
      cases z with
      | none => simp only [better_none_right]
      | some z =>
        simp only [better]
        by_cases hxy : x.1 < y.1 <;> by_cases hyz : y.1 < z.1 <;>
          by_cases hxz : x.1 < z.1 <;> simp only [hxy, hyz, hxz, if_true, if_false] <;> omega

theorem longest_append (rules rules' : List (Rule σ α)) (s : List σ) :
    longest (rules ++ rules') s = better (longest rules s) (longest rules' s) := by
  induction rules with
  | nil => rfl
  | cons r rules ih => rw [List.cons_append, longest, longest, ih, better_assoc]

/-- No rule matches more than the match that wins. -/
theorem exists_longest {r : Rule σ α} {n : Nat} (hmem : r ∈ rules) (hr : r.len s = some n) :
    ∃ m, longest rules s = some m ∧ n ≤ m.1 := by
  obtain ⟨before, after, rfl⟩ := List.append_of_mem hmem
  have hrun : r.run s = some (n, r.action) := by simp [run, hr]
  rw [longest_append, longest, hrun]
  cases longest before s with
  | none =>
    cases longest after s with
    | none => exact ⟨_, rfl, Nat.le_refl _⟩
    | some y =>
      by_cases hy : n < y.1
      · exact ⟨y, by simp [better, hy], by omega⟩
      · exact ⟨(n, r.action), by simp [better, hy], Nat.le_refl _⟩
  | some x =>
    cases longest after s with
    | none =>
      by_cases hx : x.1 < n
      · exact ⟨(n, r.action), by simp [better, hx], Nat.le_refl _⟩
      · exact ⟨x, by simp [better, hx], by omega⟩
    | some y =>
      by_cases hy : n < y.1
      · by_cases hx : x.1 < y.1
        · exact ⟨y, by simp [better, hy, hx], by omega⟩
        · exact ⟨x, by simp [better, hy, hx], by omega⟩
      · by_cases hx : x.1 < n
        · exact ⟨(n, r.action), by simp [better, hy, hx], Nat.le_refl _⟩
        · exact ⟨x, by simp [better, hy, hx], by omega⟩

/-- Where a rule matches as much as any does, the match that wins is as long. -/
theorem longest_of_le {r : Rule σ α} {n : Nat} (hmem : r ∈ rules) (hr : r.len s = some n)
    (h : ∀ r' ∈ rules, ∀ m, r'.len s = some m → m ≤ n) :
    ∃ r' ∈ rules, r'.len s = some n ∧ longest rules s = some (n, r'.action) := by
  obtain ⟨m, hm, hnm⟩ := exists_longest hmem hr
  obtain ⟨r', hr', hrun⟩ := mem_of_longest hm
  obtain ⟨k, hk, rfl⟩ := Option.map_eq_some_iff.mp hrun
  have hkn : k = n := Nat.le_antisymm (h r' hr' k hk) hnm
  subst hkn
  exact ⟨r', hr', hk, hm⟩

end Rule
