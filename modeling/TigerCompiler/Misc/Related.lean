import Mathlib.Order.Defs.PartialOrder

/-!
# Runs that go together

Two runs that may stop, compared from a world on: worlds are ordered, as what is known of both
grows while they run.  Nothing is asked where the first stops for an excused reason, so that the
second refines it.
-/

namespace TigerCompiler

universe u v

variable {ω ε ε' : Type*} {α β : Type u} {α' β' : Type v} [Preorder ω]

/-- Two runs go together from the world `w` on: both succeed, with results related by `R` in a
later world, or both stop, for reasons related by `E` in one, unless the first is excused. -/
inductive Together (E : ω → ε → ε' → Prop) (excused : ε → Prop) (w : ω) (R : ω → α → α' → Prop) :
    Except ε α → Except ε' α' → Prop
  | ok {w' : ω} {a : α} {a' : α'} (le : w ≤ w') (rel : R w' a a') :
      Together E excused w R (.ok a) (.ok a')
  | error {w' : ω} {e : ε} {e' : ε'} (le : w ≤ w') (rel : E w' e e') :
      Together E excused w R (.error e) (.error e')
  | excuse {e : ε} {x : Except ε' α'} (h : excused e) : Together E excused w R (.error e) x

namespace Together

variable {E : ω → ε → ε' → Prop} {excused : ε → Prop} {w w₁ : ω} {R : ω → α → α' → Prop}
  {S : ω → β → β' → Prop} {x : Except ε α} {x' : Except ε' α'}

theorem later (h : Together E excused w₁ R x x') (hw : w ≤ w₁) : Together E excused w R x x' := by
  cases h with
  | ok le rel => exact .ok (le_trans hw le) rel
  | error le rel => exact .error (le_trans hw le) rel
  | excuse h => exact .excuse h

theorem imp {R' : ω → α → α' → Prop} (h : Together E excused w R x x')
    (hR : ∀ w', w ≤ w' → ∀ a a', R w' a a' → R' w' a a') : Together E excused w R' x x' := by
  cases h with
  | ok le rel => exact .ok le (hR _ le _ _ rel)
  | error le rel => exact .error le rel
  | excuse h => exact .excuse h

/-- Runs that go together, and then go on together. -/
theorem bind {g : α → Except ε β} {g' : α' → Except ε' β'} (h : Together E excused w R x x')
    (hg : ∀ w', w ≤ w' → ∀ a a', R w' a a' → Together E excused w' S (g a) (g' a')) :
    Together E excused w S (x >>= g) (x' >>= g') := by
  cases h with
  | ok le rel => exact (hg _ le _ _ rel).later le
  | error le rel => exact .error le rel
  | excuse h => exact .excuse h

theorem of_ok {a : α} (h : Together E excused w R (.ok a) x') :
    ∃ w' a', w ≤ w' ∧ x' = .ok a' ∧ R w' a a' := by
  cases h with
  | ok le rel => exact ⟨_, _, le, rfl, rel⟩

theorem of_error {e : ε} (h : Together E excused w R (.error e) x') (he : ¬ excused e) :
    ∃ w' e', w ≤ w' ∧ x' = .error e' ∧ E w' e e' := by
  cases h with
  | error le rel => exact ⟨_, _, le, rfl, rel⟩
  | excuse h => exact (he h).elim

end Together

end TigerCompiler
