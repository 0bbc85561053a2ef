import Mathlib.Data.Set.Insert
import Mathlib.Logic.Relation

/-!
# Marking a graph

A depth-first search that marks what it meets, seen from outside: it starts from marks `M`, is
sent to some targets and leaves the marks `M'`.  The facts that make it exact compose, so that a
search is correct as soon as each of its visits is (`Marking.visit`, `Marking.trans`).
-/

/-- Visiting the targets `T` with the marks `M` leaves the marks `M'`: no mark is lost, the
targets are marked, what is newly marked has all its successors marked and is reached from a
target. -/
structure Marking {α : Type*} (succ : α → α → Prop) (T M M' : Set α) : Prop where
  mono : M ⊆ M'
  targets : T ⊆ M'
  closed : ∀ a ∈ M', a ∉ M → ∀ b, succ a b → b ∈ M'
  sound : ∀ a ∈ M', a ∉ M → ∃ t ∈ T, Relation.ReflTransGen succ t a

namespace Marking

variable {α : Type*} {succ : α → α → Prop} {T T' M M' M'' : Set α}

/-- Nothing is to be done for targets that are marked. -/
theorem refl (h : T ⊆ M) : Marking succ T M M :=
  ⟨fun _ ha => ha, h, fun _ ha hn => absurd ha hn, fun _ ha hn => absurd ha hn⟩

/-- One search after the other visits the targets of both. -/
theorem trans (h : Marking succ T M M') (h' : Marking succ T' M' M'') :
    Marking succ (T ∪ T') M M'' where
  mono := fun _ ha => h'.mono (h.mono ha)
  targets := by
    rintro a (ha | ha)
    · exact h'.mono (h.targets ha)
    · exact h'.targets ha
  closed := by
    intro a ha hn b hab
    by_cases hm : a ∈ M'
    · exact h'.mono (h.closed a hm hn b hab)
    · exact h'.closed a ha hm b hab
  sound := by
    intro a ha hn
    by_cases hm : a ∈ M'
    · obtain ⟨t, ht, hta⟩ := h.sound a hm hn
      exact ⟨t, .inl ht, hta⟩
    · obtain ⟨t, ht, hta⟩ := h'.sound a ha hm
      exact ⟨t, .inr ht, hta⟩

/-- A node is visited by marking it and then visiting its successors. -/
theorem visit {a : α} (h : Marking succ {b | succ a b} (insert a M) M') :
    Marking succ {a} M M' where
  mono := fun _ hb => h.mono (.inr hb)
  targets := by
    rintro b rfl
    exact h.mono (.inl rfl)
  closed := by
    intro b hb hn c hbc
    by_cases hba : b = a
    · subst hba
      exact h.targets hbc
    · exact h.closed b hb (fun hm => hm.elim hba hn) c hbc
  sound := by
    intro b hb hn
    refine ⟨a, rfl, ?_⟩
    by_cases hba : b = a
    · subst hba
      exact .refl
    · obtain ⟨t, ht, htb⟩ := h.sound b hb fun hm => hm.elim hba hn
      exact .head ht htb

/-- Where the search meets no mark of the start, it marks exactly what is reached from its
targets. -/
theorem mem_iff (h : Marking succ T M M')
    (hM : ∀ t ∈ T, ∀ a, Relation.ReflTransGen succ t a → a ∉ M) {a : α} (ha : a ∉ M) :
    a ∈ M' ↔ ∃ t ∈ T, Relation.ReflTransGen succ t a := by
  constructor
  · intro hm
    exact h.sound a hm ha
  · rintro ⟨t, ht, hta⟩
    clear ha
    induction hta with
    | refl => exact h.targets ht
    | tail htb hbc ih => exact h.closed _ ih (hM t ht _ htb) _ hbc

end Marking
