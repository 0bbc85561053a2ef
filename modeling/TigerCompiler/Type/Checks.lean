import TigerCompiler.Type.Typed

/-!
# The checks of a node

What a method of the checker finds wrong with its own node depends on the types of the parts, and
on nothing else.  The parts are typed on the way, each from the state the one before has left and
with reports of its own; `Steady` describes the states this goes through, `Gives` what typing a
part comes to, and `Adds` tells the reports located at a node from the others.
-/

namespace TigerCompiler

open TypeHeap

namespace TypeChecker

variable {j k : Kind} {n : Nat} {h : TypeHeap} {t t' u u' : TypePtr}

/-! ## Types that come to an end -/

/-- `actual()` comes to `u` on `t` within `n` calls, and with one less as well. -/
def ComesTo (h : TypeHeap) (n : Nat) (t u : TypePtr) : Prop :=
  IsActual u ∧ ∀ i, n ≤ i + 1 → h.actual i t = .ok u

theorem ComesTo.of_isActual (ht : IsActual t) (hn : 2 ≤ n) : ComesTo h n t t := by
  refine ⟨ht, fun i hi => ?_⟩
  obtain ⟨i, rfl⟩ := Nat.exists_eq_add_of_le' (show 1 ≤ i by omega)
  exact actual_of_isActual ht i

/-- What `compatible_with` answers on actual types. -/
def Fits (t u : TypePtr) : Prop := t = u ∨ isRecord t = true ∧ u = .nil

instance : Decidable (Fits t u) := inferInstanceAs (Decidable (_ ∨ _))

theorem ComesTo.compatibleWith (ht : ComesTo h n t t') (hu : IsActual u) (hn : 3 ≤ n) :
    h.compatibleWith n t u = .ok (decide (Fits t' u)) := by
  obtain ⟨i, rfl⟩ := Nat.exists_eq_add_of_le' hn
  have hu' (i : Nat) : h.actual (i + 1) u = .ok u := actual_of_isActual hu i
  cases t with
  | named a =>
    have ha := ht.2 (i + 2) (by omega)
    rw [TypeHeap.compatibleWith, ha, ok_bind]
    exact compatibleWith_of_isActual ht.1 (hu' i) (by omega)
  | _ =>
    have ha := ht.2 (i + 2) (by omega)
    rw [actual_of_isActual (by trivial) (i + 1)] at ha
    cases ha
    exact compatibleWith_of_isActual (by trivial) (hu' (i + 1)) (by omega)

/-! ## The reports of a node -/

variable {a : Addr} {p q : Prop} {s s₁ s₂ s' : TypeChecker}

/-- `s'` has the reports of `s` and others, among which one for the node `a` exactly when `p`
holds. -/
def Adds (a : Addr) (p : Prop) (s s' : TypeChecker) : Prop :=
  ∃ rs, s'.errors = s.errors ++ rs ∧ ((∃ r ∈ rs, r.node = a) ↔ p)

theorem Adds.of_eq (he : s'.errors = s.errors) : Adds a False s s' :=
  ⟨[], by simp [he], by simp⟩

theorem Adds.one {r : Report} (he : s'.errors = s.errors ++ [r]) (hr : r.node = a) :
    Adds a True s s' := ⟨[r], he, by simp [hr]⟩

theorem Adds.trans (hp : Adds a p s s₁) (hq : Adds a q s₁ s₂) : Adds a (p ∨ q) s s₂ := by
  obtain ⟨rs, hrs, hp⟩ := hp
  obtain ⟨qs, hqs, hq⟩ := hq
  refine ⟨rs ++ qs, by rw [hqs, hrs, List.append_assoc], ?_⟩
  simp only [List.mem_append, or_and_right, exists_or, hp, hq]

theorem Adds.congr (hp : Adds a p s s') (hpq : p ↔ q) : Adds a q s s' := by
  rwa [propext hpq] at hp

/-- What was added is determined. -/
theorem Adds.iff (hp : Adds a p s s') (hq : Adds a q s s') : p ↔ q := by
  obtain ⟨rs, hrs, hp⟩ := hp
  obtain ⟨qs, hqs, hq⟩ := hq
  have heq : rs = qs := List.append_cancel_left (hrs.symm.trans hqs)
  rw [← hp, ← hq, heq]

/-- What a run from `s` gives the node at `a`: the type `t`, if any, and a report for this node
exactly when `p` holds.  A typing error that is thrown is reported, and leaves no type. -/
def Outcome (a : Addr) (s : TypeChecker) (t : Option TypePtr) (p : Prop) :
    Except Stop TypeChecker → Prop
  | .ok s' => s'.types a = t ∧ Adds a p s s'
  | .error (.error e) => e.status = .type ∧ t = none ∧ p
  | .error _ => False

theorem Outcome.unique {t t' : Option TypePtr} {r : Except Stop TypeChecker}
    (h : Outcome a s t p r) (h' : Outcome a s t' q r) : t = t' ∧ (p ↔ q) := by
  cases r with
  | ok s' => exact ⟨h.1.symm.trans h'.1, h.2.iff h'.2⟩
  | error e =>
    cases e with
    | error e => exact ⟨h.2.1.trans h'.2.1.symm, iff_of_true h.2.2 h'.2.2⟩
    | _ => exact h.elim

/-! ## Typing the parts -/

/-- A set `I` of states the checker stays in while it types the parts of a node. -/
structure Steady (n : Nat) (I : TypeChecker → Prop) : Prop where
  fuel : 3 ≤ n
  report {s : TypeChecker} (hs : I s) (r : Report) : I { s with errors := s.errors ++ [r] }

/-- Typing `e` from a state of `I` ends in one of them and gives `e` the type `t`; what it may
report is not for the node `a`. -/
def Gives (I : TypeChecker → Prop) (a : Addr)
    (acc : ⦃k : Kind⦄ → Ast Addr k → TypeChecker → Except Stop TypeChecker) (e : Ast Addr k)
    (t : TypePtr) : Prop :=
  ∀ s, I s → ∃ s', s.typeRef acc e = .ok (s', t) ∧ I s' ∧ Adds a False s s'

variable {I : TypeChecker → Prop}
  {acc : ⦃k : Kind⦄ → Ast Addr k → TypeChecker → Except Stop TypeChecker}

theorem typeRef_eq_ok {e : Ast Addr k} :
    s.typeRef acc e = .ok (s', t) ↔ s.type acc e = .ok s' ∧ s'.typeGet e = some t := by
  simp only [typeRef, bind_eq_ok]
  constructor
  · rintro ⟨s₁, h₁, h⟩
    split at h
    · rename_i u hu
      cases h
      exact ⟨h₁, hu⟩
    · cases h
  · rintro ⟨h₁, ht⟩
    exact ⟨s', h₁, by rw [ht]; rfl⟩

/-- A node that has its type gives it. -/
theorem Gives.of_typed {e : Ast Addr k} (he : ∀ s, I s → s.typeGet e = some t) :
    Gives I a acc e t := by
  refine fun s hs => ⟨s, typeRef_eq_ok.mpr ⟨?_, he s hs⟩, hs, .of_eq rfl⟩
  rw [TypeChecker.type, he s hs]
  rfl

theorem typeGet_typeSet (s : TypeChecker) (a : Addr) (t : Option TypePtr) :
    (s.typeSet a t).types a = t := Function.update_self ..

/-- The type of a node stays the one it may have when another is set. -/
theorem eq_of_typeSet {b c : Addr} {x y : TypePtr} (h : ∀ u, s.types c = some u → u = y)
    (hx : c = b → x = y) : ∀ u, (s.typeSet b (some x)).types c = some u → u = y := by
  intro u hu
  by_cases hc : c = b
  · subst hc
    rw [typeGet_typeSet, Option.some_inj] at hu
    exact hu ▸ hx rfl
  · exact h u ((Function.update_of_ne hc ..).symm.trans hu)

/-- A node is given its type by its method, unless it has it. -/
theorem Gives.of_method {e : Ast Addr k} (he : ∀ s, I s → ∀ u, s.typeGet e = some u → u = t)
    (hm : ∀ s, I s → acc e s = .ok (s.typeSet e.addr (some t)))
    (hI : ∀ s, I s → I (s.typeSet e.addr (some t))) : Gives I a acc e t := by
  intro s hs
  cases hu : s.typeGet e with
  | none =>
    refine ⟨_, typeRef_eq_ok.mpr ⟨?_, typeGet_typeSet s e.addr (some t)⟩, hI s hs, .of_eq rfl⟩
    rw [TypeChecker.type, hu]
    exact hm s hs
  | some u =>
    obtain rfl := he s hs u hu
    refine ⟨s, typeRef_eq_ok.mpr ⟨?_, hu⟩, hs, .of_eq rfl⟩
    rw [TypeChecker.type, hu]
    rfl

/-- `check_types` on two types reports exactly when they do not fit. -/
theorem Steady.checkTypes (hI : Steady n I) (hs : I s) (ht : ComesTo s.heap n t t')
    (hu : ComesTo s.heap n u u') (x y : Str) :
    ∃ s', s.checkTypes n a x t y u = .ok s' ∧ I s' ∧ s'.types = s.types ∧
      Adds a (¬ Fits t' u') s s' := by
  have hfuel := hI.fuel
  have hactual : s.heap.actual n u = .ok u' := hu.2 n (by omega)
  have hcompat := ht.compatibleWith hu.1 hfuel
  simp only [TypeChecker.checkTypes, hactual, hcompat, ok_bind]
  by_cases hf : Fits t' u'
  · exact ⟨s, by simp [hf, pure, Except.pure], hs, rfl,
      (Adds.of_eq rfl).congr (by simp [hf])⟩
  · exact ⟨s.typeMismatch a x t y u, by simp [hf, pure, Except.pure], hI.report hs _, rfl,
      (Adds.one (r := .mismatch a x t y u) rfl rfl).congr (by simp [hf])⟩

end TypeChecker

end TigerCompiler
