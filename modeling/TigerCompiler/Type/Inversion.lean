import TigerCompiler.Type.TypeChecker
import Mathlib.Data.List.Basic

/-!
# What a method of the checker has done

A run that has come to its end, read backwards: which nodes it has given a type, in which order,
and what it has done besides.  `Visits` is what the loops and the checks of the visitor come to;
what holds of a whole method then follows by induction on the nodes it has gone over.
-/

namespace TigerCompiler

namespace TypeChecker

variable {j k : Kind} {s s' s₁ s₂ s₃ : TypeChecker} {a : Addr} {n : Nat}

/-- The error of `operator()(AssignExp)` for a variable of a loop. -/
def readOnlyError (a : Addr) : Report := .error a "Updating read-only variable".toList none

/-- A step that calls no other method.  It sets the type of the node `a` at most, and reports
errors of that node, but for that of a variable that is read-only. -/
structure Own (a : Addr) (s s' : TypeChecker) : Prop where
  types : ∀ b, b ≠ a → s'.types b = s.types b
  typed : ∀ b, (s.types b).isSome = true → (s'.types b).isSome = true
  nameds : ∀ b, (s.heap.nameds b).isSome = true → (s'.heap.nameds b).isSome = true
  functions : s'.heap.functions = s.heap.functions
  readOnly : s'.readOnly = s.readOnly
  errors : ∃ rs, s'.errors = s.errors ++ rs ∧ ∀ r ∈ rs, r.node = a ∧ ∀ b, r ≠ readOnlyError b

theorem Own.refl (a : Addr) (s : TypeChecker) : Own a s s where
  types _ _ := rfl
  typed _ h := h
  nameds _ h := h
  functions := rfl
  readOnly := rfl
  errors := ⟨[], by simp, nofun⟩

theorem Own.trans (h : Own a s s₁) (h' : Own a s₁ s₂) : Own a s s₂ where
  types b hb := (h'.types b hb).trans (h.types b hb)
  typed b hb := h'.typed b (h.typed b hb)
  nameds b hb := h'.nameds b (h.nameds b hb)
  functions := h'.functions.trans h.functions
  readOnly := h'.readOnly.trans h.readOnly
  errors := by
    obtain ⟨rs, hrs, hr⟩ := h.errors
    obtain ⟨qs, hqs, hq⟩ := h'.errors
    exact ⟨rs ++ qs, by rw [hqs, hrs, List.append_assoc], List.forall_mem_append.mpr ⟨hr, hq⟩⟩

/-- A report that is not about a variable that is read-only. -/
theorem Own.report {r : Report} (ha : r.node = a) (hr : ∀ b, r ≠ readOnlyError b) :
    Own a s { s with errors := s.errors ++ [r] } where
  types _ _ := rfl
  typed _ h := h
  nameds _ h := h
  functions := rfl
  readOnly := rfl
  errors := ⟨[r], rfl, List.forall_mem_singleton.mpr ⟨ha, hr⟩⟩

theorem Own.typeSet {u : Option TypePtr} (hu : u.isSome = true) : Own a s (s.typeSet a u) where
  types b hb := Function.update_of_ne hb ..
  typed b hb := by
    by_cases hba : b = a
    · subst hba
      simpa [TypeChecker.typeSet] using hu
    · rwa [show (s.typeSet a u).types b = s.types b from Function.update_of_ne hba ..]
  nameds _ h := h
  functions := rfl
  readOnly := rfl
  errors := ⟨[], by simp [TypeChecker.typeSet], nofun⟩

theorem Own.typeDefault {u : TypePtr} : Own a s (s.typeDefault a u) where
  types b hb := setDefault_of_ne hb
  typed _ hb := isSome_setDefault_of_isSome hb
  nameds _ h := h
  functions := rfl
  readOnly := rfl
  errors := ⟨[], by simp [TypeChecker.typeDefault], nofun⟩

/-- A step that makes an object on the heap too. -/
theorem Own.heap {H : TypeHeap} (h : Own a s s') (hn : H.nameds = s'.heap.nameds)
    (hf : H.functions = s'.heap.functions) : Own a s { s' with heap := H } where
  types := h.types
  typed := h.typed
  nameds b hb := by
    rw [show ({ s' with heap := H } : TypeChecker).heap.nameds = s'.heap.nameds from hn]
    exact h.nameds b hb
  functions := hf.trans h.functions
  readOnly := h.readOnly
  errors := h.errors

theorem Own.errorAndRecover {msg : Str} {c : Culprit} : Own a s (s.errorAndRecover a msg c) :=
  (Own.report (a := a) rfl (by simp [readOnlyError])).trans (Own.typeSet rfl)

theorem Own.checkTypes {x y : Str} {t u : TypePtr}
    (h : s.checkTypes n a x t y u = .ok s') : Own a s s' := by
  simp only [TypeChecker.checkTypes, bind_eq_ok] at h
  obtain ⟨u', -, c, -, h⟩ := h
  cases c
  · cases h
    exact Own.report rfl (by simp [readOnlyError])
  · cases h
    exact Own.refl a s

/-- What `check_type` does to a node once it has its type: nothing, or it puts the type nil in its
place. -/
def Recovers (a : Addr) (s s' : TypeChecker) : Prop :=
  s' = s ∨ ∃ msg c, s' = s.errorAndRecover a msg c

theorem Recovers.own (h : Recovers a s s') : Own a s s' := by
  rcases h with rfl | ⟨msg, c, rfl⟩
  · exact Own.refl ..
  · exact Own.errorAndRecover

variable {acc : ⦃k : Kind⦄ → Ast Addr k → TypeChecker → Except Stop TypeChecker}

theorem type_of_typeRef {e : Ast Addr k} {r : TypeChecker × TypePtr}
    (h : s.typeRef acc e = .ok r) : s.type acc e = .ok r.1 := by
  simp only [TypeChecker.typeRef, bind_eq_ok] at h
  obtain ⟨s₁, h₁, h⟩ := h
  split at h
  · cases h
    exact h₁
  · cases h

theorem typeGet_of_typeRef {e : Ast Addr k} {r : TypeChecker × TypePtr}
    (h : s.typeRef acc e = .ok r) : r.1.typeGet e = some r.2 := by
  simp only [TypeChecker.typeRef, bind_eq_ok] at h
  obtain ⟨s₁, -, h⟩ := h
  split at h
  · rename_i ht
    cases h
    exact ht
  · cases h

/-- `check_type` on a node. -/
theorem type_of_checkType {e : Ast Addr k} {x : Str} {t : TypePtr}
    (h : s.checkType n acc e x t = .ok s') :
    ∃ s₁, s.type acc e = .ok s₁ ∧ Recovers e.addr s₁ s' := by
  simp only [TypeChecker.checkType, bind_eq_ok] at h
  obtain ⟨r, h₁, u, -, h⟩ := h
  refine ⟨r.1, type_of_typeRef h₁, ?_⟩
  split at h
  · cases h
    exact .inl rfl
  · cases h
    exact .inr ⟨x, _, rfl⟩

/-- From `s` to `s'` the nodes are visited in this order, but for those that have their types.
Besides, the method of the node `a` takes steps of its own, and steps that put the type nil in
place of that of the expression it has just visited. -/
inductive Visits (acc : ⦃k : Kind⦄ → Ast Addr k → TypeChecker → Except Stop TypeChecker)
    (a : Addr) : List (Σ k, Ast Addr k) → TypeChecker → TypeChecker → Prop
  | nil (s : TypeChecker) : Visits acc a [] s s
  | own {es : List (Σ k, Ast Addr k)} {s s₁ s₂ : TypeChecker} (h : Own a s s₁)
      (hr : Visits acc a es s₁ s₂) : Visits acc a es s s₂
  | call {k : Kind} {e : Ast Addr k} {es : List (Σ k, Ast Addr k)} {s s₁ s₂ s₃ : TypeChecker}
      (h : s.type acc e = .ok s₁ ∨ acc e s = .ok s₁)
      (ho : s₂ = s₁ ∨ k = .exp ∧ Recovers e.addr s₁ s₂)
      (hr : Visits acc a es s₂ s₃) : Visits acc a (⟨k, e⟩ :: es) s s₃

namespace Visits

variable {es es' : List (Σ k, Ast Addr k)}

theorem append (h : Visits acc a es s s₁) (h' : Visits acc a es' s₁ s₂) :
    Visits acc a (es ++ es') s s₂ := by
  induction h with
  | nil s => exact h'
  | own ho _ ih => exact .own ho (ih h')
  | call hc ho _ ih => exact .call hc ho (ih h')

/-- A step of the method itself at the end. -/
theorem step (h : Visits acc a es s s₁) (h' : Own a s₁ s₂) : Visits acc a es s s₂ := by
  have hv := h.append (.own h' (.nil s₂))
  rwa [List.append_nil] at hv

theorem type {e : Ast Addr k} (h : s.type acc e = .ok s') : Visits acc a [⟨k, e⟩] s s' :=
  .call (.inl h) (.inl rfl) (.nil s')

theorem typeRef {e : Ast Addr k} {r : TypeChecker × TypePtr} (h : s.typeRef acc e = .ok r) :
    Visits acc a [⟨k, e⟩] s r.1 :=
  type (type_of_typeRef h)

theorem checkTypesOf {e₁ : Ast Addr j} {e₂ : Ast Addr k} {x y : Str}
    (h : s.checkTypesOf n acc a x e₁ y e₂ = .ok s') :
    Visits acc a [⟨j, e₁⟩, ⟨k, e₂⟩] s s' := by
  simp only [TypeChecker.checkTypesOf, bind_eq_ok] at h
  obtain ⟨r₁, h₁, r₂, h₂, h⟩ := h
  exact (typeRef h₁).append ((typeRef h₂).step (Own.checkTypes h))

theorem checkType {e : Ast Addr .exp} {x : Str} {t : TypePtr}
    (h : s.checkType n acc e x t = .ok s') : Visits acc a [⟨_, e⟩] s s' := by
  obtain ⟨s₁, h₁, ho⟩ := type_of_checkType h
  exact .call (.inl h₁) (.inr ⟨rfl, ho⟩) (.nil s')

/-- The loop of `operator()(SeqExp)`, and what it leaves in `last`. -/
theorem typeSeq {es : List (Ast Addr .exp)} {last : Option TypePtr}
    {r : TypeChecker × Option TypePtr} (h : s.typeSeq acc last es = .ok r) :
    Visits acc a (es.map (⟨_, ·⟩)) s r.1 ∧
      (es = [] ∧ r.2 = last ∨ ∃ e ∈ es, r.2 = r.1.typeGet e) := by
  induction es generalizing s last with
  | nil =>
    cases h
    exact ⟨.nil s, .inl ⟨rfl, rfl⟩⟩
  | cons e es ih =>
    simp only [TypeChecker.typeSeq, bind_eq_ok] at h
    obtain ⟨s₁, h₁, h⟩ := h
    obtain ⟨hv, hr⟩ := ih h
    refine ⟨(type h₁).append hv, .inr ?_⟩
    rcases hr with ⟨rfl, hr⟩ | ⟨e', he', hr⟩
    · cases h
      exact ⟨e, .head _, hr⟩
    · exact ⟨e', .tail _ he', hr⟩

theorem checkArgs {es : List (Ast Addr .exp)} {ts : List (Symbol × TypePtr)}
    (h : s.checkArgs n acc a es ts = .ok s') (hl : es.length = ts.length) :
    Visits acc a (es.map (⟨_, ·⟩)) s s' := by
  induction es generalizing s ts with
  | nil =>
    cases ts <;> cases h <;> exact .nil _
  | cons e es ih =>
    cases ts with
    | nil => cases hl
    | cons t ts =>
      simp only [TypeChecker.checkArgs, bind_eq_ok] at h
      obtain ⟨r, h₁, s₂, h₂, h⟩ := h
      exact ((typeRef h₁).step (Own.checkTypes h₂)).append (ih h (Nat.succ.inj hl))

/-- The arguments of a call are gone over when there are as many as formals. -/
theorem checkCall {es : List (Ast Addr .exp)} {ts : List (Symbol × TypePtr)}
    (h : s.checkCall n acc a es ts = .ok s') :
    Visits acc a (if es.length = ts.length then es.map (⟨_, ·⟩) else []) s s' := by
  unfold TypeChecker.checkCall at h
  split at h
  · rename_i hl
    cases h
    rw [if_neg hl]
    exact .own (Own.report rfl (by simp [readOnlyError])) (.nil _)
  · rename_i hl
    rw [if_pos (not_not.mp hl)]
    exact checkArgs h (not_not.mp hl)

/-- The node of the value in an initialiser of a field. -/
def initOf : Ast Addr .fieldInit → Σ k, Ast Addr k
  | .fieldInit _ _ init => ⟨_, init⟩

theorem checkFields {es : List (Ast Addr .fieldInit)} {ts : List (Symbol × TypePtr)}
    (h : s.checkFields n acc a es ts = .ok s') : Visits acc a (es.map initOf) s s' := by
  induction es generalizing s ts with
  | nil =>
    cases h
    exact .nil _
  | cons e es ih =>
    cases e with
    | fieldInit b x i =>
      cases ts with
      | nil => cases h
      | cons t ts =>
        simp only [TypeChecker.checkFields, bind_eq_ok] at h
        obtain ⟨r, h₁, s₂, h₂, h⟩ := h
        exact ((typeRef h₁).step (Own.checkTypes h₂)).append (ih h)

theorem checkRecord {es : List (Ast Addr .fieldInit)} {fields : Option (List (Symbol × TypePtr))}
    (h : s.checkRecord n acc a es fields = .ok s') : Visits acc a (es.map initOf) s s' := by
  cases fields with
  | some fields => exact checkFields h
  | none => exact .own (Own.report rfl (by simp [readOnlyError])) (checkFields h)

theorem typeFields {es : List (Symbol × Ast Addr k)} {r : TypeChecker × List (Symbol × TypePtr)}
    (h : s.typeFields acc es = .ok r) :
    Visits acc a (es.map fun e => ⟨k, e.2⟩) s r.1 ∧ r.2.length = es.length := by
  induction es generalizing s r with
  | nil =>
    cases h
    exact ⟨.nil s, rfl⟩
  | cons e es ih =>
    simp only [TypeChecker.typeFields, bind_eq_ok] at h
    obtain ⟨r₁, h₁, r₂, h₂, h⟩ := h
    cases h
    obtain ⟨hv, hl⟩ := ih h₂
    exact ⟨(typeRef h₁).append hv, congrArg Nat.succ hl⟩

theorem checkOperands {left right : Ast Addr .exp} {op : Oper}
    (h : s.checkOperands n acc a left right op = .ok s') :
    Visits acc a [⟨_, left⟩, ⟨_, right⟩] s s' := by
  cases op
  case add | sub | mul | div =>
    simp only [TypeChecker.checkOperands, bind_eq_ok] at h
    obtain ⟨s₁, h₁, h⟩ := h
    exact (checkType h₁).append (checkType h)
  case eq | ne => exact checkTypesOf h
  all_goals
    simp only [TypeChecker.checkOperands, bind_eq_ok] at h
    obtain ⟨s₁, h₁, h⟩ := h
    split at h
    · cases h
    · simp only [bind_eq_ok] at h
      obtain ⟨u, -, h⟩ := h
      refine (checkTypesOf h₁).step ?_
      split at h
      · cases h
        exact Own.errorAndRecover
      · cases h
        exact Own.refl ..

/-- The loop of a chunk over its elements. -/
theorem visitAll {ds : List (Ast Addr k)} (h : s.visitAll (fun s d => acc d s) ds = .ok s') :
    Visits acc a (ds.map (⟨k, ·⟩)) s s' := by
  induction ds generalizing s with
  | nil =>
    cases h
    exact .nil _
  | cons d ds ih =>
    simp only [TypeChecker.visitAll, bind_eq_ok] at h
    obtain ⟨s₁, h₁, h⟩ := h
    exact .call (.inr h₁) (.inl rfl) (ih h)

end Visits

end TypeChecker

end TigerCompiler
