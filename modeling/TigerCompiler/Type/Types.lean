import TigerCompiler.Misc.Error

/-!
# Tiger types

The classes of `src/type/`.  The builtin types are singletons; every other type is an object,
and two types are the same when their `actual()` is the same object.  An object is made for one
node of the tree: a `Named` for a `TypeDec`, a `Record` for a `RecordTy`, an `Array` for an
`ArrayTy`, a `Function` for a `FunctionDec`.

`Named::actual` follows pointers with nothing to bound it, so it runs on fuel here; `Resolves`
says what it finds when the chain comes to an end.
-/

namespace TigerCompiler

/-- A `const type::Type*` that is not null: a builtin type, or an object by its class and by the
node it was made for. -/
inductive TypePtr
  | int | string | void | nil
  | named (a : Addr)
  | record (a : Addr)
  | array (a : Addr)
  | function (a : Addr)
  deriving DecidableEq, Repr

/-- The objects that have been made, with their members. -/
structure TypeHeap where
  /-- The name and the `type_` of a `type::Named`. -/
  nameds : Addr → Option (Symbol × Option TypePtr) := fun _ => none
  /-- The fields of a `type::Record`. -/
  records : Addr → Option (List (Symbol × TypePtr)) := fun _ => none
  /-- The type of the elements of a `type::Array`. -/
  arrays : Addr → Option TypePtr := fun _ => none
  /-- The formals and the result of a `type::Function`. -/
  functions : Addr → Option (List (Symbol × TypePtr) × TypePtr) := fun _ => none

/-- The error object thrown for a typing error. -/
def typeError (text : Str) : Stop := .error ⟨.type, text⟩

namespace TypeHeap

/-- `actual`: `Named` follows its `type_`, every other class returns itself. -/
def actual (h : TypeHeap) : Nat → TypePtr → Except Stop TypePtr
  | 0, _ => .error .outOfFuel
  | n + 1, .named a =>
    match h.nameds a with
    | some (_, some t) => h.actual n t
    | some (_, none) => .error (typeError "Uninitialized type in named.".toList)
    | none => .error .undefined
  | _ + 1, t => .ok t

/-- `operator==`. -/
def same (h : TypeHeap) (n : Nat) (lhs rhs : TypePtr) : Except Stop Bool := do
  return (← h.actual n lhs) == (← h.actual n rhs)

/-- `Record::compatible_with`. -/
def recordCompatibleWith (h : TypeHeap) (n : Nat) (this other : TypePtr) : Except Stop Bool := do
  if (← h.actual n other) = .nil then return true
  else return (← h.actual n this) == (← h.actual n other)

/-- `compatible_with`, dispatched on the class of its left operand.  What `Named` calls it on
is an `actual()`. -/
def compatibleWith (h : TypeHeap) : Nat → TypePtr → TypePtr → Except Stop Bool
  | 0, _, _ => .error .outOfFuel
  | n + 1, .named a, other => do h.compatibleWith n (← h.actual n (.named a)) other
  | n + 1, .record a, other => h.recordCompatibleWith n (.record a) other
  | n + 1, this, other => h.same n this other

/-- The loop of `Named::sound`, from the `Named` at `curr`. -/
def soundLoop (h : TypeHeap) : Nat → List Addr → Addr → Except Stop Bool
  | 0, _, _ => .error .outOfFuel
  | n + 1, prev, curr =>
    match h.nameds curr with
    | some (_, some (.named next)) =>
      if next ∈ prev then .ok false else h.soundLoop n (next :: prev) next
    | some _ => .ok true
    | none => .error .undefined

/-- `Named::sound`. -/
def sound (h : TypeHeap) (n : Nat) (this : Addr) : Except Stop Bool := h.soundLoop n [this] this

/-! ## The end of a chain -/

/-- A type that is not a `Named`. -/
def IsActual : TypePtr → Prop
  | .named _ => False
  | _ => True

/-- The `Named`s from `t` on end in `t'`. -/
inductive Resolves (h : TypeHeap) : TypePtr → TypePtr → Prop
  | actual {t : TypePtr} (ha : IsActual t) : Resolves h t t
  | named {a : Addr} {name : Symbol} {t t' : TypePtr} (ha : h.nameds a = some (name, some t))
      (ht : Resolves h t t') : Resolves h (.named a) t'

variable {h : TypeHeap} {t t' u u' : TypePtr} {n m : Nat}

theorem Resolves.isActual (hr : Resolves h t t') : IsActual t' := by
  induction hr with
  | actual ha => exact ha
  | named _ _ ih => exact ih

theorem actual_of_isActual (ha : IsActual t) (n : Nat) : h.actual (n + 1) t = .ok t := by
  cases t with
  | named a => exact ha.elim
  | _ => rfl

/-- `actual` finds the end of the chain, given the fuel to get there. -/
theorem Resolves.actual_eq (hr : Resolves h t t') :
    ∃ n₀, ∀ n ≥ n₀, h.actual n t = .ok t' := by
  induction hr with
  | @actual t ha =>
    refine ⟨1, fun n hn => ?_⟩
    obtain ⟨m, rfl⟩ := Nat.exists_eq_add_of_le' hn
    exact actual_of_isActual ha m
  | named ha _ ih =>
    obtain ⟨n₀, h₀⟩ := ih
    refine ⟨n₀ + 1, fun n hn => ?_⟩
    obtain ⟨m, rfl⟩ := Nat.exists_eq_add_of_le' (Nat.le_of_add_left_le hn)
    simp only [TypeHeap.actual, ha]
    exact h₀ m (by omega)

/-! ## Compatibility -/

/-- The type is a `Record`. -/
def isRecord : TypePtr → Bool
  | .record _ => true
  | _ => false

/-- The intended relation between actual types: the same type, or nil and a record. -/
def Compatible (t u : TypePtr) : Prop :=
  t = u ∨ t = .nil ∧ isRecord u = true ∨ isRecord t = true ∧ u = .nil

instance : Decidable (Compatible t u) := inferInstanceAs (Decidable (_ ∨ _))

theorem same_eq (ht : h.actual n t = .ok t') (hu : h.actual n u = .ok u') :
    h.same n t u = .ok (t' == u') := by
  simp [same, ht, hu, pure, Except.pure]

/-- What `compatible_with` computes on a type that is not a `Named`: nil is only looked for on
the right, and only under a record. -/
theorem compatibleWith_of_isActual (ha : IsActual t) (hu : h.actual n u = .ok u') (hn : n ≠ 0) :
    h.compatibleWith (n + 1) t u = .ok (decide (t = u' ∨ isRecord t = true ∧ u' = .nil)) := by
  obtain ⟨m, rfl⟩ := Nat.exists_eq_succ_of_ne_zero hn
  have ht := actual_of_isActual (h := h) ha m
  cases t with
  | named a => exact ha.elim
  | record a =>
    by_cases hnil : u' = .nil <;>
      simp [compatibleWith, recordCompatibleWith, ht, hu, isRecord, hnil, pure, Except.pure,
        beq_eq_decide]
  | _ => simp [compatibleWith, same_eq ht hu, isRecord, beq_eq_decide]

/-- What `compatible_with` computes on types whose chains come to an end. -/
theorem compatibleWith_eq (hr : Resolves h t t') (hu : Resolves h u u') :
    ∃ n₀, ∀ n ≥ n₀,
      h.compatibleWith n t u = .ok (decide (t' = u' ∨ isRecord t' = true ∧ u' = .nil)) := by
  obtain ⟨n₁, h₁⟩ := hr.actual_eq
  obtain ⟨n₂, h₂⟩ := hu.actual_eq
  refine ⟨n₁ + n₂ + 3, fun n hn => ?_⟩
  obtain ⟨m, rfl⟩ := Nat.exists_eq_add_of_le' (show 2 ≤ n by omega)
  have hm := compatibleWith_of_isActual hr.isActual (h₂ m (by omega)) (by omega)
  cases hr with
  | actual ha => exact compatibleWith_of_isActual ha (h₂ (m + 1) (by omega)) (by omega)
  | @named a name t t' ha ht =>
    have hactual := h₁ (m + 1) (by omega)
    rw [compatibleWith]
    simp only [hactual, ok_bind]
    exact hm

/-- `t.compatible_with(u)` holds exactly when the actual types are meant to be compatible. -/
def CompatibleAsMeant (h : TypeHeap) (t u t' u' : TypePtr) : Prop :=
  ∃ n₀, ∀ n ≥ n₀, h.compatibleWith n t u = .ok (decide (Compatible t' u'))

/-- `compatible_with` is the intended relation except for nil on the left of a record. -/
theorem compatibleAsMeant_iff (hr : Resolves h t t') (hu : Resolves h u u') :
    h.CompatibleAsMeant t u t' u' ↔ ¬ (t' = .nil ∧ isRecord u' = true) := by
  obtain ⟨n₁, h₁⟩ := compatibleWith_eq hr hu
  have hnil : isRecord .nil = false := rfl
  constructor
  · rintro ⟨n₂, h₂⟩ ⟨rfl, hrec⟩
    have heq := (h₁ (n₁ + n₂) (by omega)).symm.trans (h₂ (n₁ + n₂) (by omega))
    have hne : u' ≠ .nil := by
      rintro rfl
      simp [hnil] at hrec
    simp [Compatible, hrec, hnil, hne.symm] at heq
  · intro hc
    refine ⟨n₁, fun n hn => ?_⟩
    rw [h₁ n hn, Except.ok.injEq, decide_eq_decide]
    unfold Compatible
    tauto

/-- One recursive record type: the `Named` at address 1, for the record at address 0. -/
def oneRecord : TypeHeap where
  nameds a := if a = 1 then some ("Rec".toList, some (.record 0)) else none
  records a := if a = 0 then some [("Rec".toList, .named 1)] else none

/-- `Nil::instance().compatible_with(Rec)` does not hold. -/
theorem not_compatibleAsMeant :
    ¬ ∀ (h : TypeHeap) (t u t' u' : TypePtr), Resolves h t t' → Resolves h u u' →
      h.CompatibleAsMeant t u t' u' := by
  intro hall
  have hrec : Resolves oneRecord (.named 1) (.record 0) := .named rfl (.actual trivial)
  obtain ⟨n₀, h₀⟩ := hall oneRecord .nil (.named 1) .nil (.record 0) (.actual trivial) hrec
  have h₁ := h₀ (n₀ + 3) (by omega)
  simp [compatibleWith, same, TypeHeap.actual, oneRecord, Compatible, isRecord, pure,
    Except.pure] at h₁

/-- `Rec.compatible_with(Nil::instance())` does hold. -/
theorem oneRecord_compatibleAsMeant :
    oneRecord.CompatibleAsMeant (.named 1) .nil (.record 0) .nil := by
  have hrec : Resolves oneRecord (.named 1) (.record 0) := .named rfl (.actual trivial)
  have hnil : Resolves oneRecord .nil .nil := .actual trivial
  exact (compatibleAsMeant_iff hrec hnil).mpr (by decide)

end TypeHeap

end TigerCompiler
