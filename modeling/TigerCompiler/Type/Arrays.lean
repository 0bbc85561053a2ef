import TigerCompiler.Type.Aliases
import TigerCompiler.Type.Checks

/-!
# Arrays

What a type means is the type at the end of its chain of aliases; what the checker sees of it is
the `Named` the chain starts with.  The two are compared here, for `check_types`
(`checkTypes_spec`) and then for `operator()(ArrayExp)`, which compares the initial value with the
type of the array itself.
-/

namespace TigerCompiler

open TypeHeap TypeChecker

variable {k : Kind} {m : Tree} {n : Nat} {I : TypeChecker → Prop} {s s' : TypeChecker}
  {a : Addr} {t t' u u' x y z : TypePtr}

/-! ## Types and aliases -/

/-- The type that is meant by a pointer: the end of the chain of aliases a `Named` starts. -/
inductive Means (m : Tree) : TypePtr → TypePtr → Prop
  | actual {t : TypePtr} (ht : IsActual t) : Means m t t
  | named {d d' : Addr} {y : Symbol} {ty : Ast Addr .ty} {u : TypePtr}
      (hd : m.typeDec d = some (.typeDec d' y ty)) (hu : EndsIn m ty u) : Means m (.named d) u

/-- The `Named` of a declaration whose body is the name of another type. -/
def IsAliasPtr (m : Tree) : TypePtr → Prop
  | .named d => ∃ e, m.typeDec d = some e ∧ IsAlias e
  | _ => False

/-- In the states of `I` the declaration of the type, if it has one, has been visited. -/
def IsDeclared (m : Tree) (I : TypeChecker → Prop) : TypePtr → Prop
  | .named d => ∃ e, m.typeDec d = some e ∧
      ∀ s, I s → ∃ y, s.heap.nameds d = some (y, creates (tyOf e))
  | _ => True

/-- The two types are compatible, seen through the aliases. -/
def MeantCompatible (m : Tree) (t u : TypePtr) : Prop :=
  ∃ t' u', Means m t t' ∧ Means m u u' ∧ Compatible t' u'

/-- What `check_types` lets pass. -/
def Passes (m : Tree) (t u : TypePtr) : Prop :=
  ¬ IsAliasPtr m t ∧ ¬ IsAliasPtr m u ∧ ∃ t' u', Means m t t' ∧ Means m u u' ∧ Fits t' u'

theorem means_of_isActual (ht : IsActual t) (hm : Means m t u) : u = t := by
  cases hm with
  | actual => rfl
  | named => exact ht.elim

theorem endsIn_declared {b d d' : Addr} {w v : Symbol} {ty : Ast Addr .ty}
    (hb : m.defs b = some d) (hd : m.typeDec d = some (.typeDec d' v ty))
    (h : EndsIn m (.ofNameTy (.nameTy b w)) t) : EndsIn m ty t := by
  cases h with
  | int hn | string hn =>
    rw [hb] at hn
    cases hn
  | «alias» hb' hd' h =>
    rw [hb] at hb'
    cases hb'
    rw [hd] at hd'
    cases hd'
    exact h

/-- A declared type is an alias without `actual()`, or comes to what it means. -/
theorem IsDeclared.cases (ht : IsDeclared m I t) (hn : 3 ≤ n) :
    IsAliasPtr m t ∧ (∀ s, I s → ∀ i, s.heap.actual (i + 1) t =
        .error (typeError "Uninitialized type in named.".toList)) ∨
      ¬ IsAliasPtr m t ∧ ∃ t', Means m t t' ∧ (∀ u, Means m t u → u = t') ∧
        ∀ s, I s → ComesTo s.heap n t t' := by
  cases t with
  | named d =>
    obtain ⟨e, he, hI⟩ := ht
    by_cases ha : IsAlias e
    · refine .inl ⟨⟨e, he, ha⟩, fun s hs i => ?_⟩
      obtain ⟨y, hy⟩ := hI s hs
      cases e with
      | typeDec b x ty =>
        cases ty with
        | ofNameTy nm => rw [TypeHeap.actual, hy]; rfl
        | recordTy | arrayTy => exact ha.elim
    · have hna : ¬ IsAliasPtr m (.named d) := by
        rintro ⟨e', he', ha'⟩
        rw [he] at he'
        cases he'
        exact ha ha'
      have hcomes {v : TypePtr} (hv : IsActual v) (hc : creates (tyOf e) = some v) (s : TypeChecker)
          (hs : I s) : ComesTo s.heap n (.named d) v := by
        obtain ⟨y, hy⟩ := hI s hs
        refine ⟨hv, fun i hi => ?_⟩
        obtain ⟨j, rfl⟩ := Nat.exists_eq_add_of_le' (show 2 ≤ i by omega)
        rw [TypeHeap.actual, hy, hc]
        exact actual_of_isActual hv j
      cases e with
      | typeDec b x ty =>
        cases ty with
        | ofNameTy nm => exact absurd trivial ha
        | recordTy c fs =>
          refine .inr ⟨hna, .record c, .named he .record, fun u hu => ?_, hcomes trivial rfl⟩
          cases hu with
          | actual h => exact h.elim
          | named hd hu =>
            rw [he] at hd
            cases hd
            cases hu
            rfl
        | arrayTy c el =>
          refine .inr ⟨hna, .array c, .named he .array, fun u hu => ?_, hcomes trivial rfl⟩
          cases hu with
          | actual h => exact h.elim
          | named hd hu =>
            rw [he] at hd
            cases hd
            cases hu
            rfl
  | _ =>
    exact .inr ⟨id, _, .actual trivial, fun u hu => means_of_isActual trivial hu,
      fun s _ => .of_isActual trivial (by omega)⟩

theorem not_passes (h : IsAliasPtr m t ∨ IsAliasPtr m u) : ¬ Passes m t u := fun hp =>
  h.elim hp.1 hp.2.1

/-- What `check_types` does on declared types. -/
theorem checkTypes_spec (hI : Steady n I) (ht : IsDeclared m I t) (hu : IsDeclared m I u)
    (hs : I s) (e₁ e₂ : Str) :
    (∃ s', s.checkTypes n a e₁ t e₂ u = .ok s' ∧ I s' ∧ s'.types = s.types ∧
        Adds a (¬ Passes m t u) s s' ∧ ¬ IsAliasPtr m t ∧ ¬ IsAliasPtr m u) ∨
      (IsAliasPtr m t ∨ IsAliasPtr m u) ∧
        ∃ e, s.checkTypes n a e₁ t e₂ u = .error (typeError e) := by
  obtain ⟨i, rfl⟩ := Nat.exists_eq_add_of_le' hI.fuel
  rcases hu.cases hI.fuel with ⟨hau, hu⟩ | ⟨hau, u', hmu, huniq, hu⟩
  · refine .inr ⟨.inr hau, "Uninitialized type in named.".toList, ?_⟩
    rw [checkTypes, hu s hs]
    rfl
  rcases ht.cases hI.fuel with ⟨hat, ht⟩ | ⟨hat, t', hmt, htuniq, ht⟩
  · refine .inr ⟨.inl hat, "Uninitialized type in named.".toList, ?_⟩
    have hactual := (hu s hs).2 (i + 3) (by omega)
    rw [checkTypes, hactual, ok_bind]
    cases t with
    | named d => rw [TypeHeap.compatibleWith, ht s hs]; rfl
    | _ => exact hat.elim
  · obtain ⟨s', h', hs', htypes, hadds⟩ := hI.checkTypes hs (ht s hs) (hu s hs) e₁ e₂
    refine .inl ⟨s', h', hs', htypes, hadds.congr (not_congr ?_), hat, hau⟩
    constructor
    · exact fun hf => ⟨hat, hau, t', u', hmt, hmu, hf⟩
    · rintro ⟨-, -, t₁, u₁, h₁, h₂, hf⟩
      rw [htuniq t₁ h₁, huniq u₁ h₂] at hf
      exact hf

/-- The type given to the name of an expression, once its declaration has been visited. -/
inductive TypeOfName (m : Tree) (I : TypeChecker → Prop) : Ast Addr .nameTy → TypePtr → Prop
  | int {b : Addr} (hb : m.defs b = none) : TypeOfName m I (.nameTy b "int".toList) .int
  | string {b : Addr} (hb : m.defs b = none) : TypeOfName m I (.nameTy b "string".toList) .string
  | declared {b d : Addr} {w : Symbol} (hb : m.defs b = some d) (hd : IsDeclared m I (.named d)) :
      TypeOfName m I (.nameTy b w) (.named d)

theorem TypeOfName.isDeclared {tn : Ast Addr .nameTy} (h : TypeOfName m I tn t) :
    IsDeclared m I t := by
  cases h with
  | declared _ hd => exact hd
  | int | string => exact trivial

/-! ## `ArrayExp` -/

section Arrays

variable {tn : Ast Addr .nameTy} {size init : Ast Addr .exp}

/-- Typing the parts of an `ArrayExp` ends: `x` is the type of its type name, `z` that of the size
and `y` that of the initial value. -/
structure ArrayParts (m : Tree) (n : Nat) (I : TypeChecker → Prop) (a : Addr)
    (tn : Ast Addr .nameTy) (size init : Ast Addr .exp) (x z y : TypePtr) : Prop where
  steady : Steady n I
  name : TypeOfName m I tn x
  givesName : Gives I a (accept m n) tn x
  givesSize : Gives I a (accept m n) size z
  sizeDeclared : IsDeclared m I z
  givesInit : Gives I a (accept m n) init y
  initDeclared : IsDeclared m I y
  kept : ∀ s s', I s → s.type (accept m n) init = .ok s' → s'.typeGet tn = s.typeGet tn

/-- The type name resolves to an array type, and `y` is compatible with the type of the
elements. -/
def ElementCompatible (m : Tree) (I : TypeChecker → Prop) (tn : Ast Addr .nameTy) (y : TypePtr) :
    Prop :=
  ∃ c el, EndsIn m (.ofNameTy tn) (.array c) ∧ (∀ s, I s → s.heap.arrays c = some el) ∧
    MeantCompatible m y el

/-- No error is reported for the expression exactly when the size is an int and the initial value
goes with the elements; its type is then that of the type name. -/
def TypedByElement (m : Tree) (n : Nat) (I : TypeChecker → Prop) (a : Addr)
    (tn : Ast Addr .nameTy) (size init : Ast Addr .exp) (x z y : TypePtr) (s : TypeChecker) :
    Prop :=
  ∃ t p, Outcome a s t p (accept m (n + 1) (.arrayExp a tn size init) s) ∧
    (¬ p ↔ Means m z .int ∧ ElementCompatible m I tn y) ∧ (¬ p → t = some x)

/-- What the method checks: the size, and the value against the array. -/
theorem ArrayParts.visit (h : ArrayParts m n I a tn size init x z y) (hs : I s) :
    ∃ t p, Outcome a s t p (accept m (n + 1) (.arrayExp a tn size init) s) ∧
      (¬ p ↔ Passes m z .int ∧ Passes m x y) ∧ (¬ p → t = some x) := by
  obtain ⟨s₁, h₁, hs₁, ha₁⟩ := h.givesSize s hs
  have hfail {e : Str} {q : Prop} (hq : ¬ q)
      (he : accept m (n + 1) (.arrayExp a tn size init) s = .error (typeError e)) :
      ∃ t p, Outcome a s t p (accept m (n + 1) (.arrayExp a tn size init) s) ∧
        (¬ p ↔ q) ∧ (¬ p → t = some x) := by
    rw [he]
    exact ⟨none, True, ⟨rfl, rfl, trivial⟩, by simpa using hq, fun hp => absurd trivial hp⟩
  rcases checkTypes_spec (a := a) h.steady h.sizeDeclared (u := .int) trivial hs₁
    "len".toList "given".toList with ⟨s₂, h₂, hs₂, -, ha₂, -⟩ | ⟨hp, e, he⟩
  swap
  · refine hfail (fun hq => not_passes hp hq.1) (e := e) ?_
    simp only [accept, TypeChecker.visit, h₁, ok_bind, he]
    rfl
  obtain ⟨s₃, h₃, hs₃, ha₃⟩ := h.givesName s₂ hs₂
  obtain ⟨s₄, h₄, hs₄, ha₄⟩ := h.givesInit s₃ hs₃
  have hget : s₄.typeGet tn = some x := by
    rw [h.kept s₃ s₄ hs₃ (typeRef_eq_ok.mp h₄).1, (typeRef_eq_ok.mp h₃).2]
  rcases checkTypes_spec (a := a) h.steady h.name.isDeclared h.initDeclared hs₄
    "array".toList "elements".toList with ⟨s₅, h₅, hs₅, htypes, ha₅, -⟩ | ⟨hp, e, he⟩
  swap
  · refine hfail (fun hq => not_passes hp hq.2) (e := e) ?_
    simp only [accept, TypeChecker.visit, checkTypesOf, h₁, h₂, h₃, h₄, ok_bind, he]
    rfl
  have hx : s₅.typeGet tn = some x := by rw [typeGet, htypes]; exact hget
  have hvisit : accept m (n + 1) (.arrayExp a tn size init) s = .ok (s₅.typeSet a (some x)) := by
    simp only [accept, TypeChecker.visit, checkTypesOf, h₁, h₂, h₃, h₄, h₅, ok_bind, hx]
    rfl
  rw [hvisit]
  refine ⟨some x, _, ⟨typeGet_typeSet .., (((ha₁.trans ha₂).trans ha₃).trans ha₄).trans ha₅⟩, ?_,
    fun _ => rfl⟩
  tauto

theorem passes_int : Passes m z .int ↔ ¬ IsAliasPtr m z ∧ Means m z .int := by
  constructor
  · rintro ⟨hz, -, t', u', ht, hu, hf⟩
    cases means_of_isActual (by trivial) hu
    rcases hf with rfl | ⟨-, hnil⟩
    · exact ⟨hz, ht⟩
    · cases hnil
  · rintro ⟨hz, hm⟩
    exact ⟨hz, id, .int, .int, hm, .actual trivial, .inl rfl⟩

/-- **An array is typed by its element exactly when the value passes against the array itself
precisely if it goes with the elements.** -/
theorem typedByElement_iff (h : ArrayParts m n I a tn size init x z y) (hs : I s) :
    TypedByElement m n I a tn size init x z y s ↔
      (Means m z .int →
        (¬ IsAliasPtr m z ∧ Passes m x y ↔ ElementCompatible m I tn y)) := by
  obtain ⟨t, p, ho, hp, ht⟩ := h.visit hs
  rw [passes_int] at hp
  constructor
  · rintro ⟨t', p', ho', hp', -⟩
    have hpp := (ho.unique ho').2
    tauto
  · intro hc
    refine ⟨t, p, ho, ?_, ht⟩
    tauto

/-- `type t = array of int`. -/
def intArray : Ast Addr .typeDec :=
  .typeDec 1 "t".toList (.arrayTy 2 (.nameTy 3 "int".toList))

def intArrayTree : Tree := ⟨fun a => if a = 11 then some 1 else none, [], [intArray]⟩

/-- The states in which the declaration has been visited, and the parts of the expression have
their types or none yet: the value at 13 is of the type `y`. -/
structure IntArrayVisited (y : TypePtr) (s : TypeChecker) : Prop where
  named : s.heap.nameds 1 = some ("t".toList, some (.array 2))
  array : s.heap.arrays 2 = some .int
  name : ∀ u, s.types 11 = some u → u = .named 1
  size : ∀ u, s.types 12 = some u → u = .int
  value : ∀ u, s.types 13 = some u → u = y

/-- Nothing of the expression has a type yet. -/
def intArrayState : TypeChecker where
  heap.nameds a := if a = 1 then some ("t".toList, some (.array 2)) else none
  heap.arrays a := if a = 2 then some .int else none

theorem intArrayState_visited (y : TypePtr) : IntArrayVisited y intArrayState :=
  ⟨rfl, rfl, by rintro _ ⟨⟩, by rintro _ ⟨⟩, by rintro _ ⟨⟩⟩

theorem IntArrayVisited.typeSet (hs : IntArrayVisited y s) {b : Addr} {u : TypePtr}
    (h : b = 11 ∧ u = .named 1 ∨ b = 12 ∧ u = .int ∨ b = 13 ∧ u = y) :
    IntArrayVisited y (s.typeSet b (some u)) := by
  obtain ⟨hn, ha, hname, hsize, hvalue⟩ := hs
  rcases h with ⟨rfl, rfl⟩ | ⟨rfl, rfl⟩ | ⟨rfl, rfl⟩ <;>
    exact ⟨hn, ha, eq_of_typeSet hname (by simp), eq_of_typeSet hsize (by simp),
      eq_of_typeSet hvalue (by simp)⟩

theorem intArray_parts (hy : IsActual y) (hi : init.addr = 13)
    (hm : ∀ s, accept intArrayTree 3 init s = .ok (s.typeSet 13 (some y))) :
    ArrayParts intArrayTree 3 (IntArrayVisited y) 10 (.nameTy 11 "t".toList) (.intExp 12 3) init
      (.named 1) .int y where
  steady := ⟨Nat.le_refl 3, fun hs _ => ⟨hs.named, hs.array, hs.name, hs.size, hs.value⟩⟩
  name := .declared rfl ⟨intArray, rfl, fun s hs => ⟨_, hs.named⟩⟩
  givesName := .of_method (fun s hs => hs.name)
    (fun s hs => by
      simp [accept, visit, intArrayTree, createdTypeDec, hs.named, Ast.addr, Ast.nodes])
    fun s hs => hs.typeSet (.inl ⟨rfl, rfl⟩)
  givesSize := .of_method (fun s hs => hs.size) (fun s _ => rfl)
    fun s hs => hs.typeSet (.inr (.inl ⟨rfl, rfl⟩))
  sizeDeclared := trivial
  givesInit := .of_method (fun s hs u hu => hs.value u (by rwa [typeGet, hi] at hu))
    (fun s _ => hi ▸ hm s) fun s hs => hi ▸ hs.typeSet (.inr (.inr ⟨rfl, rfl⟩))
  initDeclared := by
    cases y with
    | named => exact hy.elim
    | _ => trivial
  kept s s' hs h := by
    unfold TypeChecker.type at h
    split at h
    · cases h
      rfl
    · rw [hm] at h
      cases h
      rfl

theorem intArray_ends : EndsIn intArrayTree (.ofNameTy (.nameTy 11 "t".toList)) (.array 2) :=
  .alias rfl rfl .array

theorem intArray_not_passes (hy : y ≠ .array 2) (ha : IsActual y) :
    ¬ Passes intArrayTree (.named 1) y := by
  rintro ⟨-, -, t', u', ht, hu, hf⟩
  cases means_of_isActual ha hu
  cases ht with
  | actual h => exact h.elim
  | named hd hend =>
    cases hd
    cases hend
    rcases hf with rfl | ⟨hrec, -⟩
    · exact hy rfl
    · cases hrec

/-- `t[3] of "a"` is rejected. -/
theorem stringInIntArray_typedByElement :
    TypedByElement intArrayTree 3 (IntArrayVisited .string) 10 (.nameTy 11 "t".toList)
      (.intExp 12 3) (.stringExp 13 "a".toList) (.named 1) .int .string intArrayState := by
  refine (typedByElement_iff (intArray_parts (y := .string) trivial rfl fun _ => rfl)
    (intArrayState_visited _)).mpr
    fun _ => iff_of_false (fun h => intArray_not_passes (y := .string) (by decide) trivial h.2) ?_
  rintro ⟨c, el, hend, hel, t', u', ht, hu, hc⟩
  cases endsIn_declared rfl rfl hend
  have hint : el = .int := by
    have h₁ := hel _ (intArrayState_visited .string)
    simpa [intArrayState, eq_comm] using h₁
  subst hint
  rw [means_of_isActual (by trivial) ht, means_of_isActual (by trivial) hu] at hc
  exact absurd hc (by decide)

/-- `t[3] of 0` is rejected. -/
theorem not_typedByElement :
    ¬ ∀ (m : Tree) (n : Nat) (I : TypeChecker → Prop) (a : Addr) (tn : Ast Addr .nameTy)
      (size init : Ast Addr .exp) (x z y : TypePtr) (s : TypeChecker),
      ArrayParts m n I a tn size init x z y → I s →
        TypedByElement m n I a tn size init x z y s := by
  intro hall
  have hparts := intArray_parts (y := .int) trivial
    (show (Ast.intExp (α := Addr) 13 0).addr = 13 from rfl) fun _ => rfl
  obtain ⟨t, p, ho, hp, -⟩ := hall _ _ _ _ _ _ _ _ _ _ _ hparts (intArrayState_visited .int)
  obtain ⟨t', p', ho', hp', -⟩ := hparts.visit (intArrayState_visited .int)
  have hpp := (ho.unique ho').2
  have hmeant : ElementCompatible intArrayTree (IntArrayVisited .int) (.nameTy 11 "t".toList)
      .int :=
    ⟨2, .int, intArray_ends, fun s hs => hs.array, .int, .int, .actual trivial, .actual trivial,
      .inl rfl⟩
  have hnp : ¬ p := hp.mpr ⟨.actual trivial, hmeant⟩
  exact intArray_not_passes (y := .int) (by decide) trivial (hp'.mp (hpp.not.mp hnp)).2

end Arrays

end TigerCompiler
