import TigerCompiler.Type.Termination
import Mathlib.Data.Finset.Card

/-!
# `llvmtranslate::LLVMTypeVisitor`

The translation of the types of `src/type/` to those of LLVM.  A record gets an empty struct
before its fields are translated, and the body of that struct is set once they are; what
`structs_` holds is not translated again.  A `Named` gives way to its `actual()`, and an `Array`
is a pointer to its elements, which are translated first.

The types of a program are a graph.  The memo cuts the cycles that go through a record, and only
those (`translates_iff`): `type weirdo = array of weirdo` is sound and is never translated.
-/

namespace TigerCompiler

/-- An `llvm::Type`.  A struct is known by the number of structs made before it. -/
inductive LLVMType
  | int8 | int64
  /-- `PointerType::get(ctx, space)`. -/
  | pointer (space : Nat)
  /-- `PointerType::get(element, space)`. -/
  | pointerTo (element : LLVMType) (space : Nat)
  | struct (i : Nat)
  deriving DecidableEq, Repr

/-- The memo of the visitor, and what it has made of its context: how many structs, and the calls
of `setBody` with the struct and the elements of each. -/
structure LLVMTypeVisitor where
  structs : Addr → Option Nat := fun _ => none
  created : Nat := 0
  bodies : List (Nat × List LLVMType) := []

namespace LLVMTypeVisitor

/-- `structs_[&e] = llvm::StructType::create(ctx_)`. -/
def create (v : LLVMTypeVisitor) (a : Addr) : LLVMTypeVisitor :=
  { v with structs := Function.update v.structs a (some v.created), created := v.created + 1 }

/-- `setBody` on a struct. -/
def setBody (v : LLVMTypeVisitor) (i : Nat) (elements : List LLVMType) : LLVMTypeVisitor :=
  { v with bodies := v.bodies ++ [(i, elements)] }

/-- `llvm_type` on one type after the other. -/
def llvmTypes (llvmType : LLVMTypeVisitor → TypePtr → Except Stop (LLVMTypeVisitor × LLVMType))
    (v : LLVMTypeVisitor) : List TypePtr → Except Stop (LLVMTypeVisitor × List LLVMType)
  | [] => .ok (v, [])
  | t :: ts => do
    let (v, l) ← llvmType v t
    let (v, ls) ← llvmTypes llvmType v ts
    return (v, l :: ls)

/-- `llvm_type`, with fuel for `n` nested calls. -/
def llvmType (h : TypeHeap) :
    Nat → LLVMTypeVisitor → TypePtr → Except Stop (LLVMTypeVisitor × LLVMType)
  | 0, _, _ => .error .outOfFuel
  | _ + 1, v, .nil => .ok (v, .pointer 1)
  | _ + 1, v, .void => .ok (v, .int64)
  | _ + 1, v, .int => .ok (v, .int64)
  | _ + 1, v, .string => .ok (v, .pointerTo .int8 1)
  | n + 1, v, .named a => do llvmType h n v (← h.actual n (.named a))
  | n + 1, v, .record a =>
    match v.structs a with
    | some i => .ok (v, .pointerTo (.struct i) 1)
    | none => match h.records a with
      | none => .error .undefined
      | some fields => do
        let (v, types) ← llvmTypes (llvmType h n) (v.create a) (fields.map Prod.snd)
        match v.structs a with
        | some i => return (v.setBody i types, .pointerTo (.struct i) 1)
        | none => throw .undefined
  | n + 1, v, .array a =>
    match h.arrays a with
    | none => .error .undefined
    | some t => do
      let (v, l) ← llvmType h n v t
      return (v, .pointerTo l 1)
  -- `GenDefaultVisitor` has the function accept the visitor that visits it
  | n + 1, v, .function a => llvmType h n v (.function a)

/-- The bodies a struct was given. -/
def bodiesOf (v : LLVMTypeVisitor) (i : Nat) : List (List LLVMType) :=
  (v.bodies.filter (·.1 = i)).map Prod.snd

/-- The record has a struct. -/
def Has (v : LLVMTypeVisitor) (a : Addr) : Prop := (v.structs a).isSome = true

@[simp] theorem bodiesOf_create (v : LLVMTypeVisitor) (a : Addr) (i : Nat) :
    (v.create a).bodiesOf i = v.bodiesOf i := rfl

theorem bodiesOf_setBody (v : LLVMTypeVisitor) (i : Nat) (ls : List LLVMType) :
    (v.setBody i ls).bodiesOf i = v.bodiesOf i ++ [ls] := by
  simp [bodiesOf, setBody]

theorem bodiesOf_setBody_of_ne {i j : Nat} (v : LLVMTypeVisitor) (ls : List LLVMType)
    (h : j ≠ i) : (v.setBody i ls).bodiesOf j = v.bodiesOf j := by
  simp [bodiesOf, setBody, h.symm]

end LLVMTypeVisitor

/-! ## The graph of types -/

namespace TypeHeap

/-- The type is a member of the object: what a `Named` stands for, the elements of an `Array`, a
field of a `Record`. -/
inductive Mentions (h : TypeHeap) : TypePtr → TypePtr → Prop
  | named {a : Addr} {x : Symbol} {t : TypePtr} (ha : h.nameds a = some (x, some t)) :
      Mentions h (.named a) t
  | array {a : Addr} {t : TypePtr} (ha : h.arrays a = some t) : Mentions h (.array a) t
  | field {a : Addr} {fs : List (Symbol × TypePtr)} {f : Symbol × TypePtr}
      (ha : h.records a = some fs) (hf : f ∈ fs) : Mentions h (.record a) f.2

/-- What can be reached from a type. -/
def Reaches (h : TypeHeap) : TypePtr → TypePtr → Prop := Relation.ReflTransGen (Mentions h)

/-- The names and the arrays from a type on come to an end, at a builtin type or at a record of
`R`. -/
inductive Founded (h : TypeHeap) (R : Addr → Prop) : TypePtr → Prop
  | int : Founded h R .int
  | string : Founded h R .string
  | void : Founded h R .void
  | nil : Founded h R .nil
  | named {a : Addr} {x : Symbol} {t : TypePtr} (ha : h.nameds a = some (x, some t))
      (ht : Founded h R t) : Founded h R (.named a)
  | array {a : Addr} {t : TypePtr} (ha : h.arrays a = some t) (ht : Founded h R t) :
      Founded h R (.array a)
  | record {a : Addr} (ha : R a) : Founded h R (.record a)

/-- The record has been made. -/
def HasRecord (h : TypeHeap) (a : Addr) : Prop := (h.records a).isSome = true

/-- The records that have been made are finitely many. -/
def HasFiniteRecords (h : TypeHeap) : Prop := ∃ S : Finset Addr, ∀ a, h.HasRecord a → a ∈ S

variable {h : TypeHeap} {R R' : Addr → Prop} {t t' u : TypePtr} {n : Nat}

theorem Founded.mono (hf : Founded h R t) (hR : ∀ a, R a → R' a) : Founded h R' t := by
  induction hf with
  | int => exact .int
  | string => exact .string
  | void => exact .void
  | nil => exact .nil
  | named ha _ ih => exact .named ha ih
  | array ha _ ih => exact .array ha ih
  | record ha => exact .record (hR _ ha)

theorem Founded.of_actual (ha : h.actual n t = .ok t') (hf : Founded h R t') :
    Founded h R t := by
  induction n generalizing t with
  | zero => cases ha
  | succ n ih =>
    cases t with
    | named a =>
      simp only [TypeHeap.actual] at ha
      split at ha
      · rename_i x u hu
        exact .named hu (ih ha)
      · cases ha
      · cases ha
    | _ =>
      cases ha
      exact hf

/-- The fields of the records of `R` are founded on `R` too. -/
def Closed (h : TypeHeap) (R : Addr → Prop) : Prop :=
  ∀ a fs, R a → h.records a = some fs → ∀ f ∈ fs, Founded h R f.2

theorem Founded.mentioned (hf : Founded h R t) (hR : Closed h R) (hm : Mentions h t u) :
    Founded h R u := by
  cases hm with
  | named ha =>
    cases hf with
    | named ha' ht =>
      rw [ha] at ha'
      cases ha'
      exact ht
  | array ha =>
    cases hf with
    | array ha' ht =>
      rw [ha] at ha'
      cases ha'
      exact ht
  | field ha hm =>
    cases hf with
    | record hr => exact hR _ _ hr ha _ hm

/-- What is founded on a closed set of records leads to nothing that is not. -/
theorem Founded.reaches (hf : Founded h R t) (hR : Closed h R) (hu : Reaches h t u) :
    Founded h R u := by
  induction hu with
  | refl => exact hf
  | tail _ hm ih => exact ih.mentioned hR hm

end TypeHeap

/-! ## What a translation leaves -/

namespace LLVMTypeVisitor

open TypeHeap

variable {h : TypeHeap} {v v₁ v₂ v' : LLVMTypeVisitor} {t t' : TypePtr} {n : Nat}

/-- The structs of two records are not the same, and what is not made yet has no body. -/
structure Valid (v : LLVMTypeVisitor) : Prop where
  lt : ∀ a i, v.structs a = some i → i < v.created
  inj : ∀ a b i, v.structs a = some i → v.structs b = some i → a = b
  fresh : ∀ i, v.created ≤ i → v.bodiesOf i = []

theorem valid_empty : Valid {} := ⟨nofun, nofun, fun _ _ => rfl⟩

/-- The body of the struct of a record has been set once, with one element for each field. -/
def BodySet (h : TypeHeap) (v : LLVMTypeVisitor) (a : Addr) : Prop :=
  ∃ fs i body, h.records a = some fs ∧ v.structs a = some i ∧ v.bodiesOf i = [body] ∧
    body.length = fs.length

/-- From `v` to `v'` the structs there were are left alone, and each new one belongs to a record
whose fields are translated and has its body. -/
structure Extends (h : TypeHeap) (v v' : LLVMTypeVisitor) : Prop where
  valid : Valid v'
  kept : ∀ a i, v.structs a = some i → v'.structs a = some i ∧ v'.bodiesOf i = v.bodiesOf i
  made : ∀ a, v'.Has a → ¬ v.Has a → BodySet h v' a
  fields : ∀ a fs, v'.Has a → ¬ v.Has a → h.records a = some fs →
    ∀ f ∈ fs, Founded h v'.Has f.2

theorem Has.struct {a : Addr} (ha : v.Has a) : ∃ i, v.structs a = some i :=
  Option.isSome_iff_exists.mp ha

theorem Extends.has (he : Extends h v v') (a : Addr) (ha : v.Has a) : v'.Has a := by
  obtain ⟨i, hi⟩ := ha.struct
  exact Option.isSome_iff_exists.mpr ⟨i, (he.kept a i hi).1⟩

theorem Extends.refl (hv : Valid v) : Extends h v v where
  valid := hv
  kept _ _ hi := ⟨hi, rfl⟩
  made _ ha hn := (hn ha).elim
  fields _ _ ha hn := (hn ha).elim

theorem Extends.bodySet (he : Extends h v v') {a : Addr} (ha : BodySet h v a) :
    BodySet h v' a := by
  obtain ⟨fs, i, body, hfs, hi, hb, hl⟩ := ha
  obtain ⟨hi', hb'⟩ := he.kept a i hi
  exact ⟨fs, i, body, hfs, hi', hb'.trans hb, hl⟩

theorem Extends.trans (h₁ : Extends h v v₁) (h₂ : Extends h v₁ v₂) : Extends h v v₂ where
  valid := h₂.valid
  kept a i hi := by
    obtain ⟨hi₁, hb₁⟩ := h₁.kept a i hi
    obtain ⟨hi₂, hb₂⟩ := h₂.kept a i hi₁
    exact ⟨hi₂, hb₂.trans hb₁⟩
  made a ha hn := by
    by_cases ha₁ : v₁.Has a
    · exact h₂.bodySet (h₁.made a ha₁ hn)
    · exact h₂.made a ha ha₁
  fields a fs ha hn hfs f hf := by
    by_cases ha₁ : v₁.Has a
    · exact (h₁.fields a fs ha₁ hn hfs f hf).mono h₂.has
    · exact h₂.fields a fs ha ha₁ hfs f hf

theorem has_create {a b : Addr} : (v.create a).Has b ↔ b = a ∨ v.Has b := by
  by_cases hb : b = a
  · subst hb
    simp [Has, create]
  · simp [Has, create, hb]

/-- A struct that is there after `create` is the new one or an older one. -/
theorem structs_create {a b : Addr} {i : Nat} (hi : (v.create a).structs b = some i) :
    b = a ∧ i = v.created ∨ v.structs b = some i := by
  by_cases hb : b = a
  · subst hb
    simp only [create, Function.update_self, Option.some.injEq] at hi
    exact .inl ⟨rfl, hi.symm⟩
  · simp only [create, Function.update_of_ne hb] at hi
    exact .inr hi

theorem Valid.create (hv : Valid v) (a : Addr) : Valid (v.create a) where
  lt b i hi := by
    rcases structs_create hi with ⟨-, rfl⟩ | hi
    · exact Nat.lt_succ_self _
    · exact Nat.lt_succ_of_lt (hv.lt b i hi)
  inj b c i hb hc := by
    rcases structs_create hb with ⟨rfl, hi⟩ | hb
    · rcases structs_create hc with ⟨rfl, -⟩ | hc
      · rfl
      · exact absurd (hv.lt c i hc) (by omega)
    · rcases structs_create hc with ⟨-, hi⟩ | hc
      · exact absurd (hv.lt b i hb) (by omega)
      · exact hv.inj b c i hb hc
  fresh i hi := hv.fresh i (Nat.le_of_succ_le hi)

theorem Valid.setBody (hv : Valid v) {i : Nat} (hi : i < v.created) (ls : List LLVMType) :
    Valid (v.setBody i ls) where
  lt := hv.lt
  inj := hv.inj
  fresh j hj := by
    rw [bodiesOf_setBody_of_ne _ _ (by simp only [LLVMTypeVisitor.setBody] at hj; omega)]
    exact hv.fresh j hj

/-- A record that has no struct yet, once its fields are translated and the body is set. -/
theorem Extends.record {a : Addr} {fs : List (Symbol × TypePtr)} {ls : List LLVMType}
    (hv : Valid v) (ha : v.structs a = none) (hfs : h.records a = some fs)
    (he : Extends h (v.create a) v₁) (hls : ls.length = fs.length)
    (hf : ∀ f ∈ fs, Founded h v₁.Has f.2) :
    v₁.structs a = some v.created ∧ Extends h v (v₁.setBody v.created ls) := by
  have hcreate : (v.create a).structs a = some v.created := Function.update_self ..
  obtain ⟨hstruct, hbody⟩ := he.kept a v.created hcreate
  have hother {b : Addr} (hb : b ≠ a) : (v.create a).structs b = v.structs b :=
    Function.update_of_ne hb ..
  refine ⟨hstruct, he.valid.setBody (he.valid.lt a _ hstruct) ls, ?_, ?_, ?_⟩
  · intro b i hi
    have hb : b ≠ a := by
      rintro rfl
      rw [ha] at hi
      cases hi
    obtain ⟨hi₁, hb₁⟩ := he.kept b i ((hother hb).trans hi)
    have hne : i ≠ v.created := Nat.ne_of_lt (hv.lt b i hi)
    exact ⟨hi₁, (bodiesOf_setBody_of_ne _ _ hne).trans hb₁⟩
  · intro b hb hn
    by_cases hba : b = a
    · subst hba
      refine ⟨fs, v.created, ls, hfs, hstruct, ?_, hls⟩
      rw [bodiesOf_setBody, hbody, bodiesOf_create, hv.fresh _ (Nat.le_refl _), List.nil_append]
    · obtain ⟨gs, i, body, hgs, hi, hset, hl⟩ := he.made b hb fun hc =>
        (has_create.mp hc).elim hba hn
      have hne : i ≠ v.created := by
        rintro rfl
        exact hba (he.valid.inj b a _ hi hstruct)
      exact ⟨gs, i, body, hgs, hi, (bodiesOf_setBody_of_ne _ _ hne).trans hset, hl⟩
  · intro b gs hb hn hgs f hmem
    by_cases hba : b = a
    · subst hba
      rw [hfs] at hgs
      cases hgs
      exact hf f hmem
    · exact he.fields b gs hb (fun hc => (has_create.mp hc).elim hba hn) hgs f hmem

/-- What a translation does when it comes to its end. -/
def Translated (h : TypeHeap) (v : LLVMTypeVisitor) (t : TypePtr)
    (r : LLVMTypeVisitor × LLVMType) : Prop :=
  Extends h v r.1 ∧ Founded h r.1.Has t

/-- The loop over the fields, and any sequence of calls. -/
theorem llvmTypes_spec {ts : List TypePtr} {r : LLVMTypeVisitor × List LLVMType}
    (ih : ∀ v t r, Valid v → llvmType h n v t = .ok r → Translated h v t r) (hv : Valid v)
    (hr : llvmTypes (llvmType h n) v ts = .ok r) :
    Extends h v r.1 ∧ r.2.length = ts.length ∧ ∀ t ∈ ts, Founded h r.1.Has t := by
  induction ts generalizing v r with
  | nil =>
    cases hr
    exact ⟨.refl hv, rfl, nofun⟩
  | cons t ts ihts =>
    simp only [llvmTypes, bind_eq_ok, Prod.exists] at hr
    obtain ⟨v₁, l, h₁, v₂, ls, h₂, hr⟩ := hr
    cases hr
    obtain ⟨he₁, hf₁⟩ := ih v t _ hv h₁
    obtain ⟨he₂, hl, hf₂⟩ := ihts he₁.valid h₂
    refine ⟨he₁.trans he₂, by simpa using hl, fun u hu => ?_⟩
    rcases List.mem_cons.mp hu with rfl | hu
    · exact hf₁.mono he₂.has
    · exact hf₂ u hu

/-- **What a translation that comes to its end leaves.** -/
theorem llvmType_spec (hv : Valid v) {r : LLVMTypeVisitor × LLVMType}
    (hr : llvmType h n v t = .ok r) : Translated h v t r := by
  induction n generalizing v t r with
  | zero => cases hr
  | succ n ih =>
    cases t with
    | nil =>
      cases hr
      exact ⟨.refl hv, .nil⟩
    | void =>
      cases hr
      exact ⟨.refl hv, .void⟩
    | int =>
      cases hr
      exact ⟨.refl hv, .int⟩
    | string =>
      cases hr
      exact ⟨.refl hv, .string⟩
    | named a =>
      simp only [llvmType, bind_eq_ok] at hr
      obtain ⟨t', ht, hr⟩ := hr
      obtain ⟨he, hf⟩ := ih hv hr
      exact ⟨he, hf.of_actual ht⟩
    | array a =>
      simp only [llvmType] at hr
      split at hr
      · cases hr
      · rename_i t ht
        simp only [bind_eq_ok, Prod.exists] at hr
        obtain ⟨v₁, l, h₁, hr⟩ := hr
        cases hr
        obtain ⟨he, hf⟩ := ih hv h₁
        exact ⟨he, .array ht hf⟩
    | record a =>
      simp only [llvmType] at hr
      split at hr
      · rename_i i hi
        cases hr
        exact ⟨.refl hv, .record (Option.isSome_iff_exists.mpr ⟨i, hi⟩)⟩
      · rename_i ha
        split at hr
        · cases hr
        · rename_i fs hfs
          simp only [bind_eq_ok, Prod.exists] at hr
          obtain ⟨v₁, ls, h₁, hr⟩ := hr
          obtain ⟨he, hl, hf⟩ := llvmTypes_spec (fun v t r hv hr => ih hv hr) (hv.create a) h₁
          have he : Extends h (v.create a) v₁ := he
          obtain ⟨hi, he'⟩ := Extends.record hv ha hfs he (by simpa using hl)
            fun f hmem => hf f.2 (List.mem_map_of_mem hmem)
          simp only [hi] at hr
          cases hr
          exact ⟨he', .record (Option.isSome_iff_exists.mpr ⟨_, hi⟩)⟩
    | function a => exact ih hv hr

/-! ## Why a translation comes to its end -/

/-- The translation of a type comes to its end. -/
def Runs (h : TypeHeap) (v : LLVMTypeVisitor) (t : TypePtr) (r : LLVMTypeVisitor × LLVMType) :
    Prop := ∃ n₀, ∀ n ≥ n₀, llvmType h n v t = .ok r

/-- The translation of types one after the other does. -/
def RunsAll (h : TypeHeap) (v : LLVMTypeVisitor) (ts : List TypePtr)
    (r : LLVMTypeVisitor × List LLVMType) : Prop :=
  ∃ n₀, ∀ n ≥ n₀, llvmTypes (llvmType h n) v ts = .ok r

/-- How many records have no struct yet. -/
def missing (S : Finset Addr) (v : LLVMTypeVisitor) : Nat :=
  (S.filter fun a => v.structs a = none).card

variable {S : Finset Addr} {r : LLVMTypeVisitor × LLVMType}

theorem Runs.translated (hr : Runs h v t r) (hv : Valid v) : Translated h v t r := by
  obtain ⟨n₀, h₀⟩ := hr
  exact llvmType_spec hv (h₀ n₀ (Nat.le_refl _))

theorem missing_le (he : Extends h v v') : missing S v' ≤ missing S v := by
  refine Finset.card_le_card fun a ha => ?_
  rw [Finset.mem_filter] at ha ⊢
  refine ⟨ha.1, ?_⟩
  cases hs : v.structs a with
  | none => rfl
  | some i =>
    rw [(he.kept a i hs).1] at ha
    cases ha.2

theorem missing_create_lt {a : Addr} (ha : a ∈ S) (hs : v.structs a = none) :
    missing S (v.create a) < missing S v := by
  refine Finset.card_lt_card (Finset.ssubset_iff_of_subset ?_ |>.mpr ⟨a, ?_, ?_⟩)
  · intro b hb
    rw [Finset.mem_filter] at hb ⊢
    have hne : b ≠ a := by
      rintro rfl
      simp [create] at hb
    simpa [create, hne] using hb
  · exact Finset.mem_filter.mpr ⟨ha, hs⟩
  · intro hmem
    have hnone := (Finset.mem_filter.mp hmem).2
    simp [create] at hnone

/-- A `Named` is translated as its `actual()`. -/
theorem Runs.of_resolves (hr : Runs h v t' r) (ht : Resolves h t t') : Runs h v t r := by
  obtain ⟨n₁, h₁⟩ := ht.actual_eq
  obtain ⟨n₂, h₂⟩ := hr
  cases ht with
  | actual ha => exact ⟨n₂, h₂⟩
  | named ha ht =>
    refine ⟨n₁ + n₂ + 1, fun n hn => ?_⟩
    obtain ⟨n, rfl⟩ := Nat.exists_eq_add_of_le' (Nat.le_of_add_left_le hn)
    rw [llvmType, h₁ n (by omega)]
    exact h₂ n (by omega)

theorem Runs.array {a : Addr} (hr : Runs h v t r) (ha : h.arrays a = some t) :
    Runs h v (.array a) (r.1, .pointerTo r.2 1) := by
  obtain ⟨n₀, h₀⟩ := hr
  refine ⟨n₀ + 1, fun n hn => ?_⟩
  obtain ⟨n, rfl⟩ := Nat.exists_eq_add_of_le' (Nat.le_of_add_left_le hn)
  simp only [llvmType, ha]
  rw [h₀ n (by omega)]
  rfl

/-- A record without a struct, once its fields are known to be translated. -/
theorem RunsAll.record {a : Addr} {fs : List (Symbol × TypePtr)}
    {r : LLVMTypeVisitor × List LLVMType} (hr : RunsAll h (v.create a) (fs.map Prod.snd) r)
    (hv : Valid v) (hs : v.structs a = none) (ha : h.records a = some fs) :
    ∃ r, Runs h v (.record a) r := by
  obtain ⟨n₀, h₀⟩ := hr
  obtain ⟨he, -, -⟩ := llvmTypes_spec (n := n₀) (fun _ _ _ hv hr => llvmType_spec hv hr)
    (hv.create a) (h₀ n₀ (Nat.le_refl _))
  obtain ⟨hi, -⟩ := he.kept a v.created (Function.update_self ..)
  refine ⟨(r.1.setBody v.created r.2, .pointerTo (.struct v.created) 1), n₀ + 1, fun n hn => ?_⟩
  obtain ⟨n, rfl⟩ := Nat.exists_eq_add_of_le' (Nat.le_of_add_left_le hn)
  simp only [llvmType, hs, ha]
  rw [h₀ n (by omega), ok_bind]
  simp only [hi]
  rfl

/-- Types are translated one after the other when each is from the states there may be. -/
theorem exists_runsAll {k : Nat} {ts : List TypePtr}
    (ih : ∀ v, Valid v → missing S v ≤ k → ∀ t ∈ ts, ∃ r, Runs h v t r) (hv : Valid v)
    (hk : missing S v ≤ k) : ∃ r, RunsAll h v ts r := by
  induction ts generalizing v with
  | nil => exact ⟨(v, []), 0, fun _ _ => rfl⟩
  | cons t ts ihts =>
    obtain ⟨r, hr⟩ := ih v hv hk t (.head _)
    have he := (hr.translated hv).1
    obtain ⟨r', n₂, h₂⟩ := ihts (fun v hv hk u hu => ih v hv hk u (.tail _ hu)) he.valid
      (Nat.le_trans (missing_le he) hk)
    obtain ⟨n₁, h₁⟩ := hr
    refine ⟨(r'.1, r.2 :: r'.2), n₁ + n₂, fun n hn => ?_⟩
    rw [llvmTypes, h₁ n (by omega), ok_bind]
    simp only
    rw [h₂ n (by omega)]
    rfl

/-- **A type is translated when all it leads to is founded.**  The induction is on the records
that have no struct, and for one number of these on the names and the arrays up to the next. -/
theorem exists_runs (hS : ∀ a, h.HasRecord a → a ∈ S) (hv : Valid v)
    (hc : ∀ u, Reaches h t u → Founded h h.HasRecord u) : ∃ r, Runs h v t r := by
  induction hk : missing S v using Nat.strongRecOn generalizing v t with
  | ind k ih =>
    suffices ∃ t' r, Resolves h t t' ∧ Runs h v t' r by
      obtain ⟨t', r, ht, hr⟩ := this
      exact ⟨r, hr.of_resolves ht⟩
    have hf : Founded h h.HasRecord t := hc t .refl
    induction hf with
    | int => exact ⟨.int, _, .actual trivial, 1, fun n hn => by
        obtain ⟨n, rfl⟩ := Nat.exists_eq_add_of_le' hn
        rfl⟩
    | string => exact ⟨.string, _, .actual trivial, 1, fun n hn => by
        obtain ⟨n, rfl⟩ := Nat.exists_eq_add_of_le' hn
        rfl⟩
    | void => exact ⟨.void, _, .actual trivial, 1, fun n hn => by
        obtain ⟨n, rfl⟩ := Nat.exists_eq_add_of_le' hn
        rfl⟩
    | nil => exact ⟨.nil, _, .actual trivial, 1, fun n hn => by
        obtain ⟨n, rfl⟩ := Nat.exists_eq_add_of_le' hn
        rfl⟩
    | named ha _ iht =>
      obtain ⟨t', r, ht, hr⟩ := iht fun u hu => hc u (.head (.named ha) hu)
      exact ⟨t', r, .named ha ht, hr⟩
    | array ha _ iht =>
      obtain ⟨t', r, ht, hr⟩ := iht fun u hu => hc u (.head (.array ha) hu)
      exact ⟨_, _, .actual trivial, (hr.of_resolves ht).array ha⟩
    | @record a ha =>
      refine ⟨.record a, ?_⟩
      cases hs : v.structs a with
      | some i =>
        refine ⟨(v, .pointerTo (.struct i) 1), .actual trivial, 1, fun n hn => ?_⟩
        obtain ⟨n, rfl⟩ := Nat.exists_eq_add_of_le' hn
        simp only [llvmType, hs]
      | none =>
        obtain ⟨fs, hfs⟩ := Option.isSome_iff_exists.mp ha
        have hlt : missing S (v.create a) < k := hk ▸ missing_create_lt (hS a ha) hs
        obtain ⟨r, hr⟩ := exists_runsAll (fun v hv hle u hu => by
          obtain ⟨f, hf, rfl⟩ := List.mem_map.mp hu
          exact ih _ (Nat.lt_of_le_of_lt hle hlt) hv
            (fun u hu => hc u (.head (.field hfs hf) hu)) rfl) (hv.create a) (Nat.le_refl _)
        obtain ⟨r, hr⟩ := hr.record hv hs hfs
        exact ⟨r, .actual trivial, hr⟩

/-! ## The translation of the types of a program -/

/-- The visitor terminates on the types, visited one after the other, and the struct of every
record they lead to has its body set exactly once, with one element for each field. -/
def Translates (h : TypeHeap) (ts : List TypePtr) : Prop :=
  ∃ n₀, ∀ n ≥ n₀, ∃ r, llvmTypes (llvmType h n) {} ts = .ok r ∧
    ∀ t ∈ ts, ∀ a, Reaches h t (.record a) → BodySet h r.1 a

/-- A method makes one record at most. -/
theorem hasFiniteRecords_keeps (n : Nat) :
    TypeChecker.Keeps (fun _ => True) (fun s => s.heap.HasFiniteRecords) n where
  undefined := trivial
  error _ := trivial
  actual _ _ := TypeChecker.ends_true _
  compatibleWith _ _ _ := TypeChecker.ends_true _
  sound _ _ := TypeChecker.ends_true _
  typeSet hs _ _ := hs
  createNamed hs _ _ := hs
  createRecord hs a fs := by
    obtain ⟨S, hS⟩ := hs
    refine ⟨insert a S, fun b hb => ?_⟩
    by_cases hba : b = a
    · exact Finset.mem_insert.mpr (.inl hba)
    · simp only [HasRecord, TypeChecker.createRecord, TypeChecker.typeDefault,
        setDefault_of_ne hba] at hb
      exact Finset.mem_insert_of_mem (hS b hb)
  createArray hs _ _ := hs
  createFunction hs _ _ _ := hs
  namedTypeSet hs _ _ := hs
  report hs _ := hs
  readOnly hs _ := hs

/-- The records of a checked program are finitely many. -/
theorem hasFiniteRecords_of_typesCheck {m : Tree} {program : Ast Addr .chunkList}
    {s : TypeChecker} (hs : typesCheck m n program = .ok s) : s.heap.HasFiniteRecords := by
  have hends := TypeChecker.accept_keeps hasFiniteRecords_keeps m n program {} ⟨∅, nofun⟩
  rw [typesCheck] at hs
  rwa [hs] at hends

/-- All that is reached from types that have been translated is founded. -/
theorem Extends.founded {ts : List TypePtr} {u : TypePtr} (he : Extends h {} v)
    (hf : ∀ t ∈ ts, Founded h v.Has t) (ht : t ∈ ts) (hu : Reaches h t u) :
    Founded h v.Has u := by
  refine (hf t ht).reaches (fun a fs ha hfs => ?_) hu
  exact he.fields a fs ha nofun hfs

/-- Types that are translated lead to nothing that is not founded. -/
theorem Translates.founded {ts : List TypePtr} {u : TypePtr} (hts : Translates h ts)
    (ht : t ∈ ts) (hu : Reaches h t u) : Founded h h.HasRecord u := by
  obtain ⟨n₀, h₀⟩ := hts
  obtain ⟨r, hr, -⟩ := h₀ n₀ (Nat.le_refl _)
  obtain ⟨he, -, hf⟩ := llvmTypes_spec (fun _ _ _ hv hr => llvmType_spec hv hr) valid_empty hr
  refine (he.founded hf ht hu).mono fun a ha => ?_
  obtain ⟨fs, _, _, hfs, -⟩ := he.made a ha nofun
  exact Option.isSome_iff_exists.mpr ⟨fs, hfs⟩

/-- Types that lead to nothing that is not founded are translated. -/
theorem translates_of_founded {ts : List TypePtr} (hfin : h.HasFiniteRecords)
    (hc : ∀ t ∈ ts, ∀ u, Reaches h t u → Founded h h.HasRecord u) : Translates h ts := by
  obtain ⟨S, hS⟩ := hfin
  obtain ⟨r, n₀, h₀⟩ := exists_runsAll (k := missing S {})
    (fun v hv _ t ht => exists_runs hS hv (hc t ht)) valid_empty (Nat.le_refl _)
  refine ⟨n₀, fun n hn => ⟨r, h₀ n hn, fun t ht a ha => ?_⟩⟩
  obtain ⟨he, -, hf⟩ := llvmTypes_spec (fun _ _ _ hv hr => llvmType_spec hv hr) valid_empty
    (h₀ n₀ (Nat.le_refl _))
  cases he.founded hf ht ha with
  | record hr => exact he.made a hr nofun

/-- **The types of a checked program are translated exactly when the names and the arrays come to
an end from each type they lead to.** -/
theorem translates_iff {m : Tree} {program : Ast Addr .chunkList} {s : TypeChecker}
    (hs : typesCheck m n program = .ok s) (ts : List TypePtr) :
    Translates s.heap ts ↔
      ∀ t ∈ ts, ∀ u, Reaches s.heap t u → Founded s.heap s.heap.HasRecord u := by
  constructor
  · intro hts t ht u hu
    exact hts.founded ht hu
  · intro hc
    exact translates_of_founded (hasFiniteRecords_of_typesCheck hs) hc

/-- `let type … in end` as a program. -/
def letTypes (ds : List (Ast Addr .typeDec)) : Ast Addr .chunkList :=
  .chunkList 0 (.ofList [.functionChunk 1 (.ofList [.functionDec 2 "_main".toList
    (.varChunk 3 .nil) .none (.some (.seqExp 4 (.ofList [
      .letExp 5 (.chunkList 6 (.ofList [.typeChunk 7 (.ofList ds)])) (.seqExp 20 .nil),
      .seqExp 21 .nil])))])])

/-- `type tree = { children : forest }  type forest = array of tree`. -/
def forest : Ast Addr .chunkList :=
  letTypes [
    .typeDec 8 "tree".toList (.recordTy 9 (.ofList [
      .field 10 "children".toList (.nameTy 11 "forest".toList)])),
    .typeDec 12 "forest".toList (.arrayTy 13 (.nameTy 14 "tree".toList))]

/-- The visitor terminates on the types of `forest`. -/
theorem forest_translates :
    ∃ s, typesCheck ⟨fun a => if a = 11 then some 12 else if a = 14 then some 8 else none,
        forest.varDecs, forest.typeDecs⟩ 20 forest = .ok s ∧ s.errors = [] ∧
      Translates s.heap [.named 8, .named 12] := by
  obtain ⟨s, hs, herrors, htree, hrecord, hforest, harray⟩ := exists_ok_of_any
    (x := typesCheck ⟨fun a => if a = 11 then some 12 else if a = 14 then some 8 else none,
      forest.varDecs, forest.typeDecs⟩ 20 forest)
    (P := fun s => s.errors = [] ∧
      s.heap.nameds 8 = some ("tree".toList, some (.record 9)) ∧
      s.heap.records 9 = some [("children".toList, .named 12)] ∧
      s.heap.nameds 12 = some ("forest".toList, some (.array 13)) ∧
      s.heap.arrays 13 = some (.named 8)) (by decide)
  refine ⟨s, hs, herrors, (translates_iff hs _).mpr fun t ht u hu => ?_⟩
  have hend : Founded s.heap s.heap.HasRecord (.record 9) :=
    .record (Option.isSome_iff_exists.mpr ⟨_, hrecord⟩)
  have hchildren := Founded.named hforest (.array harray (.named htree hend))
  -- each type is founded, and so is what it mentions
  have hmem : u = .named 8 ∨ u = .record 9 ∨ u = .named 12 ∨ u = .array 13 := by
    induction hu with
    | refl =>
      simp only [List.mem_cons, List.not_mem_nil, or_false] at ht
      tauto
    | tail _ hm ih =>
      rcases ih with rfl | rfl | rfl | rfl <;> cases hm <;> simp_all
  rcases hmem with rfl | rfl | rfl | rfl
  · exact .named htree hend
  · exact hend
  · exact hchildren
  · exact .array harray (.named htree hend)

/-- `type weirdo = array of weirdo`. -/
def weirdo : Ast Addr .chunkList :=
  letTypes [.typeDec 8 "weirdo".toList (.arrayTy 9 (.nameTy 10 "weirdo".toList))]

/-- The visitor goes from the `Named` of `weirdo` to its `Array` and back, whatever the fuel. -/
theorem llvmType_weirdo (hnamed : h.nameds 8 = some ("weirdo".toList, some (.array 9)))
    (harray : h.arrays 9 = some (.named 8)) (n : Nat) (v : LLVMTypeVisitor) :
    llvmType h n v (.named 8) = .error .outOfFuel ∧
      llvmType h n v (.array 9) = .error .outOfFuel := by
  induction n generalizing v with
  | zero => exact ⟨rfl, rfl⟩
  | succ n ih =>
    constructor
    · obtain _ | _ | n := n
      · rfl
      · simp [llvmType, TypeHeap.actual, hnamed]
      · have hactual : h.actual (n + 2) (.named 8) = .ok (.array 9) := by
          simp [TypeHeap.actual, hnamed]
        rw [llvmType, hactual]
        exact (ih v).2
    · simp only [llvmType, harray]
      rw [(ih v).1]
      rfl

/-- `type a = int`: the `Named` is sound and has no type. -/
def aliasProgram : Ast Addr .chunkList :=
  letTypes [.typeDec 8 "a".toList (.ofNameTy (.nameTy 9 "int".toList))]

/-- With its name bound to its declaration `weirdo` is checked without an error and its type is
sound, and the visitor never comes to its end on it; nor is the type of `type a = int` translated,
which the `Binder` and the checker accept as it stands. -/
theorem not_translates :
    (¬ ∀ (m : Tree) (program : Ast Addr .chunkList) (n : Nat) (s : TypeChecker) (a : Addr),
      program.nodes.Nodup → typesCheck m n program = .ok s → s.errors = [] →
      (∃ k, s.heap.sound k a = .ok true) → Translates s.heap [.named a]) ∧
    ¬ ∀ (b : Binder) (program : Ast Addr .chunkList) (n : Nat) (s : TypeChecker) (a : Addr),
      program.nodes.Nodup → bind program = .ok b →
      typesCheck (b.tree program) n program = .ok s → s.errors = [] →
      (∃ k, s.heap.sound k a = .ok true) → Translates s.heap [.named a] := by
  constructor
  · intro hall
    obtain ⟨s, hs, herrors, hnamed, harray⟩ := exists_ok_of_any
      (x := typesCheck ⟨fun a => if a = 10 then some 8 else none, weirdo.varDecs,
        weirdo.typeDecs⟩ 20 weirdo)
      (P := fun s => s.errors = [] ∧
        s.heap.nameds 8 = some ("weirdo".toList, some (.array 9)) ∧
        s.heap.arrays 9 = some (.named 8)) (by decide)
    have hsound : s.heap.sound 2 8 = .ok true := by simp [sound, soundLoop, hnamed]
    obtain ⟨n₀, h₀⟩ := hall _ weirdo 20 s 8 (by decide) hs herrors ⟨2, hsound⟩
    obtain ⟨r, hr, -⟩ := h₀ n₀ (Nat.le_refl _)
    rw [llvmTypes, (llvmType_weirdo hnamed harray n₀ {}).1] at hr
    cases hr
  · intro hall
    obtain ⟨b, hb, hchecked⟩ := exists_ok_of_any (x := bind aliasProgram)
      (P := fun b => (typesCheck (b.tree aliasProgram) 20 aliasProgram).toOption.any (fun s =>
        s.errors = [] ∧ s.heap.nameds 8 = some ("a".toList, none)) = true) (by decide)
    obtain ⟨s, hs, herrors, hnamed⟩ := exists_ok_of_any hchecked
    have hsound : s.heap.sound 2 8 = .ok true := by simp [sound, soundLoop, hnamed]
    cases (hall b aliasProgram 20 s 8 (by decide) hb hs herrors ⟨2, hsound⟩).founded (.head _)
        .refl with
    | named ha _ =>
      rw [hnamed] at ha
      cases ha

end LLVMTypeVisitor

end TigerCompiler
