import TigerCompiler.Type.Pointers

/-!
# What a run that ends has followed

A method that has been run to its end has followed no null pointer, and has been run on the parts
of the node before it.  What a node that has its type tells of its parts (`Whole`) is an invariant
of the runs that end (`Inv`), whatever the order in which the checker jumps from the uses to the
declarations.  The only error a run may throw is that of a `Named` without a type; only a chunk of
types that is gone over leaves one where no type is an alias (`typesCheck_throws`).
-/

namespace TigerCompiler

namespace TypeChecker

variable {j k : Kind} {F : Facts} {i : Kind} {t : Ast Addr k} {x : Ast Addr j} {y : Ast Addr i}

/-! ## What holds of a state -/

/-- The type is one that a node other than a `RecordTy` may have: no `Record`, and a `Named` only
if it has been made. -/
def Live (s : TypeChecker) : TypePtr → Prop
  | .named a => (s.heap.nameds a).isSome = true
  | .record _ => False
  | _ => True

theorem Live.of_builtin {s : TypeChecker} {t : TypePtr}
    (h : t = .int ∨ t = .string ∨ t = .void ∨ t = .nil) : Live s t := by
  rcases h with rfl | rfl | rfl | rfl <;> trivial

/-- A type that is live stays so as long as no `Named` is lost. -/
theorem Live.mono {s s' : TypeChecker} {t : TypePtr} (h : Live s t)
    (hn : ∀ a, (s.heap.nameds a).isSome = true → (s'.heap.nameds a).isSome = true) :
    Live s' t := by
  cases t with
  | named a => exact hn a h
  | record a => exact h
  | _ => trivial

/-- The type of every `Named` that has one is a `Record` or an `Array`. -/
def Shallow (s : TypeChecker) : Prop :=
  ∀ a name t, s.heap.nameds a = some (name, some t) → TypeHeap.IsActual t

/-- Every `Named` has its type. -/
def Closed (s : TypeChecker) : Prop := ∀ a name, s.heap.nameds a ≠ some (name, none)

/-- No `TypeDec` names another type. -/
def NoAlias (program : Ast Addr .chunkList) : Prop :=
  ∀ a x n, ⟨.typeDec, .typeDec a x (.ofNameTy n)⟩ ∉ program.subterms

/-- What a run from an invariant state keeps, with the types in `L` live, and where `w` says so
with every `Named` closed. -/
structure Inv (F : Facts) (program : Ast Addr .chunkList) (w : Bool) (L : List TypePtr)
    (s : TypeChecker) : Prop where
  shallow : Shallow s
  live : ∀ t ∈ L, Live s t
  types : ∀ a t, s.types a = some t →
    Live s t ∨ ∃ gs, ⟨.ty, .recordTy a gs⟩ ∈ program.subterms
  functions : ∀ a fs r, s.heap.functions a = some (fs, r) →
    F.arity a = some fs.length ∧ (∀ p ∈ fs, Live s p.2) ∧ Live s r
  records : ∀ a fs, s.heap.records a = some fs → ∀ p ∈ fs, Live s p.2
  arrays : ∀ a t, s.heap.arrays a = some t → Live s t
  recordTys : ∀ a gs, ⟨.ty, .recordTy a gs⟩ ∈ program.subterms →
    (∀ fs, s.heap.records a = some fs → fs.length = gs.toList.length) ∧
      ∀ t, s.types a = some t → t = .record a ∧ (s.heap.records a).isSome = true
  arrayTys : ∀ a e, ⟨.ty, .arrayTy a e⟩ ∈ program.subterms → (s.types a).isSome = true →
    (s.heap.arrays a).isSome = true
  untypable : ∀ c ∈ program.subterms, c.2.isNode = true → HasMethod c.1 = true →
    Untypable F.tree.defs c.2 → s.types c.2.addr = none
  whole : ∀ c ∈ program.subterms, c.2.isNode = true → HasMethod c.1 = true →
    (s.types c.2.addr).isSome = true → Whole F c.2
  closed : w = true → NoAlias program ∧ Closed s

variable {program : Ast Addr .chunkList} {w : Bool} {L : List TypePtr} {s s' s₁ : TypeChecker}
  {a : Addr} {n : Nat}

theorem Inv.opened (h : Inv F program w L s) : Inv F program false L s :=
  { h with closed := by rintro ⟨⟩ }

/-- A node that has its type has been gone over. -/
theorem Inv.whole_of_typed (h : Inv F program w L s) (ht : ⟨k, t⟩ ∈ program.subterms)
    (hk : HasMethod k = true) (hs : (s.typeGet t).isSome = true) : Whole F t := by
  obtain ⟨c, hc, hn, hm, ha, -, hw, -⟩ := exists_inner F t hk
  exact hw.mpr (h.whole c (Ast.subterms_subset ht hc) hn hm (ha ▸ hs))

/-- A node whose type stays null has none. -/
theorem Inv.typeGet_eq_none (h : Inv F program w L s) (ht : ⟨k, t⟩ ∈ program.subterms)
    (hk : HasMethod k = true) (hu : Untypable F.tree.defs t) : s.typeGet t = none := by
  obtain ⟨c, hc, hn, hm, ha, huc, -⟩ := exists_inner F t hk
  rw [typeGet, ← ha]
  exact h.untypable c (Ast.subterms_subset ht hc) hn hm (huc.mp hu)

theorem Inv.live_typeGet (hp : F.About program) (h : Inv F program w L s)
    (ht : ⟨k, t⟩ ∈ program.subterms) (hk : HasMethod k = true)
    (hr : ∀ b gs, (⟨k, t⟩ : Σ k, Ast Addr k) ≠ ⟨.ty, .recordTy b gs⟩) {u : TypePtr}
    (hu : s.typeGet t = some u) : Live s u := by
  obtain ⟨c, hc, hn, -, ha, -, -, hrc⟩ := exists_inner F t hk
  rcases h.types _ u hu with hl | ⟨gs, hg⟩
  · exact hl
  · have heq := Ast.eq_of_addr_eq hp.nodup (Ast.subterms_subset ht hc) hg hn rfl ha
    subst heq
    exact absurd (hrc rfl).symm (hr _ gs)

/-! ## Steps that keep it -/

theorem Inv.report (h : Inv F program w L s) (r : Report) :
    Inv F program w L { s with errors := s.errors ++ [r] } :=
  ⟨h.shallow, h.live, h.types, h.functions, h.records, h.arrays, h.recordTys, h.arrayTys,
    h.untypable, h.whole, h.closed⟩

theorem Inv.readOnly (h : Inv F program w L s) (as : List Addr) :
    Inv F program w L { s with readOnly := as } :=
  ⟨h.shallow, h.live, h.types, h.functions, h.records, h.arrays, h.recordTys, h.arrayTys,
    h.untypable, h.whole, h.closed⟩

theorem Inv.checkReadOnly (h : Inv F program w L s) {v : Ast Addr .var} :
    Inv F program w L (s.checkReadOnly F.tree a v) := by
  unfold TypeChecker.checkReadOnly
  split
  · split
    · exact h.report _
    · exact h
  · exact h

theorem Inv.cons (h : Inv F program w L s) {u : TypePtr} (hu : Live s u) :
    Inv F program w (u :: L) s := { h with live := List.forall_mem_cons.mpr ⟨hu, h.live⟩ }

theorem Inv.tail {u : TypePtr} (h : Inv F program w (u :: L) s) : Inv F program w L s :=
  { h with live := (List.forall_mem_cons.mp h.live).2 }

/-- The type of the node at `a` changes. -/
theorem Inv.setTypes (h : Inv F program w L s) {T : Addr → Option TypePtr}
    (hT : ∀ b, b ≠ a → T b = s.types b)
    (hl : ∀ u, T a = some u → Live s u ∨ ∃ gs, ⟨.ty, .recordTy a gs⟩ ∈ program.subterms)
    (hr : ∀ gs, ⟨.ty, .recordTy a gs⟩ ∈ program.subterms → ∀ u, T a = some u →
      u = .record a ∧ (s.heap.records a).isSome = true)
    (he : ∀ e, ⟨.ty, .arrayTy a e⟩ ∈ program.subterms → (T a).isSome = true →
      (s.heap.arrays a).isSome = true)
    (hc : ∀ c ∈ program.subterms, c.2.isNode = true → HasMethod c.1 = true → c.2.addr = a →
      (Untypable F.tree.defs c.2 → T a = none) ∧ ((T a).isSome = true → Whole F c.2)) :
    Inv F program w L { s with types := T } where
  shallow := h.shallow
  live := h.live
  types b u hb := by
    by_cases hba : b = a
    · subst hba
      exact hl u hb
    · exact h.types b u ((hT b hba).symm.trans hb)
  functions := h.functions
  records := h.records
  arrays := h.arrays
  recordTys b gs hg := by
    refine ⟨(h.recordTys b gs hg).1, fun u hb => ?_⟩
    by_cases hba : b = a
    · subst hba
      exact hr gs hg u hb
    · exact (h.recordTys b gs hg).2 u ((hT b hba).symm.trans hb)
  arrayTys b e hm hb := by
    by_cases hba : b = a
    · subst hba
      exact he e hm hb
    · exact h.arrayTys b e hm (hT b hba ▸ hb)
  untypable c hm hn hk hu := by
    by_cases hca : c.2.addr = a
    · rw [← hca] at hc
      exact (hc c hm hn hk rfl).1 hu
    · exact (hT _ hca).trans (h.untypable c hm hn hk hu)
  whole c hm hn hk hs := by
    by_cases hca : c.2.addr = a
    · rw [← hca] at hc
      exact (hc c hm hn hk rfl).2 hs
    · exact h.whole c hm hn hk (by rwa [← hT _ hca])
  closed := h.closed

/-- A node that has been gone over gets a type, unless its type stays null. -/
theorem Inv.typeSet (hp : F.About program) (h : Inv F program w L s)
    (ht : ⟨k, t⟩ ∈ program.subterms) (hk : HasMethod k = true) (hw : Whole F t)
    {u : Option TypePtr} (hj : k ≠ .ty) (hu : Untypable F.tree.defs t → u = none)
    (hl : ∀ v, u = some v → Live s v) :
    Inv F program w L (s.typeSet t.addr u) := by
  obtain ⟨c, hc, hn, hm, ha, huc, hwc, hrc⟩ := exists_inner F t hk
  have hmem := Ast.subterms_subset ht hc
  have hself : Function.update s.types t.addr u t.addr = u := Function.update_self ..
  refine h.setTypes (fun b hb => Function.update_of_ne hb ..)
    (fun v hv => .inl (hl v (hself.symm.trans hv))) (fun gs hg => ?_) (fun e hg => ?_) ?_
  -- nothing but a node of the kind lives at the address of a `RecordTy` or an `ArrayTy`
  · obtain rfl := Ast.eq_of_addr_eq hp.nodup hmem hg hn rfl ha
    exact absurd (congrArg Sigma.fst (hrc rfl)).symm hj
  · obtain rfl := Ast.eq_of_addr_eq hp.nodup hmem hg hn rfl ha
    exact absurd (congrArg Sigma.fst (hrc rfl)).symm hj
  · intro d hd hdn hdk hda
    obtain rfl := Ast.eq_of_addr_eq hp.nodup hd hmem hdn hn (hda.trans ha.symm)
    rw [hself]
    exact ⟨fun h => hu (huc.mpr h), fun _ => hwc.mp hw⟩

theorem Inv.errorAndRecover (hp : F.About program) (h : Inv F program w L s)
    (ht : ⟨k, t⟩ ∈ program.subterms) (hk : HasMethod k = true) (hg : Whole F t)
    (hu : ¬ Untypable F.tree.defs t) (hj : k ≠ .ty) {msg : Str} {q : Culprit} :
    Inv F program w L (s.errorAndRecover t.addr msg q) :=
  (h.report _).typeSet hp ht hk hg hj (fun h => absurd h hu) fun v hv => by
    cases hv
    exact .of_builtin (by simp)

/-- Nothing with a method lives at the address of a declaration of a function or a type. -/
theorem addr_ne (hp : F.About program) (ht : ⟨k, t⟩ ∈ program.subterms)
    (hn : t.isNode = true) (hk : HasMethod k = false) {c : Σ k, Ast Addr k}
    (hc : c ∈ program.subterms) (hcn : c.2.isNode = true) (hck : HasMethod c.1 = true) :
    c.2.addr ≠ t.addr := by
  intro ha
  obtain rfl := Ast.eq_of_addr_eq hp.nodup hc ht hcn hn ha
  exact absurd (hck.symm.trans hk) (by decide)

/-- The type of a declaration of a function or a type. -/
theorem Inv.setDec (hp : F.About program) (h : Inv F program w L s)
    (ht : ⟨k, t⟩ ∈ program.subterms) (hn : t.isNode = true) (hk : HasMethod k = false)
    {T : Addr → Option TypePtr} (hT : ∀ b, b ≠ t.addr → T b = s.types b)
    (hl : ∀ u, T t.addr = some u → s.types t.addr = some u ∨ Live s u) :
    Inv F program w L { s with types := T } :=
  h.setTypes hT (fun u hu => (hl u hu).elim (h.types _ u) .inl)
    (fun _ hg => absurd rfl (addr_ne hp ht hn hk hg rfl rfl))
    (fun _ hg => absurd rfl (addr_ne hp ht hn hk hg rfl rfl))
    fun _ hc hcn hck ha => absurd ha (addr_ne hp ht hn hk hc hcn hck)

theorem eq_or_of_setDefault {β : Type} {f : Addr → Option β} {a b : Addr} {v w : β}
    (h : setDefault f a v b = some w) : f b = some w ∨ b = a ∧ w = v := by
  by_cases hb : b = a
  · subst hb
    unfold setDefault at h
    split at h
    · exact .inl h
    · rw [Function.update_self, Option.some_inj] at h
      exact .inr ⟨rfl, h.symm⟩
  · exact .inl ((setDefault_of_ne hb).symm.trans h)

theorem Inv.createNamed (hp : F.About program) (h : Inv F program false L s) {x : Symbol}
    {ty : Ast Addr .ty} (ht : ⟨.typeDec, .typeDec a x ty⟩ ∈ program.subterms) :
    Inv F program false L (s.createNamed a x) := by
  have hlive {u : TypePtr} (hu : Live s u) :
      Live { s with heap.nameds := setDefault s.heap.nameds a (x, none) } u :=
    hu.mono fun _ => isSome_setDefault_of_isSome
  have h₁ : Inv F program false L
      { s with heap.nameds := setDefault s.heap.nameds a (x, none) } := by
    refine ⟨fun b y u hb => ?_, fun u hu => hlive (h.live u hu),
      fun b u hb => (h.types b u hb).imp_left hlive,
      fun b fs r hb => ?_, fun b fs hb p hp => hlive (h.records b fs hb p hp),
      fun b u hb => hlive (h.arrays b u hb), h.recordTys, h.arrayTys, h.untypable, h.whole,
      by rintro ⟨⟩⟩
    · rcases eq_or_of_setDefault hb with hb | ⟨-, hb⟩
      · exact h.shallow b y u hb
      · cases hb
    · obtain ⟨ha, hfs, hr⟩ := h.functions b fs r hb
      exact ⟨ha, fun p hp => hlive (hfs p hp), hlive hr⟩
  refine h₁.setDec hp ht rfl rfl (fun b hb => setDefault_of_ne hb) fun u hu => ?_
  refine (eq_or_of_setDefault hu).imp_right ?_
  rintro ⟨-, rfl⟩
  exact isSome_setDefault

theorem isActual_of_createdTy {ty : Ast Addr .ty} {u : TypePtr} (h : s.createdTy ty = some u) :
    TypeHeap.IsActual u := by
  cases ty with
  | ofNameTy n => cases h
  | recordTy a fs | arrayTy a b =>
    obtain ⟨_, _, rfl⟩ := Option.map_eq_some_iff.mp h
    trivial

theorem Inv.namedTypeSet (h : Inv F program false L s) {ty : Ast Addr .ty} :
    Inv F program false L (s.namedTypeSet a (s.createdTy ty)) := by
  have hlive {u : TypePtr} (hu : Live s u) : Live (s.namedTypeSet a (s.createdTy ty)) u := by
    refine hu.mono fun b hsome => ?_
    simp only [TypeChecker.namedTypeSet]
    split
    · rename_i hba
      rw [Option.isSome_map]
      exact hba ▸ hsome
    · exact hsome
  refine ⟨fun b y u hb => ?_, fun u hu => hlive (h.live u hu),
    fun b u hb => (h.types b u hb).imp_left hlive,
    fun b fs r hb => ?_, fun b fs hb p hp => hlive (h.records b fs hb p hp),
    fun b u hb => hlive (h.arrays b u hb), h.recordTys, h.arrayTys, h.untypable, h.whole,
    by rintro ⟨⟩⟩
  · simp only [TypeChecker.namedTypeSet] at hb
    split at hb
    · obtain ⟨_, -, hu⟩ := Option.map_eq_some_iff.mp hb
      exact isActual_of_createdTy (Prod.ext_iff.mp hu).2
    · exact h.shallow b y u hb
  · obtain ⟨ha, hfs, hr⟩ := h.functions b fs r hb
    exact ⟨ha, fun p hp => hlive (hfs p hp), hlive hr⟩

theorem Inv.createFunction (hp : F.About program) (h : Inv F program w L s) {x : Symbol} {c : Addr}
    {ds : Ast Addr (.list .varDec)} {res : Ast Addr (.opt .nameTy)} {body : Ast Addr (.opt .exp)}
    (ht : ⟨.functionDec, .functionDec a x (.varChunk c ds) res body⟩ ∈ program.subterms)
    {fs : List (Symbol × TypePtr)} {r : TypePtr} (hlen : fs.length = ds.toList.length)
    (hfs : ∀ p ∈ fs, Live s p.2) (hr : Live s r) : Inv F program w L (s.createFunction a fs r) := by
  have h₁ : Inv F program w L
      { s with heap.functions := setDefault s.heap.functions a (fs, r) } := by
    refine ⟨h.shallow, h.live, h.types, fun b gs q hb => ?_, h.records, h.arrays, h.recordTys,
      h.arrayTys, h.untypable, h.whole, h.closed⟩
    rcases eq_or_of_setDefault hb with hb | ⟨hba, heq⟩
    · exact h.functions b gs q hb
    · obtain ⟨rfl, rfl⟩ := Prod.mk.inj heq
      exact ⟨by rw [hba, hp.arity _ _ _ _ _ _ ht, hlen], hfs, hr⟩
  refine h₁.setDec hp ht rfl rfl (fun b hb => setDefault_of_ne hb) fun u hu => ?_
  refine (eq_or_of_setDefault hu).imp_right ?_
  rintro ⟨-, rfl⟩
  trivial

theorem Inv.createRecord (hp : F.About program) (h : Inv F program w L s)
    {gs : Ast Addr (.list .field)} (ht : ⟨.ty, .recordTy a gs⟩ ∈ program.subterms)
    (hw : Whole F (.recordTy a gs)) {fs : List (Symbol × TypePtr)}
    (hlen : fs.length = gs.toList.length) (hfs : ∀ p ∈ fs, Live s p.2) :
    Inv F program w L (s.createRecord a fs) := by
  have hgs {gs'} (hg : ⟨.ty, .recordTy a gs'⟩ ∈ program.subterms) : gs' = gs := by
    cases Ast.eq_of_addr_eq hp.nodup hg ht rfl rfl rfl
    rfl
  have hsome {b : Addr} (hb : (s.heap.records b).isSome = true) :
      (setDefault s.heap.records a fs b).isSome = true := isSome_setDefault_of_isSome hb
  have h₁ : Inv F program w L { s with heap.records := setDefault s.heap.records a fs } := by
    refine ⟨h.shallow, h.live, h.types, h.functions, fun b qs hb => ?_, h.arrays,
      fun b gs' hg => ⟨fun qs hb => ?_, fun u hu => ?_⟩, h.arrayTys, h.untypable, h.whole,
      h.closed⟩
    · rcases eq_or_of_setDefault hb with hb | ⟨-, rfl⟩
      · exact h.records b qs hb
      · exact hfs
    · rcases eq_or_of_setDefault hb with hb | ⟨rfl, rfl⟩
      · exact (h.recordTys b gs' hg).1 qs hb
      · rw [hlen, hgs hg]
    · obtain ⟨hu, hr⟩ := (h.recordTys b gs' hg).2 u hu
      exact ⟨hu, hsome hr⟩
  refine h₁.setTypes (a := a) (fun b hb => setDefault_of_ne hb) (fun _ _ => .inr ⟨gs, ht⟩)
    (fun gs' hg u hu => ?_) (fun _ hg => ?_) fun c hc hn hk ha => ?_
  · refine ⟨?_, isSome_setDefault⟩
    rcases eq_or_of_setDefault hu with hu | ⟨-, hu⟩
    · exact ((h.recordTys a gs' hg).2 u hu).1
    · exact hu
  · cases Ast.eq_of_addr_eq hp.nodup hg ht rfl rfl rfl
  · obtain rfl := Ast.eq_of_addr_eq hp.nodup hc ht hn rfl ha
    exact ⟨fun hu => absurd hu id, fun _ => hw⟩

theorem Inv.createArray (hp : F.About program) (h : Inv F program w L s) {e : Ast Addr .nameTy}
    (ht : ⟨.ty, .arrayTy a e⟩ ∈ program.subterms) (hw : Whole F (.arrayTy a e)) {r : TypePtr}
    (hr : Live s r) : Inv F program w L (s.createArray a r) := by
  have h₁ : Inv F program w L { s with heap.arrays := setDefault s.heap.arrays a r } := by
    refine ⟨h.shallow, h.live, h.types, h.functions, h.records, fun b u hb => ?_, h.recordTys,
      fun b e hg hb => isSome_setDefault_of_isSome (h.arrayTys b e hg hb), h.untypable, h.whole,
      h.closed⟩
    rcases eq_or_of_setDefault hb with hb | ⟨-, rfl⟩
    · exact h.arrays b u hb
    · exact hr
  refine h₁.setTypes (a := a) (fun b hb => setDefault_of_ne hb) (fun u hu => ?_)
    (fun gs' hg => ?_) (fun _ _ _ => isSome_setDefault) fun c hc hn hk ha => ?_
  · rcases eq_or_of_setDefault hu with hu | ⟨-, rfl⟩
    · exact h₁.types _ _ hu
    · exact .inl trivial
  · cases Ast.eq_of_addr_eq hp.nodup hg ht rfl rfl rfl
  · obtain rfl := Ast.eq_of_addr_eq hp.nodup hc ht hn rfl ha
    exact ⟨fun hu => absurd hu id, fun _ => hw⟩

/-! ## What is thrown -/

/-- No error is thrown where every `Named` is closed. -/
def Throws (w : Bool) : Stop → Prop
  | .error _ => w = false
  | _ => True

theorem ends_throws_false {α : Type} (r : Except Stop α) :
    Ends (Throws false) (fun _ => True) r := by
  cases r with
  | error e => cases e <;> trivial
  | ok a => trivial

theorem Closed.actual (hc : Closed s) (hs : Shallow s) (u : TypePtr) :
    Ends (Throws w) (fun _ => True) (s.heap.actual n u) := by
  cases n with
  | zero => trivial
  | succ n =>
    cases u with
    | named b =>
      simp only [TypeHeap.actual]
      split
      · rename_i x t ht
        cases n with
        | zero => trivial
        | succ n =>
          rw [TypeHeap.actual_of_isActual (hs b x t ht)]
          trivial
      · rename_i x hx
        exact absurd hx (hc b x)
      · trivial
    | _ => trivial

theorem Closed.compatibleWith (hc : Closed s) (hs : Shallow s) (u v : TypePtr) :
    Ends (Throws w) (fun _ => True) (s.heap.compatibleWith n u v) := by
  induction n generalizing u with
  | zero => trivial
  | succ n ih =>
    cases u with
    | named b => exact (hc.actual hs _).bind fun t _ => ih t
    | record b =>
      refine (hc.actual hs v).bind fun v' _ => ?_
      split
      · trivial
      · exact (hc.actual hs _).bind fun _ _ => (hc.actual hs v).bind fun _ _ => trivial
    | _ => exact (hc.actual hs _).bind fun _ _ => (hc.actual hs v).bind fun _ _ => trivial

theorem Inv.actual (h : Inv F program w L s) (u : TypePtr) :
    Ends (Throws w) (fun _ => True) (s.heap.actual n u) := by
  cases w with
  | false => exact ends_throws_false _
  | true => exact (h.closed rfl).2.actual h.shallow u

theorem Inv.compatibleWith (h : Inv F program w L s) (u v : TypePtr) :
    Ends (Throws w) (fun _ => True) (s.heap.compatibleWith n u v) := by
  cases w with
  | false => exact ends_throws_false _
  | true => exact (h.closed rfl).2.compatibleWith h.shallow u v

theorem ends_soundLoop {prev : List Addr} :
    Ends (Throws w) (fun _ => True) (s.heap.soundLoop n prev a) := by
  induction n generalizing prev a with
  | zero => trivial
  | succ n ih =>
    simp only [TypeHeap.soundLoop]
    split
    · split
      · trivial
      · exact ih
    · trivial
    · trivial

theorem ends_typeOfBody {m : Tree} {ty : Ast Addr .nameTy} :
    Ends (Throws w) (fun _ => True) (s.typeOfBody m ty) := by
  unfold typeOfBody
  split <;> trivial

theorem ends_and {α : Type} {E E' : Stop → Prop} {I J : α → Prop} {r : Except Stop α}
    (h : Ends E' I r) (h' : Ends E J r) : Ends E (fun a => I a ∧ J a) r := by
  cases r with
  | error e => exact h'
  | ok a => exact ⟨h, h'⟩

/-! ## What a method that ends has gone over -/

section Sees

variable {acc : ⦃k : Kind⦄ → Ast Addr k → TypeChecker → Except Stop TypeChecker}
  {e : Ast Addr j} {e' : Ast Addr i}

/-- A call of `accept` on the node that ends goes over it. -/
def Sees (F : Facts) (program : Ast Addr .chunkList)
    (acc : ⦃k : Kind⦄ → Ast Addr k → TypeChecker → Except Stop TypeChecker) (e : Ast Addr j) :
    Prop :=
  ⟨j, e⟩ ∈ program.subterms ∧ HasMethod j = true ∧ ∀ w L s, Inv F program w L s →
    Ends (Throws w) (fun s' => Inv F program w L s' ∧ Whole F e) (acc e s)

theorem Sees.type (he : Sees F program acc e) (hs : Inv F program w L s) :
    Ends (Throws w) (fun s' => Inv F program w L s' ∧ Whole F e) (s.type acc e) := by
  unfold TypeChecker.type
  split
  · rename_i h
    exact ⟨hs, hs.whole_of_typed he.1 he.2.1 h⟩
  · exact he.2.2 w L s hs

theorem Sees.typeRef (hp : F.About program) (he : Sees F program acc e) (hj : j ≠ .ty)
    (hs : Inv F program w L s) :
    Ends (Throws w) (fun r => Inv F program w (r.2 :: L) r.1 ∧ Usable F e)
      (s.typeRef acc e) := by
  refine (he.type hs).bind ?_
  rintro s' ⟨hs', hw⟩
  cases hu : s'.typeGet e with
  | none => trivial
  | some u =>
    have hl : Live s' u := hs'.live_typeGet hp he.1 he.2.1 (by rintro b gs ⟨⟩; exact hj rfl) hu
    refine ⟨hs'.cons hl, hw.usable he.2.1 fun h => ?_⟩
    rw [hs'.typeGet_eq_none he.1 he.2.1 h] at hu
    cases hu

theorem Inv.checkTypes (hs : Inv F program w L s) {x y : Str} {u v : TypePtr} :
    Ends (Throws w) (Inv F program w L) (s.checkTypes n a x u y v) := by
  refine (hs.actual _).bind fun _ _ => (hs.compatibleWith _ _).bind fun c _ => ?_
  cases c
  · exact hs.report _
  · exact hs

theorem Sees.checkTypesOf (hp : F.About program) (he : Sees F program acc e)
    (he' : Sees F program acc e') (hj : j ≠ .ty) (hi : i ≠ .ty) (hs : Inv F program w L s)
    {x y : Str} :
    Ends (Throws w) (fun s' => Inv F program w L s' ∧ Usable F e ∧ Usable F e')
      (s.checkTypesOf n acc a x e y e') := by
  refine (he.typeRef hp hj hs).bind ?_
  rintro r ⟨hs, hg⟩
  refine (he'.typeRef hp hi hs).bind ?_
  rintro r' ⟨hs', hg'⟩
  exact hs'.checkTypes.imp fun s hs => ⟨hs.tail.tail, hg, hg'⟩

theorem Sees.checkType (hp : F.About program) (he : Sees F program acc e) (hj : j ≠ .ty)
    (hs : Inv F program w L s) {x : Str} {u : TypePtr} :
    Ends (Throws w) (fun s' => Inv F program w L s' ∧ Usable F e)
      (s.checkType n acc e x u) := by
  refine (he.typeRef hp hj hs).bind ?_
  rintro r ⟨hs, hg⟩
  refine (hs.actual _).bind fun v _ => ?_
  have hu := hg.typable ⟨j, e⟩ (by rw [entries_of_hasMethod he.2.1]; exact .head _)
  split
  · exact ⟨hs.tail, hg⟩
  · exact ⟨hs.tail.errorAndRecover hp he.1 he.2.1 hg.toWhole hu hj, hg⟩

theorem Sees.typeFields (hp : F.About program) (hj : j ≠ .ty) {es : List (Symbol × Ast Addr j)}
    (he : ∀ e ∈ es, Sees F program acc e.2) (hs : Inv F program w L s) :
    Ends (Throws w) (fun r => Inv F program w L r.1 ∧ (∀ p ∈ r.2, Live r.1 p.2) ∧
      r.2.length = es.length ∧ ∀ e ∈ es, Usable F e.2) (s.typeFields acc es) := by
  induction es generalizing s L with
  | nil => exact ⟨hs, List.forall_mem_nil _, rfl, List.forall_mem_nil _⟩
  | cons e es ih =>
    obtain ⟨hfirst, hrest⟩ := List.forall_mem_cons.mp he
    refine (hfirst.typeRef hp hj hs).bind ?_
    rintro r ⟨hs, hg⟩
    refine (ih hrest hs).bind ?_
    rintro r' ⟨hs', hl, hlen, hgs⟩
    refine ⟨hs'.tail, ?_, ?_, ?_⟩
    · exact List.forall_mem_cons.mpr ⟨hs'.live _ (.head _), hl⟩
    · exact congrArg (· + 1) hlen
    · exact List.forall_mem_cons.mpr ⟨hg, hgs⟩

theorem Sees.typeSeq (hp : F.About program) : (es : Ast Addr (.list .exp)) →
    ∀ {s : TypeChecker} {last : Option TypePtr}, (∀ e ∈ es.toList, Sees F program acc e) →
    Inv F program w L s → (∀ u, last = some u → Live s u) →
    Ends (Throws w) (fun r => Inv F program w L r.1 ∧ Whole F es ∧
      (Untypable F.tree.defs es → r.2 = none) ∧ ∀ u, r.2 = some u → Live r.1 u)
      (s.typeSeq acc last es.toList)
  | .nil, _, _, _, hs, hl => ⟨hs, .nil, fun hu => absurd hu id, hl⟩
  | .cons e .nil, _, _, he, hs, _ => by
    have hfirst := he e (by simp)
    refine (hfirst.type hs).bind ?_
    rintro s₁ ⟨hs₁, hw⟩
    refine ⟨hs₁, hw.cons .nil, fun hu => ?_, fun u hu => ?_⟩
    · exact hs₁.typeGet_eq_none hfirst.1 rfl (hu.elim False.elim (·.2))
    · exact hs₁.live_typeGet hp hfirst.1 rfl (by rintro b gs ⟨⟩) hu
  | .cons e (.cons e' es), _, _, he, hs, _ => by
    have hfirst := he e (by simp)
    refine (hfirst.type hs).bind ?_
    rintro s₁ ⟨hs₁, hw⟩
    refine (Sees.typeSeq hp (.cons e' es) (fun e he' => he e (List.mem_cons_of_mem _ he')) hs₁
      fun u hu => hs₁.live_typeGet hp hfirst.1 rfl (by rintro b gs ⟨⟩) hu).imp ?_
    rintro r ⟨hr, hws, hu, hl⟩
    exact ⟨hr, hw.cons hws, fun h => hu (h.resolve_right fun h => by simp at h), hl⟩

theorem Sees.checkFields (hp : F.About program) {es : List (Ast Addr .fieldInit)}
    {ts : List (Symbol × TypePtr)}
    (he : ∀ b x i, Ast.fieldInit b x i ∈ es → Sees F program acc i) (hs : Inv F program w L s) :
    Ends (Throws w) (fun s' => Inv F program w L s' ∧
      (∀ b x i, Ast.fieldInit b x i ∈ es → Usable F i) ∧ es.length ≤ ts.length)
      (s.checkFields n acc a es ts) := by
  induction es generalizing s ts with
  | nil => exact ⟨hs, fun _ _ _ h => absurd h List.not_mem_nil, Nat.zero_le _⟩
  | cons e es ih =>
    cases e with
    | fieldInit b x i =>
      cases ts with
      | nil => trivial
      | cons t ts =>
        refine ((he b x i (.head _)).typeRef hp (by decide) hs).bind ?_
        rintro r ⟨hs, hg⟩
        refine hs.checkTypes.bind fun s hs => ?_
        refine (ih (fun b x i hi => he b x i (.tail _ hi)) hs.tail).imp ?_
        rintro s ⟨hs, hgs, hlen⟩
        refine ⟨hs, fun b' x' i' h => ?_, Nat.succ_le_succ hlen⟩
        rcases List.mem_cons.mp h with h | h
        · cases h
          exact hg
        · exact hgs b' x' i' h

theorem Sees.checkArgs (hp : F.About program) {es : List (Ast Addr .exp)}
    {ts : List (Symbol × TypePtr)} (he : ∀ e ∈ es, Sees F program acc e) (hs : Inv F program w L s)
    (hlen : es.length = ts.length) :
    Ends (Throws w) (fun s' => Inv F program w L s' ∧ ∀ e ∈ es, Usable F e)
      (s.checkArgs n acc a es ts) := by
  induction es generalizing s ts with
  | nil => exact ⟨hs, List.forall_mem_nil _⟩
  | cons e es ih =>
    cases ts with
    | nil => cases hlen
    | cons t ts =>
      obtain ⟨hfirst, hrest⟩ := List.forall_mem_cons.mp he
      refine (hfirst.typeRef hp (by decide) hs).bind ?_
      rintro r ⟨hs, hg⟩
      refine hs.checkTypes.bind ?_
      intro s hs
      refine (ih hrest hs.tail (Nat.succ.inj hlen)).imp ?_
      rintro s ⟨hs, hgs⟩
      exact ⟨hs, List.forall_mem_cons.mpr ⟨hg, hgs⟩⟩

theorem Sees.checkCall (hp : F.About program) {es : List (Ast Addr .exp)}
    {ts : List (Symbol × TypePtr)} (he : ∀ e ∈ es, Sees F program acc e)
    (hs : Inv F program w L s) :
    Ends (Throws w)
      (fun s' => Inv F program w L s' ∧ (es.length = ts.length → ∀ e ∈ es, Usable F e))
      (s.checkCall n acc a es ts) := by
  unfold TypeChecker.checkCall
  split
  · rename_i hne
    exact ⟨hs.report _, fun h => absurd h hne⟩
  · rename_i heq
    refine (checkArgs hp he hs (not_not.mp heq)).imp ?_
    rintro s ⟨hs, hg⟩
    exact ⟨hs, fun _ => hg⟩

theorem Sees.checkRecord (hp : F.About program) {es : List (Ast Addr .fieldInit)}
    {fields : Option (List (Symbol × TypePtr))}
    (he : ∀ b x i, Ast.fieldInit b x i ∈ es → Sees F program acc i) (hs : Inv F program w L s) :
    Ends (Throws w) (fun s' => Inv F program w L s' ∧
      (∀ b x i, Ast.fieldInit b x i ∈ es → Usable F i) ∧ es.length ≤ (fields.getD []).length)
      (s.checkRecord n acc a es fields) := by
  cases fields with
  | none => exact checkFields hp he (hs.report _)
  | some fields => exact checkFields hp he hs

theorem Sees.visitAll {f : TypeChecker → Ast Addr j → Except Stop TypeChecker}
    {Q : Ast Addr j → Prop} {ds : List (Ast Addr j)} (hs : Inv F program w L s)
    (hf : ∀ d ∈ ds, ∀ s, Inv F program w L s →
      Ends (Throws w) (fun s' => Inv F program w L s' ∧ Q d) (f s d)) :
    Ends (Throws w) (fun s' => Inv F program w L s' ∧ ∀ d ∈ ds, Q d) (s.visitAll f ds) := by
  induction ds generalizing s with
  | nil => exact ⟨hs, List.forall_mem_nil _⟩
  | cons d ds ih =>
    refine (hf d (.head _) s hs).bind ?_
    rintro s ⟨hs, hq⟩
    refine (ih hs fun d hd => hf d (.tail _ hd)).imp ?_
    rintro s ⟨hs, hqs⟩
    exact ⟨hs, List.forall_mem_cons.mpr ⟨hq, hqs⟩⟩

theorem Sees.checkOperands (hp : F.About program) {l r : Ast Addr .exp} {op : Oper}
    (ht : ⟨.exp, .opExp a l op r⟩ ∈ program.subterms) (hl : Sees F program acc l)
    (hr : Sees F program acc r) (hs : Inv F program w L s) :
    Ends (Throws w) (fun s' => Inv F program w L s' ∧ Usable F l ∧ Usable F r)
      (s.checkOperands n acc a l r op) := by
  cases op
  case add | sub | mul | div =>
    refine (hl.checkType hp (by decide) hs).bind ?_
    rintro s ⟨hs, hgl⟩
    refine (hr.checkType hp (by decide) hs).imp ?_
    rintro s ⟨hs, hgr⟩
    exact ⟨hs, hgl, hgr⟩
  case eq | ne => exact hl.checkTypesOf hp hr (by decide) (by decide) hs
  all_goals
    refine (hl.checkTypesOf hp hr (by decide) (by decide) hs).bind ?_
    rintro s ⟨hs, hg⟩
    cases s.typeGet l with
    | none => trivial
    | some t =>
      refine (hs.actual _).bind fun u _ => ?_
      split
      · have hnode (op : Oper) : Whole F (.opExp a l op r) :=
          hg.1.two hg.2 rfl rfl rfl rfl trivial
        exact ⟨hs.errorAndRecover hp ht rfl (hnode _) id (by decide), hg⟩
      · exact ⟨hs, hg⟩

theorem Inv.append (hs : Inv F program w L s) {M : List TypePtr} (hM : ∀ u ∈ M, Live s u) :
    Inv F program w (M ++ L) s := { hs with live := List.forall_mem_append.mpr ⟨hM, hs.live⟩ }

theorem Inv.drop {M : List TypePtr} (hs : Inv F program w (M ++ L) s) :
    Inv F program w L s ∧ ∀ u ∈ M, Live s u :=
  have hlive := List.forall_mem_append.mp hs.live
  ⟨{ hs with live := hlive.2 }, hlive.1⟩

theorem Sees.typeResult (hp : F.About program) {r : Ast Addr (.opt .nameTy)}
    (hr : ∀ c ∈ entries r, Sees F program acc c.2) (hs : Inv F program w L s) :
    Ends (Throws w) (fun p => Inv F program w (p.2 :: L) p.1 ∧ Usable F r)
      (s.typeResult acc r) := by
  cases r with
  | none =>
    exact ⟨hs.cons (.of_builtin (by simp)), .none⟩
  | some r =>
    have hr : Sees F program acc r := hr ⟨_, r⟩ (by simp (disch := decide) [entries])
    refine (hr.typeRef hp (by decide) hs).imp ?_
    rintro p ⟨hs, hg⟩
    exact ⟨hs, hg.some⟩

/-- The header of a function has been gone over. -/
def Headed (F : Facts) : Ast Addr .functionDec → Prop
  | .functionDec _ _ (.varChunk _ fs) r _ => Usable F fs ∧ Usable F r

/-- The body of a function has been gone over. -/
def Bodied (F : Facts) : Ast Addr .functionDec → Prop
  | .functionDec _ _ _ _ b => Usable F b

theorem Whole.functionDec {d : Ast Addr .functionDec} (hh : Headed F d) (hb : Bodied F d) :
    Whole F d := by
  cases d with
  | functionDec a x fs r b =>
    cases fs with
    | varChunk c fs =>
      have htyp := List.forall_mem_append.mpr ⟨hh.1.typable, hh.2.typable⟩
      have hacc := List.forall_mem_append.mpr ⟨hh.1.grounded, hh.2.grounded⟩
      refine ⟨List.forall_mem_append.mpr ⟨hacc, hb.grounded⟩, List.forall_mem_cons.mpr
        ⟨⟨List.forall_mem_append.mpr ⟨htyp, hb.typable⟩, trivial⟩, ?_⟩⟩
      exact List.forall_mem_append.mpr ⟨List.forall_mem_append.mpr ⟨List.forall_mem_cons.mpr
        ⟨followed_of_derefs rfl trivial, hh.1.followed⟩, hh.2.followed⟩, hb.followed⟩

theorem Sees.functionHeader (hp : F.About program) {d : Ast Addr .functionDec}
    (hd : ⟨.functionDec, d⟩ ∈ program.subterms) (he : ∀ c ∈ entries d, Sees F program acc c.2)
    (hs : Inv F program w L s) :
    Ends (Throws w) (fun s' => Inv F program w L s' ∧ Headed F d) (s.functionHeader acc d) := by
  cases d with
  | functionDec a x fs r b =>
    cases fs with
    | varChunk c fs =>
      have hfs : ∀ p ∈ formalsOf fs.toList, Sees F program acc p.2 := by
        intro p hp
        obtain ⟨v, hv, rfl⟩ := List.mem_map.mp hp
        exact he ⟨_, v⟩ (by simp [entries, mem_entries_of_mem hv rfl])
      refine (typeFields hp (by decide) hfs hs).bind ?_
      rintro p ⟨hs, hl, hlen, hg⟩
      have hs := hs.append (M := p.2.map Prod.snd) (List.forall_mem_map.mpr hl)
      refine (typeResult hp (fun c hc => he c (by simp [entries, hc])) hs).bind ?_
      rintro q ⟨hs, hr⟩
      obtain ⟨hs₁, hM⟩ := hs.tail.drop
      refine ⟨hs₁.createFunction hp hd ?_ (List.forall_mem_map.mp hM) (hs.live _ (.head _)), ?_, hr⟩
      · rw [hlen, formalsOf, List.length_map]
      · exact .list fs fun v hv => hg _ (List.mem_map_of_mem hv)

theorem Sees.functionBody (hp : F.About program) {d : Ast Addr .functionDec}
    (he : ∀ c ∈ entries d, Sees F program acc c.2) (hs : Inv F program w L s) :
    Ends (Throws w) (fun s' => Inv F program w L s' ∧ Bodied F d)
      (s.functionBody n acc d) := by
  cases d with
  | functionDec a x fs r b =>
    cases fs with
    | varChunk c fs =>
      cases b with
      | none => exact ⟨hs, .none⟩
      | some b =>
        simp only [TypeChecker.functionBody]
        split
        · have hb : Sees F program acc b := he ⟨_, b⟩ (by simp (disch := decide) [entries])
          refine (hb.typeRef hp (by decide) hs).bind ?_
          rintro p ⟨hs, hg⟩
          refine hs.checkTypes.imp ?_
          intro s hs
          exact ⟨hs.tail, hg.some⟩
        · trivial

theorem Sees.typeBody (hp : F.About program) {d : Ast Addr .typeDec}
    (hd : ⟨.typeDec, d⟩ ∈ program.subterms) (he : ∀ c ∈ entries d, Sees F program acc c.2)
    (hs : Inv F program false L s) :
    Ends (Throws false) (fun s' => Inv F program false L s' ∧ Whole F d) (s.typeBody n acc d) := by
  cases d with
  | typeDec a x ty =>
    have hty := he ⟨_, ty⟩ (by simp (disch := decide) [entries])
    refine (hty.type hs).bind ?_
    rintro s ⟨hs, hw⟩
    refine ends_soundLoop.bind fun c _ => ?_
    have hs : Inv F program false L (s.namedTypeSet a (s.createdTy ty)) := hs.namedTypeSet
    have hw : Whole F (.typeDec a x ty) := hw.part rfl rfl (followed_of_derefs rfl trivial)
    cases c
    · refine ⟨(hs.report _).setDec hp hd rfl rfl (fun b hb => Function.update_of_ne hb ..)
        fun u hu => ?_, hw⟩
      rw [show (Ast.typeDec a x ty).addr = a from rfl, Function.update_self] at hu
      cases hu
      exact .inr (.of_builtin (by simp))
    · exact ⟨hs, hw⟩

theorem asRecord_eq {u : Option TypePtr} {fields : List (Symbol × TypePtr)}
    (h : s.asRecord u = some fields) :
    ∃ r, u = some (.record r) ∧ s.heap.records r = some fields := by
  unfold asRecord at h
  split at h
  · exact ⟨_, rfl, h⟩
  · cases h

theorem asArray_eq {u : Option TypePtr} {t : TypePtr} (h : s.asArray u = some t) :
    ∃ r, u = some (.array r) ∧ s.heap.arrays r = some t := by
  unfold asArray at h
  split at h
  · exact ⟨_, rfl, h⟩
  · cases h

/-- What the body of a type declaration has for its type is a `Record` only if it is a
`RecordTy`, and has its fields then. -/
theorem Inv.record_of_body (hp : F.About program) (h : Inv F program w L s) {x : Symbol}
    {ty : Ast Addr .ty} (ht : ⟨.typeDec, .typeDec a x ty⟩ ∈ program.subterms)
    {fields : List (Symbol × TypePtr)} (hf : s.asRecord (s.typeGet ty) = some fields) :
    ∃ b gs, ty = .recordTy b gs ∧ fields.length = gs.toList.length := by
  obtain ⟨r, hu, hr⟩ := asRecord_eq hf
  have hty : ⟨.ty, ty⟩ ∈ program.subterms := Ast.subterms_subset ht (Ast.mem_first rfl)
  by_cases hrec : ∃ b gs, ty = Ast.recordTy b gs
  · obtain ⟨b, gs, rfl⟩ := hrec
    obtain ⟨hlen, htype⟩ := h.recordTys b gs hty
    obtain ⟨hrb, -⟩ := htype _ hu
    cases hrb
    exact ⟨r, gs, rfl, hlen fields hr⟩
  · refine False.elim (h.live_typeGet (u := .record r) hp hty rfl ?_ hu)
    rintro b gs ⟨⟩
    exact hrec ⟨b, gs, rfl⟩

theorem ends_bind_of_eq {α β : Type} {x : Except Stop α} {f : α → Except Stop β} {E : Stop → Prop}
    {P : β → Prop} (hx : Ends E (fun _ => True) x) (h : ∀ a, x = .ok a → Ends E P (f a)) :
    Ends E P (x >>= f) := by
  cases x with
  | error e => exact hx
  | ok a => exact h a rfl

/-- The last step of most methods. -/
theorem Inv.finish (hp : F.About program) (hs : Inv F program w L s)
    (ht : ⟨k, t⟩ ∈ program.subterms) (hk : HasMethod k = true) (hj : k ≠ .ty) (hw : Whole F t)
    {u : Option TypePtr} (hu : Untypable F.tree.defs t → u = none)
    (hl : ∀ v, u = some v → Live s v) :
    Inv F program w L (s.typeSet t.addr u) ∧ Whole F t :=
  ⟨hs.typeSet hp ht hk hw hj hu hl, hw⟩

theorem live_some {u v : TypePtr} (h : v = .int ∨ v = .string ∨ v = .void ∨ v = .nil)
    (hu : some v = some u) : Live s u := by
  cases hu
  exact .of_builtin h

theorem Sees.visitVarDec (hp : F.About program) {x : Symbol} {t : Ast Addr (.opt .nameTy)}
    {o : Ast Addr (.opt .exp)} (ht : ⟨.varDec, .varDec a x t o⟩ ∈ program.subterms)
    (he : ∀ c ∈ entries t ++ entries o, Sees F program acc c.2) (hs : Inv F program w L s) :
    Ends (Throws w) (fun s' => Inv F program w L s' ∧ Whole F (.varDec a x t o))
      (s.visitVarDec n acc a t o) := by
  cases t with
  | none =>
    cases o with
    | none =>
      exact ⟨hs.report _, Whole.none.two .none rfl rfl rfl (followed_of_derefs rfl trivial)⟩
    | some e =>
      have he : Sees F program acc e := he ⟨_, e⟩ (by simp (disch := decide) [entries])
      refine (he.type hs).bind ?_
      rintro s ⟨hs, hw⟩
      refine hs.finish hp ht rfl (by decide)
        (Whole.none.two hw.some rfl rfl rfl (followed_of_derefs rfl trivial)) (fun hu => ?_)
        fun u hu => hs.live_typeGet hp he.1 rfl (by rintro b gs ⟨⟩) hu
      exact hs.typeGet_eq_none he.1 rfl
        (hu.elim False.elim fun h => h.2.resolve_right (by rintro ⟨⟩))
  | some t =>
    have hn : Sees F program acc t := he ⟨_, t⟩ (by simp (disch := decide) [entries])
    have hlive {s : TypeChecker} (hs : Inv F program w L s) (u : TypePtr)
        (hu : s.typeGet t = some u) : Live s u :=
      hs.live_typeGet hp hn.1 rfl (by rintro b gs ⟨⟩) hu
    cases o with
    | none =>
      refine (hn.type hs).bind ?_
      rintro s ⟨hs, hw⟩
      refine hs.finish hp ht rfl (by decide)
        (hw.some.two .none rfl rfl rfl (followed_of_derefs rfl trivial)) (fun hu => ?_) (hlive hs)
      exact hs.typeGet_eq_none hn.1 rfl (hu.resolve_right fun h => by cases h.1)
    | some e =>
      have he : Sees F program acc e := he ⟨_, e⟩ (by simp (disch := decide) [entries])
      refine (hn.type hs).bind ?_
      rintro s₁ ⟨hs₁, hw⟩
      cases hu : s₁.typeGet t with
      | none =>
        refine (he.typeRef hp (by decide) hs₁).bind fun r _ => ?_
        trivial
      | some u =>
        have htyp : ¬ Untypable F.tree.defs t := fun h => by
          rw [hs₁.typeGet_eq_none hn.1 rfl h] at hu
          cases hu
        refine (he.typeRef hp (by decide) (hs₁.cons (hlive hs₁ u hu))).bind ?_
        rintro r ⟨hs, hg⟩
        refine hs.tail.checkTypes.bind fun s hs => ?_
        refine hs.tail.finish hp ht rfl (by decide)
          ((hw.usable rfl htyp).some.two hg.some rfl rfl rfl rfl trivial)
          (fun h => absurd (h.resolve_right fun h => by cases h.1) htyp) fun v hv => ?_
        cases hv
        exact hs.live _ (.head _)

/-- The visit of a node goes over it if it ends. -/
def GoesOver (F : Facts) (program : Ast Addr .chunkList) (n : Nat)
    (acc : ⦃k : Kind⦄ → Ast Addr k → TypeChecker → Except Stop TypeChecker) (w : Bool)
    (L : List TypePtr) (s : TypeChecker) (t : Ast Addr k) : Prop :=
  Ends (Throws w) (fun s' => Inv F program w L s' ∧ Whole F t) (s.visit F.tree n acc t)

/-- The calls of `accept` that end go over their nodes. -/
def Seen (F : Facts) (program : Ast Addr .chunkList)
    (acc : ⦃k : Kind⦄ → Ast Addr k → TypeChecker → Except Stop TypeChecker) : Prop :=
  ∀ ⦃j : Kind⦄ ⦃e : Ast Addr j⦄, ⟨j, e⟩ ∈ program.subterms → HasMethod j = true →
    Sees F program acc e

theorem Seen.part (hacc : Seen F program acc) (ht : ⟨k, t⟩ ∈ program.subterms)
    (he : ⟨j, e⟩ ∈ t.subterms) (hj : HasMethod j = true) : Sees F program acc e :=
  hacc (Ast.subterms_subset ht he) hj

theorem Sees.live (he : Sees F program acc e) (hp : F.About program) (hs : Inv F program w L s)
    (hj : j ≠ .ty) (u : TypePtr) (hu : s.typeGet e = some u) : Live s u :=
  hs.live_typeGet hp he.1 he.2.1 (by rintro b gs ⟨⟩; exact hj rfl) hu

/-- The declarations of a chunk are parts of the program. -/
theorem mem_of_chunk {ds : Ast Addr (.list j)} {d : Ast Addr j} (ht : ⟨k, t⟩ ∈ program.subterms)
    (hc : t.members = [⟨_, ds⟩]) (hd : d ∈ ds.toList) : ⟨j, d⟩ ∈ program.subterms :=
  Ast.subterms_subset ht (Ast.subterms_subset (Ast.mem_first hc) (Ast.mem_subterms_of_mem hd))

theorem Seen.entries {ds : Ast Addr (.list j)} {d : Ast Addr j} (hacc : Seen F program acc)
    (ht : ⟨k, t⟩ ∈ program.subterms) (hc : t.members = [⟨_, ds⟩]) (hd : d ∈ ds.toList) :
    ∀ c ∈ TypeChecker.entries d, Sees F program acc c.2 := by
  intro c hce
  obtain ⟨hs, hm⟩ := mem_of_mem_entries d hce
  exact hacc.part (mem_of_chunk ht hc hd) hs hm

theorem Seen.visitVarDec {y : Symbol} {o : Ast Addr (.opt .nameTy)} {q : Ast Addr (.opt .exp)}
    (hacc : Seen F program acc) (hp : F.About program)
    (ht : ⟨.varDec, .varDec a y o q⟩ ∈ program.subterms) (hs : Inv F program w L s) :
    GoesOver F program n acc w L s (.varDec a y o q) := by
  refine Sees.visitVarDec hp ht (fun c hc => ?_) hs
  have hmem : c ∈ (Ast.varDec a y o q).subterms ∧ HasMethod c.1 = true := by
    rcases List.mem_append.mp hc with hc | hc
    · exact (mem_of_mem_entries o hc).imp_left (Ast.subterms_subset (Ast.mem_first rfl) ·)
    · exact (mem_of_mem_entries q hc).imp_left (Ast.subterms_subset (Ast.mem_second rfl) ·)
  exact hacc.part ht hmem.1 hmem.2

/-! ## The types that are written -/

/-- The classes of nodes a type is written with. -/
def WritesType : Kind → Bool
  | .ty | .nameTy => true
  | _ => false

/-- The type a `RecordTy` or an `ArrayTy` creates has been made. -/
def Created (s : TypeChecker) : {k : Kind} → Ast Addr k → Prop
  | _, .recordTy a _ => (s.heap.records a).isSome = true
  | _, .arrayTy a _ => (s.heap.arrays a).isSome = true
  | _, _ => True

/-- The calls of `accept` on these nodes throw nothing and leave the `Named`s as they are. -/
def Silent (acc : ⦃k : Kind⦄ → Ast Addr k → TypeChecker → Except Stop TypeChecker) : Prop :=
  ∀ ⦃j : Kind⦄ ⦃e : Ast Addr j⦄, WritesType j = true → ∀ s,
    Ends (Throws true) (fun s' => s'.heap.nameds = s.heap.nameds ∧ Created s' e) (acc e s)

theorem Silent.typeRef (hq : Silent acc) (hj : WritesType j = true) :
    Ends (Throws true) (fun r => r.1.heap.nameds = s.heap.nameds) (s.typeRef acc e) := by
  have htype : Ends (Throws true) (fun s' => s'.heap.nameds = s.heap.nameds) (s.type acc e) := by
    unfold TypeChecker.type
    split
    · rfl
    · exact (hq hj s).imp fun _ => And.left
  refine htype.bind fun s' hs' => ?_
  cases s'.typeGet e with
  | none => trivial
  | some u => exact hs'

theorem Silent.typeFields (hq : Silent acc) (hj : WritesType j = true)
    {es : List (Symbol × Ast Addr j)} :
    Ends (Throws true) (fun r => r.1.heap.nameds = s.heap.nameds) (s.typeFields acc es) := by
  induction es generalizing s with
  | nil => rfl
  | cons e es ih =>
    exact (hq.typeRef hj).bind fun r hr => ih.bind fun r' hr' => hr'.trans hr

theorem Silent.visit (hq : Silent acc) {m : Tree} (hk : WritesType k = true) :
    Ends (Throws true) (fun s' => s'.heap.nameds = s.heap.nameds ∧ Created s' t)
      (s.visit m n acc t) := by
  cases t with
  | nameTy b x =>
    simp only [TypeChecker.visit]
    split
    · exact ⟨rfl, trivial⟩
    · split
      · exact ⟨rfl, trivial⟩
      · split <;> exact ⟨rfl, trivial⟩
  | ofNameTy e => exact (hq rfl s).imp fun _ h => ⟨h.1, trivial⟩
  | recordTy b gs => exact (hq.typeFields rfl).bind fun r hr => ⟨hr, isSome_setDefault⟩
  | arrayTy b e => exact (hq.typeRef rfl).bind fun r hr => ⟨hr, isSome_setDefault⟩
  | _ => cases hk

theorem silent_accept (m : Tree) (n : Nat) : Silent (accept m n) := by
  induction n with
  | zero => exact fun _ _ _ _ => trivial
  | succ n ih => exact fun _ _ hj _ => ih.visit hj

/-- The `Named`s without a type are among those at the addresses. -/
def OpenIn (os : List Addr) (s : TypeChecker) : Prop :=
  ∀ b y, s.heap.nameds b = some (y, none) → b ∈ os

/-- A body that is no `NameTy` closes the `Named` of its `TypeDec`. -/
theorem Silent.typeBody (hq : Silent acc) (hna : NoAlias program) {x : Symbol} {ty : Ast Addr .ty}
    (hd : ⟨.typeDec, .typeDec a x ty⟩ ∈ program.subterms) (hs : Inv F program false L s) :
    Ends (Throws true) (fun s' => ∀ b y, s'.heap.nameds b = some (y, none) →
      b ≠ a ∧ s.heap.nameds b = some (y, none)) (s.typeBody n acc (.typeDec a x ty)) := by
  have hmem : ⟨.ty, ty⟩ ∈ program.subterms := Ast.subterms_subset hd (Ast.mem_first rfl)
  have htype : Ends (Throws true) (fun s' => s'.heap.nameds = s.heap.nameds ∧ Created s' ty)
      (s.type acc ty) := by
    unfold TypeChecker.type
    split
    · rename_i h
      refine ⟨rfl, ?_⟩
      cases ty with
      | ofNameTy e => trivial
      | recordTy b gs =>
        obtain ⟨u, hu⟩ := Option.isSome_iff_exists.mp h
        exact ((hs.recordTys b gs hmem).2 u hu).2
      | arrayTy b e => exact hs.arrayTys b e hmem h
    · exact hq rfl s
  refine htype.bind ?_
  rintro s₁ ⟨hn, hc⟩
  refine ends_soundLoop.bind fun c _ => ?_
  obtain ⟨u, hu⟩ : ∃ u, s₁.createdTy ty = some u := by
    cases ty with
    | ofNameTy e => exact absurd hd (hna a x e)
    | recordTy b gs | arrayTy b e =>
      obtain ⟨v, hv⟩ := Option.isSome_iff_exists.mp hc
      exact ⟨_, by rw [createdTy, hv]; rfl⟩
  have hset : ∀ b y, (s₁.namedTypeSet a (s₁.createdTy ty)).heap.nameds b = some (y, none) →
      b ≠ a ∧ s.heap.nameds b = some (y, none) := by
    intro b y hb
    simp only [namedTypeSet, hu] at hb
    split at hb
    · obtain ⟨_, -, hp⟩ := Option.map_eq_some_iff.mp hb
      cases hp
    · rename_i hba
      exact ⟨hba, hn ▸ hb⟩
  cases c <;> exact hset

/-! ## The methods -/

section Methods

variable (hp : F.About program) (hacc : Seen F program acc)

include hp hacc

theorem Seen.simpleVar {y : Symbol}
    (ht : ⟨.var, .simpleVar a y⟩ ∈ program.subterms) (hs : Inv F program w L s) :
    GoesOver F program n acc w L s (.simpleVar a y) := by
  simp only [GoesOver, visit]
  split
  · rename_i hnone
    exact ⟨hs, .leaf rfl (by simp [nexts, calls, hnone]) rfl (followed_of_derefs rfl trivial)⟩
  · rename_i d hd
    split
    · trivial
    · rename_i v hv
      have hv' := hacc ((hp.varDec d v).mp hv).1 rfl
      refine (hv'.type hs).bind ?_
      rintro s ⟨hs, hw⟩
      have hnode : Whole F (.simpleVar a y) :=
        .node rfl (by simpa [nexts, calls, hd, hv] using hw.acc rfl)
          (followed_of_derefs rfl trivial) fun c hc => .inl (by simpa [Ast.reached] using hc)
      exact hs.finish hp ht rfl (by decide) hnode
        (fun h => by cases hd.symm.trans h) (hv'.live hp hs (by decide))

theorem Seen.fieldVar {v : Ast Addr .var} {y : Symbol}
    (ht : ⟨.var, .fieldVar a v y⟩ ∈ program.subterms) (hs : Inv F program w L s) :
    GoesOver F program n acc w L s (.fieldVar a v y) := by
  have hv := hacc.part ht (e := v) (Ast.mem_first rfl) rfl
  refine (hv.type hs).bind ?_
  rintro s ⟨hs, hw⟩
  have hnode : Whole F (.fieldVar a v y) := hw.one rfl rfl rfl (followed_of_derefs rfl trivial)
  split
  · -- the type of a variable is no `Record`
    rename_i fields hf
    obtain ⟨r, hu, -⟩ := asRecord_eq hf
    exact (hv.live hp hs (by decide) _ hu).elim
  · exact ⟨hs.errorAndRecover hp ht rfl hnode id (by decide), hnode⟩

theorem Seen.subscriptVar {v : Ast Addr .var} {e : Ast Addr .exp}
    (ht : ⟨.var, .subscriptVar a v e⟩ ∈ program.subterms) (hs : Inv F program w L s) :
    GoesOver F program n acc w L s (.subscriptVar a v e) := by
  have hv := hacc.part ht (e := v) (Ast.mem_first rfl) rfl
  have he := hacc.part ht (e := e) (Ast.mem_second rfl) rfl
  refine (he.checkType hp (by decide) hs).bind ?_
  rintro s ⟨hs, hg⟩
  refine (hv.type hs).bind ?_
  rintro s ⟨hs, hw⟩
  have hnode : Whole F (.subscriptVar a v e) :=
    hw.two hg.toWhole rfl rfl rfl ⟨hg.typable, trivial⟩
  split
  · rename_i u hu
    obtain ⟨r, -, hr⟩ := asArray_eq hu
    refine hs.finish hp ht rfl (by decide) hnode (fun h => absurd h id) fun w hw => ?_
    cases hw
    exact hs.arrays r _ hr
  · exact ⟨hs.errorAndRecover hp ht rfl hnode id (by decide), hnode⟩

theorem Seen.callExp {y : Symbol} {args : Ast Addr (.list .exp)}
    (ht : ⟨.exp, .callExp a y args⟩ ∈ program.subterms) (hs : Inv F program w L s) :
    GoesOver F program n acc w L s (.callExp a y args) := by
  have hargs (e : Ast Addr .exp) (he : e ∈ args.toList) : Sees F program acc e :=
    hacc.part ht (.tail _ (Ast.mem_subterms_of_mem he)) rfl
  simp only [GoesOver, visit]
  split
  · rename_i formals result hfun
    obtain ⟨d, hd, hf⟩ := Option.bind_eq_some_iff.mp hfun
    obtain ⟨hlen, -, hres⟩ := hs.functions d formals result hf
    have hcount : F.counted a args.toList.length = true ↔
        args.toList.length = formals.length := by
      simp [Facts.counted, hd, hlen, eq_comm]
    refine (Sees.checkCall hp hargs (hs.cons hres)).bind ?_
    rintro s ⟨hs, hg⟩
    have hnode : Whole F (.callExp a y args) := by
      have hdecl : Declared F.tree ⟨_, .callExp a y args⟩ := fun h => by cases hd.symm.trans h
      by_cases hc : F.counted a args.toList.length = true
      · have hgood := Usable.list args (hg (hcount.mp hc))
        refine .node rfl (by simpa [nexts, hc] using hgood.grounded)
          ⟨by simpa [derefs, hc] using hgood.typable, hdecl⟩ fun c hcr => ?_
        simp only [Ast.reached, hc, if_true, List.mem_cons] at hcr
        exact hcr.imp_right (hgood.followed c)
      · exact .node rfl (by simp [nexts, hc]) ⟨by simp [derefs, hc], hdecl⟩
          fun c hcr => .inl (by simpa [Ast.reached, hc] using hcr)
    refine hs.tail.finish hp ht rfl (by decide) hnode (fun h => absurd h id) fun u hu => ?_
    cases hu
    exact hs.live _ (.head _)
  · trivial

theorem Seen.opExp {l r : Ast Addr .exp} {op : Oper}
    (ht : ⟨.exp, .opExp a l op r⟩ ∈ program.subterms) (hs : Inv F program w L s) :
    GoesOver F program n acc w L s (.opExp a l op r) := by
  have hl := hacc.part ht (e := l) (Ast.mem_first rfl) rfl
  have hr := hacc.part ht (e := r) (Ast.mem_second rfl) rfl
  refine (Sees.checkOperands hp ht hl hr hs).bind ?_
  rintro s ⟨hs, hgl, hgr⟩
  exact hs.finish hp ht rfl (by decide) (hgl.two hgr rfl rfl rfl rfl trivial)
    (fun h => absurd h id) fun u => live_some (by simp)

theorem Seen.recordExp {ty : Ast Addr .nameTy} {fs : Ast Addr (.list .fieldInit)}
    (ht : ⟨.exp, .recordExp a ty fs⟩ ∈ program.subterms) (hs : Inv F program w L s) :
    GoesOver F program n acc w L s (.recordExp a ty fs) := by
  have hn := hacc.part ht (e := ty) (Ast.mem_first rfl) rfl
  have hinit (b x e) (he : Ast.fieldInit b x e ∈ fs.toList) : Sees F program acc e := by
    refine hacc.part ht ?_ rfl
    exact Ast.subterms_subset (Ast.mem_second rfl)
      (Ast.subterms_subset (Ast.mem_subterms_of_mem he) (Ast.mem_first rfl))
  refine ends_bind_of_eq ends_typeOfBody fun u hu => ?_
  refine (Sees.checkRecord hp hinit hs).bind ?_
  rintro s₁ ⟨hs₁, hg, hlen⟩
  have hdecl : Declared F.tree ⟨_, .recordExp a ty fs⟩ := by
    unfold typeOfBody at hu
    split at hu
    · rename_i b y ty' hd
      obtain ⟨d, -, hd'⟩ := Option.bind_eq_some_iff.mp hd
      cases hu
      cases hf : s.asRecord (s.typeGet ty') with
      | none =>
        rw [hf] at hlen
        have hzero : fs.toList.length = 0 := Nat.le_zero.mp hlen
        cases ty' <;> exact ⟨_, by rw [fieldCount, hd], hzero ▸ Nat.zero_le _⟩
      | some fields =>
        obtain ⟨c, gs, rfl, hgs⟩ := hs.record_of_body hp ((hp.typeDec d _).mp hd').1 hf
        rw [hf] at hlen
        exact ⟨_, by rw [fieldCount, hd], hgs ▸ hlen⟩
    · cases hu
  have hfs : Usable F fs := .list fs fun e he => by
    cases e with
    | fieldInit b x e =>
      have hge := hg b x e he
      exact ⟨hge.part rfl rfl (followed_of_derefs rfl trivial), hge.typable⟩
  refine (hn.type hs₁).bind ?_
  rintro s ⟨hs, hw⟩
  exact hs.finish hp ht rfl (by decide)
    (hw.two hfs.toWhole rfl rfl rfl ⟨hfs.typable, hdecl⟩) (fun h => absurd h id)
    (hn.live hp hs (by decide))

theorem Seen.seqExp {es : Ast Addr (.list .exp)}
    (ht : ⟨.exp, .seqExp a es⟩ ∈ program.subterms) (hs : Inv F program w L s) :
    GoesOver F program n acc w L s (.seqExp a es) := by
  have hes (e : Ast Addr .exp) (he : e ∈ es.toList) : Sees F program acc e :=
    hacc.part ht (.tail _ (Ast.mem_subterms_of_mem he)) rfl
  refine (Sees.typeSeq hp es hes hs fun u => live_some (by simp)).bind ?_
  rintro r ⟨hs, hw, hu, hl⟩
  exact hs.finish hp ht rfl (by decide) (hw.one rfl rfl rfl (followed_of_derefs rfl trivial)) hu hl

theorem Seen.assignExp {v : Ast Addr .var} {e : Ast Addr .exp}
    (ht : ⟨.exp, .assignExp a v e⟩ ∈ program.subterms) (hs : Inv F program w L s) :
    GoesOver F program n acc w L s (.assignExp a v e) := by
  have hv := hacc.part ht (e := v) (Ast.mem_first rfl) rfl
  have he := hacc.part ht (e := e) (Ast.mem_second rfl) rfl
  refine (hv.checkTypesOf hp he (by decide) (by decide) hs.checkReadOnly).bind ?_
  rintro s ⟨hs, hgv, hge⟩
  exact hs.finish hp ht rfl (by decide) (hgv.two hge rfl rfl rfl rfl trivial)
    (fun h => absurd h id) fun u => live_some (by simp)

theorem Seen.ifExp {c th el : Ast Addr .exp}
    (ht : ⟨.exp, .ifExp a c th el⟩ ∈ program.subterms) (hs : Inv F program w L s) :
    GoesOver F program n acc w L s (.ifExp a c th el) := by
  have hc := hacc.part ht (e := c) (Ast.mem_first rfl) rfl
  have hth := hacc.part ht (e := th) (Ast.mem_second rfl) rfl
  have hel := hacc.part ht (e := el) (Ast.mem_third rfl) rfl
  refine (hc.checkType hp (by decide) hs).bind ?_
  rintro s ⟨hs, hgc⟩
  refine (hth.checkTypesOf hp hel (by decide) (by decide) hs).bind ?_
  rintro s ⟨hs, hgt, hge⟩
  exact hs.finish hp ht rfl (by decide) (hgc.three hgt hge rfl rfl rfl rfl trivial)
    (fun h => absurd h id) (hth.live hp hs (by decide))

theorem Seen.whileExp {c body : Ast Addr .exp}
    (ht : ⟨.exp, .whileExp a c body⟩ ∈ program.subterms) (hs : Inv F program w L s) :
    GoesOver F program n acc w L s (.whileExp a c body) := by
  have hc := hacc.part ht (e := c) (Ast.mem_first rfl) rfl
  have hb := hacc.part ht (e := body) (Ast.mem_second rfl) rfl
  refine (hc.checkType hp (by decide) hs).bind ?_
  rintro s ⟨hs, hgc⟩
  refine (hb.checkType hp (by decide) hs).bind ?_
  rintro s ⟨hs, hgb⟩
  exact hs.finish hp ht rfl (by decide) (hgc.two hgb rfl rfl rfl rfl trivial)
    (fun h => absurd h id) fun u => live_some (by simp)

theorem Seen.forExp {v : Ast Addr .varDec} {hi body : Ast Addr .exp}
    (ht : ⟨.exp, .forExp a v hi body⟩ ∈ program.subterms) (hs : Inv F program w L s) :
    GoesOver F program n acc w L s (.forExp a v hi body) := by
  have hv := hacc.part ht (e := v) (Ast.mem_first rfl) rfl
  have hhi := hacc.part ht (e := hi) (Ast.mem_second rfl) rfl
  have hb := hacc.part ht (e := body) (Ast.mem_third rfl) rfl
  refine (hv.checkType hp (by decide) hs).bind ?_
  rintro s ⟨hs, hgv⟩
  refine (hhi.checkType hp (by decide) hs).bind ?_
  rintro s ⟨hs, hgh⟩
  refine (hb.checkType hp (by decide) (hs.readOnly _)).bind ?_
  rintro s ⟨hs, hgb⟩
  exact hs.finish hp ht rfl (by decide) (hgv.three hgh hgb rfl rfl rfl rfl trivial)
    (fun h => absurd h id) fun u => live_some (by simp)

theorem Seen.letExp {cs : Ast Addr .chunkList} {body : Ast Addr .exp}
    (ht : ⟨.exp, .letExp a cs body⟩ ∈ program.subterms) (hs : Inv F program w L s) :
    GoesOver F program n acc w L s (.letExp a cs body) := by
  have hcs := hacc.part ht (e := cs) (Ast.mem_first rfl) rfl
  have hb := hacc.part ht (e := body) (Ast.mem_second rfl) rfl
  refine (hcs.2.2 w L s hs).bind ?_
  rintro s ⟨hs, hwc⟩
  refine (hb.type hs).bind ?_
  rintro s ⟨hs, hwb⟩
  exact hs.finish hp ht rfl (by decide)
    (hwc.two hwb rfl rfl rfl (followed_of_derefs rfl trivial))
    (fun hu => hs.typeGet_eq_none hb.1 rfl hu) (hb.live hp hs (by decide))

theorem Seen.arrayExp {ty : Ast Addr .nameTy} {size e : Ast Addr .exp}
    (ht : ⟨.exp, .arrayExp a ty size e⟩ ∈ program.subterms) (hs : Inv F program w L s) :
    GoesOver F program n acc w L s (.arrayExp a ty size e) := by
  have hn := hacc.part ht (e := ty) (Ast.mem_first rfl) rfl
  have hsize := hacc.part ht (e := size) (Ast.mem_second rfl) rfl
  have he := hacc.part ht (e := e) (Ast.mem_third rfl) rfl
  refine (hsize.typeRef hp (by decide) hs).bind ?_
  rintro r ⟨hs, hgs⟩
  refine hs.checkTypes.bind ?_
  intro s hs
  refine (hn.checkTypesOf hp he (by decide) (by decide) hs.tail).bind ?_
  rintro s ⟨hs, hgn, hge⟩
  exact hs.finish hp ht rfl (by decide) (hgn.three hgs hge rfl rfl rfl rfl trivial)
    (fun h => absurd h id) (hn.live hp hs (by decide))

omit hacc in
theorem goesOver_nameTy {y : Symbol}
    (ht : ⟨.nameTy, .nameTy a y⟩ ∈ program.subterms) (hs : Inv F program w L s) :
    GoesOver F program n acc w L s (.nameTy a y) := by
  have hleaf : Whole F (.nameTy a y) := .leaf rfl rfl rfl (followed_of_derefs rfl trivial)
  simp only [GoesOver, visit]
  split
  · rename_i hx
    exact hs.finish hp ht rfl (by decide) hleaf
      (fun h => by simp [hx, Untypable, Symbol.isBuiltin] at h) fun u => live_some (by simp)
  · split
    · rename_i hx
      exact hs.finish hp ht rfl (by decide) hleaf
        (fun h => by simp [hx, Untypable, Symbol.isBuiltin] at h) fun u => live_some (by simp)
    · split
      · rename_i d hd
        refine hs.finish hp ht rfl (by decide) hleaf (fun h => by cases hd.symm.trans h.2) ?_
        intro u hu
        obtain ⟨p, hp', rfl⟩ := Option.map_eq_some_iff.mp hu
        exact Option.isSome_of_eq_some hp'
      · exact ⟨hs, hleaf⟩

theorem Seen.recordTy {gs : Ast Addr (.list .field)}
    (ht : ⟨.ty, .recordTy a gs⟩ ∈ program.subterms) (hs : Inv F program w L s) :
    GoesOver F program n acc w L s (.recordTy a gs) := by
  have hnames : ∀ p ∈ fieldsOf gs.toList, Sees F program acc p.2 := by
    intro p hp'
    obtain ⟨f, hf, rfl⟩ := List.mem_map.mp hp'
    refine hacc.part ht (.tail _ (Ast.subterms_subset (Ast.mem_subterms_of_mem hf) ?_)) rfl
    cases f
    exact Ast.mem_first rfl
  refine (Sees.typeFields hp (by decide) hnames hs).bind ?_
  rintro r ⟨hs, hl, hlen, hg⟩
  have hgood : Usable F gs := .list gs fun f hf => by
    cases f with
    | field b x e =>
      have hge := hg (x, e) (List.mem_map.mpr ⟨_, hf, rfl⟩)
      exact ⟨hge.part rfl rfl (followed_of_derefs rfl trivial), hge.typable⟩
  have hnode : Whole F (.recordTy a gs) := hgood.one rfl rfl rfl ⟨hgood.typable, trivial⟩
  exact ⟨hs.createRecord hp ht hnode (by rw [hlen, fieldsOf, List.length_map]) hl, hnode⟩

theorem Seen.arrayTy {e : Ast Addr .nameTy}
    (ht : ⟨.ty, .arrayTy a e⟩ ∈ program.subterms) (hs : Inv F program w L s) :
    GoesOver F program n acc w L s (.arrayTy a e) := by
  have he := hacc.part ht (e := e) (Ast.mem_first rfl) rfl
  refine (he.typeRef hp (by decide) hs).bind ?_
  rintro r ⟨hs, hg⟩
  have hnode : Whole F (.arrayTy a e) := hg.one rfl rfl rfl ⟨hg.typable, trivial⟩
  exact ⟨hs.tail.createArray hp ht hnode (hs.live _ (.head _)), hnode⟩

theorem Seen.functionChunk {ds : Ast Addr (.list .functionDec)}
    (ht : ⟨.chunk, .functionChunk a ds⟩ ∈ program.subterms) (hs : Inv F program w L s) :
    GoesOver F program n acc w L s (.functionChunk a ds) := by
  have hheaders := Sees.visitAll (Q := Headed F) hs fun d hd s hs =>
    Sees.functionHeader hp (mem_of_chunk ht rfl hd) (hacc.entries ht rfl hd) hs
  refine hheaders.bind ?_
  rintro s ⟨hs, hh⟩
  have hbodies := Sees.visitAll (Q := Bodied F) hs fun d hd s hs =>
    Sees.functionBody (n := n) hp (hacc.entries ht rfl hd) hs
  refine hbodies.imp ?_
  rintro s ⟨hs, hb⟩
  exact ⟨hs, (Whole.list ds fun d hd => .functionDec (hh d hd) (hb d hd)).one rfl rfl rfl
    (followed_of_derefs rfl trivial)⟩

theorem Seen.openChunk {ds : Ast Addr (.list .typeDec)}
    (ht : ⟨.chunk, .typeChunk a ds⟩ ∈ program.subterms) (hs : Inv F program false L s) :
    GoesOver F program n acc false L s (.typeChunk a ds) := by
  refine (Sees.visitAll (Q := fun _ => True) hs fun d hd s hs => ?_).bind ?_
  · cases d
    exact ⟨hs.createNamed hp (mem_of_chunk ht rfl hd), trivial⟩
  rintro s ⟨hs, -⟩
  have hbodies := Sees.visitAll (Q := Whole F) hs fun d hd s hs =>
    Sees.typeBody (n := n) hp (mem_of_chunk ht rfl hd) (hacc.entries ht rfl hd) hs
  refine hbodies.imp ?_
  rintro s ⟨hs, hw⟩
  exact ⟨hs, (Whole.list ds hw).one rfl rfl rfl (followed_of_derefs rfl trivial)⟩

omit hacc in
/-- The headers of a chunk of types throw nothing, and leave only its own `Named`s open. -/
theorem ends_typeHeaders {ds : List (Ast Addr .typeDec)} {os : List Addr}
    (hds : ∀ d ∈ ds, ⟨.typeDec, d⟩ ∈ program.subterms) (hos : ∀ d ∈ ds, d.typeAddr ∈ os)
    (hs : Inv F program false L s) (ho : OpenIn os s) :
    Ends (Throws true) (fun s' => Inv F program false L s' ∧ OpenIn os s')
      (s.visitAll (fun s d => s.typeHeader d) ds) := by
  induction ds generalizing s with
  | nil => exact ⟨hs, ho⟩
  | cons d ds ih =>
    obtain ⟨hd, hrest⟩ := List.forall_mem_cons.mp hds
    obtain ⟨hod, hos'⟩ := List.forall_mem_cons.mp hos
    cases d with
    | typeDec b x ty =>
      refine ih hrest hos' (hs.createNamed hp hd) fun c y hc => ?_
      rcases eq_or_of_setDefault hc with hc | ⟨rfl, -⟩
      · exact ho c y hc
      · exact hod

/-- The bodies close them. -/
theorem Seen.closes (hq : Silent acc) (hna : NoAlias program) {ds : List (Ast Addr .typeDec)}
    (hds : ∀ d ∈ ds, ⟨.typeDec, d⟩ ∈ program.subterms) (hs : Inv F program false L s)
    (ho : OpenIn (ds.map Ast.typeAddr) s) :
    Ends (Throws true) Closed (s.visitAll (fun s d => s.typeBody n acc d) ds) := by
  induction ds generalizing s with
  | nil => exact fun b y hb => absurd (ho b y hb) List.not_mem_nil
  | cons d ds ih =>
    obtain ⟨hd, hrest⟩ := List.forall_mem_cons.mp hds
    cases d with
    | typeDec b x ty =>
      have hsees := Sees.typeBody hp hd (fun c hc =>
        have hc := mem_of_mem_entries _ hc
        hacc.part hd hc.1 hc.2) hs (n := n)
      refine (ends_and hsees (hq.typeBody hna hd hs)).bind ?_
      rintro s₁ ⟨⟨hs₁, _⟩, ho₁⟩
      refine ih hrest hs₁ fun c y hc => ?_
      obtain ⟨hcb, hc⟩ := ho₁ c y hc
      exact (List.mem_cons.mp (ho c y hc)).resolve_left hcb

theorem Seen.typeChunk (hq : Silent acc) {ds : Ast Addr (.list .typeDec)}
    (ht : ⟨.chunk, .typeChunk a ds⟩ ∈ program.subterms) (hs : Inv F program w L s) :
    GoesOver F program n acc w L s (.typeChunk a ds) := by
  cases w with
  | false => exact hacc.openChunk hp ht hs
  | true =>
    obtain ⟨hna, hclosed⟩ := hs.closed rfl
    have hds : ∀ d ∈ ds.toList, ⟨.typeDec, d⟩ ∈ program.subterms := fun d => mem_of_chunk ht rfl
    have hcloses : Ends (Throws true) Closed (s.visit F.tree n acc (.typeChunk a ds)) := by
      refine (ends_typeHeaders hp hds (fun d hd => List.mem_map_of_mem hd) hs.opened
        fun b y hb => absurd hb (hclosed b y)).bind ?_
      rintro s₁ ⟨hs₁, ho⟩
      exact hacc.closes hp hq hna hds hs₁ ho
    refine (ends_and (hacc.openChunk hp ht hs.opened) hcloses).imp ?_
    rintro s₁ ⟨⟨hs₁, hw⟩, hc⟩
    exact ⟨{ hs₁ with closed := fun _ => ⟨hna, hc⟩ }, hw⟩

/-- **A method that ends has gone over its node.** -/
theorem Seen.visit (hq : Silent acc) (ht : ⟨k, t⟩ ∈ program.subterms) (hk : HasMethod k = true)
    (hs : Inv F program w L s) : GoesOver F program n acc w L s t := by
  cases t with
  | nil | cons | none | some | field | fieldInit | functionDec | typeDec => cases hk
  | castExp a e ty => exact absurd ht (hp.noCast a e ty)
  | ofVar e | ofNameTy e | ofVarChunk e =>
    refine ((hacc.part ht (e := e) (Ast.mem_first rfl) rfl).2.2 w L s hs).imp ?_
    rintro s ⟨hs, hw⟩
    exact ⟨hs, hw.one rfl rfl rfl (followed_of_derefs rfl trivial)⟩
  | nilExp | intExp | stringExp | breakExp =>
    exact hs.finish hp ht rfl (by decide) (.leaf rfl rfl rfl (followed_of_derefs rfl trivial))
      (fun h => absurd h id) fun u => live_some (by simp)
  | varDec a x n o => exact hacc.visitVarDec hp ht hs
  | varChunk a ds | chunkList a ds =>
    refine (Sees.visitAll (Q := Whole F) hs fun d hd s hs => ?_).imp ?_
    · exact (hacc.part ht (.tail _ (Ast.mem_subterms_of_mem hd)) rfl).2.2 w L s hs
    rintro s ⟨hs, hw⟩
    exact ⟨hs, (Whole.list ds hw).one rfl rfl rfl (followed_of_derefs rfl trivial)⟩
  | simpleVar a y => exact hacc.simpleVar hp ht hs
  | fieldVar a v y => exact hacc.fieldVar hp ht hs
  | subscriptVar a v e => exact hacc.subscriptVar hp ht hs
  | callExp a y args => exact hacc.callExp hp ht hs
  | opExp a l op r => exact hacc.opExp hp ht hs
  | recordExp a ty fs => exact hacc.recordExp hp ht hs
  | seqExp a es => exact hacc.seqExp hp ht hs
  | assignExp a v e => exact hacc.assignExp hp ht hs
  | ifExp a c th el => exact hacc.ifExp hp ht hs
  | whileExp a c body => exact hacc.whileExp hp ht hs
  | forExp a v hi body => exact hacc.forExp hp ht hs
  | letExp a cs body => exact hacc.letExp hp ht hs
  | arrayExp a ty size e => exact hacc.arrayExp hp ht hs
  | nameTy a y => exact goesOver_nameTy hp ht hs
  | recordTy a gs => exact hacc.recordTy hp ht hs
  | arrayTy a e => exact hacc.arrayTy hp ht hs
  | functionChunk a ds => exact hacc.functionChunk hp ht hs
  | typeChunk a ds => exact hacc.typeChunk hp hq ht hs

end Methods

/-- **A run that ends has gone over its node.** -/
theorem seen_accept (hp : F.About program) (n : Nat) : Seen F program (accept F.tree n) := by
  induction n with
  | zero => exact fun j e he hj => ⟨he, hj, fun _ _ _ _ => trivial⟩
  | succ n ih =>
    exact fun j e he hj => ⟨he, hj, fun _ _ _ hs => ih.visit hp (silent_accept _ n) he hj hs⟩

end Sees

theorem inv_start (hna : w = true → NoAlias program) : Inv F program w [] {} where
  shallow := by rintro _ _ _ ⟨⟩
  live := List.forall_mem_nil _
  types := by rintro _ _ ⟨⟩
  functions := by rintro _ _ _ ⟨⟩
  records := by rintro _ _ ⟨⟩
  arrays := by rintro _ _ ⟨⟩
  recordTys _ _ _ := ⟨by rintro _ ⟨⟩, by rintro _ ⟨⟩⟩
  untypable _ _ _ _ _ := rfl
  arrayTys := by rintro _ _ _ ⟨⟩
  whole := by rintro _ _ _ _ ⟨⟩
  closed h := ⟨hna h, by rintro _ _ ⟨⟩⟩

end TypeChecker

open TypeChecker

section Program

variable {f : Addr → Option Addr} {program : Ast Addr .chunkList} {n : Nat}

/-- **A program whose check runs to its end is one it can run on.** -/
theorem runnable_of_typesCheck {s : TypeChecker} (hn : program.nodes.Nodup) (hc : NoCast program)
    (h : typesCheck ⟨f, program.varDecs, program.typeDecs⟩ n program = .ok s) :
    Runnable (factsOf f program) program := by
  have hp := factsOf_about (f := f) hn hc
  have hstart : Inv (factsOf f program) program false [] {} := inv_start (by rintro ⟨⟩)
  have hends := (seen_accept hp n (Ast.mem_subterms_self program) rfl).2.2 false [] {} hstart
  rw [typesCheck] at h
  rw [show (factsOf f program).tree = ⟨f, program.varDecs, program.typeDecs⟩ from rfl, h] at hends
  exact ⟨hends.2.noSelfUse hp (Ast.mem_subterms_self program) rfl, hends.2.followed⟩

/-- **The check of a program in which no type has two names throws nothing.** -/
theorem typesCheck_throws (hn : program.nodes.Nodup) (hc : NoCast program)
    (hna : NoAlias program) :
    Ends (Throws true) (fun _ => True)
      (typesCheck ⟨f, program.varDecs, program.typeDecs⟩ n program) := by
  have hp := factsOf_about (f := f) hn hc
  have hends := (seen_accept hp n (Ast.mem_subterms_self program) rfl).2.2 true [] {}
    (inv_start fun _ => hna)
  exact hends.imp fun _ _ => trivial

end Program

end TigerCompiler
