import TigerCompiler.Type.Typed
import Mathlib.Logic.Relation

/-!
# Chunks of types

A `TypeChunk` is visited in two loops: the first makes a `Named` for each `TypeDec`, the second
gives to each the type its body has created.  A body that is a `NameTy` creates none, so that the
`Named` of an alias stays without a type; what the two loops leave is stated here for every chunk
(`visit_typeChunk`) and compared with the end of the chains of aliases.
-/

namespace TigerCompiler

open TypeChecker TypeHeap

/-! ## Chains of aliases -/

/-- The type at the end of the chain of aliases that starts with a `Ty`. -/
inductive EndsIn (m : Tree) : Ast Addr .ty → TypePtr → Prop
  | record {a : Addr} {fs : Ast Addr (.list .field)} : EndsIn m (.recordTy a fs) (.record a)
  | array {a : Addr} {t : Ast Addr .nameTy} : EndsIn m (.arrayTy a t) (.array a)
  | int {a : Addr} (ha : m.defs a = none) : EndsIn m (.ofNameTy (.nameTy a "int".toList)) .int
  | string {a : Addr} (ha : m.defs a = none) :
      EndsIn m (.ofNameTy (.nameTy a "string".toList)) .string
  | alias {a d d' : Addr} {x y : Symbol} {ty : Ast Addr .ty} {t : TypePtr}
      (ha : m.defs a = some d) (hd : m.typeDec d = some (.typeDec d' y ty))
      (ht : EndsIn m ty t) : EndsIn m (.ofNameTy (.nameTy a x)) t

/-- The `TypeDec` at `d` is an alias of the one at `d'`. -/
def AliasOf (m : Tree) (d d' : Addr) : Prop :=
  ∃ b x a y, m.typeDec d = some (.typeDec b x (.ofNameTy (.nameTy a y))) ∧ m.defs a = some d'

/-- The aliases of a chunk form a cycle. -/
def Cyclic (m : Tree) (ds : List (Ast Addr .typeDec)) : Prop :=
  ∃ d ∈ ds, Relation.TransGen (AliasOf m) d.typeAddr d.typeAddr

/-- Whether the body of a type declaration is the name of another type. -/
def IsAlias : Ast Addr .typeDec → Prop
  | .typeDec _ _ (.ofNameTy _) => True
  | _ => False

/-- The type a `Ty` creates when it is visited. -/
def creates : Ast Addr .ty → Option TypePtr
  | .ofNameTy _ => none
  | .recordTy a _ => some (.record a)
  | .arrayTy a _ => some (.array a)

/-! ## What a chunk is visited from -/

/-- A `NameTy` is bound: to nothing for a builtin type, to a `TypeDec` of `made` for another. -/
def NameBound (m : Tree) (made : Addr → Prop) : {k : Kind} → Ast Addr k → Prop
  | _, .nameTy a x => (m.defs a = none ∧ x.isBuiltin = true) ∨ ∃ d, m.defs a = some d ∧ made d
  | _, _ => True

/-- A chunk whose names are bound to types of its own or to types that exist, and which the
checker has not visited yet. -/
structure BoundChunk (m : Tree) (s : TypeChecker) (ds : Ast Addr (.list .typeDec)) : Prop where
  nodup : ds.nodes.Nodup
  untyped : ∀ a ∈ ds.nodes, s.types a = none
  found : ∀ d ∈ ds.toList, m.typeDec d.typeAddr = some d
  bound : ∀ c ∈ ds.subterms,
    NameBound m (fun d => d ∈ ds.toList.map Ast.typeAddr ∨ (s.heap.nameds d).isSome = true) c.2

/-! ## The visit of a body -/

variable {k : Kind} {m : Tree} {n : Nat} {N M : List Addr} {s s₁ s₂ s' : TypeChecker}

/-- A step that reports nothing, keeps the `Named`s as they are and gives types to `N` only. -/
structure Quiet (N : List Addr) (s s' : TypeChecker) : Prop where
  errors : s'.errors = s.errors
  nameds : s'.heap.nameds = s.heap.nameds
  types : ∀ a, a ∉ N → s'.types a = s.types a

theorem Quiet.trans (h : Quiet N s s₁) (h' : Quiet M s₁ s₂) : Quiet (N ++ M) s s₂ where
  errors := h'.errors.trans h.errors
  nameds := h'.nameds.trans h.nameds
  types a ha := by
    rw [List.mem_append, not_or] at ha
    rw [h'.types a ha.2, h.types a ha.1]

theorem Quiet.mono (h : Quiet N s s') (hs : N ⊆ M) : Quiet M s s' :=
  ⟨h.errors, h.nameds, fun a ha => h.types a fun hn => ha (hs hn)⟩

theorem Quiet.typeSet (s : TypeChecker) (a : Addr) (t : Option TypePtr) :
    Quiet [a] s (s.typeSet a t) :=
  ⟨rfl, rfl, fun _ hb => Function.update_of_ne (by simpa using hb) ..⟩

/-- The names a visit from `s` meets are bound. -/
def NamesBound (m : Tree) (s : TypeChecker) (t : Ast Addr k) : Prop :=
  ∀ c ∈ t.subterms, NameBound m (fun d => (s.heap.nameds d).isSome = true) c.2

theorem NamesBound.part {j : Kind} {t : Ast Addr k} {u : Ast Addr j} (h : NamesBound m s t)
    (hu : ⟨j, u⟩ ∈ t.subterms) : NamesBound m s u :=
  fun c hc => h c (Ast.subterms_subset hu hc)

theorem NameBound.mono {P Q : Addr → Prop} {e : Ast Addr k} (h : NameBound m P e)
    (hPQ : ∀ d, P d → Q d) : NameBound m Q e := by
  cases e with
  | nameTy a x =>
    rcases h with h | ⟨d, hd, hp⟩
    · exact .inl h
    · exact .inr ⟨d, hd, hPQ d hp⟩
  | _ => trivial

theorem NamesBound.mono {t : Ast Addr k} (h : NamesBound m s t)
    (hs : ∀ d, (s.heap.nameds d).isSome = true → (s'.heap.nameds d).isSome = true) :
    NamesBound m s' t := fun c hc => (h c hc).mono hs

theorem NamesBound.quiet {t : Ast Addr k} (h : NamesBound m s t) (hq : Quiet N s s') :
    NamesBound m s' t := h.mono fun d hd => by rwa [hq.nameds]

/-- A name that is bound has a type. -/
theorem accept_nameTy {e : Ast Addr .nameTy} (h : NamesBound m s e) (n : Nat) :
    ∃ t, accept m (n + 1) e s = .ok (s.typeSet e.addr (some t)) := by
  obtain ⟨a, x⟩ := e
  have hb := h _ (Ast.mem_subterms_self _)
  simp only [accept, visit, Ast.addr, Ast.nodes, List.headD_cons]
  split
  · exact ⟨_, rfl⟩
  split
  · exact ⟨_, rfl⟩
  rename_i hint hstring
  rcases hb with ⟨-, hx⟩ | ⟨d, hd, hmade⟩
  · simp only [Symbol.isBuiltin, Bool.or_eq_true, decide_eq_true_eq] at hx
    exact (hx.elim hint hstring).elim
  · obtain ⟨u, hu⟩ := Option.isSome_iff_exists.mp hmade
    exact ⟨.named d, by rw [hd]; simp [createdTypeDec, hu]⟩

theorem typeRef_nameTy {e : Ast Addr .nameTy} (h : NamesBound m s e)
    (hu : s.typeGet e = none) (n : Nat) :
    ∃ s' t, s.typeRef (accept m (n + 1)) e = .ok (s', t) ∧ Quiet e.nodes s s' := by
  obtain ⟨t, ht⟩ := accept_nameTy h n
  refine ⟨s.typeSet e.addr (some t), t, ?_, ?_⟩
  · rw [typeRef, TypeChecker.type, hu, if_neg (by simp), ht]
    simp [typeGet, TypeChecker.typeSet, pure, Except.pure]
  · obtain ⟨a, x⟩ := e
    exact Quiet.typeSet ..

/-- The fields of a record type. -/
theorem typeFields_quiet : (fs : Ast Addr (.list .field)) → ∀ {s : TypeChecker},
    NamesBound m s fs → fs.nodes.Nodup → (∀ a ∈ fs.nodes, s.types a = none) →
    ∃ r, s.typeFields (accept m (n + 1)) (fieldsOf fs.toList) = .ok r ∧ Quiet fs.nodes s r.1
  | .nil, s, _, _, _ => ⟨_, rfl, rfl, rfl, fun _ _ => rfl⟩
  | .cons (.field a x t) fs, s, h, hn, hu => by
    have hnode : (Ast.cons (.field a x t) fs).nodes = a :: (t.nodes ++ fs.nodes) := rfl
    rw [hnode, List.nodup_cons, List.nodup_append] at hn
    have ht : s.typeGet t = none := hu _ (by
      rw [hnode]
      exact .tail _ (List.mem_append_left _ (addr_mem_nodes rfl)))
    obtain ⟨s₁, u, h₁, hq₁⟩ := typeRef_nameTy (h.part (by simp [Ast.subterms])) ht n
    have hfs : NamesBound m s₁ fs := (h.part (Ast.mem_second rfl)).quiet hq₁
    obtain ⟨r, hr, hq⟩ := typeFields_quiet fs hfs hn.2.2.1 fun b hb => by
      rw [hq₁.types b fun hbt => hn.2.2.2 b hbt b hb rfl]
      exact hu b (by rw [hnode]; exact .tail _ (List.mem_append_right _ hb))
    refine ⟨(r.1, (x, u) :: r.2), ?_, (hq₁.trans hq).mono (by rw [hnode]; simp)⟩
    rw [Ast.toList_cons, fieldsOf, List.map_cons, TypeChecker.typeFields, h₁, ok_bind]
    show (s₁.typeFields _ (fieldsOf fs.toList) >>= _) = _
    rw [hr]
    rfl

theorem Quiet.createRecord (s : TypeChecker) (a : Addr) (fs : List (Symbol × TypePtr)) :
    Quiet [a] s (s.createRecord a fs) :=
  ⟨rfl, rfl, fun _ hb => setDefault_of_ne (by simpa using hb)⟩

theorem Quiet.createArray (s : TypeChecker) (a : Addr) (t : TypePtr) :
    Quiet [a] s (s.createArray a t) :=
  ⟨rfl, rfl, fun _ hb => setDefault_of_ne (by simpa using hb)⟩

/-- The body of a type declaration. -/
theorem type_ty {ty : Ast Addr .ty} (h : NamesBound m s ty) (hn : ty.nodes.Nodup)
    (hu : ∀ a ∈ ty.nodes, s.types a = none) (n : Nat) :
    ∃ s', s.type (accept m (n + 2)) ty = .ok s' ∧ Quiet ty.nodes s s' ∧
      s'.createdTy ty = creates ty := by
  have hget : s.typeGet ty = none := hu _ (addr_mem_nodes rfl)
  rw [TypeChecker.type, hget]
  cases ty with
  | ofNameTy e =>
    obtain ⟨t, ht⟩ := accept_nameTy (h.part (u := e) (Ast.mem_first rfl)) n
    refine ⟨_, ht, ?_, rfl⟩
    obtain ⟨a, x⟩ := e
    exact Quiet.typeSet ..
  | recordTy a fs =>
    have hn := List.nodup_cons.mp hn
    obtain ⟨r, hr, hq⟩ := typeFields_quiet (n := n) fs (h.part (Ast.mem_first rfl)) hn.2
      fun b hb => hu b (.tail _ hb)
    refine ⟨r.1.createRecord a r.2, ?_, ?_, ?_⟩
    · show (s.typeFields _ _ >>= _) = _
      rw [hr]
      rfl
    · exact (hq.trans (.createRecord ..)).mono (M := a :: fs.nodes) (by simp)
    · have hs := isSome_setDefault (f := r.1.heap.records) (a := a) (v := r.2)
      obtain ⟨v, hv⟩ := Option.isSome_iff_exists.mp hs
      simp [createdTy, createRecord, TypeChecker.typeDefault, hv, creates]
  | arrayTy a e =>
    have hn := List.nodup_cons.mp hn
    have he : s.typeGet e = none := hu _ (.tail _ (addr_mem_nodes rfl))
    obtain ⟨s₁, u, h₁, hq⟩ := typeRef_nameTy (h.part (Ast.mem_first rfl)) he n
    refine ⟨s₁.createArray a u, ?_, ?_, ?_⟩
    · show (s.typeRef _ _ >>= _) = _
      rw [h₁]
      rfl
    · exact (hq.trans (.createArray ..)).mono (M := a :: e.nodes) (by simp)
    · have hs := isSome_setDefault (f := s₁.heap.arrays) (a := a) (v := u)
      obtain ⟨v, hv⟩ := Option.isSome_iff_exists.mp hs
      simp [createdTy, createArray, TypeChecker.typeDefault, hv, creates]

/-! ## The visit of a chunk -/

/-- The second visit of a declaration: its `Named` gets the type its body creates, nothing is
reported. -/
theorem typeBody_spec {d : Ast Addr .typeDec} (h : NamesBound m s (tyOf d))
    (hd : (s.heap.nameds d.typeAddr).isSome = true) (hn : (tyOf d).nodes.Nodup)
    (hu : ∀ a ∈ (tyOf d).nodes, s.types a = none) (n : Nat) :
    ∃ s' x, s.typeBody (n + 2) (accept m (n + 2)) d = .ok s' ∧ s'.errors = s.errors ∧
      s'.heap.nameds = Function.update s.heap.nameds d.typeAddr (some (x, creates (tyOf d))) ∧
      ∀ a, a ∉ (tyOf d).nodes → s'.types a = s.types a := by
  cases d with
  | typeDec a x ty =>
    obtain ⟨s₁, h₁, hq, hc⟩ := type_ty (show NamesBound m s ty from h) hn hu n
    obtain ⟨⟨y, t⟩, hy⟩ := Option.isSome_iff_exists.mp hd
    have hy₁ : s₁.heap.nameds a = some (y, t) := by rw [hq.nameds]; exact hy
    have hnameds : (s₁.namedTypeSet a (creates ty)).heap.nameds =
        Function.update s.heap.nameds a (some (y, creates ty)) := by
      funext b
      rw [Function.update_apply, ← hq.nameds]
      simp only [namedTypeSet, hy₁, Option.map_some]
    refine ⟨s₁.namedTypeSet a (creates ty), y, ?_, hq.errors, hnameds, hq.types⟩
    have hsound : (s₁.namedTypeSet a (creates ty)).heap.sound (n + 2) a = .ok true := by
      rw [sound, soundLoop, hnameds]
      simp only [Function.update_self]
      cases ty <;> rfl
    simp only [typeBody, h₁, ok_bind, hc, hsound]
    rfl

/-- The first loop. -/
theorem typeHeaders_spec (ds : List (Ast Addr .typeDec)) (s : TypeChecker) :
    ∃ s', s.visitAll (fun s d => s.typeHeader d) ds = .ok s' ∧ s'.errors = s.errors := by
  induction ds generalizing s with
  | nil => exact ⟨s, rfl, rfl⟩
  | cons d ds ih =>
    cases d with
    | typeDec a x ty => exact ih (s.createNamed a x)

/-- The second loop. -/
theorem typeBodies_spec {ds : List (Ast Addr .typeDec)} (n : Nat)
    (h : ∀ d ∈ ds, NamesBound m s (tyOf d))
    (hd : ∀ d ∈ ds, (s.heap.nameds d.typeAddr).isSome = true)
    (hn : (ds.map Ast.typeAddr).Nodup) (hb : (ds.flatMap fun d => (tyOf d).nodes).Nodup)
    (hu : ∀ a ∈ ds.flatMap fun d => (tyOf d).nodes, s.types a = none) :
    ∃ s', s.visitAll (fun s d => s.typeBody (n + 2) (accept m (n + 2)) d) ds = .ok s' ∧
      s'.errors = s.errors ∧
      (∀ d ∈ ds, ∃ x, s'.heap.nameds d.typeAddr = some (x, creates (tyOf d))) ∧
      ∀ a, a ∉ ds.map Ast.typeAddr → s'.heap.nameds a = s.heap.nameds a := by
  induction ds generalizing s with
  | nil => exact ⟨s, rfl, rfl, nofun, fun _ _ => rfl⟩
  | cons d ds ih =>
    rw [List.map_cons, List.nodup_cons] at hn
    rw [List.flatMap_cons] at hb hu
    obtain ⟨s₁, x, h₁, he, hnameds, ht⟩ := typeBody_spec (h d (.head _)) (hd d (.head _))
      hb.of_append_left (fun a ha => hu a (List.mem_append_left _ ha)) n
    have hsome (a : Addr) (ha : (s.heap.nameds a).isSome = true) :
        (s₁.heap.nameds a).isSome = true := by
      rw [hnameds, Function.update_apply]
      split
      · rfl
      · exact ha
    obtain ⟨s', hs', he', hds, hrest⟩ := ih (fun d hd => (h d (.tail _ hd)).mono hsome)
      (fun d' hd' => hsome _ (hd d' (.tail _ hd'))) hn.2 hb.of_append_right fun a ha => by
        rw [ht a fun hd => List.disjoint_of_nodup_append hb hd ha]
        exact hu a (List.mem_append_right _ ha)
    refine ⟨s', ?_, he'.trans he, fun d' hd' => ?_, fun a ha => ?_⟩
    · rw [visitAll, h₁, ok_bind]
      exact hs'
    · rcases List.mem_cons.mp hd' with rfl | hd'
      · exact ⟨x, by rw [hrest _ hn.1, hnameds, Function.update_self]⟩
      · exact hds d' hd'
    · rw [List.map_cons, List.mem_cons, not_or] at ha
      rw [hrest a ha.2, hnameds, Function.update_of_ne ha.1]

/-- **What the visit of a chunk of types leaves**: a `Named` for each declaration, with the type
its body creates, and no report. -/
theorem visit_typeChunk {a : Addr} {ds : Ast Addr (.list .typeDec)} (h : BoundChunk m s ds)
    (n : Nat) : ∃ s', accept m (n + 3) (.typeChunk a ds) s = .ok s' ∧ s'.errors = s.errors ∧
      ∀ d ∈ ds.toList, ∃ x, s'.heap.nameds d.typeAddr = some (x, creates (tyOf d)) := by
  have hperm := typeNodes_perm ds
  have hn := hperm.nodup_iff.mp h.nodup
  obtain ⟨s₁, h₁, he₁⟩ := typeHeaders_spec ds.toList s
  obtain ⟨hf, hd⟩ := visited_typeHeaders h₁ hn.of_append_left
  have hmade (d : Ast Addr .typeDec) (hd' : d ∈ ds.toList) :
      (s₁.heap.nameds d.typeAddr).isSome = true := by
    have hc := (hd d hd').2
    rwa [createdTypeDec, Option.isSome_map] at hc
  obtain ⟨s', h₂, he₂, hds, -⟩ := typeBodies_spec (m := m) n (s := s₁)
    (fun d hd' c hc => (h.bound c (Ast.subterms_subset (Ast.mem_subterms_of_mem hd') (by
      cases d
      exact .tail _ hc))).mono fun b hb => by
        rcases hb with hb | hb
        · obtain ⟨d, hd, rfl⟩ := List.mem_map.mp hb
          exact hmade d hd
        · exact hf.nameds b hb)
    hmade hn.of_append_left hn.of_append_right fun b hb => by
      rw [hf.types b fun hb' => List.disjoint_of_nodup_append hn hb' hb]
      exact h.untyped b (hperm.mem_iff.mpr (List.mem_append_right _ hb))
  refine ⟨s', ?_, he₂.trans he₁, hds⟩
  show (s.visitAll _ ds.toList >>= _) = _
  rw [h₁]
  exact h₂

/-! ## Aliases -/

/-- The visit of a chunk ends; without a cycle of aliases the `Named` of each declaration has the
end of its chain for `actual()`, and with one an error is reported. -/
def ResolvesAliases (m : Tree) (s : TypeChecker) (a : Addr) (ds : Ast Addr (.list .typeDec)) :
    Prop :=
  ∃ n₀, ∀ n ≥ n₀, ∃ s', accept m n (.typeChunk a ds) s = .ok s' ∧
    (¬ Cyclic m ds.toList → ∀ d ∈ ds.toList, ∃ t, EndsIn m (tyOf d) t ∧
      ∃ n₁, ∀ n ≥ n₁, s'.heap.actual n (.named d.typeAddr) = .ok t) ∧
    (Cyclic m ds.toList → s'.errors ≠ s.errors)

/-- The `Named` of an alias has no `actual()`. -/
theorem actual_alias {d : Ast Addr .typeDec} {x : Symbol} (hd : IsAlias d)
    (hs : s'.heap.nameds d.typeAddr = some (x, creates (tyOf d))) (n : Nat) :
    s'.heap.actual (n + 1) (.named d.typeAddr) =
      .error (typeError "Uninitialized type in named.".toList) := by
  cases d with
  | typeDec a y ty =>
    cases ty with
    | ofNameTy e =>
      rw [TypeHeap.actual, hs]
      rfl
    | recordTy | arrayTy => exact hd.elim

/-- A record or an array is its own end, and what the `Named` of its declaration resolves to. -/
theorem endsIn_of_not_isAlias {d : Ast Addr .typeDec} {x : Symbol} (hd : ¬ IsAlias d)
    (hs : s'.heap.nameds d.typeAddr = some (x, creates (tyOf d))) :
    ∃ t, EndsIn m (tyOf d) t ∧ Resolves s'.heap (.named d.typeAddr) t := by
  cases d with
  | typeDec a y ty =>
    cases ty with
    | ofNameTy e => exact absurd trivial hd
    | recordTy b fs => exact ⟨.record b, .record, .named hs (.actual trivial)⟩
    | arrayTy b e => exact ⟨.array b, .array, .named hs (.actual trivial)⟩

theorem isAlias_of_cyclic {ds : List (Ast Addr .typeDec)}
    (hf : ∀ d ∈ ds, m.typeDec d.typeAddr = some d) (hc : Cyclic m ds) : ∃ d ∈ ds, IsAlias d := by
  obtain ⟨d, hd, hcycle⟩ := hc
  obtain ⟨d', ⟨b, x, a, y, hb, -⟩, -⟩ := Relation.TransGen.head'_iff.mp hcycle
  rw [hf d hd] at hb
  cases hb
  exact ⟨_, hd, trivial⟩

/-- **A chunk is resolved or rejected as its aliases require exactly when it has none.** -/
theorem resolvesAliases_iff {a : Addr} {ds : Ast Addr (.list .typeDec)} (h : BoundChunk m s ds) :
    ResolvesAliases m s a ds ↔ ∀ d ∈ ds.toList, ¬ IsAlias d := by
  constructor
  · rintro ⟨n₀, h₀⟩ d hd halias
    obtain ⟨s', hs', hacyclic, hcyclic⟩ := h₀ (n₀ + 3) (by omega)
    obtain ⟨s'', hs'', he, hds⟩ := visit_typeChunk (a := a) h n₀
    cases hs'.symm.trans hs''
    have hc : ¬ Cyclic m ds.toList := fun hc => hcyclic hc he
    obtain ⟨t, -, n₁, h₁⟩ := hacyclic hc d hd
    obtain ⟨x, hx⟩ := hds d hd
    have hact := h₁ (n₁ + 1) (by omega)
    rw [actual_alias halias hx] at hact
    cases hact
  · intro hno
    refine ⟨3, fun n hn => ?_⟩
    obtain ⟨n, rfl⟩ := Nat.exists_eq_add_of_le' hn
    obtain ⟨s', hs', -, hds⟩ := visit_typeChunk (a := a) h n
    refine ⟨s', hs', fun _ d hd => ?_, fun hc => ?_⟩
    · obtain ⟨x, hx⟩ := hds d hd
      obtain ⟨t, ht, hr⟩ := endsIn_of_not_isAlias (m := m) (hno d hd) hx
      exact ⟨t, ht, hr.actual_eq⟩
    · obtain ⟨d, hd, halias⟩ := isAlias_of_cyclic h.found hc
      exact absurd halias (hno d hd)

/-- `type r = { next : r }`. -/
def recursiveRecord : Ast Addr (.list .typeDec) :=
  .ofList [.typeDec 1 "r".toList (.recordTy 2 (.ofList [
    .field 3 "next".toList (.nameTy 4 "r".toList)]))]

theorem recursiveRecord_resolvesAliases :
    ResolvesAliases ⟨fun a => if a = 4 then some 1 else none, [], recursiveRecord.toList⟩ {} 0
      recursiveRecord := by
  refine (resolvesAliases_iff ⟨by decide, fun _ _ => rfl, ?_, ?_⟩).mpr ?_
  · simp [recursiveRecord, Ast.ofList, Tree.typeDec, Ast.typeAddr]
  · simp [recursiveRecord, Ast.ofList, Ast.subterms, NameBound, Ast.typeAddr]
  · simp [recursiveRecord, Ast.ofList, IsAlias]

/-- `type a = int`. -/
def aliasOfInt : Ast Addr (.list .typeDec) :=
  .ofList [.typeDec 1 "a".toList (.ofNameTy (.nameTy 2 "int".toList))]

/-- The `Named` of an alias of int keeps no type. -/
theorem not_resolvesAliases :
    ¬ ∀ (m : Tree) (s : TypeChecker) (a : Addr) (ds : Ast Addr (.list .typeDec)),
      BoundChunk m s ds → ResolvesAliases m s a ds := by
  intro hall
  have h : BoundChunk ⟨fun _ => none, [], aliasOfInt.toList⟩ {} aliasOfInt := by
    refine ⟨by decide, fun _ _ => rfl, ?_, ?_⟩
    · simp [aliasOfInt, Ast.ofList, Tree.typeDec, Ast.typeAddr]
    · simp [aliasOfInt, Ast.ofList, Ast.subterms, NameBound, Symbol.isBuiltin]
  obtain ⟨n₀, h₀⟩ := hall _ {} 0 _ h
  obtain ⟨s', hs', hacyclic, -⟩ := h₀ (n₀ + 3) (by omega)
  obtain ⟨s'', hs'', -, hds⟩ := visit_typeChunk (a := 0) h n₀
  cases hs'.symm.trans hs''
  have hno : ¬ Cyclic ⟨fun _ => none, [], aliasOfInt.toList⟩ aliasOfInt.toList := by
    rintro ⟨d, -, hcycle⟩
    obtain ⟨d', ⟨b, y, c, z, -, hc⟩, -⟩ := Relation.TransGen.head'_iff.mp hcycle
    cases hc
  obtain ⟨d, hd⟩ := List.exists_mem_of_ne_nil aliasOfInt.toList (List.cons_ne_nil _ _)
  have halias : IsAlias d := by
    rw [List.mem_singleton.mp hd]
    trivial
  obtain ⟨x, hx⟩ := hds d hd
  obtain ⟨t, -, n₁, h₁⟩ := hacyclic hno d hd
  have hact := h₁ (n₁ + 1) (by omega)
  rw [actual_alias halias hx] at hact
  cases hact

end TigerCompiler
