import TigerCompiler.Bind.Completeness
import TigerCompiler.Type.Visit
import Mathlib.Data.List.Nodup

/-!
# What a checked program has

When the uses of a program are bound as lexical scoping says and the checker reports no error,
every node has its type.  Errors are never taken back, so no step of such a run reports one
(`errors_eq_nil`).  A visit in a scope whose variables have their types and whose types are
created (`Ready`) changes the types of the nodes it visits only (`Frame`), so it visits each node
once and leaves it with a type (`Visited`).
-/

namespace TigerCompiler

variable {j k : Kind}

/-- No node is a cast, as in any tree the parser builds. -/
def NoCast {α : Type} (t : Ast α k) : Prop := ∀ a e ty, ⟨.exp, .castExp a e ty⟩ ∉ t.subterms

theorem NoCast.part {t : Ast Addr k} {t' : Ast Addr j} (h : NoCast t)
    (ht : ⟨j, t'⟩ ∈ t.subterms) : NoCast t' := fun a e ty hc =>
  h a e ty (Ast.subterms_subset ht hc)

namespace TypeChecker

open Scope

/-- The members a pass after the checker reads are set: the type of a node that has one, and
what a declaration of a function or a type creates. -/
def TypedNode (s : TypeChecker) : {k : Kind} → Ast Addr k → Prop
  | .exp, e => (s.typeGet e).isSome = true
  | .var, e => (s.typeGet e).isSome = true
  | .ty, e => (s.typeGet e).isSome = true
  | .nameTy, e => (s.typeGet e).isSome = true
  | .varDec, d => (s.typeGet d).isSome = true
  | .functionDec, d =>
    (s.types d.functionAddr).isSome = true ∧ (s.heap.functions d.functionAddr).isSome = true
  | .typeDec, d =>
    (s.types d.typeAddr).isSome = true ∧ (s.createdTypeDec d.typeAddr).isSome = true
  | .field, _ | .fieldInit, _ | .varChunk, _ | .chunk, _ | .chunkList, _ | .list _, _
  | .opt _, _ => True

/-- Every part of a tree has its type. -/
def Typed (s : TypeChecker) (t : Ast Addr k) : Prop := ∀ c ∈ t.subterms, s.TypedNode c.2

/-! ## Errors are kept -/

/-- What a method does takes no error back. -/
theorem errors_keeps (n : Nat) : Keeps (fun _ => True) (fun s => s.errors ≠ []) n where
  undefined := trivial
  error _ := trivial
  actual _ _ := ends_true _
  compatibleWith _ _ _ := ends_true _
  sound _ _ := ends_true _
  typeSet hs _ _ := hs
  createNamed hs _ _ := hs
  createRecord hs _ _ := hs
  createArray hs _ _ := hs
  createFunction hs _ _ _ := hs
  namedTypeSet hs _ _ := hs
  report _ _ := by simp
  readOnly hs _ := hs

theorem accept_errors (m : Tree) (n : Nat) (e : Ast Addr k) :
    Accepts (fun _ => True) (fun s => s.errors ≠ []) (accept m n) e :=
  accept_keeps errors_keeps m n e

/-- A step that keeps the errors and ends with none has started with none. -/
theorem errors_eq_nil {α : Type} {x : Except Stop α} {r : α} (st : α → TypeChecker)
    {s : TypeChecker}
    (h : s.errors ≠ [] → Ends (fun _ => True) (fun r => (st r).errors ≠ []) x)
    (hx : x = .ok r) (he : (st r).errors = []) : s.errors = [] := by
  by_contra hs
  have hr := h hs
  rw [hx] at hr
  exact hr he

/-! ## Frames -/

/-- Only the types of the nodes `N` may have changed, and what was created still is. -/
structure Frame (N : List Addr) (s s' : TypeChecker) : Prop where
  types : ∀ a, a ∉ N → s'.types a = s.types a
  nameds : ∀ a, (s.heap.nameds a).isSome = true → (s'.heap.nameds a).isSome = true
  functions : ∀ a, (s.heap.functions a).isSome = true → (s'.heap.functions a).isSome = true

variable {N M : List Addr} {s s₁ s₂ s' : TypeChecker} {ρ σ : Scope}

theorem Frame.refl (N : List Addr) (s : TypeChecker) : Frame N s s :=
  ⟨fun _ _ => rfl, fun _ h => h, fun _ h => h⟩

theorem Frame.trans (h : Frame N s s₁) (h' : Frame M s₁ s₂) : Frame (N ++ M) s s₂ where
  types a ha := by
    rw [List.mem_append, not_or] at ha
    rw [h'.types a ha.2, h.types a ha.1]
  nameds a ha := h'.nameds a (h.nameds a ha)
  functions a ha := h'.functions a (h.functions a ha)

theorem Frame.mono (h : Frame N s s') (hs : N ⊆ M) : Frame M s s' where
  types a ha := h.types a fun h => ha (hs h)
  nameds := h.nameds
  functions := h.functions

theorem Frame.typeSet (s : TypeChecker) (a : Addr) (t : Option TypePtr) :
    Frame [a] s (s.typeSet a t) where
  types b hb := Function.update_of_ne (by simpa using hb) ..
  nameds _ h := h
  functions _ h := h

/-- The visible variables have their types and the visible types are created. -/
structure Ready (ρ : Scope) (s : TypeChecker) : Prop where
  vars : ∀ x d, ρ.vars x = some d → (s.types d).isSome = true
  types : ∀ x d, ρ.types x = some d → (s.heap.nameds d).isSome = true

/-- What a visit of the nodes `N` in the scope `ρ` starts from. -/
structure Pre (ρ : Scope) (N : List Addr) (s : TypeChecker) : Prop where
  ready : Ready ρ s
  untyped : ∀ a ∈ N, s.types a = none
  nodup : N.Nodup

theorem Pre.perm (h : Pre ρ N s) (hp : N.Perm M) : Pre ρ M s :=
  ⟨h.ready, fun a ha => h.untyped a (hp.mem_iff.mpr ha), hp.nodup_iff.mp h.nodup⟩

theorem Pre.sublist (h : Pre ρ N s) (hs : M.Sublist N) : Pre ρ M s :=
  ⟨h.ready, fun a ha => h.untyped a (hs.subset ha), h.nodup.sublist hs⟩

theorem Pre.left (h : Pre ρ (N ++ M) s) : Pre ρ N s := h.sublist (List.sublist_append_left _ _)

theorem Ready.frame (h : Ready ρ s) (hf : Frame N s s') (hu : ∀ a ∈ N, s.types a = none) :
    Ready ρ s' where
  vars x d hd := by
    have ht := h.vars x d hd
    by_cases hn : d ∈ N
    · simp [hu d hn] at ht
    · rw [hf.types d hn]
      exact ht
  types x d hd := hf.nameds d (h.types x d hd)

theorem Ready.congr (h : Ready ρ s) (hv : σ.vars = ρ.vars) (ht : σ.types = ρ.types) :
    Ready σ s := ⟨by rw [hv]; exact h.vars, by rw [ht]; exact h.types⟩

theorem Pre.congr (h : Pre ρ N s) (hv : σ.vars = ρ.vars) (ht : σ.types = ρ.types) :
    Pre σ N s := ⟨h.ready.congr hv ht, h.untyped, h.nodup⟩

theorem Pre.next (h : Pre ρ (N ++ M) s) (hf : Frame N s s') : Pre ρ M s' where
  ready := h.ready.frame hf h.left.untyped
  untyped a ha := by
    rw [hf.types a fun hn => List.disjoint_of_nodup_append h.nodup hn ha]
    exact h.untyped a (List.mem_append_right _ ha)
  nodup := h.nodup.sublist (List.sublist_append_right _ _)

/-! ## Typed trees -/

theorem addr_mem_nodes {t : Ast Addr k} (hk : HasMethod k = true) : t.addr ∈ t.nodes := by
  have hne : t.nodes ≠ [] := by
    induction t <;> simp_all [HasMethod, Ast.nodes]
  obtain ⟨a, as, h⟩ := List.exists_cons_of_ne_nil hne
  simp [Ast.addr, h]

theorem TypedNode.frame {t : Ast Addr k} (h : s.TypedNode t) (hf : Frame N s s')
    (hn : ∀ a ∈ t.nodes, a ∉ N) : s'.TypedNode t := by
  have hget (hk : HasMethod k = true) : s'.typeGet t = s.typeGet t :=
    hf.types _ (hn _ (addr_mem_nodes hk))
  cases k
  case exp | var | ty | nameTy | varDec =>
    simp only [TypedNode] at h ⊢
    rw [hget rfl]
    exact h
  case functionDec =>
    refine ⟨?_, hf.functions _ h.2⟩
    rw [hf.types _ (hn _ (by cases t; simp [Ast.functionAddr, Ast.nodes]))]
    exact h.1
  case typeDec =>
    refine ⟨?_, ?_⟩
    · rw [hf.types _ (hn _ (by cases t; simp [Ast.typeAddr, Ast.nodes]))]
      exact h.1
    · have hc := h.2
      rw [createdTypeDec, Option.isSome_map] at hc ⊢
      exact hf.nameds _ hc
  all_goals trivial

theorem Typed.part {t : Ast Addr k} {t' : Ast Addr j} (h : s.Typed t)
    (ht : ⟨j, t'⟩ ∈ t.subterms) : s.Typed t' := fun c hc => h c (Ast.subterms_subset ht hc)

theorem Typed.frame {t : Ast Addr k} (h : s.Typed t) (hf : Frame N s s')
    (hn : ∀ a ∈ t.nodes, a ∉ N) : s'.Typed t := fun c hc =>
  (h c hc).frame hf fun a ha => hn a (Ast.nodes_subset hc ha)

theorem Ready.putTypes {ds : List (Ast Addr .typeDec)} (h : Ready ρ s)
    (hd : ∀ d ∈ ds, (s.heap.nameds d.typeAddr).isSome = true) : Ready (ρ.putTypes ds) s := by
  induction ds generalizing ρ with
  | nil => exact h
  | cons d ds ih =>
    refine ih ⟨h.vars, fun x a ha => ?_⟩ fun d hd' => hd d (.tail _ hd')
    simp only [putType, Function.update_apply] at ha
    split at ha
    · cases ha
      exact hd d (.head _)
    · exact h.types x a ha

/-- What a tree declares is as a visit needs it, once the tree has its types. -/
theorem Ready.after {t : Ast Addr k} (h : Ready ρ s) (ht : s.Typed t) : Ready (ρ.after t) s := by
  induction t generalizing ρ with
  | cons x xs ihx ihxs =>
    exact ihxs (ihx h (ht.part (Ast.mem_first rfl))) (ht.part (Ast.mem_second rfl))
  | some x ih | varChunk _ x ih | ofVarChunk x ih | chunkList _ x ih =>
    exact ih h (ht.part (Ast.mem_first rfl))
  | varDec a x n i =>
    refine ⟨fun y d hd => ?_, h.types⟩
    simp only [Scope.after, putVar, Function.update_apply] at hd
    split at hd
    · cases hd
      exact ht _ (Ast.mem_subterms_self _)
    · exact h.vars y d hd
  | functionChunk a ds =>
    refine ⟨fun x d hd => ?_, fun x d hd => ?_⟩
    · rw [Scope.after, (putFuns_vars _).1] at hd
      exact h.vars x d hd
    · rw [Scope.after, putFuns_types] at hd
      exact h.types x d hd
  | typeChunk a ds =>
    refine h.putTypes fun d hd => ?_
    have hc := (ht ⟨_, d⟩ (.tail _ (Ast.mem_subterms_of_mem hd))).2
    rwa [createdTypeDec, Option.isSome_map] at hc
  | _ => exact h

/-! ## Visits -/

/-- The nodes of a list of parts. -/
def nodesOf (P : List (Σ k, Ast Addr k)) : List Addr := P.flatMap fun p => p.2.nodes

@[simp] theorem nodesOf_nil : nodesOf [] = [] := rfl

@[simp] theorem nodesOf_cons (p : Σ k, Ast Addr k) (P : List (Σ k, Ast Addr k)) :
    nodesOf (p :: P) = p.2.nodes ++ nodesOf P := rfl

@[simp] theorem nodesOf_append (P Q : List (Σ k, Ast Addr k)) :
    nodesOf (P ++ Q) = nodesOf P ++ nodesOf Q := List.flatMap_append

/-- A run that has visited some parts: it has changed the types of their nodes only, and every
node of theirs has its type. -/
structure Visited (P : List (Σ k, Ast Addr k)) (s s' : TypeChecker) : Prop where
  frame : Frame (nodesOf P) s s'
  typed : ∀ p ∈ P, s'.Typed p.2

variable {P Q : List (Σ k, Ast Addr k)} {m : Tree} {n : Nat}

theorem Visited.nil (s : TypeChecker) : Visited [] s s := ⟨Frame.refl _ _, nofun⟩

theorem Visited.trans (hp : Pre ρ (nodesOf (P ++ Q)) s) (h : Visited P s s₁)
    (h' : Visited Q s₁ s₂) : Visited (P ++ Q) s s₂ := by
  rw [nodesOf_append] at hp
  refine ⟨by rw [nodesOf_append]; exact h.frame.trans h'.frame, fun p hp' => ?_⟩
  rcases List.mem_append.mp hp' with hp' | hp'
  · refine (h.typed p hp').frame h'.frame fun a ha hq => ?_
    exact List.disjoint_of_nodup_append hp.nodup (List.mem_flatMap.mpr ⟨p, hp', ha⟩) hq
  · exact h'.typed p hp'

/-- What is left to visit after the first parts. -/
theorem Pre.after (hp : Pre ρ (nodesOf (P ++ Q)) s) (h : Visited P s s₁) :
    Pre ρ (nodesOf Q) s₁ := by
  rw [nodesOf_append] at hp
  exact hp.next h.frame

/-- A node is visited once its parts are and it has its own type. -/
theorem Visited.node {t : Ast Addr k} {a : Addr} (h : Visited P s s₁) (hf : Frame [a] s₁ s')
    (hp : Pre ρ (a :: nodesOf P) s) (hn : t.nodes.Perm (a :: nodesOf P))
    (hs : ∀ c ∈ t.subterms, c = ⟨k, t⟩ ∨ ∃ p ∈ P, c ∈ p.2.subterms) (ht : s'.TypedNode t) :
    Visited [⟨k, t⟩] s s' := by
  refine ⟨(h.frame.trans hf).mono ?_, ?_⟩
  · intro b hb
    simp only [List.mem_append, List.mem_singleton] at hb
    simp only [nodesOf_cons, nodesOf_nil, List.append_nil, hn.mem_iff, List.mem_cons]
    exact hb.symm
  · intro p hp'
    rw [List.mem_singleton] at hp'
    subst hp'
    intro c hc
    rcases hs c hc with rfl | ⟨q, hq, hc⟩
    · exact ht
    · refine (h.typed q hq c hc).frame hf fun b hb hba => ?_
      rw [List.mem_singleton] at hba
      subst hba
      exact (List.nodup_cons.mp hp.nodup).1 (List.mem_flatMap.mpr ⟨q, hq, Ast.nodes_subset hc hb⟩)

/-- A visit that reports no error visits the node, in a scope that is ready. -/
def Good (m : Tree) ⦃k : Kind⦄ (ρ : Scope) (t : Ast Addr k) : Prop :=
  HasMethod k = true → ∀ n s s', accept m n t s = .ok s' → s'.errors = [] →
    Pre ρ t.nodes s → Visited [⟨k, t⟩] s s'

theorem visited_type {e : Ast Addr k} (h : Good m ρ e) (hk : HasMethod k = true)
    (hx : s.type (accept m n) e = .ok s') (he : s'.errors = []) (hp : Pre ρ e.nodes s) :
    Visited [⟨k, e⟩] s s' := by
  have hu : s.typeGet e = none := hp.untyped _ (addr_mem_nodes hk)
  rw [TypeChecker.type, hu] at hx
  exact h hk n s s' hx he hp

theorem visited_typeRef {e : Ast Addr k} {r : TypeChecker × TypePtr} (h : Good m ρ e)
    (hk : HasMethod k = true) (hx : s.typeRef (accept m n) e = .ok r) (he : r.1.errors = [])
    (hp : Pre ρ e.nodes s) : Visited [⟨k, e⟩] s r.1 := by
  simp only [typeRef, bind_eq_ok] at hx
  obtain ⟨s₁, h₁, hx⟩ := hx
  split at hx
  · cases hx
    exact visited_type h hk h₁ he hp
  · cases hx

/-- A comparison of types that reports no error does nothing. -/
theorem eq_of_checkTypes {a : Addr} {x y : Str} {t u : TypePtr}
    (hx : s.checkTypes n a x t y u = .ok s') (he : s'.errors = []) : s' = s := by
  simp only [checkTypes, bind_eq_ok] at hx
  obtain ⟨_, -, c, -, hx⟩ := hx
  cases c
  · cases hx
    simp [typeMismatch] at he
  · cases hx
    rfl

theorem visited_checkType {e : Ast Addr k} {x : Str} {t : TypePtr} (h : Good m ρ e)
    (hk : HasMethod k = true) (hx : s.checkType n (accept m n) e x t = .ok s')
    (he : s'.errors = []) (hp : Pre ρ e.nodes s) : Visited [⟨k, e⟩] s s' := by
  simp only [checkType, bind_eq_ok] at hx
  obtain ⟨r, h₁, _, -, hx⟩ := hx
  split at hx
  · cases hx
    exact visited_typeRef h hk h₁ he hp
  · cases hx
    simp [errorAndRecover, error, typeSet] at he

theorem visited_checkTypesOf {e₁ : Ast Addr j} {e₂ : Ast Addr k} {a : Addr} {x y : Str}
    (h₁ : Good m ρ e₁) (hj : HasMethod j = true) (h₂ : Good m ρ e₂) (hk : HasMethod k = true)
    (hx : s.checkTypesOf n (accept m n) a x e₁ y e₂ = .ok s') (he : s'.errors = [])
    (hp : Pre ρ (nodesOf [⟨j, e₁⟩, ⟨k, e₂⟩]) s) : Visited [⟨j, e₁⟩, ⟨k, e₂⟩] s s' := by
  simp only [checkTypesOf, bind_eq_ok] at hx
  obtain ⟨r₁, hr₁, r₂, hr₂, hx⟩ := hx
  have heq := eq_of_checkTypes hx he
  subst heq
  have he₁ : r₁.1.errors = [] := errors_eq_nil Prod.fst
    (fun hs => (errors_keeps n).typeRef hs (accept_errors m n e₂)) hr₂ he
  have v₁ := visited_typeRef h₁ hj hr₁ he₁ hp.left
  have v₂ := visited_typeRef h₂ hk hr₂ he
    ((hp.next (N := e₁.nodes) (v₁.frame.mono (by simp))).sublist (by simp))
  exact v₁.trans (P := [⟨j, e₁⟩]) hp v₂

/-- What holds everywhere holds at the node itself. -/
theorem good_of_everywhere {t : Ast Addr k} (h : ρ.Everywhere (Good m) t) : Good m ρ t := by
  induction t with
  | ofVar v ih | ofNameTy v ih | ofVarChunk v ih =>
    intro _ n s s' hx he hp
    obtain _ | n := n
    · cases hx
    · have hv := ih h rfl n s s' hx he hp
      refine ⟨hv.frame, fun p hp' => ?_⟩
      rw [List.mem_singleton] at hp'
      subst hp'
      intro c hc
      have htv := hv.typed _ (.head _)
      rcases List.mem_cons.mp hc with rfl | hc
      · have hself := htv _ (Ast.mem_subterms_self v)
        exact hself
      · exact htv c hc
  | nil | cons | none | some => exact nofun
  | simpleVar | nilExp | intExp | stringExp | breakExp | nameTy => exact h
  | _ => exact h.1

theorem Pre.cons {x : Ast Addr k} {xs : Ast Addr (.list k)}
    (h : Pre ρ (Ast.cons x xs).nodes s) : Pre ρ (nodesOf ([⟨_, x⟩] ++ [⟨_, xs⟩])) s := by
  simpa [Ast.nodes] using h

/-- A collection is visited once its head and its tail are. -/
theorem Visited.cons {x : Ast Addr k} {xs : Ast Addr (.list k)}
    (hp : Pre ρ (Ast.cons x xs).nodes s) (h : Visited [⟨_, x⟩] s s₁)
    (h' : Visited [⟨_, xs⟩] s₁ s₂) : Visited [⟨_, .cons x xs⟩] s s₂ := by
  have hv := h.trans hp.cons h'
  refine ⟨by simpa [Ast.nodes] using hv.frame, fun p hp' => ?_⟩
  rw [List.mem_singleton] at hp'
  subst hp'
  intro c hc
  simp only [Ast.subterms, List.mem_cons, List.mem_append] at hc
  rcases hc with rfl | hc | hc
  · trivial
  · exact hv.typed ⟨_, x⟩ (by simp) c hc
  · exact hv.typed ⟨_, xs⟩ (by simp) c hc

theorem Visited.listNil (s : TypeChecker) : Visited [⟨.list k, .nil⟩] s s := by
  refine ⟨Frame.refl _ _, fun p hp => ?_⟩
  rw [List.mem_singleton] at hp
  subst hp
  intro c hc
  rw [Ast.subterms, List.mem_singleton] at hc
  subst hc
  trivial

/-- The tail of a collection, after its head. -/
theorem Pre.tail {x : Ast Addr k} {xs : Ast Addr (.list k)} (h : Pre ρ (Ast.cons x xs).nodes s)
    (hv : Visited [⟨_, x⟩] s s₁) : Pre (ρ.after x) xs.nodes s₁ := by
  have hn : Pre ρ xs.nodes s₁ := Pre.next (N := x.nodes) h (hv.frame.mono (by simp))
  exact ⟨hn.ready.after (hv.typed _ (.head _)), hn.untyped, hn.nodup⟩

theorem visited_typeSeq : (es : Ast Addr (.list .exp)) → ∀ {ρ s s' last r},
    ρ.Everywhere (Good m) es → s.typeSeq (accept m n) last es.toList = .ok (s', r) →
    s'.errors = [] → Pre ρ es.nodes s → last.isSome = true →
    Visited [⟨_, es⟩] s s' ∧ r.isSome = true
  | .nil, ρ, s, s', last, r, _, hx, _, _, hl => by
    cases hx
    exact ⟨.listNil s, hl⟩
  | .cons e es, ρ, s, s', last, r, h, hx, he, hp, _ => by
    simp only [Ast.toList_cons, typeSeq, bind_eq_ok] at hx
    obtain ⟨s₁, h₁, hx⟩ := hx
    have he₁ : s₁.errors = [] := errors_eq_nil Prod.fst
      (fun hs => Keeps.typeSeq hs fun e _ => accept_errors m n e) hx he
    have v₁ := visited_type (good_of_everywhere h.1) rfl h₁ he₁ (Pre.left hp)
    obtain ⟨v₂, hr⟩ := visited_typeSeq es h.2 hx he (hp.tail v₁)
      (v₁.typed _ (.head _) _ (Ast.mem_subterms_self e))
    exact ⟨.cons hp v₁ v₂, hr⟩

theorem visited_checkArgs {a : Addr} : (es : Ast Addr (.list .exp)) → ∀ {ρ s s' ts},
    ρ.Everywhere (Good m) es → s.checkArgs n (accept m n) a es.toList ts = .ok s' →
    s'.errors = [] → Pre ρ es.nodes s → es.toList.length = ts.length → Visited [⟨_, es⟩] s s'
  | .nil, ρ, s, s', ts, _, hx, _, _, _ => by
    cases ts <;> cases hx <;> exact .listNil s
  | .cons e es, ρ, s, s', [], _, _, _, _, hl => by simp at hl
  | .cons e es, ρ, s, s', (x, t) :: ts, h, hx, he, hp, hl => by
    simp only [Ast.toList_cons, checkArgs, bind_eq_ok] at hx
    obtain ⟨r, h₁, s₂, h₂, hx⟩ := hx
    have he₂ : s₂.errors = [] := errors_eq_nil id
      (fun hs => (errors_keeps n).checkArgs hs fun e _ => accept_errors m n e) hx he
    have heq := eq_of_checkTypes h₂ he₂
    subst heq
    have v₁ := visited_typeRef (good_of_everywhere h.1) rfl h₁ he₂ (Pre.left hp)
    have v₂ := visited_checkArgs es h.2 hx he (hp.tail v₁) (by simpa using hl)
    exact .cons hp v₁ v₂

theorem visited_checkFields {a : Addr} : (es : Ast Addr (.list .fieldInit)) →
    ∀ {ρ s s' ts}, ρ.Everywhere (Good m) es →
    s.checkFields n (accept m n) a es.toList ts = .ok s' → s'.errors = [] → Pre ρ es.nodes s →
    Visited [⟨_, es⟩] s s'
  | .nil, ρ, s, s', ts, _, hx, _, _ => by
    cases hx
    exact .listNil s
  | .cons (.fieldInit b x e) es, ρ, s, s', [], _, hx, _, _ => by cases hx
  | .cons (.fieldInit b x e) es, ρ, s, s', (y, t) :: ts, h, hx, he, hp => by
    simp only [Ast.toList_cons, checkFields, bind_eq_ok] at hx
    obtain ⟨r, h₁, s₂, h₂, hx⟩ := hx
    have he₂ : s₂.errors = [] := errors_eq_nil id
      (fun hs => (errors_keeps n).checkFields hs fun _ _ e _ => accept_errors m n e) hx he
    have heq := eq_of_checkTypes h₂ he₂
    subst heq
    have hp₁ : Pre ρ (b :: nodesOf [⟨_, e⟩]) s := hp.left.sublist (by simp [Ast.nodes])
    have v₁ := visited_typeRef (good_of_everywhere h.1.2) rfl h₁ he₂ (hp₁.sublist (by simp))
    have v₁ := v₁.node (t := .fieldInit b x e) (Frame.refl [b] _) hp₁ (by simp [Ast.nodes])
      Ast.eq_or_of_mem_subterms trivial
    exact .cons hp v₁ (visited_checkFields es h.2 hx he (hp.tail v₁))

/-- The comparison of the fields is reached with no error only when a record was found. -/
theorem visited_checkRecord {a : Addr} {es : Ast Addr (.list .fieldInit)}
    {fields : Option (List (Symbol × TypePtr))} (h : ρ.Everywhere (Good m) es)
    (hx : s.checkRecord n (accept m n) a es.toList fields = .ok s') (he : s'.errors = [])
    (hp : Pre ρ es.nodes s) : Visited [⟨_, es⟩] s s' := by
  cases fields with
  | some fields => exact visited_checkFields es h hx he hp
  | none =>
    have he₁ : (s.error a "RecordExp: Untyped".toList none).errors = [] := errors_eq_nil id
      (fun hs => (errors_keeps n).checkFields hs fun _ _ e _ => accept_errors m n e) hx he
    simp [error] at he₁

theorem visited_checkCall {a : Addr} {es : Ast Addr (.list .exp)} {ts : List (Symbol × TypePtr)}
    (h : ρ.Everywhere (Good m) es) (hx : s.checkCall n (accept m n) a es.toList ts = .ok s')
    (he : s'.errors = []) (hp : Pre ρ es.nodes s) : Visited [⟨_, es⟩] s s' := by
  unfold checkCall at hx
  split at hx
  · cases hx
    simp [error] at he
  · rename_i hl
    exact visited_checkArgs es h hx he hp (not_not.mp hl)

theorem visited_fields : (fs : Ast Addr (.list .field)) → ∀ {ρ s r},
    ρ.Everywhere (Good m) fs → s.typeFields (accept m n) (fieldsOf fs.toList) = .ok r →
    r.1.errors = [] → Pre ρ fs.nodes s → Visited [⟨_, fs⟩] s r.1
  | .nil, ρ, s, r, _, hx, _, _ => by
    cases hx
    exact .listNil s
  | .cons (.field b x t) fs, ρ, s, r, h, hx, he, hp => by
    simp only [Ast.toList_cons, fieldsOf, List.map_cons, typeFields, bind_eq_ok] at hx
    obtain ⟨r₁, h₁, r₂, h₂, hx⟩ := hx
    cases hx
    have he₁ : r₁.1.errors = [] := errors_eq_nil Prod.fst
      (fun hs => (errors_keeps n).typeFields hs fun e _ => accept_errors m n e.2) h₂ he
    have hp₁ : Pre ρ (b :: nodesOf [⟨_, t⟩]) s := hp.left.sublist (by simp [Ast.nodes])
    have v₁ := visited_typeRef (good_of_everywhere h.1.2) rfl h₁ he₁ (hp₁.sublist (by simp))
    have v₁ := v₁.node (t := .field b x t) (Frame.refl [b] _) hp₁ (by simp [Ast.nodes])
      Ast.eq_or_of_mem_subterms trivial
    have v₂ : Visited [⟨_, fs⟩] r₁.1 r₂.1 := visited_fields fs h.2 h₂ he (hp.tail v₁)
    exact .cons hp v₁ v₂

theorem visited_formals : (ds : Ast Addr (.list .varDec)) → ∀ {ρ s r},
    ρ.Everywhere (Good m) ds → s.typeFields (accept m n) (formalsOf ds.toList) = .ok r →
    r.1.errors = [] → Pre ρ ds.nodes s → Visited [⟨_, ds⟩] s r.1
  | .nil, ρ, s, r, _, hx, _, _ => by
    cases hx
    exact .listNil s
  | .cons d ds, ρ, s, r, h, hx, he, hp => by
    simp only [Ast.toList_cons, formalsOf, List.map_cons, typeFields, bind_eq_ok] at hx
    obtain ⟨r₁, h₁, r₂, h₂, hx⟩ := hx
    cases hx
    have he₁ : r₁.1.errors = [] := errors_eq_nil Prod.fst
      (fun hs => (errors_keeps n).typeFields hs fun e _ => accept_errors m n e.2) h₂ he
    have v₁ := visited_typeRef (good_of_everywhere h.1) rfl h₁ he₁ hp.left
    have v₂ : Visited [⟨_, ds⟩] r₁.1 r₂.1 := visited_formals ds h.2 h₂ he (hp.tail v₁)
    exact .cons hp v₁ v₂

/-- The loop of a chunk over its elements. -/
theorem visited_visitAll (hk : HasMethod k = true) : (ds : Ast Addr (.list k)) → ∀ {ρ s s'},
    ρ.Everywhere (Good m) ds → s.visitAll (fun s d => accept m n d s) ds.toList = .ok s' →
    s'.errors = [] → Pre ρ ds.nodes s → Visited [⟨_, ds⟩] s s'
  | .nil, ρ, s, s', _, hx, _, _ => by
    cases hx
    exact .listNil s
  | .cons d ds, ρ, s, s', h, hx, he, hp => by
    simp only [Ast.toList_cons, visitAll, bind_eq_ok] at hx
    obtain ⟨s₁, h₁, hx⟩ := hx
    have he₁ : s₁.errors = [] := errors_eq_nil id
      (fun hs => Keeps.visitAll hs fun d _ => accept_errors m n d) hx he
    have v₁ := good_of_everywhere h.1 hk n s s₁ h₁ he₁ hp.left
    exact .cons hp v₁ (visited_visitAll hk ds h.2 hx he (hp.tail v₁))

/-! ## Chunks of functions -/

/-- What the header of a function visits. -/
def headNodes : Ast Addr .functionDec → List Addr
  | .functionDec a _ formals result _ => a :: (formals.nodes ++ result.nodes)

/-- What the body of a function visits. -/
def bodyNodes : Ast Addr .functionDec → List Addr
  | .functionDec _ _ _ _ body => body.nodes

/-- A function whose header is done. -/
def HeaderDone (s : TypeChecker) : Ast Addr .functionDec → Prop
  | d@(.functionDec _ _ formals result _) => s.TypedNode d ∧ s.Typed formals ∧ s.Typed result

/-- A function whose body is done. -/
def BodyDone (s : TypeChecker) : Ast Addr .functionDec → Prop
  | .functionDec _ _ _ _ body => s.Typed body

theorem HeaderDone.frame {d : Ast Addr .functionDec} (h : HeaderDone s d) (hf : Frame N s s')
    (hn : ∀ a ∈ headNodes d, a ∉ N) : HeaderDone s' d := by
  cases d with
  | functionDec a x fs r b =>
    simp only [headNodes, List.mem_cons, List.mem_append] at hn
    obtain ⟨⟨ht, hc⟩, hfs, hr⟩ := h
    refine ⟨⟨?_, hf.functions _ hc⟩, hfs.frame hf fun b hb => hn b (.inr (.inl hb)),
      hr.frame hf fun b hb => hn b (.inr (.inr hb))⟩
    show (s'.types a).isSome = true
    rw [hf.types a (hn a (.inl rfl))]
    exact ht

theorem BodyDone.frame {d : Ast Addr .functionDec} (h : BodyDone s d) (hf : Frame N s s')
    (hn : ∀ a ∈ bodyNodes d, a ∉ N) : BodyDone s' d := by
  cases d
  exact Typed.frame h hf hn

theorem frame_createFunction (s : TypeChecker) (a : Addr) (fs : List (Symbol × TypePtr))
    (t : TypePtr) : Frame [a] s (s.createFunction a fs t) where
  types b hb := setDefault_of_ne (by simpa using hb)
  nameds _ h := h
  functions _ h := isSome_setDefault_of_isSome h

theorem Visited.optSome {t : Ast Addr k} (h : Visited [⟨k, t⟩] s s') :
    Visited [⟨_, .some t⟩] s s' := by
  refine ⟨h.frame, fun p hp => ?_⟩
  rw [List.mem_singleton] at hp
  subst hp
  intro c hc
  rcases List.mem_cons.mp hc with rfl | hc
  · trivial
  · exact h.typed _ (.head _) c hc

theorem Visited.optNone (s : TypeChecker) : Visited [⟨.opt k, .none⟩] s s := by
  refine ⟨Frame.refl _ _, fun p hp => ?_⟩
  rw [List.mem_singleton] at hp
  subst hp
  intro c hc
  rw [Ast.subterms, List.mem_singleton] at hc
  subst hc
  trivial

theorem visited_typeResult {t : Ast Addr (.opt .nameTy)} {r : TypeChecker × TypePtr}
    (h : ρ.Everywhere (Good m) t) (hx : s.typeResult (accept m n) t = .ok r)
    (he : r.1.errors = []) (hp : Pre ρ t.nodes s) : Visited [⟨_, t⟩] s r.1 := by
  cases t with
  | none =>
    cases hx
    exact .optNone s
  | some t => exact .optSome (visited_typeRef (good_of_everywhere h) rfl hx he hp)

theorem visited_functionHeader {d : Ast Addr .functionDec}
    (h : ρ.Everywhere (Good m) d) (hx : s.functionHeader (accept m n) d = .ok s')
    (he : s'.errors = []) (hp : Pre ρ (headNodes d) s) :
    Frame (headNodes d) s s' ∧ HeaderDone s' d := by
  cases d with
  | functionDec a x fs r b =>
    cases fs with
    | varChunk c fs =>
      simp only [functionHeader, bind_eq_ok] at hx
      obtain ⟨r₁, h₁, r₂, h₂, hx⟩ := hx
      cases hx
      have he₁ : r₁.1.errors = [] := errors_eq_nil Prod.fst
        (fun hs => (errors_keeps n).typeResult hs fun c _ => accept_errors m n c.2) h₂ he
      have hp₁ : Pre ρ (fs.nodes ++ r.nodes) s :=
        hp.sublist (((List.Sublist.refl _).cons c).cons a)
      have v₁ := visited_formals fs h.2.1.2 h₁ he₁ hp₁.left
      have hp₂ : Pre ρ r.nodes r₁.1 := hp₁.next (v₁.frame.mono (by simp))
      have v₂ := visited_typeResult h.2.2.1 h₂ he (hp₂.congr rfl rfl)
      -- the members of the header are typed, and its own address is none of theirs
      have v := v₁.trans (P := [⟨_, fs⟩]) (Q := [⟨_, r⟩]) (hp₁.sublist (by simp)) v₂
      have hf := frame_createFunction r₂.1 a r₁.2 r₂.2
      have hn := hp.nodup
      simp only [headNodes, Ast.nodes, List.nodup_cons, List.mem_append, List.mem_cons] at hn
      refine ⟨(v.frame.trans hf).mono ?_, ⟨isSome_setDefault, isSome_setDefault⟩, ?_, ?_⟩
      · intro b hb
        simp only [nodesOf_append, nodesOf_cons, nodesOf_nil, List.mem_append,
          List.mem_singleton] at hb
        simp only [headNodes, Ast.nodes, List.mem_cons, List.mem_append]
        grind
      · have hfs := (v.typed ⟨_, fs⟩ (by simp)).frame hf fun b hb hba => ?_
        · intro p hp'
          rcases List.mem_cons.mp hp' with rfl | hp'
          · trivial
          · exact hfs p hp'
        · rw [List.mem_singleton] at hba
          exact hn.1 (.inl (.inr (hba ▸ hb)))
      · refine (v.typed ⟨_, r⟩ (by simp)).frame hf fun b hb hba => ?_
        rw [List.mem_singleton] at hba
        exact hn.1 (.inr (hba ▸ hb))

theorem visited_functionHeaders {ds : List (Ast Addr .functionDec)}
    (h : ∀ d ∈ ds, ρ.Everywhere (Good m) d)
    (hx : s.visitAll (fun s d => s.functionHeader (accept m n) d) ds = .ok s')
    (he : s'.errors = []) (hp : Pre ρ (ds.flatMap headNodes) s) :
    Frame (ds.flatMap headNodes) s s' ∧ ∀ d ∈ ds, HeaderDone s' d := by
  induction ds generalizing s with
  | nil =>
    cases hx
    exact ⟨Frame.refl _ _, nofun⟩
  | cons d ds ih =>
    simp only [visitAll, bind_eq_ok] at hx
    obtain ⟨s₁, h₁, hx⟩ := hx
    have he₁ : s₁.errors = [] := errors_eq_nil id (fun hs => Keeps.visitAll hs fun d _ s hs =>
      (errors_keeps n).functionHeader hs fun c _ => accept_errors m n c.2) hx he
    rw [List.flatMap_cons] at hp
    obtain ⟨hf₁, hd₁⟩ := visited_functionHeader (h d (.head _)) h₁ he₁ hp.left
    obtain ⟨hf₂, hd₂⟩ := ih (fun d hd => h d (.tail _ hd)) hx (hp.next hf₁)
    refine ⟨hf₁.trans hf₂, fun d' hd' => ?_⟩
    rcases List.mem_cons.mp hd' with rfl | hd'
    · exact hd₁.frame hf₂ fun a ha ha' => List.disjoint_of_nodup_append hp.nodup ha ha'
    · exact hd₂ d' hd'

theorem visited_functionBody {d : Ast Addr .functionDec} (h : ρ.Everywhere (Good m) d)
    (hx : s.functionBody n (accept m n) d = .ok s') (he : s'.errors = [])
    (hd : HeaderDone s d) (hp : Pre ρ (bodyNodes d) s) :
    Frame (bodyNodes d) s s' ∧ BodyDone s' d := by
  cases d with
  | functionDec a x fs r b =>
    have hp' : Pre (ρ.after fs) b.nodes s := ⟨hp.ready.after hd.2.1, hp.untyped, hp.nodup⟩
    cases b with
    | none =>
      cases hx
      have v := Visited.optNone (k := .exp) s
      exact ⟨Frame.refl _ _, v.typed _ (.head _)⟩
    | some b =>
      simp only [functionBody] at hx
      split at hx
      · simp only [bind_eq_ok] at hx
        obtain ⟨r₁, h₁, hx⟩ := hx
        have heq := eq_of_checkTypes hx he
        subst heq
        have v := (visited_typeRef (good_of_everywhere (t := b) h.2.2.2) rfl h₁ he
          hp').optSome
        exact ⟨v.frame.mono (by simp [bodyNodes]), v.typed _ (.head _)⟩
      · cases hx

theorem visited_functionBodies {ds : List (Ast Addr .functionDec)}
    (h : ∀ d ∈ ds, ρ.Everywhere (Good m) d)
    (hx : s.visitAll (fun s d => s.functionBody n (accept m n) d) ds = .ok s')
    (he : s'.errors = []) (hd : ∀ d ∈ ds, HeaderDone s d)
    (hn : ∀ d ∈ ds, ∀ a ∈ headNodes d, a ∉ ds.flatMap bodyNodes)
    (hp : Pre ρ (ds.flatMap bodyNodes) s) :
    Frame (ds.flatMap bodyNodes) s s' ∧ ∀ d ∈ ds, BodyDone s' d := by
  induction ds generalizing s with
  | nil =>
    cases hx
    exact ⟨Frame.refl _ _, nofun⟩
  | cons d ds ih =>
    simp only [visitAll, bind_eq_ok] at hx
    obtain ⟨s₁, h₁, hx⟩ := hx
    have he₁ : s₁.errors = [] := errors_eq_nil id (fun hs => Keeps.visitAll hs fun d _ s hs =>
      (errors_keeps n).functionBody hs fun c _ => accept_errors m n c.2) hx he
    rw [List.flatMap_cons] at hp
    obtain ⟨hf₁, hd₁⟩ := visited_functionBody (h d (.head _)) h₁ he₁ (hd d (.head _)) hp.left
    simp only [List.flatMap_cons, List.mem_append, not_or] at hn
    obtain ⟨hf₂, hd₂⟩ := ih (fun d hd => h d (.tail _ hd)) hx
      (fun d' hd' => (hd d' (.tail _ hd')).frame hf₁ fun a ha => (hn d' (.tail _ hd') a ha).1)
      (fun d' hd' a ha => (hn d' (.tail _ hd') a ha).2) (hp.next hf₁)
    refine ⟨hf₁.trans hf₂, fun d' hd' => ?_⟩
    rcases List.mem_cons.mp hd' with rfl | hd'
    · exact hd₁.frame hf₂ fun a ha ha' => List.disjoint_of_nodup_append hp.nodup ha ha'
    · exact hd₂ d' hd'

theorem nodes_perm : (ds : Ast Addr (.list .functionDec)) →
    ds.nodes.Perm (ds.toList.flatMap headNodes ++ ds.toList.flatMap bodyNodes)
  | .nil => .refl _
  | .cons (.functionDec a x fs r b) ds => by
    have hds := nodes_perm ds
    simp only [Ast.nodes, Ast.toList_cons, List.flatMap_cons, headNodes, bodyNodes,
      List.cons_append, List.append_assoc]
    refine .cons a (.append_left _ (.append_left _ ?_))
    exact (hds.append_left _).trans (List.perm_append_comm_assoc ..)

theorem typed_of_done : (ds : Ast Addr (.list .functionDec)) →
    (∀ d ∈ ds.toList, HeaderDone s d ∧ BodyDone s d) → s.Typed ds
  | .nil, _ => fun c hc => by
    rw [Ast.subterms, List.mem_singleton] at hc
    subst hc
    trivial
  | .cons (.functionDec a x fs r b) ds, h => fun c hc => by
    obtain ⟨⟨hd, hfs, hr⟩, hb⟩ := h _ (.head _)
    simp only [Ast.subterms, List.mem_cons, List.mem_append] at hc
    rcases hc with rfl | (rfl | (hc | hc) | hc) | hc
    · trivial
    · exact hd
    · exact hfs c hc
    · exact hr c hc
    · exact hb c hc
    · exact typed_of_done ds (fun d hd => h d (.tail _ hd)) c hc

theorem good_functionChunk {a : Addr} {ds : Ast Addr (.list .functionDec)}
    (h : (ρ.putFuns ds.toList).Everywhere (Good m) ds) : Good m ρ (.functionChunk a ds) := by
  intro _ n s s' hx he hp
  obtain _ | n := n
  · cases hx
  simp only [accept, visit, bind_eq_ok] at hx
  obtain ⟨s₁, h₁, hx⟩ := hx
  have he₁ : s₁.errors = [] := errors_eq_nil id (fun hs => Keeps.visitAll hs fun d _ s hs =>
    (errors_keeps n).functionBody hs fun c _ => accept_errors m n c.2) hx he
  have hm := h.of_mem rfl
  have hp₁ : Pre (ρ.putFuns ds.toList)
      (ds.toList.flatMap headNodes ++ ds.toList.flatMap bodyNodes) s :=
    ((hp.sublist (List.sublist_cons_self ..)).perm (nodes_perm ds)).congr (putFuns_vars _).1
      (putFuns_types _)
  have hdis := List.disjoint_of_nodup_append hp₁.nodup
  obtain ⟨hf₁, hd₁⟩ := visited_functionHeaders hm h₁ he₁ hp₁.left
  obtain ⟨hf₂, hd₂⟩ := visited_functionBodies hm hx he hd₁
    (fun d hd a ha => hdis (List.mem_flatMap.mpr ⟨d, hd, ha⟩)) (hp₁.next hf₁)
  refine ⟨(hf₁.trans hf₂).mono fun b hb => ?_, fun p hp' => ?_⟩
  · simp only [nodesOf_cons, nodesOf_nil, List.append_nil, Ast.nodes, List.mem_cons]
    exact .inr ((nodes_perm ds).mem_iff.mpr hb)
  · rw [List.mem_singleton] at hp'
    subst hp'
    intro c hc
    rcases List.mem_cons.mp hc with rfl | hc
    · trivial
    · refine typed_of_done ds (fun d hd => ⟨(hd₁ d hd).frame hf₂ fun b hb => ?_, hd₂ d hd⟩) c hc
      exact hdis (List.mem_flatMap.mpr ⟨d, hd, hb⟩)

/-! ## Chunks of types -/

/-- The body of a type declaration. -/
def tyOf : Ast Addr .typeDec → Ast Addr .ty
  | .typeDec _ _ ty => ty

theorem frame_createNamed (s : TypeChecker) (a : Addr) (x : Symbol) :
    Frame [a] s (s.createNamed a x) where
  types b hb := setDefault_of_ne (by simpa using hb)
  nameds _ h := isSome_setDefault_of_isSome h
  functions _ h := h

theorem frame_namedTypeSet (s : TypeChecker) (a : Addr) (t : Option TypePtr) :
    Frame [] s (s.namedTypeSet a t) where
  types _ _ := rfl
  nameds b h := by
    simp only [namedTypeSet]
    split
    · rename_i hb
      rw [Option.isSome_map, ← hb]
      exact h
    · exact h
  functions _ h := h

theorem visited_typeHeaders {ds : List (Ast Addr .typeDec)}
    (hx : s.visitAll (fun s d => s.typeHeader d) ds = .ok s')
    (hp : (ds.map Ast.typeAddr).Nodup) :
    Frame (ds.map Ast.typeAddr) s s' ∧ ∀ d ∈ ds, s'.TypedNode d := by
  induction ds generalizing s with
  | nil =>
    cases hx
    exact ⟨Frame.refl _ _, nofun⟩
  | cons d ds ih =>
    simp only [visitAll, bind_eq_ok] at hx
    obtain ⟨s₁, h₁, hx⟩ := hx
    cases d with
    | typeDec a x ty =>
      cases h₁
      rw [List.map_cons, List.nodup_cons] at hp
      obtain ⟨hf, hd⟩ := ih hx hp.2
      refine ⟨(frame_createNamed s a x).trans hf, fun d' hd' => ?_⟩
      rcases List.mem_cons.mp hd' with rfl | hd'
      · refine ⟨?_, ?_⟩
        · show (s'.types a).isSome = true
          rw [hf.types a hp.1]
          exact isSome_setDefault
        · rw [createdTypeDec, Option.isSome_map]
          exact hf.nameds a isSome_setDefault
      · exact hd d' hd'

theorem visited_typeBody {d : Ast Addr .typeDec} (h : ρ.Everywhere (Good m) d)
    (hx : s.typeBody n (accept m n) d = .ok s') (he : s'.errors = [])
    (hp : Pre ρ (tyOf d).nodes s) : Frame (tyOf d).nodes s s' ∧ s'.Typed (tyOf d) := by
  cases d with
  | typeDec a x ty =>
    simp only [typeBody, bind_eq_ok] at hx
    obtain ⟨s₁, h₁, c, -, hx⟩ := hx
    cases c
    · cases hx
      simp [errorAndRecover, error, typeSet] at he
    · cases hx
      have v := visited_type (good_of_everywhere h.2) rfl h₁ he (hp.congr rfl rfl)
      have hf := frame_namedTypeSet s₁ a (s₁.createdTy ty)
      exact ⟨(v.frame.trans hf).mono (by simp [tyOf]), (v.typed _ (.head _)).frame hf (by simp)⟩

theorem visited_typeBodies {ds : List (Ast Addr .typeDec)}
    (h : ∀ d ∈ ds, ρ.Everywhere (Good m) d)
    (hx : s.visitAll (fun s d => s.typeBody n (accept m n) d) ds = .ok s')
    (he : s'.errors = []) (hp : Pre ρ (ds.flatMap fun d => (tyOf d).nodes) s) :
    Frame (ds.flatMap fun d => (tyOf d).nodes) s s' ∧ ∀ d ∈ ds, s'.Typed (tyOf d) := by
  induction ds generalizing s with
  | nil =>
    cases hx
    exact ⟨Frame.refl _ _, nofun⟩
  | cons d ds ih =>
    simp only [visitAll, bind_eq_ok] at hx
    obtain ⟨s₁, h₁, hx⟩ := hx
    have he₁ : s₁.errors = [] := errors_eq_nil id (fun hs => Keeps.visitAll hs
      fun d _ s hs => by cases d; exact (errors_keeps n).typeBody hs (accept_errors m n _)) hx he
    rw [List.flatMap_cons] at hp
    obtain ⟨hf₁, hd₁⟩ := visited_typeBody (h d (.head _)) h₁ he₁ hp.left
    obtain ⟨hf₂, hd₂⟩ := ih (fun d hd => h d (.tail _ hd)) hx (hp.next hf₁)
    refine ⟨hf₁.trans hf₂, fun d' hd' => ?_⟩
    rcases List.mem_cons.mp hd' with rfl | hd'
    · exact hd₁.frame hf₂ fun a ha ha' => List.disjoint_of_nodup_append hp.nodup ha ha'
    · exact hd₂ d' hd'

theorem typeNodes_perm : (ds : Ast Addr (.list .typeDec)) →
    ds.nodes.Perm (ds.toList.map Ast.typeAddr ++ ds.toList.flatMap fun d => (tyOf d).nodes)
  | .nil => .refl _
  | .cons (.typeDec a x ty) ds => by
    have hds := typeNodes_perm ds
    simp only [Ast.nodes, Ast.toList_cons, List.flatMap_cons, List.map_cons, tyOf, Ast.typeAddr,
      List.cons_append]
    exact .cons a ((hds.append_left _).trans (List.perm_append_comm_assoc ..))

theorem typed_of_types : (ds : Ast Addr (.list .typeDec)) →
    (∀ d ∈ ds.toList, s.TypedNode d ∧ s.Typed (tyOf d)) → s.Typed ds
  | .nil, _ => fun c hc => by
    rw [Ast.subterms, List.mem_singleton] at hc
    subst hc
    trivial
  | .cons (.typeDec a x ty) ds, h => fun c hc => by
    obtain ⟨hd, hty⟩ := h _ (.head _)
    simp only [Ast.subterms, List.mem_cons, List.mem_append] at hc
    rcases hc with rfl | (rfl | hc) | hc
    · trivial
    · exact hd
    · exact hty c hc
    · exact typed_of_types ds (fun d hd => h d (.tail _ hd)) c hc

theorem good_typeChunk {a : Addr} {ds : Ast Addr (.list .typeDec)}
    (h : (ρ.putTypes ds.toList).Everywhere (Good m) ds) : Good m ρ (.typeChunk a ds) := by
  intro _ n s s' hx he hp
  obtain _ | n := n
  · cases hx
  simp only [accept, visit, bind_eq_ok] at hx
  obtain ⟨s₁, h₁, hx⟩ := hx
  have hp₁ := (hp.sublist (List.sublist_cons_self ..)).perm (typeNodes_perm ds)
  have hdis := List.disjoint_of_nodup_append hp₁.nodup
  obtain ⟨hf₁, hd₁⟩ := visited_typeHeaders h₁ (hp₁.sublist (List.sublist_append_left ..)).nodup
  have hp₂ := hp₁.next hf₁
  have hr : Ready (ρ.putTypes ds.toList) s₁ := hp₂.ready.putTypes fun d hd => by
    have hc := (hd₁ d hd).2
    rwa [createdTypeDec, Option.isSome_map] at hc
  obtain ⟨hf₂, hd₂⟩ := visited_typeBodies (h.of_mem rfl) hx he ⟨hr, hp₂.untyped, hp₂.nodup⟩
  refine ⟨(hf₁.trans hf₂).mono fun b hb => ?_, fun p hp' => ?_⟩
  · simp only [nodesOf_cons, nodesOf_nil, List.append_nil, Ast.nodes, List.mem_cons]
    exact .inr ((typeNodes_perm ds).mem_iff.mpr hb)
  · rw [List.mem_singleton] at hp'
    subst hp'
    intro c hc
    rcases List.mem_cons.mp hc with rfl | hc
    · trivial
    · refine typed_of_types ds (fun d hd => ⟨?_, hd₂ d hd⟩) c hc
      have hn := hdis (List.mem_map_of_mem hd)
      refine ⟨?_, ?_⟩
      · rw [hf₂.types _ hn]
        exact (hd₁ d hd).1
      · have hc := (hd₁ d hd).2
        rw [createdTypeDec, Option.isSome_map] at hc ⊢
        exact hf₂.nameds _ hc

/-! ## Every node -/

theorem good_of_visit {t : Ast Addr k} (h : ∀ n s s', s.visit m n (accept m n) t = .ok s' →
    s'.errors = [] → Pre ρ t.nodes s → Visited [⟨k, t⟩] s s') : Good m ρ t := by
  intro _ n s s' hx he hp
  cases n with
  | zero => cases hx
  | succ n => exact h n s s' hx he hp

/-- A node that gets its type once its parts are visited. -/
theorem Visited.typeSet {t : Ast Addr k} {a : Addr} {u : Option TypePtr} (h : Visited P s s₁)
    (hp : Pre ρ t.nodes s) (hn : t.nodes.Perm (a :: nodesOf P))
    (hs : ∀ c ∈ t.subterms, c = ⟨k, t⟩ ∨ ∃ p ∈ P, c ∈ p.2.subterms)
    (ht : (s₁.typeSet a u).TypedNode t) : Visited [⟨k, t⟩] s (s₁.typeSet a u) :=
  h.node (Frame.typeSet s₁ a u) (hp.perm hn) hn hs ht

/-- A step that changes no type after a visit. -/
theorem Visited.after (h : Visited P s s₁) (hf : Frame [] s₁ s') : Visited P s s' where
  frame := by simpa using h.frame.trans hf
  typed p hp := (h.typed p hp).frame hf (by simp)

theorem isSome_typeSet {a : Addr} {u : Option TypePtr} (h : u.isSome = true) :
    ((s.typeSet a u).types a).isSome = true := by
  simpa [TypeChecker.typeSet] using h

/-- A variable in scope has its type already: its `VarDec` is not visited again. -/
theorem good_simpleVar {a : Addr} {x : Symbol} (h : LexicallyBound m.defs ρ (.simpleVar a x)) :
    Good m ρ (.simpleVar a x) := by
  refine good_of_visit fun n s s' hx he hp => ?_
  obtain ⟨d, hd, hf⟩ := h
  simp only [visit, hf] at hx
  split at hx
  · cases hx
  · rename_i v hv
    have hvd : v.varAddr = d := by simpa using List.find?_some hv
    have ht : (s.typeGet v).isSome = true := by
      rw [← hvd] at hd
      cases v
      exact hp.ready.vars x _ hd
    simp only [type, ht, if_true, ok_bind] at hx
    cases hx
    exact (Visited.nil s).typeSet hp (.refl _) Ast.eq_or_of_mem_subterms (isSome_typeSet ht)

/-- The type a name stands for is created already. -/
theorem good_nameTy {a : Addr} {x : Symbol} (h : LexicallyBound m.defs ρ (.nameTy a x)) :
    Good m ρ (.nameTy a x) := by
  refine good_of_visit fun n s s' hx he hp => ?_
  obtain ⟨hf, hb⟩ := h
  have key {u : Option TypePtr} (hu : u.isSome = true) :
      Visited [⟨.nameTy, .nameTy a x⟩] s (s.typeSet a u) :=
    (Visited.nil s).typeSet hp (.refl _) Ast.eq_or_of_mem_subterms (isSome_typeSet hu)
  simp only [visit] at hx
  split at hx
  · cases hx
    exact key rfl
  · split at hx
    · cases hx
      exact key rfl
    · split at hx
      · rename_i d hd
        cases hx
        refine key ?_
        rw [createdTypeDec, Option.isSome_map]
        exact hp.ready.types x d (hf.symm.trans hd)
      · rename_i h₁ h₂ _ hd
        have hx := hb (hf.symm.trans hd)
        simp only [Symbol.isBuiltin, h₁, h₂, decide_false, Bool.or_self] at hx
        cases hx

/-- The end of `operator()(VarDec)` visits the initialiser and gives the variable a type. -/
theorem visited_checkInit {a : Addr} {t : Option TypePtr} {i : Ast Addr .exp} (hi : Good m ρ i)
    (hx : s.checkInit n (accept m n) a t i = .ok s') (he : s'.errors = [])
    (hp : Pre ρ i.nodes s) :
    ∃ s₁ u, Visited [⟨_, i⟩] s s₁ ∧ s' = s₁.typeSet a u ∧ u.isSome = true := by
  simp only [checkInit, bind_eq_ok] at hx
  obtain ⟨r, h₁, hx⟩ := hx
  split at hx
  · cases hx
  · simp only [bind_eq_ok] at hx
    obtain ⟨s₁, h₂, hx⟩ := hx
    cases hx
    have heq := eq_of_checkTypes h₂ he
    subst heq
    exact ⟨_, _, visited_typeRef hi rfl h₁ he hp, rfl, rfl⟩

theorem visited_visitVarDec {a : Addr} {t : Ast Addr (.opt .nameTy)} {i : Ast Addr (.opt .exp)}
    (ht : ρ.Everywhere (Good m) t) (hi : ρ.Everywhere (Good m) i)
    (hx : s.visitVarDec n (accept m n) a t i = .ok s') (he : s'.errors = [])
    (hp : Pre ρ (nodesOf ([⟨_, t⟩] ++ [⟨_, i⟩])) s) :
    ∃ s₁ u, Visited ([⟨_, t⟩] ++ [⟨_, i⟩]) s s₁ ∧ s' = s₁.typeSet a u ∧ u.isSome = true := by
  have hp₁ : Pre ρ t.nodes s := hp.left.sublist (by simp)
  have hp₂ {s₁ : TypeChecker} (v : Visited [⟨_, t⟩] s s₁) : Pre ρ i.nodes s₁ :=
    (hp.after v).sublist (by simp)
  cases t with
  | none =>
    have v₁ := Visited.optNone (k := .nameTy) s
    cases i with
    | none =>
      cases hx
      simp [error] at he
    | some i =>
      simp only [visitVarDec, bind_eq_ok] at hx
      obtain ⟨s₁, h₁, hx⟩ := hx
      cases hx
      have v₂ := visited_type (good_of_everywhere (t := i) hi) rfl h₁ he (hp₂ v₁)
      exact ⟨s₁, _, v₁.trans hp v₂.optSome, rfl, v₂.typed _ (.head _) _ i.mem_subterms_self⟩
  | some t =>
    have gt := good_of_everywhere (t := t) ht
    cases i with
    | none =>
      simp only [visitVarDec, bind_eq_ok] at hx
      obtain ⟨s₁, h₁, hx⟩ := hx
      cases hx
      have v₁ := visited_type gt rfl h₁ he hp₁
      exact ⟨s₁, _, v₁.optSome.trans hp (.optNone s₁), rfl,
        v₁.typed _ (.head _) _ t.mem_subterms_self⟩
    | some i =>
      simp only [visitVarDec, bind_eq_ok] at hx
      obtain ⟨s₁, h₁, hx⟩ := hx
      have he₁ : s₁.errors = [] := errors_eq_nil id
        (fun hs => (errors_keeps n).checkInit hs (accept_errors m n i)) hx he
      have v₁ := (visited_type gt rfl h₁ he₁ hp₁).optSome
      obtain ⟨s₂, u, v₂, rfl, hu⟩ :=
        visited_checkInit (good_of_everywhere (t := i) hi) hx he (hp₂ v₁)
      exact ⟨s₂, u, v₁.trans hp v₂.optSome, rfl, hu⟩

theorem good_varDec {a : Addr} {x : Symbol} {t : Ast Addr (.opt .nameTy)}
    {i : Ast Addr (.opt .exp)} (ht : (ρ.putEarly x a).Everywhere (Good m) t)
    (hi : (ρ.putEarly x a).Everywhere (Good m) i) : Good m ρ (.varDec a x t i) := by
  refine good_of_visit fun n s s' hx he hp => ?_
  obtain ⟨s₁, u, v, rfl, hu⟩ := visited_visitVarDec ht hi hx he
    ((hp.sublist (by simp [Ast.nodes])).congr rfl rfl)
  refine v.typeSet hp (by simp [Ast.nodes]) ?_ (isSome_typeSet hu)
  simp [Ast.subterms]

theorem visited_checkOperands {a : Addr} {l r : Ast Addr .exp} {op : Oper} (hl : Good m ρ l)
    (hr : Good m ρ r) (hx : s.checkOperands n (accept m n) a l r op = .ok s')
    (he : s'.errors = []) (hp : Pre ρ (nodesOf ([⟨_, l⟩] ++ [⟨_, r⟩])) s) :
    Visited ([⟨_, l⟩] ++ [⟨_, r⟩]) s s' := by
  have hp₂ {s₁ : TypeChecker} (v : Visited [⟨_, l⟩] s s₁) : Pre ρ r.nodes s₁ :=
    (hp.after v).sublist (by simp)
  cases op
  case add | sub | mul | div =>
    simp only [checkOperands, bind_eq_ok] at hx
    obtain ⟨s₁, h₁, hx⟩ := hx
    have he₁ : s₁.errors = [] := errors_eq_nil id
      (fun hs => (errors_keeps n).checkType hs (accept_errors m n r)) hx he
    have v₁ := visited_checkType hl rfl h₁ he₁ (hp.sublist (by simp))
    exact v₁.trans hp (visited_checkType hr rfl hx he (hp₂ v₁))
  case eq | ne => exact visited_checkTypesOf hl rfl hr rfl hx he hp
  all_goals
    simp only [checkOperands, bind_eq_ok] at hx
    obtain ⟨s₁, h₁, hx⟩ := hx
    split at hx
    · cases hx
    · simp only [bind_eq_ok] at hx
      obtain ⟨u, -, hx⟩ := hx
      split at hx
      · cases hx
        simp [errorAndRecover, error, typeSet] at he
      · cases hx
        exact visited_checkTypesOf hl rfl hr rfl h₁ he hp

theorem good_opExp {a : Addr} {l r : Ast Addr .exp} {op : Oper} (hl : Good m ρ l)
    (hr : Good m ρ r) : Good m ρ (.opExp a l op r) := by
  refine good_of_visit fun n s s' hx he hp => ?_
  simp only [visit, bind_eq_ok] at hx
  obtain ⟨s₁, h₁, hx⟩ := hx
  cases hx
  have w := visited_checkOperands hl hr h₁ he (hp.sublist (by simp [Ast.nodes]))
  exact w.typeSet hp (by simp [Ast.nodes]) Ast.eq_or_of_mem_subterms (isSome_typeSet rfl)

theorem good_fieldVar {a : Addr} {v : Ast Addr .var} {x : Symbol} (hv : Good m ρ v) :
    Good m ρ (.fieldVar a v x) := by
  refine good_of_visit fun n s s' hx he hp => ?_
  simp only [visit, bind_eq_ok] at hx
  obtain ⟨s₁, h₁, hx⟩ := hx
  split at hx
  · simp only [bind_eq_ok] at hx
    obtain ⟨u, -, hx⟩ := hx
    cases hx
    have w := visited_type hv rfl h₁ he (hp.sublist (by simp [Ast.nodes]))
    exact w.typeSet hp (by simp [Ast.nodes]) Ast.eq_or_of_mem_subterms (isSome_typeSet rfl)
  · cases hx
    simp [errorAndRecover, error, typeSet] at he

theorem good_subscriptVar {a : Addr} {v : Ast Addr .var} {i : Ast Addr .exp} (hv : Good m ρ v)
    (hi : Good m ρ i) : Good m ρ (.subscriptVar a v i) := by
  refine good_of_visit fun n s s' hx he hp => ?_
  simp only [visit, bind_eq_ok] at hx
  obtain ⟨s₁, h₁, s₂, h₂, hx⟩ := hx
  split at hx
  · cases hx
    have he₁ : s₁.errors = [] := errors_eq_nil id
      (fun hs => Keeps.type hs (accept_errors m n v)) h₂ he
    have hn : (Ast.subscriptVar a v i).nodes.Perm (a :: nodesOf ([⟨_, i⟩] ++ [⟨_, v⟩])) := by
      simpa [Ast.nodes] using List.perm_append_comm
    have hp' := (hp.perm hn).sublist (List.sublist_cons_self ..)
    have w₁ := visited_checkType hi rfl h₁ he₁ (hp'.sublist (by simp))
    have w₂ := visited_type hv rfl h₂ he ((hp'.after w₁).sublist (by simp))
    refine (w₁.trans hp' w₂).typeSet hp hn (fun c hc => ?_) (isSome_typeSet rfl)
    simp only [Ast.subterms, List.mem_cons, List.mem_append] at hc
    simpa [or_comm] using hc
  · cases hx
    simp [errorAndRecover, error, typeSet] at he

theorem good_callExp {a : Addr} {x : Symbol} {args : Ast Addr (.list .exp)}
    (h : ρ.Everywhere (Good m) args) : Good m ρ (.callExp a x args) := by
  refine good_of_visit fun n s s' hx he hp => ?_
  simp only [visit] at hx
  split at hx
  · simp only [bind_eq_ok] at hx
    obtain ⟨s₁, h₁, hx⟩ := hx
    cases hx
    have v := visited_checkCall h h₁ he (hp.sublist (by simp [Ast.nodes]))
    exact v.typeSet hp (by simp [Ast.nodes]) Ast.eq_or_of_mem_subterms (isSome_typeSet rfl)
  · cases hx

theorem good_recordExp {a : Addr} {t : Ast Addr .nameTy} {fs : Ast Addr (.list .fieldInit)}
    (ht : Good m ρ t) (hfs : ρ.Everywhere (Good m) fs) : Good m ρ (.recordExp a t fs) := by
  refine good_of_visit fun n s s' hx he hp => ?_
  simp only [visit, bind_eq_ok] at hx
  obtain ⟨u, -, s₁, h₁, s₂, h₂, hx⟩ := hx
  cases hx
  have he₁ : s₁.errors = [] := errors_eq_nil id
    (fun hs => Keeps.type hs (accept_errors m n t)) h₂ he
  have hn : (Ast.recordExp a t fs).nodes.Perm (a :: nodesOf ([⟨_, fs⟩] ++ [⟨_, t⟩])) := by
    simpa [Ast.nodes] using List.perm_append_comm
  have hp' := (hp.perm hn).sublist (List.sublist_cons_self ..)
  have w₁ := visited_checkRecord hfs h₁ he₁ (hp'.sublist (by simp))
  have w₂ := visited_type ht rfl h₂ he ((hp'.after w₁).sublist (by simp))
  refine (w₁.trans hp' w₂).typeSet hp hn (fun c hc => ?_)
    (isSome_typeSet (w₂.typed _ (.head _) _ t.mem_subterms_self))
  simp only [Ast.subterms, List.mem_cons, List.mem_append] at hc
  simpa [or_comm] using hc

theorem good_seqExp {a : Addr} {es : Ast Addr (.list .exp)} (h : ρ.Everywhere (Good m) es) :
    Good m ρ (.seqExp a es) := by
  refine good_of_visit fun n s s' hx he hp => ?_
  simp only [visit, bind_eq_ok] at hx
  obtain ⟨r, h₁, hx⟩ := hx
  cases hx
  obtain ⟨v, hr⟩ := visited_typeSeq es h h₁ he (hp.sublist (by simp [Ast.nodes])) rfl
  exact v.typeSet hp (by simp [Ast.nodes]) Ast.eq_or_of_mem_subterms (isSome_typeSet hr)

theorem eq_of_checkReadOnly {a : Addr} {v : Ast Addr .var}
    (he : (s.checkReadOnly m a v).errors = []) : s.checkReadOnly m a v = s := by
  cases v with
  | simpleVar u x =>
    simp only [checkReadOnly] at he ⊢
    split
    · rename_i h
      rw [if_pos h] at he
      simp [error] at he
    · rfl
  | _ => rfl

theorem good_assignExp {a : Addr} {v : Ast Addr .var} {e : Ast Addr .exp} (hv : Good m ρ v)
    (hge : Good m ρ e) : Good m ρ (.assignExp a v e) := by
  refine good_of_visit fun n s s' hx he hp => ?_
  simp only [visit, bind_eq_ok] at hx
  obtain ⟨s₁, h₁, hx⟩ := hx
  cases hx
  have he₁ : (s.checkReadOnly m a v).errors = [] := errors_eq_nil id
    (fun hs => (errors_keeps n).checkTypesOf hs (accept_errors m n v) (accept_errors m n e)) h₁ he
  rw [eq_of_checkReadOnly he₁] at h₁
  have w := visited_checkTypesOf hv rfl hge rfl h₁ he (hp.sublist (by simp [Ast.nodes]))
  exact w.typeSet hp (by simp [Ast.nodes]) Ast.eq_or_of_mem_subterms (isSome_typeSet rfl)

theorem good_ifExp {a : Addr} {c t e : Ast Addr .exp} (hc : Good m ρ c) (ht : Good m ρ t)
    (hge : Good m ρ e) : Good m ρ (.ifExp a c t e) := by
  refine good_of_visit fun n s s' hx he hp => ?_
  simp only [visit, bind_eq_ok] at hx
  obtain ⟨s₁, h₁, s₂, h₂, hx⟩ := hx
  cases hx
  have he₁ : s₁.errors = [] := errors_eq_nil id
    (fun hs => (errors_keeps n).checkTypesOf hs (accept_errors m n t) (accept_errors m n e)) h₂ he
  have hp' : Pre ρ (nodesOf ([⟨_, c⟩] ++ [⟨_, t⟩, ⟨_, e⟩])) s := hp.sublist (by simp [Ast.nodes])
  have w₁ := visited_checkType hc rfl h₁ he₁ (hp'.sublist (by simp))
  have w₂ := visited_checkTypesOf ht rfl hge rfl h₂ he (hp'.after w₁)
  refine (w₁.trans hp' w₂).typeSet hp (by simp [Ast.nodes]) Ast.eq_or_of_mem_subterms ?_
  exact isSome_typeSet (w₂.typed _ (.head _) _ t.mem_subterms_self)

theorem good_whileExp {a : Addr} {c body : Ast Addr .exp} (hc : Good m ρ.putAside c)
    (hb : Good m ρ body) : Good m ρ (.whileExp a c body) := by
  refine good_of_visit fun n s s' hx he hp => ?_
  simp only [visit, bind_eq_ok] at hx
  obtain ⟨s₁, h₁, s₂, h₂, hx⟩ := hx
  cases hx
  have he₁ : s₁.errors = [] := errors_eq_nil id
    (fun hs => (errors_keeps n).checkType hs (accept_errors m n body)) h₂ he
  have hp' : Pre ρ (nodesOf ([⟨_, c⟩] ++ [⟨_, body⟩])) s := hp.sublist (by simp [Ast.nodes])
  have w₁ := visited_checkType hc rfl h₁ he₁ ((hp'.sublist (by simp)).congr rfl rfl)
  have w₂ := visited_checkType hb rfl h₂ he ((hp'.after w₁).sublist (by simp))
  exact (w₁.trans hp' w₂).typeSet hp (by simp [Ast.nodes]) Ast.eq_or_of_mem_subterms
    (isSome_typeSet rfl)

/-- What a declaring part makes visible, after its visit. -/
theorem Pre.afterDec {t : Ast Addr k} (hp : Pre ρ (nodesOf ([⟨k, t⟩] ++ Q)) s)
    (h : Visited [⟨k, t⟩] s s₁) : Pre (ρ.after t) (nodesOf Q) s₁ :=
  have hp := Pre.after (P := [⟨k, t⟩]) hp h
  ⟨hp.ready.after (h.typed _ (.head _)), hp.untyped, hp.nodup⟩

theorem good_letExp {a : Addr} {cs : Ast Addr .chunkList} {body : Ast Addr .exp}
    (hcs : Good m ρ cs) (hb : Good m (ρ.after cs) body) : Good m ρ (.letExp a cs body) := by
  refine good_of_visit fun n s s' hx he hp => ?_
  simp only [visit, bind_eq_ok] at hx
  obtain ⟨s₁, h₁, s₂, h₂, hx⟩ := hx
  cases hx
  have he₁ : s₁.errors = [] := errors_eq_nil id
    (fun hs => Keeps.type hs (accept_errors m n body)) h₂ he
  have hp' : Pre ρ (nodesOf ([⟨_, cs⟩] ++ [⟨_, body⟩])) s := hp.sublist (by simp [Ast.nodes])
  have w₁ := hcs rfl n s s₁ h₁ he₁ (hp'.sublist (by simp))
  have w₂ := visited_type hb rfl h₂ he ((hp'.afterDec w₁).sublist (by simp))
  exact (w₁.trans hp' w₂).typeSet hp (by simp [Ast.nodes]) Ast.eq_or_of_mem_subterms
    (isSome_typeSet (w₂.typed _ (.head _) _ body.mem_subterms_self))

theorem good_forExp {a : Addr} {d : Ast Addr .varDec} {hi body : Ast Addr .exp}
    (hd : Good m ρ d) (hhi : Good m (ρ.putEarly d.varName d.varAddr) hi)
    (hb : Good m (ρ.after d) body) : Good m ρ (.forExp a d hi body) := by
  refine good_of_visit fun n s s' hx he hp => ?_
  simp only [visit, bind_eq_ok] at hx
  obtain ⟨s₁, h₁, s₂, h₂, s₃, h₃, hx⟩ := hx
  cases hx
  have he₂ : s₂.errors = [] := errors_eq_nil id
    (fun hs => (errors_keeps n).checkType (s := { s₂ with readOnly := d.varAddr :: s₂.readOnly })
      hs (accept_errors m n body)) h₃ he
  have he₁ : s₁.errors = [] := errors_eq_nil id
    (fun hs => (errors_keeps n).checkType hs (accept_errors m n hi)) h₂ he₂
  have hp' : Pre ρ (nodesOf ([⟨_, d⟩] ++ ([⟨_, hi⟩] ++ [⟨_, body⟩]))) s :=
    hp.sublist (by simp [Ast.nodes])
  have w₁ := visited_checkType hd rfl h₁ he₁ (hp'.sublist (by simp))
  have hp₁ := hp'.afterDec w₁
  have hp₂ : Pre (ρ.putEarly d.varName d.varAddr) hi.nodes s₁ :=
    ((hp'.after w₁).sublist (by simp)).congr rfl rfl
  have w₂ := visited_checkType hhi rfl h₂ he₂ hp₂
  have hf : Frame [] s₂ { s₂ with readOnly := d.varAddr :: s₂.readOnly } :=
    ⟨fun _ _ => rfl, fun _ h => h, fun _ h => h⟩
  have w₂' := w₂.after hf
  have w₃ := visited_checkType hb rfl h₃ he ((hp₁.after w₂').sublist (by simp))
  exact (w₁.trans hp' (w₂'.trans hp₁ w₃)).typeSet hp (by simp [Ast.nodes]) Ast.eq_or_of_mem_subterms
    (isSome_typeSet rfl)

theorem good_arrayExp {a : Addr} {t : Ast Addr .nameTy} {size i : Ast Addr .exp}
    (ht : Good m ρ t) (hsize : Good m ρ size) (hi : Good m ρ i) :
    Good m ρ (.arrayExp a t size i) := by
  refine good_of_visit fun n s s' hx he hp => ?_
  simp only [visit, bind_eq_ok] at hx
  obtain ⟨r, h₁, s₂, h₂, s₃, h₃, hx⟩ := hx
  cases hx
  have he₂ : s₂.errors = [] := errors_eq_nil id
    (fun hs => (errors_keeps n).checkTypesOf hs (accept_errors m n t) (accept_errors m n i)) h₃ he
  have heq := eq_of_checkTypes h₂ he₂
  subst heq
  have hn : (Ast.arrayExp a t size i).nodes.Perm
      (a :: nodesOf ([⟨_, size⟩] ++ [⟨_, t⟩, ⟨_, i⟩])) := by
    simpa [Ast.nodes] using List.perm_append_comm_assoc ..
  have hp' := (hp.perm hn).sublist (List.sublist_cons_self ..)
  have w₁ := visited_typeRef hsize rfl h₁ he₂ (hp'.sublist (by simp))
  have w₂ := visited_checkTypesOf ht rfl hi rfl h₃ he (hp'.after w₁)
  refine (w₁.trans hp' w₂).typeSet hp hn (fun c hc => ?_)
    (isSome_typeSet (w₂.typed _ (.head _) _ t.mem_subterms_self))
  simp only [Ast.subterms, List.mem_cons, List.mem_append] at hc
  simpa [or_assoc, or_left_comm] using hc

theorem good_recordTy {a : Addr} {fs : Ast Addr (.list .field)} (h : ρ.Everywhere (Good m) fs) :
    Good m ρ (.recordTy a fs) := by
  refine good_of_visit fun n s s' hx he hp => ?_
  simp only [visit, bind_eq_ok] at hx
  obtain ⟨r, h₁, hx⟩ := hx
  cases hx
  have v := visited_fields fs h h₁ he (hp.sublist (by simp [Ast.nodes]))
  refine v.node (a := a) ⟨fun b hb => ?_, fun _ h => h, fun _ h => h⟩
    (hp.perm (by simp [Ast.nodes]))
    (by simp [Ast.nodes]) Ast.eq_or_of_mem_subterms isSome_setDefault
  exact setDefault_of_ne (by simpa using hb)

theorem good_arrayTy {a : Addr} {t : Ast Addr .nameTy} (h : Good m ρ t) :
    Good m ρ (.arrayTy a t) := by
  refine good_of_visit fun n s s' hx he hp => ?_
  simp only [visit, bind_eq_ok] at hx
  obtain ⟨r, h₁, hx⟩ := hx
  cases hx
  have v := visited_typeRef h rfl h₁ he (hp.sublist (by simp [Ast.nodes]))
  refine v.node (a := a) ⟨fun b hb => ?_, fun _ h => h, fun _ h => h⟩
    (hp.perm (by simp [Ast.nodes]))
    (by simp [Ast.nodes]) Ast.eq_or_of_mem_subterms isSome_setDefault
  exact setDefault_of_ne (by simpa using hb)

/-- A class whose method is the loop over its elements. -/
theorem good_of_visitAll {t : Ast Addr k} {a : Addr} {ds : Ast Addr (.list j)}
    (hj : HasMethod j = true) (h : ρ.Everywhere (Good m) ds)
    (hv : ∀ n (s : TypeChecker),
      s.visit m n (accept m n) t = s.visitAll (fun s d => accept m n d s) ds.toList)
    (hn : t.nodes = a :: ds.nodes) (hs : t.subterms = ⟨k, t⟩ :: ds.subterms)
    (ht : ∀ s : TypeChecker, s.TypedNode t) : Good m ρ t := by
  refine good_of_visit fun n s s' hx he hp => ?_
  rw [hv] at hx
  have v := visited_visitAll hj ds h hx he (hp.sublist (by simp [hn]))
  exact v.node (Frame.refl [a] _) (hp.perm (by simp [hn])) (by simp [hn]) (by simp [hs]) (ht _)

/-- Every node of a bound tree is visited as it is to be. -/
theorem good_of_bound {t : Ast Addr k} (h : ρ.Everywhere (LexicallyBound m.defs) t)
    (hc : NoCast t) : ρ.Everywhere (Good m) t := by
  induction t generalizing ρ with
  | nil | none => trivial
  | nilExp a | intExp a | stringExp a | breakExp a =>
    refine good_of_visit fun n s s' hx he hp => ?_
    cases hx
    exact (Visited.nil s).typeSet hp (.refl _) Ast.eq_or_of_mem_subterms (isSome_typeSet rfl)
  | simpleVar a x => exact good_simpleVar h
  | nameTy a x => exact good_nameTy h
  | some x ih | ofVar x ih | ofNameTy x ih | ofVarChunk x ih =>
    exact ih h (hc.part (Ast.mem_first rfl))
  | cons x xs ih₁ ih₂ =>
    exact ⟨ih₁ h.1 (hc.part (Ast.mem_first rfl)), ih₂ h.2 (hc.part (Ast.mem_second rfl))⟩
  | field _ _ _ ih | fieldInit _ _ _ ih | typeDec _ _ _ ih =>
    exact ⟨nofun, ih h.2 (hc.part (Ast.mem_first rfl))⟩
  | functionDec _ _ _ _ _ ih₁ ih₂ ih₃ =>
    exact ⟨nofun, ih₁ h.2.1 (hc.part (Ast.mem_first rfl)),
      ih₂ h.2.2.1 (hc.part (Ast.mem_second rfl)),
      ih₃ h.2.2.2 (hc.part (Ast.mem_third rfl))⟩
  | fieldVar a v x ih =>
    have hv := ih h.2 (hc.part (Ast.mem_first rfl))
    exact ⟨good_fieldVar (good_of_everywhere hv), hv⟩
  | callExp a x args ih =>
    have hargs := ih h.2 (hc.part (Ast.mem_first rfl))
    exact ⟨good_callExp hargs, hargs⟩
  | seqExp a es ih =>
    have hes := ih h.2 (hc.part (Ast.mem_first rfl))
    exact ⟨good_seqExp hes, hes⟩
  | recordTy a fs ih =>
    have hfs := ih h.2 (hc.part (Ast.mem_first rfl))
    exact ⟨good_recordTy hfs, hfs⟩
  | arrayTy a t ih =>
    have ht := ih h.2 (hc.part (Ast.mem_first rfl))
    exact ⟨good_arrayTy (good_of_everywhere ht), ht⟩
  | functionChunk a ds ih =>
    have hds := ih h.2 (hc.part (Ast.mem_first rfl))
    exact ⟨good_functionChunk hds, hds⟩
  | typeChunk a ds ih =>
    have hds := ih h.2 (hc.part (Ast.mem_first rfl))
    exact ⟨good_typeChunk hds, hds⟩
  | varChunk a ds ih | chunkList a ds ih =>
    have hds := ih h.2 (hc.part (Ast.mem_first rfl))
    exact ⟨good_of_visitAll rfl hds (fun _ _ => rfl) rfl rfl fun _ => trivial, hds⟩
  | subscriptVar a v i ih₁ ih₂ =>
    have h₁ := ih₁ h.2.1 (hc.part (Ast.mem_first rfl))
    have h₂ := ih₂ h.2.2 (hc.part (Ast.mem_second rfl))
    exact ⟨good_subscriptVar (good_of_everywhere h₁) (good_of_everywhere h₂), h₁, h₂⟩
  | opExp a l op r ih₁ ih₂ =>
    have h₁ := ih₁ h.2.1 (hc.part (Ast.mem_first rfl))
    have h₂ := ih₂ h.2.2 (hc.part (Ast.mem_second rfl))
    exact ⟨good_opExp (good_of_everywhere h₁) (good_of_everywhere h₂), h₁, h₂⟩
  | recordExp a t fs ih₁ ih₂ =>
    have h₁ := ih₁ h.2.1 (hc.part (Ast.mem_first rfl))
    have h₂ := ih₂ h.2.2 (hc.part (Ast.mem_second rfl))
    exact ⟨good_recordExp (good_of_everywhere h₁) h₂, h₁, h₂⟩
  | assignExp a v e ih₁ ih₂ =>
    have h₁ := ih₁ h.2.1 (hc.part (Ast.mem_first rfl))
    have h₂ := ih₂ h.2.2 (hc.part (Ast.mem_second rfl))
    exact ⟨good_assignExp (good_of_everywhere h₁) (good_of_everywhere h₂), h₁, h₂⟩
  | whileExp a c body ih₁ ih₂ =>
    have h₁ := ih₁ h.2.1 (hc.part (Ast.mem_first rfl))
    have h₂ := ih₂ h.2.2 (hc.part (Ast.mem_second rfl))
    exact ⟨good_whileExp (good_of_everywhere h₁) (good_of_everywhere h₂), h₁, h₂⟩
  | letExp a cs body ih₁ ih₂ =>
    have h₁ := ih₁ h.2.1 (hc.part (Ast.mem_first rfl))
    have h₂ := ih₂ h.2.2 (hc.part (Ast.mem_second rfl))
    exact ⟨good_letExp (good_of_everywhere h₁) (good_of_everywhere h₂), h₁, h₂⟩
  | castExp a e ty => exact absurd (Ast.mem_subterms_self _) (hc a e ty)
  | varDec a x t i ih₁ ih₂ =>
    have h₁ := ih₁ h.2.1 (hc.part (Ast.mem_first rfl))
    have h₂ := ih₂ h.2.2 (hc.part (Ast.mem_second rfl))
    exact ⟨good_varDec h₁ h₂, h₁, h₂⟩
  | ifExp a c t e ih₁ ih₂ ih₃ =>
    have h₁ := ih₁ h.2.1 (hc.part (Ast.mem_first rfl))
    have h₂ := ih₂ h.2.2.1 (hc.part (Ast.mem_second rfl))
    have h₃ := ih₃ h.2.2.2 (hc.part (Ast.mem_third rfl))
    exact ⟨good_ifExp (good_of_everywhere h₁) (good_of_everywhere h₂) (good_of_everywhere h₃),
      h₁, h₂, h₃⟩
  | forExp a d hi body ih₁ ih₂ ih₃ =>
    have h₁ := ih₁ h.2.1 (hc.part (Ast.mem_first rfl))
    have h₂ := ih₂ h.2.2.1 (hc.part (Ast.mem_second rfl))
    have h₃ := ih₃ h.2.2.2 (hc.part (Ast.mem_third rfl))
    exact ⟨good_forExp (good_of_everywhere h₁) (good_of_everywhere h₂) (good_of_everywhere h₃),
      h₁, h₂, h₃⟩
  | arrayExp a t size i ih₁ ih₂ ih₃ =>
    have h₁ := ih₁ h.2.1 (hc.part (Ast.mem_first rfl))
    have h₂ := ih₂ h.2.2.1 (hc.part (Ast.mem_second rfl))
    have h₃ := ih₃ h.2.2.2 (hc.part (Ast.mem_third rfl))
    exact ⟨good_arrayExp (good_of_everywhere h₁) (good_of_everywhere h₂) (good_of_everywhere h₃),
      h₁, h₂, h₃⟩

end TypeChecker

/-- **Every node of a correctly bound program has its type once the checker has ended with no
error.** -/
theorem typed_of_typesCheck {program : Ast Addr .chunkList} {f : Addr → Option Addr} {n : Nat}
    {s : TypeChecker} (hn : program.nodes.Nodup) (hc : NoCast program)
    (hb : ({} : Scope).Everywhere (LexicallyBound f) program)
    (h : typesCheck ⟨f, program.varDecs, program.typeDecs⟩ n program = .ok s)
    (he : s.errors = []) : s.Typed program := by
  have hg := TypeChecker.good_of_everywhere
    (TypeChecker.good_of_bound (m := ⟨f, program.varDecs, program.typeDecs⟩) hb hc)
  have v := hg rfl n {} s h he ⟨⟨nofun, nofun⟩, fun _ _ => rfl, hn⟩
  exact v.typed _ (.head _)

/-- `let var a := 0 in a end` gets all its types. -/
theorem usedInBody_typed : ∃ s,
    typesCheck ⟨fun a => if a = 11 then some 8 else none, Binder.usedInBody.varDecs,
      Binder.usedInBody.typeDecs⟩ 20 Binder.usedInBody = .ok s ∧ s.Typed Binder.usedInBody := by
  have h : (typesCheck ⟨fun a => if a = 11 then some 8 else none, Binder.usedInBody.varDecs,
      Binder.usedInBody.typeDecs⟩ 20 Binder.usedInBody).toOption.map (·.errors) = some [] := by
    decide
  cases hs : typesCheck ⟨fun a => if a = 11 then some 8 else none, Binder.usedInBody.varDecs,
      Binder.usedInBody.typeDecs⟩ 20 Binder.usedInBody with
  | error e => simp [hs, Except.toOption] at h
  | ok s =>
    simp only [hs, Except.toOption, Option.map_some, Option.some.injEq] at h
    refine ⟨s, rfl, typed_of_typesCheck (by decide) ?_ ?_ hs h⟩
    · intro a e ty hc
      simp [Binder.usedInBody, Ast.ofList, Ast.subterms] at hc
    · simp [Binder.usedInBody, Ast.ofList, Scope.Everywhere, LexicallyBound, Scope.after,
        Scope.putVar]

end TigerCompiler
