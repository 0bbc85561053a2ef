import TigerCompiler.Ast.Syntax
import Mathlib.Data.List.Sublists

/-!
# `ast::GenDefaultVisitor`

The traversal the passes inherit.  A pass overrides some of the methods; `accept` calls the method
of the class of the node, and the inherited method of a node has its children accept the visitor.
Every node of the tree gets its method called once, parents before children, whatever the pass
does in it as long as it delegates (`Visitor.complete`).
-/

namespace TigerCompiler

variable {α : Type} {k : Kind}

namespace Ast

/-! ## Nodes and their children -/

/-- The nodes a member stands for: none if it is null, each element of a collection. -/
def heads : {k : Kind} → Ast α k → List (Σ k, Ast α k)
  | _, .nil => []
  | _, .cons x xs => x.heads ++ xs.heads
  | _, .none => []
  | _, .some x => x.heads
  | _, .ofVar v => v.heads
  | _, .ofNameTy n => n.heads
  | _, .ofVarChunk c => c.heads
  | _, t => [⟨_, t⟩]

/-- The nodes that the members of a node stand for. -/
def children : {k : Kind} → Ast α k → List (Σ k, Ast α k)
  | _, .fieldVar _ var _ => var.heads
  | _, .subscriptVar _ var index => var.heads ++ index.heads
  | _, .callExp _ _ args => args.heads
  | _, .opExp _ left _ right => left.heads ++ right.heads
  | _, .recordExp _ typeName fields => typeName.heads ++ fields.heads
  | _, .seqExp _ exps => exps.heads
  | _, .assignExp _ var exp => var.heads ++ exp.heads
  | _, .ifExp _ test thenclause elseclause =>
    test.heads ++ thenclause.heads ++ elseclause.heads
  | _, .whileExp _ test body => test.heads ++ body.heads
  | _, .forExp _ vardec hi body => vardec.heads ++ hi.heads ++ body.heads
  | _, .letExp _ chunks body => chunks.heads ++ body.heads
  | _, .arrayExp _ typeName size init => typeName.heads ++ size.heads ++ init.heads
  | _, .castExp _ exp ty => exp.heads ++ ty.heads
  | _, .recordTy _ fields => fields.heads
  | _, .arrayTy _ baseType => baseType.heads
  | _, .field _ _ typeName => typeName.heads
  | _, .fieldInit _ _ init => init.heads
  | _, .varDec _ _ typeName init => typeName.heads ++ init.heads
  | _, .functionDec _ _ formals result body => formals.heads ++ result.heads ++ body.heads
  | _, .typeDec _ _ ty => ty.heads
  | _, .varChunk _ decs => decs.heads
  | _, .functionChunk _ decs => decs.heads
  | _, .typeChunk _ decs => decs.heads
  | _, .chunkList _ chunks => chunks.heads
  | _, _ => []

/-- The nodes of a tree: those it stands for, and the children of its nodes. -/
inductive Within (t : Ast α k) : (Σ k, Ast α k) → Prop
  | head {c : Σ k, Ast α k} (hc : c ∈ t.heads) : Within t c
  | child {p c : Σ k, Ast α k} (hp : Within t p) (hc : c ∈ p.2.children) : Within t c

variable {t : Ast α k} {c : Σ k, Ast α k}

/-- The parts of a part come in the same order in the tree. -/
theorem subterms_sublist (h : c ∈ t.subterms) : c.2.subterms.Sublist t.subterms := by
  induction t with
  | nil | none | simpleVar | nilExp | intExp | stringExp | breakExp | nameTy =>
    cases List.mem_singleton.mp h
    exact List.Sublist.refl _
  | some _ ih | ofVar _ ih | ofNameTy _ ih | ofVarChunk _ ih | fieldVar _ _ _ ih
  | callExp _ _ _ ih | seqExp _ _ ih | recordTy _ _ ih | arrayTy _ _ ih | field _ _ _ ih
  | fieldInit _ _ _ ih | typeDec _ _ _ ih | varChunk _ _ ih | functionChunk _ _ ih
  | typeChunk _ _ ih | chunkList _ _ ih =>
    rcases List.mem_cons.mp h with rfl | h
    · exact List.Sublist.refl _
    · exact (ih h).cons _
  | cons _ _ ih₁ ih₂ | subscriptVar _ _ _ ih₁ ih₂ | opExp _ _ _ _ ih₁ ih₂
  | recordExp _ _ _ ih₁ ih₂ | assignExp _ _ _ ih₁ ih₂ | whileExp _ _ _ ih₁ ih₂
  | letExp _ _ _ ih₁ ih₂ | castExp _ _ _ ih₁ ih₂ | varDec _ _ _ _ ih₁ ih₂ =>
    rcases List.mem_cons.mp h with rfl | h
    · exact List.Sublist.refl _
    · refine List.Sublist.cons _ ?_
      rcases List.mem_append.mp h with h | h
      · exact (ih₁ h).trans (List.sublist_append_left _ _)
      · exact (ih₂ h).trans (List.sublist_append_right _ _)
  | ifExp _ _ _ _ ih₁ ih₂ ih₃ | forExp _ _ _ _ ih₁ ih₂ ih₃ | arrayExp _ _ _ _ ih₁ ih₂ ih₃
  | functionDec _ _ _ _ _ ih₁ ih₂ ih₃ =>
    rcases List.mem_cons.mp h with rfl | h
    · exact List.Sublist.refl _
    · refine List.Sublist.cons _ ?_
      rcases List.mem_append.mp h with h | h
      · refine List.Sublist.trans ?_ (List.sublist_append_left _ _)
        rcases List.mem_append.mp h with h | h
        · exact (ih₁ h).trans (List.sublist_append_left _ _)
        · exact (ih₂ h).trans (List.sublist_append_right _ _)
      · exact (ih₃ h).trans (List.sublist_append_right _ _)

/-- What a member stands for is a node of it. -/
theorem mem_of_mem_heads (h : c ∈ t.heads) : c ∈ t.subterms ∧ c.2.isNode = true := by
  induction t with
  | nil | none => cases h
  | some _ ih | ofVar _ ih | ofNameTy _ ih | ofVarChunk _ ih => exact (ih h).imp_left (.tail _)
  | cons _ _ ih₁ ih₂ =>
    rcases List.mem_append.mp h with h | h
    · exact (ih₁ h).imp_left fun h => .tail _ (List.mem_append_left _ h)
    · exact (ih₂ h).imp_left fun h => .tail _ (List.mem_append_right _ h)
  | _ =>
    cases List.mem_singleton.mp h
    exact ⟨mem_subterms_self _, rfl⟩

/-- The children of a node are nodes among its parts after it. -/
theorem mem_of_mem_children (h : c ∈ t.children) :
    ∃ cs, t.subterms = ⟨k, t⟩ :: cs ∧ c ∈ cs ∧ c.2.isNode = true := by
  have hleft {u v : List (Σ k, Ast α k)} (h : c ∈ u ∧ c.2.isNode = true) :
      c ∈ u ++ v ∧ c.2.isNode = true := h.imp_left (List.mem_append_left _)
  have hright {u v : List (Σ k, Ast α k)} (h : c ∈ v ∧ c.2.isNode = true) :
      c ∈ u ++ v ∧ c.2.isNode = true := h.imp_left (List.mem_append_right _)
  cases t with
  | nil | cons | none | some | ofVar | ofNameTy | ofVarChunk => cases h
  | simpleVar | nilExp | intExp | stringExp | breakExp | nameTy => cases h
  | fieldVar | callExp | seqExp | recordTy | arrayTy | field | fieldInit | typeDec | varChunk
  | functionChunk | typeChunk | chunkList => exact ⟨_, rfl, mem_of_mem_heads h⟩
  | subscriptVar | opExp | recordExp | assignExp | whileExp | letExp | castExp | varDec =>
    rcases List.mem_append.mp h with h | h
    · exact ⟨_, rfl, hleft (mem_of_mem_heads h)⟩
    · exact ⟨_, rfl, hright (mem_of_mem_heads h)⟩
  | ifExp | forExp | arrayExp | functionDec =>
    rcases List.mem_append.mp h with h | h
    · rcases List.mem_append.mp h with h | h
      · exact ⟨_, rfl, hleft (hleft (mem_of_mem_heads h))⟩
      · exact ⟨_, rfl, hleft (hright (mem_of_mem_heads h))⟩
    · exact ⟨_, rfl, hright (mem_of_mem_heads h)⟩

/-- Every node of a tree is one of its parts. -/
theorem Within.mem (h : Within t c) : c ∈ t.subterms ∧ c.2.isNode = true := by
  induction h with
  | head hc => exact mem_of_mem_heads hc
  | @child p c _ hc ih =>
    obtain ⟨cs, hcs, hmem, hnode⟩ := mem_of_mem_children hc
    refine ⟨(subterms_sublist ih.1).subset ?_, hnode⟩
    rw [hcs]
    exact .tail _ hmem

/-- The nodes of a tree whose nodes are nodes of another are nodes of that. -/
theorem Within.trans {j : Kind} {u : Ast α j} (hu : ∀ c ∈ u.heads, Within t c)
    (h : Within u c) : Within t c := by
  induction h with
  | head hc => exact hu _ hc
  | child _ hc ih => exact .child ih hc

/-- The nodes of a member of a node are nodes of the tree. -/
theorem Within.member {j : Kind} {u : Ast α j} (ht : t.heads = [⟨k, t⟩])
    (hu : u.heads ⊆ t.children) (h : Within u c) : Within t c := by
  have hself : Within t ⟨k, t⟩ := .head (ht ▸ .head _)
  exact h.trans fun d hd => .child hself (hu hd)

/-- Every part of a tree that is a node is one of its nodes. -/
theorem within_of_mem (h : c ∈ t.subterms) (hc : c.2.isNode = true) : Within t c := by
  induction t with
  | nil | none =>
    cases List.mem_singleton.mp h
    cases hc
  | some _ ih | ofVar _ ih | ofNameTy _ ih | ofVarChunk _ ih =>
    rcases List.mem_cons.mp h with rfl | h
    · cases hc
    · refine Within.trans ?_ (ih h)
      exact fun d hd => .head hd
  | cons _ _ ih₁ ih₂ =>
    rcases List.mem_cons.mp h with rfl | h
    · cases hc
    · rcases List.mem_append.mp h with h | h
      · exact (ih₁ h).trans fun d hd => .head (List.mem_append_left _ hd)
      · exact (ih₂ h).trans fun d hd => .head (List.mem_append_right _ hd)
  | simpleVar | nilExp | intExp | stringExp | breakExp | nameTy =>
    cases List.mem_singleton.mp h
    exact .head (.head _)
  | fieldVar _ _ _ ih | callExp _ _ _ ih | seqExp _ _ ih | recordTy _ _ ih | arrayTy _ _ ih
  | field _ _ _ ih | fieldInit _ _ _ ih | typeDec _ _ _ ih | varChunk _ _ ih
  | functionChunk _ _ ih | typeChunk _ _ ih | chunkList _ _ ih =>
    rcases List.mem_cons.mp h with rfl | h
    · exact .head (.head _)
    · exact (ih h).member rfl (List.Subset.refl _)
  | subscriptVar _ _ _ ih₁ ih₂ | opExp _ _ _ _ ih₁ ih₂ | recordExp _ _ _ ih₁ ih₂
  | assignExp _ _ _ ih₁ ih₂ | whileExp _ _ _ ih₁ ih₂ | letExp _ _ _ ih₁ ih₂
  | castExp _ _ _ ih₁ ih₂ | varDec _ _ _ _ ih₁ ih₂ =>
    rcases List.mem_cons.mp h with rfl | h
    · exact .head (.head _)
    · rcases List.mem_append.mp h with h | h
      · exact (ih₁ h).member rfl (List.subset_append_left _ _)
      · exact (ih₂ h).member rfl (List.subset_append_right _ _)
  | ifExp _ _ _ _ ih₁ ih₂ ih₃ | forExp _ _ _ _ ih₁ ih₂ ih₃ | arrayExp _ _ _ _ ih₁ ih₂ ih₃
  | functionDec _ _ _ _ _ ih₁ ih₂ ih₃ =>
    rcases List.mem_cons.mp h with rfl | h
    · exact .head (.head _)
    · have hboth {u v w : List (Σ k, Ast α k)} : u ++ v ⊆ u ++ v ++ w :=
        List.subset_append_left _ _
      rcases List.mem_append.mp h with h | h
      · rcases List.mem_append.mp h with h | h
        · exact (ih₁ h).member rfl (List.Subset.trans (List.subset_append_left _ _) hboth)
        · exact (ih₂ h).member rfl (List.Subset.trans (List.subset_append_right _ _) hboth)
      · exact (ih₃ h).member rfl (List.subset_append_right _ _)

end Ast

/-! ## The visitor -/

/-- A visitor: what its method does on a node, given the inherited method. -/
structure Visitor (α : Type) (m : Type → Type) where
  call : (Σ k, Ast α k) → m Unit → m Unit

namespace Visitor

variable {m : Type → Type} [Monad m]

/-- `accept`: the method of the class of the node is called; the inherited one is that of
`GenDefaultVisitor`.  A null pointer is skipped, and a loop goes over a collection. -/
def accept (v : Visitor α m) : {k : Kind} → Ast α k → m Unit
  | _, .nil => pure ()
  | _, .cons x xs => do v.accept x; v.accept xs
  | _, .none => pure ()
  | _, .some x => v.accept x
  | _, .ofVar x => v.accept x
  | _, .ofNameTy x => v.accept x
  | _, .ofVarChunk x => v.accept x
  | _, t@(.simpleVar _ _) => v.call ⟨_, t⟩ (pure ())
  | _, t@(.fieldVar _ var _) => v.call ⟨_, t⟩ (v.accept var)
  | _, t@(.subscriptVar _ var index) => v.call ⟨_, t⟩ do v.accept var; v.accept index
  | _, t@(.nilExp _) => v.call ⟨_, t⟩ (pure ())
  | _, t@(.intExp _ _) => v.call ⟨_, t⟩ (pure ())
  | _, t@(.stringExp _ _) => v.call ⟨_, t⟩ (pure ())
  | _, t@(.callExp _ _ args) => v.call ⟨_, t⟩ (v.accept args)
  | _, t@(.opExp _ left _ right) => v.call ⟨_, t⟩ do v.accept left; v.accept right
  | _, t@(.recordExp _ typeName fields) =>
    v.call ⟨_, t⟩ do v.accept typeName; v.accept fields
  | _, t@(.seqExp _ exps) => v.call ⟨_, t⟩ (v.accept exps)
  | _, t@(.assignExp _ var exp) => v.call ⟨_, t⟩ do v.accept var; v.accept exp
  | _, t@(.ifExp _ test thenclause elseclause) =>
    v.call ⟨_, t⟩ do v.accept test; v.accept thenclause; v.accept elseclause
  | _, t@(.whileExp _ test body) => v.call ⟨_, t⟩ do v.accept test; v.accept body
  | _, t@(.forExp _ vardec hi body) =>
    v.call ⟨_, t⟩ do v.accept vardec; v.accept hi; v.accept body
  | _, t@(.breakExp _) => v.call ⟨_, t⟩ (pure ())
  | _, t@(.letExp _ chunks body) => v.call ⟨_, t⟩ do v.accept chunks; v.accept body
  | _, t@(.arrayExp _ typeName size init) =>
    v.call ⟨_, t⟩ do v.accept typeName; v.accept size; v.accept init
  | _, t@(.castExp _ exp ty) => v.call ⟨_, t⟩ do v.accept exp; v.accept ty
  | _, t@(.nameTy _ _) => v.call ⟨_, t⟩ (pure ())
  | _, t@(.recordTy _ fields) => v.call ⟨_, t⟩ (v.accept fields)
  | _, t@(.arrayTy _ baseType) => v.call ⟨_, t⟩ (v.accept baseType)
  | _, t@(.field _ _ typeName) => v.call ⟨_, t⟩ (v.accept typeName)
  | _, t@(.fieldInit _ _ init) => v.call ⟨_, t⟩ (v.accept init)
  | _, t@(.varDec _ _ typeName init) => v.call ⟨_, t⟩ do v.accept typeName; v.accept init
  | _, t@(.functionDec _ _ formals result body) =>
    v.call ⟨_, t⟩ do v.accept formals; v.accept result; v.accept body
  | _, t@(.typeDec _ _ ty) => v.call ⟨_, t⟩ (v.accept ty)
  | _, t@(.varChunk _ decs) => v.call ⟨_, t⟩ (v.accept decs)
  | _, t@(.functionChunk _ decs) => v.call ⟨_, t⟩ (v.accept decs)
  | _, t@(.typeChunk _ decs) => v.call ⟨_, t⟩ (v.accept decs)
  | _, t@(.chunkList _ chunks) => v.call ⟨_, t⟩ (v.accept chunks)

/-- The visitor whose methods do something and delegate the rest. -/
def delegating (f : (Σ k, Ast α k) → m Unit) : Visitor α m := ⟨fun c super => do f c; super⟩

/-- The nodes whose methods are called, in the order of the calls. -/
def calls (t : Ast α k) : List (Σ k, Ast α k) :=
  (((delegating fun c => modify (· ++ [c])).accept t :
    StateM (List (Σ k, Ast α k)) Unit).run []).2

/-! ## The calls of a visitor that delegates -/

section delegating

variable [LawfulMonad m] {f : (Σ k, Ast α k) → m Unit} {c : Σ k, Ast α k}
  {cs cs₁ cs₂ cs₃ : List (Σ k, Ast α k)} {x x₁ x₂ x₃ : m Unit}

omit [LawfulMonad m] in
theorem forM_node (hc : c.2.isNode = true)
    (hx : x = forM (cs.filter fun c => c.2.isNode) f) :
    (do f c; x) = forM ((c :: cs).filter fun c => c.2.isNode) f := by
  rw [List.filter_cons_of_pos (by exact hc), List.forM_cons, hx]

theorem forM_two (h₁ : x₁ = forM (cs₁.filter fun c => c.2.isNode) f)
    (h₂ : x₂ = forM (cs₂.filter fun c => c.2.isNode) f) :
    (do x₁; x₂) = forM ((cs₁ ++ cs₂).filter fun c => c.2.isNode) f := by
  rw [List.filter_append, List.forM_append, h₁, h₂]

theorem forM_three (h₁ : x₁ = forM (cs₁.filter fun c => c.2.isNode) f)
    (h₂ : x₂ = forM (cs₂.filter fun c => c.2.isNode) f)
    (h₃ : x₃ = forM (cs₃.filter fun c => c.2.isNode) f) :
    (do x₁; x₂; x₃) = forM ((cs₁ ++ cs₂ ++ cs₃).filter fun c => c.2.isNode) f := by
  rw [← forM_two (forM_two h₁ h₂) h₃, bind_assoc]

/-- **A visitor that delegates does its part on every node, in the order of the parts of the
tree.** -/
theorem accept_delegating (f : (Σ k, Ast α k) → m Unit) (t : Ast α k) :
    (delegating f).accept t = forM (t.subterms.filter fun c => c.2.isNode) f := by
  induction t with
  | nil | none => rfl
  | some _ ih | ofVar _ ih | ofNameTy _ ih | ofVarChunk _ ih => exact ih
  | cons _ _ ih₁ ih₂ => exact forM_two ih₁ ih₂
  | simpleVar | nilExp | intExp | stringExp | breakExp | nameTy => exact forM_node rfl rfl
  | fieldVar _ _ _ ih | callExp _ _ _ ih | seqExp _ _ ih | recordTy _ _ ih | arrayTy _ _ ih
  | field _ _ _ ih | fieldInit _ _ _ ih | typeDec _ _ _ ih | varChunk _ _ ih
  | functionChunk _ _ ih | typeChunk _ _ ih | chunkList _ _ ih => exact forM_node rfl ih
  | subscriptVar _ _ _ ih₁ ih₂ | opExp _ _ _ _ ih₁ ih₂ | recordExp _ _ _ ih₁ ih₂
  | assignExp _ _ _ ih₁ ih₂ | whileExp _ _ _ ih₁ ih₂ | letExp _ _ _ ih₁ ih₂
  | castExp _ _ _ ih₁ ih₂ | varDec _ _ _ _ ih₁ ih₂ =>
    exact forM_node rfl (forM_two ih₁ ih₂)
  | ifExp _ _ _ _ ih₁ ih₂ ih₃ | forExp _ _ _ _ ih₁ ih₂ ih₃ | arrayExp _ _ _ _ ih₁ ih₂ ih₃
  | functionDec _ _ _ _ _ ih₁ ih₂ ih₃ => exact forM_node rfl (forM_three ih₁ ih₂ ih₃)

end delegating

theorem forM_modify {β : Type} (l l' : List β) :
    ((forM l fun c => modify (· ++ [c]) : StateM (List β) Unit).run l').2 = l' ++ l := by
  induction l generalizing l' with
  | nil => exact (List.append_nil l').symm
  | cons x l ih => simpa using ih (l' ++ [x])

theorem calls_eq (t : Ast α k) : calls t = t.subterms.filter fun c => c.2.isNode := by
  rw [calls, accept_delegating, forM_modify, List.nil_append]

/-- What a complete traversal of a tree calls. -/
structure Complete (t : Ast Addr k) : Prop where
  /-- Every node of the tree gets its method called. -/
  every : ∀ c, c ∈ calls t ↔ t.Within c
  /-- No node gets it called twice. -/
  once : (calls t).Nodup
  /-- A node gets it called before its children. -/
  parentsFirst : ∀ p ∈ calls t, ∀ c ∈ p.2.children, [p, c].Sublist (calls t)
  /-- A pass does its part on each of these nodes, in that order, and nothing else. -/
  delegates : ∀ (m : Type → Type) [Monad m] [LawfulMonad m] (f : (Σ k, Ast Addr k) → m Unit),
    (delegating f).accept t = forM (calls t) f

/-- **The default traversal is complete.** -/
theorem complete {t : Ast Addr k} (hn : t.nodes.Nodup) : Complete t where
  every c := by
    rw [calls_eq, List.mem_filter]
    constructor
    · rintro ⟨hc, hnode⟩
      exact Ast.within_of_mem hc hnode
    · exact Ast.Within.mem
  once := by
    rw [Ast.nodes_eq_map] at hn
    rw [calls_eq]
    exact hn.of_map _
  parentsFirst p hp c hc := by
    rw [calls_eq, List.mem_filter] at hp
    rw [calls_eq]
    obtain ⟨cs, hcs, hmem, hnode⟩ := Ast.mem_of_mem_children hc
    have hsub := Ast.subterms_sublist hp.1
    rw [hcs] at hsub
    have hpair : [p, c].filter (fun c => c.2.isNode) = [p, c] := by
      rw [List.filter_eq_self]
      simp [hp.2, hnode]
    rw [← hpair]
    exact (((List.singleton_sublist.mpr hmem).cons_cons p).trans hsub).filter _
  delegates m _ _ f := by
    rw [accept_delegating, calls_eq]

/-- `f(a, 1)` is traversed in the order of the text. -/
theorem complete_call : Complete (.callExp 0 "f".toList (.ofList [.ofVar (.simpleVar 1 "a".toList),
    .intExp 2 1]) : Ast Addr .exp) := complete (by decide)

end Visitor

end TigerCompiler
