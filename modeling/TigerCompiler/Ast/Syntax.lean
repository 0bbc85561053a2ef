import Mathlib.Data.List.Basic
import Mathlib.Data.List.Nodup

/-!
# The Tiger abstract syntax tree

The class hierarchy of `src/ast/` (without the object extensions) as one inductive family.
A value of `Ast α k` is a node of class `k`; the parameter `α` is what every node carries
besides its members: its address when the passes that annotate nodes through pointers run on
it, its source location when it comes out of the parser, nothing when two trees are compared.

`std::vector` and `std::list` members are the kinds `list k`, pointers that may be null the
kinds `opt k`.  Deriving from a class is an explicit inclusion: `ofVar` makes an `Exp` of a
`Var`, `ofNameTy` a `Ty` of a `NameTy`, `ofVarChunk` a `ChunkInterface` of a `VarChunk`.
-/

namespace TigerCompiler

/-- `std::string`: the sequence of its bytes, each written as the character of that code. -/
abbrev Str := List Char

instance : LawfulBEq Str := inferInstanceAs (LawfulBEq (List Char))

/-- `misc::symbol`: an interned string, equal exactly when the strings are. -/
abbrev Symbol := Str

/-- Whether a symbol is the name of a type that needs no declaration. -/
def Symbol.isBuiltin (s : Symbol) : Bool := s = "int".toList || s = "string".toList

/-- Where a node lives in memory: what a `VarDec*` or a `FunctionDec*` holds. -/
abbrev Addr := Nat

/-- `ast::OpExp::Oper`. -/
inductive Oper
  | add | sub | mul | div | eq | ne | lt | le | gt | ge
  deriving DecidableEq, Repr

/-- The classes of nodes. -/
inductive Kind
  | exp | var | ty | nameTy | field | fieldInit
  | varDec | functionDec | typeDec
  | varChunk | chunk | chunkList
  | list (k : Kind)
  | opt (k : Kind)
  deriving DecidableEq, Repr

/-- The nodes of `ast/all.hh`, with the members their constructors take, in that order. -/
inductive Ast (α : Type) : Kind → Type where
  | nil {k : Kind} : Ast α (.list k)
  | cons {k : Kind} (x : Ast α k) (xs : Ast α (.list k)) : Ast α (.list k)
  | none {k : Kind} : Ast α (.opt k)
  | some {k : Kind} (x : Ast α k) : Ast α (.opt k)
  | simpleVar (a : α) (name : Symbol) : Ast α .var
  | fieldVar (a : α) (var : Ast α .var) (name : Symbol) : Ast α .var
  | subscriptVar (a : α) (var : Ast α .var) (index : Ast α .exp) : Ast α .var
  | ofVar (v : Ast α .var) : Ast α .exp
  | nilExp (a : α) : Ast α .exp
  | intExp (a : α) (value : Int) : Ast α .exp
  | stringExp (a : α) (value : Str) : Ast α .exp
  | callExp (a : α) (name : Symbol) (args : Ast α (.list .exp)) : Ast α .exp
  | opExp (a : α) (left : Ast α .exp) (oper : Oper) (right : Ast α .exp) : Ast α .exp
  | recordExp (a : α) (typeName : Ast α .nameTy) (fields : Ast α (.list .fieldInit)) : Ast α .exp
  | seqExp (a : α) (exps : Ast α (.list .exp)) : Ast α .exp
  | assignExp (a : α) (var : Ast α .var) (exp : Ast α .exp) : Ast α .exp
  | ifExp (a : α) (test thenclause elseclause : Ast α .exp) : Ast α .exp
  | whileExp (a : α) (test body : Ast α .exp) : Ast α .exp
  | forExp (a : α) (vardec : Ast α .varDec) (hi body : Ast α .exp) : Ast α .exp
  | breakExp (a : α) : Ast α .exp
  | letExp (a : α) (chunks : Ast α .chunkList) (body : Ast α .exp) : Ast α .exp
  | arrayExp (a : α) (typeName : Ast α .nameTy) (size init : Ast α .exp) : Ast α .exp
  | castExp (a : α) (exp : Ast α .exp) (ty : Ast α .ty) : Ast α .exp
  | nameTy (a : α) (name : Symbol) : Ast α .nameTy
  | ofNameTy (n : Ast α .nameTy) : Ast α .ty
  | recordTy (a : α) (fields : Ast α (.list .field)) : Ast α .ty
  | arrayTy (a : α) (baseType : Ast α .nameTy) : Ast α .ty
  | field (a : α) (name : Symbol) (typeName : Ast α .nameTy) : Ast α .field
  | fieldInit (a : α) (name : Symbol) (init : Ast α .exp) : Ast α .fieldInit
  | varDec (a : α) (name : Symbol) (typeName : Ast α (.opt .nameTy)) (init : Ast α (.opt .exp)) :
      Ast α .varDec
  | functionDec (a : α) (name : Symbol) (formals : Ast α .varChunk)
      (result : Ast α (.opt .nameTy)) (body : Ast α (.opt .exp)) : Ast α .functionDec
  | typeDec (a : α) (name : Symbol) (ty : Ast α .ty) : Ast α .typeDec
  | varChunk (a : α) (decs : Ast α (.list .varDec)) : Ast α .varChunk
  | ofVarChunk (c : Ast α .varChunk) : Ast α .chunk
  | functionChunk (a : α) (decs : Ast α (.list .functionDec)) : Ast α .chunk
  | typeChunk (a : α) (decs : Ast α (.list .typeDec)) : Ast α .chunk
  | chunkList (a : α) (chunks : Ast α (.list .chunk)) : Ast α .chunkList
  deriving DecidableEq

/-- Whether a class of nodes is a collection. -/
def Kind.isList : Kind → Bool
  | .list _ => true
  | _ => false

/-- What a collection class holds: the elements of a `list`, nothing for another class. -/
def Kind.Elems (α : Type) : Kind → Type
  | .list k => List (Ast α k)
  | _ => Unit

namespace Ast

variable {α β : Type} {k : Kind}

/-! ## Collections and optional members -/

/-- The elements of a collection, in order. -/
def elems : {k : Kind} → Ast α k → k.Elems α
  | .list _, .nil => []
  | .list _, .cons x xs => x :: xs.elems
  | .exp, _ | .var, _ | .ty, _ | .nameTy, _ | .field, _ | .fieldInit, _ | .varDec, _
  | .functionDec, _ | .typeDec, _ | .varChunk, _ | .chunk, _ | .chunkList, _ | .opt _, _ => ()

/-- A `std::vector` or `std::list` member as a list of nodes. -/
def toList (xs : Ast α (.list k)) : List (Ast α k) := xs.elems

@[simp] theorem toList_nil : (nil : Ast α (.list k)).toList = [] := rfl

@[simp] theorem toList_cons (x : Ast α k) (xs : Ast α (.list k)) :
    (cons x xs).toList = x :: xs.toList := rfl

/-- The collection with the given elements. -/
def ofList : List (Ast α k) → Ast α (.list k)
  | [] => .nil
  | x :: xs => .cons x (ofList xs)

@[simp] theorem toList_ofList (xs : List (Ast α k)) : (ofList xs).toList = xs := by
  induction xs with
  | nil => rfl
  | cons x xs ih => rw [ofList, toList_cons, ih]

/-- Whether a member that may be null is set. -/
def isSome : Ast α (.opt k) → Bool
  | .none => false
  | .some _ => true

@[simp] theorem isSome_none : (none : Ast α (.opt k)).isSome = false := rfl

@[simp] theorem isSome_some (x : Ast α k) : (some x).isSome = true := rfl

/-- A member that may be null as an option. -/
def toOption : Ast α (.opt k) → Option (Ast α k)
  | .none => Option.none
  | .some x => Option.some x

/-! ## The members of declarations -/

/-- What `Dec::name_get` returns on a `VarDec`. -/
def varName : Ast α .varDec → Symbol
  | .varDec _ name _ _ => name

/-- The address of a `VarDec`. -/
def varAddr : Ast α .varDec → α
  | .varDec a _ _ _ => a

/-- What `Dec::name_get` returns on a `FunctionDec`. -/
def functionName : Ast α .functionDec → Symbol
  | .functionDec _ name _ _ _ => name

/-- The address of a `FunctionDec`. -/
def functionAddr : Ast α .functionDec → α
  | .functionDec a _ _ _ _ => a

/-- Whether a `FunctionDec` has a body, that is, is not a primitive. -/
def hasBody : Ast α .functionDec → Bool
  | .functionDec _ _ _ _ body => body.isSome

/-- What `Dec::name_get` returns on a `TypeDec`. -/
def typeName : Ast α .typeDec → Symbol
  | .typeDec _ name _ => name

/-- The address of a `TypeDec`. -/
def typeAddr : Ast α .typeDec → α
  | .typeDec a _ _ => a

/-! ## Walking over the nodes -/

/-- What the nodes of a tree carry, parents before children. -/
def nodes : {k : Kind} → Ast α k → List α
  | _, .nil => []
  | _, .cons x xs => x.nodes ++ xs.nodes
  | _, .none => []
  | _, .some x => x.nodes
  | _, .simpleVar a _ => [a]
  | _, .fieldVar a v _ => a :: v.nodes
  | _, .subscriptVar a v i => a :: (v.nodes ++ i.nodes)
  | _, .ofVar v => v.nodes
  | _, .nilExp a => [a]
  | _, .intExp a _ => [a]
  | _, .stringExp a _ => [a]
  | _, .callExp a _ args => a :: args.nodes
  | _, .opExp a l _ r => a :: (l.nodes ++ r.nodes)
  | _, .recordExp a t fs => a :: (t.nodes ++ fs.nodes)
  | _, .seqExp a es => a :: es.nodes
  | _, .assignExp a v e => a :: (v.nodes ++ e.nodes)
  | _, .ifExp a c t e => a :: (c.nodes ++ t.nodes ++ e.nodes)
  | _, .whileExp a c b => a :: (c.nodes ++ b.nodes)
  | _, .forExp a d h b => a :: (d.nodes ++ h.nodes ++ b.nodes)
  | _, .breakExp a => [a]
  | _, .letExp a cs b => a :: (cs.nodes ++ b.nodes)
  | _, .arrayExp a t s i => a :: (t.nodes ++ s.nodes ++ i.nodes)
  | _, .castExp a e t => a :: (e.nodes ++ t.nodes)
  | _, .nameTy a _ => [a]
  | _, .ofNameTy n => n.nodes
  | _, .recordTy a fs => a :: fs.nodes
  | _, .arrayTy a b => a :: b.nodes
  | _, .field a _ t => a :: t.nodes
  | _, .fieldInit a _ i => a :: i.nodes
  | _, .varDec a _ t i => a :: (t.nodes ++ i.nodes)
  | _, .functionDec a _ fs r b => a :: (fs.nodes ++ r.nodes ++ b.nodes)
  | _, .typeDec a _ t => a :: t.nodes
  | _, .varChunk a ds => a :: ds.nodes
  | _, .ofVarChunk c => c.nodes
  | _, .functionChunk a ds => a :: ds.nodes
  | _, .typeChunk a ds => a :: ds.nodes
  | _, .chunkList a cs => a :: cs.nodes

/-- The address of a node.  A collection has none: it is 0 there. -/
def addr (t : Ast Addr k) : Addr := t.nodes.headD 0

/-- The parts of a node, itself first. -/
def subterms : {k : Kind} → Ast α k → List (Σ k, Ast α k)
  | _, t@.nil => [⟨_, t⟩]
  | _, t@(.cons x xs) => ⟨_, t⟩ :: (x.subterms ++ xs.subterms)
  | _, t@.none => [⟨_, t⟩]
  | _, t@(.some x) => ⟨_, t⟩ :: x.subterms
  | _, t@(.simpleVar _ _) => [⟨_, t⟩]
  | _, t@(.fieldVar _ v _) => ⟨_, t⟩ :: v.subterms
  | _, t@(.subscriptVar _ v i) => ⟨_, t⟩ :: (v.subterms ++ i.subterms)
  | _, t@(.ofVar v) => ⟨_, t⟩ :: v.subterms
  | _, t@(.nilExp _) => [⟨_, t⟩]
  | _, t@(.intExp _ _) => [⟨_, t⟩]
  | _, t@(.stringExp _ _) => [⟨_, t⟩]
  | _, t@(.callExp _ _ args) => ⟨_, t⟩ :: args.subterms
  | _, t@(.opExp _ l _ r) => ⟨_, t⟩ :: (l.subterms ++ r.subterms)
  | _, t@(.recordExp _ n fs) => ⟨_, t⟩ :: (n.subterms ++ fs.subterms)
  | _, t@(.seqExp _ es) => ⟨_, t⟩ :: es.subterms
  | _, t@(.assignExp _ v e) => ⟨_, t⟩ :: (v.subterms ++ e.subterms)
  | _, t@(.ifExp _ c th el) => ⟨_, t⟩ :: (c.subterms ++ th.subterms ++ el.subterms)
  | _, t@(.whileExp _ c b) => ⟨_, t⟩ :: (c.subterms ++ b.subterms)
  | _, t@(.forExp _ d h b) => ⟨_, t⟩ :: (d.subterms ++ h.subterms ++ b.subterms)
  | _, t@(.breakExp _) => [⟨_, t⟩]
  | _, t@(.letExp _ cs b) => ⟨_, t⟩ :: (cs.subterms ++ b.subterms)
  | _, t@(.arrayExp _ n s i) => ⟨_, t⟩ :: (n.subterms ++ s.subterms ++ i.subterms)
  | _, t@(.castExp _ e ty) => ⟨_, t⟩ :: (e.subterms ++ ty.subterms)
  | _, t@(.nameTy _ _) => [⟨_, t⟩]
  | _, t@(.ofNameTy n) => ⟨_, t⟩ :: n.subterms
  | _, t@(.recordTy _ fs) => ⟨_, t⟩ :: fs.subterms
  | _, t@(.arrayTy _ n) => ⟨_, t⟩ :: n.subterms
  | _, t@(.field _ _ n) => ⟨_, t⟩ :: n.subterms
  | _, t@(.fieldInit _ _ i) => ⟨_, t⟩ :: i.subterms
  | _, t@(.varDec _ _ n i) => ⟨_, t⟩ :: (n.subterms ++ i.subterms)
  | _, t@(.functionDec _ _ fs r b) => ⟨_, t⟩ :: (fs.subterms ++ r.subterms ++ b.subterms)
  | _, t@(.typeDec _ _ ty) => ⟨_, t⟩ :: ty.subterms
  | _, t@(.varChunk _ ds) => ⟨_, t⟩ :: ds.subterms
  | _, t@(.ofVarChunk c) => ⟨_, t⟩ :: c.subterms
  | _, t@(.functionChunk _ ds) => ⟨_, t⟩ :: ds.subterms
  | _, t@(.typeChunk _ ds) => ⟨_, t⟩ :: ds.subterms
  | _, t@(.chunkList _ cs) => ⟨_, t⟩ :: cs.subterms

/-- The members of a value that are trees, in their order. -/
def members : {k : Kind} → Ast α k → List (Σ k, Ast α k)
  | _, .cons x xs => [⟨_, x⟩, ⟨_, xs⟩]
  | _, .some x => [⟨_, x⟩]
  | _, .fieldVar _ v _ => [⟨_, v⟩]
  | _, .subscriptVar _ v i => [⟨_, v⟩, ⟨_, i⟩]
  | _, .ofVar v => [⟨_, v⟩]
  | _, .callExp _ _ args => [⟨_, args⟩]
  | _, .opExp _ l _ r => [⟨_, l⟩, ⟨_, r⟩]
  | _, .recordExp _ n fs => [⟨_, n⟩, ⟨_, fs⟩]
  | _, .seqExp _ es => [⟨_, es⟩]
  | _, .assignExp _ v e => [⟨_, v⟩, ⟨_, e⟩]
  | _, .ifExp _ c th el => [⟨_, c⟩, ⟨_, th⟩, ⟨_, el⟩]
  | _, .whileExp _ c b => [⟨_, c⟩, ⟨_, b⟩]
  | _, .forExp _ d h b => [⟨_, d⟩, ⟨_, h⟩, ⟨_, b⟩]
  | _, .letExp _ cs b => [⟨_, cs⟩, ⟨_, b⟩]
  | _, .arrayExp _ n s i => [⟨_, n⟩, ⟨_, s⟩, ⟨_, i⟩]
  | _, .castExp _ e ty => [⟨_, e⟩, ⟨_, ty⟩]
  | _, .ofNameTy n => [⟨_, n⟩]
  | _, .recordTy _ fs => [⟨_, fs⟩]
  | _, .arrayTy _ n => [⟨_, n⟩]
  | _, .field _ _ n => [⟨_, n⟩]
  | _, .fieldInit _ _ i => [⟨_, i⟩]
  | _, .varDec _ _ n i => [⟨_, n⟩, ⟨_, i⟩]
  | _, .functionDec _ _ fs r b => [⟨_, fs⟩, ⟨_, r⟩, ⟨_, b⟩]
  | _, .typeDec _ _ ty => [⟨_, ty⟩]
  | _, .varChunk _ ds => [⟨_, ds⟩]
  | _, .ofVarChunk c => [⟨_, c⟩]
  | _, .functionChunk _ ds => [⟨_, ds⟩]
  | _, .typeChunk _ ds => [⟨_, ds⟩]
  | _, .chunkList _ cs => [⟨_, cs⟩]
  | _, _ => []

/-- Whether a value is a node of its own: the collections, the optional members and the
inclusions between classes are not. -/
def isNode : {k : Kind} → Ast α k → Bool
  | _, .nil | _, .cons _ _ | _, .none | _, .some _ => false
  | _, .ofVar _ | _, .ofNameTy _ | _, .ofVarChunk _ => false
  | _, _ => true

/-- The `VarDec`s of a tree. -/
def varDecs (t : Ast α k) : List (Ast α .varDec) :=
  t.subterms.filterMap fun | ⟨.varDec, d⟩ => .some d | _ => .none

/-- The `TypeDec`s of a tree. -/
def typeDecs (t : Ast α k) : List (Ast α .typeDec) :=
  t.subterms.filterMap fun | ⟨.typeDec, d⟩ => .some d | _ => .none

/-- The `FunctionDec`s of a tree. -/
def functionDecs (t : Ast α k) : List (Ast α .functionDec) :=
  t.subterms.filterMap fun | ⟨.functionDec, d⟩ => .some d | _ => .none

@[simp] theorem mem_subterms_self (t : Ast α k) : ⟨k, t⟩ ∈ t.subterms := by
  cases t <;> exact List.mem_cons_self

/-- What holds of a value when it holds of its members holds of every value. -/
theorem members_induction {P : (k : Kind) → Ast α k → Prop}
    (node : ∀ k t, (∀ p ∈ t.members, P p.1 p.2) → P k t) (k : Kind) (t : Ast α k) : P k t := by
  induction t <;> refine node _ _ ?_ <;> clear node <;> simp [members, *]

/-- The parts of a value are itself and those of its members. -/
theorem subterms_eq (t : Ast α k) :
    t.subterms = ⟨k, t⟩ :: t.members.flatMap fun p => p.2.subterms := by
  cases t <;> simp [subterms, members]

/-- A part of a value is the value itself, or a part of a member. -/
theorem eq_or_of_mem_subterms {t : Ast α k} (c : Σ k, Ast α k) (h : c ∈ t.subterms) :
    c = ⟨k, t⟩ ∨ ∃ p, p ∈ t.members ∧ c ∈ p.2.subterms := by
  rwa [subterms_eq, List.mem_cons, List.mem_flatMap] at h

/-- The members of a value are parts of it. -/
theorem mem_of_mem_members {t : Ast α k} {c : Σ k, Ast α k} (h : c ∈ t.members) :
    c ∈ t.subterms := by
  rw [subterms_eq]
  exact .tail _ (List.mem_flatMap.mpr ⟨c, h, mem_subterms_self c.2⟩)

section Members

variable {t : Ast α k} {c c₁ c₂ : Σ k, Ast α k} {cs : List (Σ k, Ast α k)}

/-- The first member of a value is a part of it. -/
theorem mem_first (h : t.members = c :: cs) : c ∈ t.subterms :=
  mem_of_mem_members (h ▸ List.mem_cons_self)

theorem mem_second (h : t.members = c₁ :: c :: cs) : c ∈ t.subterms :=
  mem_of_mem_members (h ▸ .tail _ List.mem_cons_self)

theorem mem_third (h : t.members = c₁ :: c₂ :: c :: cs) : c ∈ t.subterms :=
  mem_of_mem_members (h ▸ .tail _ (.tail _ List.mem_cons_self))

end Members

section Parts

variable {β : Type} {x c : β} {l l₁ l₂ parts : List β}

/-- The parts of a node are among those of another it is in: it is that node or in one of the
members. -/
theorem subset_of_mem_cons (h : c ∈ x :: l) (h₀ : c = x → parts = x :: l)
    (h₁ : c ∈ l → parts ⊆ l) : parts ⊆ x :: l := by
  rcases List.mem_cons.mp h with h | h
  · rw [h₀ h]
    exact List.Subset.refl _
  · exact List.subset_cons_of_subset _ (h₁ h)

theorem subset_of_mem_append (h : c ∈ l₁ ++ l₂) (h₁ : c ∈ l₁ → parts ⊆ l₁)
    (h₂ : c ∈ l₂ → parts ⊆ l₂) : parts ⊆ l₁ ++ l₂ := by
  rcases List.mem_append.mp h with h | h
  · exact List.subset_append_of_subset_left _ (h₁ h)
  · exact List.subset_append_of_subset_right _ (h₂ h)

end Parts

/-- A part of a part is a part. -/
theorem subterms_subset {j : Kind} {t : Ast α k} {u : Ast α j} (h : ⟨j, u⟩ ∈ t.subterms) :
    u.subterms ⊆ t.subterms := by
  induction t with
  | nil | none | simpleVar | nilExp | intExp | stringExp | breakExp | nameTy =>
    cases List.mem_singleton.mp h
    exact List.Subset.refl _
  | some _ ih | ofVar _ ih | ofNameTy _ ih | ofVarChunk _ ih | fieldVar _ _ _ ih | callExp _ _ _ ih
  | seqExp _ _ ih | recordTy _ _ ih | arrayTy _ _ ih | field _ _ _ ih | fieldInit _ _ _ ih
  | typeDec _ _ _ ih | varChunk _ _ ih | functionChunk _ _ ih | typeChunk _ _ ih
  | chunkList _ _ ih =>
    exact subset_of_mem_cons h (by rintro ⟨⟩; rfl) ih
  | cons _ _ ih₁ ih₂ | subscriptVar _ _ _ ih₁ ih₂ | opExp _ _ _ _ ih₁ ih₂ | recordExp _ _ _ ih₁ ih₂
  | assignExp _ _ _ ih₁ ih₂ | whileExp _ _ _ ih₁ ih₂ | letExp _ _ _ ih₁ ih₂
  | castExp _ _ _ ih₁ ih₂ | varDec _ _ _ _ ih₁ ih₂ =>
    exact subset_of_mem_cons h (by rintro ⟨⟩; rfl) (subset_of_mem_append · ih₁ ih₂)
  | ifExp _ _ _ _ ih₁ ih₂ ih₃ | forExp _ _ _ _ ih₁ ih₂ ih₃ | arrayExp _ _ _ _ ih₁ ih₂ ih₃
  | functionDec _ _ _ _ _ ih₁ ih₂ ih₃ =>
    exact subset_of_mem_cons h (by rintro ⟨⟩; rfl)
      (subset_of_mem_append · (subset_of_mem_append · ih₁ ih₂) ih₃)

/-- A tree has the nodes of its parts. -/
theorem nodes_eq_flatMap (t : Ast α k) :
    t.nodes = (t.subterms.filter fun c => c.2.isNode).flatMap fun c => c.2.nodes.take 1 := by
  induction t with
  | nil | none | simpleVar | nilExp | intExp | stringExp | breakExp | nameTy => rfl
  | some _ ih | ofVar _ ih | ofNameTy _ ih | ofVarChunk _ ih => exact ih
  | cons _ _ ih₁ ih₂ =>
    show _ = List.flatMap _ (List.filter _ (_ ++ _))
    rw [nodes, List.filter_append, List.flatMap_append, ← ih₁, ← ih₂]
  | fieldVar a _ _ ih | callExp a _ _ ih | seqExp a _ ih | recordTy a _ ih | arrayTy a _ ih
  | field a _ _ ih | fieldInit a _ _ ih | typeDec a _ _ ih | varChunk a _ ih
  | functionChunk a _ ih | typeChunk a _ ih | chunkList a _ ih =>
    exact congrArg (a :: ·) ih
  | subscriptVar a _ _ ih₁ ih₂ | opExp a _ _ _ ih₁ ih₂ | recordExp a _ _ ih₁ ih₂
  | assignExp a _ _ ih₁ ih₂ | whileExp a _ _ ih₁ ih₂ | letExp a _ _ ih₁ ih₂
  | castExp a _ _ ih₁ ih₂ | varDec a _ _ _ ih₁ ih₂ =>
    show _ = a :: List.flatMap _ (List.filter _ (_ ++ _))
    rw [nodes, List.filter_append, List.flatMap_append, ← ih₁, ← ih₂]
  | ifExp a _ _ _ ih₁ ih₂ ih₃ | forExp a _ _ _ ih₁ ih₂ ih₃ | arrayExp a _ _ _ ih₁ ih₂ ih₃
  | functionDec a _ _ _ _ ih₁ ih₂ ih₃ =>
    show _ = a :: List.flatMap _ (List.filter _ (_ ++ _ ++ _))
    rw [nodes, List.filter_append, List.filter_append, List.flatMap_append, List.flatMap_append,
      ← ih₁, ← ih₂, ← ih₃]

/-- The nodes of a part are nodes of the tree. -/
theorem nodes_subset {t : Ast α k} {c : Σ k, Ast α k} (h : c ∈ t.subterms) :
    c.2.nodes ⊆ t.nodes := by
  rw [nodes_eq_flatMap c.2, nodes_eq_flatMap t]
  intro a ha
  obtain ⟨d, hd, ha⟩ := List.mem_flatMap.mp ha
  obtain ⟨hd, hnode⟩ := List.mem_filter.mp hd
  exact List.mem_flatMap.mpr ⟨d, List.mem_filter.mpr ⟨subterms_subset h hd, hnode⟩, ha⟩

/-- The elements of a collection are parts of it. -/
theorem mem_subterms_of_mem {x : Ast α k} : {xs : Ast α (.list k)} → x ∈ xs.toList →
    ⟨k, x⟩ ∈ xs.subterms
  | .nil, h => by simp at h
  | .cons y ys, h => by
    rw [toList_cons, List.mem_cons] at h
    rcases h with rfl | h
    · simp [subterms]
    · simp [subterms, mem_subterms_of_mem h]

theorem mem_varDecs {t : Ast α k} {d : Ast α .varDec} :
    d ∈ t.varDecs ↔ ⟨.varDec, d⟩ ∈ t.subterms := by
  simp only [varDecs, List.mem_filterMap]
  constructor
  · rintro ⟨⟨j, u⟩, hu, hd⟩
    cases j <;> simp_all
  · exact fun h => ⟨_, h, rfl⟩

theorem mem_functionDecs {t : Ast α k} {d : Ast α .functionDec} :
    d ∈ t.functionDecs ↔ ⟨.functionDec, d⟩ ∈ t.subterms := by
  simp only [functionDecs, List.mem_filterMap]
  constructor
  · rintro ⟨⟨j, u⟩, hu, hd⟩
    cases j <;> simp_all
  · exact fun h => ⟨_, h, rfl⟩

/-- The addresses of the `VarDec`s are among those of the nodes, in the same order. -/
theorem varDecs_sublist (t : Ast α k) : (t.varDecs.map varAddr).Sublist t.nodes := by
  induction t with
  | nil | none | simpleVar | nilExp | intExp | stringExp | breakExp | nameTy =>
    exact List.nil_sublist _
  | some _ ih | ofVar _ ih | ofNameTy _ ih | ofVarChunk _ ih => exact ih
  | cons _ _ ih₁ ih₂ =>
    show ((List.filterMap _ (_ ++ _)).map _).Sublist _
    rw [List.filterMap_append, List.map_append]
    exact ih₁.append ih₂
  | varDec a _ _ _ ih₁ ih₂ =>
    show (a :: (List.filterMap _ (_ ++ _)).map _).Sublist _
    rw [List.filterMap_append, List.map_append]
    exact (ih₁.append ih₂).cons_cons a
  | fieldVar _ _ _ ih | callExp _ _ _ ih | seqExp _ _ ih | recordTy _ _ ih | arrayTy _ _ ih
  | field _ _ _ ih | fieldInit _ _ _ ih | typeDec _ _ _ ih | varChunk _ _ ih
  | functionChunk _ _ ih | typeChunk _ _ ih | chunkList _ _ ih => exact ih.cons _
  | subscriptVar _ _ _ ih₁ ih₂ | opExp _ _ _ _ ih₁ ih₂ | recordExp _ _ _ ih₁ ih₂
  | assignExp _ _ _ ih₁ ih₂ | whileExp _ _ _ ih₁ ih₂ | letExp _ _ _ ih₁ ih₂
  | castExp _ _ _ ih₁ ih₂ =>
    show ((List.filterMap _ (_ ++ _)).map _).Sublist _
    rw [List.filterMap_append, List.map_append]
    exact (ih₁.append ih₂).cons _
  | ifExp _ _ _ _ ih₁ ih₂ ih₃ | forExp _ _ _ _ ih₁ ih₂ ih₃ | arrayExp _ _ _ _ ih₁ ih₂ ih₃
  | functionDec _ _ _ _ _ ih₁ ih₂ ih₃ =>
    show ((List.filterMap _ (_ ++ _ ++ _)).map _).Sublist _
    rw [List.filterMap_append, List.filterMap_append, List.map_append, List.map_append]
    exact ((ih₁.append ih₂).append ih₃).cons _

/-- The node that lives at an address: what a pointer to it is dereferenced to. -/
def deref (program : Ast Addr k) (a : Addr) : Option (Σ k, Ast Addr k) :=
  program.subterms.find? fun c => c.2.isNode && c.2.addr == a

/-- The addresses of the nodes of a tree are those its parts that are nodes live at. -/
theorem nodes_eq_map (t : Ast Addr k) :
    t.nodes = (t.subterms.filter fun c => c.2.isNode).map fun c => c.2.addr := by
  have hnode (c : Σ k, Ast Addr k) (hc : c.2.isNode = true) : c.2.nodes.take 1 = [c.2.addr] := by
    obtain ⟨k, t⟩ := c
    cases t <;> first | rfl | exact absurd hc Bool.false_ne_true
  rw [nodes_eq_flatMap, List.map_eq_flatMap]
  exact List.flatMap_congr fun c hc => hnode c (List.mem_filter.mp hc).2

/-- No two nodes live at one address. -/
theorem eq_of_addr_eq {t : Ast Addr k} (hn : t.nodes.Nodup) {c d : Σ k, Ast Addr k}
    (hc : c ∈ t.subterms) (hd : d ∈ t.subterms) (hc' : c.2.isNode = true)
    (hd' : d.2.isNode = true) (h : c.2.addr = d.2.addr) : c = d := by
  rw [nodes_eq_map] at hn
  exact List.inj_on_of_nodup_map hn (List.mem_filter.mpr ⟨hc, hc'⟩)
    (List.mem_filter.mpr ⟨hd, hd'⟩) h

theorem deref_eq {t : Ast Addr k} (hn : t.nodes.Nodup) {c : Σ k, Ast Addr k}
    (hc : c ∈ t.subterms) (hc' : c.2.isNode = true) : t.deref c.2.addr = .some c := by
  rw [deref]
  cases h : t.subterms.find? fun d => d.2.isNode && d.2.addr == c.2.addr with
  | none => simpa [hc'] using List.find?_eq_none.mp h c hc
  | some d =>
    have hd := List.find?_some h
    simp only [Bool.and_eq_true, beq_iff_eq] at hd
    rw [eq_of_addr_eq hn (List.mem_of_find?_eq_some h) hc hd.1 hc' hd.2]

theorem varAddr_mem_nodes (d : Ast α .varDec) : d.varAddr ∈ d.nodes := by
  cases d
  simp [varAddr, nodes]

end Ast

end TigerCompiler
