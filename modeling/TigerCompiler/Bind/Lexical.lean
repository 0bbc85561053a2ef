import TigerCompiler.Ast.Syntax
import Mathlib.Logic.Function.Basic
import Mathlib.Data.List.Nodup

/-!
# Lexical scoping

The scoping of Tiger, stated on its own: which declarations are visible at each place of a
tree.  A declaration of a variable is visible after it up to the end of its `let` or its
function, never inside its own initialiser; a loop variable only in the body of its loop;
the functions of a chunk, and its types, in the whole chunk and after it.

Nothing here comes from a pass: these definitions are what the passes are compared with.  The
other rule one may think of, where a variable is visible from its name on, is carried along, so
that the two can be compared at each place.
-/

namespace TigerCompiler

/-- Whether a class of nodes may add variables, functions or types to the scope after it. -/
def Kind.declares : Kind → Bool
  | .varDec | .varChunk | .chunk | .chunkList => true
  | .list k | .opt k => k.declares
  | .exp | .var | .ty | .nameTy | .field | .fieldInit | .functionDec | .typeDec => false

/-- The classes of nodes that hold types only. -/
def Kind.isType : Kind → Bool
  | .ty | .nameTy | .field | .typeDec => true
  | .list k | .opt k => k.isType
  | .exp | .var | .fieldInit | .varDec | .functionDec | .varChunk | .chunk | .chunkList => false

/-- The declarations visible at a place. -/
structure Scope where
  vars : Symbol → Option Addr := fun _ => none
  funs : Symbol → Option Addr := fun _ => none
  types : Symbol → Option Addr := fun _ => none
  /-- The variables that would be visible if a variable were so from its name on: inside its own
  initialiser, and for a loop variable inside the high bound. -/
  early : Symbol → Option Addr := fun _ => none
  /-- Whether the place lies in the test of a `while`, in the body of a type declaration or in
  the result type of a function. -/
  aside : Bool := false

namespace Scope

/-- The scope once a variable is declared. -/
def putVar (ρ : Scope) (name : Symbol) (a : Addr) : Scope :=
  { ρ with
    vars := Function.update ρ.vars name (some a)
    early := Function.update ρ.early name (some a) }

/-- The scope of the initialiser of a variable. -/
def putEarly (ρ : Scope) (name : Symbol) (a : Addr) : Scope :=
  { ρ with early := Function.update ρ.early name (some a) }

/-- The scope once a function is declared. -/
def putFun (ρ : Scope) (name : Symbol) (a : Addr) : Scope :=
  { ρ with funs := Function.update ρ.funs name (some a) }

/-- The scope once a type is declared. -/
def putType (ρ : Scope) (name : Symbol) (a : Addr) : Scope :=
  { ρ with types := Function.update ρ.types name (some a) }

/-- The scope inside the test of a `while`, the body of a type or the result of a function. -/
def putAside (ρ : Scope) : Scope := { ρ with aside := true }

/-- The scope once all the functions of a chunk are declared. -/
def putFuns (ρ : Scope) (ds : List (Ast Addr .functionDec)) : Scope :=
  ds.foldl (fun ρ d => ρ.putFun d.functionName d.functionAddr) ρ

/-- The scope once all the types of a chunk are declared. -/
def putTypes (ρ : Scope) (ds : List (Ast Addr .typeDec)) : Scope :=
  ds.foldl (fun ρ d => ρ.putType d.typeName d.typeAddr) ρ

/-- The scope after a node: a declaration or a chunk adds to it, any other node does not. -/
def after : {k : Kind} → Scope → Ast Addr k → Scope
  | _, ρ, .cons x xs => (ρ.after x).after xs
  | _, ρ, .some x => ρ.after x
  | _, ρ, .varDec a name _ _ => ρ.putVar name a
  | _, ρ, .varChunk _ ds => ρ.after ds
  | _, ρ, .ofVarChunk c => ρ.after c
  | _, ρ, .functionChunk _ ds => ρ.putFuns ds.toList
  | _, ρ, .typeChunk _ ds => ρ.putTypes ds.toList
  | _, ρ, .chunkList _ cs => ρ.after cs
  | _, ρ, _ => ρ

/-- `P` holds at every node of a tree, each taken with the scope it lies in.  The collections
and the inclusions between classes are not nodes of their own. -/
def Everywhere (P : ⦃k : Kind⦄ → Scope → Ast Addr k → Prop) :
    {k : Kind} → Scope → Ast Addr k → Prop
  | _, _, .nil => True
  | _, ρ, .cons x xs => ρ.Everywhere P x ∧ (ρ.after x).Everywhere P xs
  | _, _, .none => True
  | _, ρ, .some x => ρ.Everywhere P x
  | _, ρ, t@(.simpleVar _ _) => P ρ t
  | _, ρ, t@(.fieldVar _ v _) => P ρ t ∧ ρ.Everywhere P v
  | _, ρ, t@(.subscriptVar _ v i) => P ρ t ∧ ρ.Everywhere P v ∧ ρ.Everywhere P i
  | _, ρ, .ofVar v => ρ.Everywhere P v
  | _, ρ, t@(.nilExp _) => P ρ t
  | _, ρ, t@(.intExp _ _) => P ρ t
  | _, ρ, t@(.stringExp _ _) => P ρ t
  | _, ρ, t@(.callExp _ _ args) => P ρ t ∧ ρ.Everywhere P args
  | _, ρ, t@(.opExp _ l _ r) => P ρ t ∧ ρ.Everywhere P l ∧ ρ.Everywhere P r
  | _, ρ, t@(.recordExp _ n fs) => P ρ t ∧ ρ.Everywhere P n ∧ ρ.Everywhere P fs
  | _, ρ, t@(.seqExp _ es) => P ρ t ∧ ρ.Everywhere P es
  | _, ρ, t@(.assignExp _ v e) => P ρ t ∧ ρ.Everywhere P v ∧ ρ.Everywhere P e
  | _, ρ, t@(.ifExp _ c th el) =>
    P ρ t ∧ ρ.Everywhere P c ∧ ρ.Everywhere P th ∧ ρ.Everywhere P el
  | _, ρ, t@(.whileExp _ c body) => P ρ t ∧ ρ.putAside.Everywhere P c ∧ ρ.Everywhere P body
  | _, ρ, t@(.forExp _ vardec hi body) =>
    P ρ t ∧ ρ.Everywhere P vardec ∧
      (ρ.putEarly vardec.varName vardec.varAddr).Everywhere P hi ∧
      (ρ.after vardec).Everywhere P body
  | _, ρ, t@(.breakExp _) => P ρ t
  | _, ρ, t@(.letExp _ chunks body) =>
    P ρ t ∧ ρ.Everywhere P chunks ∧ (ρ.after chunks).Everywhere P body
  | _, ρ, t@(.arrayExp _ n s i) =>
    P ρ t ∧ ρ.Everywhere P n ∧ ρ.Everywhere P s ∧ ρ.Everywhere P i
  | _, ρ, t@(.castExp _ e ty) => P ρ t ∧ ρ.Everywhere P e ∧ ρ.Everywhere P ty
  | _, ρ, t@(.nameTy _ _) => P ρ t
  | _, ρ, .ofNameTy n => ρ.Everywhere P n
  | _, ρ, t@(.recordTy _ fs) => P ρ t ∧ ρ.Everywhere P fs
  | _, ρ, t@(.arrayTy _ n) => P ρ t ∧ ρ.Everywhere P n
  | _, ρ, t@(.field _ _ n) => P ρ t ∧ ρ.Everywhere P n
  | _, ρ, t@(.fieldInit _ _ i) => P ρ t ∧ ρ.Everywhere P i
  | _, ρ, t@(.varDec a x n i) =>
    P ρ t ∧ (ρ.putEarly x a).Everywhere P n ∧ (ρ.putEarly x a).Everywhere P i
  | _, ρ, t@(.functionDec _ _ formals result body) =>
    P ρ t ∧ ρ.Everywhere P formals ∧ ρ.putAside.Everywhere P result ∧
      (ρ.after formals).Everywhere P body
  | _, ρ, t@(.typeDec _ _ ty) => P ρ t ∧ ρ.putAside.Everywhere P ty
  | _, ρ, t@(.varChunk _ ds) => P ρ t ∧ ρ.Everywhere P ds
  | _, ρ, .ofVarChunk c => ρ.Everywhere P c
  | _, ρ, t@(.functionChunk _ ds) => P ρ t ∧ (ρ.putFuns ds.toList).Everywhere P ds
  | _, ρ, t@(.typeChunk _ ds) => P ρ t ∧ (ρ.putTypes ds.toList).Everywhere P ds
  | _, ρ, t@(.chunkList _ cs) => P ρ t ∧ ρ.Everywhere P cs

attribute [local simp] Everywhere after

variable {P Q R : ⦃k : Kind⦄ → Scope → Ast Addr k → Prop} {k : Kind} {ρ σ : Scope}

@[simp] theorem after_of_not_declares {t : Ast Addr k} (h : k.declares = false) :
    ρ.after t = ρ := by
  induction t generalizing ρ <;> simp_all [after, Kind.declares]

@[simp] theorem putFuns_aside (ds : List (Ast Addr .functionDec)) :
    (ρ.putFuns ds).aside = ρ.aside := by
  induction ds generalizing ρ with
  | nil => rfl
  | cons d ds ih => exact ih

@[simp] theorem putTypes_aside (ds : List (Ast Addr .typeDec)) :
    (ρ.putTypes ds).aside = ρ.aside := by
  induction ds generalizing ρ with
  | nil => rfl
  | cons d ds ih => exact ih

@[simp] theorem after_aside (ρ : Scope) (t : Ast Addr k) : (ρ.after t).aside = ρ.aside := by
  induction t generalizing ρ <;> simp_all [after, putVar]

theorem putFuns_congr (h : ρ.funs = σ.funs) (ds : List (Ast Addr .functionDec)) :
    (ρ.putFuns ds).funs = (σ.putFuns ds).funs := by
  induction ds generalizing ρ σ with
  | nil => exact h
  | cons d ds ih => exact ih (by simp [putFun, h])

theorem putTypes_congr (h : ρ.types = σ.types) (ds : List (Ast Addr .typeDec)) :
    (ρ.putTypes ds).types = (σ.putTypes ds).types := by
  induction ds generalizing ρ σ with
  | nil => exact h
  | cons d ds ih => exact ih (by simp [putType, h])

@[simp] theorem putTypes_funs (ds : List (Ast Addr .typeDec)) :
    (ρ.putTypes ds).funs = ρ.funs := by
  induction ds generalizing ρ with
  | nil => rfl
  | cons d ds ih => exact ih

@[simp] theorem putFuns_types (ds : List (Ast Addr .functionDec)) :
    (ρ.putFuns ds).types = ρ.types := by
  induction ds generalizing ρ with
  | nil => rfl
  | cons d ds ih => exact ih

theorem after_funs_congr {t : Ast Addr k} (h : ρ.funs = σ.funs) :
    (ρ.after t).funs = (σ.after t).funs := by
  induction t generalizing ρ σ with
  | cons x xs ihx ihxs => exact ihxs (ihx h)
  | some x ih | varChunk _ x ih | ofVarChunk x ih | chunkList _ x ih => exact ih h
  | functionChunk a ds => exact putFuns_congr h _
  | typeChunk a ds => simpa [after] using h
  | _ => exact h

@[simp] theorem putFuns_vars (ds : List (Ast Addr .functionDec)) :
    (ρ.putFuns ds).vars = ρ.vars ∧ (ρ.putFuns ds).early = ρ.early := by
  induction ds generalizing ρ with
  | nil => exact ⟨rfl, rfl⟩
  | cons d ds ih => exact ih

@[simp] theorem putTypes_vars (ds : List (Ast Addr .typeDec)) :
    (ρ.putTypes ds).vars = ρ.vars ∧ (ρ.putTypes ds).early = ρ.early := by
  induction ds generalizing ρ with
  | nil => exact ⟨rfl, rfl⟩
  | cons d ds ih => exact ih

theorem after_types_congr {t : Ast Addr k} (h : ρ.types = σ.types) :
    (ρ.after t).types = (σ.after t).types := by
  induction t generalizing ρ σ with
  | cons x xs ihx ihxs => exact ihxs (ihx h)
  | some x ih | varChunk _ x ih | ofVarChunk x ih | chunkList _ x ih => exact ih h
  | functionChunk a ds => simpa [after] using h
  | typeChunk a ds => exact putTypes_congr h _
  | _ => exact h

theorem after_early_congr {t : Ast Addr k} (h : ρ.early = σ.early) :
    (ρ.after t).early = (σ.after t).early := by
  induction t generalizing ρ σ with
  | cons x xs ihx ihxs => exact ihxs (ihx h)
  | some x ih | varChunk _ x ih | ofVarChunk x ih | chunkList _ x ih => exact ih h
  | varDec a x n i => simp [after, putVar, h]
  | functionChunk a ds => simpa [after, putFuns_vars] using h
  | typeChunk a ds => simpa [after, putTypes_vars] using h
  | _ => exact h

/-! ## What holds everywhere -/

/-- What follows at each node from two facts follows everywhere from them. -/
theorem Everywhere.imp₂ (h : ∀ ⦃k⦄ ρ (t : Ast Addr k), P ρ t → Q ρ t → R ρ t)
    {t : Ast Addr k} (hp : ρ.Everywhere P t) (hq : ρ.Everywhere Q t) : ρ.Everywhere R t := by
  induction t generalizing ρ <;> simp only [Everywhere] at hp hq ⊢ <;> grind

theorem Everywhere.imp (h : ∀ ⦃k⦄ ρ (t : Ast Addr k), P ρ t → R ρ t)
    {t : Ast Addr k} (hp : ρ.Everywhere P t) : ρ.Everywhere R t :=
  hp.imp₂ (fun _ ρ t hp _ => h ρ t hp) hp

/-- Two properties that agree at each node where `R` holds agree on a tree where `R` does. -/
theorem Everywhere.iff (h : ∀ ⦃k⦄ ρ (t : Ast Addr k), R ρ t → (P ρ t ↔ Q ρ t))
    {t : Ast Addr k} (hr : ρ.Everywhere R t) : ρ.Everywhere P t ↔ ρ.Everywhere Q t :=
  ⟨hr.imp₂ fun _ ρ t hr => (h ρ t hr).mp, hr.imp₂ fun _ ρ t hr => (h ρ t hr).mpr⟩

/-- What holds everywhere below a node holds everywhere below each node below it. -/
theorem Everywhere.everywhere {t : Ast Addr k} (hp : ρ.Everywhere P t) :
    ρ.Everywhere (fun _ ρ' t' => ρ'.Everywhere P t') t := by
  induction t generalizing ρ <;> simp only [Everywhere] at hp ⊢ <;> grind

/-- The elements of a collection that declares nothing lie in one scope. -/
theorem Everywhere.of_mem (hk : k.declares = false) : {xs : Ast Addr (.list k)} →
    ρ.Everywhere P xs → ∀ x ∈ xs.toList, ρ.Everywhere P x
  | .nil, _, x, hx => by simp at hx
  | .cons y ys, h, x, hx => by
    rw [Ast.toList_cons, List.mem_cons] at hx
    rcases hx with rfl | hx
    · exact h.1
    · have hys := h.2
      rw [after_of_not_declares hk] at hys
      exact hys.of_mem hk x hx

theorem Everywhere.aside {t : Ast Addr k} (h : ρ.aside = true) :
    ρ.Everywhere (fun _ ρ' _ => ρ'.aside = true) t := by
  induction t generalizing ρ <;> simp_all [Everywhere, putAside, putEarly]

theorem Everywhere.nodes {t : Ast Addr k} :
    ρ.Everywhere (fun _ _ t' => t'.nodes ⊆ t.nodes) t := by
  suffices h : ∀ ns, t.nodes ⊆ ns → ρ.Everywhere (fun _ _ t' => t'.nodes ⊆ ns) t from
    h _ (List.Subset.refl _)
  intro ns hs
  induction t generalizing ρ <;> simp_all [Everywhere, Ast.nodes]

end Scope

/-- The uses of variables, functions and types are bound to what lexical scoping makes visible,
and only `int` and `string` may be bound to nothing. -/
def LexicallyBound (f : Addr → Option Addr) ⦃k : Kind⦄ (ρ : Scope) : Ast Addr k → Prop
  | .simpleVar a x => ∃ d, ρ.vars x = some d ∧ f a = some d
  | .callExp a x _ => ∃ d, ρ.funs x = some d ∧ f a = some d
  | .nameTy a x => f a = ρ.types x ∧ (ρ.types x = none → x.isBuiltin = true)
  | _ => True

namespace Ast

variable {α : Type} {k : Kind}

/-- The variables a node adds to the scope after it. -/
def newVars : {k : Kind} → Ast α k → List Symbol
  | _, .cons x xs => x.newVars ++ xs.newVars
  | _, .some x => x.newVars
  | _, .varDec _ name _ _ => [name]
  | _, .varChunk _ ds => ds.newVars
  | _, .ofVarChunk c => c.newVars
  | _, .chunkList _ cs => cs.newVars
  | _, _ => []

/-- The free uses of the variable `x` in a node: the `SimpleVar`s of that name that lie in the
scope of no declaration of `x` inside the node. -/
def freeUses (x : Symbol) : {k : Kind} → Ast α k → List α
  | _, .nil => []
  | _, .cons y ys => y.freeUses x ++ if x ∈ y.newVars then [] else ys.freeUses x
  | _, .none => []
  | _, .some y => y.freeUses x
  | _, .simpleVar a name => if name = x then [a] else []
  | _, .fieldVar _ v _ => v.freeUses x
  | _, .subscriptVar _ v i => v.freeUses x ++ i.freeUses x
  | _, .ofVar v => v.freeUses x
  | _, .nilExp _ => []
  | _, .intExp _ _ => []
  | _, .stringExp _ _ => []
  | _, .callExp _ _ args => args.freeUses x
  | _, .opExp _ l _ r => l.freeUses x ++ r.freeUses x
  | _, .recordExp _ _ fs => fs.freeUses x
  | _, .seqExp _ es => es.freeUses x
  | _, .assignExp _ v e => v.freeUses x ++ e.freeUses x
  | _, .ifExp _ c t e => c.freeUses x ++ t.freeUses x ++ e.freeUses x
  | _, .whileExp _ c body => c.freeUses x ++ body.freeUses x
  | _, .forExp _ vardec hi body =>
    vardec.freeUses x ++ hi.freeUses x ++ if x ∈ vardec.newVars then [] else body.freeUses x
  | _, .breakExp _ => []
  | _, .letExp _ chunks body =>
    chunks.freeUses x ++ if x ∈ chunks.newVars then [] else body.freeUses x
  | _, .arrayExp _ _ s i => s.freeUses x ++ i.freeUses x
  | _, .castExp _ e _ => e.freeUses x
  | _, .nameTy _ _ => []
  | _, .ofNameTy _ => []
  | _, .recordTy _ _ => []
  | _, .arrayTy _ _ => []
  | _, .field _ _ _ => []
  | _, .fieldInit _ _ i => i.freeUses x
  | _, .varDec _ _ _ i => i.freeUses x
  | _, .functionDec _ _ formals _ body =>
    formals.freeUses x ++ if x ∈ formals.newVars then [] else body.freeUses x
  | _, .typeDec _ _ _ => []
  | _, .varChunk _ ds => ds.freeUses x
  | _, .ofVarChunk c => c.freeUses x
  | _, .functionChunk _ ds => ds.freeUses x
  | _, .typeChunk _ _ => []
  | _, .chunkList _ cs => cs.freeUses x

theorem freeUses_of_isType {t : Ast α k} {x : Symbol} (h : k.isType = true) :
    t.freeUses x = [] := by
  induction t <;> simp_all [freeUses, Kind.isType]

end Ast

end TigerCompiler
