import TigerCompiler.Bind.Lexical

/-!
# The uses of names

Lexical scoping again, with what a renaming has to know: `Decls.uses` lists the uses of a tree,
each with all the declarations of its sort that surround it, hidden ones included.  A name is
resolved to the innermost declaration that has it, and this is what `Scope` says
(`everywhere_iff_bound`).
-/

namespace TigerCompiler

variable {k : Kind}

/-- The name spaces of Tiger. -/
inductive Space
  | variable | function | type
  deriving DecidableEq

/-- A `SimpleVar`, a `CallExp` or a `NameTy`. -/
structure Use where
  space : Space
  addr : Addr
  name : Symbol
  /-- The declarations whose scope the use lies in, with their names, the innermost first. -/
  around : List (Symbol × Addr)
  /-- Whether the use lies in the formals or the result of a primitive. -/
  inPrimitive : Bool

/-- The declarations around a place, each sort with the innermost first. -/
structure Decls where
  vars : List (Symbol × Addr) := []
  funs : List (Symbol × Addr) := []
  types : List (Symbol × Addr) := []
  inPrimitive : Bool := false

namespace Decls

/-- The declarations once a variable is declared. -/
def putVar (δ : Decls) (name : Symbol) (a : Addr) : Decls :=
  { δ with vars := (name, a) :: δ.vars }

/-- The declarations once the functions of a chunk are. -/
def putFuns (δ : Decls) (ds : List (Ast Addr .functionDec)) : Decls :=
  { δ with funs := (ds.map fun d => (d.functionName, d.functionAddr)).reverse ++ δ.funs }

/-- The declarations once the types of a chunk are. -/
def putTypes (δ : Decls) (ds : List (Ast Addr .typeDec)) : Decls :=
  { δ with types := (ds.map fun d => (d.typeName, d.typeAddr)).reverse ++ δ.types }

/-- The declarations around the formals and the result of a function. -/
def signature (δ : Decls) (body : Ast Addr (.opt .exp)) : Decls :=
  { δ with inPrimitive := δ.inPrimitive || !body.isSome }

/-- The declarations around what follows a node. -/
def after : {k : Kind} → Decls → Ast Addr k → Decls
  | _, δ, .cons x xs => (δ.after x).after xs
  | _, δ, .some x => δ.after x
  | _, δ, .varDec a name _ _ => δ.putVar name a
  | _, δ, .varChunk _ ds => δ.after ds
  | _, δ, .ofVarChunk c => δ.after c
  | _, δ, .functionChunk _ ds => δ.putFuns ds.toList
  | _, δ, .typeChunk _ ds => δ.putTypes ds.toList
  | _, δ, .chunkList _ cs => δ.after cs
  | _, δ, _ => δ

/-- The uses of a tree, in the order of the text. -/
def uses : {k : Kind} → Decls → Ast Addr k → List Use
  | _, _, .nil => []
  | _, δ, .cons x xs => δ.uses x ++ (δ.after x).uses xs
  | _, _, .none => []
  | _, δ, .some x => δ.uses x
  | _, δ, .simpleVar a name => [⟨.variable, a, name, δ.vars, δ.inPrimitive⟩]
  | _, δ, .fieldVar _ v _ => δ.uses v
  | _, δ, .subscriptVar _ v i => δ.uses v ++ δ.uses i
  | _, δ, .ofVar v => δ.uses v
  | _, _, .nilExp _ => []
  | _, _, .intExp _ _ => []
  | _, _, .stringExp _ _ => []
  | _, δ, .callExp a name args =>
    ⟨.function, a, name, δ.funs, δ.inPrimitive⟩ :: δ.uses args
  | _, δ, .opExp _ l _ r => δ.uses l ++ δ.uses r
  | _, δ, .recordExp _ t fs => δ.uses t ++ δ.uses fs
  | _, δ, .seqExp _ es => δ.uses es
  | _, δ, .assignExp _ v e => δ.uses v ++ δ.uses e
  | _, δ, .ifExp _ c t e => δ.uses c ++ δ.uses t ++ δ.uses e
  | _, δ, .whileExp _ c b => δ.uses c ++ δ.uses b
  | _, δ, .forExp _ d h b => δ.uses d ++ δ.uses h ++ (δ.after d).uses b
  | _, _, .breakExp _ => []
  | _, δ, .letExp _ cs b => δ.uses cs ++ (δ.after cs).uses b
  | _, δ, .arrayExp _ t s i => δ.uses t ++ δ.uses s ++ δ.uses i
  | _, δ, .castExp _ e t => δ.uses e ++ δ.uses t
  | _, δ, .nameTy a name => [⟨.type, a, name, δ.types, δ.inPrimitive⟩]
  | _, δ, .ofNameTy n => δ.uses n
  | _, δ, .recordTy _ fs => δ.uses fs
  | _, δ, .arrayTy _ t => δ.uses t
  | _, δ, .field _ _ t => δ.uses t
  | _, δ, .fieldInit _ _ i => δ.uses i
  | _, δ, .varDec _ _ t i => δ.uses t ++ δ.uses i
  | _, δ, .functionDec _ _ formals result body =>
    (δ.signature body).uses formals ++ (δ.signature body).uses result ++
      (δ.after formals).uses body
  | _, δ, .typeDec _ _ t => δ.uses t
  | _, δ, .varChunk _ ds => δ.uses ds
  | _, δ, .ofVarChunk c => δ.uses c
  | _, δ, .functionChunk _ ds => (δ.putFuns ds.toList).uses ds
  | _, δ, .typeChunk _ ds => (δ.putTypes ds.toList).uses ds
  | _, δ, .chunkList _ cs => δ.uses cs

/-- The scope in which each name is resolved to its innermost declaration. -/
structure Agrees (δ : Decls) (ρ : Scope) : Prop where
  vars : ∀ x, ρ.vars x = δ.vars.lookup x
  funs : ∀ x, ρ.funs x = δ.funs.lookup x
  types : ∀ x, ρ.types x = δ.types.lookup x

variable {δ : Decls} {ρ : Scope}

theorem update_lookup {f : Symbol → Option Addr} {l : List (Symbol × Addr)}
    (h : ∀ x, f x = l.lookup x) (y : Symbol) (a : Addr) (x : Symbol) :
    Function.update f y (some a) x = ((y, a) :: l).lookup x := by
  rw [List.lookup_cons]
  by_cases hx : x = y
  · subst hx
    simp
  · simp [hx, h x, beq_false_of_ne hx]

theorem Agrees.putVar (h : δ.Agrees ρ) (x : Symbol) (a : Addr) :
    (δ.putVar x a).Agrees (ρ.putVar x a) := ⟨update_lookup h.vars x a, h.funs, h.types⟩

theorem Agrees.putFuns (h : δ.Agrees ρ) (ds : List (Ast Addr .functionDec)) :
    (δ.putFuns ds).Agrees (ρ.putFuns ds) := by
  induction ds generalizing δ ρ with
  | nil => exact h
  | cons d ds ih =>
    have hd : Agrees { δ with funs := (d.functionName, d.functionAddr) :: δ.funs }
        (ρ.putFun d.functionName d.functionAddr) := ⟨h.vars, update_lookup h.funs _ _, h.types⟩
    simpa [Decls.putFuns, Scope.putFuns] using ih hd

theorem Agrees.putTypes (h : δ.Agrees ρ) (ds : List (Ast Addr .typeDec)) :
    (δ.putTypes ds).Agrees (ρ.putTypes ds) := by
  induction ds generalizing δ ρ with
  | nil => exact h
  | cons d ds ih =>
    have hd : Agrees { δ with types := (d.typeName, d.typeAddr) :: δ.types }
        (ρ.putType d.typeName d.typeAddr) := ⟨h.vars, h.funs, update_lookup h.types _ _⟩
    simpa [Decls.putTypes, Scope.putTypes] using ih hd

theorem Agrees.after (h : δ.Agrees ρ) (t : Ast Addr k) : (δ.after t).Agrees (ρ.after t) := by
  induction t generalizing δ ρ with
  | cons x xs ihx ihxs => exact ihxs (ihx h)
  | some x ih | varChunk _ x ih | ofVarChunk x ih | chunkList _ x ih => exact ih h
  | varDec a x => exact h.putVar x a
  | functionChunk _ ds => exact h.putFuns ds.toList
  | typeChunk _ ds => exact h.putTypes ds.toList
  | _ => exact h

end Decls

/-- The declaration a use refers to: the innermost one of its name. -/
def Use.decl (u : Use) : Option Addr := u.around.lookup u.name

/-- A use is bound to the declaration it refers to, and only `int` and `string` may be bound to
nothing. -/
def Use.Bound (defs : Addr → Option Addr) (u : Use) : Prop :=
  defs u.addr = u.decl ∧ (u.decl = none → u.space = .type ∧ u.name.isBuiltin = true)

/-- Being bound as lexical scoping says, use by use. -/
theorem Decls.Agrees.everywhere_iff_bound {δ : Decls} {ρ : Scope} {defs : Addr → Option Addr}
    (h : δ.Agrees ρ) (t : Ast Addr k) :
    ρ.Everywhere (LexicallyBound defs) t ↔ ∀ u ∈ δ.uses t, u.Bound defs := by
  induction t generalizing δ ρ with
  | simpleVar a x =>
    simp only [Scope.Everywhere, LexicallyBound, Decls.uses, List.mem_singleton, forall_eq,
      Use.Bound, Use.decl, h.vars]
    cases δ.vars.lookup x <;> simp
  | nameTy a x =>
    simp [Scope.Everywhere, LexicallyBound, Decls.uses, Use.Bound, Use.decl, h.types]
  | callExp a x args ih =>
    simp only [Scope.Everywhere, LexicallyBound, Decls.uses, List.mem_cons, forall_eq_or_imp,
      Use.Bound, Use.decl, h.funs, ih h]
    cases δ.funs.lookup x <;> simp
  | cons x xs ih₁ ih₂ =>
    simp [Scope.Everywhere, Decls.uses, or_imp, forall_and, ih₁ h, ih₂ (h.after x)]
  | forExp a d hi body ih₁ ih₂ ih₃ =>
    have he : δ.Agrees (ρ.putEarly d.varName d.varAddr) := ⟨h.vars, h.funs, h.types⟩
    simp [Scope.Everywhere, LexicallyBound, Decls.uses, or_imp, forall_and, ih₁ h, ih₂ he,
      ih₃ (h.after d)]
  | letExp a cs body ih₁ ih₂ =>
    simp [Scope.Everywhere, LexicallyBound, Decls.uses, or_imp, forall_and, ih₁ h,
      ih₂ (h.after cs)]
  | whileExp a c body ih₁ ih₂ =>
    have hc : δ.Agrees ρ.putAside := ⟨h.vars, h.funs, h.types⟩
    simp [Scope.Everywhere, LexicallyBound, Decls.uses, or_imp, forall_and, ih₁ hc, ih₂ h]
  | varDec a x n i ih₁ ih₂ =>
    have he : δ.Agrees (ρ.putEarly x a) := ⟨h.vars, h.funs, h.types⟩
    simp [Scope.Everywhere, LexicallyBound, Decls.uses, or_imp, forall_and, ih₁ he, ih₂ he]
  | functionDec a x formals result body ih₁ ih₂ ih₃ =>
    have hf : (δ.signature body).Agrees ρ := ⟨h.vars, h.funs, h.types⟩
    have hr : (δ.signature body).Agrees ρ.putAside := ⟨h.vars, h.funs, h.types⟩
    simp [Scope.Everywhere, LexicallyBound, Decls.uses, or_imp, forall_and, ih₁ hf, ih₂ hr,
      ih₃ (h.after formals)]
  | typeDec a x ty ih =>
    have ht : δ.Agrees ρ.putAside := ⟨h.vars, h.funs, h.types⟩
    simp [Scope.Everywhere, LexicallyBound, Decls.uses, ih ht]
  | functionChunk a ds ih =>
    simp [Scope.Everywhere, LexicallyBound, Decls.uses, ih (h.putFuns ds.toList)]
  | typeChunk a ds ih =>
    simp [Scope.Everywhere, LexicallyBound, Decls.uses, ih (h.putTypes ds.toList)]
  | _ =>
    simp only [Scope.Everywhere, LexicallyBound, Decls.uses, List.mem_append, List.not_mem_nil]
    grind

end TigerCompiler
