import TigerCompiler.Misc.Symbol
import Mathlib.Logic.Function.Basic

/-!
# `bind::Renamer`

The pass that gives every declaration a name of its own, and each use the name of its
declaration.  It works in place: `Renamer.names` maps the address of a node to its `name_`
member, and `Ast.withNames` is the tree once the pass is over.

`Renamer.accept` is the whole visitor: the methods `renamer.cc` overrides, and for every other
class the traversal it inherits from `ast::DefaultVisitor`.
-/

namespace TigerCompiler

/-- The only function with a body that keeps its name. -/
def Symbol.main : Symbol := "_main".toList

namespace Ast

variable {k : Kind}

/-- What `name_get` returns on a node that has a name to resolve or to declare. -/
def nameGet : {k : Kind} → Ast Addr k → Symbol
  | _, .simpleVar _ name => name
  | _, .callExp _ name _ => name
  | _, .nameTy _ name => name
  | _, .varDec _ name _ _ => name
  | _, .functionDec _ name _ _ _ => name
  | _, .typeDec _ name _ => name
  | _, _ => []

/-- `name_get` on the node at an address. -/
def nameAt (program : Ast Addr k) (a : Addr) : Symbol :=
  (program.deref a).elim [] fun c => c.2.nameGet

/-- `body_get() != nullptr` on the `FunctionDec` at an address. -/
def hasBodyAt (program : Ast Addr k) (a : Addr) : Bool :=
  match program.deref a with
  | .some ⟨.functionDec, d⟩ => d.hasBody
  | _ => false

/-- The tree whose `name_` members are `names`. -/
def withNames (names : Addr → Symbol) : {k : Kind} → Ast Addr k → Ast Addr k
  | _, .nil => .nil
  | _, .cons x xs => .cons (x.withNames names) (xs.withNames names)
  | _, .none => .none
  | _, .some x => .some (x.withNames names)
  | _, .simpleVar a _ => .simpleVar a (names a)
  | _, .fieldVar a v x => .fieldVar a (v.withNames names) x
  | _, .subscriptVar a v i => .subscriptVar a (v.withNames names) (i.withNames names)
  | _, .ofVar v => .ofVar (v.withNames names)
  | _, .nilExp a => .nilExp a
  | _, .intExp a n => .intExp a n
  | _, .stringExp a s => .stringExp a s
  | _, .callExp a _ args => .callExp a (names a) (args.withNames names)
  | _, .opExp a l o r => .opExp a (l.withNames names) o (r.withNames names)
  | _, .recordExp a t fs => .recordExp a (t.withNames names) (fs.withNames names)
  | _, .seqExp a es => .seqExp a (es.withNames names)
  | _, .assignExp a v e => .assignExp a (v.withNames names) (e.withNames names)
  | _, .ifExp a c t e => .ifExp a (c.withNames names) (t.withNames names) (e.withNames names)
  | _, .whileExp a c b => .whileExp a (c.withNames names) (b.withNames names)
  | _, .forExp a d h b => .forExp a (d.withNames names) (h.withNames names) (b.withNames names)
  | _, .breakExp a => .breakExp a
  | _, .letExp a cs b => .letExp a (cs.withNames names) (b.withNames names)
  | _, .arrayExp a t s i =>
    .arrayExp a (t.withNames names) (s.withNames names) (i.withNames names)
  | _, .castExp a e t => .castExp a (e.withNames names) (t.withNames names)
  | _, .nameTy a _ => .nameTy a (names a)
  | _, .ofNameTy n => .ofNameTy (n.withNames names)
  | _, .recordTy a fs => .recordTy a (fs.withNames names)
  | _, .arrayTy a t => .arrayTy a (t.withNames names)
  | _, .field a x t => .field a x (t.withNames names)
  | _, .fieldInit a x i => .fieldInit a x (i.withNames names)
  | _, .varDec a _ t i => .varDec a (names a) (t.withNames names) (i.withNames names)
  | _, .functionDec a _ fs r b =>
    .functionDec a (names a) (fs.withNames names) (r.withNames names) (b.withNames names)
  | _, .typeDec a _ t => .typeDec a (names a) (t.withNames names)
  | _, .varChunk a ds => .varChunk a (ds.withNames names)
  | _, .ofVarChunk c => .ofVarChunk (c.withNames names)
  | _, .functionChunk a ds => .functionChunk a (ds.withNames names)
  | _, .typeChunk a ds => .typeChunk a (ds.withNames names)
  | _, .chunkList a cs => .chunkList a (cs.withNames names)

end Ast

/-- The members of `bind::Renamer`, the `name_` members of the nodes and the counter of
`misc::symbol::fresh`. -/
structure Renamer where
  uniqueNames : Addr → Option Symbol := fun _ => none
  names : Addr → Symbol
  counter : UInt32

namespace Renamer

variable {k : Kind}

/-- `unique_names_[def] = misc::symbol::fresh(def->name_get())`, unless it is there. -/
def unique (r : Renamer) (d : Addr) : Renamer :=
  match r.uniqueNames d with
  | some _ => r
  | none =>
    { r with
      uniqueNames := Function.update r.uniqueNames d (some ((r.names d).fresh r.counter))
      counter := r.counter + 1 }

/-- `e.name_set(name)`. -/
def nameSet (r : Renamer) (e : Addr) (name : Symbol) : Renamer :=
  { r with names := Function.update r.names e name }

/-- `visit(e, def)`. -/
def visit (r : Renamer) (e : Addr) : Option Addr → Renamer
  | none => r
  | some d => (r.unique d).nameSet e (((r.unique d).uniqueNames d).getD [])

/-- `operator()` on a node; `defs` are the `def_` members and `bodies` tells the functions that
have a body. -/
def accept (defs : Addr → Option Addr) (bodies : Addr → Bool) :
    {k : Kind} → Renamer → Ast Addr k → Renamer
  | _, r, .nil => r
  | _, r, .cons x xs => (r.accept defs bodies x).accept defs bodies xs
  | _, r, .none => r
  | _, r, .some x => r.accept defs bodies x
  | _, r, .simpleVar a _ => r.visit a (defs a)
  | _, r, .fieldVar _ v _ => r.accept defs bodies v
  | _, r, .subscriptVar _ v i => (r.accept defs bodies v).accept defs bodies i
  | _, r, .ofVar v => r.accept defs bodies v
  | _, r, .nilExp _ => r
  | _, r, .intExp _ _ => r
  | _, r, .stringExp _ _ => r
  | _, r, .callExp a _ args =>
    (if (defs a).any bodies then r.visit a (defs a) else r).accept defs bodies args
  | _, r, .opExp _ l _ r' => (r.accept defs bodies l).accept defs bodies r'
  | _, r, .recordExp _ t fs => (r.accept defs bodies t).accept defs bodies fs
  | _, r, .seqExp _ es => r.accept defs bodies es
  | _, r, .assignExp _ v e => (r.accept defs bodies v).accept defs bodies e
  | _, r, .ifExp _ c t e =>
    ((r.accept defs bodies c).accept defs bodies t).accept defs bodies e
  | _, r, .whileExp _ c b => (r.accept defs bodies c).accept defs bodies b
  | _, r, .forExp _ d h b =>
    ((r.accept defs bodies d).accept defs bodies h).accept defs bodies b
  | _, r, .breakExp _ => r
  | _, r, .letExp _ cs b => (r.accept defs bodies cs).accept defs bodies b
  | _, r, .arrayExp _ t s i =>
    ((r.accept defs bodies t).accept defs bodies s).accept defs bodies i
  | _, r, .castExp _ e t => (r.accept defs bodies e).accept defs bodies t
  | _, r, .nameTy a _ => r.visit a (defs a)
  | _, r, .ofNameTy n => r.accept defs bodies n
  | _, r, .recordTy _ fs => r.accept defs bodies fs
  | _, r, .arrayTy _ t => r.accept defs bodies t
  | _, r, .field _ _ t => r.accept defs bodies t
  | _, r, .fieldInit _ _ i => r.accept defs bodies i
  | _, r, .varDec a _ t i =>
    ((r.visit a (some a)).accept defs bodies t).accept defs bodies i
  -- Primitives are skipped, their formals and their result included.
  | _, r, .functionDec a _ formals result body =>
    if body.isSome then
      (((if r.names a = Symbol.main then r else r.visit a (some a)).accept defs bodies
        formals).accept defs bodies result).accept defs bodies body
    else r
  | _, r, .typeDec a _ t => (r.visit a (some a)).accept defs bodies t
  | _, r, .varChunk _ ds => r.accept defs bodies ds
  | _, r, .ofVarChunk c => r.accept defs bodies c
  | _, r, .functionChunk _ ds => r.accept defs bodies ds
  | _, r, .typeChunk _ ds => r.accept defs bodies ds
  | _, r, .chunkList _ cs => r.accept defs bodies cs

end Renamer

/-- `launch_rename`: a fresh `Renamer` visits the program. -/
def rename (defs : Addr → Option Addr) (counter : UInt32) (program : Ast Addr .chunkList) :
    Renamer :=
  Renamer.accept defs program.hasBodyAt { names := program.nameAt, counter } program

end TigerCompiler
