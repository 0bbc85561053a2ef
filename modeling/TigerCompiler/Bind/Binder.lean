import TigerCompiler.Misc.ScopedMap

/-!
# `bind::Binder`

The pass that sets the `def_` member of every use it visits.  The tree itself is not rebuilt: a
node is known by its address, and `Binder.defs` maps the address of a use (`SimpleVar`,
`CallExp`, `BreakExp`, `NameTy`) to the address its `def_` points to, `none` being `nullptr`.

`Binder.visit` is the whole visitor: the methods `binder.cc` overrides, and for every other
class the traversal it inherits from `ast::DefaultVisitor`.
-/

namespace TigerCompiler

/-- The members of `bind::Binder`, and the `def_` members it has set so far.  `error_` is empty
until the visit that throws it. -/
structure Binder where
  mapVardec : ScopedMap Symbol Addr := .init
  mapFundec : ScopedMap Symbol Addr := .init
  mapTypedec : ScopedMap Symbol Addr := .init
  loops : List Addr := []
  inLoop : Bool := false
  defs : Addr → Option Addr := fun _ => none

namespace Binder

/-- `scope_begin`. -/
def scopeBegin (b : Binder) : Binder :=
  { b with
    mapVardec := b.mapVardec.scopeBegin
    mapTypedec := b.mapTypedec.scopeBegin
    mapFundec := b.mapFundec.scopeBegin }

/-- `scope_end`. -/
def scopeEnd (b : Binder) : Except Stop Binder := do
  let vs ← b.mapVardec.scopeEnd
  let ts ← b.mapTypedec.scopeEnd
  let fs ← b.mapFundec.scopeEnd
  return { b with mapVardec := vs, mapTypedec := ts, mapFundec := fs }

/-- `def_set` on the use at address `a`. -/
def defSet (b : Binder) (a : Addr) (d : Option Addr) : Binder :=
  { b with defs := Function.update b.defs a d }

@[simp] theorem defs_defSet (b : Binder) (a : Addr) (d : Option Addr) :
    (b.defSet a d).defs a = d := Function.update_self ..

theorem defs_defSet_of_ne {b : Binder} {a a' : Addr} {d : Option Addr} (h : a' ≠ a) :
    (b.defSet a d).defs a' = b.defs a' := Function.update_of_ne h ..

/-- `map_vardec_.put`. -/
def putVar (b : Binder) (name : Symbol) (a : Addr) : Except Stop Binder := do
  return { b with mapVardec := ← b.mapVardec.put name a }

/-- `map_fundec_.put`, after the test for a function of that name. -/
def putFunction (b : Binder) (name : Symbol) (a : Addr) : Except Stop Binder :=
  if b.mapFundec.contains name then
    .error (bindError ("duplicated function: ".toList ++ name))
  else do return { b with mapFundec := ← b.mapFundec.put name a }

/-- `operator()(TypeDec)`. -/
def putType (b : Binder) (name : Symbol) (a : Addr) : Except Stop Binder := do
  return { b with mapTypedec := ← b.mapTypedec.put name a }

/-- The loop of `operator()(VarChunk)` over the names already met. -/
def checkParameters : List Symbol → List Symbol → Except Stop Unit
  | _, [] => .ok ()
  | vars, name :: names =>
    if name ∈ vars then .error (bindError ("duplicated parameter: ".toList ++ name))
    else checkParameters (name :: vars) names

/-- The first loop of `operator()(FunctionChunk)`. -/
def putFunctions (b : Binder) : List (Ast Addr .functionDec) → Except Stop Binder
  | [] => .ok b
  | d :: ds => do (← b.putFunction d.functionName d.functionAddr).putFunctions ds

/-- `operator()(TypeChunk)`: the loop, with the visit of each `TypeDec` in it. -/
def putTypes (b : Binder) : List (Ast Addr .typeDec) → Except Stop Binder
  | [] => .ok b
  | d :: ds =>
    if b.mapTypedec.contains d.typeName then
      .error (bindError ("duplicated type: ".toList ++ d.typeName))
    else do (← b.putType d.typeName d.typeAddr).putTypes ds

/-- `operator()(SimpleVar)`. -/
def useVar (b : Binder) (a : Addr) (name : Symbol) : Except Stop Binder :=
  match b.mapVardec.get name with
  | none => .error (bindError ("undeclared variable: ".toList ++ name))
  | some d => .ok (b.defSet a (some d))

/-- `operator()(CallExp)`, before the arguments. -/
def useFunction (b : Binder) (a : Addr) (name : Symbol) : Except Stop Binder :=
  match b.mapFundec.get name with
  | none => .error (bindError ("undeclared/undefined function: ".toList ++ name))
  | some d => .ok (b.defSet a (some d))

/-- `operator()(NameTy)`. -/
def useType (b : Binder) (a : Addr) (name : Symbol) : Except Stop Binder :=
  match b.mapTypedec.get name with
  | none =>
    if name.isBuiltin then .ok (b.defSet a none)
    else .error (bindError ("undeclared type: ".toList ++ name))
  | some d => .ok (b.defSet a (some d))

/-- `operator()(BreakExp)`. -/
def useLoop (b : Binder) (a : Addr) : Except Stop Binder :=
  if b.inLoop then
    match b.loops with
    | l :: _ => .ok (b.defSet a (some l))
    | [] => .error (bindError "break outside loop: ".toList)
  else .error (bindError "Invalid break".toList)

/-- `in_loop_ = true; loops_.push(&e)`. -/
def enterLoop (b : Binder) (a : Addr) : Binder :=
  { b with inLoop := true, loops := a :: b.loops }

/-- `loops_.pop(); in_loop_ = copy`. -/
def leaveLoop (b : Binder) (copy : Bool) : Except Stop Binder :=
  match b.loops with
  | [] => .error .undefined
  | _ :: ls => .ok { b with loops := ls, inLoop := copy }

/-- `in_loop_ = false; scope_begin()`. -/
def enterBlock (b : Binder) : Binder := { b.scopeBegin with inLoop := false }

/-- `scope_end(); in_loop_ = copy`. -/
def leaveBlock (b : Binder) (copy : Bool) : Except Stop Binder := do
  return { ← b.scopeEnd with inLoop := copy }

/-- How a visit goes over a collection. -/
inductive Walk
  /-- `accept`: the method of the collection, which visits its elements in turn. -/
  | accept
  /-- The elements in turn, without the method of the collection: a loop of the parent. -/
  | elements
  /-- The elements in turn, each in a scope of its own: the loop of `operator()(SeqExp)`. -/
  | nested

/-- The visit of a node, or the loop its parent runs over it. -/
def visit : {k : Kind} → Binder → Ast Addr k → Walk → Except Stop Binder
  | _, b, .nil, _ => .ok b
  | _, b, .cons x xs, .nested => do
    let b ← b.scopeBegin.visit x .accept
    (← b.scopeEnd).visit xs .nested
  | _, b, .cons x xs, w => do (← b.visit x .accept).visit xs w
  | _, b, .none, _ => .ok b
  | _, b, .some x, _ => b.visit x .accept
  | _, b, .simpleVar a name, _ => b.useVar a name
  | _, b, .fieldVar _ v _, _ => b.visit v .accept
  | _, b, .subscriptVar _ v i, _ => do (← b.visit v .accept).visit i .accept
  | _, b, .ofVar v, _ => b.visit v .accept
  | _, b, .nilExp _, _ => .ok b
  | _, b, .intExp _ _, _ => .ok b
  | _, b, .stringExp _ _, _ => .ok b
  | _, b, .callExp a name args, _ => do (← b.useFunction a name).visit args .accept
  | _, b, .opExp _ l _ r, _ => do (← b.visit l .accept).visit r .accept
  | _, b, .recordExp _ t fs, _ => do (← b.visit t .accept).visit fs .accept
  | _, b, .seqExp _ es, _ => b.visit es .nested
  | _, b, .assignExp _ v e, _ => do (← b.visit v .accept).visit e .accept
  | _, b, .ifExp _ c t e, _ => do (← (← b.visit c .accept).visit t .accept).visit e .accept
  | _, b, .whileExp a _ body, _ => do
    let b' ← (b.enterLoop a).visit body .accept
    b'.leaveLoop b.inLoop
  | _, b, .forExp a vardec hi body, _ => do
    let b' ← (b.enterLoop a).scopeBegin.visit vardec .accept
    let b' ← b'.visit hi .accept
    let b' ← b'.visit body .accept
    (← b'.scopeEnd).leaveLoop b.inLoop
  | _, b, .breakExp a, _ => b.useLoop a
  | _, b, .letExp _ chunks body, _ => do
    let b' ← b.enterBlock.visit chunks .accept
    let b' ← b'.visit body .accept
    b'.leaveBlock b.inLoop
  | _, b, .arrayExp _ t s i, _ => do (← (← b.visit t .accept).visit s .accept).visit i .accept
  | _, b, .castExp _ e t, _ => do (← b.visit e .accept).visit t .accept
  | _, b, .nameTy a name, _ => b.useType a name
  | _, b, .ofNameTy n, _ => b.visit n .accept
  | _, b, .recordTy _ fs, _ => b.visit fs .accept
  | _, b, .arrayTy _ t, _ => b.visit t .accept
  | _, b, .field _ _ t, _ => b.visit t .accept
  | _, b, .fieldInit _ _ i, _ => b.visit i .accept
  | _, b, .varDec a name t i, _ => do
    (← (← b.putVar name a).visit t .accept).visit i .accept
  | _, b, .functionDec _ _ formals _ body, _ => do
    let b' ← b.enterBlock.visit formals .elements
    let b' ← b'.visit body .accept
    b'.leaveBlock b.inLoop
  -- A type declaration is visited by the loop of its chunk, as part of `putTypes`.
  | _, b, .typeDec _ _ _, _ => .ok b
  | _, b, .varChunk _ ds, .elements => b.visit ds .accept
  | _, b, .varChunk _ ds, _ => do
    checkParameters [] (ds.toList.map Ast.varName)
    b.visit ds .accept
  | _, b, .ofVarChunk c, _ => b.visit c .accept
  | _, b, .functionChunk _ ds, _ => do (← b.putFunctions ds.toList).visit ds .accept
  | _, b, .typeChunk _ ds, _ => b.putTypes ds.toList
  | _, b, .chunkList _ cs, _ => b.visit cs .accept

end Binder

/-- `launch_bind`: a fresh `Binder` visits the program. -/
def bind (program : Ast Addr .chunkList) : Except Stop Binder := Binder.visit {} program .accept

end TigerCompiler
