import TigerCompiler.Type.Types
import Mathlib.Logic.Function.Basic

/-!
# `type::TypeChecker`

The pass that computes the `type_` of every node and the types the declarations create.  As for
the `Binder` a node is known by its address.  The checker jumps from a use to its declaration
through the `def_` members, so what its pointers lead to is the whole program: `Tree` holds the
`def_` members and gives the declaration at an address.

The calls of `type` on other nodes are not bounded by the tree.  `accept` therefore runs on fuel,
and `visit`, which is one method of the visitor, takes the `accept` it is to call as a parameter.
A null pointer that is followed and an index out of range stop the run with `undefined`; the
arguments of a call are evaluated from left to right.
-/

namespace TigerCompiler

/-- The bound program the checker runs on, reached through pointers. -/
structure Tree where
  /-- The `def_` of each use. -/
  defs : Addr → Option Addr
  varDecs : List (Ast Addr .varDec)
  typeDecs : List (Ast Addr .typeDec)

namespace Tree

/-- The `VarDec` at an address. -/
def varDec (m : Tree) (a : Addr) : Option (Ast Addr .varDec) :=
  m.varDecs.find? fun d => d.varAddr = a

/-- The `TypeDec` at an address. -/
def typeDec (m : Tree) (a : Addr) : Option (Ast Addr .typeDec) :=
  m.typeDecs.find? fun d => d.typeAddr = a

end Tree

/-- What is printed after a message. -/
inductive Culprit
  | type (t : TypePtr)
  | pointer (t : Option TypePtr)
  | symbol (s : Symbol)
  deriving DecidableEq, Repr

/-- An entry of the checker's `error_`, with the node its location comes from. -/
inductive Report
  | error (node : Addr) (msg : Str) (exp : Option Culprit)
  | mismatch (node : Addr) (exp1 : Str) (type1 : TypePtr) (exp2 : Str) (type2 : TypePtr)
  deriving DecidableEq, Repr

/-- The node an entry of `error_` is located at. -/
def Report.node : Report → Addr
  | .error a _ _ => a
  | .mismatch a _ _ _ _ => a

/-- The members of `type::TypeChecker`, with the `type_` members and the objects made so far. -/
structure TypeChecker where
  types : Addr → Option TypePtr := fun _ => none
  heap : TypeHeap := {}
  readOnly : List Addr := []
  errors : List Report := []

/-- Set a member that is still null. -/
def setDefault {β : Type} (f : Addr → Option β) (a : Addr) (v : β) : Addr → Option β :=
  if (f a).isSome then f else Function.update f a (some v)

section SetDefault

variable {β : Type} {f : Addr → Option β} {a b : Addr} {v : β}

theorem setDefault_of_ne (h : b ≠ a) : setDefault f a v b = f b := by
  unfold setDefault
  split
  · rfl
  · exact Function.update_of_ne h ..

/-- A member is set once its default is. -/
theorem isSome_setDefault : (setDefault f a v a).isSome = true := by
  unfold setDefault
  split
  · assumption
  · simp

/-- A member that is set stays so. -/
theorem isSome_setDefault_of_isSome (h : (f b).isSome = true) :
    (setDefault f a v b).isSome = true := by
  by_cases hb : b = a
  · exact hb ▸ isSome_setDefault
  · rwa [setDefault_of_ne hb]

end SetDefault

namespace TypeChecker

variable {j k : Kind}

/-! ## Types of nodes -/

/-- `type_get` on a node. -/
def typeGet (s : TypeChecker) (e : Ast Addr k) : Option TypePtr := s.types e.addr

/-- `type_set` on the node at `a`. -/
def typeSet (s : TypeChecker) (a : Addr) (t : Option TypePtr) : TypeChecker :=
  { s with types := Function.update s.types a t }

/-- `type_default` on the node at `a`. -/
def typeDefault (s : TypeChecker) (a : Addr) (t : TypePtr) : TypeChecker :=
  { s with types := setDefault s.types a t }

/-- `created_type_default(e, new Named(name))` on the `TypeDec` at `a`. -/
def createNamed (s : TypeChecker) (a : Addr) (name : Symbol) : TypeChecker :=
  { s with heap.nameds := setDefault s.heap.nameds a (name, none) }.typeDefault a (.named a)

/-- `created_type_default(e, new Record)` on the `RecordTy` at `a`. -/
def createRecord (s : TypeChecker) (a : Addr) (fields : List (Symbol × TypePtr)) : TypeChecker :=
  { s with heap.records := setDefault s.heap.records a fields }.typeDefault a (.record a)

/-- `created_type_default(e, new Array(t))` on the `ArrayTy` at `a`. -/
def createArray (s : TypeChecker) (a : Addr) (t : TypePtr) : TypeChecker :=
  { s with heap.arrays := setDefault s.heap.arrays a t }.typeDefault a (.array a)

/-- `created_type_default(e, new Function(formals, result))` on the `FunctionDec` at `a`. -/
def createFunction (s : TypeChecker) (a : Addr) (formals : List (Symbol × TypePtr))
    (result : TypePtr) : TypeChecker :=
  { s with heap.functions := setDefault s.heap.functions a (formals, result) }.typeDefault a
    (.function a)

/-- `created_type_get` on the `TypeDec` at `a`. -/
def createdTypeDec (s : TypeChecker) (a : Addr) : Option TypePtr :=
  (s.heap.nameds a).map fun _ => .named a

/-- `created_type_get` on a `Ty`.  A `NameTy` creates no type. -/
def createdTy (s : TypeChecker) : Ast Addr .ty → Option TypePtr
  | .ofNameTy _ => none
  | .recordTy a _ => (s.heap.records a).map fun _ => .record a
  | .arrayTy a _ => (s.heap.arrays a).map fun _ => .array a

/-- `type_set` on the `Named` made for the `TypeDec` at `a`. -/
def namedTypeSet (s : TypeChecker) (a : Addr) (t : Option TypePtr) : TypeChecker :=
  { s with heap.nameds := fun b =>
      if b = a then (s.heap.nameds a).map fun n => (n.1, t) else s.heap.nameds b }

/-! ## Errors -/

/-- `error`. -/
def error (s : TypeChecker) (a : Addr) (msg : Str) (exp : Option Culprit) : TypeChecker :=
  { s with errors := s.errors ++ [.error a msg exp] }

/-- `error_and_recover`: the node gets the type nil. -/
def errorAndRecover (s : TypeChecker) (a : Addr) (msg : Str) (exp : Culprit) : TypeChecker :=
  (s.error a msg (some exp)).typeSet a (some .nil)

/-- `type_mismatch`. -/
def typeMismatch (s : TypeChecker) (a : Addr) (exp1 : Str) (type1 : TypePtr) (exp2 : Str)
    (type2 : TypePtr) : TypeChecker :=
  { s with errors := s.errors ++ [.mismatch a exp1 type1 exp2 type2] }

/-- `check_types` on two types. -/
def checkTypes (s : TypeChecker) (n : Nat) (a : Addr) (exp1 : Str) (type1 : TypePtr)
    (exp2 : Str) (type2 : TypePtr) : Except Stop TypeChecker := do
  if ← s.heap.compatibleWith n type1 (← s.heap.actual n type2) then return s
  else return s.typeMismatch a exp1 type1 exp2 type2

/-! ## One method of the visitor -/

section Visit

variable (m : Tree) (n : Nat)
  (accept : ⦃k : Kind⦄ → Ast Addr k → TypeChecker → Except Stop TypeChecker)

/-- `type(e)` on a node; the type itself is then `typeGet`. -/
def type (s : TypeChecker) (e : Ast Addr k) : Except Stop TypeChecker :=
  if (s.typeGet e).isSome then .ok s else accept e s

/-- `*type(e)`. -/
def typeRef (s : TypeChecker) (e : Ast Addr k) : Except Stop (TypeChecker × TypePtr) := do
  let s ← s.type accept e
  match s.typeGet e with
  | some t => return (s, t)
  | none => throw .undefined

/-- `check_types(e, exp1, *type(e1), exp2, *type(e2))`. -/
def checkTypesOf (s : TypeChecker) (a : Addr) (exp1 : Str) (e1 : Ast Addr j) (exp2 : Str)
    (e2 : Ast Addr k) : Except Stop TypeChecker := do
  let (s, t1) ← s.typeRef accept e1
  let (s, t2) ← s.typeRef accept e2
  s.checkTypes n a exp1 t1 exp2 t2

/-- `check_type(e, msg, expected)`, for a builtin type. -/
def checkType (s : TypeChecker) (e : Ast Addr k) (msg : Str) (expected : TypePtr) :
    Except Stop TypeChecker := do
  let (s, t) ← s.typeRef accept e
  let t ← s.heap.actual n t
  if t = expected then return s
  else return s.errorAndRecover e.addr msg (.type t)

/-- `type` on the fields of a record type or the formals of a function, with the node that gives
the type of each. -/
def typeFields (s : TypeChecker) :
    List (Symbol × Ast Addr k) → Except Stop (TypeChecker × List (Symbol × TypePtr))
  | [] => .ok (s, [])
  | (name, e) :: es => do
    let (s, t) ← s.typeRef accept e
    let (s, ts) ← s.typeFields es
    return (s, (name, t) :: ts)

/-- The loop of `operator()(SeqExp)`: the state after it and `last`. -/
def typeSeq (s : TypeChecker) (last : Option TypePtr) :
    List (Ast Addr .exp) → Except Stop (TypeChecker × Option TypePtr)
  | [] => .ok (s, last)
  | e :: es => do
    let s ← s.type accept e
    s.typeSeq (s.typeGet e) es

/-- The loop of `operator()(RecordExp)`, over the fields of the expression and those of the
record type. -/
def checkFields (s : TypeChecker) (a : Addr) :
    List (Ast Addr .fieldInit) → List (Symbol × TypePtr) → Except Stop TypeChecker
  | [], _ => .ok s
  | _ :: _, [] => .error .undefined
  | .fieldInit _ _ init :: es, (_, t) :: ts => do
    let (s, u) ← s.typeRef accept init
    let s ← s.checkTypes n a "left field".toList t "right field".toList u
    s.checkFields a es ts

/-- The loop of `operator()(CallExp)`, once there are as many arguments as formals. -/
def checkArgs (s : TypeChecker) (a : Addr) :
    List (Ast Addr .exp) → List (Symbol × TypePtr) → Except Stop TypeChecker
  | e :: es, (_, t) :: ts => do
    let (s, u) ← s.typeRef accept e
    let s ← s.checkTypes n a "argument".toList u "formal".toList t
    s.checkArgs a es ts
  | _, _ => .ok s

/-- `operator()(CallExp)`, before it sets the type. -/
def checkCall (s : TypeChecker) (a : Addr) (args : List (Ast Addr .exp))
    (formals : List (Symbol × TypePtr)) : Except Stop TypeChecker :=
  if args.length ≠ formals.length then
    .ok (s.error a "invalid number of arguments".toList none)
  else s.checkArgs n accept a args formals

/-- `operator()(RecordExp)` on the fields of the record it found, before it sets the type. -/
def checkRecord (s : TypeChecker) (a : Addr) (es : List (Ast Addr .fieldInit)) :
    Option (List (Symbol × TypePtr)) → Except Stop TypeChecker
  | some fields => s.checkFields n accept a es fields
  | none => (s.error a "RecordExp: Untyped".toList none).checkFields n accept a es []

/-- The test of `operator()(AssignExp)` on `var_read_only_`. -/
def checkReadOnly (s : TypeChecker) (a : Addr) : Ast Addr .var → TypeChecker
  | .simpleVar u _ =>
    if (m.defs u).any (· ∈ s.readOnly) then s.error a "Updating read-only variable".toList none
    else s
  | _ => s

/-- A loop that runs `f` on each declaration or chunk. -/
def visitAll (f : TypeChecker → Ast Addr k → Except Stop TypeChecker) (s : TypeChecker) :
    List (Ast Addr k) → Except Stop TypeChecker
  | [] => .ok s
  | d :: ds => do (← f s d).visitAll f ds

/-- The names and the `VarDec`s of formals, the names and the `NameTy`s of fields. -/
def formalsOf (ds : List (Ast Addr .varDec)) : List (Symbol × Ast Addr .varDec) :=
  ds.map fun d => (d.varName, d)

@[inherit_doc formalsOf]
def fieldsOf (fs : List (Ast Addr .field)) : List (Symbol × Ast Addr .nameTy) :=
  fs.map fun | .field _ name n => (name, n)

/-- The type of the result of a function, void when there is none. -/
def typeResult (s : TypeChecker) :
    Ast Addr (.opt .nameTy) → Except Stop (TypeChecker × TypePtr)
  | .none => .ok (s, .void)
  | .some n => s.typeRef accept n

/-- `visit_dec_header<FunctionDec>`. -/
def functionHeader (s : TypeChecker) : Ast Addr .functionDec → Except Stop TypeChecker
  | .functionDec a _ (.varChunk _ formals) result _ => do
    let (s, fs) ← s.typeFields accept (formalsOf formals.toList)
    let (s, r) ← s.typeResult accept result
    return s.createFunction a fs r

/-- `visit_dec_body<FunctionDec>`, that is `visit_routine_body`. -/
def functionBody (s : TypeChecker) : Ast Addr .functionDec → Except Stop TypeChecker
  | .functionDec _ _ _ _ .none => .ok s
  | .functionDec a _ _ _ (.some body) =>
    match s.heap.functions a with
    | some (_, result) => do
      let (s, t) ← s.typeRef accept body
      s.checkTypes n a "body".toList t "return".toList result
    | none => .error .undefined

/-- `visit_dec_header<TypeDec>`. -/
def typeHeader (s : TypeChecker) : Ast Addr .typeDec → Except Stop TypeChecker
  | .typeDec a name _ => .ok (s.createNamed a name)

/-- `visit_dec_body<TypeDec>`. -/
def typeBody (s : TypeChecker) : Ast Addr .typeDec → Except Stop TypeChecker
  | .typeDec a name ty => do
    let s ← s.type accept ty
    let s := s.namedTypeSet a (s.createdTy ty)
    if ← s.heap.sound n a then return s
    else return s.errorAndRecover a "cycle of type detected".toList (.symbol name)

/-- `operator()(OpExp)`, before it sets the type. -/
def checkOperands (s : TypeChecker) (a : Addr) (left : Ast Addr .exp) (right : Ast Addr .exp) :
    Oper → Except Stop TypeChecker
  | .add | .sub | .mul | .div => do
    let s ← s.checkType n accept left "left op should be int".toList .int
    s.checkType n accept right "right op should be int".toList .int
  | .eq | .ne => s.checkTypesOf n accept a "left op".toList left "right op".toList right
  | .lt | .le | .gt | .ge => do
    let s ← s.checkTypesOf n accept a "left op".toList left "right op".toList right
    match s.typeGet left with
    | none => throw .undefined
    | some t =>
      let u ← s.heap.actual n t
      if u ≠ .int ∧ u ≠ .string then
        return s.errorAndRecover a "both op should be int or string".toList (.type t)
      else return s

/-- `dynamic_cast<const Record*>` on a pointer that may be null: the fields of the record. -/
def asRecord (s : TypeChecker) : Option TypePtr → Option (List (Symbol × TypePtr))
  | some (.record r) => s.heap.records r
  | _ => none

/-- `dynamic_cast<const Array*>` on a pointer that may be null: the type of the elements. -/
def asArray (s : TypeChecker) : Option TypePtr → Option TypePtr
  | some (.array r) => s.heap.arrays r
  | _ => none

/-- `Record::field_type`. -/
def fieldType (fields : List (Symbol × TypePtr)) (key : Symbol) : Except Stop TypePtr :=
  match fields.lookup key with
  | some t => .ok t
  | none => .error (typeError ("No field with key: ".toList ++ key))

/-- `typeName.def_get()->ty_get().type_get()`. -/
def typeOfBody (s : TypeChecker) (typeName : Ast Addr .nameTy) : Except Stop (Option TypePtr) :=
  match (m.defs typeName.addr).bind m.typeDec with
  | some (.typeDec _ _ ty) => .ok (s.typeGet ty)
  | none => .error .undefined

/-- The end of `operator()(VarDec)`, once it has the type `t` of its `type_name`. -/
def checkInit (s : TypeChecker) (a : Addr) (t : Option TypePtr) (init : Ast Addr .exp) :
    Except Stop TypeChecker := do
  let (s, u) ← s.typeRef accept init
  match t with
  | none => throw .undefined
  | some t =>
    let s ← s.checkTypes n a "init".toList u "type".toList t
    return s.typeSet a (some t)

/-- `operator()(VarDec)`. -/
def visitVarDec (s : TypeChecker) (a : Addr) :
    Ast Addr (.opt .nameTy) → Ast Addr (.opt .exp) → Except Stop TypeChecker
  | .none, .none => .ok (s.error a "No detectable type".toList none)
  | .none, .some init => do
    let s ← s.type accept init
    return s.typeSet a (s.typeGet init)
  | .some t, .none => do
    let s ← s.type accept t
    return s.typeSet a (s.typeGet t)
  | .some t, .some init => do
    let s ← s.type accept t
    s.checkInit n accept a (s.typeGet t) init

/-- `operator()` on a node. -/
def visit (s : TypeChecker) : {k : Kind} → Ast Addr k → Except Stop TypeChecker
  | _, .simpleVar a _ =>
    match m.defs a with
    | none => .ok s
    | some d => match m.varDec d with
      | none => .error .undefined
      | some v => do
        let s ← s.type accept v
        return s.typeSet a (s.typeGet v)
  | _, .fieldVar a v name => do
    let s ← s.type accept v
    match s.asRecord (s.typeGet v) with
    | some fields => return s.typeSet a (some (← fieldType fields name))
    | none => return s.errorAndRecover a "wrong type".toList (.pointer (s.typeGet v))
  | _, .subscriptVar a v i => do
    let s ← s.checkType n accept i "expected int".toList .int
    let s ← s.type accept v
    match s.asArray (s.typeGet v) with
    | some t => return s.typeSet a (some t)
    | none => return s.errorAndRecover a "wrong type".toList (.pointer (s.typeGet v))
  | _, .ofVar v => accept v s
  | _, .nilExp a => .ok (s.typeSet a (some .nil))
  | _, .intExp a _ => .ok (s.typeSet a (some .int))
  | _, .stringExp a _ => .ok (s.typeSet a (some .string))
  | _, .callExp a _ args =>
    match (m.defs a).bind s.heap.functions with
    | some (formals, result) => do
      let s ← s.checkCall n accept a args.toList formals
      return s.typeSet a (some result)
    | none => .error .undefined
  | _, .opExp a l op r => do
    let s ← s.checkOperands n accept a l r op
    return s.typeSet a (some .int)
  | _, .recordExp a t fs => do
    let s ← s.checkRecord n accept a fs.toList (s.asRecord (← s.typeOfBody m t))
    let s ← s.type accept t
    return s.typeSet a (s.typeGet t)
  | _, .seqExp a es => do
    let (s, last) ← s.typeSeq accept (some .void) es.toList
    return s.typeSet a last
  | _, .assignExp a v e => do
    let s ← (s.checkReadOnly m a v).checkTypesOf n accept a "var".toList v "exp".toList e
    return s.typeSet a (some .void)
  | _, .ifExp a c t e => do
    let s ← s.checkType n accept c "expected int".toList .int
    let s ← s.checkTypesOf n accept a "then".toList t "else".toList e
    return s.typeSet a (s.typeGet t)
  | _, .whileExp a c body => do
    let s ← s.checkType n accept c "expected int".toList .int
    let s ← s.checkType n accept body "expected void".toList .void
    return s.typeSet a (some .void)
  | _, .forExp a vardec hi body => do
    let s ← s.checkType n accept vardec "expected int".toList .int
    let s ← s.checkType n accept hi "expected int".toList .int
    let s := { s with readOnly := vardec.varAddr :: s.readOnly }
    let s ← s.checkType n accept body "expected void".toList .void
    return s.typeSet a (some .void)
  | _, .breakExp a => .ok (s.typeSet a (some .void))
  | _, .letExp a chunks body => do
    let s ← accept chunks s
    let s ← s.type accept body
    return s.typeSet a (s.typeGet body)
  | _, .arrayExp a t size init => do
    let (s, u) ← s.typeRef accept size
    let s ← s.checkTypes n a "len".toList u "given".toList .int
    let s ← s.checkTypesOf n accept a "array".toList t "elements".toList init
    return s.typeSet a (s.typeGet t)
  | _, .castExp a _ ty => do
    let s ← s.type accept ty
    return s.typeSet a (s.typeGet ty)
  | _, .nameTy a name =>
    if name = "int".toList then .ok (s.typeSet a (some .int))
    else if name = "string".toList then .ok (s.typeSet a (some .string))
    else match m.defs a with
      | some d => .ok (s.typeSet a (s.createdTypeDec d))
      | none => .ok s
  | _, .ofNameTy t => accept t s
  | _, .recordTy a fs => do
    let (s, fields) ← s.typeFields accept (fieldsOf fs.toList)
    return s.createRecord a fields
  | _, .arrayTy a t => do
    let (s, u) ← s.typeRef accept t
    return s.createArray a u
  | _, .varDec a _ t i => s.visitVarDec n accept a t i
  | _, .varChunk _ ds => s.visitAll (fun s d => accept d s) ds.toList
  | _, .ofVarChunk c => accept c s
  | _, .functionChunk _ ds => do
    let s ← s.visitAll (fun s d => s.functionHeader accept d) ds.toList
    s.visitAll (fun s d => s.functionBody n accept d) ds.toList
  | _, .typeChunk _ ds => do
    let s ← s.visitAll (fun s d => s.typeHeader d) ds.toList
    s.visitAll (fun s d => s.typeBody n accept d) ds.toList
  | _, .chunkList _ cs => s.visitAll (fun s c => accept c s) cs.toList
  -- The other classes have no type and are never visited by themselves.
  | _, .nil | _, .cons _ _ | _, .none | _, .some _ | _, .field _ _ _ | _, .fieldInit _ _ _
  | _, .functionDec _ _ _ _ _ | _, .typeDec _ _ _ => .error .undefined

end Visit

/-- `accept` on a node, with fuel for `n` nested calls. -/
def accept (m : Tree) : Nat → ⦃k : Kind⦄ → Ast Addr k → TypeChecker → Except Stop TypeChecker
  | 0, _, _, _ => .error .outOfFuel
  | n + 1, _, e, s => s.visit m n (accept m n) e

end TypeChecker

/-- `types_check`: a fresh `TypeChecker` visits the program. -/
def typesCheck (m : Tree) (n : Nat) (program : Ast Addr .chunkList) : Except Stop TypeChecker :=
  TypeChecker.accept m n program {}

end TigerCompiler
