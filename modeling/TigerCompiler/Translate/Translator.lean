import TigerCompiler.Misc.Blocks
import TigerCompiler.Type.Types
import Mathlib.Logic.Function.Basic

/-!
# `llvmtranslate::Translator`

The pass that builds the LLVM functions of a program.  What it goes over is bound and typed, and
reached through pointers as for the `TypeChecker`.  The blocks and the cursor of the `IRBuilder`
are a `BlockBuilder`; an instruction is known by the order in which it was made.

The LLVM types of the instructions and their names are left out, and constants are not folded: a
`Create` method inserts one instruction.  The arguments of a call are evaluated from left to
right.
-/

namespace TigerCompiler

/-- The program the translator runs on. -/
structure Annotated where
  /-- The `def_` of each use. -/
  defs : Addr → Option Addr
  /-- The `type_` of each node. -/
  types : Addr → Option TypePtr
  heap : TypeHeap
  functionDecs : List (Ast Addr .functionDec)

/-- The `FunctionDec` at an address. -/
def Annotated.functionDec (m : Annotated) (a : Addr) : Option (Ast Addr .functionDec) :=
  m.functionDecs.find? fun d => d.functionAddr = a

/-! ## What is built -/

namespace Llvm

/-- `llvm::Value`. -/
inductive Value
  | int (n : Int)
  | null
  | string (s : Str)
  /-- An argument of a function. -/
  | argument (f k : Nat)
  /-- What an instruction gives. -/
  | result (i : Nat)
  deriving DecidableEq, Repr

/-- What an instruction does.  A function and a block are known by their numbers. -/
inductive Op
  | alloca (var : Addr)
  | load (ptr : Value)
  | store (val ptr : Value)
  | gep (ptr index : Value)
  | structGep (ptr : Value) (index : Nat)
  | binary (oper : Oper) (lhs rhs : Value)
  | zextOrTrunc (val : Value)
  | icmpNe (lhs rhs : Value)
  | ptrToInt (val : Value)
  | bitCast (val : Value)
  | call (callee : Nat) (args : List Value)
  | phi (incoming : List (Value × Option Nat))
  | br (dest : Nat)
  | condBr (cond : Value) (dest other : Nat)
  | ret (val : Option Value)
  deriving DecidableEq, Repr

/-- `Instruction::isTerminator`. -/
def Op.isTerminator : Op → Bool
  | .br _ | .condBr _ _ _ | .ret _ => true
  | _ => false

/-- An instruction, with its number. -/
structure Instr where
  id : Nat
  op : Op
  deriving DecidableEq, Repr

/-- Whether an instruction ends a block. -/
def Instr.ends (i : Instr) : Bool := i.op.isTerminator

/-- The LLVM type of a parameter. -/
inductive Param
  | i64
  /-- What a Tiger type is translated to. -/
  | of (t : TypePtr)
  /-- A pointer to that. -/
  | pointerTo (t : TypePtr)
  deriving DecidableEq, Repr

/-- `llvm::Function`, without its blocks. -/
structure Function where
  name : Symbol
  params : List Param
  /-- The `VarDec`s the arguments are named after. -/
  argDecs : List Addr := []

end Llvm

open Llvm (Value Op Param)

/-- The members of `llvmtranslate::Translator`, with the module it fills.  `value_` is what a
visit returns. -/
structure Translator where
  functions : List Llvm.Function := [⟨"tc_malloc".toList, [.i64], []⟩]
  /-- `Module::getFunction`. -/
  symbols : Symbol → Option Nat := fun x => if x = "tc_malloc".toList then some 0 else none
  builder : BlockBuilder (Option Nat) Llvm.Instr := {}
  /-- The number of the instructions. -/
  count : Nat := 0
  currentFunction : Option Nat := none
  locals : Nat → Addr → Option Value := fun _ _ => none
  loopEnd : Addr → Option Nat := fun _ => none
  escaped : Addr → Option (List Addr)

/-- What the visit of a node of a class returns: the value of an expression. -/
abbrev Kind.Result : Kind → Type
  | .exp | .var => Value
  | .list k => List k.Result
  | .opt k => Option k.Result
  | _ => Unit

namespace Translator

/-! ## Building -/

/-- Insert an instruction at the end of the current block. -/
def create (s : Translator) (op : Op) : Translator :=
  { s with count := s.count + 1, builder := s.builder.insert ⟨s.count, op⟩ }

/-- The last instruction. -/
def last (s : Translator) : Value := .result (s.count - 1)

/-- `BasicBlock::Create`, in the current function. -/
def newBlock (s : Translator) : Translator :=
  { s with builder := s.builder.newBlock s.currentFunction }

/-- `SetInsertPoint`, or `restoreIP`. -/
def moveTo (s : Translator) (c : Option Nat) : Translator :=
  { s with builder := s.builder.moveTo c }

/-- `create_alloca`, for the `VarDec` at `a`, whose storage it becomes. -/
def createAlloca (s : Translator) (a : Addr) : Except Stop Translator :=
  match s.currentFunction with
  | none => .error .undefined
  | some f =>
    match s.builder.entry (some f) with
    | none => .error .undefined
    | some c =>
      .ok { s with
        count := s.count + 1
        builder := s.builder.insertFront c ⟨s.count, .alloca a⟩
        locals :=
          Function.update s.locals f (Function.update (s.locals f) a (some (.result s.count))) }

/-- `Function::Create`.  A name that is taken is changed into one no declaration has. -/
def createFunction (s : Translator) (f : Llvm.Function) : Translator :=
  { s with
    functions := s.functions ++ [f]
    symbols :=
      if (s.symbols f.name).isSome then s.symbols
      else Function.update s.symbols f.name (some s.functions.length) }

/-- `Module::getFunction`, on a name it has to know. -/
def getFunction (s : Translator) (name : Symbol) : Except Stop Nat :=
  match s.symbols name with
  | none => .error .undefined
  | some f => .ok f

/-- `Module::getOrInsertFunction`. -/
def getOrInsertFunction (s : Translator) (name : Symbol) (params : List Param) : Translator :=
  if (s.symbols name).isSome then s else s.createFunction ⟨name, params, []⟩

/-- `escaped_[&function_type]`, which makes an entry where there is none. -/
def escapedRef (s : Translator) (f : Addr) : List Addr × Translator :=
  match s.escaped f with
  | none => ([], { s with escaped := Function.update s.escaped f (some []) })
  | some vs => (vs, s)

/-- `function_dec_name`. -/
def functionDecName (d : Ast Addr .functionDec) : Symbol :=
  if d.functionName = "_main".toList then "tc_main".toList
  else if d.hasBody then d.functionName
  else "tc_".toList ++ d.functionName

/-- `locals_.at(current_function_).at(def)`. -/
def localAt (s : Translator) (d : Option Addr) : Except Stop Value :=
  match s.currentFunction, d with
  | some f, some a =>
    match s.locals f a with
    | some v => .ok v
    | none => .error .logicError
  | _, _ => .error .logicError

/-! ## What is read of the types -/

section Types

variable (m : Annotated) (n : Nat)

/-- `type_get()->actual()`. -/
def actualType (a : Addr) : Except Stop TypePtr :=
  match m.types a with
  | none => .error .undefined
  | some t => m.heap.actual n t

/-- The `type::Function` of the `FunctionDec` at `a`. -/
def functionType (a : Addr) : Except Stop Addr := do
  match ← actualType m n a with
  | .function f => return f
  | _ => throw .undefined

/-- The fields of the `type::Record` of the node at `a`. -/
def recordFields (a : Addr) : Except Stop (List (Symbol × TypePtr)) := do
  match ← actualType m n a with
  | .record r =>
    match m.heap.records r with
    | some fields => return fields
    | none => throw .undefined
  | _ => throw .undefined

/-- `Record::field_index`. -/
def fieldIndex (fields : List (Symbol × TypePtr)) (key : Symbol) : Except Stop Nat :=
  if (fields.map Prod.fst).idxOf key < fields.length then .ok ((fields.map Prod.fst).idxOf key)
  else .error (typeError ("No field with key: ".toList ++ key))

/-- Whether the result of a `type::Function` is `Void`. -/
def returnsVoid (f : Addr) : Except Stop Bool := do
  match m.heap.functions f with
  | none => throw .undefined
  | some (_, result) => return (← m.heap.actual n result) == .void

/-- Whether values of a type are pointers. -/
def isPointer : TypePtr → Bool
  | .int | .void => false
  | _ => true

/-- `llvm_function_type`: its parameters. -/
def llvmFunctionType (s : Translator) (f : Addr) : Except Stop (List Param) := do
  let lifted ← ((s.escaped f).getD []).mapM fun v =>
    match m.types v with
    | none => throw .undefined
    | some t => return .pointerTo t
  match m.heap.functions f with
  | none => throw .undefined
  | some (formals, _) => return lifted ++ formals.map fun p => .of p.2

end Types

/-! ## Functions -/

section Functions

variable (m : Annotated) (n : Nat)

/-- The formals of a `FunctionDec`. -/
def formals : Ast Addr .functionDec → List Addr
  | .functionDec _ _ (.varChunk _ fs) _ _ => fs.toList.map Ast.varAddr

/-- The loop of `visit_function_dec_header` that names the arguments. -/
def argDecs (escaped formals : List Addr) (size : Nat) : Except Stop (List Addr) :=
  (List.range size).mapM fun i =>
    match if i < escaped.length then escaped[i]? else formals[i - escaped.length]? with
    | none => .error .undefined
    | some v => .ok v

/-- `visit_function_dec_header`. -/
def functionHeader (s : Translator) (d : Ast Addr .functionDec) : Except Stop Translator := do
  let f ← functionType m n d.functionAddr
  let params ← s.llvmFunctionType m f
  let (escaped, s) := s.escapedRef f
  let decs ← argDecs escaped (formals d) params.length
  return s.createFunction ⟨functionDecName d, params, decs⟩

/-- The first loop of `operator()(FunctionChunk)`. -/
def functionHeaders (s : Translator) : List (Ast Addr .functionDec) → Except Stop Translator
  | [] => .ok s
  | d :: ds => do (← s.functionHeader m n d).functionHeaders ds

/-- The arguments of a function, from the `k`-th on. -/
def argument (s : Translator) (f k : Nat) : Except Stop Value :=
  match s.functions[f]? with
  | none => .error .undefined
  | some g => if k < g.params.length then .ok (.argument f k) else .error .undefined

/-- The first loop of `visit_function_dec_body`: the lifted variables, from the `k`-th argument
on. -/
def bindLifted (s : Translator) (f : Nat) : Nat → List Addr → Except Stop Translator
  | _, [] => .ok s
  | k, v :: vs => do
    let arg ← s.argument f k
    let locals := Function.update s.locals f (Function.update (s.locals f) v (some arg))
    bindLifted { s with locals } f (k + 1) vs

/-- The second loop of `visit_function_dec_body`: the formals, from the `k`-th argument on. -/
def storeFormals (s : Translator) (f : Nat) : Nat → List Addr → Except Stop Translator
  | _, [] => .ok s
  | k, v :: vs => do
    let alloca := Value.result s.count
    let s ← s.createAlloca v
    let arg ← s.argument f k
    (s.create (.store arg alloca)).storeFormals f (k + 1) vs

/-- `visit_function_dec_body`, up to the body. -/
def enterFunction (s : Translator) (d : Ast Addr .functionDec) : Except Stop Translator := do
  let f ← s.getFunction (functionDecName d)
  let s := { s with currentFunction := some f }
  let entry := s.builder.next
  let s := s.newBlock.moveTo (some entry)
  let (escaped, s) := s.escapedRef (← functionType m n d.functionAddr)
  let s ← s.bindLifted f 0 escaped
  s.storeFormals f escaped.length (formals d)

/-- `visit_function_dec_body`, after the body, whose value is `v`.  The function and the insertion
point of `s₀` are restored. -/
def leaveFunction (s s₀ : Translator) (d : Ast Addr .functionDec) (v : Value) :
    Except Stop Translator := do
  let void ← returnsVoid m n (← functionType m n d.functionAddr)
  let s := s.create (.ret (if void then none else some v))
  return { s.moveTo s₀.builder.cursor with currentFunction := s₀.currentFunction }

end Functions

/-! ## Expressions -/

section Expressions

variable (m : Annotated) (n : Nat)

/-- `init_array`, on an initial value of type `t`. -/
def initArray (s : Translator) (count init : Value) (t : TypePtr) : Except Stop Translator := do
  let s := s.create (if isPointer t then .ptrToInt init else .bitCast init)
  let arg := s.last
  let name := if isPointer t then "tc_init_ptr_array".toList else "tc_init_array".toList
  let s := s.getOrInsertFunction name [.i64, .i64]
  let s := s.create (.call (← s.getFunction name) [count, arg])
  return s.create (.bitCast s.last)

/-- `operator()(CallExp)`, before the arguments: the `type::Function` of the callee and what is
passed for the variables lifted out of it. -/
def liftedArgs (s : Translator) (d : Ast Addr .functionDec) : Except Stop (List Value) := do
  match s.escaped (← functionType m n d.functionAddr) with
  | none => throw .logicError
  | some vs => vs.mapM fun v => s.localAt (some v)

/-- The `FunctionDec` of the call at `a`. -/
def callee (a : Addr) : Except Stop (Ast Addr .functionDec) :=
  match (m.defs a).bind m.functionDec with
  | none => .error .undefined
  | some d => .ok d

/-- `operator()(IfExp)`, after the `else` clause: the value of an expression of type `t`. -/
def merge (s : Translator) (t : TypePtr) (thenValue elseValue : Value)
    (thenBlock elseBlock : Option Nat) : Value × Translator :=
  if t = .void then (elseValue, s)
  else
    let s := s.create (.phi [(thenValue, thenBlock), (elseValue, elseBlock)])
    (s.last, s)

/-- `operator()(BreakExp)`, before the branch.  What is bound to anything but a `while` that has
been met is found nowhere. -/
def loopEndOf (s : Translator) (a : Addr) : Except Stop Nat :=
  match (m.defs a).bind s.loopEnd with
  | none => .error .logicError
  | some b => .ok b

/-- How a node is visited. -/
inductive How
  | accept
  /-- `access_var`. -/
  | access
  /-- The loop of `operator()(RecordExp)`, over the fields given to the record at `ptr`. -/
  | init (fields : List (Symbol × TypePtr)) (ptr : Value)

/-- The visit of a node. -/
def visit : {k : Kind} → Ast Addr k → How → Translator → Except Stop (k.Result × Translator)
  | _, .nil, _, s => .ok ([], s)
  | _, .cons x xs, how, s => do
    let (v, s) ← visit x how s
    let (vs, s) ← visit xs how s
    return (v :: vs, s)
  | _, .none, _, s => .ok (none, s)
  | _, .some x, _, s => do
    let (v, s) ← visit x .accept s
    return (some v, s)
  | _, .simpleVar a _, .access, s => do return (← s.localAt (m.defs a), s)
  | _, .simpleVar a _, _, s => do
    let s := s.create (.load (← s.localAt (m.defs a)))
    return (s.last, s)
  | _, .fieldVar _ v name, how, s => do
    let (p, s) ← visit v .accept s
    let fields ← recordFields m n v.addr
    -- The loop stops at the last field when none has the name.
    let index := min ((fields.map Prod.fst).idxOf name) (fields.length - 1)
    let s := s.create (.structGep p index)
    match how with
    | .access => return (s.last, s)
    | _ =>
      let s := s.create (.load s.last)
      return (s.last, s)
  | _, .subscriptVar _ v i, how, s => do
    let (p, s) ← visit v .accept s
    let (i, s) ← visit i .accept s
    let s := s.create (.gep p i)
    match how with
    | .access => return (s.last, s)
    | _ =>
      let s := s.create (.load s.last)
      return (s.last, s)
  | _, .ofVar v, _, s => do
    let (v, s) ← visit v .accept s
    return (v, s)
  | _, .nilExp _, _, s => .ok (.null, s)
  | _, .intExp _ value, _, s => .ok (.int value, s)
  | _, .stringExp _ value, _, s => .ok (.string value, s)
  | _, .callExp a _ args, _, s => do
    let d ← callee m a
    let lifted ← s.liftedArgs m n d
    let (args, s) ← visit args .accept s
    let s := s.create (.call (← s.getFunction (functionDecName d)) (lifted ++ args))
    return (s.last, s)
  | _, .opExp _ l oper r, _, s => do
    let (l, s) ← visit l .accept s
    let (r, s) ← visit r .accept s
    let s := s.create (.binary oper l r)
    let s := s.create (.zextOrTrunc s.last)
    return (s.last, s)
  | _, .recordExp _ t fs, _, s => do
    let fields ← recordFields m n t.addr
    -- `malloc_` is the first function of the module.
    let s := s.create (.call 0 [.int (8 * fields.length)])
    let ptr := s.last
    let (_, s) ← visit fs (.init fields ptr) s
    return (ptr, s)
  | _, .seqExp _ es, _, s => do
    let (vs, s) ← visit es .accept s
    return (vs.getLastD (.int 0), s)
  | _, .assignExp _ v e, _, s => do
    let (val, s) ← visit e .accept s
    let (p, s) ← visit v .access s
    return (.int 0, s.create (.store val p))
  | _, .ifExp a c t e, _, s => do
    let thenBb := s.builder.next
    let s := s.newBlock.newBlock.newBlock
    let (test, s) ← visit c .accept s
    let s := s.create (.icmpNe test (.int 0))
    let s := (s.create (.condBr s.last thenBb (thenBb + 1))).moveTo (some thenBb)
    let (vt, s) ← visit t .accept s
    let thenEnd := s.builder.cursor
    let s := (s.create (.br (thenBb + 2))).moveTo (some (thenBb + 1))
    let (ve, s) ← visit e .accept s
    let elseEnd := s.builder.cursor
    let s := (s.create (.br (thenBb + 2))).moveTo (some (thenBb + 2))
    return s.merge (← actualType m n a) vt ve thenEnd elseEnd
  | _, .whileExp a c body, _, s => do
    let testBb := s.builder.next
    let s := s.newBlock.newBlock.newBlock
    let s := { s with loopEnd := Function.update s.loopEnd a (some (testBb + 2)) }
    let s := (s.create (.br testBb)).moveTo (some testBb)
    let (test, s) ← visit c .accept s
    let s := s.create (.icmpNe test (.int 0))
    let s := (s.create (.condBr s.last (testBb + 1) (testBb + 2))).moveTo (some (testBb + 1))
    let (v, s) ← visit body .accept s
    return (v, (s.create (.br testBb)).moveTo (some (testBb + 2)))
  | _, .forExp _ vardec hi body, _, s => do
    -- A `for` that is still there is walked over.
    let (_, s) ← visit vardec .accept s
    let (_, s) ← visit hi .accept s
    visit body .accept s
  | _, .breakExp a, _, s => do
    let s := s.create (.br (← s.loopEndOf m a))
    return (s.last, s)
  | _, .letExp _ chunks body, _, s => do
    let (_, s) ← visit chunks .accept s
    visit body .accept s
  | _, .arrayExp _ _ size init, _, s => do
    let (count, s) ← visit size .accept s
    let (v, s) ← visit init .accept s
    let s ← s.initArray count v (← actualType m n init.addr)
    return (s.last, s)
  | _, .castExp _ e _, _, s => do
    let (v, s) ← visit e .accept s
    let s := s.create (.bitCast v)
    return (s.last, s)
  | _, .nameTy _ _, _, s => .ok ((), s)
  | _, .ofNameTy _, _, s => .ok ((), s)
  | _, .recordTy _ _, _, s => .ok ((), s)
  | _, .arrayTy _ _, _, s => .ok ((), s)
  | _, .field _ _ _, _, s => .ok ((), s)
  | _, .fieldInit _ name i, how, s => do
    let (v, s) ← visit i .accept s
    match how with
    | .init fields ptr =>
      let s := s.create (.structGep ptr (← fieldIndex fields name))
      return ((), s.create (.store v s.last))
    | _ => return ((), s)
  | _, .varDec a _ _ i, _, s => do
    let alloca := Value.result s.count
    let s ← s.createAlloca a
    match ← visit i .accept s with
    | (none, _) => throw .undefined
    | (some v, s) => return ((), s.create (.store v alloca))
  | _, .functionDec a name fs r body, _, s =>
    -- `visit_function_dec_body`: there is nothing to translate for primitives.
    if body.isSome then do
      let s' ← s.enterFunction m n (.functionDec a name fs r body)
      match ← visit body .accept s' with
      | (none, _) => throw .undefined
      | (some v, s') => do
        return ((), ← s'.leaveFunction m n s (.functionDec a name fs r body) v)
    else .ok ((), s)
  | _, .typeDec _ _ _, _, s => .ok ((), s)
  | _, .varChunk _ ds, _, s => do
    let (_, s) ← visit ds .accept s
    return ((), s)
  | _, .ofVarChunk c, _, s => do
    let (_, s) ← visit c .accept s
    return ((), s)
  | _, .functionChunk _ ds, _, s => do
    let s ← s.functionHeaders m n ds.toList
    let (_, s) ← visit ds .accept s
    return ((), s)
  | _, .typeChunk _ _, _, s => .ok ((), s)
  | _, .chunkList _ cs, _, s => do
    let (_, s) ← visit cs .accept s
    return ((), s)

end Expressions

end Translator

/-- `translate`: a fresh `Translator` goes over the program, with the variables to lift out of
each function. -/
def translate (m : Annotated) (n : Nat) (escaped : Addr → Option (List Addr))
    (program : Ast Addr .chunkList) : Except Stop Translator := do
  return (← Translator.visit m n program .accept { escaped }).2

end TigerCompiler
