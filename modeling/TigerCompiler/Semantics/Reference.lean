import TigerCompiler.Misc.Error
import TigerCompiler.Runtime.Comparisons
import TigerCompiler.Semantics.Store

/-!
# Tiger by its names

The meaning of programs as the language has it, before anything is bound: a name stands for the
innermost declaration around it, and a function runs where it was declared.  A variable is a cell
of the store; that of a `for` may only be written to by the loop.  A string ends at its first null
character, as those of the runtime do.

The number of nested calls is bounded, and so is the number of turns of each loop.  Arithmetic and
the primitives are left open.
-/

namespace TigerCompiler

namespace Reference

inductive Val
  | int (i : BitVec 64)
  | str (s : Str)
  | nil
  /-- A record or an array. -/
  | ref (b : Nat)
  | unit
  deriving DecidableEq, Repr

/-- Where a value may be found. -/
inductive Lvalue
  | cell (l : Nat)
  | field (b : Nat) (name : Symbol)
  | elem (b : Nat) (i : Int)
  deriving DecidableEq, Repr

end Reference

/-- What the run of a node of a class gives. -/
abbrev Kind.Meaning : Kind → Type
  | .exp => Reference.Val
  | .var => Reference.Lvalue
  | .fieldInit => Symbol × Reference.Val
  | .list k => List k.Meaning
  | .opt k => Option k.Meaning
  | _ => Unit

namespace Reference

open Semantics (Fault)

variable {α W : Type}

/-! ## The store -/

/-- What the heap holds. -/
inductive Obj
  | record (fields : List (Symbol × Val))
  | array (elts : List Val)
  deriving DecidableEq, Repr

/-- A variable. -/
structure Cell where
  val : Val
  /-- Whether it may be assigned to. -/
  writable : Bool := true
  deriving DecidableEq, Repr

structure Store (W : Type) where
  world : W
  cells : List Cell := []
  heap : List Obj := []
  deriving DecidableEq, Repr

namespace Store

def read (σ : Store W) : Lvalue → Option Val
  | .cell l => σ.cells[l]?.map Cell.val
  | .field b x =>
    match σ.heap[b]? with
    | some (.record fs) => fs.lookup x
    | _ => none
  | .elem b i =>
    match σ.heap[b]? with
    | some (.array vs) => if 0 ≤ i then vs[i.toNat]? else none
    | _ => none

/-- Set a field of a record. -/
def setField (x : Symbol) (v : Val) : List (Symbol × Val) → List (Symbol × Val)
  | [] => []
  | (y, w) :: fs => if y = x then (y, v) :: fs else (y, w) :: setField x v fs

/-- A new cell, the next one. -/
def push (σ : Store W) (c : Cell) : Store W := { σ with cells := σ.cells ++ [c] }

/-- What a loop does to its variable. -/
def setLoop (σ : Store W) (l : Nat) (i : BitVec 64) : Store W :=
  { σ with cells := σ.cells.set l ⟨.int i, false⟩ }

/-- A new object, the next one. -/
def alloc (σ : Store W) (o : Obj) : Val × Store W :=
  (.ref σ.heap.length, { σ with heap := σ.heap ++ [o] })

end Store

/-! ## The declarations around a place -/

/-- What a name stands for. -/
inductive Binding (α : Type)
  | var (name : Symbol) (cell : Nat)
  /-- The functions of a chunk, which see each other. -/
  | funs (ds : List (Ast α .functionDec))

/-- The declarations around a place, the innermost first. -/
abbrev Env (α : Type) : Type := List (Binding α)

/-- The cell of a variable. -/
def Env.var : Env α → Symbol → Option Nat
  | [], _ => none
  | .var y l :: ρ, x => if y = x then some l else Env.var ρ x
  | .funs _ :: ρ, x => Env.var ρ x

/-- A function, with the declarations around it. -/
def Env.function : Env α → Symbol → Option (Ast α .functionDec × Env α)
  | [], _ => none
  | .var _ _ :: ρ, x => Env.function ρ x
  | .funs ds :: ρ, x =>
    match ds.find? fun d => d.functionName = x with
    | some d => some (d, .funs ds :: ρ)
    | none => Env.function ρ x

/-! ## Operators -/

/-- How a run is cut short. -/
inductive Interrupt (W : Type)
  | broke (σ : Store W)
  | fault (f : Fault)

/-- What a run may end with. -/
abbrev Run (W β : Type) : Type := Except (Interrupt W) β

def fail {β : Type} (f : Fault) : Run W β := .error (.fault f)

/-- What is there, or a fault. -/
def orFail {β : Type} (f : Fault) : Option β → Run W β
  | some x => .ok x
  | none => fail f

/-- What may fail but not break. -/
def ofFault {β : Type} : Except Fault β → Run W β
  | .ok x => .ok x
  | .error f => fail f

/-- Write a value into an object. -/
def writeHeap (heap : List Obj) (v : Val) : Lvalue → Except Fault (List Obj)
  | .cell _ => .error .wrong
  | .field b x =>
    match heap[b]? with
    | some (.record fs) => .ok (heap.set b (.record (Store.setField x v fs)))
    | _ => .error .wrong
  | .elem b i =>
    match heap[b]? with
    | some (.array vs) =>
      if 0 ≤ i ∧ i.toNat < vs.length then .ok (heap.set b (.array (vs.set i.toNat v)))
      else .error .outOfBounds
    | _ => .error .wrong

/-- Write a value where it may be found. -/
def Store.write (σ : Store W) (v : Val) : Lvalue → Run W (Store W)
  | .cell l =>
    match σ.cells[l]? with
    | some ⟨_, true⟩ => .ok { σ with cells := σ.cells.set l ⟨v, true⟩ }
    | _ => fail .wrong
  | p => do return { σ with heap := ← ofFault (writeHeap σ.heap v p) }

theorem Store.write_cell {σ : Store W} {l : Nat} {a : Val} (v : Val)
    (h : σ.cells[l]? = some ⟨a, true⟩) :
    σ.write v (.cell l) = .ok { σ with cells := σ.cells.set l ⟨v, true⟩ } := by
  simp [Store.write, h]

theorem Store.write_loop {σ : Store W} {l : Nat} {a : Val} (v : Val)
    (h : σ.cells[l]? = some ⟨a, false⟩) : σ.write v (.cell l) = fail .wrong := by
  simp [Store.write, h]

/-- What a program runs on: the arithmetic of integers, and the primitives. -/
structure Platform (W : Type) where
  arith : Oper → BitVec 64 → BitVec 64 → Except Fault (BitVec 64)
  /-- What a primitive returns, and what becomes of the world.  It may stop the program. -/
  call : Symbol → List Val → W → Option (Val × W)

def ofBool (b : Bool) : Val := .int (if b then 1 else 0)

def compareInts : Oper → BitVec 64 → BitVec 64 → Option Bool
  | .eq, l, r => some (l = r)
  | .ne, l, r => some (l ≠ r)
  | .lt, l, r => some (l.slt r)
  | .le, l, r => some (l.sle r)
  | .gt, l, r => some (r.slt l)
  | .ge, l, r => some (r.sle l)
  | _, _, _ => none

def compareStrs : Oper → Str → Str → Option Bool
  | .eq, l, r => some (l = r)
  | .ne, l, r => some (l ≠ r)
  | .lt, l, r => some (l < r)
  | .le, l, r => some (¬ r < l)
  | .gt, l, r => some (r < l)
  | .ge, l, r => some (¬ l < r)
  | _, _, _ => none

/-- A comparison of strings. -/
def stringOp (o : Oper) : Val → Val → Run W Val
  | .str l, .str r =>
    (orFail .wrong (compareStrs o (Runtime.cString l) (Runtime.cString r))).map ofBool
  | _, _ => fail .wrong

/-- A comparison of references. -/
def refOp : Oper → Val → Val → Run W Val
  | .eq, l, r => .ok (ofBool (l = r))
  | .ne, l, r => .ok (ofBool (l ≠ r))
  | _, _, _ => fail .wrong

/-- Whether a value is one of a record or an array. -/
def Val.isRef : Val → Bool
  | .nil | .ref _ => true
  | _ => false

/-- An operation on two values. -/
def binaryOp (P : Platform W) (o : Oper) : Val → Val → Run W Val
  | .int l, .int r =>
    match compareInts o l r with
    | some b => .ok (ofBool b)
    | none => (ofFault (P.arith o l r)).map Val.int
  | .str l, .str r => stringOp o (.str l) (.str r)
  | l, r => if l.isRef ∧ r.isRef then refOp o l r else fail .wrong

/-- An operation, on what may be known to be strings. -/
def operation (P : Platform W) (strings : Bool) (o : Oper) (p q : Val) : Run W Val :=
  if strings then stringOp o p q else binaryOp P o p q

/-! ## Parts of runs -/

structure State (α W : Type) where
  env : Env α
  store : Store W

def toInt : Val → Run W (BitVec 64)
  | .int i => .ok i
  | _ => fail .wrong

/-- The block that a value is a reference to. -/
def toRef : Val → Run W Nat
  | .ref b => .ok b
  | .nil => fail .nilAccess
  | _ => fail .wrong

/-- A `break` ends the loop; otherwise the next turn is run. -/
def catchBreak {β : Type} (s : State α W) (x : Run W (β × State α W))
    (next : Store W → Run W (Val × State α W)) : Run W (Val × State α W) :=
  match x with
  | .ok (_, s') => next s'.store
  | .error (.broke σ) => .ok (.unit, { s with store := σ })
  | .error (.fault f) => fail f

section catchBreak

variable {β : Type} {s : State α W} {next : Store W → Run W (Val × State α W)}

theorem catchBreak_ok {p : β × State α W} : catchBreak s (.ok p) next = next p.2.store := rfl

theorem catchBreak_broke {σ : Store W} :
    catchBreak s (.error (.broke σ) : Run W (β × State α W)) next =
      .ok (.unit, { s with store := σ }) := rfl

end catchBreak

/-- No `break` leaves a function. -/
def catchReturn {β : Type} : Run W β → Run W β
  | .error (.broke _) => fail .wrong
  | x => x

/-- The turns of a `while`. -/
def whileLoop (test body : State α W → Run W (Val × State α W)) :
    Nat → State α W → Run W (Val × State α W)
  | 0, _ => fail .outOfFuel
  | n + 1, s => do
    let (v, s') ← test s
    if (← toInt v) ≠ 0 then
      catchBreak s (body { s with store := s'.store }) fun σ =>
        whileLoop test body n { s with store := σ }
    else return (.unit, { s with store := s'.store })

/-- The turns of a `for` whose variable is `l`, from `i` to `hi`. -/
def forLoop (body : State α W → Run W (Val × State α W)) (l : Nat) (hi : BitVec 64) :
    Nat → BitVec 64 → State α W → Run W (Val × State α W)
  | 0, _, _ => fail .outOfFuel
  | n + 1, i, s =>
    catchBreak s (body { s with store := s.store.setLoop l i }) fun σ =>
      if i = hi then .ok (.unit, { s with store := σ })
      else forLoop body l hi n (i + 1) { s with store := σ }

/-- The formals become variables. -/
def bindFormals : List Symbol → List Val → State α W → Run W (State α W)
  | [], [], s => .ok s
  | x :: xs, v :: vs, s =>
    bindFormals xs vs ⟨.var x s.store.cells.length :: s.env, s.store.push ⟨v, true⟩⟩
  | _, _, _ => fail .wrong

/-! ## Runs -/

section Runs

variable (P : Platform W) (isString : Ast α .exp → Bool)

/-- The run of a node, where functions are called by `call` and no loop has more than `n` turns.
What `isString` says are strings are to be strings where they are compared. -/
def exec (call : Ast α .functionDec → Env α → List Val → Store W → Run W (Val × Store W))
    (n : Nat) : {k : Kind} → Ast α k → State α W → Run W (k.Meaning × State α W)
  | _, .nil, s => .ok ([], s)
  | _, .cons x xs, s => do
    let (r, s) ← exec call n x s
    let (rs, s) ← exec call n xs s
    return (r :: rs, s)
  | _, .none, s => .ok (none, s)
  | _, .some x, s => do
    let (r, s) ← exec call n x s
    return (some r, s)
  | _, .simpleVar _ x, s => do return (.cell (← orFail .wrong (s.env.var x)), s)
  | _, .fieldVar _ v x, s => do
    let (p, s) ← exec call n v s
    return (.field (← toRef (← orFail .outOfBounds (s.store.read p))) x, s)
  | _, .subscriptVar _ v i, s => do
    let (p, s) ← exec call n v s
    let b ← toRef (← orFail .outOfBounds (s.store.read p))
    let (i, s) ← exec call n i s
    return (.elem b (← toInt i).toInt, s)
  | _, .ofVar v, s => do
    let (p, s) ← exec call n v s
    return (← orFail .outOfBounds (s.store.read p), s)
  | _, .nilExp _, s => .ok (.nil, s)
  | _, .intExp _ i, s => .ok (.int (.ofInt 64 i), s)
  | _, .stringExp _ x, s => .ok (.str x, s)
  | _, .callExp _ x args, s => do
    let (vs, s) ← exec call n args s
    let (d, ρ) ← orFail .wrong (s.env.function x)
    let (v, σ) ← call d ρ vs s.store
    return (v, { s with store := σ })
  | _, .opExp _ l o r, s => do
    let (x, s) ← exec call n l s
    let (y, s) ← exec call n r s
    return (← if isString l then stringOp o x y else binaryOp P o x y, s)
  | _, .recordExp _ _ fs, s => do
    let (fs, s) ← exec call n fs s
    let (v, σ) := s.store.alloc (.record fs)
    return (v, { s with store := σ })
  | _, .seqExp _ es, s => do
    let (vs, s) ← exec call n es s
    return (vs.getLastD .unit, s)
  | _, .assignExp _ v e, s => do
    let (x, s) ← exec call n e s
    let (p, s) ← exec call n v s
    return (.unit, { s with store := ← s.store.write x p })
  | _, .ifExp _ c t e, s => do
    let (v, s) ← exec call n c s
    if (← toInt v) ≠ 0 then exec call n t s else exec call n e s
  | _, .whileExp _ c b, s => whileLoop (exec call n c) (exec call n b) n s
  | _, .forExp _ (.varDec _ x _ (.some init)) hi b, s => do
    let (lo, s) ← exec call n init s
    let (hi, s) ← exec call n hi s
    let lo ← toInt lo
    let hi ← toInt hi
    if lo.sle hi then
      let l := s.store.cells.length
      let s' : State α W := ⟨.var x l :: s.env, s.store.push ⟨.int lo, false⟩⟩
      let (v, s') ← forLoop (exec call n b) l hi n lo s'
      return (v, { s with store := s'.store })
    else return (.unit, s)
  | _, .forExp _ _ _ _, _ => fail .wrong
  | _, .breakExp _, s => .error (.broke s.store)
  | _, .letExp _ cs b, s => do
    let (_, s') ← exec call n cs s
    let (v, s') ← exec call n b s'
    return (v, { s with store := s'.store })
  | _, .arrayExp _ _ size init, s => do
    let (size, s) ← exec call n size s
    let (v, s) ← exec call n init s
    let size ← toInt size
    if 0 ≤ size.toInt then
      let (v, σ) := s.store.alloc (.array (List.replicate size.toNat v))
      return (v, { s with store := σ })
    else fail .exhausted
  | _, .castExp _ e _, s => do
    let (v, s) ← exec call n e s
    return (v, s)
  | _, .nameTy _ _, s => .ok ((), s)
  | _, .ofNameTy _, s => .ok ((), s)
  | _, .recordTy _ _, s => .ok ((), s)
  | _, .arrayTy _ _, s => .ok ((), s)
  | _, .field _ _ _, s => .ok ((), s)
  | _, .fieldInit _ x i, s => do
    let (v, s) ← exec call n i s
    return ((x, v), s)
  | _, .varDec _ x _ i, s => do
    let (v, s) ← exec call n i s
    let v ← orFail .wrong v
    return ((), ⟨.var x s.store.cells.length :: s.env, s.store.push ⟨v, true⟩⟩)
  | _, .functionDec _ _ _ _ _, s => .ok ((), s)
  | _, .typeDec _ _ _, s => .ok ((), s)
  | _, .varChunk _ ds, s => do
    let (_, s) ← exec call n ds s
    return ((), s)
  | _, .ofVarChunk c, s => do
    let (_, s) ← exec call n c s
    return ((), s)
  | _, .functionChunk _ ds, s => .ok ((), { s with env := .funs ds.toList :: s.env })
  | _, .typeChunk _ _, s => .ok ((), s)
  | _, .chunkList _ cs, s => do
    let (_, s) ← exec call n cs s
    return ((), s)

section exec

attribute [local simp] exec

variable {P isString} {n : Nat} {s : State α W}
  {call : Ast α .functionDec → Env α → List Val → Store W → Run W (Val × Store W)}

/-- An operation is run after its operands, the left one first. -/
theorem exec_opExp {a : α} {o : Oper} {l r : Ast α .exp} :
    exec P isString call n (.opExp a l o r) s =
      (do
        let p ← exec P isString call n l s
        let q ← exec P isString call n r p.2
        let z ← operation P (isString l) o p.1 q.1
        return (z, q.2)) := by
  cases h : isString l <;> simp [operation, h]

end exec

/-- A call, where bodies are run by `body`. -/
def callWith (body : Ast α .exp → State α W → Run W (Val × State α W)) :
    Ast α .functionDec → Env α → List Val → Store W → Run W (Val × Store W)
  | .functionDec _ x _ _ .none, _, vs, σ => do
    let (v, w) ← orFail .stopped (P.call x vs σ.world)
    return (v, { σ with world := w })
  | .functionDec _ _ (.varChunk _ fs) _ (.some e), ρ, vs, σ => do
    let s ← bindFormals (fs.toList.map Ast.varName) vs ⟨ρ, σ⟩
    let (v, s) ← catchReturn (body e s)
    return (v, s.store)

/-- A call of a function, `k` calls deep at most. -/
def call : Nat → Ast α .functionDec → Env α → List Val → Store W → Run W (Val × Store W)
  | 0 => callWith P fun _ _ => fail .outOfFuel
  | k + 1 => callWith P (exec P isString (call k) k)

/-- The run of a program: the call of `_main` where its declarations are around. -/
def run (k : Nat) (program : Ast α .chunkList) (w : W) : Run W (Val × Store W) := do
  let (_, s) ← exec P isString (call P isString k) k program ⟨[], { world := w }⟩
  let (d, ρ) ← orFail .wrong (s.env.function "_main".toList)
  call P isString k d ρ [] s.store

end Runs

end Reference

end TigerCompiler
