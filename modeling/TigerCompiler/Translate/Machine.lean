import TigerCompiler.Semantics.Store
import TigerCompiler.Translate.Translator
import Mathlib.Computability.StateTransition

/-!
# A machine for the LLVM functions

What the instructions that the `Translator` makes do.  A configuration is the function that runs,
with what is left of its block, the callers that wait for it, and the store.  A register that
holds nothing is poison: it may be moved by a `phi`, but nothing else can be done with it.
-/

namespace TigerCompiler.Llvm

open Semantics (Scalar Pointer Store Runtime)

variable {W : Type}

/-! ## Values and operators -/

/-- A function that has been entered. -/
structure Activation where
  /-- The number of the function. -/
  fn : Nat
  act : Nat
  args : List Scalar
  regs : Nat → Option Scalar := fun _ => none
  /-- The block it comes from. -/
  prev : Option Nat := none
  block : Nat
  /-- What is left of the block. -/
  rest : List Instr

/-- What a value stands for. -/
def Activation.value (a : Activation) : Value → Option Scalar
  | .int i => some (.int (.ofInt 64 i))
  | .null => some .null
  | .string s => some (.str s)
  | .argument f k => if f = a.fn then a.args[k]? else none
  | .result i => a.regs i

/-- `add`, `sub`, `mul`, `sdiv` and `icmp`, on integers. -/
def intBinary : Oper → BitVec 64 → BitVec 64 → Option Scalar
  | .add, l, r => some (.int (l + r))
  | .sub, l, r => some (.int (l - r))
  | .mul, l, r => some (.int (l * r))
  | .div, l, r =>
    if r = 0 ∨ l = BitVec.intMin 64 ∧ r = -1 then none else some (.int (l.sdiv r))
  | .eq, l, r => some (.bool (l = r))
  | .ne, l, r => some (.bool (l ≠ r))
  | .lt, l, r => some (.bool (l.slt r))
  | .le, l, r => some (.bool (l.sle r))
  | .gt, l, r => some (.bool (r.slt l))
  | .ge, l, r => some (.bool (r.sle l))

/-- An operation on two words.  Pointers are compared for equality only. -/
def binary : Oper → Scalar → Scalar → Option Scalar
  | o, .int l, .int r => intBinary o l r
  | .eq, l, r => if l.isRef ∧ r.isRef then some (.bool (l = r)) else none
  | .ne, l, r => if l.isRef ∧ r.isRef then some (.bool (l ≠ r)) else none
  | _, _, _ => none

/-- `zext` to an `i64`, or nothing. -/
def zextOrTrunc : Scalar → Option Scalar
  | .int i => some (.int i)
  | .bool b => some (.int (if b then 1 else 0))
  | _ => none

/-- `icmp ne`. -/
def icmpNe : Scalar → Scalar → Option Scalar
  | .int l, .int r => some (.bool (l ≠ r))
  | _, _ => none

/-- A pointer to `i` elements further. -/
def gep : Scalar → Int → Option Scalar
  | .ptr p, i => (p.add i).map .ptr
  | _, _ => none

/-! ## Steps -/

/-- The function that runs, the ones that wait for it with their call still to be made, and the
store. -/
structure Config (W : Type) where
  top : Activation
  callers : List Activation := []
  store : Store W

namespace Activation

/-- Go on after an instruction that gives `w`. -/
def next (a : Activation) (i : Nat) (w : Option Scalar) : Activation :=
  { a with regs := Function.update a.regs i w, rest := a.rest.tail }

end Activation

variable (M : Translator)

/-- The instructions of a block. -/
def instrsOf (b : Nat) : List Instr := (M.builder.blocks[b]?.map BasicBlock.instrs).getD []

/-- Jump to a block. -/
def Activation.jump (a : Activation) (b : Nat) : Activation :=
  { a with prev := some a.block, block := b, rest := instrsOf M b }

/-- A function that is entered, from the block it begins with. -/
def Activation.start (f act : Nat) (args : List Scalar) (b : Nat) : Activation :=
  { fn := f, act, args, block := b, rest := instrsOf M b }

/-- A call of a function that the module only declares. -/
def callExternal (rt : Runtime W) (σ : Store W) (name : Symbol) (args : List Scalar) :
    Option (Option Scalar × Store W) :=
  if name = "tc_malloc".toList then
    match args with
    | [.int size] => (σ.alloc (size.toNat / 8) (.int 0)).map fun p => (some p.1, p.2)
    | _ => none
  else if name = "tc_init_array".toList ∨ name = "tc_init_ptr_array".toList then
    match args with
    | [.int size, elt] => (σ.initArray size elt).map fun p => (some p.1, p.2)
    | _ => none
  else σ.callRuntime rt name args

/-- What an instruction that neither calls nor jumps gives, and the store it leaves. -/
def execute (a : Activation) (σ : Store W) : Op → Option (Option Scalar × Store W)
  | .alloca x => some (some (.ptr (.cell a.act x)), σ)
  | .load p => do
    match ← a.value p with
    | .ptr p => return (some (← σ.read p), σ)
    | _ => none
  | .store v p => do
    match ← a.value p with
    | .ptr p => return (none, ← σ.write (← a.value v) p)
    | _ => none
  | .gep p i => do
    match ← a.value i with
    | .int i => return (some (← gep (← a.value p) i.toInt), σ)
    | _ => none
  | .structGep p i => do return (some (← gep (← a.value p) i), σ)
  | .binary o l r => do return (some (← binary o (← a.value l) (← a.value r)), σ)
  | .zextOrTrunc v => do return (some (← zextOrTrunc (← a.value v)), σ)
  | .icmpNe l r => do return (some (← icmpNe (← a.value l) (← a.value r)), σ)
  | .ptrToInt v => do return (some (← a.value v), σ)
  | .bitCast v => do return (some (← a.value v), σ)
  | .phi incoming => do
    let p ← incoming.find? fun p => p.2 = a.prev
    return (a.value p.1, σ)
  | .call _ _ | .br _ | .condBr _ _ _ | .ret _ => none

variable (rt : Runtime W)

/-- One step.  A `ret` with no caller is the end. -/
def step (c : Config W) : Option (Config W) :=
  match c.top.rest with
  | [] => none
  | ⟨i, op⟩ :: _ =>
    match op with
    | .call f args => do
      let ws ← args.mapM c.top.value
      match M.builder.entry (some f) with
      | some b =>
        return ⟨.start M f c.store.activations ws b, c.top :: c.callers, c.store.enter⟩
      | none =>
        let (w, σ) ← callExternal rt c.store (← M.functions[f]?).name ws
        return { c with top := c.top.next i w, store := σ }
    | .br b => some { c with top := c.top.jump M b }
    | .condBr v b b' => do
      match ← c.top.value v with
      | .bool t => return { c with top := c.top.jump M (if t then b else b') }
      | _ => none
    | .ret v =>
      match c.callers with
      | [] => none
      | a :: as =>
        match a.rest with
        | [] => none
        | call :: _ => some ⟨a.next call.id (v.bind c.top.value), as, c.store⟩
    | op => do
      let (w, σ) ← execute c.top c.store op
      return { c with top := c.top.next i w, store := σ }

/-- The machine goes from a configuration to another. -/
abbrev Reaches : Config W → Config W → Prop := StateTransition.Reaches (step M rt)

end TigerCompiler.Llvm
