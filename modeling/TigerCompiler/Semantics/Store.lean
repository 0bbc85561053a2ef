import Mathlib.Algebra.Ring.Int.Defs
import Mathlib.Algebra.Ring.Nat
import TigerCompiler.Ast.Syntax

/-!
# Values and the store

What Tiger programs and the LLVM functions made of them compute with.  A variable is kept in a
cell of the activation of the function that declares it, as no function outlives the block it is
declared in; records and arrays are blocks of the heap.  What the primitives of the runtime do to
the rest of the world is a parameter.
-/

namespace TigerCompiler.Semantics

/-- What a pointer points to. -/
inductive Pointer
  /-- The variable declared at `var`, in the `act`-th activation. -/
  | cell (act : Nat) (var : Addr)
  | heap (block : Nat) (offset : Int)
  deriving DecidableEq, Repr

/-- A value that a register or a cell holds.  A string is known by its contents, and an `i1` is
a `bool`. -/
inductive Scalar
  | int (i : BitVec 64)
  | bool (b : Bool)
  | str (s : Str)
  | null
  | ptr (p : Pointer)
  deriving DecidableEq, Repr

/-- The pointer to what is `i` words further. -/
def Pointer.add : Pointer → Int → Option Pointer
  | .heap b o, i => some (.heap b (o + i))
  | .cell _ _, _ => none

/-- Whether a word is a reference, which may be compared with others. -/
def Scalar.isRef : Scalar → Bool
  | .null | .ptr _ => true
  | _ => false

/-- Why an evaluation has no result. -/
inductive Fault
  /-- The number of nested calls the model was given is used up. -/
  | outOfFuel
  | nilAccess
  | outOfBounds
  | division
  /-- There is no memory left. -/
  | exhausted
  /-- A function of the runtime stops the program. -/
  | stopped
  /-- A value is needed of an expression that leaves none. -/
  | noValue
  /-- What no typed program does. -/
  | wrong
  deriving DecidableEq, Repr

variable {W : Type}

/-- The memory of a running program, and the world around it. -/
structure Store (W : Type) where
  world : W
  cells : Nat → Addr → Option Scalar := fun _ _ => none
  /-- How many functions have been entered. -/
  activations : Nat := 0
  heap : List (List Scalar) := []

namespace Store

/-- Read what a pointer points to. -/
def read (σ : Store W) : Pointer → Option Scalar
  | .cell n x => σ.cells n x
  | .heap b o => if 0 ≤ o then σ.heap[b]? >>= (·[o.toNat]?) else none

/-- Set the variable `x` of the `n`-th activation. -/
def setCell (σ : Store W) (n : Nat) (x : Addr) (w : Scalar) : Store W :=
  { σ with cells := fun n' x' => if n' = n ∧ x' = x then some w else σ.cells n' x' }

/-- Write where a pointer points to. -/
def write (σ : Store W) (w : Scalar) : Pointer → Option (Store W)
  | .cell n x => some (σ.setCell n x w)
  | .heap b o =>
    if (σ.read (.heap b o)).isSome then
      some { σ with heap := σ.heap.modify b fun ws => ws.set o.toNat w }
    else none

/-- Allocate `n` words of value `w`, where eight bytes a word are not too many to be counted. -/
def alloc (σ : Store W) (n : Nat) (w : Scalar) : Option (Scalar × Store W) :=
  if 8 * n < 2 ^ 64 then
    some (.ptr (.heap σ.heap.length 0), { σ with heap := σ.heap ++ [List.replicate n w] })
  else none

/-- `tc_init_array`. -/
def initArray (σ : Store W) (size : BitVec 64) (elt : Scalar) : Option (Scalar × Store W) :=
  if 0 ≤ size.toInt then σ.alloc size.toNat elt else none

/-- Enter a function. -/
def enter (σ : Store W) : Store W := { σ with activations := σ.activations + 1 }

end Store

/-- The functions of the runtime that programs call, by the names they are linked under: what
they return, if anything, and what becomes of the world.  One may stop the program. -/
structure Runtime (W : Type) where
  call : Symbol → List Scalar → W → Option (Option Scalar × W)

/-- A call of a function of the runtime. -/
def Store.callRuntime (σ : Store W) (rt : Runtime W) (name : Symbol) (args : List Scalar) :
    Option (Option Scalar × Store W) :=
  (rt.call name args σ.world).map fun p => (p.1, { σ with world := p.2 })

end TigerCompiler.Semantics
