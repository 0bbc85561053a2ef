import TigerCompiler.Semantics.Store
import TigerCompiler.Translate.Translator

/-!
# The meaning of Tiger programs

What the expressions of a bound and typed program evaluate to.  A variable is found through the
`def_` of its use, in the activation that the environment gives; a function that is called sees
the variables of its caller but for those of its own text, which are not there yet.  Integers are
of 64 bits and wrap.  Comparisons are of integers and of references: those of strings are left to
the desugaring.

`()` and assignments have the value 0, as `void` is represented by integers; a `while`, a `break`
and an `if` or a call of type `void` leave none.
-/

namespace TigerCompiler

/-- The callee of a call is one of the functions of the program. -/
theorem Translator.mem_of_callee {m : Annotated} {a : Addr} {d : Ast Addr .functionDec}
    (h : Translator.callee m a = .ok d) : d ∈ m.functionDecs := by
  unfold Translator.callee at h
  cases hd : (m.defs a).bind m.functionDec with
  | none =>
    rw [hd] at h
    cases h
  | some d' =>
    rw [hd] at h
    cases h
    obtain ⟨b, -, hb⟩ := Option.bind_eq_some_iff.mp hd
    exact List.mem_of_find?_eq_some hb

/-- What the evaluation of a node of a class gives: the value of an expression, if it has one. -/
abbrev Kind.Outcome : Kind → Type
  | .exp | .var => Option Semantics.Scalar
  | .list k => List k.Outcome
  | .opt k => Option k.Outcome
  | _ => Unit

namespace Semantics

variable {W : Type}

/-- How an evaluation is cut short: by a `break`, or by a fault. -/
inductive Interrupt (W : Type)
  | broke (σ : Store W)
  | fault (f : Fault)

/-- What an evaluation goes through: the activations of the variables in sight, and the store. -/
structure State (W : Type) where
  env : Addr → Option Nat
  store : Store W

def fail {α : Type} (f : Fault) : Except (Interrupt W) α := .error (.fault f)

/-- What is there, or a fault. -/
def orFail {α : Type} (f : Fault) : Option α → Except (Interrupt W) α
  | some x => .ok x
  | none => fail f

/-- What is read of the types. -/
def ofTypes {α : Type} : Except Stop α → Except (Interrupt W) α
  | .ok x => .ok x
  | .error _ => fail .wrong

/-! ## Operators -/

/-- The value of a condition. -/
def ofBool (b : Bool) : Scalar := .int (if b then 1 else 0)

/-- The value of an operation on integers. -/
def intOp : Oper → BitVec 64 → BitVec 64 → Except (Interrupt W) Scalar
  | .add, l, r => .ok (.int (l + r))
  | .sub, l, r => .ok (.int (l - r))
  | .mul, l, r => .ok (.int (l * r))
  | .div, l, r =>
    if r = 0 ∨ l = BitVec.intMin 64 ∧ r = -1 then fail .division else .ok (.int (l.sdiv r))
  | .eq, l, r => .ok (ofBool (l = r))
  | .ne, l, r => .ok (ofBool (l ≠ r))
  | .lt, l, r => .ok (ofBool (l.slt r))
  | .le, l, r => .ok (ofBool (l.sle r))
  | .gt, l, r => .ok (ofBool (r.slt l))
  | .ge, l, r => .ok (ofBool (r.sle l))

/-- The value of a comparison of references. -/
def refOp : Oper → Scalar → Scalar → Except (Interrupt W) Scalar
  | .eq, l, r => .ok (ofBool (l = r))
  | .ne, l, r => .ok (ofBool (l ≠ r))
  | _, _, _ => fail .wrong

/-- The value of an `OpExp`. -/
def evalOp : Oper → Scalar → Scalar → Except (Interrupt W) Scalar
  | o, .int l, .int r => intOp o l r
  | o, l, r => if l.isRef ∧ r.isRef then refOp o l r else fail .wrong

/-! ## Parts of evaluations -/

/-- A value that is needed. -/
def use : Option Scalar → Except (Interrupt W) Scalar := orFail .noValue

/-- A value that is needed of each. -/
def useAll : List (Option Scalar) → Except (Interrupt W) (List Scalar)
  | [] => .ok []
  | r :: rs => do return (← use r) :: (← useAll rs)

/-- The integer that a value is. -/
def toInt : Scalar → Except (Interrupt W) (BitVec 64)
  | .int i => .ok i
  | _ => fail .wrong

/-- The pointer to what is `i` words further than a reference. -/
def member : Scalar → Int → Except (Interrupt W) Scalar
  | .ptr p, i => do return .ptr (← orFail .wrong (p.add i))
  | .null, _ => fail .nilAccess
  | _, _ => fail .wrong

/-- Read what a pointer points to. -/
def load (σ : Store W) : Scalar → Except (Interrupt W) Scalar
  | .ptr p => orFail .outOfBounds (σ.read p)
  | _ => fail .wrong

/-- Write where a pointer points to. -/
def store (σ : Store W) (w : Scalar) : Scalar → Except (Interrupt W) (Store W)
  | .ptr p => orFail .outOfBounds (σ.write w p)
  | _ => fail .wrong

/-- How a node is evaluated. -/
inductive Mode
  | accept
  /-- For the pointer to what a variable is. -/
  | access
  /-- As the value of a field of the record at `ptr`. -/
  | init (fields : List (Symbol × TypePtr)) (ptr : Scalar)
  /-- As the rest of a loop that goes to `hi`. -/
  | iterate (hi : BitVec 64)

/-- The rest of an evaluation of a place: it is read, unless it is what is wanted. -/
def finish (mode : Mode) (s : State W) (p : Scalar) :
    Except (Interrupt W) (Option Scalar × State W) :=
  match mode with
  | .access => .ok (some p, s)
  | _ => do return (some (← load s.store p), s)

/-- The end of a loop whose body is cut short by a `break`. -/
def catchBreak {α : Type} (s : State W) (x : Except (Interrupt W) (α × State W))
    (next : State W → Except (Interrupt W) (Option Scalar × State W)) :
    Except (Interrupt W) (Option Scalar × State W) :=
  match x with
  | .ok (_, s') => next s'
  | .error (.broke σ) => .ok (none, { s with store := σ })
  | .error (.fault f) => fail f

/-- The end of a function: no `break` leaves it. -/
def catchReturn {α : Type} : Except (Interrupt W) α → Except (Interrupt W) α
  | .error (.broke _) => fail .wrong
  | x => x

/-- The addresses of the variables declared in the text of a function. -/
def ownVars (d : Ast Addr .functionDec) : List Addr := d.varDecs.map Ast.varAddr

/-- A function is entered: the store, with the arguments in the cells of the formals. -/
def bindFormals (act : Nat) : List Addr → List Scalar → Store W → Except (Interrupt W) (Store W)
  | [], [], σ => .ok σ
  | x :: xs, w :: ws, σ => bindFormals act xs ws (σ.setCell act x w)
  | _, _, _ => fail .wrong

/-- The environment of the body of a function. -/
def bodyEnv (d : Ast Addr .functionDec) (act : Nat) (env : Addr → Option Nat) :
    Addr → Option Nat := fun x =>
  if x ∈ Translator.formals d then some act else if x ∈ ownVars d then none else env x

/-! ## Evaluation -/

section Evaluation

variable (m : Annotated) (n : Nat) (rt : Runtime W)

/-- What a call of `d` gives, where its body gives `r`. -/
def returned (d : Ast Addr .functionDec) (r : Option Scalar) :
    Except (Interrupt W) (Option Scalar) := do
  if ← ofTypes (Translator.functionType m n d.functionAddr >>= Translator.returnsVoid m n) then
    return none
  else return some (← use r)

/-- A call, where bodies are evaluated by `body`. -/
def callWith (body : Ast Addr .exp → Nat → State W → Except (Interrupt W) (Option Scalar × State W))
    (d : Ast Addr .functionDec) (ws : List Scalar) (s : State W) :
    Except (Interrupt W) (Option Scalar × State W) :=
  match d with
  | .functionDec _ _ _ _ .none => do
    let (r, σ) ← orFail .stopped (s.store.callRuntime rt (Translator.functionDecName d) ws)
    return (r, { s with store := σ })
  | .functionDec _ _ _ _ (.some e) => do
    let act := s.store.activations
    let σ ← bindFormals act (Translator.formals d) ws s.store.enter
    let (r, s') ← catchReturn (body e act ⟨bodyEnv d act s.env, σ⟩)
    return (← returned m n d r, { s with store := s'.store })

/-- The evaluation of a node in the `act`-th activation, `k` calls deep at most. -/
def eval : Nat → {c : Kind} → Ast Addr c → Mode → Nat → State W →
    Except (Interrupt W) (c.Outcome × State W)
  | 0, _, _, _, _, _ => fail .outOfFuel
  | _ + 1, _, .nil, _, _, s => .ok ([], s)
  | k + 1, _, .cons x xs, mode, act, s => do
    let (r, s) ← eval k x mode act s
    let (rs, s) ← eval k xs mode act s
    return (r :: rs, s)
  | _ + 1, _, .none, _, _, s => .ok (none, s)
  | k + 1, _, .some x, _, act, s => do
    let (r, s) ← eval k x .accept act s
    return (some r, s)
  | _ + 1, _, .simpleVar a _, mode, _, s => do
    let x ← orFail .wrong (m.defs a)
    finish mode s (.ptr (.cell (← orFail .wrong (s.env x)) x))
  | k + 1, _, .fieldVar _ v name, mode, act, s => do
    let (r, s) ← eval k v .accept act s
    let index ← ofTypes (Translator.recordFields m n v.addr >>= (Translator.fieldIndex · name))
    finish mode s (← member (← use r) index)
  | k + 1, _, .subscriptVar _ v i, mode, act, s => do
    let (r, s) ← eval k v .accept act s
    let (i, s) ← eval k i .accept act s
    finish mode s (← member (← use r) (← toInt (← use i)).toInt)
  | k + 1, _, .ofVar v, _, act, s => do
    let (r, s) ← eval k v .accept act s
    return (r, s)
  | _ + 1, _, .nilExp _, _, _, s => .ok (some .null, s)
  | _ + 1, _, .intExp _ value, _, _, s => .ok (some (.int (.ofInt 64 value)), s)
  | _ + 1, _, .stringExp _ value, _, _, s => .ok (some (.str value), s)
  | k + 1, _, .callExp a _ args, _, act, s => do
    let d ← ofTypes (Translator.callee m a)
    let (rs, s) ← eval k args .accept act s
    let ws ← useAll rs
    callWith m n rt (fun e act s => eval k e .accept act s) d ws s
  | k + 1, _, .opExp _ l oper r, _, act, s => do
    let (l, s) ← eval k l .accept act s
    let (r, s) ← eval k r .accept act s
    return (some (← evalOp oper (← use l) (← use r)), s)
  | k + 1, _, .recordExp _ t fs, _, act, s => do
    let fields ← ofTypes (Translator.recordFields m n t.addr)
    let (ptr, σ) ← orFail .exhausted (s.store.alloc fields.length (.int 0))
    let (_, s) ← eval k fs (.init fields ptr) act { s with store := σ }
    return (some ptr, s)
  | k + 1, _, .seqExp _ es, _, act, s => do
    let (rs, s) ← eval k es .accept act s
    return (rs.getLastD (some (.int 0)), s)
  | k + 1, _, .assignExp _ v e, _, act, s => do
    let (r, s) ← eval k e .accept act s
    let w ← use r
    let (p, s) ← eval k v .access act s
    return (some (.int 0), { s with store := ← store s.store w (← use p) })
  | k + 1, _, .ifExp a c t e, _, act, s => do
    let (r, s) ← eval k c .accept act s
    let (r, s) ← if (← toInt (← use r)) ≠ 0 then eval k t .accept act s else eval k e .accept act s
    if (← ofTypes (Translator.actualType m n a)) = .void then return (none, s) else return (r, s)
  | k + 1, _, .whileExp a c body, _, act, s => do
    let (r, s) ← eval k c .accept act s
    if (← toInt (← use r)) ≠ 0 then
      catchBreak s (eval k body .accept act s) (eval k (.whileExp a c body) .accept act)
    else return (none, s)
  | k + 1, _, .forExp a d hi body, .iterate bound, act, s => do
    match s.store.cells act d.varAddr with
    | some (.int i) =>
      if i.sle bound then
        catchBreak s (eval k body .accept act s) fun s =>
          if i = bound then .ok (none, s)
          else eval k (.forExp a d hi body) (.iterate bound) act
            { s with store := s.store.setCell act d.varAddr (.int (i + 1)) }
      else return (none, s)
    | _ => fail .wrong
  | k + 1, _, .forExp a d hi body, _, act, s => do
    let (_, s') ← eval k d .accept act s
    let (r, s'') ← eval k hi .accept act { s with store := s'.store }
    let (_, s'') ← eval k (.forExp a d hi body) (.iterate (← toInt (← use r))) act
      { s' with store := s''.store }
    return (none, { s with store := s''.store })
  | _ + 1, _, .breakExp _, _, _, s => .error (.broke s.store)
  | k + 1, _, .letExp _ chunks body, _, act, s => do
    let (_, s') ← eval k chunks .accept act s
    let (r, s') ← eval k body .accept act s'
    return (r, { s with store := s'.store })
  | k + 1, _, .arrayExp _ _ size init, _, act, s => do
    let (size, s) ← eval k size .accept act s
    let (r, s) ← eval k init .accept act s
    let (ptr, σ) ← orFail .exhausted (s.store.initArray (← toInt (← use size)) (← use r))
    return (some ptr, { s with store := σ })
  | k + 1, _, .castExp _ e _, _, act, s => do
    let (r, s) ← eval k e .accept act s
    return (some (← use r), s)
  | _ + 1, _, .nameTy _ _, _, _, s => .ok ((), s)
  | _ + 1, _, .ofNameTy _, _, _, s => .ok ((), s)
  | _ + 1, _, .recordTy _ _, _, _, s => .ok ((), s)
  | _ + 1, _, .arrayTy _ _, _, _, s => .ok ((), s)
  | _ + 1, _, .field _ _ _, _, _, s => .ok ((), s)
  | k + 1, _, .fieldInit _ name i, mode, act, s => do
    let (r, s) ← eval k i .accept act s
    match mode with
    | .init fields ptr =>
      let index ← ofTypes (Translator.fieldIndex fields name)
      return ((), { s with store := ← store s.store (← use r) (← member ptr index) })
    | _ => return ((), s)
  | k + 1, _, .varDec a _ _ i, _, act, s => do
    match ← eval k i .accept act s with
    | (none, _) => fail .wrong
    | (some r, s) =>
      return ((), ⟨Function.update s.env a (some act), s.store.setCell act a (← use r)⟩)
  | _ + 1, _, .functionDec _ _ _ _ _, _, _, s => .ok ((), s)
  | _ + 1, _, .typeDec _ _ _, _, _, s => .ok ((), s)
  | k + 1, _, .varChunk _ ds, _, act, s => do
    let (_, s) ← eval k ds .accept act s
    return ((), s)
  | k + 1, _, .ofVarChunk c, _, act, s => do
    let (_, s) ← eval k c .accept act s
    return ((), s)
  | _ + 1, _, .functionChunk _ _, _, _, s => .ok ((), s)
  | _ + 1, _, .typeChunk _ _, _, _, s => .ok ((), s)
  | k + 1, _, .chunkList _ cs, _, act, s => do
    let (_, s) ← eval k cs .accept act s
    return ((), s)

/-- A call of a function, `k` calls deep at most. -/
def call (k : Nat) (d : Ast Addr .functionDec) (ws : List Scalar) (s : State W) :
    Except (Interrupt W) (Option Scalar × State W) :=
  callWith m n rt (fun e act s => eval m n rt k e .accept act s) d ws s

end Evaluation

end Semantics

end TigerCompiler
