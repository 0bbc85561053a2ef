import TigerCompiler.Ast.Syntax

/-!
# `desugar::DesugarVisitor`

What the visitor makes of a tree: a copy in which `for` loops are `while` loops, and comparisons of
strings are calls of the runtime.  A loop is written as a text around the copies of its parts and
parsed; what is here is the tree that the parser makes of the text.
-/

namespace TigerCompiler

/-- The members of `DesugarVisitor`, and what it reads of the types: whether that of an expression
is `String`. -/
structure DesugarVisitor (α : Type) where
  desugarForP : Bool
  desugarStringCmpP : Bool
  isString : Ast α .exp → Bool

namespace DesugarVisitor

variable {α : Type}

/-- The variables of the text. -/
def loName : Symbol := "_lo".toList

def hiName : Symbol := "_hi".toList

/-- The functions of the runtime that compare strings. -/
def streqName : Symbol := "streq".toList

def strcmpName : Symbol := "strcmp".toList

/-- `operator()(OpExp)` on strings, from the copies of the operands. -/
def compareStrings (a : α) (l : Ast α .exp) (oper : Oper) (r : Ast α .exp) : Ast α .exp :=
  if oper = .eq then .callExp a streqName (.ofList [l, r])
  else .opExp a (.callExp a strcmpName (.ofList [l, r])) oper (.intExp a 0)

/-- `var x := init`. -/
def declare (a : α) (x : Symbol) (init : Ast α .exp) : Ast α .chunk :=
  .ofVarChunk (.varChunk a (.ofList [.varDec a x .none (.some init)]))

/-- The variable `x`, read. -/
def get (a : α) (x : Symbol) : Ast α .exp := .ofVar (.simpleVar a x)

/-- The body of the `while` loop. -/
def turn (a : α) (x : Symbol) (body : Ast α .exp) : Ast α .exp :=
  .seqExp a (.ofList [body,
    .ifExp a (.opExp a (get a x) .eq (get a hiName)) (.breakExp a) (.seqExp a .nil),
    .assignExp a (.simpleVar a x) (.opExp a (get a x) .add (.intExp a 1))])

/-- The text of `operator()(ForExp)`, from the copies of the parts of the loop. -/
def loop (a : α) (x : Symbol) (lo hi body : Ast α .exp) : Ast α .exp :=
  .letExp a (.chunkList a (.ofList [declare a loName lo, declare a hiName hi,
      declare a x (get a loName)]))
    (.seqExp a (.ofList [.ifExp a (.opExp a (get a x) .le (get a hiName))
      (.whileExp a (.intExp a 1) (turn a x body)) (.seqExp a .nil)]))

/-- The copy of a tree. -/
def visit (v : DesugarVisitor α) : {k : Kind} → Ast α k → Ast α k
  | _, .nil => .nil
  | _, .cons x xs => .cons (v.visit x) (v.visit xs)
  | _, .none => .none
  | _, .some x => .some (v.visit x)
  | _, .simpleVar a x => .simpleVar a x
  | _, .fieldVar a u x => .fieldVar a (v.visit u) x
  | _, .subscriptVar a u i => .subscriptVar a (v.visit u) (v.visit i)
  | _, .ofVar u => .ofVar (v.visit u)
  | _, .nilExp a => .nilExp a
  | _, .intExp a i => .intExp a i
  | _, .stringExp a s => .stringExp a s
  | _, .callExp a x args => .callExp a x (v.visit args)
  | _, .opExp a l oper r =>
    if v.desugarStringCmpP && v.isString l then compareStrings a (v.visit l) oper (v.visit r)
    else .opExp a (v.visit l) oper (v.visit r)
  | _, .recordExp a t fs => .recordExp a (v.visit t) (v.visit fs)
  | _, .seqExp a es => .seqExp a (v.visit es)
  | _, .assignExp a u e => .assignExp a (v.visit u) (v.visit e)
  | _, .ifExp a c t e => .ifExp a (v.visit c) (v.visit t) (v.visit e)
  | _, .whileExp a c b => .whileExp a (v.visit c) (v.visit b)
  | _, .forExp a (.varDec b x t (.some init)) hi body =>
    if v.desugarForP then loop a x (v.visit init) (v.visit hi) (v.visit body)
    else .forExp a (.varDec b x (v.visit t) (.some (v.visit init))) (v.visit hi) (v.visit body)
  -- The variable of a loop has an initial value.
  | _, .forExp a d hi body => .forExp a (v.visit d) (v.visit hi) (v.visit body)
  | _, .breakExp a => .breakExp a
  | _, .letExp a cs b => .letExp a (v.visit cs) (v.visit b)
  | _, .arrayExp a t size init => .arrayExp a (v.visit t) (v.visit size) (v.visit init)
  | _, .castExp a e t => .castExp a (v.visit e) (v.visit t)
  | _, .nameTy a x => .nameTy a x
  | _, .ofNameTy t => .ofNameTy (v.visit t)
  | _, .recordTy a fs => .recordTy a (v.visit fs)
  | _, .arrayTy a t => .arrayTy a (v.visit t)
  | _, .field a x t => .field a x (v.visit t)
  | _, .fieldInit a x i => .fieldInit a x (v.visit i)
  | _, .varDec a x t i => .varDec a x (v.visit t) (v.visit i)
  | _, .functionDec a x fs r b => .functionDec a x (v.visit fs) (v.visit r) (v.visit b)
  | _, .typeDec a x t => .typeDec a x (v.visit t)
  | _, .varChunk a ds => .varChunk a (v.visit ds)
  | _, .ofVarChunk c => .ofVarChunk (v.visit c)
  | _, .functionChunk a ds => .functionChunk a (v.visit ds)
  | _, .typeChunk a ds => .typeChunk a (v.visit ds)
  | _, .chunkList a cs => .chunkList a (v.visit cs)

/-! ## What is kept -/

variable {v : DesugarVisitor α} {k : Kind}

@[simp] theorem functionName_visit (d : Ast α .functionDec) :
    (v.visit d).functionName = d.functionName := by
  cases d
  rfl

@[simp] theorem hasBody_visit (d : Ast α .functionDec) : (v.visit d).hasBody = d.hasBody := by
  cases d with
  | functionDec a x fs r b => cases b <;> rfl

@[simp] theorem varName_visit (d : Ast α .varDec) : (v.visit d).varName = d.varName := by
  cases d
  rfl

theorem toList_visit : (ts : Ast α (.list k)) → (v.visit ts).toList = ts.toList.map v.visit
  | .nil => rfl
  | .cons t ts => by rw [visit, Ast.toList_cons, Ast.toList_cons, List.map_cons, toList_visit ts]

end DesugarVisitor

end TigerCompiler
