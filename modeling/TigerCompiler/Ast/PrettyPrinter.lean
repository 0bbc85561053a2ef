import TigerCompiler.Ast.Syntax
import TigerCompiler.Misc.Indent

/-!
# `ast::PrettyPrinter`

What the printer does to its stream, as the list of the manipulators it calls on it, in the order
of `pretty-printer.cc`.

Every method leaves the level as it finds it but that of `IfExp`: the `decindent` that answers the
`incindent` of the then-clause stands in the branch that prints the else-clause, so that a
conditional whose else-clause is `()` leaves the level two higher (`rise_visit`).  The indentation
is balanced exactly when the tree has no such conditional (`balanced_iff_no_dangling`).
-/

namespace TigerCompiler

open Indent

variable {α : Type} {k : Kind}

namespace Ast

/-- Whether an else-clause is a `SeqExp` without expressions: it is not printed. -/
def isEmptySeq : Ast α .exp → Bool
  | .seqExp _ exps => exps.toList.isEmpty
  | _ => false

/-- Whether a `VarDec` has an initial value; the loop variable of a `ForExp` must. -/
def hasInit : Ast α .varDec → Bool
  | .varDec _ _ _ init => init.isSome

/-- The text of an operator. -/
def operText : Oper → String
  | .add => " + "
  | .sub => " - "
  | .mul => " * "
  | .div => " / "
  | .eq => " = "
  | .ne => " <> "
  | .lt => " < "
  | .le => " <= "
  | .gt => " > "
  | .ge => " >= "

end Ast

namespace PrettyPrinter

/-- What is printed beside the members of the nodes: the flags of the stream, how the address and
the `def_get ()` of a node are displayed, and which `VarDec`s escape. -/
structure Display (α : Type) where
  bindings : Bool
  escapes : Bool
  address : α → Str
  definition : α → Str
  escape : α → Bool

variable (π : Display α)

/-- A pointer between two literals, under `bindings_display (ostr_)`. -/
def binding (before : String) (pointer : Str) (after : String) : List Manip :=
  if π.bindings then put before ++ text pointer ++ put after else []

/-- Which member of its parent a node is: what stands between the elements of a collection is up to
the parent, and a `ForExp` prints the members of its loop variable itself. -/
inductive Member
  | plain | commas | exps | chunks | loopVariable
  deriving DecidableEq, Repr

/-- What stands between two elements. -/
def Member.separator : Member → List Manip
  | .commas => put ", "
  | .exps => put ";" ++ [.iendl]
  | .chunks => [.iendl]
  | .plain | .loopVariable => []

/-- The methods of `PrettyPrinter`; those of the chunks are inherited from the default visitor. -/
def visit : {k : Kind} → Ast α k → Member → List Manip
  | _, .nil, _ => []
  | _, .cons x xs, m =>
    visit x .plain ++ (if xs.toList.isEmpty then [] else m.separator) ++ visit xs m
  | _, .none, m => if m = .loopVariable then [.nullPointer] else []
  | _, .some x, _ => visit x .plain
  | _, .simpleVar a name, _ => text name ++ binding π " /* " (π.definition a) " */"
  | _, .fieldVar _ var name, _ => text name ++ put "." ++ visit var .plain
  | _, .subscriptVar _ var index, _ =>
    visit var .plain ++ (if π.bindings then put " " else []) ++
    put "[" ++ [.incindent] ++ visit index .plain ++ [.decindent] ++
    (if π.bindings then put " " else []) ++ put "]"
  | _, .ofVar v, _ => visit v .plain
  | _, .nilExp _, _ => put "nil"
  | _, .intExp _ value, _ => text (toString value).toList
  | _, .stringExp _ value, _ => put "\"" ++ text value ++ put "\""
  | _, .callExp a name args, _ =>
    text name ++ binding π " /* " (π.definition a) " */ " ++
    if args.toList.isEmpty then put "()" else put "(" ++ visit args .commas ++ put ")"
  | _, .opExp _ left oper right, _ =>
    visit left .plain ++ put (Ast.operText oper) ++ visit right .plain
  | _, .recordExp _ typeName fields, _ =>
    visit typeName .plain ++ put "\x7b " ++
    if fields.toList.isEmpty then put "\x7d" else visit fields .commas ++ put " \x7d"
  | _, .seqExp _ exps, _ =>
    if exps.toList.isEmpty then put "()"
    else
      put "(" ++ [.incindent] ++ [.iendl] ++ visit exps .exps ++
      [.decindent] ++ [.iendl] ++ put ")"
  | _, .assignExp _ var exp, _ => visit var .plain ++ put " := " ++ visit exp .plain
  | _, .ifExp _ test thenclause elseclause, _ =>
    put "if " ++ visit test .plain ++ put " then" ++ [.incindent] ++ [.iendl] ++
    visit thenclause .plain ++
    if elseclause.isEmptySeq then []
    else
      [.decindent] ++ [.iendl] ++ put "else" ++ [.incindent] ++ [.iendl] ++
      visit elseclause .plain ++ [.decindent]
  | _, .whileExp a test body, _ =>
    put "while " ++ binding π "/* " (π.address a) " */ " ++ visit test .plain ++ put " do" ++
    [.incindent] ++ [.iendl] ++ visit body .plain ++ [.decindent]
  | _, .forExp a vardec hi body, _ =>
    put "for " ++ binding π "/* " (π.address a) " */ " ++ visit vardec .loopVariable ++
    put " to " ++ visit hi .plain ++ put " do" ++
    [.incindent] ++ [.iendl] ++ visit body .plain ++ [.decindent]
  | _, .breakExp a, _ => put "break" ++ binding π " /* " (π.definition a) " */ "
  | _, .letExp _ chunks body, _ =>
    put "let" ++ [.incindent] ++ [.iendl] ++ visit chunks .plain ++
    [.decindent] ++ [.iendl] ++ put "in" ++ [.incindent] ++ [.iendl] ++ visit body .plain ++
    [.decindent] ++ [.iendl] ++ put "end"
  | _, .arrayExp _ typeName size init, _ =>
    visit typeName .plain ++ put " [" ++ visit size .plain ++ put "] of " ++ visit init .plain
  | _, .castExp _ exp ty, _ =>
    put "_cast(" ++ visit exp .plain ++ put ", " ++ visit ty .plain ++ put ")"
  | _, .nameTy a name, _ => text name ++ binding π " /* " (π.definition a) " */"
  | _, .ofNameTy n, _ => visit n .plain
  | _, .recordTy _ fields, _ =>
    put "\x7b " ++
    if fields.toList.isEmpty then put " \x7d" else visit fields .commas ++ put " \x7d" ++ [.iendl]
  | _, .arrayTy _ baseType, _ => put "array of " ++ visit baseType .plain ++ [.iendl]
  | _, .field _ name typeName, _ => text name ++ put " : " ++ visit typeName .plain
  | _, .fieldInit _ name init, _ => text name ++ put " = " ++ visit init .plain
  | _, .varDec a name typeName init, m =>
    if m = .loopVariable then
      text name ++ binding π " /* " (π.address a) " */" ++ put " := " ++ visit init .loopVariable
    else
      (if init.isSome then put "var " else []) ++
      (if π.escapes && π.escape a then put "/* escaping */ " else []) ++ text name ++
      binding π " /* " (π.address a) " */" ++
      (if typeName.isSome then put " : " else []) ++ visit typeName .plain ++
      (if init.isSome then put " := " else []) ++ visit init .plain
  | _, .functionDec a name formals result body, _ =>
    put (if body.isSome then "function " else "primitive ") ++ text name ++
    binding π " /* " (π.address a) " */ " ++ put "(" ++ visit formals .commas ++ put ")" ++
    (if result.isSome then put " : " else []) ++ visit result .plain ++
    (if body.isSome then put " =" else []) ++ [.incindent] ++ [.iendl] ++ visit body .plain ++
    (if body.isSome then [.iendl] else []) ++ [.decindent]
  | _, .typeDec a name ty, _ =>
    put "type " ++ text name ++ binding π " /* " (π.address a) " */" ++ put " = " ++
    visit ty .plain ++ [.iendl]
  | _, .varChunk _ decs, m => visit decs m
  | _, .ofVarChunk c, _ => visit c .plain
  | _, .functionChunk _ decs, _ => visit decs .plain
  | _, .typeChunk _ decs, _ => visit decs .plain
  | _, .chunkList _ chunks, _ => visit chunks .chunks

/-- `print (tree)`. -/
def print (t : Ast α k) : List Manip := visit π t .plain

/-! ## What leaves the level alone -/

variable {π} {s s' : String} {u : Str} {m : Member}

theorem flat_binding : Flat (binding π s u s') := by
  unfold binding
  apply Flat.ite
  exact ((flat_put s).append (flat_text u)).append (flat_put s')

theorem flat_separator (m : Member) : Flat m.separator := by
  cases m with
  | commas => exact flat_put _
  | exps => exact (flat_put _).append flat_iendl
  | chunks => exact flat_iendl
  | plain | loopVariable => exact flat_nil

@[simp] theorem rise_binding : rise (binding π s u s') = 0 := flat_binding.rise

@[simp] theorem rise_separator : rise m.separator = 0 := (flat_separator m).rise

@[simp] theorem not_mem_binding : .nullPointer ∉ binding π s u s' := flat_binding.not_mem

@[simp] theorem not_mem_separator : .nullPointer ∉ m.separator := (flat_separator m).not_mem

/-! ## The nodes that do not -/

/-- Whether a node is a conditional that leaves the level higher than it was. -/
def isDangling : (Σ k, Ast α k) → Bool
  | ⟨_, .ifExp _ _ _ elseclause⟩ => elseclause.isEmptySeq
  | _ => false

/-- Whether a node is a `ForExp` whose loop variable has no initial value. -/
def isUninitialised : (Σ k, Ast α k) → Bool
  | ⟨_, .forExp _ vardec _ _⟩ => !vardec.hasInit
  | _ => false

/-- How many of the nodes are conditionals that leave the level higher than it was. -/
def dangling (l : List (Σ k, Ast α k)) : Nat := l.countP isDangling

/-- Whether some of the nodes are loops without an initial value. -/
def uninitialised (l : List (Σ k, Ast α k)) : Bool := l.any isUninitialised

variable {y : Σ k, Ast α k} {l l' : List (Σ k, Ast α k)}

@[simp] theorem dangling_nil : dangling ([] : List (Σ k, Ast α k)) = 0 := rfl

@[simp] theorem dangling_cons :
    dangling (y :: l) = dangling l + if isDangling y then 1 else 0 := List.countP_cons

@[simp] theorem dangling_append : dangling (l ++ l') = dangling l + dangling l' :=
  List.countP_append

@[simp] theorem uninitialised_nil : uninitialised ([] : List (Σ k, Ast α k)) = false := rfl

@[simp] theorem uninitialised_cons :
    uninitialised (y :: l) = (isUninitialised y || uninitialised l) := List.any_cons

@[simp] theorem uninitialised_append :
    uninitialised (l ++ l') = (uninitialised l || uninitialised l') := List.any_append

theorem dangling_eq_zero : dangling l = 0 ↔ ∀ y ∈ l, isDangling y = false := by
  simp [dangling]

theorem uninitialised_eq_false :
    uninitialised l = false ↔ ∀ y ∈ l, isUninitialised y = false := by
  simp [uninitialised]

/-- Lists of nodes in which there is no such node, printed or not. -/
def Plain (l : List (Σ k, Ast α k)) : Prop := dangling l = 0 ∧ uninitialised l = false

theorem plain_isEmpty {xs : Ast α (.list k)} (h : xs.toList.isEmpty) : Plain xs.subterms := by
  cases xs with
  | nil => exact ⟨rfl, rfl⟩
  | cons x xs => exact absurd h (by simp)

/-- An else-clause that is not printed. -/
theorem plain_isEmptySeq {e : Ast α .exp} (h : e.isEmptySeq) : Plain e.subterms := by
  cases e with
  | seqExp a exps =>
    cases exps with
    | nil => exact ⟨rfl, rfl⟩
    | cons x xs => exact absurd h (by simp [Ast.isEmptySeq])
  | _ => exact absurd h (by simp [Ast.isEmptySeq])

/-- The type of a loop variable, which is not printed. -/
theorem plain_typeName (n : Ast α (.opt .nameTy)) : Plain n.subterms := by
  cases n with
  | none => exact ⟨rfl, rfl⟩
  | some n =>
    cases n
    exact ⟨rfl, rfl⟩

/-! ## What the printer adds to the level -/

/-- Printing a node never leads below the level it starts at. -/
theorem rises_visit (t : Ast α k) (m : Member) : Rises (visit π t m) := by
  have put (s : String) : Rises (put s) := (flat_put s).rises
  have text (u : Str) : Rises (text u) := (flat_text u).rises
  have optional {c : Prop} [Decidable c] (s : String) : Flat (if c then Indent.put s else []) :=
    (flat_put s).ite
  induction t generalizing m with
  | nil => exact flat_nil.rises
  | cons _ _ ih ih' =>
    rw [visit]
    exact ((ih _).append (.ite flat_nil.rises (flat_separator m).rises)).append (ih' m)
  | none =>
    rw [visit]
    exact .ite rfl rfl
  | some _ ih | ofVar _ ih | ofNameTy _ ih | ofVarChunk _ ih | functionChunk _ _ ih
  | typeChunk _ _ ih | chunkList _ _ ih | varChunk _ _ ih => exact ih _
  | simpleVar | nameTy => exact (text _).flat flat_binding
  | nilExp => exact put _
  | intExp => exact text _
  | stringExp => exact (put _).append (text _) |>.put
  | breakExp => exact (put _).flat flat_binding
  | fieldVar _ _ _ ih | field _ _ _ ih | fieldInit _ _ _ ih => exact (text _).put.append (ih _)
  | subscriptVar _ _ _ ih ih' =>
    exact (ih _).flat (optional _) |>.put |>.incindent |>.append (ih' _) |>.decindent
      |>.flat (optional _) |>.put
  | opExp _ _ _ _ ih ih' | assignExp _ _ _ ih ih' => exact (ih _).put.append (ih' _)
  | castExp _ _ _ ih ih' => exact (put _).append (ih _) |>.put |>.append (ih' _) |>.put
  | arrayExp _ _ _ _ ih₁ ih₂ ih₃ =>
    exact (ih₁ _).put.append (ih₂ _) |>.put |>.append (ih₃ _)
  | arrayTy _ _ ih => exact (put _).append (ih _) |>.iendl
  | callExp _ _ _ ih =>
    rw [visit]
    exact (text _).flat flat_binding |>.append (.ite (put _) ((put _).append (ih _)).put)
  | recordExp _ _ _ ih ih' =>
    rw [visit]
    exact (ih _).put.append (.ite (put _) (ih' _).put)
  | recordTy _ _ ih =>
    rw [visit]
    exact (put _).append (.ite (put _) (ih _).put.iendl)
  | seqExp _ _ ih =>
    rw [visit]
    apply Rises.ite (put _)
    exact (put _).incindent |>.iendl |>.append (ih _) |>.decindent |>.iendl |>.put
  | ifExp _ _ _ _ ih₁ ih₂ ih₃ =>
    rw [visit]
    split
    · -- the then-clause leaves the level where it is
      exact (put _).append (ih₁ _) |>.put |>.incindent |>.iendl |>.append (ih₂ _)
        |>.flat flat_nil |>.rises
    · simp only [← List.append_assoc]
      exact (put _).append (ih₁ _) |>.put |>.incindent |>.iendl |>.append (ih₂ _)
        |>.decindent |>.iendl |>.put |>.incindent |>.iendl |>.append (ih₃ _) |>.decindent
  | whileExp _ _ _ ih ih' =>
    exact (put _).flat flat_binding |>.append (ih _) |>.put |>.incindent |>.iendl
      |>.append (ih' _) |>.decindent
  | forExp _ _ _ _ ih₁ ih₂ ih₃ =>
    exact (put _).flat flat_binding |>.append (ih₁ _) |>.put |>.append (ih₂ _) |>.put
      |>.incindent |>.iendl |>.append (ih₃ _) |>.decindent
  | letExp _ _ _ ih ih' =>
    exact (put _).incindent |>.iendl |>.append (ih _) |>.decindent |>.iendl |>.put
      |>.incindent |>.iendl |>.append (ih' _) |>.decindent |>.iendl |>.put
  | varDec _ _ _ _ ih ih' =>
    rw [visit]
    apply Rises.ite
    · exact (text _).flat flat_binding |>.put |>.append (ih' _)
    · exact (optional _).rises.flat (optional _) |>.flat (flat_text _) |>.flat flat_binding
        |>.flat (optional _) |>.append (ih _) |>.flat (optional _) |>.append (ih' _)
  | functionDec _ _ _ _ _ ih₁ ih₂ ih₃ =>
    exact (put _).flat (flat_text _) |>.flat flat_binding |>.put |>.append (ih₁ _) |>.put
      |>.flat (optional _) |>.append (ih₂ _) |>.flat (optional _) |>.incindent |>.iendl
      |>.append (ih₃ _) |>.flat flat_iendl.ite |>.decindent
  | typeDec _ _ _ ih =>
    exact (put _).flat (flat_text _) |>.flat flat_binding |>.put |>.append (ih _) |>.iendl

attribute [local simp] visit Ast.subterms isDangling shift rise_ite

/-- A node adds 2 to the level for each conditional in it that lacks its `decindent`. -/
theorem rise_visit (t : Ast α k) (m : Member) :
    rise (visit π t m) = 2 * (dangling t.subterms : Int) := by
  induction t generalizing m with
  | nil | none | simpleVar | nilExp | intExp | stringExp | breakExp | nameTy => simp
  | some _ ih | ofVar _ ih | ofNameTy _ ih | ofVarChunk _ ih | functionChunk _ _ ih
  | typeChunk _ _ ih | chunkList _ _ ih | varChunk _ _ ih => exact ih _
  | fieldVar _ _ _ ih | arrayTy _ _ ih | field _ _ _ ih | fieldInit _ _ _ ih | typeDec _ _ _ ih =>
    simp [ih]
  | cons _ _ ih ih' | opExp _ _ _ _ ih ih' | assignExp _ _ _ ih ih' | castExp _ _ _ ih ih'
  | subscriptVar _ _ _ ih ih' | whileExp _ _ _ ih ih' | letExp _ _ _ ih ih' =>
    simp [ih, ih']
    omega
  | callExp _ _ args ih | recordTy _ args ih =>
    by_cases ha : args.toList.isEmpty
    · simp [ha, (plain_isEmpty ha).1]
    · simp [ha, ih]
  | seqExp _ args ih =>
    by_cases ha : args.toList.isEmpty
    · simp [ha, (plain_isEmpty ha).1]
    · have hr : 2 + (2 * (dangling args.subterms : Int) + -2) = 2 * dangling args.subterms := by
        omega
      simp [ha, ih, hr]
  | recordExp _ _ fields ih ih' =>
    by_cases ha : fields.toList.isEmpty
    · simp [ha, ih, (plain_isEmpty ha).1]
    · simp [ha, ih, ih']
      omega
  | ifExp _ _ _ elseclause ih₁ ih₂ ih₃ =>
    by_cases he : elseclause.isEmptySeq
    · -- the `incindent` of the then-clause is not answered
      simp [he, ih₁, ih₂, (plain_isEmptySeq he).1]
      omega
    · simp [he, ih₁, ih₂, ih₃]
      omega
  | forExp _ _ _ _ ih₁ ih₂ ih₃ | arrayExp _ _ _ _ ih₁ ih₂ ih₃
  | functionDec _ _ _ _ _ ih₁ ih₂ ih₃ =>
    simp [ih₁, ih₂, ih₃]
    omega
  | varDec _ _ typeName _ ih ih' =>
    have hp := plain_typeName typeName
    by_cases hm : m = .loopVariable
    · simp [hm, ih', hp.1]
    · simp [hm, ih, ih', hp.1]

/-- Whether a `ForExp` has nothing to print for the initial value of its loop variable. -/
def lacksInit : {k : Kind} → Ast α k → Bool
  | _, .none => true
  | _, .varDec _ _ _ init => !init.isSome
  | _, _ => false

theorem lacksInit_varDec {a : α} {name : Symbol} {typeName : Ast α (.opt .nameTy)}
    {init : Ast α (.opt .exp)} : lacksInit (.varDec a name typeName init) = !init.isSome := rfl

theorem lacksInit_forExp {a : α} {vardec : Ast α .varDec} {hi body : Ast α .exp} :
    lacksInit (.forExp a vardec hi body) = false := rfl

attribute [local simp] isUninitialised mem_ite

/-- A null pointer is met where a loop variable has no initial value, and nowhere else. -/
theorem nullPointer_mem_visit (t : Ast α k) (m : Member) :
    .nullPointer ∈ visit π t m ↔
      (m = .loopVariable ∧ lacksInit t = true) ∨ uninitialised t.subterms = true := by
  induction t generalizing m with
  | nil | none | simpleVar | nilExp | intExp | stringExp | breakExp | nameTy => simp [lacksInit]
  | some _ ih | ofVar _ ih | ofNameTy _ ih | ofVarChunk _ ih | functionChunk _ _ ih
  | typeChunk _ _ ih | chunkList _ _ ih | fieldVar _ _ _ ih | field _ _ _ ih | fieldInit _ _ _ ih
  | arrayTy _ _ ih | typeDec _ _ _ ih | varChunk _ _ ih => simp [lacksInit, ih]
  | cons _ _ ih ih' | subscriptVar _ _ _ ih ih' | opExp _ _ _ _ ih ih' | assignExp _ _ _ ih ih'
  | whileExp _ _ _ ih ih' | letExp _ _ _ ih ih' | castExp _ _ _ ih ih' =>
    simp [lacksInit, ih, ih']
  | callExp _ _ args ih | seqExp _ args ih | recordTy _ args ih =>
    by_cases ha : args.toList.isEmpty
    · simp [lacksInit, ha, (plain_isEmpty ha).2]
    · simp [lacksInit, ha, ih]
  | recordExp _ _ fields ih ih' =>
    by_cases ha : fields.toList.isEmpty
    · simp [lacksInit, ha, ih, (plain_isEmpty ha).2]
    · simp [lacksInit, ha, ih, ih']
  | ifExp _ _ _ elseclause ih₁ ih₂ ih₃ =>
    by_cases he : elseclause.isEmptySeq
    · simp [lacksInit, he, ih₁, ih₂, (plain_isEmptySeq he).2]
    · simp [lacksInit, he, ih₁, ih₂, ih₃]
  | forExp _ vardec _ _ ih₁ ih₂ ih₃ =>
    have hd : lacksInit vardec = !vardec.hasInit := by
      cases vardec
      rfl
    simp [ih₁, ih₂, ih₃, hd, or_assoc, lacksInit_forExp]
  | arrayExp _ _ _ _ ih₁ ih₂ ih₃ | functionDec _ _ _ _ _ ih₁ ih₂ ih₃ =>
    simp [lacksInit, ih₁, ih₂, ih₃]
  | varDec a _ typeName init ih ih' =>
    have hp := plain_typeName typeName
    by_cases hm : m = .loopVariable
    · have hi : lacksInit init = !init.isSome := by
        cases init <;> rfl
      simp [hm, ih', hp.2, hi, lacksInit_varDec]
    · by_cases he : (π.escapes && π.escape a) = true
      · simp [hm, he, ih, ih', hp.2]
      · simp [hm, he, ih, ih', hp.2]

/-- What printing does to the level: each conditional without an else-clause adds 2 to it. -/
theorem run_print {t : Ast α k} {o : OStream} (hi : uninitialised t.subterms = false)
    (h0 : 0 ≤ o.level) :
    ∃ o', run (print π t) o = .ok o' ∧ o'.level = o.level + 2 * dangling t.subterms := by
  have hl : lowest (visit π t .plain) = 0 := rises_visit t .plain
  rw [← rise_visit (π := π) t .plain]
  apply run_ok
  · intro hn
    have h := (nullPointer_mem_visit t .plain).mp hn
    simp [hi] at h
  · rw [print, hl]
    omega

/-- **The indentation is balanced** exactly when no conditional has an else-clause that is not
printed; a loop whose variable has no initial value, which no parser builds, is not printed. -/
theorem balanced_iff_no_dangling (π : Display α) (t : Ast α k) :
    Balanced (print π t) ↔
      ∀ y ∈ t.subterms, isDangling y = false ∧ isUninitialised y = false := by
  have hn := nullPointer_mem_visit (π := π) t .plain
  have hr := rise_visit (π := π) t .plain
  unfold print
  rw [Indent.balanced_iff (rises_visit t .plain), hn, hr]
  constructor
  · rintro ⟨hi, hd⟩
    have hd : dangling t.subterms = 0 := by omega
    have hi : uninitialised t.subterms = false := by simpa using hi
    intro y hy
    exact ⟨dangling_eq_zero.mp hd y hy, uninitialised_eq_false.mp hi y hy⟩
  · intro h
    have hd : dangling t.subterms = 0 := dangling_eq_zero.mpr fun y hy => (h y hy).1
    have hi : uninitialised t.subterms = false :=
      uninitialised_eq_false.mpr fun y hy => (h y hy).2
    simp [hd, hi]

/-- `if 1 then ()`. -/
def ifThen : Ast Unit .exp := .ifExp () (.intExp () 1) (.seqExp () .nil) (.seqExp () .nil)

/-- `if 1 then ()` leaves the level at 2. -/
theorem not_balanced_ifThen : ¬ Balanced (print ⟨false, false, fun _ => [], fun _ => [],
    fun _ => false⟩ ifThen) := by
  intro hb
  obtain ⟨o, ho, hlevel⟩ := hb.ends ⟨0, []⟩ (Int.le_refl 0)
  obtain ⟨o', ho', hlevel'⟩ := run_print (t := ifThen) (o := ⟨0, []⟩) rfl (Int.le_refl 0)
  rw [ho] at ho'
  cases ho'
  rw [hlevel] at hlevel'
  exact absurd hlevel' (by decide)

end PrettyPrinter
end TigerCompiler
