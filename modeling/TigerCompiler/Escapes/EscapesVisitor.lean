import TigerCompiler.Escapes.Occurrences

/-!
# `escapes::EscapesVisitor`

The pass that tags the variables "declared then accessed by an inner function".  It counts in
`scope_` how deep it is, notes the count at each declaration and compares it with that at each
use.  The count is moved by functions, but by loops and `let`s too, so that a variable is tagged
when it is used inside any of these that does not hold its declaration (`escapes_iff`).

The visit is compared with the list of what it meets: the declarations and the uses, in order,
each with the functions, the loops and the `let`s around it.
-/

namespace TigerCompiler

/-- The members of `escapes::EscapesVisitor`, and the `escape_` members of the `VarDec`s. -/
structure EscapesVisitor where
  scope : Nat := 0
  varsScope : Addr → Option Nat := fun _ => none
  escapes : Addr → Bool := fun _ => true

namespace EscapesVisitor

/-- What `operator()(VarDec)` does first, `n` being `scope_`. -/
def declare (v : EscapesVisitor) (d : Addr) (n : Nat) : EscapesVisitor :=
  { v with
    escapes := Function.update v.escapes d false
    varsScope := Function.update v.varsScope d (some n) }

/-- What `operator()(SimpleVar)` does with its `def_`, `n` being `scope_`. -/
def use (v : EscapesVisitor) (n : Nat) : Option Addr → EscapesVisitor
  | none => v
  | some d =>
    if (v.varsScope d).any (· < n) then { v with escapes := Function.update v.escapes d true }
    else v

/-- `scope_++`. -/
def enter (v : EscapesVisitor) : EscapesVisitor := { v with scope := v.scope + 1 }

/-- `scope_--`. -/
def leave (v : EscapesVisitor) : EscapesVisitor := { v with scope := v.scope - 1 }

/-- The visit of a node of a tree with the `def_` members `f`. -/
def visit (f : Addr → Option Addr) : {k : Kind} → Ast Addr k → EscapesVisitor → EscapesVisitor
  | _, .nil, v => v
  | _, .cons x xs, v => visit f xs (visit f x v)
  | _, .none, v => v
  | _, .some x, v => visit f x v
  | _, .simpleVar a _, v => v.use v.scope (f a)
  | _, .fieldVar _ u _, v => visit f u v
  | _, .subscriptVar _ u i, v => visit f i (visit f u v)
  | _, .ofVar u, v => visit f u v
  | _, .nilExp _, v => v
  | _, .intExp _ _, v => v
  | _, .stringExp _ _, v => v
  | _, .callExp _ _ args, v => visit f args v
  | _, .opExp _ l _ r, v => visit f r (visit f l v)
  | _, .recordExp _ t fs, v => visit f fs (visit f t v)
  | _, .seqExp _ es, v => visit f es v
  | _, .assignExp _ u e, v => visit f e (visit f u v)
  | _, .ifExp _ c t e, v => visit f e (visit f t (visit f c v))
  | _, .whileExp _ c body, v => visit f body (visit f c v)
  | _, .forExp _ vardec hi body, v =>
    (visit f body (visit f hi (visit f vardec v.enter))).leave
  | _, .breakExp _, v => v
  | _, .letExp _ chunks body, v => (visit f body (visit f chunks v.enter)).leave
  | _, .arrayExp _ t size init, v => visit f init (visit f size (visit f t v))
  | _, .castExp _ e t, v => visit f t (visit f e v)
  | _, .nameTy _ _, v => v
  | _, .ofNameTy t, v => visit f t v
  | _, .recordTy _ fs, v => visit f fs v
  | _, .arrayTy _ t, v => visit f t v
  | _, .field _ _ t, v => visit f t v
  | _, .fieldInit _ _ init, v => visit f init v
  | _, .varDec a _ t init, v => visit f init (visit f t (v.declare a v.scope))
  | _, .functionDec _ _ formals result body, v =>
    (visit f body (visit f result (visit f formals v.enter))).leave
  | _, .typeDec _ _ ty, v => visit f ty v
  | _, .varChunk _ ds, v => visit f ds v
  | _, .ofVarChunk c, v => visit f c v
  | _, .functionChunk _ ds, v => visit f ds v
  | _, .typeChunk _ ds, v => visit f ds v
  | _, .chunkList _ cs, v => visit f cs v

end EscapesVisitor

/-- `escapes_compute`: a fresh visitor goes over the program, whatever its flags are. -/
def escapesCompute (f : Addr → Option Addr) (flags : Addr → Bool)
    (program : Ast Addr .chunkList) : EscapesVisitor :=
  EscapesVisitor.visit f program { escapes := flags }

/-! ## What the visit does -/

namespace EscapesVisitor

open Occurrence

variable {k : Kind} {f : Addr → Option Addr} {v : EscapesVisitor} {π : Surroundings}

/-- What the visitor does at an occurrence. -/
def occur (f : Addr → Option Addr) (v : EscapesVisitor) : Occurrence → EscapesVisitor
  | .declaration d π => v.declare d π.length
  | .use a π => v.use π.length (f a)

theorem occur_scope (n : Nat) (o : Occurrence) :
    { v with scope := n }.occur f o = { v.occur f o with scope := n } := by
  cases o with
  | declaration d π => rfl
  | use a π =>
    simp only [occur]
    cases f a with
    | none => rfl
    | some d =>
      simp only [use]
      split <;> rfl

/-- What is done at the occurrences neither reads the counter nor moves it. -/
theorem foldl_occur_scope (os : List Occurrence) (n : Nat) (v : EscapesVisitor) :
    os.foldl (occur f) { v with scope := n } = { os.foldl (occur f) v with scope := n } := by
  induction os generalizing v with
  | nil => rfl
  | cons o os ih =>
    rw [List.foldl_cons, occur_scope]
    exact ih _

@[simp] theorem foldl_occur_scope_eq (os : List Occurrence) (v : EscapesVisitor) :
    (os.foldl (occur f) v).scope = v.scope := by
  have h := congrArg scope (foldl_occur_scope (f := f) os v.scope v)
  exact h

/-- A function, a loop or a `let`: the counter is back where it was. -/
theorem leave_foldl_enter (os : List Occurrence) (v : EscapesVisitor) :
    (os.foldl (occur f) v.enter).leave = os.foldl (occur f) v := by
  rw [enter, foldl_occur_scope, leave]
  have h := foldl_occur_scope (f := f) os v.scope v
  exact h.symm

/-- **The visit is what is done at the occurrences**, when the counter is the number of
functions, loops and `let`s around. -/
theorem visit_eq {t : Ast Addr k} (h : v.scope = π.length) :
    visit f t v = (t.occurrences π).foldl (occur f) v := by
  induction t generalizing v π with
  | forExp a d hi b ih₁ ih₂ ih₃ =>
    have he : v.enter.scope = π.length + 1 := by rw [enter, h]
    simp only [visit, Ast.occurrences, List.append_assoc]
    rw [ih₁ (π := ⟨_, .forExp a d hi b⟩ :: π) he,
      ih₂ (π := ⟨_, .forExp a d hi b⟩ :: π) (by simpa using he),
      ih₃ (π := ⟨_, .forExp a d hi b⟩ :: π) (by simpa using he), ← List.foldl_append,
      ← List.foldl_append, leave_foldl_enter]
  | functionDec a x fs r b ih₁ ih₂ ih₃ =>
    have he : v.enter.scope = π.length + 1 := by rw [enter, h]
    simp only [visit, Ast.occurrences, List.append_assoc]
    rw [ih₁ (π := ⟨_, .functionDec a x fs r b⟩ :: π) he,
      ih₂ (π := ⟨_, .functionDec a x fs r b⟩ :: π) (by simpa using he),
      ih₃ (π := ⟨_, .functionDec a x fs r b⟩ :: π) (by simpa using he), ← List.foldl_append,
      ← List.foldl_append, leave_foldl_enter]
  | letExp a cs b ih₁ ih₂ =>
    have he : v.enter.scope = π.length + 1 := by rw [enter, h]
    simp only [visit, Ast.occurrences]
    rw [ih₁ (π := ⟨_, .letExp a cs b⟩ :: π) he,
      ih₂ (π := ⟨_, .letExp a cs b⟩ :: π) (by simpa using he), ← List.foldl_append,
      leave_foldl_enter]
  | varDec a _ _ _ ih₁ ih₂ =>
    simp only [visit, Ast.occurrences, List.foldl_cons, List.foldl_append, occur]
    have hd : (v.declare a v.scope).scope = π.length := h
    rw [ih₁ hd, ih₂ (by simpa using hd), h]
  | simpleVar a x => simp [visit, Ast.occurrences, occur, h]
  | cons _ _ ih₁ ih₂ | subscriptVar _ _ _ ih₁ ih₂ | opExp _ _ _ _ ih₁ ih₂
  | recordExp _ _ _ ih₁ ih₂ | assignExp _ _ _ ih₁ ih₂ | whileExp _ _ _ ih₁ ih₂
  | castExp _ _ _ ih₁ ih₂ =>
    simp only [visit, Ast.occurrences, List.foldl_append]
    rw [ih₁ h, ih₂ (by simpa using h)]
  | ifExp _ _ _ _ ih₁ ih₂ ih₃ | arrayExp _ _ _ _ ih₁ ih₂ ih₃ =>
    simp only [visit, Ast.occurrences, List.foldl_append]
    rw [ih₁ h, ih₂ (by simpa using h), ih₃ (by simpa using h)]
  | nil | none | nilExp | intExp | stringExp | breakExp | nameTy => rfl
  | some _ ih | ofVar _ ih | ofNameTy _ ih | ofVarChunk _ ih | fieldVar _ _ _ ih
  | callExp _ _ _ ih | seqExp _ _ ih | recordTy _ _ ih | arrayTy _ _ ih | field _ _ _ ih
  | fieldInit _ _ _ ih | typeDec _ _ _ ih | varChunk _ _ ih | functionChunk _ _ ih
  | typeChunk _ _ ih | chunkList _ _ ih => exact ih h

/-! ## The flags -/

/-- What the visitor notes is how much was around each declaration. -/
def Notes (K : Addr → Option Surroundings) (v : EscapesVisitor) : Prop :=
  ∀ d, v.varsScope d = (K d).map List.length

theorem Notes.declare {K : Addr → Option Surroundings} (h : Notes K v) (d : Addr)
    (π : Surroundings) : Notes (Function.update K d (some π)) (v.declare d π.length) := by
  intro e
  by_cases he : e = d
  · subst he
    simp [EscapesVisitor.declare]
  · simpa [EscapesVisitor.declare, he] using h e

/-- What has been noted of a declaration holds it. -/
def Holds (K : Addr → Option Surroundings) : Prop := ∀ d π, K d = some π → ∀ c ∈ π, d ∈ c.2.nodes

/-- A use sets the flag of the variable when something around it does not hold the declaration. -/
theorem use_escapes {K : Addr → Option Surroundings} {a d : Addr} {β π' : Surroundings}
    (hv : Notes K v) (hK : Holds K) (hf : f a = some d) (hd : K d = some π')
    (hβ : ∀ c ∈ β, d ∉ c.2.nodes)
    (e : Addr) : (v.occur f (.use a (β ++ π'))).escapes e = true ↔
      v.escapes e = true ∨ e = d ∧ ∃ c ∈ β ++ π', d ∉ c.2.nodes := by
  have hcase : (v.varsScope d).any (· < (β ++ π').length) = true ↔ β ≠ [] := by
    rw [hv d, hd, ← List.length_pos_iff]
    simp
  have hex : (∃ c ∈ β ++ π', d ∉ c.2.nodes) ↔ β ≠ [] := by
    constructor
    · rintro ⟨c, hc, hn⟩ rfl
      exact hn (hK d π' hd c hc)
    · intro hne
      obtain ⟨c, hc⟩ := List.exists_mem_of_ne_nil β hne
      exact ⟨c, List.mem_append_left _ hc, hβ c hc⟩
  rw [hex, ← hcase]
  simp only [occur, hf, use]
  split
  · rename_i h
    by_cases he : e = d
    · subst he
      exact iff_of_true (Function.update_self ..) (.inr ⟨rfl, h⟩)
    · simp only [Function.update_of_ne he, he, false_and, or_false]
  · rename_i h
    exact ⟨.inl, fun ho => ho.elim id fun hd => (h hd.2).elim⟩

theorem use_varsScope (n : Nat) (d : Option Addr) : (v.use n d).varsScope = v.varsScope := by
  cases d with
  | none => rfl
  | some d =>
    rw [use]
    split <;> rfl

/-- The variable at `d` occurs with something around it that does not hold its declaration. -/
def UsedBeyond (f : Addr → Option Addr) (os : List Occurrence) (d : Addr) : Prop :=
  ∃ a σ, .use a σ ∈ os ∧ f a = some d ∧ ∃ c ∈ σ, d ∉ c.2.nodes

/-- **The flags after the occurrences**, when these are well placed and no variable is declared
twice. -/
theorem foldl_escapes {os : List Occurrence} {K : Addr → Option Surroundings}
    (hw : WellPlaced f K os) (hn : (declared os).Nodup) (hfresh : ∀ d ∈ declared os, K d = none)
    (hv : Notes K v) (hK : Holds K) (d : Addr) :
    (os.foldl (occur f) v).escapes d = true ↔
      (v.escapes d = true ∧ d ∉ declared os) ∨ UsedBeyond f os d := by
  induction os generalizing v K with
  | nil => simp [UsedBeyond, declared]
  | cons o os ih =>
    cases o with
    | declaration e π =>
      obtain ⟨hπ, hw⟩ := hw
      obtain ⟨hne, hn⟩ := List.nodup_cons.mp hn
      have hfresh' : ∀ d ∈ declared os, Function.update K e (some π) d = none := by
        intro d hd
        have hde : d ≠ e := fun h => hne (h ▸ hd)
        rw [Function.update_of_ne hde]
        exact hfresh d (.tail _ hd)
      have hK' : Holds (Function.update K e (some π)) := by
        intro d π' hd
        by_cases hde : d = e
        · subst hde
          rw [Function.update_self, Option.some.injEq] at hd
          exact hd ▸ hπ
        · rw [Function.update_of_ne hde] at hd
          exact hK d π' hd
      have hbeyond : UsedBeyond f (.declaration e π :: os) d ↔ UsedBeyond f os d := by
        simp [UsedBeyond]
      rw [List.foldl_cons, hbeyond]
      refine (ih hw hn hfresh' (hv.declare e π) hK').trans (or_congr_left ?_)
      by_cases hde : d = e
      · subst hde
        simp [declare]
      · simp [declare, hde]
    | use a π =>
      obtain ⟨⟨e, β, π', hf, he, rfl, hβ⟩, hw⟩ := hw
      have hv' : Notes K (v.occur f (.use a (β ++ π'))) := by
        intro d
        rw [occur, use_varsScope]
        exact hv d
      have hbeyond : UsedBeyond f (.use a (β ++ π') :: os) d ↔
          (d = e ∧ ∃ c ∈ β ++ π', e ∉ c.2.nodes) ∨ UsedBeyond f os d := by
        constructor
        · rintro ⟨b, σ, hu, hb, hc⟩
          rcases List.mem_cons.mp hu with hu | hu
          · cases hu
            rw [hf, Option.some.injEq] at hb
            subst hb
            exact .inl ⟨rfl, hc⟩
          · exact .inr ⟨b, σ, hu, hb, hc⟩
        · rintro (⟨rfl, hc⟩ | ⟨b, σ, hu, hb, hc⟩)
          · exact ⟨a, _, .head _, hf, hc⟩
          · exact ⟨b, σ, .tail _ hu, hb, hc⟩
      have hde (h : d = e) : d ∉ declared os := by
        intro hd
        have hnone := hfresh d hd
        rw [h, he] at hnone
        cases hnone
      rw [List.foldl_cons, hbeyond, ih hw hn hfresh hv' hK, use_escapes hv hK hf he hβ,
        declared_cons_use]
      by_cases hd : d = e
      · simp only [hde hd, not_false_eq_true, and_true, or_assoc]
      · simp only [hd, false_and, or_false, false_or]

end EscapesVisitor

open EscapesVisitor

/-- **A flag is set exactly when the variable is used inside a function, a loop or a `let` that
does not hold its declaration.** -/
theorem escapesCompute_escapes {f flags : _} {program : Ast Addr .chunkList}
    (hn : program.nodes.Nodup) (hb : Scope.Everywhere (LexicallyBound f) {} program) {d : Addr}
    (hd : d ∈ program.varDecs.map Ast.varAddr) :
    (escapesCompute f flags program).escapes d = true ↔
      UsedInside (fun _ t => t.isBlock) f program d := by
  have hplaced := placed_occurrences (hb.imp fun _ _ _ h => h.varBound) []
  have hw := hplaced.2 (fun _ => none) ⟨hn, nofun, nofun, nofun⟩
  have hdec := program.declared_occurrences []
  rw [escapesCompute, visit_eq (π := []) rfl, foldl_escapes hw
    (hdec ▸ hn.sublist program.varDecs_sublist) (fun _ _ => rfl) (fun _ => rfl) nofun,
    usedInside_isBlock_iff, hdec]
  simp only [hd, not_true_eq_false, and_false, false_or, UsedBeyond]

/-- The flag of every variable and formal is true exactly when it is used inside a function that
does not hold its declaration: by scoping, one nested strictly inside the function that
declares it. -/
def EscapesExact (f : Addr → Option Addr) (flags : Addr → Bool)
    (program : Ast Addr .chunkList) : Prop :=
  ∀ d ∈ program.varDecs.map Ast.varAddr, (escapesCompute f flags program).escapes d = true ↔
    UsedInside (fun _ t => t.isFunction) f program d

theorem usedInside_or {k : Kind} {f : Addr → Option Addr} {t : Ast Addr k} {d : Addr} :
    UsedInside (fun _ t => t.isBlock) f t d ↔
      UsedInside (fun _ t => t.isFunction) f t d ∨
        UsedInside (fun _ t => t.isLetOrFor) f t d := by
  simp only [UsedInside, Ast.isBlock, Bool.or_eq_true]
  grind

/-- **The flags are exact exactly when every variable used inside a `let` or a loop that does not
hold its declaration is used inside such a function too.** -/
theorem escapesExact_iff {f : Addr → Option Addr} {flags : Addr → Bool}
    {program : Ast Addr .chunkList} (hn : program.nodes.Nodup)
    (hb : Scope.Everywhere (LexicallyBound f) {} program) :
    EscapesExact f flags program ↔ ∀ d ∈ program.varDecs.map Ast.varAddr,
      UsedInside (fun _ t => t.isLetOrFor) f program d →
        UsedInside (fun _ t => t.isFunction) f program d := by
  refine forall₂_congr fun d hd => ?_
  rw [escapesCompute_escapes hn hb hd, usedInside_or]
  constructor
  · intro h hl
    exact h.mp (.inr hl)
  · intro h
    exact ⟨fun hor => hor.elim id h, .inl⟩

/-- `let var one := 1 var two := 2 function incr(x : int) : int = x + one in incr(two) end` as a
program. -/
def variableEscapes : Ast Addr .chunkList :=
  .chunkList 0 (.ofList [.functionChunk 1 (.ofList [.functionDec 2 "_main".toList
    (.varChunk 3 .nil) .none (.some (.seqExp 4 (.ofList [
      .letExp 5
        (.chunkList 6 (.ofList [
          .ofVarChunk (.varChunk 7 (.ofList [
            .varDec 8 "one".toList .none (.some (.intExp 9 1)),
            .varDec 10 "two".toList .none (.some (.intExp 11 2))])),
          .functionChunk 12 (.ofList [.functionDec 13 "incr".toList
            (.varChunk 14 (.ofList [
              .varDec 15 "x".toList (.some (.nameTy 16 "int".toList)) .none]))
            (.some (.nameTy 17 "int".toList))
            (.some (.opExp 18 (.ofVar (.simpleVar 19 "x".toList)) .add
              (.ofVar (.simpleVar 20 "one".toList))))])]))
        (.seqExp 21 (.ofList [.callExp 22 "incr".toList (.ofList [
          .ofVar (.simpleVar 23 "two".toList)])])),
      .seqExp 24 .nil])))])])

/-- The flags of `variableEscapes` are exact. -/
theorem variableEscapes_exact :
    EscapesExact (fun a => [(19, 15), (20, 8), (22, 13), (23, 10)].lookup a) (fun _ => true)
      variableEscapes := by
  refine (escapesExact_iff (by decide) ?_).mpr (by decide)
  simp [variableEscapes, Scope.Everywhere, Scope.after, Ast.ofList, LexicallyBound,
    Scope.putVar, Scope.putFuns, Scope.putFun, Symbol.isBuiltin, Scope.putAside,
    Scope.putEarly, Ast.functionName, Ast.functionAddr, Function.update, List.lookup_cons]

/-- `let var x := 1 in let in x end end` as a program. -/
def usedInLet : Ast Addr .chunkList :=
  .chunkList 0 (.ofList [.functionChunk 1 (.ofList [.functionDec 2 "_main".toList
    (.varChunk 3 .nil) .none (.some (.seqExp 4 (.ofList [
      .letExp 5
        (.chunkList 6 (.ofList [.ofVarChunk (.varChunk 7 (.ofList [
          .varDec 8 "x".toList .none (.some (.intExp 9 1))]))]))
        (.seqExp 10 (.ofList [.letExp 11 (.chunkList 12 .nil)
          (.seqExp 13 (.ofList [.ofVar (.simpleVar 14 "x".toList)]))])),
      .seqExp 15 .nil])))])])

/-- There is no function but `_main` in `usedInLet`, and `x` is flagged. -/
theorem not_escapesExact :
    ¬ ∀ (f : Addr → Option Addr) (flags : Addr → Bool) (program : Ast Addr .chunkList),
      program.nodes.Nodup → Scope.Everywhere (LexicallyBound f) {} program →
      EscapesExact f flags program := by
  intro hall
  have hexact := hall (fun a => if a = 14 then some 8 else none) (fun _ => true) usedInLet
    (by decide) (by
      simp [usedInLet, Scope.Everywhere, Scope.after, Ast.ofList, LexicallyBound, Scope.putVar,
        Scope.putFuns, Scope.putFun, Function.update]) 8 (by decide)
  have hflag : (escapesCompute (fun a => if a = 14 then some 8 else none) (fun _ => true)
      usedInLet).escapes 8 = true := by decide
  have hno : ¬ UsedInside (fun _ t => t.isFunction) (fun a => if a = 14 then some 8 else none)
      usedInLet 8 := by decide
  exact hno (hexact.mp hflag)

end TigerCompiler
