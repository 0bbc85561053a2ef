import TigerCompiler.Escapes.EscapesVisitor
import TigerCompiler.Escapes.Places
import TigerCompiler.Misc.Error
import TigerCompiler.Misc.Passes
import Mathlib.Algebra.BigOperators.Group.Finset.Basic
import Mathlib.Data.Finset.Card

/-!
# `llvmtranslate::EscapesCollector`

The pass that collects, for each function, the escaping variables to hand over to it.  A function
is known by its `FunctionDec`, whose type is an object of its own.  `actual_func_`, which
`operator()(FunctionDec)` sets and restores, is a parameter of the visit; the loop of
`operator()(FunctionChunk)` runs on fuel.

A set is filled with the escaping variables the function uses, its own ones included, and with
the sets of the functions it calls.
-/

namespace TigerCompiler

/-- The members of `EscapesCollector` but `actual_func_`. -/
structure EscapesCollector where
  didModify : Bool := false
  escaped : Addr → Option (Finset Addr) := fun _ => none

namespace EscapesCollector

/-- `operator()(SimpleVar)`, with `actual_func_` and the `def_` of the variable. -/
def simpleVar (flag : Addr → Bool) (actual : Option Addr) (s : EscapesCollector) :
    Option Addr → Except Stop EscapesCollector
  | none => .error .undefined
  | some d =>
    if flag d = true then
      match actual with
      | none => .error .undefined
      | some c => match s.escaped c with
        | none => .error .logicError
        | some set =>
          .ok { s with escaped := Function.update s.escaped c (some (insert d set)) }
    else .ok s

/-- `operator()(CallExp)` once the arguments are visited, with `actual_func_` and the `def_` of
the call. -/
def callExp (actual : Option Addr) (s : EscapesCollector) :
    Option Addr → Except Stop EscapesCollector
  | none => .ok s
  | some g => match s.escaped g with
    | none => .ok s
    | some callee => match actual with
      | none => .error .undefined
      | some c => match s.escaped c with
        | none => .error .logicError
        | some set => .ok {
            escaped := Function.update s.escaped c (some (set ∪ callee))
            didModify := s.didModify || decide (¬ callee ⊆ set) }

/-- The beginning of `operator()(FunctionDec)`: an empty set for a function that has none. -/
def enter (s : EscapesCollector) (a : Addr) : EscapesCollector :=
  if (s.escaped a).isSome then s
  else { s with escaped := Function.update s.escaped a (some ∅) }

/-- `while (did_modify_) { did_modify_ = false; … }`. -/
def whileModified (pass : EscapesCollector → Except Stop EscapesCollector) :
    Nat → EscapesCollector → Except Stop EscapesCollector
  | 0, s => if s.didModify then .error .outOfFuel else .ok s
  | n + 1, s =>
    if s.didModify then do whileModified pass n (← pass { s with didModify := false })
    else .ok s

/-- `operator()(FunctionChunk)`, with the visit of the functions. -/
def functionChunk (n : Nat) (empty : Bool)
    (pass : EscapesCollector → Except Stop EscapesCollector) (s : EscapesCollector) :
    Except Stop EscapesCollector := do
  return { ← whileModified pass n { s with didModify := !empty } with didModify := s.didModify }

/-- The visit of a node of a tree with the `def_` members `f` and the `escape_` members `flag`,
inside the function `actual`. -/
def visit (f : Addr → Option Addr) (flag : Addr → Bool) (n : Nat) : {k : Kind} → Ast Addr k →
    Option Addr → EscapesCollector → Except Stop EscapesCollector
  | _, .nil, _, s => .ok s
  | _, .cons x xs, c, s => do visit f flag n xs c (← visit f flag n x c s)
  | _, .none, _, s => .ok s
  | _, .some x, c, s => visit f flag n x c s
  | _, .simpleVar a _, c, s => s.simpleVar flag c (f a)
  | _, .fieldVar _ v _, c, s => visit f flag n v c s
  | _, .subscriptVar _ v i, c, s => do visit f flag n i c (← visit f flag n v c s)
  | _, .ofVar v, c, s => visit f flag n v c s
  | _, .nilExp _, _, s => .ok s
  | _, .intExp _ _, _, s => .ok s
  | _, .stringExp _ _, _, s => .ok s
  | _, .callExp a _ args, c, s => do (← visit f flag n args c s).callExp c (f a)
  | _, .opExp _ l _ r, c, s => do visit f flag n r c (← visit f flag n l c s)
  | _, .recordExp _ t fs, c, s => do visit f flag n fs c (← visit f flag n t c s)
  | _, .seqExp _ es, c, s => visit f flag n es c s
  | _, .assignExp _ v e, c, s => do visit f flag n e c (← visit f flag n v c s)
  | _, .ifExp _ i t e, c, s => do
    visit f flag n e c (← visit f flag n t c (← visit f flag n i c s))
  | _, .whileExp _ t body, c, s => do visit f flag n body c (← visit f flag n t c s)
  | _, .forExp _ vardec hi body, c, s => do
    visit f flag n body c (← visit f flag n hi c (← visit f flag n vardec c s))
  | _, .breakExp _, _, s => .ok s
  | _, .letExp _ chunks body, c, s => do visit f flag n body c (← visit f flag n chunks c s)
  | _, .arrayExp _ t size init, c, s => do
    visit f flag n init c (← visit f flag n size c (← visit f flag n t c s))
  | _, .castExp _ e t, c, s => do visit f flag n t c (← visit f flag n e c s)
  | _, .nameTy _ _, _, s => .ok s
  | _, .ofNameTy t, c, s => visit f flag n t c s
  | _, .recordTy _ fs, c, s => visit f flag n fs c s
  | _, .arrayTy _ t, c, s => visit f flag n t c s
  | _, .field _ _ t, c, s => visit f flag n t c s
  | _, .fieldInit _ _ init, c, s => visit f flag n init c s
  | _, .varDec _ _ t init, c, s => do visit f flag n init c (← visit f flag n t c s)
  | _, .functionDec a _ formals result body, _, s => do
    visit f flag n body (some a) (← visit f flag n result (some a)
      (← visit f flag n formals (some a) (s.enter a)))
  | _, .typeDec _ _ ty, c, s => visit f flag n ty c s
  | _, .varChunk _ ds, c, s => visit f flag n ds c s
  | _, .ofVarChunk v, c, s => visit f flag n v c s
  | _, .functionChunk _ ds, c, s =>
    s.functionChunk n ds.toList.isEmpty fun s => visit f flag n ds c s
  | _, .typeChunk _ ds, c, s => visit f flag n ds c s
  | _, .chunkList _ cs, c, s => visit f flag n cs c s

end EscapesCollector

/-- `collect_escapes`. -/
def collectEscapes (f : Addr → Option Addr) (flag : Addr → Bool) (n : Nat)
    (program : Ast Addr .chunkList) : Except Stop EscapesCollector :=
  EscapesCollector.visit f flag n program none {}

/-! ## The order of the visit -/

/-- The places of a tree with the functions `π` around it, in the order the visit gets to them.
The functions of a chunk are in a loop. -/
def Ast.blocks : {k : Kind} → Ast Addr k → List Addr → Blocks Place
  | _, .nil, _ => .nil
  | _, .cons x xs, π => x.blocks π ++ xs.blocks π
  | _, .none, _ => .nil
  | _, .some x, π => x.blocks π
  | _, .simpleVar a _, π => .one (.use a, π)
  | _, .fieldVar _ v _, π => v.blocks π
  | _, .subscriptVar _ v i, π => v.blocks π ++ i.blocks π
  | _, .ofVar v, π => v.blocks π
  | _, .nilExp _, _ => .nil
  | _, .intExp _ _, _ => .nil
  | _, .stringExp _ _, _ => .nil
  | _, .callExp a _ args, π => args.blocks π ++ .one (.call a, π)
  | _, .opExp _ l _ r, π => l.blocks π ++ r.blocks π
  | _, .recordExp _ t fs, π => t.blocks π ++ fs.blocks π
  | _, .seqExp _ es, π => es.blocks π
  | _, .assignExp _ v e, π => v.blocks π ++ e.blocks π
  | _, .ifExp _ c t e, π => c.blocks π ++ t.blocks π ++ e.blocks π
  | _, .whileExp _ c body, π => c.blocks π ++ body.blocks π
  | _, .forExp _ vardec hi body, π => vardec.blocks π ++ hi.blocks π ++ body.blocks π
  | _, .breakExp _, _ => .nil
  | _, .letExp _ chunks body, π => chunks.blocks π ++ body.blocks π
  | _, .arrayExp _ t size init, π => t.blocks π ++ size.blocks π ++ init.blocks π
  | _, .castExp _ e t, π => e.blocks π ++ t.blocks π
  | _, .nameTy _ _, _ => .nil
  | _, .ofNameTy t, π => t.blocks π
  | _, .recordTy _ fs, π => fs.blocks π
  | _, .arrayTy _ t, π => t.blocks π
  | _, .field _ _ t, π => t.blocks π
  | _, .fieldInit _ _ init, π => init.blocks π
  | _, .varDec a _ t init, π => .item (.variable a, π) (t.blocks π ++ init.blocks π)
  | _, .functionDec a _ formals result body, π => .item (.function a, π)
      (formals.blocks (a :: π) ++ result.blocks (a :: π) ++ body.blocks (a :: π))
  | _, .typeDec _ _ ty, π => ty.blocks π
  | _, .varChunk _ ds, π => ds.blocks π
  | _, .ofVarChunk c, π => c.blocks π
  | _, .functionChunk _ ds, π => .loop (ds.blocks π) .nil
  | _, .typeChunk _ ds, π => ds.blocks π
  | _, .chunkList _ cs, π => cs.blocks π

@[simp] theorem Ast.items_blocks {k : Kind} (t : Ast Addr k) (π : List Addr) :
    (t.blocks π).items = t.places π := by
  induction t generalizing π <;> simp [Ast.blocks, Ast.places, *]

namespace EscapesCollector

variable {f : Addr → Option Addr} {flag : Addr → Bool} {n : Nat} {k : Kind}
  {s s' s₁ s₂ : EscapesCollector} {π σ : List Addr} {L : List Place} {M M' : Blocks Place}

/-! ## A rule for the visit -/

/-- What has to be shown of the steps of a visit to know what the visit does: `Pre` holds where
the functions `π` are around, and `R` relates the states before and after some places. -/
structure Rules (f : Addr → Option Addr) (flag : Addr → Bool) (n : Nat) (L : List Place)
    (E : Stop → Prop) (Pre : List Addr → EscapesCollector → Prop)
    (R : List Addr → Blocks Place → EscapesCollector → EscapesCollector → Prop) : Prop where
  nil (π : List Addr) (s : EscapesCollector) : R π .nil s s
  append {π : List Addr} {M M' : Blocks Place} {s s₁ s₂ : EscapesCollector}
    (h : R π M s s₁) (h' : R π M' s₁ s₂) : R π (M ++ M') s s₂
  declare (π : List Addr) (d : Addr) (s : EscapesCollector) : R π (.one (.variable d, π)) s s
  use {π : List Addr} {a : Addr} {s : EscapesCollector} (hL : (.use a, π) ∈ L) (hs : Pre π s) :
    Ends E (fun s' => Pre π s' ∧ R π (.one (.use a, π)) s s') (s.simpleVar flag π.head? (f a))
  call {π : List Addr} {a : Addr} {s : EscapesCollector} (hL : (.call a, π) ∈ L)
    (hs : Pre π s) :
    Ends E (fun s' => Pre π s' ∧ R π (.one (.call a, π)) s s') (s.callExp π.head? (f a))
  enter {π : List Addr} {a : Addr} {s : EscapesCollector} (hL : (.function a, π) ∈ L)
    (hs : Pre π s) : Pre (a :: π) (s.enter a)
  leave {π : List Addr} {a : Addr} {M : Blocks Place} {s s' : EscapesCollector}
    (hs : Pre (a :: π) s') (hM : R (a :: π) M (s.enter a) s') :
    Pre π s' ∧ R π (.item (.function a, π) M) s s'
  chunk {π : List Addr} {s : EscapesCollector} {ds : Ast Addr (.list .functionDec)}
    {pass : EscapesCollector → Except Stop EscapesCollector} (hL : ds.places π ⊆ L)
    (hs : Pre π s)
    (hpass : ∀ s, Pre π s → Ends E (fun s' => Pre π s' ∧ R π (ds.blocks π) s s') (pass s)) :
    Ends E (fun s' => Pre π s' ∧ R π (.loop (ds.blocks π) .nil) s s')
      (s.functionChunk n ds.toList.isEmpty pass)

variable {E : Stop → Prop} {Pre : List Addr → EscapesCollector → Prop}
  {R : List Addr → Blocks Place → EscapesCollector → EscapesCollector → Prop}

/-- A visit does what the rules say. -/
def Obeys (f : Addr → Option Addr) (flag : Addr → Bool) (n : Nat) (E : Stop → Prop)
    (Pre : List Addr → EscapesCollector → Prop)
    (R : List Addr → Blocks Place → EscapesCollector → EscapesCollector → Prop)
    (t : Ast Addr k) (π : List Addr) : Prop :=
  ∀ s, Pre π s → Ends E (fun s' => Pre π s' ∧ R π (t.blocks π) s s')
    (visit f flag n t π.head? s)

/-- One visit after another. -/
theorem Rules.seq (r : Rules f flag n L E Pre R) {x : Except Stop EscapesCollector}
    {g : EscapesCollector → Except Stop EscapesCollector}
    (hx : Ends E (fun s' => Pre π s' ∧ R π M s s') x)
    (hg : ∀ s, Pre π s → Ends E (fun s' => Pre π s' ∧ R π M' s s') (g s)) :
    Ends E (fun s' => Pre π s' ∧ R π (M ++ M') s s') (x >>= g) := by
  refine hx.bind fun s₁ h₁ => (hg s₁ h₁.1).imp fun s₂ h₂ => ?_
  exact ⟨h₂.1, r.append h₁.2 h₂.2⟩

/-- **The visit of a tree does what its steps do.** -/
theorem Rules.visit (r : Rules f flag n L E Pre R) {t : Ast Addr k} (hL : t.places π ⊆ L) :
    Obeys f flag n E Pre R t π := by
  induction t generalizing π with
  | nil | none | nilExp | intExp | stringExp | breakExp | nameTy =>
    exact fun s hs => ⟨hs, r.nil π s⟩
  | simpleVar a x => exact fun s hs => r.use (hL (.head _)) hs
  | some _ ih | ofVar _ ih | ofNameTy _ ih | ofVarChunk _ ih | fieldVar _ _ _ ih | seqExp _ _ ih
  | recordTy _ _ ih | arrayTy _ _ ih | field _ _ _ ih | fieldInit _ _ _ ih | typeDec _ _ _ ih
  | varChunk _ _ ih | typeChunk _ _ ih | chunkList _ _ ih => exact ih hL
  | callExp a x args ih =>
    obtain ⟨hargs, ha⟩ := List.append_subset.mp hL
    exact fun s hs => r.seq (ih hargs s hs) fun s₁ h₁ => r.call (ha (.head _)) h₁
  | cons _ _ ih₁ ih₂ | subscriptVar _ _ _ ih₁ ih₂ | opExp _ _ _ _ ih₁ ih₂
  | recordExp _ _ _ ih₁ ih₂ | assignExp _ _ _ ih₁ ih₂ | whileExp _ _ _ ih₁ ih₂
  | letExp _ _ _ ih₁ ih₂ | castExp _ _ _ ih₁ ih₂ =>
    obtain ⟨h₁, h₂⟩ := List.append_subset.mp hL
    exact fun s hs => r.seq (ih₁ h₁ s hs) (ih₂ h₂)
  | ifExp _ _ _ _ ih₁ ih₂ ih₃ | forExp _ _ _ _ ih₁ ih₂ ih₃ | arrayExp _ _ _ _ ih₁ ih₂ ih₃ =>
    obtain ⟨h₁₂, h₃⟩ := List.append_subset.mp hL
    obtain ⟨h₁, h₂⟩ := List.append_subset.mp h₁₂
    intro s hs
    simp only [EscapesCollector.visit, ← bind_assoc]
    exact r.seq (r.seq (ih₁ h₁ s hs) (ih₂ h₂)) (ih₃ h₃)
  | varDec a _ _ _ ih₁ ih₂ =>
    obtain ⟨h₁, h₂⟩ := List.append_subset.mp (List.cons_subset.mp hL).2
    intro s hs
    refine (r.seq (ih₁ h₁ s hs) (ih₂ h₂)).imp fun s' h' => ⟨h'.1, ?_⟩
    exact r.append (r.declare π a s) h'.2
  | functionDec a _ _ _ _ ih₁ ih₂ ih₃ =>
    obtain ⟨ha, hL⟩ := List.cons_subset.mp hL
    obtain ⟨h₁₂, h₃⟩ := List.append_subset.mp hL
    obtain ⟨h₁, h₂⟩ := List.append_subset.mp h₁₂
    intro s hs
    simp only [EscapesCollector.visit, ← bind_assoc]
    have hbody := r.seq (r.seq (ih₁ h₁ _ (r.enter ha hs)) (ih₂ h₂)) (ih₃ h₃)
    exact hbody.imp fun s' h' => r.leave h'.1 h'.2
  | functionChunk a ds ih =>
    exact fun s hs => r.chunk hL hs (ih hL)

/-- What the rules say of a whole run. -/
theorem Rules.collect {program : Ast Addr .chunkList}
    (r : Rules f flag n (program.places []) E Pre R) (h : Pre [] {}) :
    Ends E (fun s => Pre [] s ∧ R [] (program.blocks []) {} s) (collectEscapes f flag n program) :=
  r.visit (List.Subset.refl _) {} h

end EscapesCollector

end TigerCompiler
