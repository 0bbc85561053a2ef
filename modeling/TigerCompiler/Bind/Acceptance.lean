import TigerCompiler.Bind.Initialisers
import TigerCompiler.Misc.Checks

/-!
# What the `Binder` accepts

The `Binder` looks something up at the uses, at the `break`s and at the chunks, and it stops at the
first place where it does not find what it should.  These places are listed here in the order in
which it comes to them, each with the declarations and the loops around it, and a visit ends as
that list tells (`makes_visit`).
-/

namespace TigerCompiler

/-! ## Loops -/

/-- What is known of the loops around a place. -/
structure LoopScope where
  /-- The innermost loop that has the place in its body, with no function in between. -/
  inner : Option Addr := none
  /-- The loop the `Binder` would bind a `break` of that place to. -/
  seen : Option Addr := none
  /-- Whether the place lies in the test of a `while`, where the `Binder` does not go. -/
  aside : Bool := false

namespace LoopScope

/-- Inside the body of a loop. -/
def body (σ : LoopScope) (a : Addr) : LoopScope := { σ with inner := some a, seen := some a }

/-- Inside the bounds of a `for`. -/
def bounds (σ : LoopScope) (a : Addr) : LoopScope := { σ with seen := some a }

/-- Inside the test of a `while`. -/
def test (σ : LoopScope) : LoopScope := { σ with aside := true }

/-- Inside a `let`. -/
def block (σ : LoopScope) : LoopScope := { σ with seen := none }

/-- Inside a function. -/
def function (σ : LoopScope) : LoopScope := { σ with inner := none, seen := none }

end LoopScope

/-! ## The places where something is looked up -/

/-- A node with the declarations and the loops around it. -/
structure Site where
  scope : Scope
  loops : LoopScope
  kind : Kind
  node : Ast Addr kind

namespace Binder

/-- The places where the visit of a tree looks something up, in the order of the visit.  The
tests of the `while`s, the bodies of the types and the results of the functions have none. -/
def sites : {k : Kind} → Scope → LoopScope → Ast Addr k → Walk → List Site
  | _, _, _, .nil, _ => []
  | _, ρ, σ, .cons x xs, w => sites ρ σ x .accept ++ sites (ρ.after x) σ xs w
  | _, _, _, .none, _ => []
  | _, ρ, σ, .some x, _ => sites ρ σ x .accept
  | _, ρ, σ, t@(.simpleVar _ _), _ => [⟨ρ, σ, _, t⟩]
  | _, ρ, σ, .fieldVar _ v _, _ => sites ρ σ v .accept
  | _, ρ, σ, .subscriptVar _ v i, _ => sites ρ σ v .accept ++ sites ρ σ i .accept
  | _, ρ, σ, .ofVar v, _ => sites ρ σ v .accept
  | _, _, _, .nilExp _, _ => []
  | _, _, _, .intExp _ _, _ => []
  | _, _, _, .stringExp _ _, _ => []
  | _, ρ, σ, t@(.callExp _ _ args), _ => ⟨ρ, σ, _, t⟩ :: sites ρ σ args .accept
  | _, ρ, σ, .opExp _ l _ r, _ => sites ρ σ l .accept ++ sites ρ σ r .accept
  | _, ρ, σ, .recordExp _ n fs, _ => sites ρ σ n .accept ++ sites ρ σ fs .accept
  | _, ρ, σ, .seqExp _ es, _ => sites ρ σ es .nested
  | _, ρ, σ, .assignExp _ v e, _ => sites ρ σ v .accept ++ sites ρ σ e .accept
  | _, ρ, σ, .ifExp _ c t e, _ =>
    sites ρ σ c .accept ++ (sites ρ σ t .accept ++ sites ρ σ e .accept)
  | _, ρ, σ, .whileExp a _ body, _ => sites ρ (σ.body a) body .accept
  | _, ρ, σ, .forExp a vardec hi body, _ =>
    sites ρ (σ.bounds a) vardec .accept ++
      (sites (ρ.putEarly vardec.varName vardec.varAddr) (σ.bounds a) hi .accept ++
        sites (ρ.after vardec) (σ.body a) body .accept)
  | _, ρ, σ, t@(.breakExp _), _ => [⟨ρ, σ, _, t⟩]
  | _, ρ, σ, .letExp _ chunks body, _ =>
    sites ρ σ.block chunks .accept ++ sites (ρ.after chunks) σ.block body .accept
  | _, ρ, σ, .arrayExp _ n s i, _ =>
    sites ρ σ n .accept ++ (sites ρ σ s .accept ++ sites ρ σ i .accept)
  | _, ρ, σ, .castExp _ e ty, _ => sites ρ σ e .accept ++ sites ρ σ ty .accept
  | _, ρ, σ, t@(.nameTy _ _), _ => [⟨ρ, σ, _, t⟩]
  | _, ρ, σ, .ofNameTy n, _ => sites ρ σ n .accept
  | _, ρ, σ, .recordTy _ fs, _ => sites ρ σ fs .accept
  | _, ρ, σ, .arrayTy _ n, _ => sites ρ σ n .accept
  | _, ρ, σ, .field _ _ n, _ => sites ρ σ n .accept
  | _, ρ, σ, .fieldInit _ _ i, _ => sites ρ σ i .accept
  | _, ρ, σ, .varDec a x n i, _ =>
    sites (ρ.putEarly x a) σ n .accept ++ sites (ρ.putEarly x a) σ i .accept
  | _, ρ, σ, .functionDec _ _ formals _ body, _ =>
    sites ρ σ.function formals .elements ++ sites (ρ.after formals) σ.function body .accept
  | _, _, _, .typeDec _ _ _, _ => []
  | _, ρ, σ, .varChunk _ ds, .elements => sites ρ σ ds .accept
  | _, ρ, σ, t@(.varChunk _ ds), _ => ⟨ρ, σ, _, t⟩ :: sites ρ σ ds .accept
  | _, ρ, σ, .ofVarChunk c, _ => sites ρ σ c .accept
  | _, ρ, σ, t@(.functionChunk _ ds), _ =>
    ⟨ρ, σ, _, t⟩ :: sites (ρ.putFuns ds.toList) σ ds .accept
  | _, ρ, σ, t@(.typeChunk _ _), _ => [⟨ρ, σ, _, t⟩]
  | _, ρ, σ, .chunkList _ cs, _ => sites ρ σ cs .accept

/-- The names are different and none of them is visible. -/
def Fresh (visible : Symbol → Option Addr) (xs : List Symbol) : Prop :=
  xs.Nodup ∧ ∀ x ∈ xs, visible x = none

/-- What is looked up is as it should. -/
def Passes ⦃k : Kind⦄ (ρ : Scope) (σ : LoopScope) : Ast Addr k → Prop
  | .simpleVar _ x => ρ.early x ≠ none
  | .callExp _ x _ => ρ.funs x ≠ none
  | .nameTy _ x => ρ.types x = none → x.isBuiltin = true
  | .breakExp _ => σ.seen ≠ none
  | .varChunk _ ds => (ds.toList.map Ast.varName).Nodup
  | .functionChunk _ ds => Fresh ρ.funs (ds.toList.map Ast.functionName)
  | .typeChunk _ ds => Fresh ρ.types (ds.toList.map Ast.typeName)
  | _ => True

/-- The errors for a name declared twice. -/
def IsDuplicate (e : Stop) : Prop :=
  ∃ x : Symbol, e = bindError ("duplicated function: ".toList ++ x) ∨
    e = bindError ("duplicated type: ".toList ++ x) ∨
    e = bindError ("duplicated parameter: ".toList ++ x)

/-- The errors for a name that is used and not declared. -/
def IsUndeclared (e : Stop) : Prop :=
  ∃ x : Symbol, e = bindError ("undeclared variable: ".toList ++ x) ∨
    e = bindError ("undeclared/undefined function: ".toList ++ x) ∨
    e = bindError ("undeclared type: ".toList ++ x)

/-- The errors for a `break`. -/
def IsMisplaced (e : Stop) : Prop :=
  e = bindError "break outside loop: ".toList ∨ e = bindError "Invalid break".toList

/-- The errors that are reported at a node. -/
def Reports ⦃k : Kind⦄ : Ast Addr k → Stop → Prop
  | .simpleVar _ _ | .callExp _ _ _ | .nameTy _ _ => IsUndeclared
  | .breakExp _ => IsMisplaced
  | .varChunk _ _ | .functionChunk _ _ | .typeChunk _ _ => IsDuplicate
  | _ => fun _ => False

/-- The checks of the `Binder`. -/
def checks : Checks Site Stop where
  passes s := Passes s.scope s.loops s.node
  gives s := Reports s.node

/-! ## What holds along a visit -/

/-- `P` holds at every place where the visit looks something up, of the loops around it, of the
state in which the visit comes to it and of the node. -/
def Along (P : ⦃k : Kind⦄ → LoopScope → Binder → Ast Addr k → Prop) :
    {k : Kind} → LoopScope → Binder → Ast Addr k → Walk → Prop
  | _, _, _, .nil, _ => True
  | _, σ, b, .cons x xs, .nested =>
    Along P σ b.scopeBegin x .accept ∧
      ∀ b', (b.scopeBegin.visit x .accept >>= scopeEnd) = .ok b' → Along P σ b' xs .nested
  | _, σ, b, .cons x xs, w =>
    Along P σ b x .accept ∧ ∀ b', b.visit x .accept = .ok b' → Along P σ b' xs w
  | _, _, _, .none, _ => True
  | _, σ, b, .some x, _ => Along P σ b x .accept
  | _, σ, b, t@(.simpleVar _ _), _ => P σ b t
  | _, σ, b, .fieldVar _ v _, _ => Along P σ b v .accept
  | _, σ, b, .subscriptVar _ v i, _ =>
    Along P σ b v .accept ∧ ∀ b', b.visit v .accept = .ok b' → Along P σ b' i .accept
  | _, σ, b, .ofVar v, _ => Along P σ b v .accept
  | _, _, _, .nilExp _, _ => True
  | _, _, _, .intExp _ _, _ => True
  | _, _, _, .stringExp _ _, _ => True
  | _, σ, b, t@(.callExp a x args), _ =>
    P σ b t ∧ ∀ b', b.useFunction a x = .ok b' → Along P σ b' args .accept
  | _, σ, b, .opExp _ l _ r, _ =>
    Along P σ b l .accept ∧ ∀ b', b.visit l .accept = .ok b' → Along P σ b' r .accept
  | _, σ, b, .recordExp _ n fs, _ =>
    Along P σ b n .accept ∧ ∀ b', b.visit n .accept = .ok b' → Along P σ b' fs .accept
  | _, σ, b, .seqExp _ es, _ => Along P σ b es .nested
  | _, σ, b, .assignExp _ v e, _ =>
    Along P σ b v .accept ∧ ∀ b', b.visit v .accept = .ok b' → Along P σ b' e .accept
  | _, σ, b, .ifExp _ c t e, _ =>
    Along P σ b c .accept ∧ ∀ b', b.visit c .accept = .ok b' → Along P σ b' t .accept ∧
      ∀ b'', b'.visit t .accept = .ok b'' → Along P σ b'' e .accept
  | _, σ, b, .whileExp a _ body, _ => Along P (σ.body a) (b.enterLoop a) body .accept
  | _, σ, b, .forExp a vardec hi body, _ =>
    Along P (σ.bounds a) (b.enterLoop a).scopeBegin vardec .accept ∧
      ∀ b', (b.enterLoop a).scopeBegin.visit vardec .accept = .ok b' →
        Along P (σ.bounds a) b' hi .accept ∧
          ∀ b'', b'.visit hi .accept = .ok b'' → Along P (σ.body a) b'' body .accept
  | _, σ, b, t@(.breakExp _), _ => P σ b t
  | _, σ, b, .letExp _ chunks body, _ =>
    Along P σ.block b.enterBlock chunks .accept ∧
      ∀ b', b.enterBlock.visit chunks .accept = .ok b' → Along P σ.block b' body .accept
  | _, σ, b, .arrayExp _ n s i, _ =>
    Along P σ b n .accept ∧ ∀ b', b.visit n .accept = .ok b' → Along P σ b' s .accept ∧
      ∀ b'', b'.visit s .accept = .ok b'' → Along P σ b'' i .accept
  | _, σ, b, .castExp _ e ty, _ =>
    Along P σ b e .accept ∧ ∀ b', b.visit e .accept = .ok b' → Along P σ b' ty .accept
  | _, σ, b, t@(.nameTy _ _), _ => P σ b t
  | _, σ, b, .ofNameTy n, _ => Along P σ b n .accept
  | _, σ, b, .recordTy _ fs, _ => Along P σ b fs .accept
  | _, σ, b, .arrayTy _ n, _ => Along P σ b n .accept
  | _, σ, b, .field _ _ n, _ => Along P σ b n .accept
  | _, σ, b, .fieldInit _ _ i, _ => Along P σ b i .accept
  | _, σ, b, .varDec a x n i, _ =>
    ∀ b', b.putVar x a = .ok b' → Along P σ b' n .accept ∧
      ∀ b'', b'.visit n .accept = .ok b'' → Along P σ b'' i .accept
  | _, σ, b, .functionDec _ _ formals _ body, _ =>
    Along P σ.function b.enterBlock formals .elements ∧
      ∀ b', b.enterBlock.visit formals .elements = .ok b' → Along P σ.function b' body .accept
  | _, _, _, .typeDec _ _ _, _ => True
  | _, σ, b, .varChunk _ ds, .elements => Along P σ b ds .accept
  | _, σ, b, t@(.varChunk _ ds), _ =>
    P σ b t ∧ (checkParameters [] (ds.toList.map Ast.varName) = .ok () → Along P σ b ds .accept)
  | _, σ, b, .ofVarChunk c, _ => Along P σ b c .accept
  | _, σ, b, t@(.functionChunk _ ds), _ =>
    P σ b t ∧ ∀ b', b.putFunctions ds.toList = .ok b' → Along P σ b' ds .accept
  | _, σ, b, t@(.typeChunk _ _), _ => P σ b t
  | _, σ, b, .chunkList _ cs, _ => Along P σ b cs .accept

/-! ## The maps and the loops of the `Binder` -/

variable {k : Kind} {ρ : Scope} {σ : LoopScope} {b b' : Binder}

/-- The three maps have a scope open. -/
structure Open (b : Binder) : Prop where
  vars : b.mapVardec.levels ≠ []
  funs : b.mapFundec.levels ≠ []
  types : b.mapTypedec.levels ≠ []

theorem Open.setDefs (h : Open b) (f : Addr → Option Addr) : Open { b with defs := f } :=
  ⟨h.vars, h.funs, h.types⟩

theorem Open.scopeBegin (b : Binder) : Open b.scopeBegin :=
  ⟨List.cons_ne_nil _ _, List.cons_ne_nil _ _, List.cons_ne_nil _ _⟩

theorem Open.scopeEnd (h : Open b) : ∃ b', b.scopeEnd = .ok b' := by
  obtain ⟨⟨_ | ⟨v, vs⟩⟩, ⟨_ | ⟨f, fs⟩⟩, ⟨_ | ⟨t, ts⟩⟩, ls, l, d⟩ := b
  case cons.cons.cons => exact ⟨_, rfl⟩
  all_goals
    obtain ⟨hv, hf, ht⟩ := h
    contradiction

theorem put_eq_ok {m : ScopedMap Symbol Addr} (h : m.levels ≠ []) (x : Symbol) (a : Addr) :
    ∃ m', m.put x a = .ok m' ∧ m'.levels ≠ [] ∧ m'.get = Function.update m.get x (some a) := by
  obtain ⟨_ | ⟨d, ds⟩⟩ := m
  · exact absurd rfl h
  · exact ⟨_, rfl, List.cons_ne_nil _ _, ScopedMap.get_put rfl⟩

theorem Open.putVar (h : Open b) (x : Symbol) (a : Addr) :
    ∃ b', b.putVar x a = .ok b' ∧ Open b' := by
  obtain ⟨m, hm, hne, -⟩ := put_eq_ok h.vars x a
  exact ⟨{ b with mapVardec := m }, by rw [Binder.putVar, hm]; rfl, hne, h.funs, h.types⟩

/-- The loop a `break` would be bound to. -/
def innermost (b : Binder) : Option Addr := if b.inLoop then b.loops.head? else none

theorem SameContext.innermost (h : SameContext b b') : b'.innermost = b.innermost := by
  unfold Binder.innermost
  rw [h.inLoop, h.loops]

/-- What is around a place is what the state of the `Binder` shows. -/
structure Ready (ρ : Scope) (σ : LoopScope) (b : Binder) : Prop where
  funs : ρ.funs = b.scope.funs
  types : ρ.types = b.scope.types
  early : ρ.early = b.scope.early
  seen : σ.seen = b.innermost
  isOpen : Open b

namespace Ready

theorem after {t : Ast Addr k} {w : Walk} (h : Ready ρ σ b) (e : Effect t w b b')
    (hw : w ≠ .nested) (ho : Open b') : Ready (ρ.after t) σ b' where
  funs := by rw [e.scope hw, Scope.after_funs_congr h.funs]
  types := by rw [e.scope hw, Scope.after_types_congr h.types]
  early := by rw [e.scope hw, Scope.after_early_congr h.early]
  seen := h.seen.trans e.same.innermost.symm
  isOpen := ho

theorem setDefs (h : Ready ρ σ b) (f : Addr → Option Addr) : Ready ρ σ { b with defs := f } :=
  ⟨h.funs, h.types, h.early, h.seen, h.isOpen.setDefs f⟩

theorem scopeBegin (h : Ready ρ σ b) : Ready ρ σ b.scopeBegin where
  funs := by rw [scope_scopeBegin, h.funs]
  types := by rw [scope_scopeBegin, h.types]
  early := by rw [scope_scopeBegin, h.early]
  seen := h.seen
  isOpen := .scopeBegin b

theorem enterLoop (h : Ready ρ σ b) (a : Addr) : Ready ρ (σ.body a) (b.enterLoop a) :=
  ⟨h.funs, h.types, h.early, rfl, h.isOpen.vars, h.isOpen.funs, h.isOpen.types⟩

theorem enterBlock (h : Ready ρ σ b) : Ready ρ σ.block b.enterBlock where
  funs := by rw [scope_enterBlock, h.funs]
  types := by rw [scope_enterBlock, h.types]
  early := by rw [scope_enterBlock, h.early]
  seen := rfl
  isOpen := .scopeBegin { b with inLoop := false }

/-- The same state shows any scope with the same declarations and the same loop. -/
theorem congr {ρ' : Scope} {σ' : LoopScope} (h : Ready ρ σ b) (hf : ρ'.funs = ρ.funs)
    (ht : ρ'.types = ρ.types) (he : ρ'.early = ρ.early) (hs : σ'.seen = σ.seen) :
    Ready ρ' σ' b :=
  ⟨hf.trans h.funs, ht.trans h.types, he.trans h.early, hs.trans h.seen, h.isOpen⟩

theorem putVar {x : Symbol} {a : Addr} (h : Ready ρ σ b) (hb : b.putVar x a = .ok b') :
    Ready (ρ.putEarly x a) σ b' := by
  obtain ⟨b₁, h₁, ho⟩ := h.isOpen.putVar x a
  cases h₁.symm.trans hb
  obtain ⟨hs, hρ, -⟩ := putVar_eq_ok hb
  refine ⟨?_, ?_, ?_, h.seen.trans hs.innermost.symm, ho⟩
  · rw [hρ]
    exact h.funs
  · rw [hρ]
    exact h.types
  · rw [hρ, Scope.putEarly, h.early]
    rfl

theorem putFunctions {ds : List (Ast Addr .functionDec)} (h : Ready ρ σ b)
    (hb : b.putFunctions ds = .ok b') (ho : Open b') : Ready (ρ.putFuns ds) σ b' := by
  obtain ⟨hs, hρ, -⟩ := putFunctions_eq_ok hb
  refine ⟨?_, ?_, ?_, h.seen.trans hs.innermost.symm, ho⟩
  · rw [hρ, Scope.putFuns_congr h.funs]
  · rw [hρ, Scope.putFuns_types, Scope.putFuns_types, h.types]
  · rw [hρ, (Scope.putFuns_vars _).2, (Scope.putFuns_vars _).2, h.early]

end Ready

/-! ## Leaving a node -/

theorem Open.leaveLoop {c : Binder} {a : Addr} (h : Open c) (hs : SameContext (b.enterLoop a) c)
    (copy : Bool) : ∃ b', c.leaveLoop copy = .ok b' ∧ Open b' := by
  have hl : c.loops = a :: b.loops := hs.loops
  unfold Binder.leaveLoop
  rw [hl]
  exact ⟨_, rfl, h.vars, h.funs, h.types⟩

theorem Open.leaveBlock {c : Binder} (h : Open b) (hs : SameContext b.enterBlock c) (hc : Open c) :
    ∃ b', c.leaveBlock b.inLoop = .ok b' ∧ Open b' := by
  obtain ⟨c', hc'⟩ := hc.scopeEnd
  have hok : c.leaveBlock b.inLoop = .ok { c' with inLoop := b.inLoop } := by
    rw [Binder.leaveBlock, hc']
    rfl
  have := hs.leaveBlock hok
  exact ⟨_, hok, this ▸ h.setDefs _⟩

theorem Open.leaveFor {c : Binder} {a : Addr} (h : Open b)
    (hs : SameContext (b.enterLoop a).scopeBegin c) (hc : Open c) :
    ∃ b', (c.scopeEnd >>= fun c => c.leaveLoop b.inLoop) = .ok b' ∧ Open b' := by
  obtain ⟨c', hc'⟩ := hc.scopeEnd
  have heq := hs.scopeEnd hc'
  subst heq
  rw [hc']
  exact ⟨_, rfl, h.vars, h.funs, h.types⟩

/-! ## The checks -/

/-- The first loop of a chunk of functions. -/
theorem putFunctions_spec (h : Open b) (ds : List (Ast Addr .functionDec)) :
    Ends (fun e => ¬ Fresh b.mapFundec.get (ds.map Ast.functionName) ∧ IsDuplicate e)
      (fun b' => Fresh b.mapFundec.get (ds.map Ast.functionName) ∧ Open b')
      (b.putFunctions ds) := by
  induction ds generalizing b with
  | nil => exact ⟨⟨List.nodup_nil, by simp⟩, h⟩
  | cons d ds ih =>
    unfold putFunctions putFunction
    rw [ScopedMap.contains_eq]
    cases hg : b.mapFundec.get d.functionName with
    | some a =>
      refine ⟨fun hf => ?_, d.functionName, .inl rfl⟩
      rw [hf.2 d.functionName List.mem_cons_self] at hg
      cases hg
    | none =>
      obtain ⟨m, hm, hne, hget⟩ := put_eq_ok h.funs d.functionName d.functionAddr
      have ho : Open { b with mapFundec := m } := ⟨h.vars, hne, h.types⟩
      have hfresh : Fresh m.get (ds.map Ast.functionName) ↔
          Fresh b.mapFundec.get ((d :: ds).map Ast.functionName) := by
        simp only [Fresh, hget, List.map_cons, List.nodup_cons, List.forall_mem_cons, hg, true_and,
          Function.update_apply]
        grind
      simp only [hm, Option.isSome_none, Bool.false_eq_true, if_false, ok_bind, pure,
        Except.pure, ← hfresh]
      exact ih ho

/-- The loop of a chunk of types. -/
theorem putTypes_spec (h : Open b) (ds : List (Ast Addr .typeDec)) :
    Ends (fun e => ¬ Fresh b.mapTypedec.get (ds.map Ast.typeName) ∧ IsDuplicate e)
      (fun b' => Fresh b.mapTypedec.get (ds.map Ast.typeName) ∧ Open b') (b.putTypes ds) := by
  induction ds generalizing b with
  | nil => exact ⟨⟨List.nodup_nil, by simp⟩, h⟩
  | cons d ds ih =>
    unfold putTypes putType
    rw [ScopedMap.contains_eq]
    cases hg : b.mapTypedec.get d.typeName with
    | some a =>
      refine ⟨fun hf => ?_, d.typeName, .inr (.inl rfl)⟩
      rw [hf.2 d.typeName List.mem_cons_self] at hg
      cases hg
    | none =>
      obtain ⟨m, hm, hne, hget⟩ := put_eq_ok h.types d.typeName d.typeAddr
      have ho : Open { b with mapTypedec := m } := ⟨h.vars, h.funs, hne⟩
      have hfresh : Fresh m.get (ds.map Ast.typeName) ↔
          Fresh b.mapTypedec.get ((d :: ds).map Ast.typeName) := by
        simp only [Fresh, hget, List.map_cons, List.nodup_cons, List.forall_mem_cons, hg, true_and,
          Function.update_apply]
        grind
      simp only [hm, Option.isSome_none, Bool.false_eq_true, if_false, ok_bind, pure,
        Except.pure, ← hfresh]
      exact ih ho

/-- The first loop of a chunk of variables. -/
theorem checkParameters_spec (vars names : List Symbol) :
    Ends (fun e => ¬ (names.Nodup ∧ ∀ x ∈ names, x ∉ vars) ∧ IsDuplicate e)
      (fun _ => names.Nodup ∧ ∀ x ∈ names, x ∉ vars) (checkParameters vars names) := by
  induction names generalizing vars with
  | nil => exact ⟨List.nodup_nil, by simp⟩
  | cons x names ih =>
    unfold checkParameters
    by_cases hx : x ∈ vars
    · rw [if_pos hx]
      exact ⟨fun h => h.2 x List.mem_cons_self hx, x, .inr (.inr rfl)⟩
    · rw [if_neg hx]
      have heq : ((x :: names).Nodup ∧ ∀ y ∈ x :: names, y ∉ vars) =
          (names.Nodup ∧ ∀ y ∈ names, y ∉ x :: vars) := by
        simp only [List.nodup_cons, List.mem_cons, eq_iff_iff]
        grind
      rw [heq]
      exact ih _

/-! ## The visit -/

section Visit

variable {P : ⦃k : Kind⦄ → LoopScope → Binder → Ast Addr k → Prop} {R : Site → Prop}

/-- What `P` says of a state, `R` says of what is around the place. -/
def Agree (P : ⦃k : Kind⦄ → LoopScope → Binder → Ast Addr k → Prop) (R : Site → Prop) : Prop :=
  ∀ ⦃k : Kind⦄ ⦃ρ : Scope⦄ ⦃σ : LoopScope⦄ ⦃b : Binder⦄ (t : Ast Addr k), Ready ρ σ b →
    (P σ b t ↔ R ⟨ρ, σ, k, t⟩)

/-- The run `x` makes the checks `l`, with `A` along it. -/
abbrev Makes (R : Site → Prop) (l : List Site) (x : Except Stop Binder) (A : Prop) : Prop :=
  checks.Makes Open R l x A

section Uses

variable (hPR : Agree P R) (h : Ready ρ σ b)

include hPR h

theorem makes_useVar (a : Addr) (x : Symbol) :
    Makes R [⟨ρ, σ, _, .simpleVar a x⟩] (b.useVar a x) (P σ b (.simpleVar a x)) := by
  have hx : ρ.early x = b.mapVardec.get x := congrFun h.early x
  unfold useVar
  cases hg : b.mapVardec.get x with
  | none =>
    refine .check (by rintro _ ⟨⟩) ?_ (hPR _ h)
    rintro _ ⟨⟩
    exact ⟨fun hp => hp (hx.trans hg), x, .inl rfl⟩
  | some d =>
    refine .check ?_ (by rintro _ ⟨⟩) (hPR _ h)
    rintro _ ⟨⟩
    refine ⟨?_, h.isOpen.setDefs _⟩
    show ρ.early x ≠ none
    simp [hx, hg]

theorem makes_useType (a : Addr) (x : Symbol) :
    Makes R [⟨ρ, σ, _, .nameTy a x⟩] (b.useType a x) (P σ b (.nameTy a x)) := by
  have hx : ρ.types x = b.mapTypedec.get x := congrFun h.types x
  unfold useType
  cases hg : b.mapTypedec.get x with
  | none =>
    by_cases hb : x.isBuiltin = true
    · rw [if_pos hb]
      refine .check ?_ (by rintro _ ⟨⟩) (hPR _ h)
      rintro _ ⟨⟩
      exact ⟨fun _ => hb, h.isOpen.setDefs _⟩
    · rw [if_neg hb]
      refine .check (by rintro _ ⟨⟩) ?_ (hPR _ h)
      rintro _ ⟨⟩
      exact ⟨fun hp => hb (hp (hx.trans hg)), x, .inr (.inr rfl)⟩
  | some d =>
    refine .check ?_ (by rintro _ ⟨⟩) (hPR _ h)
    rintro _ ⟨⟩
    refine ⟨fun hn => ?_, h.isOpen.setDefs _⟩
    simp [hx, hg] at hn

theorem makes_useLoop (a : Addr) :
    Makes R [⟨ρ, σ, _, .breakExp a⟩] (b.useLoop a) (P σ b (.breakExp a)) := by
  have hs := h.seen
  unfold innermost at hs
  unfold useLoop
  by_cases hi : b.inLoop = true
  · rw [if_pos hi]
    rw [if_pos hi] at hs
    cases hl : b.loops with
    | nil =>
      refine .check (by rintro _ ⟨⟩) ?_ (hPR _ h)
      rintro _ ⟨⟩
      exact ⟨fun hp => hp (by rw [hs, hl]; rfl), .inl rfl⟩
    | cons l ls =>
      refine .check ?_ (by rintro _ ⟨⟩) (hPR _ h)
      rintro _ ⟨⟩
      refine ⟨?_, h.isOpen.setDefs _⟩
      show σ.seen ≠ none
      simp [hs, hl]
  · rw [if_neg hi]
    rw [if_neg hi] at hs
    refine .check (by rintro _ ⟨⟩) ?_ (hPR _ h)
    rintro _ ⟨⟩
    exact ⟨fun hp => hp hs, .inr rfl⟩

/-- A call, before its arguments. -/
theorem makes_useFunction (a : Addr) (x : Symbol) (args : Ast Addr (.list .exp)) :
    Makes R [⟨ρ, σ, _, .callExp a x args⟩] (b.useFunction a x) (P σ b (.callExp a x args)) := by
  have hx : ρ.funs x = b.mapFundec.get x := congrFun h.funs x
  unfold useFunction
  cases hg : b.mapFundec.get x with
  | none =>
    refine .check (by rintro _ ⟨⟩) ?_ (hPR _ h)
    rintro _ ⟨⟩
    exact ⟨fun hp => hp (hx.trans hg), x, .inr (.inl rfl)⟩
  | some d =>
    refine .check ?_ (by rintro _ ⟨⟩) (hPR _ h)
    rintro _ ⟨⟩
    refine ⟨?_, h.isOpen.setDefs _⟩
    show ρ.funs x ≠ none
    simp [hx, hg]

/-- A chunk of functions, before they are visited. -/
theorem makes_putFunctions (a : Addr) (ds : Ast Addr (.list .functionDec)) :
    Makes R [⟨ρ, σ, _, .functionChunk a ds⟩] (b.putFunctions ds.toList)
      (P σ b (.functionChunk a ds)) := by
  have hs := putFunctions_spec h.isOpen ds.toList
  rw [show b.mapFundec.get = ρ.funs from h.funs.symm] at hs
  refine .check (fun b' hb' => ?_) (fun e he => ?_) (hPR _ h)
  · rwa [hb'] at hs
  · rwa [he] at hs

theorem makes_putTypes (a : Addr) (ds : Ast Addr (.list .typeDec)) :
    Makes R [⟨ρ, σ, _, .typeChunk a ds⟩] (b.putTypes ds.toList) (P σ b (.typeChunk a ds)) := by
  have hs := putTypes_spec h.isOpen ds.toList
  rw [show b.mapTypedec.get = ρ.types from h.types.symm] at hs
  refine .check (fun b' hb' => ?_) (fun e he => ?_) (hPR _ h)
  · rwa [hb'] at hs
  · rwa [he] at hs

/-- A chunk of variables which is no list of formals. -/
theorem makes_checkParameters (a : Addr) (ds : Ast Addr (.list .varDec)) :
    Makes R [⟨ρ, σ, _, .varChunk a ds⟩]
      (do checkParameters [] (ds.toList.map Ast.varName); .ok b) (P σ b (.varChunk a ds)) := by
  have hs := checkParameters_spec [] (ds.toList.map Ast.varName)
  simp only [List.not_mem_nil, not_false_eq_true, implies_true, and_true] at hs
  cases hc : checkParameters [] (ds.toList.map Ast.varName) with
  | error e =>
    rw [hc] at hs
    refine .check (by rintro _ ⟨⟩) ?_ (hPR _ h)
    rintro _ ⟨⟩
    exact hs
  | ok u =>
    rw [hc] at hs
    refine .check ?_ (by rintro _ ⟨⟩) (hPR _ h)
    rintro _ ⟨⟩
    exact ⟨hs, h.isOpen⟩

end Uses

section Children

variable {t : Ast Addr k} {w : Walk} {l l' : List Site} {A : Prop} {B : Binder → Prop}
  {f : Binder → Except Stop Binder}

/-- The visit of a child, and what comes after it. -/
theorem Ready.bind (h : Ready ρ σ b) (hw : w ≠ .nested) (ht : Makes R l (b.visit t w) A)
    (hf : ∀ b', Ready (ρ.after t) σ b' → Makes R l' (f b') (B b')) :
    Makes R (l ++ l') (b.visit t w >>= f) (A ∧ ∀ b', b.visit t w = .ok b' → B b') :=
  Checks.Makes.bind ht fun b' hb' ho => hf b' (h.after (visit_effect hb') hw ho)

/-- The visit of a child that declares nothing, and what comes after it. -/
theorem Ready.bindSame (h : Ready ρ σ b) (hk : k.declares = false)
    (ht : Makes R l (b.visit t .accept) A)
    (hf : ∀ b', Ready ρ σ b' → Makes R l' (f b') (B b')) :
    Makes R (l ++ l') (b.visit t .accept >>= f)
      (A ∧ ∀ b', b.visit t .accept = .ok b' → B b') := by
  refine h.bind (by rintro ⟨⟩) ht fun b' h' => hf b' ?_
  rwa [Scope.after_of_not_declares hk] at h'

end Children

attribute [local simp] sites Along

/-- **A visit makes the checks of the places of the tree, in their order.** -/
theorem makes_visit (hPR : Agree P R) {t : Ast Addr k} {w : Walk} (h : Ready ρ σ b)
    (hn : w = .nested → k.declares = false) :
    Makes R (sites ρ σ t w) (b.visit t w) (Along P σ b t w) := by
  have hacc {p : Prop} : Walk.accept = .nested → p := by rintro ⟨⟩
  have helt {p : Prop} : Walk.elements = .nested → p := by rintro ⟨⟩
  induction t generalizing ρ σ b w with
  | nil | none => exact .nil h.isOpen
  | @cons k x xs ihx ihxs =>
    cases w
    case nested =>
      have hx : ρ.after x = ρ := Scope.after_of_not_declares (hn rfl)
      have hfirst := (ihx (w := .accept) h.scopeBegin hacc).andThen (f := Binder.scopeEnd)
        fun b₁ h₁ ho => by
          obtain ⟨b₂, h₂⟩ := ho.scopeEnd
          have := (visit_effect h₁).same.scopeEnd h₂
          subst this
          exact ⟨_, h₂, h.isOpen.setDefs _⟩
      have hboth := hfirst.bind (f := fun b => b.visit xs .nested)
        (m := sites ρ σ xs .nested) (B := fun b => Along P σ b xs .nested) fun b₂ h₂ ho => by
          obtain ⟨b₁, h₁, h₂⟩ := bind_eq_ok.mp h₂
          have := (visit_effect h₁).same.scopeEnd h₂
          subst this
          exact ihxs (w := .nested) (h.setDefs _) hn
      rw [bind_assoc] at hboth
      rw [sites, hx]
      exact hboth
    case accept =>
      exact h.bind hacc (ihx (w := .accept) h hacc) fun b' h' => ihxs (w := .accept) h' hacc
    case elements =>
      exact h.bind hacc (ihx (w := .accept) h hacc) fun b' h' => ihxs (w := .elements) h' helt
  | simpleVar a x => exact makes_useVar hPR h a x
  | nameTy a x => exact makes_useType hPR h a x
  | breakExp a => exact makes_useLoop hPR h a
  | nilExp | intExp | stringExp | typeDec => exact .nil h.isOpen
  | some _ ih | fieldVar _ _ _ ih | recordTy _ _ ih | arrayTy _ _ ih | field _ _ _ ih
  | fieldInit _ _ _ ih | ofVar _ ih | ofNameTy _ ih | ofVarChunk _ ih | chunkList _ _ ih =>
    exact ih (w := .accept) h hacc
  | seqExp _ _ ih => exact ih (w := .nested) h fun _ => rfl
  | callExp a x args ih =>
    refine (makes_useFunction hPR h a x args).bind fun b₁ h₁ _ => ?_
    obtain ⟨d, -, rfl⟩ := useFunction_eq_ok.mp h₁
    exact ih (w := .accept) (b := b.defSet a (.some d)) (h.setDefs _) hacc
  | subscriptVar _ _ _ ih₁ ih₂ | opExp _ _ _ _ ih₁ ih₂ | recordExp _ _ _ ih₁ ih₂
  | assignExp _ _ _ ih₁ ih₂ | castExp _ _ _ ih₁ ih₂ =>
    exact h.bindSame rfl (ih₁ (w := .accept) h hacc) fun b₁ h₁ => ih₂ (w := .accept) h₁ hacc
  | ifExp _ _ _ _ ih₁ ih₂ ih₃ | arrayExp _ _ _ _ ih₁ ih₂ ih₃ =>
    exact h.bindSame rfl (ih₁ (w := .accept) h hacc) fun b₁ h₁ =>
      h₁.bindSame rfl (ih₂ (w := .accept) h₁ hacc) fun b₂ h₂ => ih₃ (w := .accept) h₂ hacc
  | whileExp a c body ihc ihb =>
    exact (ihb (w := .accept) (h.enterLoop a) hacc).andThen fun b₁ h₁ ho =>
      ho.leaveLoop (visit_effect h₁).same _
  | forExp a d hi body ihd ihh ihb =>
    have he : Ready ρ (σ.bounds a) (b.enterLoop a).scopeBegin :=
      (h.enterLoop a).scopeBegin.congr rfl rfl rfl rfl
    have hearly {c : Binder} (hc : Ready (ρ.after d) (σ.bounds a) c) :
        Ready (ρ.putEarly d.varName d.varAddr) (σ.bounds a) c := by
      cases d
      exact hc.congr rfl rfl rfl rfl
    have hlate {c : Binder} (hc : Ready (ρ.putEarly d.varName d.varAddr) (σ.bounds a) c) :
        Ready (ρ.after d) (σ.body a) c := by
      cases d
      exact hc.congr rfl rfl rfl rfl
    have hb := he.bind hacc (ihd (w := .accept) he hacc) fun b₁ h₁ =>
      (hearly h₁).bindSame rfl (ihh (w := .accept) (hearly h₁) hacc) fun b₂ h₂ =>
        ihb (w := .accept) (hlate h₂) hacc
    have hl := hb.andThen (f := fun c => c.scopeEnd >>= fun c => c.leaveLoop b.inLoop)
      fun c hc ho => by
        simp only [bind_eq_ok] at hc
        obtain ⟨b₁, h₁, b₂, h₂, h₃⟩ := hc
        have hs := ((visit_effect h₁).same.trans (visit_effect h₂).same).trans
          (visit_effect h₃).same
        exact h.isOpen.leaveFor hs ho
    simp only [bind_assoc] at hl
    exact hl
  | letExp a cs body ihc ihb =>
    have hb := h.enterBlock.bind hacc (ihc (w := .accept) h.enterBlock hacc) fun b₁ h₁ =>
      ihb (w := .accept) h₁ hacc
    have hl := hb.andThen (f := fun c => c.leaveBlock b.inLoop) fun c hc ho => by
      obtain ⟨b₁, h₁, h₂⟩ := bind_eq_ok.mp hc
      exact h.isOpen.leaveBlock ((visit_effect h₁).same.trans (visit_effect h₂).same) ho
    rw [bind_assoc] at hl
    exact hl
  | varDec a x n i ihn ihi =>
    obtain ⟨b₁, h₁, ho⟩ := h.isOpen.putVar x a
    have hr := h.putVar h₁
    have hb := hr.bindSame rfl (ihn (w := .accept) hr hacc) fun b₂ h₂ =>
      ihi (w := .accept) h₂ hacc
    unfold visit
    rw [h₁]
    refine hb.congr ?_
    simp [h₁]
  | functionDec a x fs r body ihf ihr ihb =>
    have he : Ready ρ σ.function b.enterBlock := h.enterBlock.congr rfl rfl rfl rfl
    have hb := he.bind (by rintro ⟨⟩) (ihf (w := .elements) he helt) fun b₁ h₁ =>
      ihb (w := .accept) h₁ hacc
    have hl := hb.andThen (f := fun c => c.leaveBlock b.inLoop) fun c hc ho => by
      obtain ⟨b₁, h₁, h₂⟩ := bind_eq_ok.mp hc
      exact h.isOpen.leaveBlock ((visit_effect h₁).same.trans (visit_effect h₂).same) ho
    rw [bind_assoc] at hl
    exact hl
  | varChunk a ds ih =>
    cases w
    case elements => exact ih (w := .accept) h hacc
    all_goals
      have hb := (makes_checkParameters hPR h a ds).bind (f := fun b => b.visit ds .accept)
        (m := sites ρ σ ds .accept) (B := fun b => Along P σ b ds .accept) fun b₁ h₁ ho => by
          obtain ⟨_, -, h₁⟩ := bind_eq_ok.mp h₁
          cases h₁
          exact ih (w := .accept) h hacc
      cases hc : checkParameters [] (ds.toList.map Ast.varName) with
      | error e => simpa [visit, hc] using hb
      | ok u => simpa [visit, hc] using hb
  | functionChunk a ds ih =>
    exact (makes_putFunctions hPR h a ds).bind fun b₁ h₁ ho =>
      ih (w := .accept) (h.putFunctions h₁ ho) hacc
  | typeChunk a ds ih => exact makes_putTypes hPR h a ds

end Visit

/-! ## The whole program -/

/-- The places of a program where the `Binder` looks something up. -/
def allSites (program : Ast Addr .chunkList) : List Site := sites {} {} program .accept

theorem ready_init : Ready {} {} {} :=
  ⟨rfl, rfl, rfl, rfl, List.cons_ne_nil _ _, List.cons_ne_nil _ _, List.cons_ne_nil _ _⟩

/-- The `Binder` makes the checks of a program in their order. -/
theorem makes_bind {P : ⦃k : Kind⦄ → LoopScope → Binder → Ast Addr k → Prop} {R : Site → Prop}
    (hPR : Agree P R) (program : Ast Addr .chunkList) :
    Makes R (allSites program) (bind program) (Along P {} {} program .accept) :=
  makes_visit hPR ready_init (by rintro ⟨⟩)

end Binder

end TigerCompiler
