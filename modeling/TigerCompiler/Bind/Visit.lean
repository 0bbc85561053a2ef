import TigerCompiler.Bind.Binder
import TigerCompiler.Bind.Lexical

/-!
# What a visit of the Binder does

A successful visit has one effect whatever the node (`visit_effect`): the scopes outside the one
it runs in and the loops stay as they were, the innermost scope gets the declarations that
lexical scoping puts after the node, and only nodes of the subtree get a `def_`.

From it follows which places a visit gets to (`Within.reached`): every node of the tree is
itself visited, from a state whose functions and types are those of its lexical scope, or it
lies aside (`Scope.aside`) and its `def_` is left null.
-/

namespace TigerCompiler
namespace Binder
variable {k : Kind} {b b' b₁ b₂ b₃ : Binder}

/-- The scope the maps of a `Binder` describe. -/
def scope (b : Binder) : Scope where
  vars := b.mapVardec.get
  funs := b.mapFundec.get
  types := b.mapTypedec.get
  early := b.mapVardec.get

/-! ## Declarations -/

/-- What a visit leaves as it was: the outer scopes, the loops. -/
structure SameContext (b b' : Binder) : Prop where
  vars : b'.mapVardec.levels.tail = b.mapVardec.levels.tail
  funs : b'.mapFundec.levels.tail = b.mapFundec.levels.tail
  types : b'.mapTypedec.levels.tail = b.mapTypedec.levels.tail
  loops : b'.loops = b.loops
  inLoop : b'.inLoop = b.inLoop

theorem SameContext.refl (b : Binder) : SameContext b b := ⟨rfl, rfl, rfl, rfl, rfl⟩

theorem SameContext.trans (h : SameContext b₁ b₂) (h' : SameContext b₂ b₃) :
    SameContext b₁ b₃ :=
  ⟨h'.vars.trans h.vars, h'.funs.trans h.funs, h'.types.trans h.types, h'.loops.trans h.loops,
    h'.inLoop.trans h.inLoop⟩

theorem SameContext.setDefs (b : Binder) (f : Addr → Option Addr) :
    SameContext b { b with defs := f } := ⟨rfl, rfl, rfl, rfl, rfl⟩

theorem putVar_eq_ok {x a} (h : b.putVar x a = .ok b') :
    SameContext b b' ∧ b'.scope = b.scope.putVar x a ∧ b'.defs = b.defs := by
  simp only [putVar, bind_eq_ok] at h
  obtain ⟨m, hm, h⟩ := h
  cases h
  refine ⟨⟨(ScopedMap.tail_put hm).1, rfl, rfl, rfl, rfl⟩, ?_, rfl⟩
  simp [scope, Scope.putVar, ScopedMap.get_put hm]

theorem putFunction_eq_ok {x a} (h : b.putFunction x a = .ok b') :
    SameContext b b' ∧ b'.scope = b.scope.putFun x a ∧ b'.defs = b.defs := by
  simp only [putFunction] at h
  split at h
  · cases h
  · simp only [bind_eq_ok] at h
    obtain ⟨m, hm, h⟩ := h
    cases h
    refine ⟨⟨rfl, (ScopedMap.tail_put hm).1, rfl, rfl, rfl⟩, ?_, rfl⟩
    simp [scope, Scope.putFun, ScopedMap.get_put hm]

theorem putType_eq_ok {x a} (h : b.putType x a = .ok b') :
    SameContext b b' ∧ b'.scope = b.scope.putType x a ∧ b'.defs = b.defs := by
  simp only [putType, bind_eq_ok] at h
  obtain ⟨m, hm, h⟩ := h
  cases h
  refine ⟨⟨rfl, rfl, (ScopedMap.tail_put hm).1, rfl, rfl⟩, ?_, rfl⟩
  simp [scope, Scope.putType, ScopedMap.get_put hm]

theorem putFunctions_eq_ok {ds} (h : b.putFunctions ds = .ok b') :
    SameContext b b' ∧ b'.scope = b.scope.putFuns ds ∧ b'.defs = b.defs := by
  induction ds generalizing b with
  | nil =>
    cases h
    exact ⟨.refl _, rfl, rfl⟩
  | cons d ds ih =>
    simp only [putFunctions, bind_eq_ok] at h
    obtain ⟨b₁, h₁, h⟩ := h
    obtain ⟨hc, hs, hd⟩ := putFunction_eq_ok h₁
    obtain ⟨hc', hs', hd'⟩ := ih h
    exact ⟨hc.trans hc', by rw [hs', hs]; rfl, hd'.trans hd⟩

theorem putTypes_eq_ok {ds} (h : b.putTypes ds = .ok b') :
    SameContext b b' ∧ b'.scope = b.scope.putTypes ds ∧ b'.defs = b.defs := by
  induction ds generalizing b with
  | nil =>
    cases h
    exact ⟨.refl _, rfl, rfl⟩
  | cons d ds ih =>
    simp only [putTypes] at h
    split at h
    · cases h
    · simp only [bind_eq_ok] at h
      obtain ⟨b₁, h₁, h⟩ := h
      obtain ⟨hc, hs, hd⟩ := putType_eq_ok h₁
      obtain ⟨hc', hs', hd'⟩ := ih h
      exact ⟨hc.trans hc', by rw [hs', hs]; rfl, hd'.trans hd⟩

/-! ## Leaving what was entered -/

/-- Closing the scope opened before a visit gives back the maps from before it. -/
theorem SameContext.scopeEnd {c : Binder} (h : SameContext b.scopeBegin c)
    (he : c.scopeEnd = .ok b') : b' = { b with defs := c.defs } := by
  obtain ⟨hv, hf, ht, hl, hi⟩ := h
  obtain ⟨⟨_ | ⟨v, vs⟩⟩, ⟨_ | ⟨f, fs⟩⟩, ⟨_ | ⟨t, ts⟩⟩, ls, l, d⟩ := c <;>
    simp_all [Binder.scopeEnd, Binder.scopeBegin, ScopedMap.scopeEnd, ScopedMap.scopeBegin]

theorem SameContext.leaveBlock {c : Binder} (h : SameContext b.enterBlock c)
    (he : c.leaveBlock b.inLoop = .ok b') : b' = { b with defs := c.defs } := by
  simp only [Binder.leaveBlock, bind_eq_ok] at he
  obtain ⟨c', hc', he⟩ := he
  have := SameContext.scopeEnd (b := { b with inLoop := false }) h hc'
  subst this
  cases he
  rfl

theorem SameContext.leaveLoop {c : Binder} {a : Addr} (h : SameContext (b.enterLoop a) c)
    (he : c.leaveLoop b.inLoop = .ok b') :
    SameContext b b' ∧ b'.scope = c.scope ∧ b'.defs = c.defs := by
  obtain ⟨hv, hf, ht, hl, -⟩ := h
  simp only [enterLoop] at hv hf ht hl
  simp only [Binder.leaveLoop, hl, Except.ok.injEq] at he
  subst he
  exact ⟨⟨hv, hf, ht, rfl, rfl⟩, rfl, rfl⟩

theorem SameContext.leaveFor {c c' : Binder} {a : Addr}
    (h : SameContext (b.enterLoop a).scopeBegin c) (hs : c.scopeEnd = .ok c')
    (he : c'.leaveLoop b.inLoop = .ok b') : b' = { b with defs := c.defs } := by
  have := h.scopeEnd hs
  subst this
  simp only [Binder.leaveLoop, enterLoop, Except.ok.injEq] at he
  exact he.symm

/-! ## The effect of a visit -/

/-- What a successful visit of `t` does: it declares what lexical scoping declares, unless each
element of a collection has a scope of its own; it sets `def_` members of `t` only. -/
structure Effect (t : Ast Addr k) (w : Walk) (b b' : Binder) : Prop where
  same : SameContext b b'
  scope : w ≠ .nested → b'.scope = b.scope.after t
  nested : w = .nested → k.isList → b'.scope = b.scope
  frame : ∀ a ∉ t.nodes, b'.defs a = b.defs a

@[simp] theorem scope_scopeBegin : b.scopeBegin.scope = b.scope := by
  simp [Binder.scope, scopeBegin]

@[simp] theorem scope_enterLoop {a : Addr} : (b.enterLoop a).scope = b.scope := rfl

@[simp] theorem scope_enterBlock : b.enterBlock.scope = b.scope := scope_scopeBegin


/-- A node that only has one child visited. -/
theorem Effect.one {k₁ : Kind} {t : Ast Addr k} {t₁ : Ast Addr k₁} {w w₁ : Walk}
    (e : Effect t₁ w₁ b b') (hk : k.isList = false) (hw : w₁ ≠ .nested)
    (ha : ∀ ρ : Scope, ρ.after t = ρ.after t₁) (hn : t₁.nodes ⊆ t.nodes) : Effect t w b b' where
  same := e.same
  scope _ := by rw [ha, e.scope hw]
  nested _ h := by simp [hk] at h
  frame a h := e.frame a fun h' => h (hn h')

/-- A node that has two children visited, one after the other. -/
theorem Effect.two {k₁ k₂ : Kind} {t : Ast Addr k} {t₁ : Ast Addr k₁} {t₂ : Ast Addr k₂}
    {w : Walk} (e₁ : Effect t₁ .accept b b₁) (e₂ : Effect t₂ .accept b₁ b')
    (hk : k.isList = false) (ha : ∀ ρ : Scope, ρ.after t = (ρ.after t₁).after t₂)
    (hn : t₁.nodes ++ t₂.nodes ⊆ t.nodes) : Effect t w b b' where
  same := e₁.same.trans e₂.same
  scope _ := by rw [ha, e₂.scope nofun, e₁.scope nofun]
  nested _ h := by simp [hk] at h
  frame a h := by
    have h' : a ∉ t₁.nodes ++ t₂.nodes := fun h' => h (hn h')
    rw [List.mem_append, not_or] at h'
    rw [e₂.frame a h'.2, e₁.frame a h'.1]


/-! ### One child, two, three -/

/-- A node that only has its `def_` set. -/
theorem Effect.defSet {t : Ast Addr k} {w : Walk} {a : Addr} {d : Option Addr}
    (ha : ∀ ρ : Scope, ρ.after t = ρ) (hn : a ∈ t.nodes) : Effect t w b (b.defSet a d) where
  same := .setDefs b _
  scope _ := by rw [ha]; rfl
  nested _ _ := rfl
  frame a' h := by
    exact defs_defSet_of_ne fun h' => h (h' ▸ hn)

/-- A node that has its `def_` set and then a child visited. -/
theorem Effect.defSet_one {k₁ : Kind} {t : Ast Addr k} {t₁ : Ast Addr k₁} {w : Walk} {a : Addr}
    {d : Option Addr} (e : Effect t₁ .accept (b.defSet a d) b') (hk : k.isList = false)
    (ha : ∀ ρ : Scope, ρ.after t = ρ.after t₁) (hn : a :: t₁.nodes ⊆ t.nodes) :
    Effect t w b b' where
  same := (SameContext.setDefs b _).trans e.same
  scope _ := by rw [ha, e.scope nofun]; rfl
  nested _ h := by simp [hk] at h
  frame a' h := by
    have h' : a' ∉ a :: t₁.nodes := fun h' => h (hn h')
    rw [List.mem_cons, not_or] at h'
    rw [e.frame a' h'.2, defs_defSet_of_ne h'.1]

/-- A node that has three children visited, one after the other. -/
theorem Effect.three {k₁ k₂ k₃ : Kind} {t : Ast Addr k} {t₁ : Ast Addr k₁} {t₂ : Ast Addr k₂}
    {t₃ : Ast Addr k₃} {w : Walk} (e₁ : Effect t₁ .accept b b₁) (e₂ : Effect t₂ .accept b₁ b₂)
    (e₃ : Effect t₃ .accept b₂ b') (hk : k.isList = false)
    (ha : ∀ ρ : Scope, ρ.after t = ((ρ.after t₁).after t₂).after t₃)
    (hn : t₁.nodes ++ t₂.nodes ++ t₃.nodes ⊆ t.nodes) : Effect t w b b' where
  same := (e₁.same.trans e₂.same).trans e₃.same
  scope _ := by rw [ha, e₃.scope nofun, e₂.scope nofun, e₁.scope nofun]
  nested _ h := by simp [hk] at h
  frame a h := by
    have h' : a ∉ t₁.nodes ++ t₂.nodes ++ t₃.nodes := fun h' => h (hn h')
    simp only [List.mem_append, not_or] at h'
    rw [e₃.frame a h'.2, e₂.frame a h'.1.2, e₁.frame a h'.1.1]

/-- A node that closes the scope it opened. -/
theorem Effect.block {t : Ast Addr k} {w : Walk} {f : Addr → Option Addr}
    (hk : k.isList = false) (ha : ∀ ρ : Scope, ρ.after t = ρ)
    (hf : ∀ a ∉ t.nodes, f a = b.defs a) : Effect t w b { b with defs := f } where
  same := .setDefs b _
  scope _ := by rw [ha]; rfl
  nested _ h := by simp [hk] at h
  frame := hf

/-! ### Uses -/

theorem useVar_eq_ok {a : Addr} {x : Symbol} :
    b.useVar a x = .ok b' ↔
      ∃ d, b.mapVardec.get x = some d ∧ b' = b.defSet a (some d) := by
  unfold useVar
  cases b.mapVardec.get x <;> simp [eq_comm]

theorem useFunction_eq_ok {a : Addr} {x : Symbol} :
    b.useFunction a x = .ok b' ↔
      ∃ d, b.mapFundec.get x = some d ∧ b' = b.defSet a (some d) := by
  unfold useFunction
  cases b.mapFundec.get x <;> simp [eq_comm]

theorem useType_eq_ok {a : Addr} {x : Symbol} :
    b.useType a x = .ok b' ↔
      (b.mapTypedec.get x = none → x.isBuiltin) ∧
        b' = b.defSet a (b.mapTypedec.get x) := by
  unfold useType
  cases b.mapTypedec.get x <;> cases x.isBuiltin <;> simp [eq_comm]

theorem useLoop_eq_ok {a : Addr} :
    b.useLoop a = .ok b' ↔
      ∃ l, b.inLoop = true ∧ b.loops.head? = some l ∧ b' = b.defSet a (some l) := by
  unfold useLoop
  obtain ⟨-, -, -, _ | ⟨l, ls⟩, i, -⟩ := b <;> cases i <;> simp [eq_comm]

/-- The effect of a visit, whatever the node. -/
theorem visit_effect {t : Ast Addr k} {w : Walk} (h : b.visit t w = .ok b') :
    Effect t w b b' := by
  induction t generalizing b b' w with
  | nil =>
    cases h
    exact ⟨.refl _, fun _ => rfl, fun _ _ => rfl, fun _ _ => rfl⟩
  | cons x xs ihx ihxs =>
    cases w
    case nested =>
      simp only [visit, bind_eq_ok] at h
      obtain ⟨b₁, h₁, b₂, h₂, h⟩ := h
      have e₁ := ihx h₁
      have := e₁.same.scopeEnd h₂
      subst this
      have e₂ := ihxs h
      refine ⟨(SameContext.setDefs b _).trans e₂.same, fun hn => absurd rfl hn, fun _ _ => ?_,
        fun a ha => ?_⟩
      · exact e₂.nested rfl rfl
      · simp only [Ast.nodes, List.mem_append, not_or] at ha
        rw [e₂.frame a ha.2]
        exact e₁.frame a ha.1
    all_goals
      simp only [visit, bind_eq_ok] at h
      obtain ⟨_, h₁, h⟩ := h
      have e₁ := ihx h₁
      have e₂ := ihxs h
      refine ⟨e₁.same.trans e₂.same, fun _ => ?_, by rintro ⟨⟩, fun a ha => ?_⟩
      · rw [e₂.scope (by rintro ⟨⟩), e₁.scope (by rintro ⟨⟩), Scope.after]
      · simp only [Ast.nodes, List.mem_append, not_or] at ha
        rw [e₂.frame a ha.2, e₁.frame a ha.1]
  | none =>
    cases h
    exact ⟨.refl _, fun _ => rfl, fun _ _ => rfl, fun _ _ => rfl⟩
  | some x ih => exact (ih h).one rfl (by rintro ⟨⟩) (by simp [Scope.after]) (by simp [Ast.nodes])
  | simpleVar a x =>
    obtain ⟨d, -, rfl⟩ := useVar_eq_ok.mp h
    exact .defSet (fun _ => rfl) (by simp [Ast.nodes])
  | fieldVar _ _ _ ih | ofVar _ ih | ofNameTy _ ih | recordTy _ _ ih | arrayTy _ _ ih
  | field _ _ _ ih | fieldInit _ _ _ ih | chunkList _ _ ih =>
    exact (ih h).one rfl (by rintro ⟨⟩) (by simp (disch := decide) [Scope.after])
      (by simp [Ast.nodes])
  | subscriptVar a v i ihv ihi =>
    simp only [visit, bind_eq_ok] at h
    obtain ⟨_, h₁, h⟩ := h
    exact (ihv h₁).two (ihi h) rfl (by simp (disch := decide) [Scope.after]) (by simp [Ast.nodes])
  | nilExp | intExp | stringExp | typeDec =>
    cases h
    exact ⟨.refl _, fun _ => rfl, by rintro - ⟨⟩, fun _ _ => rfl⟩
  | callExp a x args ih =>
    simp only [visit, bind_eq_ok] at h
    obtain ⟨_, h₁, h⟩ := h
    obtain ⟨d, -, rfl⟩ := useFunction_eq_ok.mp h₁
    exact (ih h).defSet_one rfl (by simp (disch := decide) [Scope.after]) (by simp [Ast.nodes])
  | opExp _ _ _ _ ih₁ ih₂ | recordExp _ _ _ ih₁ ih₂ | assignExp _ _ _ ih₁ ih₂
  | castExp _ _ _ ih₁ ih₂ =>
    simp only [visit, bind_eq_ok] at h
    obtain ⟨_, h₁, h⟩ := h
    exact (ih₁ h₁).two (ih₂ h) rfl (by simp (disch := decide) [Scope.after]) (by simp [Ast.nodes])
  | seqExp a es ih =>
    have e := ih h
    exact ⟨e.same, fun _ => e.nested rfl rfl, by rintro - ⟨⟩,
      fun a' h => e.frame a' (by simp_all [Ast.nodes])⟩
  | ifExp _ _ _ _ ih₁ ih₂ ih₃ | arrayExp _ _ _ _ ih₁ ih₂ ih₃ =>
    simp only [visit, bind_eq_ok] at h
    obtain ⟨_, h₁, _, h₂, h⟩ := h
    exact (ih₁ h₁).three (ih₂ h₂) (ih₃ h) rfl (by simp (disch := decide) [Scope.after])
      (by simp [Ast.nodes])
  | whileExp a c body ihc ih =>
    simp only [visit, bind_eq_ok] at h
    obtain ⟨_, h₁, h⟩ := h
    have e := ih h₁
    obtain ⟨hs, hρ, hd⟩ := e.same.leaveLoop h
    refine ⟨hs, fun _ => ?_, by rintro - ⟨⟩, fun a' ha => ?_⟩
    · rw [hρ, e.scope (by rintro ⟨⟩)]
      simp (disch := decide) [Scope.after]
    · simp only [Ast.nodes, List.mem_cons, List.mem_append, not_or] at ha
      rw [hd, e.frame a' ha.2.2]
      rfl
  | forExp a d hi body ihd ihh ihb =>
    simp only [visit, bind_eq_ok] at h
    obtain ⟨b₁, h₁, b₂, h₂, b₃, h₃, b₄, h₄, h⟩ := h
    have e₁ := ihd h₁
    have e₂ := ihh h₂
    have e₃ := ihb h₃
    have := ((e₁.same.trans e₂.same).trans e₃.same).leaveFor h₄ h
    subst this
    refine .block rfl (fun _ => rfl) fun a' ha => ?_
    simp only [Ast.nodes, List.mem_cons, List.mem_append, not_or] at ha
    rw [e₃.frame a' ha.2.2, e₂.frame a' ha.2.1.2, e₁.frame a' ha.2.1.1]
    rfl
  | letExp a cs body ihc ihb =>
    simp only [visit, bind_eq_ok] at h
    obtain ⟨b₁, h₁, b₂, h₂, h⟩ := h
    have e₁ := ihc h₁
    have e₂ := ihb h₂
    have := (e₁.same.trans e₂.same).leaveBlock h
    subst this
    refine .block rfl (fun _ => rfl) fun a' ha => ?_
    simp only [Ast.nodes, List.mem_cons, List.mem_append, not_or] at ha
    rw [e₂.frame a' ha.2.2, e₁.frame a' ha.2.1]
    rfl
  | breakExp a =>
    obtain ⟨d, -, -, rfl⟩ := useLoop_eq_ok.mp h
    exact .defSet (fun _ => rfl) (by simp [Ast.nodes])
  | nameTy a x =>
    obtain ⟨-, rfl⟩ := useType_eq_ok.mp h
    exact .defSet (fun _ => rfl) (by simp [Ast.nodes])
  | varDec a x n i ihn ihi =>
    simp only [visit, bind_eq_ok] at h
    obtain ⟨_, h₁, _, h₂, h⟩ := h
    obtain ⟨hs, hρ, hd⟩ := putVar_eq_ok h₁
    have e₁ := ihn h₂
    have e₂ := ihi h
    refine ⟨(hs.trans e₁.same).trans e₂.same, fun _ => ?_, by rintro - ⟨⟩, fun a' ha => ?_⟩
    · rw [e₂.scope (by rintro ⟨⟩), e₁.scope (by rintro ⟨⟩), hρ]
      simp (disch := decide) [Scope.after]
    · simp only [Ast.nodes, List.mem_cons, List.mem_append, not_or] at ha
      rw [e₂.frame a' ha.2.2, e₁.frame a' ha.2.1, hd]
  | functionDec a x fs r body ihf ihr ihb =>
    simp only [visit, bind_eq_ok] at h
    obtain ⟨b₁, h₁, b₂, h₂, h⟩ := h
    have e₁ := ihf h₁
    have e₂ := ihb h₂
    have := (e₁.same.trans e₂.same).leaveBlock h
    subst this
    refine .block rfl (fun _ => rfl) fun a' ha => ?_
    simp only [Ast.nodes, List.mem_cons, List.mem_append, not_or] at ha
    rw [e₂.frame a' ha.2.2, e₁.frame a' ha.2.1.1]
    rfl
  | varChunk a ds ih =>
    cases w
    case elements =>
      exact (ih h).one rfl (by rintro ⟨⟩) (by simp (disch := decide) [Scope.after])
        (by simp [Ast.nodes])
    all_goals
      simp only [visit, bind_eq_ok] at h
      obtain ⟨_, -, h⟩ := h
      exact (ih h).one rfl (by rintro ⟨⟩) (by simp (disch := decide) [Scope.after])
        (by simp [Ast.nodes])
  | ofVarChunk c ih =>
    exact (ih h).one rfl (by rintro ⟨⟩) (by simp (disch := decide) [Scope.after])
      (by simp [Ast.nodes])
  | functionChunk a ds ih =>
    simp only [visit, bind_eq_ok] at h
    obtain ⟨b₁, h₁, h⟩ := h
    obtain ⟨hs, hρ, hd⟩ := putFunctions_eq_ok h₁
    have e := ih h
    refine ⟨hs.trans e.same, fun _ => ?_, by rintro - ⟨⟩, fun a' ha => ?_⟩
    · rw [e.scope (by rintro ⟨⟩), hρ]
      simp (disch := decide) [Scope.after]
    · simp only [Ast.nodes, List.mem_cons, not_or] at ha
      rw [e.frame a' ha.2, hd]
  | typeChunk a ds ih =>
    obtain ⟨hs, hρ, hd⟩ := putTypes_eq_ok h
    exact ⟨hs, fun _ => hρ, by rintro - ⟨⟩, fun a' _ => by rw [hd]⟩

/-! ## The places a visit gets to -/

/-- Between `b` and `b'` the `Binder` goes over the nodes `ns`, which lie in the scope `ρ`, and
sets for them the `def_` members `f` has. -/
structure Within (f : Addr → Option Addr) (ρ : Scope) (ns : List Addr) (b b' : Binder) : Prop where
  funs : ρ.funs = b.scope.funs
  types : ρ.types = b.scope.types
  early : ρ.early = b.scope.early
  unset : ∀ a ∈ ns, b.defs a = none
  defs : ∀ a ∈ ns, f a = b'.defs a
  nodup : ns.Nodup

section Within

variable {f : Addr → Option Addr} {ρ : Scope} {ns ms : List Addr} {c c' : Binder}

theorem Within.move {σ : Scope} (h : Within f ρ ns b b') (hd : c.defs = b.defs)
    (hf : σ.funs = c.scope.funs) (ht : σ.types = c.scope.types)
    (he : σ.early = c.scope.early) : Within f σ ns c b' where
  funs := hf
  types := ht
  early := he
  unset := by rw [hd]; exact h.unset
  defs := h.defs
  nodup := h.nodup

theorem Within.enter (h : Within f ρ ns b b') (hc : c.scope = b.scope) (hd : c.defs = b.defs) :
    Within f ρ ns c b' where
  funs := by rw [hc, h.funs]
  types := by rw [hc, h.types]
  early := by rw [hc, h.early]
  unset := by rw [hd]; exact h.unset
  defs := h.defs
  nodup := h.nodup

theorem Within.leave (h : Within f ρ ns b b') (hd : c.defs = b'.defs) : Within f ρ ns b c where
  funs := h.funs
  types := h.types
  early := h.early
  unset := h.unset
  defs := by rw [hd]; exact h.defs
  nodup := h.nodup

theorem Within.sublist (h : Within f ρ ns b b') (hm : ms.Sublist ns) : Within f ρ ms b b' where
  funs := h.funs
  types := h.types
  early := h.early
  unset a ha := h.unset a (hm.subset ha)
  defs a ha := h.defs a (hm.subset ha)
  nodup := hm.nodup h.nodup

theorem Within.congr {σ : Scope} (h : Within f ρ ns b b') (hf : σ.funs = ρ.funs)
    (ht : σ.types = ρ.types) (he : σ.early = ρ.early) : Within f σ ns b b' :=
  { h with funs := hf.trans h.funs, types := ht.trans h.types, early := he.trans h.early }

/-- Nodes that are gone past without a visit keep no `def_`. -/
theorem Within.skip (h : Within f ρ (ns ++ ms) b b') (hr : ∀ a ∉ ms, b'.defs a = b.defs a) :
    (∀ a ∈ ns, f a = none) ∧ Within f ρ ms b b' := by
  have hn := List.nodup_append.mp h.nodup
  refine ⟨fun a ha => ?_, h.sublist (List.sublist_append_right ..)⟩
  have hm : a ∉ ms := fun hm => hn.2.2 a ha a hm rfl
  rw [h.defs a (List.mem_append_left _ ha), hr a hm, h.unset a (List.mem_append_left _ ha)]

/-- The visit of a first child, and what is left to go over after it. -/
theorem Within.step {t : Ast Addr k} {w : Walk} (h : Within f ρ (t.nodes ++ ns) b b')
    (e : Effect t w b b₁) (hw : w ≠ .nested) (hr : ∀ a ∉ ns, b'.defs a = b₁.defs a) :
    Within f ρ t.nodes b b₁ ∧ Within f (ρ.after t) ns b₁ b' := by
  obtain ⟨hf, ht, he, hu, hd, hn⟩ := h
  simp only [List.mem_append] at hu hd
  rw [List.nodup_append] at hn
  obtain ⟨hn₁, hn₂, hne⟩ := hn
  refine ⟨⟨hf, ht, he, fun a ha => hu a (.inl ha), fun a ha => ?_, hn₁⟩,
    ⟨?_, ?_, ?_, fun a ha => ?_, fun a ha => hd a (.inr ha), hn₂⟩⟩
  · rw [hd a (.inl ha), hr a fun h => hne a ha a h rfl]
  · rw [e.scope hw, Scope.after_funs_congr hf]
  · rw [e.scope hw, Scope.after_types_congr ht]
  · rw [e.scope hw, Scope.after_early_congr he]
  · rw [e.frame a fun h => hne a h a ha rfl, hu a (.inr ha)]

/-- The `def_` of a first node, and what is left to go over after it. -/
theorem Within.defSet {a : Addr} {d : Option Addr} (h : Within f ρ (a :: ns) b b') :
    Within f ρ ns (b.defSet a d) b' := by
  obtain ⟨hf, ht, he, hu, hd, hn⟩ := h
  rw [List.nodup_cons] at hn
  refine ⟨hf, ht, he, fun a' ha => ?_, fun a' ha => hd a' (.tail _ ha), hn.2⟩
  have hne : a' ≠ a := fun h => hn.1 (h ▸ ha)
  rw [defs_defSet_of_ne hne, hu a' (.tail _ ha)]

end Within

/-- Each place is visited, or lies aside and has no `def_` set. -/
def Reached (f : Addr → Option Addr) ⦃k : Kind⦄ (ρ : Scope) (t : Ast Addr k) : Prop :=
  if ρ.aside then ∀ a ∈ t.nodes, f a = none
  else ∃ w b b', b.visit t w = .ok b' ∧ Within f ρ t.nodes b b'

theorem Within.here {f : Addr → Option Addr} {ρ : Scope} {t : Ast Addr k} {w : Walk}
    (hv : b.visit t w = .ok b') (h : Within f ρ t.nodes b b') (ha : ρ.aside = false) :
    Reached f ρ t := by
  simpa [Reached, ha] using ⟨w, b, b', hv, h⟩

theorem reached_of_aside {f : Addr → Option Addr} {ρ : Scope} {t : Ast Addr k}
    (ha : ρ.aside = true) (h : ∀ a ∈ t.nodes, f a = none) : ρ.Everywhere (Reached f) t := by
  refine (Scope.Everywhere.aside ha).imp₂ (fun k ρ t ha' hs => ?_)
    (Scope.Everywhere.nodes (ρ := ρ) (t := t))
  simpa [Reached, ha'] using fun a ha => h a (hs ha)

theorem Effect.frame₂ {k₁ k₂ : Kind} {t₁ : Ast Addr k₁} {t₂ : Ast Addr k₂} {w₁ w₂ : Walk}
    (e₁ : Effect t₁ w₁ b b₁) (e₂ : Effect t₂ w₂ b₁ b₂) :
    ∀ a ∉ t₁.nodes ++ t₂.nodes, b₂.defs a = b.defs a := by
  intro a ha
  rw [List.mem_append, not_or] at ha
  rw [e₂.frame a ha.2, e₁.frame a ha.1]

theorem visit_typeDecs (b : Binder) :
    (ds : Ast Addr (.list .typeDec)) → b.visit ds .accept = .ok b
  | .nil => rfl
  | .cons (.typeDec _ _ _) ds => visit_typeDecs b ds

/-- A visit gets to every place that does not lie aside. -/
theorem Within.reached {f : Addr → Option Addr} {ρ : Scope} {t : Ast Addr k} {w : Walk}
    (hv : b.visit t w = .ok b') (h : Within f ρ t.nodes b b') (ha : ρ.aside = false)
    (hw : w = .nested → k.declares = false) : ρ.Everywhere (Reached f) t := by
  have hacc {P : Prop} : Walk.accept = .nested → P := by rintro ⟨⟩
  have sub {a : Addr} {ns : List Addr} : ns.Sublist (a :: ns) := List.sublist_cons_self ..
  induction t generalizing ρ b b' w with
  | nil | none => trivial
  | cons x xs ihx ihxs =>
    cases w
    case nested =>
      simp only [visit, bind_eq_ok] at hv
      obtain ⟨b₁, h₁, b₂, h₂, hv⟩ := hv
      have e := visit_effect h₁
      have := e.same.scopeEnd h₂
      subst this
      obtain ⟨w₁, w₂⟩ := (h.enter scope_scopeBegin rfl).step e hacc (visit_effect hv).frame
      refine ⟨ihx h₁ w₁ ha hacc, ?_⟩
      have hx : ρ.after x = ρ := Scope.after_of_not_declares (hw rfl)
      rw [hx]
      exact ihxs hv ⟨h.funs, h.types, h.early, w₂.unset, w₂.defs, w₂.nodup⟩ ha hw
    all_goals
      simp only [visit, bind_eq_ok] at hv
      obtain ⟨b₁, h₁, hv⟩ := hv
      obtain ⟨hx, hxs⟩ := h.step (visit_effect h₁) hacc (visit_effect hv).frame
      exact ⟨ihx h₁ hx ha hacc, ihxs hv hxs ((Scope.after_aside ρ x).trans ha) (by rintro ⟨⟩)⟩
  | some x ih | ofVar x ih | ofNameTy x ih | ofVarChunk x ih => exact ih hv h ha hacc
  | simpleVar | nilExp | intExp | stringExp | breakExp | nameTy => exact h.here hv ha
  | fieldVar _ _ _ ih | recordTy _ _ ih | arrayTy _ _ ih | field _ _ _ ih | fieldInit _ _ _ ih
  | chunkList _ _ ih =>
    exact ⟨h.here hv ha, ih hv (h.sublist sub) ha hacc⟩
  | seqExp _ _ ih => exact ⟨h.here hv ha, ih hv (h.sublist sub) ha fun _ => rfl⟩
  | subscriptVar _ _ _ ih₁ ih₂ | opExp _ _ _ _ ih₁ ih₂ | recordExp _ _ _ ih₁ ih₂
  | assignExp _ _ _ ih₁ ih₂ | castExp _ _ _ ih₁ ih₂ =>
    refine ⟨h.here hv ha, ?_⟩
    simp only [visit, bind_eq_ok] at hv
    obtain ⟨b₁, h₁, hv⟩ := hv
    obtain ⟨w₁, w₂⟩ := (h.sublist sub).step (visit_effect h₁) hacc (visit_effect hv).frame
    simp (disch := decide) only [Scope.after_of_not_declares] at w₂
    exact ⟨ih₁ h₁ w₁ ha hacc, ih₂ hv w₂ ha hacc⟩
  | callExp a x args ih =>
    refine ⟨h.here hv ha, ?_⟩
    simp only [visit, bind_eq_ok] at hv
    obtain ⟨b₁, h₁, hv⟩ := hv
    obtain ⟨d, -, rfl⟩ := useFunction_eq_ok.mp h₁
    exact ih hv h.defSet ha hacc
  | ifExp _ _ _ _ ih₁ ih₂ ih₃ | arrayExp _ _ _ _ ih₁ ih₂ ih₃ =>
    refine ⟨h.here hv ha, ?_⟩
    simp only [visit, bind_eq_ok] at hv
    obtain ⟨b₁, h₁, b₂, h₂, hv⟩ := hv
    have h' := h.sublist sub
    rw [List.append_assoc] at h'
    obtain ⟨w₁, w₂⟩ := h'.step (visit_effect h₁) hacc ((visit_effect h₂).frame₂ (visit_effect hv))
    obtain ⟨w₂, w₃⟩ := w₂.step (visit_effect h₂) hacc (visit_effect hv).frame
    simp (disch := decide) only [Scope.after_of_not_declares] at w₂ w₃
    exact ⟨ih₁ h₁ w₁ ha hacc, ih₂ h₂ w₂ ha hacc, ih₃ hv w₃ ha hacc⟩
  | whileExp a c body ihc ihb =>
    refine ⟨h.here hv ha, ?_⟩
    simp only [visit, bind_eq_ok] at hv
    obtain ⟨b₁, h₁, hv⟩ := hv
    have e := visit_effect h₁
    have hd := (e.same.leaveLoop hv).2.2
    obtain ⟨w₁, w₂⟩ := (h.sublist sub).skip fun a hn => by rw [hd, e.frame a hn]; rfl
    exact ⟨reached_of_aside rfl w₁,
      ihb h₁ ((w₂.enter (c := b.enterLoop a) rfl rfl).leave hd.symm) ha hacc⟩
  | forExp a d hi body ihd ihh ihb =>
    refine ⟨h.here hv ha, ?_⟩
    simp only [visit, bind_eq_ok] at hv
    obtain ⟨b₁, h₁, b₂, h₂, b₃, h₃, b₄, h₄, hv⟩ := hv
    have e₁ := visit_effect h₁
    have e₂ := visit_effect h₂
    have e₃ := visit_effect h₃
    have := ((e₁.same.trans e₂.same).trans e₃.same).leaveFor h₄ hv
    subst this
    have h' := ((h.sublist sub).enter (c := (b.enterLoop a).scopeBegin) scope_scopeBegin rfl).leave
      (c := b₃) rfl
    rw [List.append_assoc] at h'
    obtain ⟨w₁, w₂⟩ := h'.step e₁ hacc (e₂.frame₂ e₃)
    obtain ⟨w₂, w₃⟩ := w₂.step e₂ hacc e₃.frame
    simp (disch := decide) only [Scope.after_of_not_declares] at w₃
    have ha' := (Scope.after_aside ρ d).trans ha
    cases d
    exact ⟨ihd h₁ w₁ ha hacc, ihh h₂ (w₂.congr rfl rfl rfl) ha hacc, ihb h₃ w₃ ha' hacc⟩
  | letExp a cs body ihc ihb =>
    refine ⟨h.here hv ha, ?_⟩
    simp only [visit, bind_eq_ok] at hv
    obtain ⟨b₁, h₁, b₂, h₂, hv⟩ := hv
    have e₁ := visit_effect h₁
    have e₂ := visit_effect h₂
    have := (e₁.same.trans e₂.same).leaveBlock hv
    subst this
    obtain ⟨w₁, w₂⟩ := (((h.sublist sub).enter scope_enterBlock rfl).leave (c := b₂) rfl).step
      e₁ hacc e₂.frame
    exact ⟨ihc h₁ w₁ ha hacc, ihb h₂ w₂ ((Scope.after_aside ρ cs).trans ha) hacc⟩
  | varDec a x n i ihn ihi =>
    refine ⟨h.here hv ha, ?_⟩
    simp only [visit, bind_eq_ok] at hv
    obtain ⟨b₁, h₁, b₂, h₂, hv⟩ := hv
    obtain ⟨-, hρ, hd⟩ := putVar_eq_ok h₁
    have h' := (h.sublist sub).move (σ := ρ.putEarly x a) hd (by rw [hρ]; exact h.funs)
      (by rw [hρ]; exact h.types) (by rw [hρ, Scope.putEarly, h.early]; rfl)
    obtain ⟨w₁, w₂⟩ := h'.step (visit_effect h₂) hacc (visit_effect hv).frame
    simp (disch := decide) only [Scope.after_of_not_declares] at w₂
    exact ⟨ihn h₂ w₁ ha hacc, ihi hv w₂ ha hacc⟩
  | functionDec a x fs r body ihf ihr ihb =>
    refine ⟨h.here hv ha, ?_⟩
    simp only [visit, bind_eq_ok] at hv
    obtain ⟨b₁, h₁, b₂, h₂, hv⟩ := hv
    have e₁ := visit_effect h₁
    have e₂ := visit_effect h₂
    have := (e₁.same.trans e₂.same).leaveBlock hv
    subst this
    have h' := ((h.sublist sub).enter scope_enterBlock rfl).leave (c := b₂) rfl
    rw [List.append_assoc] at h'
    obtain ⟨w₁, w₂⟩ := h'.step e₁ (by rintro ⟨⟩) fun a ha =>
      e₂.frame a fun hb => ha (List.mem_append_right _ hb)
    obtain ⟨w₂, w₃⟩ := w₂.skip e₂.frame
    exact ⟨ihf h₁ w₁ ha (by rintro ⟨⟩), reached_of_aside rfl w₂,
      ihb h₂ w₃ ((Scope.after_aside ρ fs).trans ha) hacc⟩
  | typeDec a x ty ih =>
    refine ⟨h.here hv ha, ?_⟩
    cases hv
    refine reached_of_aside rfl fun a' ha' => ?_
    have ha' : a' ∈ (Ast.typeDec a x ty).nodes := .tail _ ha'
    rw [h.defs a' ha', h.unset a' ha']
  | varChunk a ds ih =>
    refine ⟨h.here hv ha, ?_⟩
    cases w
    case elements => exact ih hv (h.sublist sub) ha hacc
    all_goals
      simp only [visit, bind_eq_ok] at hv
      obtain ⟨_, -, hv⟩ := hv
      exact ih hv (h.sublist sub) ha hacc
  | functionChunk a ds ih =>
    refine ⟨h.here hv ha, ?_⟩
    simp only [visit, bind_eq_ok] at hv
    obtain ⟨b₁, h₁, hv⟩ := hv
    obtain ⟨-, hρ, hd⟩ := putFunctions_eq_ok h₁
    refine ih hv ((h.sublist sub).move hd ?_ ?_ ?_) ((Scope.putFuns_aside _).trans ha) hacc
    · rw [hρ, Scope.putFuns_congr h.funs]
    · rw [hρ, Scope.putFuns_types, Scope.putFuns_types, h.types]
    · rw [hρ, (Scope.putFuns_vars _).2, (Scope.putFuns_vars _).2, h.early]
  | typeChunk a ds ih =>
    refine ⟨h.here hv ha, ?_⟩
    obtain ⟨-, hρ, hd⟩ := putTypes_eq_ok hv
    refine ih (visit_typeDecs b' ds) ((h.sublist sub).move hd ?_ ?_ ?_)
      ((Scope.putTypes_aside _).trans ha) hacc
    · rw [hρ, Scope.putTypes_funs, Scope.putTypes_funs, h.funs]
    · rw [hρ, Scope.putTypes_congr h.types]
    · rw [hρ, (Scope.putTypes_vars _).2, (Scope.putTypes_vars _).2, h.early]

end Binder
end TigerCompiler
