import TigerCompiler.Bind.Acceptance

/-!
# The loop of a `break`

A `break` belongs to the innermost `while` or `for` that has it in its body, with no function in
between.  The `Binder` finds that loop in two pieces of state, the stack `loops_` and the flag
`in_loop_`, which it saves and restores at the loops, at the functions and at the `let`s as well:
what it sees at each `break` is carried along beside what the rule says.
-/

namespace TigerCompiler

namespace LoopScope

/-! ## What may hold of a `break` -/

/-- It has a loop. -/
def InLoop (σ : LoopScope) (_ : Addr) : Prop := σ.inner ≠ none

/-- It is bound to its loop. -/
def Bound (f : Addr → Option Addr) (σ : LoopScope) (a : Addr) : Prop :=
  ∃ l, σ.inner = some l ∧ f a = some l

/-- The `Binder` goes there and sees the loop it has. -/
def Sees (σ : LoopScope) (_ : Addr) : Prop := σ.aside = false ∧ σ.seen = σ.inner

/-- It is bound to what the `Binder` sees, and to nothing where the `Binder` does not go. -/
def BoundToSeen (f : Addr → Option Addr) (σ : LoopScope) (a : Addr) : Prop :=
  if σ.aside then f a = none else ∃ l, σ.seen = some l ∧ f a = some l

end LoopScope

namespace Ast

/-- `P` holds of every `BreakExp` of a tree, each taken with the loops around it. -/
def EveryBreak (P : LoopScope → Addr → Prop) : {k : Kind} → LoopScope → Ast Addr k → Prop
  | _, _, .nil => True
  | _, σ, .cons x xs => x.EveryBreak P σ ∧ xs.EveryBreak P σ
  | _, _, .none => True
  | _, σ, .some x => x.EveryBreak P σ
  | _, _, .simpleVar _ _ => True
  | _, σ, .fieldVar _ v _ => v.EveryBreak P σ
  | _, σ, .subscriptVar _ v e => v.EveryBreak P σ ∧ e.EveryBreak P σ
  | _, σ, .ofVar v => v.EveryBreak P σ
  | _, _, .nilExp _ => True
  | _, _, .intExp _ _ => True
  | _, _, .stringExp _ _ => True
  | _, σ, .callExp _ _ args => args.EveryBreak P σ
  | _, σ, .opExp _ l _ r => l.EveryBreak P σ ∧ r.EveryBreak P σ
  | _, σ, .recordExp _ t fs => t.EveryBreak P σ ∧ fs.EveryBreak P σ
  | _, σ, .seqExp _ es => es.EveryBreak P σ
  | _, σ, .assignExp _ v e => v.EveryBreak P σ ∧ e.EveryBreak P σ
  | _, σ, .ifExp _ c t e => c.EveryBreak P σ ∧ t.EveryBreak P σ ∧ e.EveryBreak P σ
  | _, σ, .whileExp a c body => c.EveryBreak P σ.test ∧ body.EveryBreak P (σ.body a)
  | _, σ, .forExp a vardec hi body =>
    vardec.EveryBreak P (σ.bounds a) ∧ hi.EveryBreak P (σ.bounds a) ∧ body.EveryBreak P (σ.body a)
  | _, σ, .breakExp a => P σ a
  | _, σ, .letExp _ chunks body => chunks.EveryBreak P σ.block ∧ body.EveryBreak P σ.block
  | _, σ, .arrayExp _ t s e => t.EveryBreak P σ ∧ s.EveryBreak P σ ∧ e.EveryBreak P σ
  | _, σ, .castExp _ e t => e.EveryBreak P σ ∧ t.EveryBreak P σ
  | _, _, .nameTy _ _ => True
  | _, σ, .ofNameTy n => n.EveryBreak P σ
  | _, σ, .recordTy _ fs => fs.EveryBreak P σ
  | _, σ, .arrayTy _ t => t.EveryBreak P σ
  | _, σ, .field _ _ t => t.EveryBreak P σ
  | _, σ, .fieldInit _ _ e => e.EveryBreak P σ
  | _, σ, .varDec _ _ t e => t.EveryBreak P σ ∧ e.EveryBreak P σ
  | _, σ, .functionDec _ _ formals result body =>
    formals.EveryBreak P σ.function ∧ result.EveryBreak P σ.function ∧
      body.EveryBreak P σ.function
  | _, σ, .typeDec _ _ ty => ty.EveryBreak P σ
  | _, σ, .varChunk _ ds => ds.EveryBreak P σ
  | _, σ, .ofVarChunk c => c.EveryBreak P σ
  | _, σ, .functionChunk _ ds => ds.EveryBreak P σ
  | _, σ, .typeChunk _ ds => ds.EveryBreak P σ
  | _, σ, .chunkList _ cs => cs.EveryBreak P σ

attribute [local simp] EveryBreak

variable {k : Kind} {P Q R : LoopScope → Addr → Prop} {σ : LoopScope}

/-- A type holds no expression. -/
theorem everyBreak_of_isType {t : Ast Addr k} (h : k.isType = true) : t.EveryBreak P σ := by
  induction t generalizing σ <;> simp_all [Kind.isType]

theorem EveryBreak.imp₂ (h : ∀ σ a, P σ a → Q σ a → R σ a) {t : Ast Addr k}
    (hp : t.EveryBreak P σ) (hq : t.EveryBreak Q σ) : t.EveryBreak R σ := by
  induction t generalizing σ <;> simp only [EveryBreak] at hp hq ⊢ <;> grind

theorem EveryBreak.imp (h : ∀ σ a, P σ a → Q σ a) {t : Ast Addr k} (hp : t.EveryBreak P σ) :
    t.EveryBreak Q σ :=
  hp.imp₂ (fun σ a hp _ => h σ a hp) hp

/-- Nothing is known of the tests of the `while`s but that they lie aside. -/
theorem everyBreak_of_aside {t : Ast Addr k} (ha : σ.aside = true)
    (h : ∀ σ, σ.aside = true → ∀ a ∈ t.nodes, P σ a) : t.EveryBreak P σ := by
  induction t generalizing σ <;>
    simp_all [nodes, LoopScope.test, LoopScope.body, LoopScope.bounds, LoopScope.block,
      LoopScope.function]

end Ast

namespace Binder

variable {k : Kind} {f : Addr → Option Addr} {ρ : Scope} {σ : LoopScope} {b b' : Binder}

/-! ## What the visit binds -/

/-- Where the `Binder` does not go, nothing is bound. -/
theorem boundToSeen_of_aside {t : Ast Addr k} (ha : σ.aside = true)
    (h : ∀ a ∈ t.nodes, f a = none) : t.EveryBreak (LoopScope.BoundToSeen f) σ :=
  Ast.everyBreak_of_aside ha fun σ hσ a hm => by simp [LoopScope.BoundToSeen, hσ, h a hm]

/-- A visit binds each `break` to the loop the state shows there. -/
theorem Within.boundToSeen {t : Ast Addr k} {w : Walk} (hv : b.visit t w = .ok b')
    (h : Within f ρ t.nodes b b') (hσ : σ.seen = b.innermost) (ha : σ.aside = false)
    (hw : w = .nested → k.declares = false) :
    t.EveryBreak (LoopScope.BoundToSeen f) σ := by
  have hacc {P : Prop} : Walk.accept = .nested → P := by rintro ⟨⟩
  have sub {a : Addr} {ns : List Addr} : ns.Sublist (a :: ns) := List.sublist_cons_self ..
  induction t generalizing ρ σ b b' w with
  | nil | none | simpleVar | nilExp | intExp | stringExp | nameTy => trivial
  | cons x xs ihx ihxs =>
    cases w
    case nested =>
      simp only [visit, bind_eq_ok] at hv
      obtain ⟨b₁, h₁, b₂, h₂, hv⟩ := hv
      have e := visit_effect h₁
      have := e.same.scopeEnd h₂
      subst this
      obtain ⟨w₁, w₂⟩ := (h.enter scope_scopeBegin rfl).step e hacc (visit_effect hv).frame
      exact ⟨ihx h₁ w₁ hσ ha hacc,
        ihxs hv ⟨h.funs, h.types, h.early, w₂.unset, w₂.defs, w₂.nodup⟩ hσ ha hw⟩
    all_goals
      simp only [visit, bind_eq_ok] at hv
      obtain ⟨b₁, h₁, hv⟩ := hv
      have e := visit_effect h₁
      obtain ⟨hx, hxs⟩ := h.step e hacc (visit_effect hv).frame
      exact ⟨ihx h₁ hx hσ ha hacc, ihxs hv hxs (hσ.trans e.same.innermost.symm) ha (by rintro ⟨⟩)⟩
  | some x ih | ofVar x ih | ofNameTy x ih | ofVarChunk x ih => exact ih hv h hσ ha hacc
  | breakExp a =>
    obtain ⟨l, hl, hls, rfl⟩ := useLoop_eq_ok.mp hv
    have hs : b.innermost = Option.some l := by rw [Binder.innermost, if_pos hl, hls]
    have hf : f a = Option.some l := by
      rw [h.defs a (by simp [Ast.nodes])]
      exact defs_defSet ..
    show LoopScope.BoundToSeen f σ a
    rw [LoopScope.BoundToSeen, ha]
    exact ⟨l, hσ.trans hs, hf⟩
  | fieldVar _ _ _ ih | recordTy _ _ ih | arrayTy _ _ ih | field _ _ _ ih | fieldInit _ _ _ ih
  | chunkList _ _ ih => exact ih hv (h.sublist sub) hσ ha hacc
  | seqExp _ _ ih => exact ih hv (h.sublist sub) hσ ha fun _ => rfl
  | subscriptVar _ _ _ ih₁ ih₂ | opExp _ _ _ _ ih₁ ih₂ | recordExp _ _ _ ih₁ ih₂
  | assignExp _ _ _ ih₁ ih₂ | castExp _ _ _ ih₁ ih₂ =>
    simp only [visit, bind_eq_ok] at hv
    obtain ⟨b₁, h₁, hv⟩ := hv
    have e := visit_effect h₁
    obtain ⟨w₁, w₂⟩ := (h.sublist sub).step e hacc (visit_effect hv).frame
    exact ⟨ih₁ h₁ w₁ hσ ha hacc, ih₂ hv w₂ (hσ.trans e.same.innermost.symm) ha hacc⟩
  | callExp a x args ih =>
    simp only [visit, bind_eq_ok] at hv
    obtain ⟨b₁, h₁, hv⟩ := hv
    obtain ⟨d, -, rfl⟩ := useFunction_eq_ok.mp h₁
    exact ih hv h.defSet hσ ha hacc
  | ifExp _ _ _ _ ih₁ ih₂ ih₃ | arrayExp _ _ _ _ ih₁ ih₂ ih₃ =>
    simp only [visit, bind_eq_ok] at hv
    obtain ⟨b₁, h₁, b₂, h₂, hv⟩ := hv
    have e₁ := visit_effect h₁
    have e₂ := visit_effect h₂
    have h' := h.sublist sub
    rw [List.append_assoc] at h'
    obtain ⟨w₁, w₂⟩ := h'.step e₁ hacc (e₂.frame₂ (visit_effect hv))
    obtain ⟨w₂, w₃⟩ := w₂.step e₂ hacc (visit_effect hv).frame
    exact ⟨ih₁ h₁ w₁ hσ ha hacc, ih₂ h₂ w₂ (hσ.trans e₁.same.innermost.symm) ha hacc,
      ih₃ hv w₃ (hσ.trans (e₁.same.trans e₂.same).innermost.symm) ha hacc⟩
  | whileExp a c body ihc ihb =>
    simp only [visit, bind_eq_ok] at hv
    obtain ⟨b₁, h₁, hv⟩ := hv
    have e := visit_effect h₁
    have hd := (e.same.leaveLoop hv).2.2
    obtain ⟨w₁, w₂⟩ := (h.sublist sub).skip fun a hn => by rw [hd, e.frame a hn]; rfl
    exact ⟨boundToSeen_of_aside rfl w₁,
      ihb h₁ ((w₂.enter (c := b.enterLoop a) rfl rfl).leave hd.symm) rfl ha hacc⟩
  | forExp a d hi body ihd ihh ihb =>
    simp only [visit, bind_eq_ok] at hv
    obtain ⟨b₁, h₁, b₂, h₂, b₃, h₃, b₄, h₄, hv⟩ := hv
    have e₁ := visit_effect h₁
    have e₂ := visit_effect h₂
    have e₃ := visit_effect h₃
    have := ((e₁.same.trans e₂.same).trans e₃.same).leaveFor h₄ hv
    subst this
    have h' := ((h.sublist sub).enter (c := (b.enterLoop a).scopeBegin) scope_scopeBegin rfl).leave
      (c := b₃) rfl
    rw [List.append_assoc] at h'
    obtain ⟨w₁, w₂⟩ := h'.step e₁ hacc (e₂.frame₂ e₃)
    obtain ⟨w₂, w₃⟩ := w₂.step e₂ hacc e₃.frame
    exact ⟨ihd h₁ w₁ rfl ha hacc, ihh h₂ w₂ e₁.same.innermost.symm ha hacc,
      ihb h₃ w₃ (e₁.same.trans e₂.same).innermost.symm ha hacc⟩
  | letExp a cs body ihc ihb =>
    simp only [visit, bind_eq_ok] at hv
    obtain ⟨b₁, h₁, b₂, h₂, hv⟩ := hv
    have e₁ := visit_effect h₁
    have e₂ := visit_effect h₂
    have := (e₁.same.trans e₂.same).leaveBlock hv
    subst this
    obtain ⟨w₁, w₂⟩ := (((h.sublist sub).enter scope_enterBlock rfl).leave (c := b₂) rfl).step
      e₁ hacc e₂.frame
    exact ⟨ihc h₁ w₁ rfl ha hacc, ihb h₂ w₂ e₁.same.innermost.symm ha hacc⟩
  | varDec a x n i ihn ihi =>
    simp only [visit, bind_eq_ok] at hv
    obtain ⟨b₁, h₁, b₂, h₂, hv⟩ := hv
    obtain ⟨hs, hρ, hd⟩ := putVar_eq_ok h₁
    have h' := (h.sublist sub).move (σ := ρ.putEarly x a) hd (by rw [hρ]; exact h.funs)
      (by rw [hρ]; exact h.types) (by rw [hρ, Scope.putEarly, h.early]; rfl)
    have e := visit_effect h₂
    obtain ⟨w₁, w₂⟩ := h'.step e hacc (visit_effect hv).frame
    exact ⟨ihn h₂ w₁ (hσ.trans hs.innermost.symm) ha hacc,
      ihi hv w₂ (hσ.trans (hs.trans e.same).innermost.symm) ha hacc⟩
  | functionDec a x fs r body ihf ihr ihb =>
    simp only [visit, bind_eq_ok] at hv
    obtain ⟨b₁, h₁, b₂, h₂, hv⟩ := hv
    have e₁ := visit_effect h₁
    have e₂ := visit_effect h₂
    have := (e₁.same.trans e₂.same).leaveBlock hv
    subst this
    have h' := ((h.sublist sub).enter scope_enterBlock rfl).leave (c := b₂) rfl
    rw [List.append_assoc] at h'
    obtain ⟨w₁, w₂⟩ := h'.step e₁ (by rintro ⟨⟩) fun a ha =>
      e₂.frame a fun hb => ha (List.mem_append_right _ hb)
    obtain ⟨-, w₂⟩ := w₂.skip e₂.frame
    exact ⟨ihf h₁ w₁ rfl ha (by rintro ⟨⟩), Ast.everyBreak_of_isType rfl,
      ihb h₂ w₂ e₁.same.innermost.symm ha hacc⟩
  | typeDec a x ty ih => exact Ast.everyBreak_of_isType (t := ty) rfl
  | typeChunk a ds ih => exact Ast.everyBreak_of_isType (t := ds) rfl
  | varChunk a ds ih =>
    cases w
    case elements => exact ih hv (h.sublist sub) hσ ha hacc
    all_goals
      simp only [visit, bind_eq_ok] at hv
      obtain ⟨_, -, hv⟩ := hv
      exact ih hv (h.sublist sub) hσ ha hacc
  | functionChunk a ds ih =>
    simp only [visit, bind_eq_ok] at hv
    obtain ⟨b₁, h₁, hv⟩ := hv
    obtain ⟨hs, hρ, hd⟩ := putFunctions_eq_ok h₁
    refine ih hv ((h.sublist sub).move (σ := ρ.putFuns ds.toList) hd ?_ ?_ ?_)
      (hσ.trans hs.innermost.symm) ha hacc
    · rw [hρ, Scope.putFuns_congr h.funs]
    · rw [hρ, Scope.putFuns_types, Scope.putFuns_types, h.types]
    · rw [hρ, (Scope.putFuns_vars _).2, (Scope.putFuns_vars _).2, h.early]

/-! ## The rule -/

/-- The `break` is accepted, and bound to its loop, when it has one. -/
def BindsBreak ⦃k : Kind⦄ (σ : LoopScope) (b : Binder) : Ast Addr k → Prop
  | .breakExp a => ∀ l, σ.inner = some l → b.useLoop a = .ok (b.defSet a (some l))
  | _ => True

/-- If the node is a `break` that has a loop, that is the loop the `Binder` sees. -/
def SeesOwnLoop ⦃k : Kind⦄ (σ : LoopScope) : Ast Addr k → Prop
  | .breakExp _ => ∀ l, σ.inner = some l → σ.seen = some l
  | _ => True

/-- Every `break` has a loop. -/
def AllInLoops (program : Ast Addr .chunkList) : Prop := program.EveryBreak LoopScope.InLoop {}

/-- The `Binder` gets to every `break` and sees the loop it has. -/
def SeesLoops (program : Ast Addr .chunkList) : Prop := program.EveryBreak LoopScope.Sees {}

/-- Each `break` that the `Binder` comes to is accepted and bound to its loop when it has one, no
`break` of an accepted program is left without its loop, and a binding error is reported when one
has none. -/
structure FollowsLoops (program : Ast Addr .chunkList) : Prop where
  accepts : Along BindsBreak {} {} program .accept
  binds : ∀ b, bind program = .ok b → program.EveryBreak (LoopScope.Bound b.defs) {}
  rejects : ¬ AllInLoops program → ∃ text, bind program = .error (bindError text)

theorem useLoop_eq_ok_iff {a l : Addr} :
    b.useLoop a = .ok (b.defSet a (some l)) ↔ b.innermost = some l := by
  rw [useLoop_eq_ok, innermost]
  constructor
  · rintro ⟨l', hl, hls, heq⟩
    have hd := congrArg (fun b => b.defs a) heq
    simp only [defs_defSet, Option.some.injEq] at hd
    rw [if_pos hl, hls, hd]
  · intro h
    split at h
    case isTrue hl => exact ⟨l, hl, h, rfl⟩
    case isFalse => cases h

/-- What the rule asks of a state is told by what is around the `break`. -/
theorem agree_bindsBreak : Agree BindsBreak fun s => SeesOwnLoop s.loops s.node := by
  intro k ρ σ b t h
  cases t with
  | breakExp a => simp only [BindsBreak, SeesOwnLoop, useLoop_eq_ok_iff, h.seen]
  | _ => exact Iff.rfl

/-- If every `break` is seen with its loop, so is each one that the `Binder` may come to. -/
theorem seesOwnLoop_of_sees {t : Ast Addr k} {w : Walk} (h : t.EveryBreak LoopScope.Sees σ) :
    ∀ s ∈ sites ρ σ t w, SeesOwnLoop s.loops s.node := by
  induction t generalizing ρ σ w with
  | breakExp a =>
    intro s hs
    cases List.mem_singleton.mp hs
    exact fun l hl => h.2.trans hl
  | simpleVar | nameTy | typeChunk =>
    intro s hs
    cases List.mem_singleton.mp hs
    trivial
  | nil | none | nilExp | intExp | stringExp | typeDec => exact List.forall_mem_nil _
  | some _ ih | fieldVar _ _ _ ih | ofVar _ ih | seqExp _ _ ih | ofNameTy _ ih | recordTy _ _ ih
  | arrayTy _ _ ih | field _ _ _ ih | fieldInit _ _ _ ih | ofVarChunk _ ih | chunkList _ _ ih =>
    exact ih h
  | callExp _ _ _ ih | functionChunk _ _ ih => exact List.forall_mem_cons.mpr ⟨trivial, ih h⟩
  | cons _ _ ih₁ ih₂ | subscriptVar _ _ _ ih₁ ih₂ | opExp _ _ _ _ ih₁ ih₂
  | recordExp _ _ _ ih₁ ih₂ | assignExp _ _ _ ih₁ ih₂ | letExp _ _ _ ih₁ ih₂
  | castExp _ _ _ ih₁ ih₂ | varDec _ _ _ _ ih₁ ih₂ =>
    exact List.forall_mem_append.mpr ⟨ih₁ h.1, ih₂ h.2⟩
  | whileExp _ _ _ _ ih => exact ih h.2
  | ifExp _ _ _ _ ih₁ ih₂ ih₃ | forExp _ _ _ _ ih₁ ih₂ ih₃ | arrayExp _ _ _ _ ih₁ ih₂ ih₃ =>
    exact List.forall_mem_append.mpr
      ⟨ih₁ h.1, List.forall_mem_append.mpr ⟨ih₂ h.2.1, ih₃ h.2.2⟩⟩
  | functionDec _ _ _ _ _ ih₁ _ ih₂ =>
    exact List.forall_mem_append.mpr ⟨ih₁ h.1, ih₂ h.2.2⟩
  | varChunk _ _ ih =>
    cases w
    case elements => exact ih h
    all_goals exact List.forall_mem_cons.mpr ⟨trivial, ih h⟩

/-- Whatever is reported, it is a binding error. -/
theorem Reports.bindError {t : Ast Addr k} {e : Stop} (h : Reports t e) :
    ∃ text, e = bindError text := by
  cases t with
  | breakExp =>
    rcases h with h | h
    all_goals exact ⟨_, h⟩
  | simpleVar | callExp | nameTy | varChunk | functionChunk | typeChunk =>
    obtain ⟨x, h | h | h⟩ := h
    all_goals exact ⟨_, h⟩
  | _ => cases h

theorem bind_boundToSeen {program : Ast Addr .chunkList} {b : Binder}
    (hn : program.nodes.Nodup) (h : bind program = .ok b) :
    program.EveryBreak (LoopScope.BoundToSeen b.defs) {} := by
  refine Within.boundToSeen (ρ := {}) h ⟨rfl, rfl, rfl, fun _ _ => rfl, fun _ _ => rfl, hn⟩ rfl
    rfl ?_
  rintro ⟨⟩

/-- In an accepted program, what the rule asks of the `def_`s is what the `Binder` sees. -/
theorem bound_iff_sees {program : Ast Addr .chunkList} {b : Binder} (hn : program.nodes.Nodup)
    (hb : bind program = .ok b) :
    program.EveryBreak (LoopScope.Bound b.defs) {} ↔ SeesLoops program := by
  have hseen := bind_boundToSeen hn hb
  constructor
  · intro h
    refine h.imp₂ (fun σ a hl hs => ?_) hseen
    obtain ⟨l, hl, ha⟩ := hl
    unfold LoopScope.BoundToSeen at hs
    split at hs
    case isTrue =>
      rw [ha] at hs
      cases hs
    case isFalse haside =>
      obtain ⟨l', hl', ha'⟩ := hs
      rw [ha] at ha'
      cases ha'
      exact ⟨by simpa using haside, hl'.trans hl.symm⟩
  · intro h
    refine Ast.EveryBreak.imp₂ (fun σ a hs hq => ?_) h hseen
    rw [LoopScope.BoundToSeen, hs.1] at hq
    obtain ⟨l, hl, ha⟩ := hq
    exact ⟨l, hs.2 ▸ hl, ha⟩

/-- **The `Binder` treats the `break`s of a program by the rule exactly when it sees the loop of
each one that has a loop and that it comes to, and that of all of them if no check fails.** -/
theorem followsLoops_iff {program : Ast Addr .chunkList} (hn : program.nodes.Nodup) :
    FollowsLoops program ↔
      (∀ s, checks.Reaches (allSites program) s → SeesOwnLoop s.loops s.node) ∧
        (checks.AllPass (allSites program) → SeesLoops program) := by
  have hmakes := makes_bind agree_bindsBreak program
  constructor
  · intro h
    refine ⟨hmakes.along.mp h.accepts, fun hall => ?_⟩
    obtain ⟨b, hb⟩ := hmakes.allPass_iff.mpr hall
    exact (bound_iff_sees hn hb).mp (h.binds b hb)
  · rintro ⟨hreached, hsees⟩
    refine ⟨hmakes.along.mpr hreached, fun b hb => ?_, fun hout => ?_⟩
    · exact (bound_iff_sees hn hb).mpr (hsees (hmakes.ok b hb).1)
    · cases hb : bind program with
      | error e =>
        obtain ⟨s, -, hgives⟩ := hmakes.error e hb
        obtain ⟨text, rfl⟩ := Reports.bindError hgives
        exact ⟨text, rfl⟩
      | ok b =>
        refine absurd ?_ hout
        refine ((bound_iff_sees hn hb).mpr (hsees (hmakes.ok b hb).1)).imp ?_
        rintro σ a ⟨l, hl, -⟩ hnone
        rw [hl] at hnone
        cases hnone

/-- `while 1 do if 0 then break` as a program. -/
def breakInIf : Ast Addr .chunkList :=
  .chunkList 0 (.ofList [.functionChunk 1 (.ofList [.functionDec 2 "_main".toList
    (.varChunk 3 .nil) .none (.some (.seqExp 4 (.ofList [
      .whileExp 5 (.intExp 6 1) (.ifExp 7 (.intExp 8 0) (.breakExp 9) (.seqExp 10 .nil)),
      .seqExp 11 .nil])))])])

/-- The `break` is seen with its loop. -/
theorem breakInIf_followsLoops : FollowsLoops breakInIf := by
  have hsees : SeesLoops breakInIf := by
    simp [SeesLoops, breakInIf, Ast.ofList, Ast.EveryBreak, LoopScope.Sees, LoopScope.body,
      LoopScope.function]
  exact (followsLoops_iff (by decide)).mpr
    ⟨fun s hs => seesOwnLoop_of_sees hsees s hs.mem, fun _ => hsees⟩

/-- `while 1 do let in break end` as a program. -/
def breakInLet : Ast Addr .chunkList :=
  .chunkList 0 (.ofList [.functionChunk 1 (.ofList [.functionDec 2 "_main".toList
    (.varChunk 3 .nil) .none (.some (.seqExp 4 (.ofList [
      .whileExp 5 (.intExp 6 1)
        (.letExp 7 (.chunkList 8 .nil) (.seqExp 9 (.ofList [.breakExp 10]))),
      .seqExp 11 .nil])))])])

/-- The `break` of a `let` is rejected, even inside a loop. -/
theorem not_followsLoops :
    ¬ ∀ program : Ast Addr .chunkList, program.nodes.Nodup → FollowsLoops program := by
  intro h
  have hreached := (makes_bind agree_bindsBreak breakInLet).along.mp
    (h breakInLet (by decide)).accepts
  simp [allSites, breakInLet, Ast.ofList, sites, Ast.functionName, checks, Passes, Fresh,
    SeesOwnLoop, LoopScope.function, LoopScope.body, LoopScope.block] at hreached

end Binder

end TigerCompiler
