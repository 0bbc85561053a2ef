import TigerCompiler.Bind.Visit

/-!
# The Binder leaves no trace

A visit of an expression or of a function declaration closes every scope it opens and leaves every
loop it enters, so the maps, the loops and `in_loop_` are as before it.  Declarations do change
the innermost scope, and need one: what encloses them opens it.  So the stacks are never popped
when they are empty, and the only errors are those the Binder reports.
-/

namespace TigerCompiler
namespace Binder

variable {k : Kind} {b b' b₁ b₂ c : Binder}

/-- The classes whose visit puts declarations in the innermost scope. -/
def declares : Kind → Bool
  | .varDec | .varChunk | .chunk | .chunkList => true
  | .list k | .opt k => declares k
  | _ => false

/-- Every map has a scope. -/
structure HasScope (b : Binder) : Prop where
  vars : b.mapVardec.levels ≠ []
  funs : b.mapFundec.levels ≠ []
  types : b.mapTypedec.levels ≠ []

/-- Only `def_` members are set. -/
def Untouched (b b' : Binder) : Prop := b' = { b with defs := b'.defs }

/-- A binding error has been reported. -/
def Reported (e : Stop) : Prop := ∃ text, e = bindError text

theorem Untouched.refl (b : Binder) : Untouched b b := rfl

theorem Untouched.trans (h : Untouched b b₁) (h' : Untouched b₁ b₂) : Untouched b b₂ := by
  rw [Untouched, h', h]

theorem Untouched.of_eq {f : Addr → Option Addr} (h : b' = { b with defs := f }) :
    Untouched b b' := by
  subst h
  rfl

theorem Untouched.hasScope (h : Untouched b b') (hb : b.HasScope) : b'.HasScope := by
  rw [h]
  exact ⟨hb.vars, hb.funs, hb.types⟩

/-- What a visit does to the stacks. -/
structure Keeps (k : Kind) (b b' : Binder) : Prop where
  hasScope : b.HasScope → b'.HasScope
  untouched : declares k = false → Untouched b b'

/-- The visit of a node from a state where it can put its declarations. -/
def Tidy (t : Ast Addr k) : Prop :=
  ∀ b w, (declares k = true → b.HasScope) → Ends Reported (Keeps k b) (b.visit t w)

/-! ## Scopes that are there -/

/-- Entered with a scope of its own: the state while a block or a loop is visited. -/
structure Inside (b c : Binder) : Prop where
  same : SameContext b c
  hasScope : c.HasScope

theorem hasScope_scopeBegin (b : Binder) : b.scopeBegin.HasScope :=
  ⟨List.cons_ne_nil _ _, List.cons_ne_nil _ _, List.cons_ne_nil _ _⟩

theorem inside_scopeBegin (b : Binder) : Inside b.scopeBegin b.scopeBegin :=
  ⟨.refl _, hasScope_scopeBegin b⟩

theorem inside_enterBlock (b : Binder) : Inside b.enterBlock b.enterBlock :=
  ⟨.refl _, ⟨List.cons_ne_nil _ _, List.cons_ne_nil _ _, List.cons_ne_nil _ _⟩⟩

theorem exists_scopeEnd (hc : c.HasScope) : ∃ c', c.scopeEnd = .ok c' := by
  obtain ⟨hv, hf, ht⟩ := hc
  obtain ⟨⟨_ | ⟨v, vs⟩⟩, ⟨_ | ⟨f, fs⟩⟩, ⟨_ | ⟨t, ts⟩⟩, ls, l, d⟩ := c
  all_goals first | contradiction | exact ⟨_, rfl⟩

theorem Inside.scopeEnd (h : Inside b.scopeBegin c) :
    Ends Reported (Untouched b) c.scopeEnd := by
  obtain ⟨c', hc'⟩ := exists_scopeEnd h.hasScope
  rw [hc']
  exact .of_eq (h.same.scopeEnd hc')

theorem Inside.leaveBlock (h : Inside b.enterBlock c) :
    Ends Reported (Untouched b) (c.leaveBlock b.inLoop) := by
  obtain ⟨c', hc'⟩ := exists_scopeEnd h.hasScope
  have hleave : c.leaveBlock b.inLoop = .ok { c' with inLoop := b.inLoop } := by
    rw [Binder.leaveBlock, hc']
    rfl
  rw [hleave]
  exact Untouched.of_eq (h.same.leaveBlock hleave)

theorem Inside.leaveFor {a : Addr} (h : Inside (b.enterLoop a).scopeBegin c) :
    Ends Reported (Untouched b) (c.scopeEnd >>= (·.leaveLoop b.inLoop)) := by
  obtain ⟨c', hc'⟩ := exists_scopeEnd h.hasScope
  have hc := h.same.scopeEnd hc'
  rw [hc', ok_bind, hc]
  rfl

/-! ## Steps -/

theorem useVar_ends (b : Binder) (a : Addr) (x : Symbol) :
    Ends Reported (Untouched b) (b.useVar a x) := by
  unfold useVar
  split
  · exact ⟨_, rfl⟩
  · rfl

theorem useFunction_ends (b : Binder) (a : Addr) (x : Symbol) :
    Ends Reported (Untouched b) (b.useFunction a x) := by
  unfold useFunction
  split
  · exact ⟨_, rfl⟩
  · rfl

theorem useType_ends (b : Binder) (a : Addr) (x : Symbol) :
    Ends Reported (Untouched b) (b.useType a x) := by
  unfold useType
  split
  · split
    · rfl
    · exact ⟨_, rfl⟩
  · rfl

theorem useLoop_ends (b : Binder) (a : Addr) : Ends Reported (Untouched b) (b.useLoop a) := by
  unfold useLoop
  split
  · split
    · rfl
    · exact ⟨_, rfl⟩
  · exact ⟨_, rfl⟩

theorem put_ends {Key Data : Type} [DecidableEq Key] {m : ScopedMap Key Data}
    (hm : m.levels ≠ []) (key : Key) (v : Data) :
    ∃ m', m.put key v = .ok m' ∧ m'.levels ≠ [] := by
  obtain ⟨ds⟩ := m
  cases ds with
  | nil => exact absurd rfl hm
  | cons d ds => exact ⟨_, rfl, List.cons_ne_nil _ _⟩

theorem putVar_ends (hb : b.HasScope) (x : Symbol) (a : Addr) :
    Ends Reported HasScope (b.putVar x a) := by
  obtain ⟨m, hm, hl⟩ := put_ends hb.vars x a
  rw [putVar, hm]
  exact ⟨hl, hb.funs, hb.types⟩

theorem putFunctions_ends (hb : b.HasScope) (ds : List (Ast Addr .functionDec)) :
    Ends Reported HasScope (b.putFunctions ds) := by
  induction ds generalizing b with
  | nil => exact hb
  | cons d ds ih =>
    refine Ends.bind (I := HasScope) ?_ fun b₁ h₁ => ih h₁
    unfold putFunction
    split
    · exact ⟨_, rfl⟩
    · obtain ⟨m, hm, hl⟩ := put_ends hb.funs d.functionName d.functionAddr
      rw [hm]
      exact ⟨hb.vars, hl, hb.types⟩

theorem putTypes_ends (hb : b.HasScope) (ds : List (Ast Addr .typeDec)) :
    Ends Reported HasScope (b.putTypes ds) := by
  induction ds generalizing b with
  | nil => exact hb
  | cons d ds ih =>
    unfold putTypes
    split
    · exact ⟨_, rfl⟩
    · refine Ends.bind (I := HasScope) ?_ fun b₁ h₁ => ih h₁
      obtain ⟨m, hm, hl⟩ := put_ends hb.types d.typeName d.typeAddr
      rw [putType, hm]
      exact ⟨hb.vars, hb.funs, hl⟩

theorem checkParameters_ends (vars names : List Symbol) :
    Ends Reported (fun _ => True) (checkParameters vars names) := by
  induction names generalizing vars with
  | nil => trivial
  | cons x names ih =>
    unfold checkParameters
    split
    · exact ⟨_, rfl⟩
    · exact ih _

/-! ## Visits -/

variable {t : Ast Addr k} {w : Walk}

theorem Untouched.bind {x : Except Stop Binder} {f : Binder → Except Stop Binder}
    (hx : Ends Reported (Untouched b) x) (hf : ∀ b₁, Ends Reported (Untouched b₁) (f b₁)) :
    Ends Reported (Untouched b) (x >>= f) :=
  Ends.bind hx fun b₁ h₁ => (hf b₁).imp fun _ h => h₁.trans h

theorem Untouched.keeps (h : Untouched b b') : Keeps k b b' := ⟨h.hasScope, fun _ => h⟩

/-- A node whose visit leaves the stacks alone needs no scope. -/
theorem tidy_of_untouched (h : ∀ b w, Ends Reported (Untouched b) (b.visit t w)) : Tidy t :=
  fun b w _ => (h b w).imp fun _ => Untouched.keeps

/-- A node that declares. -/
theorem tidy_of_hasScope (hk : declares k = true)
    (h : ∀ (b : Binder) w, b.HasScope → Ends Reported HasScope (b.visit t w)) : Tidy t :=
  fun b w hb => (h b w (hb hk)).imp fun _ h' => ⟨fun _ => h', fun hn => by simp [hk] at hn⟩

theorem Tidy.untouched (ht : Tidy t) (hk : declares k = false) (b : Binder) (w : Walk) :
    Ends Reported (Untouched b) (b.visit t w) :=
  (ht b w fun h => by simp [hk] at h).imp fun _ h => h.untouched hk

theorem Tidy.hasScope (ht : Tidy t) (hb : b.HasScope) (w : Walk) :
    Ends Reported HasScope (b.visit t w) := (ht b w fun _ => hb).imp fun _ h => h.hasScope hb

/-- What is entered stays entered. -/
theorem Tidy.inside (ht : Tidy t) (hc : Inside b c) (w : Walk) :
    Ends Reported (Inside b) (c.visit t w) := by
  have hs := ht.hasScope hc.hasScope w
  cases h : c.visit t w with
  | error e => rwa [h] at hs
  | ok c' =>
    rw [h] at hs
    exact ⟨hc.same.trans (visit_effect h).same, hs⟩

/-- **Every visit is tidy.** -/
theorem tidy (t : Ast Addr k) : Tidy t := by
  induction t with
  | nil | none | nilExp | intExp | stringExp | typeDec =>
    exact tidy_of_untouched fun b w => Untouched.refl b
  | simpleVar a x => exact tidy_of_untouched fun b w => useVar_ends b a x
  | nameTy a x => exact tidy_of_untouched fun b w => useType_ends b a x
  | breakExp a => exact tidy_of_untouched fun b w => useLoop_ends b a
  | some x ih => exact fun b w hb => (ih b .accept hb).imp fun _ h => ⟨h.hasScope, h.untouched⟩
  | ofVarChunk _ ih | chunkList _ _ ih =>
    exact tidy_of_hasScope rfl fun b w hb => ih.hasScope hb .accept
  | fieldVar _ _ _ ih | ofVar _ ih | ofNameTy _ ih | recordTy _ _ ih | arrayTy _ _ ih
  | field _ _ _ ih | fieldInit _ _ _ ih | seqExp _ _ ih =>
    exact tidy_of_untouched fun b w => ih.untouched rfl b _
  | callExp a x args ih =>
    exact tidy_of_untouched fun b w =>
      (useFunction_ends b a x).bind fun b₁ h₁ => (ih.untouched rfl b₁ .accept).imp fun _ => h₁.trans
  | subscriptVar _ _ _ ih₁ ih₂ | opExp _ _ _ _ ih₁ ih₂ | recordExp _ _ _ ih₁ ih₂
  | assignExp _ _ _ ih₁ ih₂ | castExp _ _ _ ih₁ ih₂ =>
    exact tidy_of_untouched fun b w =>
      Untouched.bind (ih₁.untouched rfl b .accept) fun b₁ => ih₂.untouched rfl b₁ .accept
  | ifExp _ _ _ _ ih₁ ih₂ ih₃ | arrayExp _ _ _ _ ih₁ ih₂ ih₃ =>
    exact tidy_of_untouched fun b w =>
      Untouched.bind (ih₁.untouched rfl b .accept) fun b₁ =>
        Untouched.bind (ih₂.untouched rfl b₁ .accept) fun b₂ => ih₃.untouched rfl b₂ .accept
  | cons x xs ihx ihxs =>
    intro b w hb
    cases w with
    | nested =>
      refine (ihx.inside (inside_scopeBegin b) .accept).bind fun c hc => ?_
      refine hc.scopeEnd.bind fun b₁ h₁ => ?_
      refine (ihxs b₁ .nested fun hk => h₁.hasScope (hb hk)).imp fun b' h' => ?_
      exact ⟨fun hs => h'.hasScope (h₁.hasScope hs), fun hk => h₁.trans (h'.untouched hk)⟩
    | accept | elements =>
      refine (ihx b .accept hb).bind fun b₁ h₁ => ?_
      refine (ihxs b₁ _ fun hk => h₁.hasScope (hb hk)).imp fun b' h' => ?_
      exact ⟨fun hs => h'.hasScope (h₁.hasScope hs),
        fun hk => (h₁.untouched hk).trans (h'.untouched hk)⟩
  | whileExp a c body ihc ih =>
    refine tidy_of_untouched fun b w => ?_
    refine (ih.untouched rfl (b.enterLoop a) .accept).bind fun c hc => ?_
    rw [hc]
    rfl
  | forExp a d hi body ihd ihh ihb =>
    refine tidy_of_untouched fun b w => ?_
    refine (ihd.inside (inside_scopeBegin (b.enterLoop a)) .accept).bind fun c₁ h₁ => ?_
    refine (ihh.inside h₁ .accept).bind fun c₂ h₂ => ?_
    exact (ihb.inside h₂ .accept).bind fun c₃ h₃ => h₃.leaveFor
  | letExp a cs body ihcs ihb =>
    refine tidy_of_untouched fun b w => ?_
    refine (ihcs.inside (inside_enterBlock b) .accept).bind fun c₁ h₁ => ?_
    exact (ihb.inside h₁ .accept).bind fun c₂ h₂ => h₂.leaveBlock
  | functionDec a x fs r body ihfs ihr ihb =>
    refine tidy_of_untouched fun b w => ?_
    refine (ihfs.inside (inside_enterBlock b) .elements).bind fun c₁ h₁ => ?_
    exact (ihb.inside h₁ .accept).bind fun c₂ h₂ => h₂.leaveBlock
  | varDec a x t i iht ihi =>
    refine tidy_of_hasScope rfl fun b w hb => ?_
    refine (putVar_ends hb x a).bind fun b₁ h₁ => ?_
    exact (iht.hasScope h₁ .accept).bind fun b₂ h₂ => ihi.hasScope h₂ .accept
  | varChunk a ds ih =>
    refine tidy_of_hasScope rfl fun b w hb => ?_
    have hcheck := checkParameters_ends [] (ds.toList.map Ast.varName)
    cases w with
    | elements => exact ih.hasScope hb .accept
    | accept | nested => exact hcheck.bind fun _ _ => ih.hasScope hb .accept
  | functionChunk a ds ih =>
    refine tidy_of_hasScope rfl fun b w hb => ?_
    exact (putFunctions_ends hb ds.toList).bind fun b₁ h₁ => ih.hasScope h₁ .accept
  | typeChunk a ds ih => exact tidy_of_hasScope rfl fun b w hb => putTypes_ends hb ds.toList

/-- Every level of the maps, the loops and `in_loop_` are the same. -/
structure SameStacks (b b' : Binder) : Prop where
  vardec : b'.mapVardec = b.mapVardec
  fundec : b'.mapFundec = b.mapFundec
  typedec : b'.mapTypedec = b.mapTypedec
  loops : b'.loops = b.loops
  inLoop : b'.inLoop = b.inLoop

theorem Untouched.sameStacks (h : Untouched b b') : SameStacks b b' := by
  rw [h]
  exact ⟨rfl, rfl, rfl, rfl, rfl⟩

/-- **From any state, a visit of an expression or of a function declaration either reports an error
or leaves the maps, the loops and `in_loop_` as they were; it never closes a scope or leaves a loop
when there is none.** -/
theorem visit_sameStacks (b : Binder) :
    (∀ t : Ast Addr .exp, Ends Reported (SameStacks b) (b.visit t .accept)) ∧
      ∀ t : Ast Addr .functionDec, Ends Reported (SameStacks b) (b.visit t .accept) := by
  constructor
  · intro t
    exact ((tidy t).untouched rfl b .accept).imp fun _ h => h.sameStacks
  · intro t
    exact ((tidy t).untouched rfl b .accept).imp fun _ h => h.sameStacks

end Binder
end TigerCompiler
