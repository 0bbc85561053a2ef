import TigerCompiler.Bind.Completeness

/-!
# Where the scope of a variable starts

`operator()(VarDec)` puts the variable before it visits the initialiser, and
`operator()(ForExp)` visits the high bound with the loop variable in scope: the `Binder` follows
the rule where a variable is visible from its name on (`Scope.early`).  The two rules bind alike
exactly when no initialiser and no high bound uses the name being declared.
-/

namespace TigerCompiler

open Scope

variable {k : Kind} {ρ σ : Scope} {f : Addr → Option Addr}

/-! ## Variables after a node -/

/-- A variable visible after a node was visible before it or is declared by the node. -/
theorem Scope.after_vars {t : Ast Addr k} {x : Symbol} {d : Addr}
    (h : (ρ.after t).vars x = some d) : ρ.vars x = some d ∨ d ∈ t.nodes := by
  induction t generalizing ρ with
  | cons y ys ihy ihys =>
    rw [Ast.nodes, List.mem_append]
    rcases ihys h with h | h
    · exact (ihy h).imp_right .inl
    · exact .inr (.inr h)
  | some y ih | ofVarChunk y ih => exact ih h
  | varChunk _ y ih | chunkList _ y ih => exact (ih h).imp_right (.tail _)
  | varDec a y n i =>
    by_cases hx : x = y
    · simp_all [after, putVar, Ast.nodes]
    · exact .inl (by simpa [after, putVar, hx] using h)
  | functionChunk a ds => exact .inl (by simpa [after, putFuns_vars] using h)
  | typeChunk a ds => exact .inl (by simpa [after, putTypes_vars] using h)
  | _ => exact .inl h

theorem Scope.after_agree {t : Ast Addr k} {x : Symbol}
    (h : x ∉ t.newVars → ρ.early x = ρ.vars x) : (ρ.after t).early x = (ρ.after t).vars x := by
  induction t generalizing ρ with
  | cons y ys ihy ihys =>
    simp only [Ast.newVars, List.mem_append, not_or] at h
    exact ihys fun hys => ihy fun hy => h ⟨hy, hys⟩
  | some y ih | varChunk _ y ih | ofVarChunk y ih | chunkList _ y ih => exact ih h
  | varDec a y n i =>
    by_cases hx : x = y
    · simp [after, putVar, hx]
    · simpa [after, putVar, hx, Ast.newVars] using h
  | functionChunk a ds => simpa [after, putFuns_vars, Ast.newVars] using h
  | typeChunk a ds => simpa [after, putTypes_vars, Ast.newVars] using h
  | _ => exact h List.not_mem_nil

theorem Scope.after_early {t : Ast Addr k} {x : Symbol} :
    (ρ.after t).early x = ρ.early x ∨ ∃ d ∈ t.nodes, (ρ.after t).early x = some d := by
  induction t generalizing ρ with
  | cons y ys ihy ihys =>
    simp only [Ast.nodes, List.mem_append, after]
    grind
  | some y ih | ofVarChunk y ih => exact ih
  | varChunk _ y ih | chunkList _ y ih =>
    exact ih.imp_right fun ⟨d, hd, h⟩ => ⟨d, .tail _ hd, h⟩
  | varDec a y n i =>
    by_cases hx : x = y
    · exact .inr ⟨a, by simp [Ast.nodes], by simp [after, putVar, hx]⟩
    · exact .inl (by simp [after, putVar, hx])
  | functionChunk a ds => exact .inl (by simp [after, putFuns_vars])
  | typeChunk a ds => exact .inl (by simp [after, putTypes_vars])
  | _ => exact .inl rfl

theorem Scope.putEarly_early {x y : Symbol} {a : Addr} :
    (ρ.putEarly x a).early y = if y = x then some a else ρ.early y := by
  simp [putEarly, Function.update_apply]

namespace Binder

/-- No use is bound to a declaration of another place than the one lexical scoping gives: the
free uses of a variable in its own initialiser and in the high bound of its loop are bound to
the declaration visible outside, and any use is bound to a declaration it lies in the scope
of. -/
def FollowsScope (f : Addr → Option Addr) ⦃k : Kind⦄ (ρ : Scope) : Ast Addr k → Prop
  | .varDec _ x _ init =>
    ∀ u ∈ init.freeUses x, ∃ d, ρ.vars x = some d ∧ f u = some d
  | .forExp _ vardec hi _ =>
    ∀ u ∈ hi.freeUses vardec.varName, ∃ d, ρ.vars vardec.varName = some d ∧ f u = some d
  | .simpleVar a x => ∀ d, f a = some d → ρ.vars x = some d
  | _ => True

/-- A variable has no free use in its own initialiser, a loop variable none in the high bound. -/
def NoOwnUse ⦃k : Kind⦄ (_ : Scope) : Ast Addr k → Prop
  | .varDec _ x _ init => init.freeUses x = []
  | .forExp _ vardec hi _ => hi.freeUses vardec.varName = []
  | _ => True

/-- A `SimpleVar` is bound to what is visible by the early rule, or unbound. -/
def BoundEarly (f : Addr → Option Addr) ⦃k : Kind⦄ (ρ : Scope) : Ast Addr k → Prop
  | .simpleVar a x => f a = none ∨ f a = ρ.early x
  | _ => True

/-- A use that has been visited is bound to what the scope shows at its place, and one in a place
the Binder does not visit is not bound. -/
theorem Reached.boundEarly {t : Ast Addr k} (h : Reached f ρ t) : BoundEarly f ρ t := by
  unfold Reached at h
  cases t with
  | simpleVar a x =>
    split at h
    · exact .inl (h a (by simp [Ast.nodes]))
    · obtain ⟨w, b, b', hv, hw⟩ := h
      obtain ⟨d, hd, rfl⟩ := useVar_eq_ok.mp hv
      refine .inr ?_
      rw [hw.defs a (by simp [Ast.nodes]), hw.early, defs_defSet]
      exact hd.symm
  | _ => trivial

/-- A free use of a variable in a node is not bound, or bound to what the scope shows before the
node or to a declaration inside it. -/
theorem def_of_freeUse {t : Ast Addr k} {x : Symbol} {u : Addr}
    (h : ρ.Everywhere (BoundEarly f) t) (hu : u ∈ t.freeUses x) :
    f u = none ∨ f u = ρ.early x ∨ ∃ d ∈ t.nodes, f u = some d := by
  induction t generalizing ρ with
  | nil | none | nilExp | intExp | stringExp | breakExp | nameTy | ofNameTy | recordTy | arrayTy
  | field | typeDec | typeChunk => simp [Ast.freeUses] at hu
  | simpleVar a y =>
    simp only [Ast.freeUses] at hu
    split at hu
    case isTrue hy =>
      rw [List.mem_singleton] at hu
      subst hu hy
      exact h.imp_right .inl
    case isFalse => simp at hu
  | some y ih | ofVar y ih | ofVarChunk y ih => exact ih h hu
  | cons | letExp | functionDec =>
    simp only [Everywhere, Ast.freeUses, Ast.nodes] at h hu ⊢
    grind [after_early]
  | forExp | varDec =>
    simp only [Everywhere, Ast.freeUses, Ast.nodes] at h hu ⊢
    grind [after_early, putEarly_early, Ast.varAddr_mem_nodes]
  | functionChunk =>
    simp only [Everywhere, Ast.freeUses, Ast.nodes] at h hu ⊢
    grind [putFuns_vars]
  | whileExp =>
    simp only [Everywhere, Ast.freeUses, Ast.nodes] at h hu ⊢
    grind [putAside]
  | _ =>
    simp only [Everywhere, Ast.freeUses, Ast.nodes] at h hu ⊢
    grind

/-- None of the nodes `ns` declares a variable in scope. -/
def Clear (ρ : Scope) (ns : List Addr) : Prop := ∀ x d, ρ.vars x = some d → d ∉ ns

theorem clear_append {ns ms : List Addr} : Clear ρ (ns ++ ms) ↔ Clear ρ ns ∧ Clear ρ ms := by
  simp only [Clear, List.mem_append, not_or, ← forall_and]

theorem clear_cons {a : Addr} {ns : List Addr} :
    Clear ρ (a :: ns) ↔ (∀ x, ρ.vars x ≠ some a) ∧ Clear ρ ns := by
  constructor
  · intro h
    exact ⟨fun x hx => h x a hx (.head _), fun x d hx hd => h x d hx (.tail _ hd)⟩
  · rintro ⟨ha, h⟩ x d hx hd
    rcases List.mem_cons.mp hd with rfl | hd
    · exact ha x hx
    · exact h x d hx hd

theorem Clear.after {t : Ast Addr k} {ns : List Addr} (h : Clear ρ ns)
    (hd : ∀ a ∈ t.nodes, ∀ b ∈ ns, a ≠ b) : Clear (ρ.after t) ns := by
  intro x d hx hm
  rcases after_vars hx with hx | ht
  · exact h x d hx hm
  · exact hd d ht d hm rfl

theorem Clear.congr {ns : List Addr} (h : Clear ρ ns) (hv : σ.vars = ρ.vars) : Clear σ ns := by
  rwa [Clear, hv]

/-- No variable in scope at a place is declared inside the place. -/
def OutOfScope ⦃k : Kind⦄ (ρ : Scope) (t : Ast Addr k) : Prop := Clear ρ t.nodes

theorem outOfScope {t : Ast Addr k} (hn : t.nodes.Nodup) (h : Clear ρ t.nodes) :
    ρ.Everywhere OutOfScope t := by
  induction t generalizing ρ with
  | nil | none => trivial
  | some y ih | ofVar y ih | ofNameTy y ih | ofVarChunk y ih => exact ih hn h
  | simpleVar | nilExp | intExp | stringExp | breakExp | nameTy => exact h
  | cons =>
    simp only [Everywhere, Ast.nodes, List.nodup_append, clear_append] at h hn ⊢
    grind [Clear.after]
  | functionChunk a ds ih =>
    exact ⟨h, ih (List.nodup_cons.mp hn).2 ((clear_cons.mp h).2.congr (putFuns_vars _).1)⟩
  | typeChunk a ds ih =>
    exact ⟨h, ih (List.nodup_cons.mp hn).2 ((clear_cons.mp h).2.congr (putTypes_vars _).1)⟩
  | _ =>
    refine ⟨h, ?_⟩
    have hp {x a ns} (h : Clear ρ ns) : Clear (ρ.putEarly x a) ns := h
    have ha {ns} (h : Clear ρ ns) : Clear ρ.putAside ns := h
    simp only [Ast.nodes, List.nodup_append, List.nodup_cons, List.mem_append, clear_cons,
      clear_append] at h hn
    grind [Clear.after]

/-- The two rules give the same declaration to a `SimpleVar`. -/
def SameRule ⦃k : Kind⦄ (ρ : Scope) : Ast Addr k → Prop
  | .simpleVar _ x => ρ.early x = ρ.vars x
  | _ => True

theorem sameRule_of_noOwnUse {t : Ast Addr k} (h : ρ.Everywhere NoOwnUse t)
    (hx : ∀ x, t.freeUses x ≠ [] → ρ.early x = ρ.vars x) : ρ.Everywhere SameRule t := by
  induction t generalizing ρ with
  | nil | none => trivial
  | simpleVar a y => exact hx y (by simp [Ast.freeUses])
  | nilExp | intExp | stringExp | breakExp | nameTy => trivial
  | some y ih | ofVar y ih | ofVarChunk y ih => exact ih h hx
  | ofNameTy y ih => exact ih h fun x hf => absurd (Ast.freeUses_of_isType rfl) hf
  | recordTy _ _ ih | arrayTy _ _ ih | field _ _ _ ih | typeDec _ _ _ ih | typeChunk _ _ ih =>
    exact ⟨trivial, ih h.2 fun x hf => absurd (Ast.freeUses_of_isType rfl) hf⟩
  | fieldVar _ _ _ ih | callExp _ _ _ ih | seqExp _ _ ih | fieldInit _ _ _ ih | varChunk _ _ ih
  | chunkList _ _ ih => exact ⟨trivial, ih h.2 hx⟩
  | functionChunk a ds ih =>
    refine ⟨trivial, ih h.2 fun x hf => ?_⟩
    rw [(putFuns_vars _).1, (putFuns_vars _).2]
    exact hx x hf
  | subscriptVar _ _ _ ih₁ ih₂ | opExp _ _ _ _ ih₁ ih₂ | assignExp _ _ _ ih₁ ih₂
  | whileExp _ _ _ ih₁ ih₂ =>
    refine ⟨trivial, ih₁ h.2.1 fun x hf => hx x ?_, ih₂ h.2.2 fun x hf => hx x ?_⟩ <;>
      simp [Ast.freeUses, hf]
  | recordExp _ _ _ ih₁ ih₂ =>
    exact ⟨trivial, ih₁ h.2.1 fun x hf => absurd (Ast.freeUses_of_isType rfl) hf, ih₂ h.2.2 hx⟩
  | castExp _ _ _ ih₁ ih₂ =>
    exact ⟨trivial, ih₁ h.2.1 hx, ih₂ h.2.2 fun x hf => absurd (Ast.freeUses_of_isType rfl) hf⟩
  | arrayExp _ _ _ _ ih₁ ih₂ ih₃ =>
    refine ⟨trivial, ih₁ h.2.1 fun x hf => absurd (Ast.freeUses_of_isType rfl) hf,
      ih₂ h.2.2.1 fun x hf => hx x ?_, ih₃ h.2.2.2 fun x hf => hx x ?_⟩ <;>
      simp [Ast.freeUses, hf]
  | ifExp _ _ _ _ ih₁ ih₂ ih₃ =>
    refine ⟨trivial, ih₁ h.2.1 fun x hf => hx x ?_, ih₂ h.2.2.1 fun x hf => hx x ?_,
      ih₃ h.2.2.2 fun x hf => hx x ?_⟩ <;>
      simp [Ast.freeUses, hf]
  | cons y ys ih₁ ih₂ =>
    refine ⟨ih₁ h.1 fun x hf => hx x ?_, ih₂ h.2 fun x hf => after_agree fun hn => hx x ?_⟩
    · simp [Ast.freeUses, hf]
    · simp [Ast.freeUses, hf, hn]
  | letExp a cs body ih₁ ih₂ =>
    refine ⟨trivial, ih₁ h.2.1 fun x hf => hx x ?_,
      ih₂ h.2.2 fun x hf => after_agree fun hn => hx x ?_⟩
    · simp [Ast.freeUses, hf]
    · simp [Ast.freeUses, hf, hn]
  | functionDec a y fs r body ih₁ ih₂ ih₃ =>
    refine ⟨trivial, ih₁ h.2.1 fun x hf => hx x ?_,
      ih₂ h.2.2.1 fun x hf => absurd (Ast.freeUses_of_isType rfl) hf,
      ih₃ h.2.2.2 fun x hf => after_agree fun hn => hx x ?_⟩
    · simp [Ast.freeUses, hf]
    · simp [Ast.freeUses, hf, hn]
  | varDec a y n i ihn ihi =>
    -- the name itself has no free use, and any other name is as visible as before
    have hy (x : Symbol) (hf : i.freeUses x ≠ []) : x ≠ y := fun e => hf (e ▸ h.1)
    refine ⟨trivial, ihn h.2.1 fun x hf => absurd (Ast.freeUses_of_isType rfl) hf,
      ihi h.2.2 fun x hf => ?_⟩
    rw [putEarly_early, if_neg (hy x hf)]
    exact hx x hf
  | forExp a d hi body ihd ihh ihb =>
    have hd (x : Symbol) (hf : hi.freeUses x ≠ []) : x ≠ d.varName := fun e => hf (e ▸ h.1)
    refine ⟨trivial, ihd h.2.1 fun x hf => hx x ?_, ihh h.2.2.1 fun x hf => ?_,
      ihb h.2.2.2 fun x hf => after_agree fun hn => hx x ?_⟩
    · simp [Ast.freeUses, hf]
    · rw [putEarly_early, if_neg (hd x hf)]
      exact hx x (by simp [Ast.freeUses, hf])
    · simp [Ast.freeUses, hf, hn]

/-! ## The whole program -/

/-- Where every use follows the scope, no initialiser has a free use of the variable it declares:
the Binder would have bound it to that variable, which is in no scope yet. -/
theorem noOwnUse_of_followsScope {t : Ast Addr k} (ho : OutOfScope ρ t)
    (hb : ρ.Everywhere (BoundEarly f) t) (h : FollowsScope f ρ t) : NoOwnUse ρ t := by
  cases t with
  | varDec a x n i =>
    refine List.eq_nil_iff_forall_not_mem.mpr fun u hu => ?_
    obtain ⟨d, hd, hf⟩ := h u hu
    have hd' := ho x d hd
    rcases def_of_freeUse hb.2.2 hu with h' | h' | ⟨e, he, h'⟩
    · simp [h'] at hf
    · rw [putEarly_early, if_pos rfl, hf, Option.some_inj] at h'
      exact hd' (by simp [h', Ast.nodes])
    · rw [hf, Option.some_inj] at h'
      exact hd' (by simp [h', he, Ast.nodes])
  | forExp a v hi body =>
    refine List.eq_nil_iff_forall_not_mem.mpr fun u hu => ?_
    obtain ⟨d, hd, hf⟩ := h u hu
    have hd' := ho _ d hd
    rcases def_of_freeUse hb.2.2.1 hu with h' | h' | ⟨e, he, h'⟩
    · simp [h'] at hf
    · rw [putEarly_early, if_pos rfl, hf, Option.some_inj] at h'
      exact hd' (by simp [h', Ast.nodes, Ast.varAddr_mem_nodes])
    · rw [hf, Option.some_inj] at h'
      exact hd' (by simp [h', he, Ast.nodes])
  | _ => trivial

theorem followsScope_of_noOwnUse {t : Ast Addr k} (hs : SameRule ρ t) (hb : BoundEarly f ρ t)
    (h : NoOwnUse ρ t) : FollowsScope f ρ t := by
  cases t with
  | simpleVar a x =>
    intro d hd
    rcases hb with hb | hb
    · simp [hb] at hd
    · rw [← show ρ.early x = ρ.vars x from hs, ← hb, hd]
  | varDec a x n i =>
    intro u hu
    rw [show i.freeUses x = [] from h] at hu
    simp at hu
  | forExp a v hi body =>
    intro u hu
    rw [show hi.freeUses v.varName = [] from h] at hu
    simp at hu
  | _ => trivial

/-- The uses of an accepted program follow the scope of the variables exactly when no
initialiser and no high bound uses the name being declared. -/
theorem followsScope_iff_noOwnUse {program : Ast Addr .chunkList} {b : Binder}
    (hn : program.nodes.Nodup) (h : bind program = .ok b) :
    ({} : Scope).Everywhere (FollowsScope b.defs) program ↔
      ({} : Scope).Everywhere NoOwnUse program := by
  have hb := (reached_of_bind hn h).imp fun _ _ _ => Reached.boundEarly
  have ho := outOfScope (ρ := {}) hn fun _ _ h => nomatch h
  constructor
  · intro hf
    exact (ho.imp₂ (fun _ _ _ => And.intro) hb.everywhere).imp₂
      (fun _ _ _ h => noOwnUse_of_followsScope h.1 h.2) hf
  · intro hu
    have hs := sameRule_of_noOwnUse hu fun _ _ => rfl
    exact (hs.imp₂ (fun _ _ _ => And.intro) hb).imp₂
      (fun _ _ _ h => followsScope_of_noOwnUse h.1 h.2) hu

/-- `let var a := 0 in let var a := a in a end end` as a program. -/
def shadowedByItself : Ast Addr .chunkList :=
  .chunkList 0 (.ofList [.functionChunk 1 (.ofList [.functionDec 2 "_main".toList
    (.varChunk 3 .nil) .none (.some (.seqExp 4 (.ofList [
      .letExp 5
        (.chunkList 6 (.ofList [.ofVarChunk (.varChunk 7 (.ofList [
          .varDec 8 "a".toList .none (.some (.intExp 9 0))]))]))
        (.seqExp 10 (.ofList [.letExp 11
          (.chunkList 12 (.ofList [.ofVarChunk (.varChunk 13 (.ofList [
            .varDec 14 "a".toList .none (.some (.ofVar (.simpleVar 15 "a".toList)))]))]))
          (.seqExp 16 (.ofList [.ofVar (.simpleVar 17 "a".toList)]))])),
      .seqExp 18 .nil])))])])

/-- The inner `a` of `shadowedByItself` is initialised with itself, not with the outer one. -/
theorem not_followsScope_of_accepted :
    ¬ ∀ (program : Ast Addr .chunkList) (b : Binder), program.nodes.Nodup →
      bind program = .ok b → ({} : Scope).Everywhere (FollowsScope b.defs) program := by
  intro h
  have hb : (bind shadowedByItself).toOption.map (fun b => b.defs 15) = some (some 14) := by decide
  cases hp : bind shadowedByItself with
  | error e => simp [hp, Except.toOption] at hb
  | ok b =>
    have hc := h shadowedByItself b (by decide) hp
    simp only [hp, Except.toOption, Option.map_some, Option.some.injEq] at hb
    simp [shadowedByItself, Ast.ofList, Everywhere, FollowsScope, Ast.freeUses, after, Scope.putVar,
      putEarly, hb] at hc

/-- The `Binder` gives `usedInBody` the scopes of the language. -/
theorem usedInBody_followsScope : ∃ b, bind usedInBody = .ok b ∧
    ({} : Scope).Everywhere (FollowsScope b.defs) usedInBody := by
  obtain ⟨b, hb⟩ := exists_eq_ok (x := bind usedInBody) (by decide)
  refine ⟨b, hb, (followsScope_iff_noOwnUse (by decide) hb).mpr ?_⟩
  simp [usedInBody, Ast.ofList, Everywhere, NoOwnUse, Ast.freeUses]

end Binder

end TigerCompiler
