import TigerCompiler.Bind.Breaks
import Mathlib.Data.List.Induction

/-!
# Redeclarations

Two declarations of one chunk, or two formals, may not share a name, while a declaration may hide
one which is visible from outside its chunk.  The `Binder` looks for the names of the functions
and of the types of a chunk in all the open scopes, and goes over the formals with a loop of its
own, past the test of `operator()(VarChunk)`: what it reports is compared here with the rule.
-/

namespace TigerCompiler

namespace Binder

variable {k : Kind} {ρ : Scope} {σ : LoopScope} {b b' : Binder}

/-! ## The rule -/

/-- The names of the declarations of a chunk are different; the formals of a function are a chunk
of variables. -/
def Distinct ⦃k : Kind⦄ (_ : Scope) : Ast Addr k → Prop
  | .varChunk _ ds => (ds.toList.map Ast.varName).Nodup
  | .functionChunk _ ds => (ds.toList.map Ast.functionName).Nodup
  | .typeChunk _ ds => (ds.toList.map Ast.typeName).Nodup
  | _ => True

/-- The program is correct as far as the names that are used and the `break`s go. -/
structure OtherwiseCorrect (program : Ast Addr .chunkList) : Prop where
  declared : ∃ f, ({} : Scope).Everywhere (LexicallyBound f) program
  breaks : AllInLoops program

/-- Two types of a chunk, two functions of a chunk or two formals share a name. -/
def HasDuplicate (program : Ast Addr .chunkList) : Prop :=
  ¬ ({} : Scope).Everywhere Distinct program

/-- The run ends with the error for a name declared twice. -/
def ReportsDuplicate (program : Ast Addr .chunkList) : Prop :=
  ∃ e, bind program = .error e ∧ IsDuplicate e

/-- The functions and the types of a chunk, taken in turn in the state `b`: one is rejected when
an earlier one of the chunk has its name, and only then. -/
def RejectsRepeated ⦃k : Kind⦄ (_ : LoopScope) (b : Binder) : Ast Addr k → Prop
  | .functionChunk _ ds => ∀ ds₁ d ds₂, ds.toList = ds₁ ++ d :: ds₂ →
    ∀ b', b.putFunctions ds₁ = .ok b' →
      ((∃ e, b'.putFunctions [d] = .error e) ↔ d.functionName ∈ ds₁.map Ast.functionName)
  | .typeChunk _ ds => ∀ ds₁ d ds₂, ds.toList = ds₁ ++ d :: ds₂ →
    ∀ b', b.putTypes ds₁ = .ok b' →
      ((∃ e, b'.putTypes [d] = .error e) ↔ d.typeName ∈ ds₁.map Ast.typeName)
  | _ => True

/-- A use that is visited refers to the innermost declaration of its name. -/
def Innermost (f : Addr → Option Addr) ⦃k : Kind⦄ (ρ : Scope) : Ast Addr k → Prop
  | .simpleVar a x => ρ.aside = false → f a = ρ.early x
  | .callExp a x _ => ρ.aside = false → f a = ρ.funs x
  | .nameTy a x => ρ.aside = false → f a = ρ.types x
  | _ => True

/-- A duplicate is reported when there is one, and only then; no declaration is rejected for one
that it hides; and each declaration of an accepted program hides those of the same name. -/
structure FollowsRule (program : Ast Addr .chunkList) : Prop where
  reports : ReportsDuplicate program ↔ HasDuplicate program
  accepts : Along RejectsRepeated {} {} program .accept
  hides : ∀ b, bind program = .ok b → ({} : Scope).Everywhere (Innermost b.defs) program

/-! ## Names that hide others -/

section Names

variable {visible : Symbol → Option Addr} {xs : List Symbol} {x : Symbol}

/-- The first name that is repeated or visible, if there is one, is repeated. -/
def RepeatsFirst (visible : Symbol → Option Addr) (xs : List Symbol) : Prop :=
  ∀ xs₁ x xs₂, xs = xs₁ ++ x :: xs₂ → Fresh visible xs₁ → visible x = none

theorem fresh_append_singleton :
    Fresh visible (xs ++ [x]) ↔ Fresh visible xs ∧ x ∉ xs ∧ visible x = none := by
  simp only [Fresh, List.nodup_append, List.nodup_singleton, List.forall_mem_append,
    List.forall_mem_singleton]
  grind

theorem Fresh.repeatsFirst (h : Fresh visible xs) : RepeatsFirst visible xs := by
  rintro xs₁ x xs₂ rfl -
  exact h.2 x (List.mem_append_right _ List.mem_cons_self)

theorem RepeatsFirst.fresh (h : RepeatsFirst visible xs) (hn : xs.Nodup) : Fresh visible xs := by
  refine ⟨hn, ?_⟩
  induction xs using List.reverseRecOn with
  | nil => simp
  | append_singleton xs x ih =>
    have hxs : RepeatsFirst visible xs := by
      rintro xs₁ y xs₂ rfl hy
      exact h xs₁ y (xs₂ ++ [x]) (by simp) hy
    have hfresh : Fresh visible xs := ⟨hn.of_append_left, ih hxs hn.of_append_left⟩
    exact List.forall_mem_append.mpr
      ⟨hfresh.2, List.forall_mem_singleton.mpr (h xs x [] rfl hfresh)⟩

/-- After fresh names, one is refused for being repeated exactly when none is hidden. -/
theorem refused_iff_repeated (h : Fresh visible xs) :
    (¬ Fresh visible (xs ++ [x]) ↔ x ∈ xs) ↔ visible x = none := by
  rw [fresh_append_singleton]
  have hx : x ∈ xs → visible x = none := h.2 x
  tauto

end Names

/-- The first name of a chunk of functions or types that is repeated or visible is repeated. -/
def RepeatedFirst ⦃k : Kind⦄ (ρ : Scope) : Ast Addr k → Prop
  | .functionChunk _ ds => RepeatsFirst ρ.funs (ds.toList.map Ast.functionName)
  | .typeChunk _ ds => RepeatsFirst ρ.types (ds.toList.map Ast.typeName)
  | _ => True

/-- Whether a node is a chunk. -/
def IsChunk ⦃k : Kind⦄ : Ast Addr k → Prop
  | .varChunk _ _ | .functionChunk _ _ | .typeChunk _ _ => True
  | _ => False

/-! ## What the `Binder` looks for -/

theorem putFunctions_append (ds₁ ds₂ : List (Ast Addr .functionDec)) :
    b.putFunctions (ds₁ ++ ds₂) = b.putFunctions ds₁ >>= fun b' => b'.putFunctions ds₂ := by
  induction ds₁ generalizing b with
  | nil => rfl
  | cons d ds₁ ih =>
    rw [List.cons_append, putFunctions, putFunctions, bind_assoc]
    exact bind_congr fun b' => ih

theorem putTypes_append (ds₁ ds₂ : List (Ast Addr .typeDec)) :
    b.putTypes (ds₁ ++ ds₂) = b.putTypes ds₁ >>= fun b' => b'.putTypes ds₂ := by
  induction ds₁ generalizing b with
  | nil => rfl
  | cons d ds₁ ih =>
    rw [List.cons_append, putTypes, putTypes]
    split
    case isTrue => rfl
    case isFalse =>
      rw [bind_assoc]
      exact bind_congr fun b' => ih

/-- A loop over the declarations of a chunk that stops at the first name which is not fresh. -/
structure Refuses {δ : Type} (name : δ → Symbol) (visible : Symbol → Option Addr)
    (put : Binder → List δ → Except Stop Binder) (b : Binder) : Prop where
  append : ∀ ds₁ ds₂, put b (ds₁ ++ ds₂) = put b ds₁ >>= fun b' => put b' ds₂
  ends : ∀ ds, Ends (fun e => ¬ Fresh visible (ds.map name) ∧ IsDuplicate e)
    (fun b' => Fresh visible (ds.map name) ∧ Open b') (put b ds)

namespace Refuses

variable {δ : Type} {name : δ → Symbol} {visible : Symbol → Option Addr}
  {put : Binder → List δ → Except Stop Binder}

theorem ok_iff (h : Refuses name visible put b) (ds : List δ) :
    (∃ b', put b ds = .ok b') ↔ Fresh visible (ds.map name) := by
  have hends := h.ends ds
  cases hp : put b ds with
  | error e =>
    rw [hp] at hends
    refine ⟨?_, fun hf => absurd hf hends.1⟩
    rintro ⟨b', ⟨⟩⟩
  | ok b' =>
    rw [hp] at hends
    exact ⟨fun _ => hends.1, fun _ => ⟨b', rfl⟩⟩

/-- After `ds`, the next declaration is refused when its name is not fresh. -/
theorem error_iff (h : Refuses name visible put b) {ds : List δ} {d : δ}
    (hb : put b ds = .ok b') :
    (∃ e, put b' [d] = .error e) ↔ ¬ Fresh visible (ds.map name ++ [name d]) := by
  have happend := h.append ds [d]
  rw [hb, ok_bind] at happend
  have hfresh := h.ok_iff (ds ++ [d])
  rw [List.map_append, List.map_singleton] at hfresh
  rw [← hfresh, ← happend]
  cases put b (ds ++ [d]) <;> simp

/-- Only repeated names are refused exactly when the first one to be refused is repeated. -/
theorem repeated_iff (h : Refuses name visible put b) (ds : List δ) :
    (∀ ds₁ d ds₂, ds = ds₁ ++ d :: ds₂ → ∀ b', put b ds₁ = .ok b' →
      ((∃ e, put b' [d] = .error e) ↔ name d ∈ ds₁.map name)) ↔
      RepeatsFirst visible (ds.map name) := by
  constructor
  · intro hr xs₁ x xs₂ heq hf
    obtain ⟨ds₁, ds', rfl, rfl, hds'⟩ := List.map_eq_append_iff.mp heq
    obtain ⟨d, ds₂, rfl, rfl, -⟩ := List.map_eq_cons_iff.mp hds'
    obtain ⟨b', hb'⟩ := (h.ok_iff ds₁).mpr hf
    apply (refused_iff_repeated hf).mp
    rw [← h.error_iff hb']
    exact hr ds₁ d ds₂ rfl b' hb'
  · intro hr ds₁ d ds₂ heq b' hb'
    have hf := (h.ok_iff ds₁).mp ⟨b', hb'⟩
    rw [h.error_iff hb']
    apply (refused_iff_repeated hf).mpr
    exact hr (ds₁.map name) (name d) (ds₂.map name) (by simp [heq]) hf

end Refuses

/-- What the rule asks of a state is told by the declarations around the chunk. -/
theorem agree_rejectsRepeated : Agree RejectsRepeated fun s => RepeatedFirst s.scope s.node := by
  intro k ρ σ b t h
  cases t with
  | functionChunk a ds =>
    have hv : b.mapFundec.get = ρ.funs := h.funs.symm
    have hr : Refuses Ast.functionName ρ.funs putFunctions b :=
      ⟨putFunctions_append, fun ds => hv ▸ putFunctions_spec h.isOpen ds⟩
    exact hr.repeated_iff ds.toList
  | typeChunk a ds =>
    have hv : b.mapTypedec.get = ρ.types := h.types.symm
    have hr : Refuses Ast.typeName ρ.types putTypes b :=
      ⟨putTypes_append, fun ds => hv ▸ putTypes_spec h.isOpen ds⟩
    exact hr.repeated_iff ds.toList
  | _ => exact Iff.rfl

theorem Reached.innermost {f : Addr → Option Addr} (t : Ast Addr k) (h : Reached f ρ t) :
    Innermost f ρ t := by
  unfold Reached at h
  split at h
  case isTrue ha =>
    have hne : ¬ ρ.aside = false := by simp [ha]
    cases t with
    | simpleVar | callExp | nameTy => exact fun h => absurd h hne
    | _ => trivial
  case isFalse ha =>
    obtain ⟨w, b, b', hv, hw⟩ := h
    cases t with
    | simpleVar a x =>
      intro _
      obtain ⟨d, hd, rfl⟩ := useVar_eq_ok.mp hv
      rw [hw.defs a (by simp [Ast.nodes]), hw.early, defs_defSet]
      exact hd.symm
    | callExp a x args =>
      intro _
      simp only [visit, bind_eq_ok] at hv
      obtain ⟨b₁, h₁, hv⟩ := hv
      obtain ⟨d, hd, rfl⟩ := useFunction_eq_ok.mp h₁
      have ha : a ∉ args.nodes := (List.nodup_cons.mp hw.nodup).1
      rw [hw.defs a (by simp [Ast.nodes]), hw.funs, (visit_effect hv).frame a ha, defs_defSet]
      exact hd.symm
    | nameTy a x =>
      intro _
      obtain ⟨-, rfl⟩ := useType_eq_ok.mp hv
      rw [hw.defs a (by simp [Ast.nodes]), hw.types, defs_defSet]
      rfl
    | _ => trivial

/-- A place where the `Binder` goes is a node of the tree in its scope. -/
theorem forall_sites {Q : ⦃k : Kind⦄ → Scope → Ast Addr k → Prop} {t : Ast Addr k} {w : Walk}
    (h : ρ.Everywhere Q t) : ∀ s ∈ sites ρ σ t w, Q s.scope s.node := by
  induction t generalizing ρ σ w with
  | simpleVar | nameTy | breakExp =>
    intro s hs
    cases List.mem_singleton.mp hs
    exact h
  | typeChunk =>
    intro s hs
    cases List.mem_singleton.mp hs
    exact h.1
  | nil | none | nilExp | intExp | stringExp | typeDec => exact List.forall_mem_nil _
  | some _ ih | ofVar _ ih | ofNameTy _ ih | ofVarChunk _ ih => exact ih h
  | fieldVar _ _ _ ih | seqExp _ _ ih | recordTy _ _ ih | arrayTy _ _ ih | field _ _ _ ih
  | fieldInit _ _ _ ih | chunkList _ _ ih => exact ih h.2
  | callExp _ _ _ ih | functionChunk _ _ ih => exact List.forall_mem_cons.mpr ⟨h.1, ih h.2⟩
  | cons _ _ ih₁ ih₂ => exact List.forall_mem_append.mpr ⟨ih₁ h.1, ih₂ h.2⟩
  | subscriptVar _ _ _ ih₁ ih₂ | opExp _ _ _ _ ih₁ ih₂ | recordExp _ _ _ ih₁ ih₂
  | assignExp _ _ _ ih₁ ih₂ | letExp _ _ _ ih₁ ih₂ | castExp _ _ _ ih₁ ih₂
  | varDec _ _ _ _ ih₁ ih₂ => exact List.forall_mem_append.mpr ⟨ih₁ h.2.1, ih₂ h.2.2⟩
  | whileExp _ _ _ _ ih => exact ih h.2.2
  | ifExp _ _ _ _ ih₁ ih₂ ih₃ | forExp _ _ _ _ ih₁ ih₂ ih₃ | arrayExp _ _ _ _ ih₁ ih₂ ih₃ =>
    exact List.forall_mem_append.mpr
      ⟨ih₁ h.2.1, List.forall_mem_append.mpr ⟨ih₂ h.2.2.1, ih₃ h.2.2.2⟩⟩
  | functionDec _ _ _ _ _ ih₁ _ ih₂ =>
    exact List.forall_mem_append.mpr ⟨ih₁ h.2.1, ih₂ h.2.2.2⟩
  | varChunk _ _ ih =>
    cases w
    case elements => exact ih h.2
    all_goals exact List.forall_mem_cons.mpr ⟨h.1, ih h.2⟩

/-! ## The whole program -/

/-- The first check that fails is that of the chunk `s`. -/
def StopsAtChunk (program : Ast Addr .chunkList) (s : Site) : Prop :=
  checks.StopsAt (allSites program) s ∧ IsChunk s.node

/-- Duplicates are what is reported at the chunks. -/
theorem Reports.isDuplicate_iff {t : Ast Addr k} {e : Stop} (h : Reports t e) :
    IsDuplicate e ↔ IsChunk t := by
  cases t with
  | varChunk | functionChunk | typeChunk => exact iff_of_true h trivial
  | breakExp =>
    refine iff_of_false ?_ id
    rintro ⟨x, hx⟩
    rcases h with rfl | rfl <;> simp [TigerCompiler.bindError] at hx
  | simpleVar | callExp | nameTy =>
    refine iff_of_false ?_ id
    rintro ⟨x, hx⟩
    obtain ⟨y, rfl | rfl | rfl⟩ := h <;> simp [TigerCompiler.bindError] at hx
  | _ => cases h

/-- A chunk that has no name twice and whose first name to be refused is repeated passes. -/
theorem passes_of_distinct {t : Ast Addr k} (hr : RepeatedFirst ρ t) (hd : Distinct ρ t)
    (hc : IsChunk t) : Passes ρ σ t := by
  cases t with
  | varChunk => exact hd
  | functionChunk | typeChunk => exact RepeatsFirst.fresh hr hd
  | _ => cases hc

theorem repeatedFirst_of_passes {t : Ast Addr k} (h : Passes ρ σ t) : RepeatedFirst ρ t := by
  cases t with
  | functionChunk | typeChunk => exact Fresh.repeatsFirst h
  | _ => trivial

theorem repeatedFirst_of_not_isChunk {t : Ast Addr k} (h : ¬ IsChunk t) : RepeatedFirst ρ t := by
  cases t with
  | functionChunk | typeChunk => exact absurd trivial h
  | _ => trivial

theorem reportsDuplicate_iff (program : Ast Addr .chunkList) :
    ReportsDuplicate program ↔ ∃ s, StopsAtChunk program s := by
  have hmakes := makes_bind agree_rejectsRepeated program
  constructor
  · rintro ⟨e, he, hdup⟩
    obtain ⟨s, hs, hgives⟩ := hmakes.error e he
    exact ⟨s, hs, (Reports.isDuplicate_iff hgives).mp hdup⟩
  · rintro ⟨s, hs, hc⟩
    cases hb : bind program with
    | ok b => exact absurd (hmakes.ok b hb).1 hs.not_allPass
    | error e =>
      obtain ⟨s', hs', hgives⟩ := hmakes.error e hb
      cases hs.unique hs'
      exact ⟨e, hb, (Reports.isDuplicate_iff hgives).mpr hc⟩

/-- A failing chunk whose first name to be refused is repeated has a duplicate. -/
theorem hasDuplicate_of_stopsAtChunk {program : Ast Addr .chunkList} {s : Site}
    (hs : StopsAtChunk program s) (hr : RepeatedFirst s.scope s.node) : HasDuplicate program := by
  intro hd
  have hdistinct : Distinct s.scope s.node := forall_sites hd s hs.1.1.mem
  exact hs.1.2 (passes_of_distinct hr hdistinct hs.2)

/-- **The `Binder` follows the rule on a program exactly when the first check that fails is that
of a chunk and fails for a name that is repeated in it, or is no check of a chunk while the program
has no duplicate.** -/
theorem followsRule_iff {program : Ast Addr .chunkList} (hn : program.nodes.Nodup) :
    FollowsRule program ↔
      (∃ s, StopsAtChunk program s ∧ RepeatedFirst s.scope s.node) ∨
        (∀ s, ¬ StopsAtChunk program s) ∧ ¬ HasDuplicate program := by
  have halong := (makes_bind agree_rejectsRepeated program).along
  have hreports := reportsDuplicate_iff program
  constructor
  · intro h
    by_cases hstops : ∃ s, StopsAtChunk program s
    · obtain ⟨s, hs⟩ := hstops
      exact .inl ⟨s, hs, halong.mp h.accepts s hs.1.1⟩
    · refine .inr ⟨fun s hs => hstops ⟨s, hs⟩, fun hdup => hstops ?_⟩
      exact hreports.mp (h.reports.mpr hdup)
  · intro h
    refine ⟨?_, halong.mpr fun s hs => ?_, fun b hb => ?_⟩
    · rw [hreports]
      rcases h with ⟨s, hs, hr⟩ | ⟨hnone, hdup⟩
      · exact iff_of_true ⟨s, hs⟩ (hasDuplicate_of_stopsAtChunk hs hr)
      · refine iff_of_false ?_ hdup
        rintro ⟨s, hs⟩
        exact hnone s hs
    · by_cases hp : checks.passes s
      · exact repeatedFirst_of_passes hp
      · rcases h with ⟨s', hs', hr⟩ | ⟨hnone, -⟩
        · cases hs'.1.unique ⟨hs, hp⟩
          exact hr
        · exact repeatedFirst_of_not_isChunk fun hc => hnone s ⟨⟨hs, hp⟩, hc⟩
    · exact (reached_of_bind hn hb).imp fun _ _ t ht => ht.innermost t

/-- `let type a = int var x : a := 1 function f(x : a) : a = x in
(let type b = a var x : b := f(2) in x end; let type b = string in x end) end` as a program: the
formal and the variable of the inner `let` hide the first `x`. -/
def hidingVariables : Ast Addr .chunkList :=
  .chunkList 0 (.ofList [.functionChunk 1 (.ofList [.functionDec 2 "_main".toList
    (.varChunk 3 .nil) .none (.some (.seqExp 4 (.ofList [
      .letExp 5
        (.chunkList 6 (.ofList [
          .typeChunk 7 (.ofList [.typeDec 8 "a".toList (.ofNameTy (.nameTy 9 "int".toList))]),
          .ofVarChunk (.varChunk 10 (.ofList [
            .varDec 11 "x".toList (.some (.nameTy 12 "a".toList)) (.some (.intExp 13 1))])),
          .functionChunk 14 (.ofList [.functionDec 15 "f".toList
            (.varChunk 16 (.ofList [
              .varDec 17 "x".toList (.some (.nameTy 18 "a".toList)) .none]))
            (.some (.nameTy 19 "a".toList)) (.some (.ofVar (.simpleVar 20 "x".toList)))])]))
        (.seqExp 21 (.ofList [
          .letExp 22
            (.chunkList 23 (.ofList [
              .typeChunk 24 (.ofList [.typeDec 25 "b".toList (.ofNameTy (.nameTy 26 "a".toList))]),
              .ofVarChunk (.varChunk 27 (.ofList [
                .varDec 28 "x".toList (.some (.nameTy 29 "b".toList))
                  (.some (.callExp 30 "f".toList (.ofList [.intExp 31 2])))]))]))
            (.seqExp 32 (.ofList [.ofVar (.simpleVar 33 "x".toList)])),
          .letExp 34
            (.chunkList 35 (.ofList [.typeChunk 36 (.ofList [
              .typeDec 37 "b".toList (.ofNameTy (.nameTy 38 "string".toList))])]))
            (.seqExp 39 (.ofList [.ofVar (.simpleVar 40 "x".toList)]))])),
      .seqExp 41 .nil])))])])

theorem hidingVariables_followsRule : FollowsRule hidingVariables := by
  refine (followsRule_iff (by decide)).mpr (.inr ⟨fun s hs => hs.1.not_allPass ?_, ?_⟩)
  · simp [Checks.AllPass, checks, allSites, hidingVariables, Ast.ofList, sites, Passes, Fresh,
      Scope.after, Scope.putVar, Scope.putFuns, Scope.putFun, Scope.putTypes, Scope.putType,
      Scope.putEarly, Ast.functionName, Ast.functionAddr, Ast.typeName, Ast.typeAddr, Ast.varName,
      Function.update_apply, Symbol.isBuiltin]
  · simp [HasDuplicate, hidingVariables, Ast.ofList, Scope.Everywhere, Distinct, Ast.functionName,
      Ast.typeName, Ast.varName]

/-- `let type a = int in let type a = string in 0 end end` as a program. -/
def localAndGlobalType : Ast Addr .chunkList :=
  .chunkList 0 (.ofList [.functionChunk 1 (.ofList [.functionDec 2 "_main".toList
    (.varChunk 3 .nil) .none (.some (.seqExp 4 (.ofList [
      .letExp 5
        (.chunkList 6 (.ofList [.typeChunk 7 (.ofList [
          .typeDec 8 "a".toList (.ofNameTy (.nameTy 9 "int".toList))])]))
        (.seqExp 10 (.ofList [.letExp 11
          (.chunkList 12 (.ofList [.typeChunk 13 (.ofList [
            .typeDec 14 "a".toList (.ofNameTy (.nameTy 15 "string".toList))])]))
          (.seqExp 16 (.ofList [.intExp 17 0]))])),
      .seqExp 18 .nil])))])])

/-- A type that hides another one is reported as a duplicate. -/
theorem not_followsRule :
    ¬ ∀ program : Ast Addr .chunkList, program.nodes.Nodup → OtherwiseCorrect program →
      FollowsRule program := by
  intro h
  have hrule := h localAndGlobalType (by decide) ⟨⟨fun _ => none, by
    simp [localAndGlobalType, Ast.ofList, Scope.Everywhere, LexicallyBound, Scope.after,
      Scope.putTypes, Scope.putType, Scope.putFuns, Scope.putFun, Scope.putAside, Ast.functionName,
      Ast.functionAddr, Ast.typeName, Ast.typeAddr, Symbol.isBuiltin]⟩, by
    simp [AllInLoops, localAndGlobalType, Ast.ofList, Ast.EveryBreak]⟩
  have hr := (makes_bind agree_rejectsRepeated localAndGlobalType).along.mp hrule.accepts
  simp [allSites, localAndGlobalType, Ast.ofList, sites, checks, Passes, Fresh, RepeatedFirst,
    Scope.after, Scope.putTypes, Scope.putType, Scope.putFuns, Scope.putFun, Ast.functionName,
    Ast.typeName] at hr
  have hhidden := hr.2.2 [] "a".toList [] rfl ⟨List.nodup_nil, List.forall_mem_nil _⟩
  simp at hhidden

end Binder

end TigerCompiler
