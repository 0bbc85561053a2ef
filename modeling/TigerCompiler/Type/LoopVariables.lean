import TigerCompiler.Type.Runs

/-!
# Variables of loops

Which assignments of a program are reported as updates of a variable that is read-only.
-/

namespace TigerCompiler

open TypeChecker

theorem varAddr_mem_of_forExp {a : Addr} {v : Ast Addr .varDec} {hi b : Ast Addr .exp} {k : Kind}
    {t : Ast Addr k} (h : ⟨.exp, .forExp a v hi b⟩ ∈ t.subterms) : v.varAddr ∈ t.nodes :=
  Ast.nodes_subset h (by simp [Ast.nodes, Ast.varAddr_mem_nodes])

theorem varAddr_mem_of_varChunk {c : Addr} {d : Ast Addr .varDec} {ds : Ast Addr (.list .varDec)}
    {k : Kind} {t : Ast Addr k} (h : ⟨.varChunk, .varChunk c ds⟩ ∈ t.subterms)
    (hd : d ∈ ds.toList) : d.varAddr ∈ t.nodes :=
  Ast.nodes_subset h (.tail _ (Ast.nodes_subset (Ast.mem_subterms_of_mem hd) d.varAddr_mem_nodes))

/-- The variable of a loop in an element of a chunk of variables is none of them. -/
theorem varAddr_ne_of_mem {a : Addr} {v d : Ast Addr .varDec} {hi b : Ast Addr .exp} :
    (ds : Ast Addr (.list .varDec)) → ds.nodes.Nodup → d ∈ ds.toList →
    ⟨.exp, .forExp a v hi b⟩ ∈ ds.subterms → v.varAddr ≠ d.varAddr
  | .nil, _, hd, _ => by cases hd
  | .cons (.varDec e x t i) ds, hn, hd, hf => by
    simp only [Ast.nodes, List.nodup_append, List.nodup_cons] at hn
    simp only [Ast.toList_cons, List.mem_cons] at hd
    have ht (h : ⟨.exp, .forExp a v hi b⟩ ∈ t.subterms) := varAddr_mem_of_forExp h
    have hi' (h : ⟨.exp, .forExp a v hi b⟩ ∈ i.subterms) := varAddr_mem_of_forExp h
    have hds (h : ⟨.exp, .forExp a v hi b⟩ ∈ ds.subterms) := varAddr_mem_of_forExp h
    have hmem (h : d ∈ ds.toList) : d.varAddr ∈ ds.nodes :=
      Ast.nodes_subset (Ast.mem_subterms_of_mem h) d.varAddr_mem_nodes
    have ih (hd : d ∈ ds.toList) (hf : ⟨.exp, .forExp a v hi b⟩ ∈ ds.subterms) :
        v.varAddr ≠ d.varAddr := varAddr_ne_of_mem ds hn.2.1 hd hf
    simp only [Ast.subterms, List.mem_cons, List.mem_append] at hf
    grind [Ast.varAddr]

/-- The variable of a loop is not declared in a chunk too. -/
theorem varAddr_ne {a c : Addr} {v d : Ast Addr .varDec} {hi b : Ast Addr .exp}
    {ds : Ast Addr (.list .varDec)} {k : Kind} {t : Ast Addr k} (hn : t.nodes.Nodup)
    (hf : ⟨.exp, .forExp a v hi b⟩ ∈ t.subterms) (hc : ⟨.varChunk, .varChunk c ds⟩ ∈ t.subterms)
    (hd : d ∈ ds.toList) : v.varAddr ≠ d.varAddr := by
  have hv {j : Kind} {t : Ast Addr j} (h : ⟨.exp, .forExp a v hi b⟩ ∈ t.subterms) :
      v.varAddr ∈ t.nodes := varAddr_mem_of_forExp h
  have hw {j : Kind} {t : Ast Addr j} (h : ⟨.varChunk, .varChunk c ds⟩ ∈ t.subterms) :
      d.varAddr ∈ t.nodes := varAddr_mem_of_varChunk h hd
  induction t with
  | nil | none | simpleVar | nilExp | intExp | stringExp | breakExp | nameTy =>
    simp only [Ast.subterms, List.mem_singleton] at hf
    cases hf
  | varChunk c' ds' ih =>
    have hn' : ds'.nodes.Nodup := hn.of_cons
    simp only [Ast.subterms, List.mem_cons] at hf hc
    rcases hf with hf | hf
    · cases hf
    · rcases hc with hc | hc
      · cases hc
        exact varAddr_ne_of_mem ds hn' hd hf
      · exact ih hn' hf hc
  | forExp a' v' hi' b' ih₁ ih₂ ih₃ =>
    simp only [Ast.nodes, List.nodup_append, List.nodup_cons] at hn
    simp only [Ast.subterms, List.mem_cons, List.mem_append] at hf hc
    by_cases hself : (⟨.exp, .forExp a v hi b⟩ : Σ k, Ast Addr k) = ⟨.exp, .forExp a' v' hi' b'⟩
    · cases hself
      -- a chunk inside the declaration of the variable is inside its initialiser
      have hin (h : ⟨.varChunk, .varChunk c ds⟩ ∈ v.subterms) : v.varAddr ≠ d.varAddr := by
        cases v with
        | varDec e x ty i =>
          have hn' := hn.2.1.1
          simp only [Ast.nodes, List.nodup_cons, List.mem_append, not_or] at hn'
          simp only [Ast.subterms, List.mem_cons, List.mem_append] at h
          rcases h with h | h | h
          · cases h
          · exact fun he => hn'.1.1 ((show e = d.varAddr from he) ▸ hw h)
          · exact fun he => hn'.1.2 ((show e = d.varAddr from he) ▸ hw h)
      have hmem := v.varAddr_mem_nodes
      grind
    · grind
  | _ =>
    simp only [Ast.nodes, List.nodup_append, List.nodup_cons] at hn
    simp only [Ast.subterms, List.mem_cons, List.mem_append] at hf hc
    grind

/-- The number of formals of the `FunctionDec` at an address. -/
def formalCount (program : Ast Addr .chunkList) (d : Addr) : Option Nat :=
  match program.deref d with
  | some ⟨_, .functionDec _ _ (.varChunk _ fs) _ _⟩ => some fs.toList.length
  | _ => none

/-- What is known of a program and its `def_` members. -/
def factsOf (f : Addr → Option Addr) (program : Ast Addr .chunkList) : Facts where
  tree := ⟨f, program.varDecs, program.typeDecs⟩
  loop := IsLoopVar program
  arity := formalCount program

/-- Each `VarDec` has a type or an initialiser, as the rules of the parser give it one. -/
def HasTypeOrInit (program : Ast Addr .chunkList) : Prop :=
  ∀ a x, ⟨.varDec, .varDec a x .none .none⟩ ∉ program.subterms

theorem factsOf_allows {f : Addr → Option Addr} {program : Ast Addr .chunkList}
    (hn : program.nodes.Nodup) (hc : NoCast program) (hd : HasTypeOrInit program) :
    ∀ c ∈ program.subterms, (factsOf f program).Allows c := by
  rintro ⟨k, t⟩ ht
  cases t with
  | castExp a e ty => exact hc _ _ _ ht
  | varDec a x ty i =>
    cases ty with
    | none =>
      cases i with
      | none => exact hd _ _ ht
      | some i => trivial
    | some ty => trivial
  | forExp a v hi b => exact ⟨_, _, _, _, ht, rfl⟩
  | varChunk c ds =>
    rintro d hd ⟨a, v, hi, b, hf, hv⟩
    exact varAddr_ne hn hf ht hd hv
  | functionDec a x fs r b =>
    have hderef := Ast.deref_eq hn ht rfl
    cases fs with
    | varChunk c fs =>
      simp only [Facts.Allows, factsOf, formalCount]
      rw [show a = (Ast.functionDec a x (.varChunk c fs) r b).addr from rfl, hderef]
  | _ => trivial

/-- The parts of a program without the arguments of the calls of a function with another number
of formals. -/
def checkedParts (f : Addr → Option Addr) (program : Ast Addr .chunkList) :
    List (Σ k, Ast Addr k) :=
  program.reached (factsOf f program).counted

/-- The target of an assignment is a `SimpleVar` whose `def_` is the `VarDec` of a loop. -/
def UpdatesLoopVar (f : Addr → Option Addr) (program : Ast Addr .chunkList) (v : Ast Addr .var) :
    Prop :=
  ∃ u x d, v = .simpleVar u x ∧ f u = some d ∧ IsLoopVar program d

/-- What the errors of a check that runs to its end tell of the program. -/
theorem logs_of_typesCheck {f : Addr → Option Addr} {program : Ast Addr .chunkList} {n : Nat}
    {s : TypeChecker} (hn : program.nodes.Nodup) (hc : NoCast program) (hd : HasTypeOrInit program)
    (hb : ({} : Scope).Everywhere (LexicallyBound f) program)
    (h : typesCheck ⟨f, program.varDecs, program.typeDecs⟩ n program = .ok s) :
    Logs (factsOf f program) program.nodes (checkedParts f program) s s.errors := by
  have hfit : Fit (factsOf f program) {} program := ⟨hb, factsOf_allows hn hc hd⟩
  have hstart : Entry (factsOf f program) {} program.nodes {} :=
    ⟨⟨⟨nofun, nofun⟩, nofun⟩, ⟨nofun, nofun⟩, fun _ _ => rfl, hn⟩
  obtain ⟨rs, hrs, hr⟩ := (checks _ n program {} {} s rfl hfit hstart h).runs.errors
  rwa [hrs]

/-- **In a correctly bound program whose check runs to its end, the error for a variable that is
read-only is reported for an assignment exactly when it is to the variable of a loop, but in the
arguments of a call with a wrong number of them.** -/
theorem readOnly_reported_iff {f : Addr → Option Addr} {program : Ast Addr .chunkList} {n : Nat}
    {s : TypeChecker} {a : Addr} {v : Ast Addr .var} {e : Ast Addr .exp}
    (hn : program.nodes.Nodup) (hc : NoCast program) (hd : HasTypeOrInit program)
    (hb : ({} : Scope).Everywhere (LexicallyBound f) program)
    (h : typesCheck ⟨f, program.varDecs, program.typeDecs⟩ n program = .ok s)
    (ha : ⟨.exp, .assignExp a v e⟩ ∈ program.subterms) :
    readOnlyError a ∈ s.errors ↔
      UpdatesLoopVar f program v ∧ ⟨.exp, .assignExp a v e⟩ ∈ checkedParts f program := by
  rw [(logs_of_typesCheck hn hc hd hb h).updates a]
  constructor
  · rintro ⟨⟨k, t⟩, ht, hu⟩
    cases t with
    | assignExp b w e' =>
      cases w with
      | simpleVar u x =>
        obtain ⟨rfl, d, hfd, hloop⟩ := hu
        have hsame := Ast.eq_of_addr_eq hn (reached_subset _ program ht) ha rfl rfl rfl
        cases hsame
        exact ⟨⟨u, x, d, rfl, hfd, hloop⟩, ht⟩
      | fieldVar | subscriptVar => exact hu.elim
    | _ => exact hu.elim
  · rintro ⟨⟨u, x, d, rfl, hfd, hloop⟩, ht⟩
    exact ⟨_, ht, rfl, d, hfd, hloop⟩

/-- `for i := 0 to 1 do i := 2` as a program. -/
def assignLoopVar : Ast Addr .chunkList :=
  .chunkList 0 (.ofList [.functionChunk 1 (.ofList [.functionDec 2 "_main".toList
    (.varChunk 3 .nil) .none (.some (.forExp 4 (.varDec 5 "i".toList .none (.some (.intExp 6 0)))
      (.intExp 7 1) (.assignExp 8 (.simpleVar 9 "i".toList) (.intExp 10 2))))])])

theorem assignLoopVar_reported : ∃ s,
    typesCheck ⟨fun a => if a = 9 then some 5 else none, assignLoopVar.varDecs,
      assignLoopVar.typeDecs⟩ 20 assignLoopVar = .ok s ∧
    (readOnlyError 8 ∈ s.errors ↔
      UpdatesLoopVar (fun a => if a = 9 then some 5 else none) assignLoopVar
          (.simpleVar 9 "i".toList) ∧
        ⟨.exp, .assignExp 8 (.simpleVar 9 "i".toList) (.intExp 10 2)⟩ ∈
          checkedParts (fun a => if a = 9 then some 5 else none) assignLoopVar) := by
  obtain ⟨s, hs⟩ := exists_eq_ok (x := typesCheck ⟨fun a => if a = 9 then some 5 else none,
    assignLoopVar.varDecs, assignLoopVar.typeDecs⟩ 20 assignLoopVar) (by decide)
  refine ⟨s, hs, readOnly_reported_iff (by decide) ?_ ?_ ?_ hs ?_⟩
  · intro a e ty h
    simp [assignLoopVar, Ast.ofList, Ast.subterms] at h
  · intro a x h
    simp [assignLoopVar, Ast.ofList, Ast.subterms] at h
  · simp [assignLoopVar, Ast.ofList, Scope.Everywhere, LexicallyBound, Scope.after, Scope.putVar]
  · simp [assignLoopVar, Ast.ofList, Ast.subterms]

/-- `for i := 0 to 1 do f(i := 2)` as a program, where `f` has no formals. -/
def assignInArgument : Ast Addr .chunkList :=
  .chunkList 0 (.ofList [.functionChunk 1 (.ofList [.functionDec 2 "f".toList
    (.varChunk 3 .nil) .none (.some (.seqExp 4 .nil))]),
    .functionChunk 5 (.ofList [.functionDec 6 "_main".toList
    (.varChunk 7 .nil) .none (.some (.forExp 8 (.varDec 9 "i".toList .none (.some (.intExp 10 0)))
      (.intExp 11 1) (.callExp 12 "f".toList (.ofList [
        .assignExp 13 (.simpleVar 14 "i".toList) (.intExp 15 2)]))))])])

/-- An assignment to the variable of a loop is not reported there. -/
theorem not_readOnly_reported :
    ¬ ∀ (f : Addr → Option Addr) (program : Ast Addr .chunkList) (n : Nat) (s : TypeChecker)
      (a : Addr) (v : Ast Addr .var) (e : Ast Addr .exp), program.nodes.Nodup → NoCast program →
      HasTypeOrInit program → ({} : Scope).Everywhere (LexicallyBound f) program →
      typesCheck ⟨f, program.varDecs, program.typeDecs⟩ n program = .ok s →
      ⟨.exp, .assignExp a v e⟩ ∈ program.subterms →
      (readOnlyError a ∈ s.errors ↔ UpdatesLoopVar f program v) := by
  intro hall
  have herrors : (typesCheck ⟨fun a => if a = 12 then some 2 else if a = 14 then some 9 else none,
      assignInArgument.varDecs, assignInArgument.typeDecs⟩ 20 assignInArgument).toOption.map
        (·.errors) = some [.error 12 "invalid number of arguments".toList none] := by decide
  obtain ⟨s, hs⟩ := exists_eq_ok (x := typesCheck ⟨fun a => if a = 12 then some 2 else
    if a = 14 then some 9 else none, assignInArgument.varDecs, assignInArgument.typeDecs⟩ 20
    assignInArgument) (by decide)
  have hiff := hall _ assignInArgument 20 s 13 (.simpleVar 14 "i".toList) (.intExp 15 2)
    (by decide)
    (by
      intro a e ty h
      simp [assignInArgument, Ast.ofList, Ast.subterms] at h)
    (by
      intro a x h
      simp [assignInArgument, Ast.ofList, Ast.subterms] at h)
    (by simp [assignInArgument, Ast.ofList, Scope.Everywhere, LexicallyBound, Scope.after,
      Scope.putVar, Scope.putFuns, Scope.putFun, Ast.functionName, Ast.functionAddr])
    hs (by simp [assignInArgument, Ast.ofList, Ast.subterms])
  rw [hs] at herrors
  simp only [Except.toOption, Option.map_some, Option.some.injEq] at herrors
  have hloop : IsLoopVar assignInArgument 9 :=
    ⟨8, .varDec 9 "i".toList .none (.some (.intExp 10 0)), .intExp 11 1,
      .callExp 12 "f".toList (.ofList [.assignExp 13 (.simpleVar 14 "i".toList) (.intExp 15 2)]),
      by simp [assignInArgument, Ast.ofList, Ast.subterms], rfl⟩
  have hreported := hiff.mpr ⟨14, "i".toList, 9, rfl, rfl, hloop⟩
  rw [herrors, List.mem_singleton] at hreported
  simp [readOnlyError] at hreported

end TigerCompiler
