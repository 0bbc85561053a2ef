import TigerCompiler.Type.LoopVariables
import TigerCompiler.Type.Termination

/-!
# Unconstrained nil

The type nil is compatible with itself, and nothing keeps a variable from having it: a declaration
takes the type of its initialiser as it is, and `=` and `<>` only ask for types that fit.  The one
variable that may not be nil is that of a loop, which has to be an int.
-/

namespace TigerCompiler

open TypeChecker

/-- The places where nothing says which record a nil stands for. -/
inductive NilSite
  /-- The declaration at `d`, without a type. -/
  | declaration (d : Addr) (name : Symbol) (init : Ast Addr .exp)
  /-- The comparison at `a`: `=`, or `<>` when `neg` is set. -/
  | comparison (a : Addr) (neg : Bool) (left right : Ast Addr .exp)

namespace NilSite

/-- The node the checker visits. -/
def visited : NilSite → Σ k, Ast Addr k
  | declaration d name init => ⟨_, .varDec d name .none (.some init)⟩
  | comparison a neg left right => ⟨_, .opExp a left (if neg then .ne else .eq) right⟩

/-- The expressions whose type is nil. -/
def operands : NilSite → List (Ast Addr .exp)
  | declaration _ _ init => [init]
  | comparison _ _ left right => [left, right]

/-- The report is about the variable, or about the types of the two operands. -/
def Tells : NilSite → Report → Prop
  | declaration d _ _, r => r.node = d
  | comparison a _ _ _, r => ∃ x t y u, r = .mismatch a x t y u

/-- The variable is that of a loop. -/
def IsLoop (program : Ast Addr .chunkList) : NilSite → Prop
  | declaration d _ _ => IsLoopVar program d
  | comparison _ _ _ _ => False

end NilSite

/-- The checker gets to the variable of a loop by way of the loop. -/
theorem forExp_reached {counted : Addr → Nat → Bool} {a : Addr} {v : Ast Addr .varDec}
    {hi b : Ast Addr .exp} {k : Kind} {t : Ast Addr k} (hn : t.nodes.Nodup)
    (hf : ⟨.exp, .forExp a v hi b⟩ ∈ t.subterms) (hv : ⟨.varDec, v⟩ ∈ t.reached counted) :
    ⟨.exp, .forExp a v hi b⟩ ∈ t.reached counted := by
  have hmem {j : Kind} {t : Ast Addr j} (h : ⟨.exp, .forExp a v hi b⟩ ∈ t.subterms) :
      v.varAddr ∈ t.nodes := varAddr_mem_of_forExp h
  have hsub {j : Kind} {t : Ast Addr j} (h : ⟨.varDec, v⟩ ∈ t.reached counted) :
      v.varAddr ∈ t.nodes :=
    Ast.nodes_subset (reached_subset _ _ h) v.varAddr_mem_nodes
  induction t with
  | varDec d x t i ih₁ ih₂ =>
    simp only [Ast.nodes, List.nodup_append, List.nodup_cons, List.mem_append] at hn
    simp only [Ast.subterms, Ast.reached, List.mem_cons, List.mem_append] at hf hv ⊢
    have hself (h : (⟨.varDec, v⟩ : Σ k, Ast Addr k) = ⟨.varDec, .varDec d x t i⟩) :
        v.varAddr = d := by
      cases h
      rfl
    grind
  | callExp c x args ih =>
    simp only [Ast.nodes, List.nodup_cons] at hn
    simp only [Ast.subterms, Ast.reached, List.mem_cons] at hf hv ⊢
    split at hv <;> grind
  | _ =>
    simp only [Ast.nodes, List.nodup_append, List.nodup_cons] at hn
    simp only [Ast.subterms, Ast.reached, List.mem_cons, List.mem_append] at hf hv ⊢
    grind

namespace NilSite

variable {f : Addr → Option Addr} {program : Ast Addr .chunkList} {n : Nat} {s : TypeChecker}
  {e : NilSite}

/-- **In a correctly bound program whose check runs to its end, an unconstrained nil is reported
exactly when it is the value of the variable of a loop.** -/
theorem rejected_iff (hn : program.nodes.Nodup) (hc : NoCast program) (hd : HasTypeOrInit program)
    (hb : ({} : Scope).Everywhere (LexicallyBound f) program)
    (h : typesCheck ⟨f, program.varDecs, program.typeDecs⟩ n program = .ok s)
    (he : e.visited ∈ checkedParts f program)
    (hnil : ∀ i ∈ e.operands, s.typeGet i = some .nil) :
    (∃ r ∈ s.errors, e.Tells r) ↔ e.IsLoop program := by
  have hl := logs_of_typesCheck hn hc hd hb h
  cases e with
  | comparison a neg left right =>
    refine iff_of_false ?_ id
    rintro ⟨r, hr, x, t, y, u, rfl⟩
    have hop : (if neg then Oper.ne else .eq) = .eq ∨ (if neg then Oper.ne else .eq) = .ne := by
      cases neg
      · exact .inl rfl
      · exact .inr rfl
    exact hl.settled _ he hop (hnil left (.head _)) (hnil right (.tail _ (.head _))) x t y u hr
  | declaration d x init =>
    constructor
    · rintro ⟨r, hr, hrd⟩
      by_contra hloop
      exact hl.settled _ he hloop r hr hrd
    · rintro ⟨a, v, hi, b, hf, hvd⟩
      -- the addresses are distinct, so the variable of the loop is the declaration
      have hv : (⟨.varDec, v⟩ : Σ k, Ast Addr k) = ⟨.varDec, .varDec d x .none (.some init)⟩ :=
        Ast.eq_of_addr_eq hn (Ast.subterms_subset hf (Ast.mem_first rfl))
          (reached_subset _ program he) (by cases v; rfl) rfl (by cases v; exact hvd)
      cases hv
      exact hl.settled _ (forExp_reached hn hf he) (hnil init (.head _))

end NilSite

/-- `let var a := nil in (a = nil; for i := nil to 3 do ()) end` as a program. -/
def nilEverywhere : Ast Addr .chunkList :=
  .chunkList 0 (.ofList [.functionChunk 1 (.ofList [.functionDec 2 "_main".toList
    (.varChunk 3 .nil) .none (.some (.seqExp 4 (.ofList [
      .letExp 5
        (.chunkList 6 (.ofList [.ofVarChunk (.varChunk 7 (.ofList [
          .varDec 8 "a".toList .none (.some (.nilExp 9))]))]))
        (.seqExp 10 (.ofList [
          .opExp 11 (.ofVar (.simpleVar 12 "a".toList)) .eq (.nilExp 13),
          .forExp 14 (.varDec 15 "i".toList .none (.some (.nilExp 16))) (.intExp 17 3)
            (.seqExp 18 .nil)])),
      .seqExp 19 .nil])))])])

/-- The error of the loop is the only one. -/
theorem nilEverywhere_rejected : ∃ s,
    typesCheck ⟨fun a => if a = 12 then some 8 else none, nilEverywhere.varDecs,
      nilEverywhere.typeDecs⟩ 20 nilEverywhere = .ok s ∧
    (∃ r ∈ s.errors, (NilSite.declaration 15 "i".toList (.nilExp 16)).Tells r) ∧
    (¬ ∃ r ∈ s.errors, (NilSite.declaration 8 "a".toList (.nilExp 9)).Tells r) ∧
    ¬ ∃ r ∈ s.errors, (NilSite.comparison 11 false (.ofVar (.simpleVar 12 "a".toList))
      (.nilExp 13)).Tells r := by
  have htypes : (typesCheck ⟨fun a => if a = 12 then some 8 else none, nilEverywhere.varDecs,
      nilEverywhere.typeDecs⟩ 20 nilEverywhere).toOption.map
        (fun s => [9, 12, 13, 16].map s.types) = some (List.replicate 4 (some .nil)) := by decide
  obtain ⟨s, hs⟩ := exists_eq_ok (x := typesCheck ⟨fun a => if a = 12 then some 8 else none,
    nilEverywhere.varDecs, nilEverywhere.typeDecs⟩ 20 nilEverywhere) (by decide)
  rw [hs] at htypes
  simp only [Except.toOption, Option.map_some, List.map_cons, List.map_nil, List.replicate,
    Option.some.injEq, List.cons.injEq, and_true] at htypes
  obtain ⟨h9, h12, h13, h16⟩ := htypes
  have hiff (e : NilSite) (he : e.visited ∈ checkedParts _ nilEverywhere)
      (hnil : ∀ i ∈ e.operands, s.typeGet i = some .nil) :=
    NilSite.rejected_iff (e := e) (by decide)
      (by
        intro a e ty h
        simp [nilEverywhere, Ast.ofList, Ast.subterms] at h)
      (by
        intro a x h
        simp [nilEverywhere, Ast.ofList, Ast.subterms] at h)
      (by simp [nilEverywhere, Ast.ofList, Scope.Everywhere, LexicallyBound, Scope.after,
        Scope.putVar])
      hs he hnil
  refine ⟨s, hs, (hiff _ ?_ ?_).mpr ?_, mt (hiff _ ?_ ?_).mp ?_, mt (hiff _ ?_ ?_).mp id⟩
  · simp [checkedParts, nilEverywhere, Ast.reached, Ast.ofList, NilSite.visited]
  · exact List.forall_mem_singleton.mpr h16
  · exact ⟨14, .varDec 15 "i".toList .none (.some (.nilExp 16)), .intExp 17 3, .seqExp 18 .nil,
      by simp [nilEverywhere, Ast.ofList, Ast.subterms], rfl⟩
  · simp [checkedParts, nilEverywhere, Ast.reached, Ast.ofList, NilSite.visited]
  · exact List.forall_mem_singleton.mpr h9
  · rintro ⟨a, v, hi, b, h, hv⟩
    simp only [nilEverywhere, Ast.ofList, Ast.subterms] at h
    simp at h
    obtain ⟨-, rfl, -, -⟩ := h
    cases hv
  · simp [checkedParts, nilEverywhere, Ast.reached, Ast.ofList, NilSite.visited]
  · exact List.forall_mem_cons.mpr ⟨h12, List.forall_mem_singleton.mpr h13⟩

/-- `let var a := nil in 0 end` as a program. -/
def nilVariable : Ast Addr .chunkList :=
  .chunkList 0 (.ofList [.functionChunk 1 (.ofList [.functionDec 2 "_main".toList
    (.varChunk 3 .nil) .none (.some (.seqExp 4 (.ofList [
      .letExp 5
        (.chunkList 6 (.ofList [.ofVarChunk (.varChunk 7 (.ofList [
          .varDec 8 "a".toList .none (.some (.nilExp 9))]))]))
        (.seqExp 10 (.ofList [.intExp 11 0])),
      .seqExp 12 .nil])))])])

/-- `let var a := nil in 0 end` is bound, and its check reports nothing. -/
theorem not_rejected_program :
    ¬ ∀ (program : Ast Addr .chunkList) (b : Binder) (n : Nat) (s : TypeChecker) (e : NilSite),
      program.nodes.Nodup → bind program = .ok b →
      typesCheck (b.tree program) n program = .ok s → e.visited ∈ program.subterms →
      (∀ i ∈ e.operands, s.typeGet i = some .nil) → s.errors ≠ [] := by
  intro hall
  have hb : (bind nilVariable).toOption.map (fun b => (typesCheck (b.tree nilVariable) 20
      nilVariable).toOption.map fun s => (s.errors, s.types 9)) = some (some ([], some .nil)) := by
    decide
  cases hp : bind nilVariable with
  | error e => simp [hp, Except.toOption] at hb
  | ok b =>
    cases ht : typesCheck (b.tree nilVariable) 20 nilVariable with
    | error e => simp [hp, ht, Except.toOption] at hb
    | ok s =>
      simp only [hp, ht, Except.toOption, Option.map_some, Option.some.injEq, Prod.mk.injEq] at hb
      refine hall nilVariable b 20 s (.declaration 8 "a".toList (.nilExp 9)) (by decide) hp ht ?_ ?_
        hb.1
      · simp [nilVariable, NilSite.visited, Ast.ofList, Ast.subterms]
      · intro i hi
        obtain rfl := List.mem_singleton.mp hi
        exact hb.2

end TigerCompiler
