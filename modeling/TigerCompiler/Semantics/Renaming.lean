import TigerCompiler.Bind.Capture
import TigerCompiler.Semantics.Eval

/-!
# Renaming preserves the meaning of programs

A bound program is run through its `def_` members, so that the names of its variables, functions
and types matter twice: they are what the `def_` members are found by, and those of the primitives
are what the runtime is called by.  The `Renamer` leaves the latter alone, and where its uses and
chunks are safe the renamed program, bound again, runs through the same `def_` members.
-/

namespace TigerCompiler

namespace Ast

variable {k : Kind} {N : Addr → Symbol}

/-! ## What names do not change -/

@[simp] theorem hasBody_withNames (d : Ast Addr .functionDec) :
    (d.withNames N).hasBody = d.hasBody := by
  cases d with
  | functionDec a name fs r body => cases body <;> rfl

@[simp] theorem functionAddr_withNames (d : Ast Addr .functionDec) :
    (d.withNames N).functionAddr = d.functionAddr := by
  cases d
  rfl

@[simp] theorem varAddr_withNames (d : Ast Addr .varDec) :
    (d.withNames N).varAddr = d.varAddr := by
  cases d
  rfl

@[simp] theorem nodes_withNames (t : Ast Addr k) : (t.withNames N).nodes = t.nodes := by
  induction t <;> simp_all [withNames, nodes]

@[simp] theorem addr_withNames (t : Ast Addr k) : (t.withNames N).addr = t.addr := by
  rw [addr, nodes_withNames]
  rfl

theorem subterms_withNames (t : Ast Addr k) :
    (t.withNames N).subterms = t.subterms.map fun c => ⟨c.1, c.2.withNames N⟩ := by
  induction t <;> simp_all [withNames, subterms]

theorem varDecs_withNames (t : Ast Addr k) :
    (t.withNames N).varDecs = t.varDecs.map (withNames N) := by
  rw [varDecs, varDecs, subterms_withNames, List.filterMap_map, List.map_filterMap]
  apply List.filterMap_congr
  rintro ⟨k, u⟩ -
  cases u <;> rfl

theorem functionDecs_withNames (t : Ast Addr k) :
    (t.withNames N).functionDecs = t.functionDecs.map (withNames N) := by
  rw [functionDecs, functionDecs, subterms_withNames, List.filterMap_map, List.map_filterMap]
  apply List.filterMap_congr
  rintro ⟨k, u⟩ -
  cases u <;> rfl

end Ast

namespace Semantics

variable {W : Type} {m : Annotated} {n : Nat} {rt : Runtime W} {N : Addr → Symbol}
  {program : Ast Addr .chunkList}

@[simp] theorem ownVars_withNames (d : Ast Addr .functionDec) :
    ownVars (d.withNames N) = ownVars d := by
  rw [ownVars, Ast.varDecs_withNames, List.map_map]
  exact List.map_congr_left fun d _ => Ast.varAddr_withNames d

@[simp] theorem formals_withNames (d : Ast Addr .functionDec) :
    Translator.formals (d.withNames N) = Translator.formals d := by
  cases d with
  | functionDec a name fs r body =>
  cases fs with
  | varChunk b ds =>
    show (ds.withNames N).toList.map Ast.varAddr = ds.toList.map Ast.varAddr
    rw [Ast.toList_withNames, List.map_map]
    exact List.map_congr_left fun d _ => Ast.varAddr_withNames d

/-- The annotations of a tree whose names are changed. -/
def renamed (N : Addr → Symbol) (m : Annotated) : Annotated :=
  { m with functionDecs := m.functionDecs.map (Ast.withNames N) }

theorem callee_renamed (a : Addr) :
    Translator.callee (renamed N m) a =
      (Translator.callee m a >>= fun d => .ok (d.withNames N)) := by
  have hfind (b : Addr) :
      (renamed N m).functionDec b = (m.functionDec b).map (Ast.withNames N) := by
    rw [Annotated.functionDec, Annotated.functionDec, renamed, List.find?_map]
    simp only [Function.comp_def, Ast.functionAddr_withNames]
  have hdefs : (renamed N m).defs a = m.defs a := rfl
  rw [Translator.callee, Translator.callee, hdefs]
  cases m.defs a with
  | none => rfl
  | some b =>
    rw [Option.bind_some, Option.bind_some, hfind]
    cases m.functionDec b <;> rfl

theorem functionDecName_withNames {d : Ast Addr .functionDec} (hbody : d.hasBody = false)
    (h : N d.functionAddr = d.functionName) :
    Translator.functionDecName (d.withNames N) = Translator.functionDecName d := by
  have hname : (d.withNames N).functionName = d.functionName := by
    cases d
    exact h
  rw [Translator.functionDecName, Translator.functionDecName, hname, Ast.hasBody_withNames]

theorem bodyEnv_withNames (d : Ast Addr .functionDec) (act : Nat) (env : Addr → Option Nat) :
    bodyEnv (d.withNames N) act env = bodyEnv d act env := by
  unfold bodyEnv
  rw [formals_withNames, ownVars_withNames]

theorem returned_renamed (d : Ast Addr .functionDec) (r : Option Scalar) :
    (returned (renamed N m) n (d.withNames N) r : Except (Interrupt W) (Option Scalar)) =
      returned m n d r := by
  unfold returned
  rw [Ast.functionAddr_withNames]
  rfl

/-- A call does not depend on the names either. -/
theorem callWith_withNames {d : Ast Addr .functionDec}
    {body body' : Ast Addr .exp → Nat → State W → Except (Interrupt W) (Option Scalar × State W)}
    (hd : d.hasBody = false → N d.functionAddr = d.functionName)
    (hb : ∀ e act s, body' (e.withNames N) act s = body e act s) (ws : List Scalar) (s : State W) :
    callWith (renamed N m) n rt body' (d.withNames N) ws s = callWith m n rt body d ws s := by
  have henv := bodyEnv_withNames (N := N) d
  have hformals := formals_withNames (N := N) d
  have hreturned := returned_renamed (W := W) (m := m) (n := n) (N := N) d
  cases d with
  | functionDec a name fs r e =>
  cases e with
  | none =>
    have hname := functionDecName_withNames rfl (hd rfl)
    rw [Ast.withNames, Ast.withNames] at hname
    rw [Ast.withNames, Ast.withNames, callWith, callWith, hname]
  | some e =>
    rw [Ast.withNames, Ast.withNames] at henv hformals hreturned
    simp only [Ast.withNames, callWith, hb, henv, hformals, hreturned]

/-- **The names of a program do not change its meaning**, where the primitives keep theirs. -/
theorem eval_withNames (hkeep : ∀ d ∈ m.functionDecs, d.hasBody = false →
    N d.functionAddr = d.functionName) (k : Nat) {c : Kind} (t : Ast Addr c) (mode : Mode)
    (act : Nat) (s : State W) :
    eval (renamed N m) n rt k (t.withNames N) mode act s = eval m n rt k t mode act s := by
  induction k generalizing c mode act s with
  | zero => rfl
  | succ k ih =>
  cases t with
  | callExp a name args =>
    simp only [Ast.withNames, eval, ih, callee_renamed]
    cases hd : Translator.callee m a with
    | error e => rfl
    | ok d =>
      have hcall (ws : List Scalar) (s : State W) :
          callWith (renamed N m) n rt
            (fun e act s => eval (renamed N m) n rt k e .accept act s) (d.withNames N) ws s =
          callWith m n rt (fun e act s => eval m n rt k e .accept act s) d ws s :=
        callWith_withNames (hkeep d (Translator.mem_of_callee hd))
          (fun e act s => ih e .accept act s) ws s
      simp only [ok_bind, ofTypes, hcall]
  | whileExp a e body =>
    have hloop := ih (.whileExp a e body)
    rw [Ast.withNames] at hloop
    simp only [Ast.withNames, eval, ih, funext₂ (hloop _)]
  | forExp a d hi body =>
    have hloop := ih (.forExp a d hi body)
    rw [Ast.withNames] at hloop
    cases mode <;> simp only [Ast.withNames, eval, ih, hloop, Ast.varAddr_withNames]
  | ifExp a e e₁ e₂ => simp only [Ast.withNames, eval, ih]; rfl
  | fieldVar a v name => simp only [Ast.withNames, eval, ih, Ast.addr_withNames]; rfl
  | recordExp a t fs => simp only [Ast.withNames, eval, ih, Ast.addr_withNames]; rfl
  | simpleVar a x => simp only [Ast.withNames, eval]; rfl
  | _ => simp only [Ast.withNames, eval, ih]

/-! ## What is read of the `def_` members -/

/-- The uses of a tree have the same `def_` members in both. -/
def SameDefs (defs defs' : Addr → Option Addr) {c : Kind} (t : Ast Addr c) : Prop :=
  ∀ u ∈ t.subterms, ∀ a x, u.2.use? = some (a, x) → defs' a = defs a

theorem SameDefs.part {defs defs' : Addr → Option Addr} {c j : Kind} {t : Ast Addr c}
    {u : Ast Addr j} (h : SameDefs defs defs' t) (hu : ⟨j, u⟩ ∈ t.subterms) :
    SameDefs defs defs' u :=
  fun v hv => h v (Ast.subterms_subset hu hv)

section

variable {defs : Addr → Option Addr}

theorem callee_congr {a : Addr} (h : defs a = m.defs a) :
    Translator.callee { m with defs } a = Translator.callee m a := by
  have hdec : ({ m with defs } : Annotated).functionDec = m.functionDec := rfl
  simp only [Translator.callee, hdec, h]

theorem returned_congr (d : Ast Addr .functionDec) (r : Option Scalar) :
    (returned { m with defs } n d r : Except (Interrupt W) (Option Scalar)) = returned m n d r :=
  rfl

/-- A call depends on the evaluation of the body only. -/
theorem callWith_congr {d : Ast Addr .functionDec}
    {body body' : Ast Addr .exp → Nat → State W → Except (Interrupt W) (Option Scalar × State W)}
    (hb : ∀ e, ⟨_, e⟩ ∈ d.subterms → ∀ act s, body' e act s = body e act s) (ws : List Scalar)
    (s : State W) :
    callWith { m with defs } n rt body' d ws s = callWith m n rt body d ws s := by
  cases d with
  | functionDec a name fs r e =>
  cases e with
  | none => rfl
  | some e =>
    have he := hb e (Ast.subterms_subset (Ast.mem_third rfl) (Ast.mem_first rfl))
    simp only [callWith, he, returned_congr]

/-- **An evaluation depends on the `def_` members of the uses only.** -/
theorem eval_congr (hm : ∀ d ∈ m.functionDecs, SameDefs m.defs defs d) (k : Nat) {c : Kind}
    (t : Ast Addr c) (ht : SameDefs m.defs defs t) (mode : Mode) (act : Nat) (s : State W) :
    eval { m with defs } n rt k t mode act s = eval m n rt k t mode act s := by
  induction k generalizing c mode act s with
  | zero => rfl
  | succ k ih =>
  cases t with
  | simpleVar a x => simp only [eval, ht _ (Ast.mem_subterms_self _) a x rfl]
  | callExp a x args =>
    simp only [eval, ih _ (ht.part (Ast.mem_first rfl)),
      callee_congr (ht _ (Ast.mem_subterms_self _) a x rfl)]
    cases hd : Translator.callee m a with
    | error e => rfl
    | ok d =>
      have hcall (ws : List Scalar) (s : State W) :
          callWith { m with defs } n rt
            (fun e act s => eval { m with defs } n rt k e .accept act s) d ws s =
          callWith m n rt (fun e act s => eval m n rt k e .accept act s) d ws s :=
        callWith_congr (fun e he => ih e ((hm d (Translator.mem_of_callee hd)).part he) .accept)
          ws s
      simp only [ok_bind, ofTypes, hcall]
  | nil | none | nilExp | intExp | stringExp | breakExp | nameTy | ofNameTy | recordTy | arrayTy
  | field | functionDec | typeDec | functionChunk | typeChunk => rfl
  | some x | ofVar x | seqExp _ x | fieldInit _ _ x | varChunk _ x | ofVarChunk x | chunkList _ x
  | castExp _ x _ =>
    simp only [eval, ih _ (ht.part (Ast.mem_first rfl))]
  | fieldVar _ x _ =>
    simp only [eval, ih _ (ht.part (Ast.mem_first rfl))]
    rfl
  | varDec _ _ _ x => simp only [eval, ih _ (ht.part (Ast.mem_second rfl))]
  | recordExp _ _ x =>
    simp only [eval, ih _ (ht.part (Ast.mem_second rfl))]
    rfl
  | cons x y | subscriptVar _ x y | opExp _ x _ y | assignExp _ x y | letExp _ x y =>
    simp only [eval, ih _ (ht.part (Ast.mem_first rfl)), ih _ (ht.part (Ast.mem_second rfl))]
  | arrayExp _ _ x y =>
    simp only [eval, ih _ (ht.part (Ast.mem_second rfl)), ih _ (ht.part (Ast.mem_third rfl))]
  | ifExp _ x y z =>
    simp only [eval, ih _ (ht.part (Ast.mem_first rfl)), ih _ (ht.part (Ast.mem_second rfl)),
      ih _ (ht.part (Ast.mem_third rfl))]
    rfl
  | whileExp a x y =>
    simp only [eval, ih _ (ht.part (Ast.mem_first rfl)), ih _ (ht.part (Ast.mem_second rfl)),
      funext₂ (ih _ ht _)]
  | forExp a x y z =>
    cases mode <;> simp only [eval, ih _ (ht.part (Ast.mem_first rfl)),
      ih _ (ht.part (Ast.mem_second rfl)), ih _ (ht.part (Ast.mem_third rfl)), ih _ ht]

end

/-! ## The Renamer -/

/-- The name of a primitive stays, wherever it is declared. -/
theorem kept_of_mem {k : Kind} {t : Ast Addr k} {d : Ast Addr .functionDec} {skip : Bool}
    (hd : ⟨_, d⟩ ∈ t.subterms) (hbody : d.hasBody = false) :
    (d.functionAddr, Mark.kept) ∈ t.marks skip := by
  induction t generalizing skip with
  | functionDec a x fs r body ih₁ ih₂ ih₃ =>
    rcases List.mem_cons.mp hd with heq | hd
    · cases heq
      cases body with
      | none => simp [Ast.marks, Ast.functionAddr, Ast.isSome]
      | some e => cases hbody
    · simp only [List.mem_append] at hd
      simp only [Ast.marks, List.mem_cons, List.mem_append]
      grind
  | nil | none | simpleVar | nilExp | intExp | stringExp | breakExp | nameTy =>
    have heq := List.mem_singleton.mp hd
    cases heq
  | some x ih | ofVar x ih | ofNameTy x ih | ofVarChunk x ih | fieldVar _ x _ ih | seqExp _ x ih
  | recordTy _ x ih | arrayTy _ x ih | field _ _ x ih | fieldInit _ _ x ih | varChunk _ x ih
  | chunkList _ x ih | functionChunk _ x ih | typeChunk _ x ih =>
    rcases List.mem_cons.mp hd with heq | hd
    · cases heq
    · exact ih hd
  | _ =>
    rcases List.mem_cons.mp hd with heq | hd
    · cases heq
    · simp only [Ast.marks, List.mem_cons, List.mem_append] at hd ⊢
      grind

/-- The `Renamer` leaves the names of the primitives. -/
theorem names_primitive {counter : UInt32} {defs : Addr → Option Addr}
    (hn : program.nodes.Nodup) (hb : BoundUses defs program) {d : Ast Addr .functionDec}
    (hd : d ∈ program.functionDecs) (hbody : d.hasBody = false) :
    (rename defs counter program).names d.functionAddr = d.functionName := by
  have hmem := Ast.mem_functionDecs.mp hd
  have hkept : (d.functionAddr, Mark.kept) ∈ program.marks false := kept_of_mem hmem hbody
  have hname : program.nameAt d.functionAddr = d.functionName := by
    have h := nameAt_eq hn hmem (by cases d; rfl)
    cases d
    exact h
  rw [names_eq_newName hn hb (p := (d.functionName, d.functionAddr)) ⟨hname, .inr hkept⟩, newName,
    if_neg, hname]
  intro hrenamed
  exact absurd (mark_unique hn hkept hrenamed) (by decide)

/-- Where the uses are safe, the renamed program can only be bound as it was. -/
theorem sameDefs_of_bound {counter : UInt32} {defs defs' : Addr → Option Addr}
    (hn : program.nodes.Nodup) (hb : BoundUses defs program)
    (hsafe : ∀ u ∈ ({} : Decls).uses program, u.Safe defs counter program)
    (hb' : BoundUses defs' (program.withNames (rename defs counter program).names)) :
    SameDefs defs defs' program := by
  intro c hc a x hax
  obtain ⟨u, hu, he⟩ := List.mem_map.mp (mem_uses_of_subterm (δ := {}) hc hax)
  obtain ⟨rfl, rfl⟩ := Prod.mk.inj he
  have huses := Decls.uses_withNames (N := (rename defs counter program).names) (δ := {}) program
  have hmem : u.withNames (rename defs counter program).names ∈ ({} : Decls).uses
      (program.withNames (rename defs counter program).names) := by
    have h := List.mem_map_of_mem (f := Use.withNames (rename defs counter program).names) hu
    exact huses.symm ▸ h
  have hold := ((bound_withNames_iff hn hb hu).mpr (hsafe u hu)).1
  have hnew := (hb' _ hmem).1
  exact hnew.trans hold.symm

/-- **Renaming preserves the meaning of functions**: where the uses are safe, whatever binds the
renamed program again by lexical scoping. -/
theorem rename_preserves {counter : UInt32} (hn : program.nodes.Nodup)
    (hb : ({} : Scope).Everywhere (LexicallyBound m.defs) program)
    (hsafe : ∀ u ∈ ({} : Decls).uses program, u.Safe m.defs counter program)
    (hm : m.functionDecs = program.functionDecs) {defs : Addr → Option Addr}
    (hb' : ({} : Scope).Everywhere (LexicallyBound defs)
      (program.withNames (rename m.defs counter program).names))
    {d : Ast Addr .functionDec} (hd : d ∈ program.functionDecs) (k : Nat) (ws : List Scalar)
    (s : State W) :
    let N := (rename m.defs counter program).names
    call { m with defs, functionDecs := (program.withNames N).functionDecs } n rt k
        (d.withNames N) ws s =
      call m n rt k d ws s := by
  intro N
  have hbu := everywhere_iff_boundUses.mp hb
  have hkeep : ∀ d ∈ m.functionDecs, d.hasBody = false → N d.functionAddr = d.functionName :=
    fun d hd hbody => names_primitive hn hbu (hm ▸ hd) hbody
  have hsame : SameDefs m.defs defs program :=
    sameDefs_of_bound hn hbu hsafe (everywhere_iff_boundUses.mp hb')
  have hdecs : ∀ d ∈ m.functionDecs, SameDefs m.defs defs d := fun d hd =>
    hsame.part (Ast.mem_functionDecs.mp (hm ▸ hd))
  have hrenamed : { m with defs, functionDecs := (program.withNames N).functionDecs } =
      renamed N { m with defs } := by
    rw [Ast.functionDecs_withNames, renamed, hm]
  calc
    _ = call (renamed N { m with defs }) n rt k (d.withNames N) ws s := by rw [hrenamed]
    _ = call { m with defs } n rt k d ws s :=
      callWith_withNames (hkeep d (hm ▸ hd))
        (fun e => eval_withNames (m := { m with defs }) hkeep k e .accept) ws s
    _ = call m n rt k d ws s :=
      callWith_congr (fun e he => eval_congr hdecs k e ((hdecs d (hm ▸ hd)).part he) .accept) ws s

/-- What is known of `let primitive p() function f() = p() var a := 0 in f(); a end` once it is
bound and typed. -/
def besidePrimitiveAnnotated : Annotated where
  defs := besidePrimitiveDefs
  types a := if a = 2 ∨ a = 8 ∨ a = 10 then some (.function 0) else none
  heap := { functions := fun _ => some ([], .void) }
  functionDecs := besidePrimitive.functionDecs

/-- What another binding may have left at nodes that are not uses. -/
def otherDefs : Addr → Option Addr
  | 12 => some 8
  | 17 => some 10
  | 18 => some 14
  | a => some a

/-- The `_main` of the program. -/
def besidePrimitiveMain : Ast Addr .functionDec :=
  .functionDec 2 "_main".toList (.varChunk 3 .nil) .none (.some (.seqExp 4 (.ofList [
    .letExp 5
      (.chunkList 6 (.ofList [
        .functionChunk 7 (.ofList [
          .functionDec 8 "p".toList (.varChunk 9 .nil) .none .none,
          .functionDec 10 "f".toList (.varChunk 11 .nil) .none
            (.some (.callExp 12 "p".toList .nil))]),
        .ofVarChunk (.varChunk 13 (.ofList [
          .varDec 14 "a".toList .none (.some (.intExp 15 0))]))]))
      (.seqExp 16 (.ofList [.callExp 17 "f".toList .nil, .ofVar (.simpleVar 18 "a".toList)])),
    .seqExp 19 .nil])))

/-- A runtime that counts the calls of `p`. -/
def counting : Runtime Nat where
  call name _ w := if name = "tc_p".toList then some (none, w + 1) else none

theorem rename_preserves_besidePrimitive :
    (call { besidePrimitiveAnnotated with
        defs := otherDefs
        functionDecs := (besidePrimitive.withNames
          (rename besidePrimitiveDefs 0 besidePrimitive).names).functionDecs } 5 counting 12
      (besidePrimitiveMain.withNames (rename besidePrimitiveDefs 0 besidePrimitive).names) []
      ⟨fun _ => none, { world := 0 }⟩).map (fun p => (p.1, p.2.store.world)) =
    (.ok (none, 1) : Except (Interrupt Nat) (Option Scalar × Nat)) := by
  have hb' : ({} : Scope).Everywhere (LexicallyBound otherDefs)
      (besidePrimitive.withNames (rename besidePrimitiveDefs 0 besidePrimitive).names) := by
    have hu' := Decls.uses_withNames (N := (rename besidePrimitiveDefs 0 besidePrimitive).names)
      (δ := {}) besidePrimitive
    rw [everywhere_iff_boundUses, BoundUses]
    intro u hmem
    replace hmem := hu' ▸ hmem
    rw [uses_besidePrimitive] at hmem
    simp only [List.map_cons, List.map_nil, List.mem_cons, List.not_mem_nil, or_false] at hmem
    rcases hmem with rfl | rfl | rfl
    · exact ⟨by decide, by decide⟩
    · exact ⟨by decide, by decide⟩
    · exact ⟨by decide, by decide⟩
  have hd : besidePrimitiveMain ∈ besidePrimitive.functionDecs := List.mem_cons_self
  exact (congrArg (·.map fun p => (p.1, p.2.store.world))
    (rename_preserves (m := besidePrimitiveAnnotated) (by decide) bound_besidePrimitive
      safe_besidePrimitive rfl hb' hd 12 [] ⟨fun _ => none, { world := 0 }⟩)).trans rfl

end Semantics

end TigerCompiler
