import TigerCompiler.Bind.Visit

/-!
# Which uses the Binder leaves unbound

`binder.cc` overrides the traversal of three classes without visiting all their children: the
test of a `WhileExp`, the `Ty` of a `TypeDec` and the result of a `FunctionDec` are never
visited.  A use in one of these places keeps a null `def_`, whether its name is declared or not;
every other use of an accepted program is bound.
-/

namespace TigerCompiler

namespace Binder

variable {k : Kind} {f : Addr → Option Addr} {ρ : Scope}

/-- A use has its `def_` set.  A `NameTy` is exempt when its name is an `int` or a `string` that
no declaration in scope redefines. -/
def Bound (f : Addr → Option Addr) ⦃k : Kind⦄ (ρ : Scope) : Ast Addr k → Prop
  | .simpleVar a _ => f a ≠ none
  | .callExp a _ _ => f a ≠ none
  | .breakExp a => f a ≠ none
  | .nameTy a name => f a ≠ none ∨ name.isBuiltin ∧ ρ.types name = none
  | _ => True

/-- A use lies where the `Binder` goes, or is a `NameTy` that needs no declaration. -/
def InPlace ⦃k : Kind⦄ (ρ : Scope) : Ast Addr k → Prop
  | .simpleVar _ _ => ρ.aside = false
  | .callExp _ _ _ => ρ.aside = false
  | .breakExp _ => ρ.aside = false
  | .nameTy _ name => ρ.aside = false ∨ name.isBuiltin ∧ ρ.types name = none
  | _ => True

/-- Every use of the program is bound. -/
def Complete (f : Addr → Option Addr) (program : Ast Addr .chunkList) : Prop :=
  ({} : Scope).Everywhere (Bound f) program

/-- No `SimpleVar`, `CallExp` or `BreakExp` of the program, and no `NameTy` but an undeclared
`int` or `string`, lies in the test of a `while`, in the body of a type declaration or in the
result of a function. -/
def NoUseAside (program : Ast Addr .chunkList) : Prop :=
  ({} : Scope).Everywhere InPlace program

/-! ## One use -/

/-- A use that is visited is bound. -/
theorem Within.bound {t : Ast Addr k} {w : Walk} {b b' : Binder} (hv : b.visit t w = .ok b')
    (h : Within f ρ t.nodes b b') : Bound f ρ t := by
  cases t with
  | simpleVar a x =>
    obtain ⟨d, -, rfl⟩ := useVar_eq_ok.mp hv
    have hd := h.defs a (by simp [Ast.nodes])
    simp [Bound, hd]
  | callExp a x args =>
    simp only [visit, bind_eq_ok] at hv
    obtain ⟨b₁, h₁, hv⟩ := hv
    obtain ⟨d, -, rfl⟩ := useFunction_eq_ok.mp h₁
    have hd := h.defs a (by simp [Ast.nodes])
    have ha : a ∉ args.nodes := (List.nodup_cons.mp h.nodup).1
    rw [(visit_effect hv).frame a ha] at hd
    simp [Bound, hd]
  | breakExp a =>
    obtain ⟨d, -, -, rfl⟩ := useLoop_eq_ok.mp hv
    have hd := h.defs a (by simp [Ast.nodes])
    simp [Bound, hd]
  | nameTy a x =>
    obtain ⟨hx, rfl⟩ := useType_eq_ok.mp hv
    have hd := h.defs a (by simp [Ast.nodes])
    have ht : ρ.types x = b.mapTypedec.get x := by rw [h.types]; rfl
    rw [Bound, hd, ht]
    cases hg : b.mapTypedec.get x with
    | none => exact .inr ⟨hx hg, rfl⟩
    | some d => simp
  | _ => trivial

/-- At each place, to be bound is to lie where the `Binder` goes. -/
theorem bound_iff_inPlace (t : Ast Addr k) (h : Reached f ρ t) :
    Bound f ρ t ↔ InPlace ρ t := by
  unfold Reached at h
  split at h
  case isTrue ha =>
    cases t <;> simp_all [Bound, InPlace, Ast.nodes]
  case isFalse ha =>
    obtain ⟨w, b, b', hv, hw⟩ := h
    have hb := hw.bound hv
    cases t <;> simp_all [Bound, InPlace]

/-! ## The whole program -/

/-- A successful `bind` reaches every place of the program. -/
theorem reached_of_bind {program : Ast Addr .chunkList} {b : Binder}
    (hn : program.nodes.Nodup) (h : bind program = .ok b) :
    ({} : Scope).Everywhere (Reached b.defs) program :=
  Within.reached h ⟨rfl, rfl, rfl, fun _ _ => rfl, fun _ _ => rfl, hn⟩ rfl nofun

/-- The `Binder` accepts a program with all its uses bound exactly when none lies aside. -/
theorem complete_iff_noUseAside {program : Ast Addr .chunkList} {b : Binder}
    (hn : program.nodes.Nodup) (h : bind program = .ok b) :
    Complete b.defs program ↔ NoUseAside program :=
  Scope.Everywhere.iff (fun _ _ t => bound_iff_inPlace t) (reached_of_bind hn h)

/-- `let var a := 0 in a end` as a program. -/
def usedInBody : Ast Addr .chunkList :=
  .chunkList 0 (.ofList [.functionChunk 1 (.ofList [.functionDec 2 "_main".toList
    (.varChunk 3 .nil) .none (.some (.seqExp 4 (.ofList [
      .letExp 5
        (.chunkList 6 (.ofList [.ofVarChunk (.varChunk 7 (.ofList [
          .varDec 8 "a".toList .none (.some (.intExp 9 0))]))]))
        (.seqExp 10 (.ofList [.ofVar (.simpleVar 11 "a".toList)])),
      .seqExp 12 .nil])))])])

theorem usedInBody_complete : ∃ b, bind usedInBody = .ok b ∧ Complete b.defs usedInBody := by
  obtain ⟨b, hb⟩ := exists_eq_ok (x := bind usedInBody) (by decide)
  refine ⟨b, hb, (complete_iff_noUseAside (by decide) hb).mpr ?_⟩
  simp [NoUseAside, usedInBody, Ast.ofList, Scope.Everywhere, InPlace]

/-- `while a do ()` as a program, with no declaration of `a`. -/
def undeclaredInTest : Ast Addr .chunkList :=
  .chunkList 0 (.ofList [.functionChunk 1 (.ofList [.functionDec 2 "_main".toList
    (.varChunk 3 .nil) .none (.some (.seqExp 4 (.ofList [
      .whileExp 5 (.ofVar (.simpleVar 6 "a".toList)) (.seqExp 7 .nil),
      .seqExp 8 .nil])))])])

/-- The `Binder` accepts `undeclaredInTest` and leaves the use of `a` unbound. -/
theorem not_complete_of_accepted :
    ¬ ∀ (program : Ast Addr .chunkList) (b : Binder), program.nodes.Nodup →
      bind program = .ok b → Complete b.defs program := by
  intro h
  have hb : (bind undeclaredInTest).toOption.map (fun b => b.defs 6) = some none := by decide
  cases hp : bind undeclaredInTest with
  | error e => simp [hp, Except.toOption] at hb
  | ok b =>
    have hc := h undeclaredInTest b (by decide) hp
    simp only [hp, Except.toOption, Option.map_some, Option.some.injEq] at hb
    simp [Complete, undeclaredInTest, Ast.ofList, Scope.Everywhere, Bound, hb] at hc

end Binder

end TigerCompiler
