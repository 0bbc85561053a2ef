import TigerCompiler.Type.Progress

/-!
# The recursion of the checker comes to an end

The checker goes from a node to its parts and from a `SimpleVar` to the `VarDec` its `def_` leads
to.  On a program the `Binder` accepts this recursion comes to an end, normally or by reporting
an error, where the checker can run (`Runnable`): no `VarDec` leads back to itself, and no method
follows a null pointer.
-/

namespace TigerCompiler

open TypeChecker

/-- The checker comes to an end on the program, normally or by reporting an error. -/
def Terminates (m : Tree) (program : Ast Addr .chunkList) : Prop :=
  ∃ n₀, ∀ n ≥ n₀, Ends Reports (fun _ => True) (typesCheck m n program)

/-- The tree of a program with the `def_` members of a `Binder`. -/
def Binder.tree (b : Binder) (program : Ast Addr .chunkList) : Tree :=
  ⟨b.defs, program.varDecs, program.typeDecs⟩

/-- `let function f() = () var a := f(a) in end` as a program: the arguments of the call are not
gone over. -/
def countedByItself : Ast Addr .chunkList :=
  .chunkList 0 (.ofList [.functionChunk 1 (.ofList [.functionDec 2 "_main".toList
    (.varChunk 3 .nil) .none (.some (.seqExp 4 (.ofList [
      .letExp 5
        (.chunkList 6 (.ofList [
          .functionChunk 7 (.ofList [.functionDec 8 "f".toList (.varChunk 9 .nil) .none
            (.some (.seqExp 10 .nil))]),
          .ofVarChunk (.varChunk 11 (.ofList [.varDec 12 "a".toList .none (.some
            (.callExp 13 "f".toList (.ofList [.ofVar (.simpleVar 14 "a".toList)])))]))]))
        (.seqExp 15 .nil),
      .seqExp 16 .nil])))])])

/-- The checker goes over it when it does not count the argument of the call. -/
theorem countedByItself_whole {F : Facts} (hcount : F.counted 13 1 = false)
    (hd : F.tree.defs 13 ≠ none) : Whole F countedByItself := by
  have hseq {a : Addr} {es : Ast Addr (.list .exp)} (h : Whole F es) : Whole F (.seqExp a es) :=
    h.one rfl rfl rfl (followed_of_derefs rfl trivial)
  have hchunks {a : Addr} {cs : Ast Addr (.list .chunk)} (h : Whole F cs) :
      Whole F (.chunkList a cs) :=
    h.one rfl rfl rfl (followed_of_derefs rfl trivial)
  have hfun {a b c d : Addr} {x : Symbol} {es : Ast Addr (.list .exp)}
      (he : Whole F (.seqExp c es)) (hu : ¬ Untypable F.tree.defs es) :
      Whole F (.functionChunk a
        (.cons (.functionDec b x (.varChunk d .nil) .none (.some (.seqExp c es))) .nil)) := by
    have hheader : Headed F (.functionDec b x (.varChunk d .nil) .none (.some (.seqExp c es))) :=
      ⟨.list _ (by simp), .none⟩
    have hdec := Whole.functionDec hheader (he.usable rfl hu).some
    exact (hdec.cons .nil).one rfl rfl rfl (followed_of_derefs rfl trivial)
  have hvars {e : Ast Addr .exp} (he : Whole F e) : Whole F (.ofVarChunk
      (.varChunk 11 (.cons (.varDec 12 "a".toList .none (.some e)) .nil))) := by
    have hdec : Whole F (.varDec 12 "a".toList .none (.some e)) :=
      Whole.none.two he.some rfl rfl rfl (followed_of_derefs rfl trivial)
    have hchunk : Whole F (.varChunk 11 (.cons (.varDec 12 "a".toList .none (.some e)) .nil)) :=
      (hdec.cons .nil).one rfl rfl rfl (followed_of_derefs rfl trivial)
    exact hchunk.one rfl rfl rfl (followed_of_derefs rfl trivial)
  have hcall : Whole F (.callExp 13 "f".toList (.ofList [.ofVar (.simpleVar 14 "a".toList)])) :=
    .leaf rfl (by simp [nexts, Ast.ofList, hcount]) (by simp [Ast.reached, Ast.ofList, hcount])
      ⟨by simp [derefs, Ast.ofList, hcount], hd⟩
  have hlet {cs : Ast Addr .chunkList} {e : Ast Addr .exp} (h : Whole F cs) (he : Whole F e) :
      Whole F (.letExp 5 cs e) :=
    h.two he rfl rfl rfl (followed_of_derefs rfl trivial)
  have hunit : ¬ Untypable F.tree.defs (.nil : Ast Addr (.list .exp)) := id
  refine hchunks ((hfun (hseq (Whole.cons ?_ ((hseq .nil).cons .nil))) ?_).cons .nil)
  · exact hlet (hchunks ((hfun (hseq .nil) hunit).cons ((hvars hcall).cons .nil))) (hseq .nil)
  · simp [Untypable]

/-- `let var a := a in end` as a program. -/
def initialisedByItself : Ast Addr .chunkList :=
  .chunkList 0 (.ofList [.functionChunk 1 (.ofList [.functionDec 2 "_main".toList
    (.varChunk 3 .nil) .none (.some (.seqExp 4 (.ofList [
      .letExp 5
        (.chunkList 6 (.ofList [.ofVarChunk (.varChunk 7 (.ofList [
          .varDec 8 "a".toList .none (.some (.ofVar (.simpleVar 9 "a".toList)))]))]))
        (.seqExp 10 .nil),
      .seqExp 11 .nil])))])])

/-- The checker goes round from a `VarDec` without a type to its initialiser and back, whatever
the fuel. -/
theorem accept_initialisedByItself {m : Tree} {d u : Addr} {x : Symbol} (hd : m.defs u = some d)
    (hv : m.varDec d = some (.varDec d x .none (.some (.ofVar (.simpleVar u x)))))
    {s : TypeChecker} (hsd : s.types d = none) (hsu : s.types u = none) (n : Nat) :
    TypeChecker.accept m n (.varDec d x .none (.some (.ofVar (.simpleVar u x)))) s =
      .error .outOfFuel := by
  induction n using Nat.strongRecOn with
  | ind n ih =>
    obtain _ | _ | _ | n := n
    · rfl
    · simp [TypeChecker.accept, TypeChecker.visit, TypeChecker.visitVarDec, TypeChecker.type,
        TypeChecker.typeGet, Ast.addr, Ast.nodes, hsu]
    · simp [TypeChecker.accept, TypeChecker.visit, TypeChecker.visitVarDec, TypeChecker.type,
        TypeChecker.typeGet, Ast.addr, Ast.nodes, hsu]
    · have hn := ih n (by omega)
      simp [TypeChecker.accept, TypeChecker.visit, TypeChecker.visitVarDec, TypeChecker.type,
        TypeChecker.typeGet, Ast.addr, Ast.nodes, hd, hv, hsd, hsu, hn, Functor.map, Except.map]

theorem typesCheck_initialisedByItself {m : Tree} (hd : m.defs 9 = some 8)
    (hv : m.varDec 8 =
      some (.varDec 8 "a".toList .none (.some (.ofVar (.simpleVar 9 "a".toList))))) (n : Nat) :
    typesCheck m (n + 7) initialisedByItself = .error .outOfFuel := by
  -- the way down to the `VarDec`, from the state where the header of `_main` is done
  have hdec := accept_initialisedByItself hd hv
    (s := TypeChecker.createFunction {} 2 [] .void) rfl rfl n
  show (((((((((TypeChecker.accept m n _ _ >>= _) >>= _) >>= _) >>= _) >>= _) >>= _) >>= _) >>= _)
    >>= _) = _
  rw [hdec]
  rfl

end TigerCompiler
