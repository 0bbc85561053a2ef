import TigerCompiler.Desugar.Constructs

/-!
# Desugaring preserves the meaning of programs

A program and its desugared copy are run side by side, from the prelude to the end of `_main`.
-/

namespace TigerCompiler.DesugarVisitor

open Reference (Val Lvalue Obj Cell Store Binding Env Interrupt Run Platform State exec)

variable {α W : Type}

variable {v : DesugarVisitor α} {P : Platform W} {call call' : Call α W} {n : Nat}
  {w w₁ : World} {s s' : State α W} {σ σ' : Store W} {ρ ρ' : Env α} {c : Kind}

/-! ## Every construct -/

section Constructs

variable (hc : CallsRel v P call call') (hP : Supports v P)

include hc hP

theorem follows_opExp {a : α} {l r : Ast α .exp} {o : Oper} (hl : Follows v P call call' n l)
    (hr : Follows v P call call' n r) : Follows v P call call' n (.opExp a l o r) := by
  by_cases h : (v.desugarStringCmpP && v.isString l) = true
  · obtain ⟨hv, hstring⟩ := Bool.and_eq_true_iff.mp h
    exact follows_compare hc hP hv hstring hl hr
  · exact follows_operation h hl hr

omit hc in
theorem follows_forExp {a b : α} {x : Symbol} {t : Ast α (.opt .nameTy)}
    {init hi body : Ast α .exp}
    (hclean : v.Clean (.forExp a (.varDec b x t (.some init)) hi body))
    (hinit : Follows v P call call' n init) (hhi : Follows v P call call' n hi)
    (hbody : Follows v P call call' n body) :
    Follows v P call call' n (.forExp a (.varDec b x t (.some init)) hi body) := by
  by_cases hv : v.desugarForP = true
  · have hx : x ∉ [loName, hiName] := by
      have hdec : v.Clean (.varDec b x t (.some init)) := hclean.part (Ast.mem_first rfl)
      simpa [cleanAt] using hdec.here
    exact follows_loop hP hv hx hinit hhi hbody
  · exact follows_for hv hinit hhi hbody

theorem follows : {c : Kind} → (t : Ast α c) → v.Clean t → Follows v P call call' n t
  | _, .nil, _ => follows_nil
  | _, .cons x xs, h =>
    follows_cons (follows x (h.part (Ast.mem_first rfl))) (follows xs (h.part (Ast.mem_second rfl)))
  | _, .none, _ => follows_none
  | _, .some x, h => follows_some (follows x (h.part (Ast.mem_first rfl)))
  | _, .simpleVar _ _, h => follows_simpleVar h
  | _, .fieldVar _ u _, h => follows_fieldVar (follows u (h.part (Ast.mem_first rfl)))
  | _, .subscriptVar _ u i, h =>
    follows_subscriptVar (follows u (h.part (Ast.mem_first rfl)))
      (follows i (h.part (Ast.mem_second rfl)))
  | _, .ofVar u, h => follows_ofVar (follows u (h.part (Ast.mem_first rfl)))
  | _, .nilExp _, _ => follows_nilExp
  | _, .intExp _ _, _ => follows_intExp
  | _, .stringExp _ _, _ => follows_stringExp
  | _, .callExp _ _ args, h => follows_callExp hc (follows args (h.part (Ast.mem_first rfl)))
  | _, .opExp _ l _ r, h =>
    follows_opExp hc hP (follows l (h.part (Ast.mem_first rfl)))
      (follows r (h.part (Ast.mem_second rfl)))
  | _, .recordExp _ _ fs, h => follows_recordExp (follows fs (h.part (Ast.mem_second rfl)))
  | _, .seqExp _ es, h => follows_seqExp (follows es (h.part (Ast.mem_first rfl)))
  | _, .assignExp _ u e, h =>
    follows_assignExp (follows u (h.part (Ast.mem_first rfl)))
      (follows e (h.part (Ast.mem_second rfl)))
  | _, .ifExp _ test t e, h =>
    follows_ifExp (follows test (h.part (Ast.mem_first rfl)))
      (follows t (h.part (Ast.mem_second rfl))) (follows e (h.part (Ast.mem_third rfl)))
  | _, .whileExp _ test body, h =>
    follows_whileExp (follows test (h.part (Ast.mem_first rfl)))
      (follows body (h.part (Ast.mem_second rfl)))
  | _, .forExp _ (.varDec _ _ _ .none) _ _, _ => follows_unset
  | _, .forExp _ (.varDec _ _ _ (.some init)) hi body, h =>
    follows_forExp hP h (follows init (h.part (by simp [Ast.subterms])))
      (follows hi (h.part (Ast.mem_second rfl))) (follows body (h.part (Ast.mem_third rfl)))
  | _, .breakExp _, _ => follows_breakExp
  | _, .letExp _ cs b, h =>
    follows_letExp (follows cs (h.part (Ast.mem_first rfl)))
      (follows b (h.part (Ast.mem_second rfl)))
  | _, .arrayExp _ _ size init, h =>
    follows_arrayExp (follows size (h.part (Ast.mem_second rfl)))
      (follows init (h.part (Ast.mem_third rfl)))
  | _, .castExp _ e _, h => follows_castExp (follows e (h.part (Ast.mem_first rfl)))
  | _, .fieldInit _ _ i, h => follows_fieldInit (follows i (h.part (Ast.mem_first rfl)))
  | _, .varDec _ _ _ i, h => follows_varDec (follows i (h.part (Ast.mem_second rfl)))
  | _, .varChunk _ ds, h => follows_varChunk (follows ds (h.part (Ast.mem_first rfl)))
  | _, .ofVarChunk ch, h => follows_ofVarChunk (follows ch (h.part (Ast.mem_first rfl)))
  | _, .functionChunk _ _, h => follows_functionChunk h
  | _, .chunkList _ cs, h => follows_chunkList (follows cs (h.part (Ast.mem_first rfl)))
  -- The declarations of types and the headers of functions do nothing.
  | _, .nameTy _ _, _ | _, .ofNameTy _, _ | _, .recordTy _ _, _ | _, .arrayTy _ _, _
  | _, .field _ _ _, _ | _, .functionDec _ _ _ _ _, _ | _, .typeDec _ _ _, _
  | _, .typeChunk _ _, _ => fun hs => side_ok trivial hs fun _ => ⟨rfl, rfl⟩

end Constructs

/-! ## Calls -/

theorem bindFormals_side {xs : List Symbol} {vs : List Val} (hs : StateRel v w s s') :
    Side w (fun w₁ t t' => StateRel v w₁ t t') (Reference.bindFormals xs vs s)
      (Reference.bindFormals xs vs s') := by
  induction xs generalizing vs w s s' with
  | nil =>
    cases vs with
    | nil => exact .ok (le_refl w) hs
    | cons => exact side_wrong
  | cons x xs ih =>
    cases vs with
    | nil => exact side_wrong
    | cons r vs =>
      have hdeclare := hs.declare x ⟨r, true⟩ ⟨r, true⟩ rfl id
      exact (ih hdeclare).later World.le_push

/-- The return from a function. -/
theorem catchReturn_side {x x' : Run W (Val × State α W)}
    (hx : Side w (Result v .exp ρ ρ') x x') :
    Side w (Result v .exp ρ ρ') (Reference.catchReturn x) (Reference.catchReturn x') := by
  cases hx with
  | ok hw h => exact .ok hw h
  | @error w₁ e e' hw h =>
    cases e with
    | broke σ => exact side_wrong
    | fault f =>
      cases e' with
      | broke σ' => cases h
      | fault f' => exact .error hw h
  | excuse h =>
    cases h
    exact side_wrong

theorem callsRel_callWith {body body' : Ast α .exp → State α W → Run W (Val × State α W)}
    (hbody : ∀ {e : Ast α .exp}, v.Clean e → ∀ {w : World} {s s' : State α W},
      StateRel v w s s' → Side w (Result v .exp s.env s'.env) (body e s) (body' (v.visit e) s')) :
    CallsRel v P (Reference.callWith P body) (Reference.callWith P body') where
  follow {w d ρ ρ' σ σ'} vs hclean henv hσ := by
    cases d with
    | functionDec a x fs r b =>
      cases b with
      | none =>
        rw [visit, visit, Reference.callWith, Reference.callWith, hσ.world]
        apply Together.bind (side_orFail rfl)
        rintro w₁ - p _ ⟨rfl, rfl, -⟩
        exact .ok (le_refl w₁) ⟨rfl, hσ.good, hσ.left, hσ.right, hσ.heap, rfl⟩
      | some e =>
        cases fs with
        | varChunk c fs =>
          have he : v.Clean e := (hclean rfl).part (by simp [Ast.subterms])
          have hnames : (fs.toList.map v.visit).map Ast.varName = fs.toList.map Ast.varName := by
            simp [Function.comp_def]
          rw [visit, visit, visit, Reference.callWith, Reference.callWith, toList_visit, hnames]
          have hs : StateRel v w ⟨ρ, σ⟩ ⟨ρ', σ'⟩ := ⟨hσ, henv⟩
          apply Together.bind (bindFormals_side hs)
          intro w₁ hw₁ s₁ s₁' hs₁
          apply Together.bind (catchReturn_side (hbody he hs₁))
          rintro w₂ - p p' ⟨hr, hs₂, -⟩
          exact .ok (le_refl w₂) ⟨hr, hs₂.store⟩
  primitive {d ρ σ} vs hbody r w hr := by
    cases d with
    | functionDec a x fs t b =>
      cases b with
      | none =>
        have hcall : P.call x vs σ.world = some (r, w) := hr
        rw [Reference.callWith, hcall]
        rfl
      | some e => cases hbody

/-- The calls of a program and of its copy. -/
theorem callsRel (hP : Supports v P) (k : Nat) :
    CallsRel v P (Reference.call P v.isString k) (Reference.call P (fun _ => false) k) := by
  induction k with
  | zero => exact callsRel_callWith fun _ _ _ _ _ => side_fail _
  | succ k ih => exact callsRel_callWith fun hclean => follows ih hP _ hclean

/-! ## Programs -/

/-- A program, after its prelude. -/
def afterPrelude (a b : α) (prims : Ast α (.list .functionDec)) (chunks : Ast α (.list .chunk)) :
    Ast α .chunkList :=
  .chunkList a (.cons (.functionChunk b prims) chunks)

/-- The stores before a run. -/
theorem storeRel_start (w : W) : StoreRel ⟨[], [], []⟩ { world := w } { world := w } where
  good := ⟨fun _ _ _ h => (by cases h), rfl, fun _ _ h => (by cases h)⟩
  left := rfl
  right := rfl
  heap := rfl
  world := rfl

theorem run_afterPrelude {f : Ast α .exp → Bool} {a b : α} {prims : Ast α (.list .functionDec)}
    {chunks : Ast α (.list .chunk)} {k : Nat} {w : W} :
    Reference.run P f k (afterPrelude a b prims chunks) w =
      (do
        let p ← exec P f (Reference.call P f k) k chunks ⟨[.funs prims.toList], { world := w }⟩
        let d ← Reference.orFail .wrong (p.2.env.function "_main".toList)
        Reference.call P f k d.1 d.2 [] p.2.store) := by
  simp only [Reference.run, afterPrelude, exec, ok_bind, bind_assoc, pure_bind]

theorem run_side {a b : α} {prims : Ast α (.list .functionDec)} {chunks : Ast α (.list .chunk)}
    (hprims : v.Prelude prims.toList) (hclean : v.Clean chunks) (hP : Supports v P) (k : Nat)
    (w : W) :
    Side ⟨[], [], []⟩ (fun w₁ p p' => p'.1 = p.1 ∧ StoreRel w₁ p.2 p'.2)
      (Reference.run P v.isString k (afterPrelude a b prims chunks) w)
      (Reference.run P (fun _ => false) k (v.visit (afterPrelude a b prims chunks)) w) := by
  have hcopy : v.visit (afterPrelude a b prims chunks) =
      afterPrelude a b (v.visit prims) (v.visit chunks) := by
    simp only [afterPrelude, visit]
  rw [hcopy, run_afterPrelude, run_afterPrelude, toList_visit]
  have hstart : StateRel v ⟨[], [], []⟩ ⟨[.funs prims.toList], { world := w }⟩
      ⟨[.funs (prims.toList.map v.visit)], { world := w }⟩ :=
    ⟨storeRel_start w, .prelude hprims⟩
  have hcalls := callsRel hP k
  apply Follows.bind (follows hcalls hP _ hclean) hstart
  intro w₁ hw₁ _ _ s₁ s₁' _ hs₁ _
  cases hd : s₁.env.function "_main".toList with
  | none => exact side_wrong
  | some d =>
    obtain ⟨hbody, ρ', hd', henv⟩ := hs₁.env.function_eq_some hd
    simp only [hd', Reference.orFail, ok_bind]
    exact hcalls.follow [] hbody henv hs₁.store

/-- Desugaring preserves the meaning of programs whose names leave those of the texts alone: the
copy ends with the same value, the same objects and the same world, or stops for the same reason,
and within the same bounds.  A program that goes wrong may become one that does not. -/
theorem desugar_preserves {a b : α} {prims : Ast α (.list .functionDec)}
    {chunks : Ast α (.list .chunk)} (hprims : v.Prelude prims.toList) (hclean : v.Clean chunks)
    (hP : Supports v P) (k : Nat) (w : W) :
    (∀ r σ, Reference.run P v.isString k (afterPrelude a b prims chunks) w = .ok (r, σ) →
      ∃ σ', Reference.run P (fun _ => false) k (v.visit (afterPrelude a b prims chunks)) w =
        .ok (r, σ') ∧ σ'.world = σ.world ∧ σ'.heap = σ.heap) ∧
      ∀ f, f ≠ .wrong →
        Reference.run P v.isString k (afterPrelude a b prims chunks) w = Reference.fail f →
        Reference.run P (fun _ => false) k (v.visit (afterPrelude a b prims chunks)) w =
          Reference.fail f := by
  have hside := run_side (a := a) (b := b) hprims hclean hP k w
  constructor
  · intro r σ hrun
    rw [hrun] at hside
    obtain ⟨w₁, ⟨_, σ'⟩, -, hrun', rfl, hσ⟩ := hside.of_ok
    exact ⟨σ', hrun', hσ.world, hσ.heap⟩
  · intro f hf hrun
    rw [hrun] at hside
    have hnot : ¬ Excused (.fault f : Interrupt W) := by
      rintro ⟨⟩
      exact hf rfl
    obtain ⟨w₁, e, -, hrun', he⟩ := hside.of_error hnot
    cases e with
    | broke σ' => cases he
    | fault f' =>
      cases he
      exact hrun'

/-- Arithmetic that fails where it overflows, and the two comparisons of the runtime. -/
def comparing : Platform Unit where
  arith
    | .add, l, r => if l.saddOverflow r then .error .exhausted else .ok (l + r)
    | _, _, _ => .error .wrong
  call
    | x, [.str l, .str r], w =>
      if x = streqName then some (.int (Runtime.tcStreq Runtime.strcmp l r), w)
      else if x = strcmpName then some (.int (Runtime.tcStrcmp Runtime.strcmp l r), w)
      else none
    | _, _, _ => none

/-- Both desugarings, where literals are the strings. -/
def both : DesugarVisitor Unit where
  desugarForP := true
  desugarStringCmpP := true
  isString
    | .stringExp _ _ => true
    | _ => false

theorem supports_comparing : both.Supports comparing where
  add _ i hi := by
    have hfit : i.saddOverflow 1#64 = false := by
      have hmax : i.toInt ≤ 2 ^ 63 - 1 := BitVec.toInt_le
      have hmin : -(2 ^ 63) ≤ i.toInt := BitVec.le_toInt i
      have hone : (1#64).toInt = 1 := by decide
      have htop : (BitVec.intMax 64).toInt = 2 ^ 63 - 1 := by decide
      have hne : i.toInt ≠ 2 ^ 63 - 1 := by
        rw [← htop]
        exact fun heq => hi (BitVec.eq_of_toInt_eq heq)
      simp [BitVec.saddOverflow, hone]
      omega
    simp [comparing, hfit]
  compare _ := by
    have hne : strcmpName ≠ streqName := by decide
    exact ⟨Runtime.strcmp, Runtime.isStrcmp_strcmp, fun l r w => by simp [comparing],
      fun l r w => by simp [comparing, hne]⟩

/-- The sum of a range that ends at the greatest integer, where two strings are the same up to a
null character. -/
def sumBody : Ast Unit .exp :=
  .letExp () (.chunkList () (.ofList [declare () "s".toList (.intExp () 0)])) (.seqExp () (.ofList [
    .forExp () (.varDec () "i".toList .none (.some (.intExp () (2 ^ 63 - 2))))
      (.intExp () (2 ^ 63 - 1))
      (.ifExp () (.opExp () (.stringExp () "a\x00b".toList) .le (.stringExp () "a".toList))
        (.assignExp () (.simpleVar () "s".toList) (get () "i".toList)) (.seqExp () .nil)),
    get () "s".toList]))

def primitives : Ast Unit (.list .functionDec) :=
  .ofList [.functionDec () streqName (.varChunk () .nil) .none .none,
    .functionDec () strcmpName (.varChunk () .nil) .none .none]

def mainChunks (body : Ast Unit .exp) : Ast Unit (.list .chunk) :=
  .ofList [.functionChunk () (.ofList [.functionDec () "_main".toList (.varChunk () .nil) .none
    (.some body)])]

theorem desugar_preserves_sum :
    (∃ σ, Reference.run comparing (fun _ => false) 3
      (both.visit (afterPrelude () () primitives (mainChunks sumBody))) () =
        .ok (.int (BitVec.intMax 64), σ) ∧ σ.world = () ∧ σ.heap = []) := by
  have hprims : both.Prelude primitives.toList := by
    constructor
    · decide
    · decide
  have hclean : both.Clean (mainChunks sumBody) := by
    decide
  apply (desugar_preserves hprims hclean supports_comparing 3 ()).1 _
    ⟨(), [⟨.int (BitVec.intMax 64), true⟩, ⟨.int (BitVec.intMax 64), false⟩], []⟩
  rfl

end TigerCompiler.DesugarVisitor
