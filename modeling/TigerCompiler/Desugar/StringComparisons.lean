import TigerCompiler.Desugar.Following

/-!
# Operations, and comparisons of strings

What the runtime says of two strings is what their comparison is about.
-/

namespace TigerCompiler.DesugarVisitor

open Reference (Val Lvalue Obj Cell Store Binding Env Interrupt Run Platform State exec)

variable {α W : Type}

variable {v : DesugarVisitor α} {P : Platform W} {call call' : Call α W} {n : Nat}
  {w w₁ : World} {s s' : State α W} {σ σ' : Store W} {ρ ρ' : Env α} {c : Kind}

/-! ## Calls -/

/-- The call of a name. -/
def callName (call : Call α W) (x : Symbol) (vs : List Val) (s : State α W) :
    Run W (Val × State α W) := do
  let d ← Reference.orFail .wrong (s.env.function x)
  let t ← call d.1 d.2 vs s.store
  return (t.1, { s with store := t.2 })

theorem callName_side (hc : CallsRel v P call call') {x : Symbol} (vs : List Val)
    (hs : StateRel v w s s') :
    Side w (Result v .exp s.env s'.env) (callName call x vs s) (callName call' x vs s') := by
  rw [callName, callName]
  cases hd : s.env.function x with
  | none => exact side_wrong
  | some d =>
    obtain ⟨hbody, ρ', hd', henv⟩ := hs.env.function_eq_some hd
    rw [hd']
    simp only [Reference.orFail, ok_bind]
    apply Together.bind (hc.follow vs hbody henv hs.store)
    rintro w₁ hw₁ ⟨r, σ⟩ ⟨_, σ'⟩ ⟨rfl, hσ⟩
    exact side_ok rfl ⟨hσ, hs.env.later hw₁⟩ fun _ => ⟨rfl, rfl⟩

/-- A function that compares strings is called. -/
theorem callName_compare (hc : CallsRel v P call call') {x : Symbol} {inj : List Nat}
    {vs : List Val} {r : Val} (henv : EnvRel v inj ρ s'.env) (hv : v.desugarStringCmpP = true)
    (hx : x ∈ [streqName, strcmpName])
    (hr : P.call x vs s'.store.world = some (r, s'.store.world)) :
    callName call' x vs s' = .ok (r, s') := by
  obtain ⟨d, ρ₁, hd, hbody, rfl⟩ := henv.exists_primitive hv hx
  rw [callName, hd]
  simp only [Reference.orFail, ok_bind]
  rw [hc.primitive vs hbody r _ hr]
  rfl

/-! ## Comparisons -/

theorem exec_compareStrings {a : α} {o : Oper} {l r : Ast α .exp} :
    exec P (fun _ => false) call' n (compareStrings a l o r) s' =
      (do
        let p ← exec P (fun _ => false) call' n l s'
        let q ← exec P (fun _ => false) call' n r p.2
        if o = .eq then callName call' streqName [p.1, q.1] q.2
        else do
          let t ← callName call' strcmpName [p.1, q.1] q.2
          let z ← Reference.binaryOp P o t.1 (.int 0)
          return (z, t.2)) := by
  rw [compareStrings]
  by_cases ho : o = .eq
  · simp only [if_pos ho, callName, exec, Ast.ofList, bind_assoc, pure_bind, ok_bind]
  · simp only [if_neg ho, callName, exec, Ast.ofList, bind_assoc, pure_bind, ok_bind]
    rfl

/-- What the runtime says of two strings is what the comparison is about. -/
theorem compareInts_strcmp {strcmp : Str → Str → BitVec 32} (hf : Runtime.IsStrcmp strcmp)
    {o : Oper} {x y : Str} {r : Bool}
    (h : Reference.compareStrs o (Runtime.cString x) (Runtime.cString y) = some r) :
    Reference.compareInts o (Runtime.tcStrcmp strcmp x y) 0 = some r := by
  have heq := Runtime.tcStrcmp_eq_zero hf (l := x) (r := y)
  have hlt := Runtime.tcStrcmp_neg hf (l := x) (r := y)
  have hgt := Runtime.tcStrcmp_pos hf (l := x) (r := y)
  generalize Runtime.tcStrcmp strcmp x y = z at heq hlt hgt ⊢
  generalize Runtime.cString x = a at heq hlt hgt h
  generalize Runtime.cString y = b at heq hlt hgt h
  have hle : z.sle 0 = true ↔ ¬ b < a := by
    rw [← hgt, BitVec.sle_iff_toInt_le, BitVec.slt_iff_toInt_lt]
    omega
  have hge : (0 : BitVec 64).sle z = true ↔ ¬ a < b := by
    rw [← hlt, BitVec.sle_iff_toInt_le, BitVec.slt_iff_toInt_lt]
    omega
  cases o with
  | eq =>
    cases h
    simpa [Reference.compareInts] using heq
  | ne =>
    cases h
    simpa [Reference.compareInts] using heq
  | lt =>
    cases h
    simp [Reference.compareInts, ← hlt]
  | le =>
    cases h
    simp [Reference.compareInts, ← hle]
  | gt =>
    cases h
    simp [Reference.compareInts, ← hgt]
  | ge =>
    cases h
    simp [Reference.compareInts, ← hge]
  | _ => cases h

/-- A comparison of strings, and the call that it becomes. -/
theorem follows_compare (hc : CallsRel v P call call') (hP : Supports v P) {a : α} {o : Oper}
    {l r : Ast α .exp} (hv : v.desugarStringCmpP = true) (hstring : v.isString l = true)
    (hl : Follows v P call call' n l) (hr : Follows v P call call' n r) :
    Follows v P call call' n (.opExp a l o r) := by
  intro w s s' hs
  have hcopy : v.visit (.opExp a l o r) = compareStrings a (v.visit l) o (v.visit r) := by
    simp [visit, hv, hstring]
  rw [hcopy, exec_compareStrings, Reference.exec_opExp, hstring]
  apply Follows.bind hl hs
  intro w₁ hw₁ p _ s₁ s₁' hp hs₁ henv₁
  cases hp
  apply Follows.bind hr hs₁
  intro w₂ hw₂ q _ s₂ s₂' hq hs₂ henv₂
  cases hq
  cases p with
  | str x =>
    cases q with
    | str y =>
      obtain ⟨strcmp, hf, hstreq, hstrcmp⟩ := hP.compare hv
      cases hcomp : Reference.compareStrs o (Runtime.cString x) (Runtime.cString y) with
      | none =>
        simp only [Reference.operation, if_true, Reference.stringOp, hcomp]
        exact side_wrong
      | some z =>
        have hrun : Side (W := W) w₂ (Result v .exp s.env s'.env) (.ok (Reference.ofBool z, s₂))
            (.ok (Reference.ofBool z, s₂')) := by
          apply side_ok (c := .exp) rfl hs₂
          intro _
          exact env_trans (henv₁ rfl) (henv₂ rfl)
        simp only [Reference.operation, if_true, Reference.stringOp, hcomp]
        by_cases ho : o = .eq
        · subst ho
          cases hcomp
          have hbool : Val.int (Runtime.tcStreq strcmp x y) =
              Reference.ofBool (Runtime.cString x = Runtime.cString y) := by
            simp [Runtime.tcStreq_eq hf, Reference.ofBool]
          rw [if_pos rfl, callName_compare hc hs₂.env hv (by simp) (hstreq x y _), hbool]
          exact hrun
        · rw [if_neg ho, callName_compare hc hs₂.env hv (by simp) (hstrcmp x y _)]
          simp only [ok_bind, Reference.binaryOp, compareInts_strcmp hf hcomp]
          exact hrun
    | _ => exact side_wrong
  | _ => exact side_wrong

/-! ## Other operations -/

theorem orFail_eq_ofFault {β : Type} {f : Semantics.Fault} {x : Option β} :
    ∃ y, Reference.orFail (W := W) f x = Reference.ofFault y := by
  cases x with
  | none => exact ⟨.error f, rfl⟩
  | some r => exact ⟨.ok r, rfl⟩

theorem map_ofFault {β γ : Type} {f : β → γ} {x : Except Semantics.Fault β} :
    (Reference.ofFault x : Run W β).map f = Reference.ofFault (x.map f) := by
  cases x <;> rfl

/-- No operation breaks a loop. -/
theorem binaryOp_eq_ofFault {o : Oper} {p q : Val} :
    ∃ x, Reference.binaryOp P o p q = Reference.ofFault x := by
  fun_cases Reference.binaryOp P o p q with
  | case1 => exact ⟨.ok _, rfl⟩
  | case2 => exact ⟨_, map_ofFault⟩
  | case3 l r =>
    obtain ⟨y, hy⟩ := orFail_eq_ofFault (W := W) (f := .wrong)
      (x := Reference.compareStrs o (Runtime.cString l) (Runtime.cString r))
    refine ⟨y.map Reference.ofBool, ?_⟩
    rw [Reference.stringOp, hy, map_ofFault]
  | case4 l r =>
    cases o with
    | eq | ne => exact ⟨.ok _, rfl⟩
    | _ => exact ⟨.error _, rfl⟩
  | case5 => exact ⟨.error _, rfl⟩

/-- What is known to be strings, and what turns out to be. -/
theorem side_operation {o : Oper} {p q : Val} {b : Bool} :
    Side w (fun w' z z' => w' = w ∧ z' = z) (Reference.operation P b o p q)
      (Reference.operation P false o p q) := by
  have hsame : Side w (fun w' z z' => w' = w ∧ z' = z) (Reference.binaryOp P o p q)
      (Reference.binaryOp P o p q) := by
    obtain ⟨x, hx⟩ := binaryOp_eq_ofFault (P := P) (o := o) (p := p) (q := q)
    rw [hx]
    exact side_ofFault rfl
  cases b with
  | false => exact hsame
  | true =>
    cases p with
    | str x =>
      cases q with
      | str y => exact hsame
      | _ => exact side_wrong
    | _ => exact side_wrong

/-- An operation that is kept.  The program may know that it compares strings. -/
theorem follows_operation {a : α} {o : Oper} {l r : Ast α .exp}
    (hv : ¬ (v.desugarStringCmpP && v.isString l) = true) (hl : Follows v P call call' n l)
    (hr : Follows v P call call' n r) : Follows v P call call' n (.opExp a l o r) := by
  intro w s s' hs
  rw [visit, if_neg hv, Reference.exec_opExp, Reference.exec_opExp]
  apply Follows.bind hl hs
  intro w₁ hw₁ p _ s₁ s₁' hp hs₁ henv₁
  cases hp
  apply Follows.bind hr hs₁
  intro w₂ hw₂ q _ s₂ s₂' hq hs₂ henv₂
  cases hq
  apply Together.bind side_operation
  rintro w₃ - _ z ⟨rfl, rfl⟩
  exact side_ok rfl hs₂ fun _ => env_trans (henv₁ rfl) (henv₂ rfl)

end TigerCompiler.DesugarVisitor
