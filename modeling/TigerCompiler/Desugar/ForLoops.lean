import TigerCompiler.Desugar.Following

/-!
# Loops and their texts

Each turn of a `for` is one of the `while` that it becomes.  What the text adds to the variable of
the loop never overflows, as the turn of the high bound is the last one.
-/

namespace TigerCompiler.DesugarVisitor

open Reference (Val Lvalue Obj Cell Store Binding Env Interrupt Run Platform State exec)

variable {α W : Type}

variable {v : DesugarVisitor α} {P : Platform W} {call call' : Call α W} {n : Nat}
  {w w₁ : World} {s s' : State α W} {σ σ' : Store W} {ρ ρ' : Env α} {c : Kind}

/-! ## Loops -/

open Reference (catchBreak whileLoop forLoop)

/-- A turn that is cut short, in a loop that was entered in the world `w₀`. -/
theorem catchBreak_error {w₀ : World} {e e' : Interrupt W} {x x' : Run W (c.Meaning × State α W)}
    {next next' : Store W → Run W (Val × State α W)} (hw : w₀ ≤ w)
    (henv : EnvRel v w.inj s.env s'.env) (he : InterruptRel w e e') (hx : x = .error e)
    (hx' : x' = .error e') :
    Side w₀ (Result v .exp s.env s'.env) (catchBreak s x next) (catchBreak s' x' next') := by
  subst hx hx'
  cases e with
  | broke σ =>
    cases e' with
    | broke σ' => exact .ok hw ⟨rfl, ⟨he, henv⟩, fun _ => ⟨rfl, rfl⟩⟩
    | fault f => cases he
  | fault f =>
    cases e' with
    | broke σ' => cases he
    | fault f' =>
      cases he
      exact side_fail f

/-- The end of a turn. -/
theorem catchBreak_side {w₀ : World} {x x' : Run W (c.Meaning × State α W)}
    {next next' : Store W → Run W (Val × State α W)} (hw : w₀ ≤ w)
    (henv : EnvRel v w.inj s.env s'.env) (hx : Side w (Result v c ρ ρ') x x')
    (hnext : ∀ w₁, w ≤ w₁ → ∀ σ σ', StoreRel w₁ σ σ' →
      Side w₀ (Result v .exp s.env s'.env) (next σ) (next' σ')) :
    Side w₀ (Result v .exp s.env s'.env) (catchBreak s x next) (catchBreak s' x' next') := by
  cases hx with
  | @ok w₁ p p' hw₁ h => exact hnext w₁ hw₁ _ _ h.state.store
  | @error w₁ e e' hw₁ h =>
    exact catchBreak_error (le_trans hw hw₁) (henv.later hw₁) h rfl rfl
  | excuse h =>
    cases h
    exact side_wrong

/-- A `while` and its copy. -/
theorem whileLoop_side {test body test' body' : State α W → Run W (Val × State α W)}
    (htest : ∀ {w : World} {s s' : State α W}, StateRel v w s s' →
      Side w (Result v .exp s.env s'.env) (test s) (test' s'))
    (hbody : ∀ {w : World} {s s' : State α W}, StateRel v w s s' →
      Side w (Result v .exp s.env s'.env) (body s) (body' s')) (k : Nat) (hs : StateRel v w s s') :
    Side w (Result v .exp s.env s'.env) (whileLoop test body k s) (whileLoop test' body' k s') := by
  induction k generalizing w s s' with
  | zero => exact side_fail _
  | succ k ih =>
    apply Together.bind (htest hs)
    rintro w₁ hw₁ ⟨r, s₁⟩ ⟨r', s₁'⟩ ⟨rfl, hs₁, -⟩
    apply side_toInt.bind
    rintro w₂ - _ i ⟨rfl, rfl, rfl⟩
    have hrest := hs.restore hw₁ hs₁.store
    by_cases hi : i = 0
    · rw [if_neg (not_not_intro hi), if_neg (not_not_intro hi)]
      exact side_ok rfl hrest fun _ => ⟨rfl, rfl⟩
    · rw [if_pos hi, if_pos hi]
      apply catchBreak_side (le_refl w₂) (hs.env.later hw₁) (hbody hrest)
      intro w₃ hw₃ σ σ' hσ
      have hnext : StateRel v w₃ { s with store := σ } { s' with store := σ' } :=
        ⟨hσ, hs.env.later (le_trans hw₁ hw₃)⟩
      exact (ih hnext).later hw₃

/-- A `for` and its copy, where loops are kept. -/
theorem forLoop_side {body body' : State α W → Run W (Val × State α W)} {w₀ : World} {l b : Nat}
    {hi i : BitVec 64}
    (hbody : ∀ {w : World} {s s' : State α W}, StateRel v w s s' →
      Side w (Result v .exp s.env s'.env) (body s) (body' s')) (k : Nat) (hw : w₀ ≤ w)
    (hs : StateRel v w s s') (hl : w.inj[l]? = some b) (hnew : w₀.left.length ≤ l)
    (hflag : ∀ c, w.right[b]? = some c → c.writable = false) :
    Side w₀ (Result v .exp s.env s'.env) (forLoop body l hi k i s) (forLoop body' b hi k i s') := by
  induction k generalizing w s s' i with
  | zero => exact side_fail _
  | succ k ih =>
    have hle : w₀ ≤ w.set l b ⟨.int i, false⟩ ⟨.int i, false⟩ := by
      refine World.le_set hw hs.store.good hl ?_ fun c hc => (hflag c hc).symm
      intro a ha
      rw [List.getElem?_eq_none hnew] at ha
      cases ha
    have hturn : StateRel v (w.set l b ⟨.int i, false⟩ ⟨.int i, false⟩)
        { s with store := s.store.setLoop l i } { s' with store := s'.store.setLoop b i } :=
      ⟨hs.store.set hl rfl id, hs.env⟩
    have henv₀ : EnvRel v (w.set l b ⟨.int i, false⟩ ⟨.int i, false⟩).inj s.env s'.env := hs.env
    apply catchBreak_side hle henv₀ (hbody hturn)
    intro w₁ hw₁ σ σ' hσ
    have henv : EnvRel v w₁.inj s.env s'.env := henv₀.later hw₁
    have hend : StateRel v w₁ { s with store := σ } { s' with store := σ' } := ⟨hσ, henv⟩
    by_cases hi' : i = hi
    · rw [if_pos hi', if_pos hi']
      exact (side_ok (c := .exp) rfl hend fun _ => ⟨rfl, rfl⟩).later (le_trans hle hw₁)
    · rw [if_neg hi', if_neg hi']
      have hlt : b < w.right.length := hs.store.good.lt (List.mem_of_getElem? hl)
      obtain ⟨a, ha⟩ := hw₁.flags b ⟨.int i, false⟩ (List.getElem?_set_self hlt)
      apply ih (le_trans hle hw₁) hend (hw₁.inj_later hl)
      intro c hc
      rw [ha] at hc
      cases hc
      rfl

/-- A `for` that is kept. -/
theorem follows_for {a b : α} {x : Symbol} {t : Ast α (.opt .nameTy)} {init hi body : Ast α .exp}
    (hv : ¬ v.desugarForP = true) (hinit : Follows v P call call' n init)
    (hhi : Follows v P call call' n hi) (hbody : Follows v P call call' n body) :
    Follows v P call call' n (.forExp a (.varDec b x t (.some init)) hi body) := by
  intro w s s' hs
  rw [visit, if_neg hv, exec, exec]
  apply Follows.bind hinit hs
  intro w₁ hw₁ r _ s₁ s₁' hr hs₁ henv₁
  cases hr
  apply Follows.bind hhi hs₁
  intro w₂ hw₂ q _ s₂ s₂' hq hs₂ henv₂
  cases hq
  apply Together.bind side_toInt
  rintro w₃ - _ lo ⟨rfl, rfl, -⟩
  apply Together.bind side_toInt
  rintro w₄ - _ hi ⟨rfl, rfl, -⟩
  have henv := env_trans (henv₁ rfl) (henv₂ rfl)
  by_cases hle : lo.sle hi = true
  · rw [if_pos hle, if_pos hle]
    have hnew : w₄.left.length ≤ s₂.store.cells.length :=
      Nat.le_of_eq (by rw [hs₂.store.left])
    have hstart := hs₂.declare x ⟨.int lo, false⟩ ⟨.int lo, false⟩ rfl id
    have hflag : ∀ c, (w₄.push ⟨.int lo, false⟩ ⟨.int lo, false⟩).right[
        s₂'.store.cells.length]? = some c → c.writable = false := by
      intro c hc
      rw [hs₂.store.right] at hc
      cases List.getElem?_concat_length.symm.trans hc
      rfl
    refine Together.bind (forLoop_side hbody n World.le_push hstart (hs₂.store.inj_push _ _) hnew
      hflag) ?_
    rintro w₅ hw₅ ⟨u, t⟩ ⟨u', t'⟩ ⟨hu, ht, -⟩
    exact side_ok hu ⟨ht.store, hs₂.env.later hw₅⟩ fun _ => henv
  · rw [if_neg hle, if_neg hle]
    exact side_ok rfl hs₂ fun _ => henv

/-! ## The text of a loop -/

/-- A variable of the copy, read. -/
theorem exec_get {a : α} {x : Symbol} {l : Nat} {d : Cell} (hx : s'.env.var x = some l)
    (hd : s'.store.cells[l]? = some d) :
    exec P (fun _ => false) call' n (get a x) s' = .ok (d.val, s') := by
  simp [get, exec, hx, Reference.orFail, Store.read, hd]

/-- The comparison of two variables of the copy. -/
theorem exec_compare {a : α} {x y : Symbol} {l b : Nat} {i j : BitVec 64} {f f' r : Bool}
    {o : Oper} (hx : s'.env.var x = some l) (hd : s'.store.cells[l]? = some ⟨.int i, f⟩)
    (hy : s'.env.var y = some b) (he : s'.store.cells[b]? = some ⟨.int j, f'⟩)
    (hr : Reference.compareInts o i j = some r) :
    exec P (fun _ => false) call' n (.opExp a (get a x) o (get a y)) s' =
      .ok (Reference.ofBool r, s') := by
  simp [exec, exec_get hx hd, exec_get hy he, Reference.binaryOp, hr]

/-- An `if` of a text. -/
theorem exec_guard {a : α} {r : Bool} {test e : Ast α .exp}
    (htest : exec P (fun _ => false) call' n test s' = .ok (Reference.ofBool r, s')) :
    exec P (fun _ => false) call' n (.ifExp a test e (.seqExp a .nil)) s' =
      if r = true then exec P (fun _ => false) call' n e s' else .ok (.unit, s') := by
  rw [exec, htest]
  cases r <;> simp [Reference.ofBool, Reference.toInt, exec]

theorem exec_seq {a : α} {e₁ e₂ e₃ : Ast α .exp} :
    exec P (fun _ => false) call' n (.seqExp a (.ofList [e₁, e₂, e₃])) s' =
      (do
        let p ← exec P (fun _ => false) call' n e₁ s'
        let p ← exec P (fun _ => false) call' n e₂ p.2
        exec P (fun _ => false) call' n e₃ p.2) := by
  simp only [exec, Ast.ofList, bind_assoc, pure_bind, ok_bind]
  cases exec P (fun _ => false) call' n e₁ s' with
  | error i => rfl
  | ok p =>
    rw [ok_bind, ok_bind]
    cases exec P (fun _ => false) call' n e₂ p.2 with
    | error i => rfl
    | ok p =>
      rw [ok_bind, ok_bind]
      cases exec P (fun _ => false) call' n e₃ p.2 <;> rfl

/-- A turn whose body ends. -/
theorem exec_turn {a : α} {x : Symbol} {l b : Nat} {i hi : BitVec 64} {f : Bool} {r : Val}
    {body : Ast α .exp} {s₁ : State α W}
    (hbody : exec P (fun _ => false) call' n body s' = .ok (r, s₁))
    (hx : s₁.env.var x = some l) (hd : s₁.store.cells[l]? = some ⟨.int i, true⟩)
    (hy : s₁.env.var hiName = some b) (he : s₁.store.cells[b]? = some ⟨.int hi, f⟩)
    (hadd : i ≠ hi → P.arith .add i 1#64 = .ok (i + 1#64)) :
    exec P (fun _ => false) call' n (turn a x body) s' =
      if i = hi then .error (.broke s₁.store)
      else .ok (.unit, { s₁ with store := { s₁.store with
        cells := s₁.store.cells.set l ⟨.int (i + 1#64), true⟩ } }) := by
  have htest : exec P (fun _ => false) call' n (.opExp a (get a x) .eq (get a hiName)) s₁ =
      .ok (Reference.ofBool (i = hi), s₁) := exec_compare hx hd hy he rfl
  rw [turn, exec_seq, hbody, ok_bind, exec_guard htest]
  by_cases h : i = hi
  · rw [if_pos h, if_pos (decide_eq_true h)]
    rfl
  · have hsum : exec P (fun _ => false) call' n (.opExp a (get a x) .add (.intExp a 1)) s₁ =
        .ok (.int (i + 1#64), s₁) := by
      simp [exec, exec_get hx hd, Reference.binaryOp, Reference.compareInts, Reference.ofFault,
        hadd h, Except.map]
    rw [if_neg h, if_neg (by simpa using h), ok_bind, exec, hsum, ok_bind]
    simp [exec, hx, Reference.orFail, Store.write_cell _ hd]

/-- A turn whose body is cut short. -/
theorem exec_turn_error {a : α} {x : Symbol} {body : Ast α .exp} {e : Interrupt W}
    (hbody : exec P (fun _ => false) call' n body s' = .error e) :
    exec P (fun _ => false) call' n (turn a x body) s' = .error e := by
  rw [turn, exec_seq, hbody]
  rfl

/-- The next turn of the `while` of the text. -/
theorem whileLoop_one {a : α} {k : Nat} {body : State α W → Run W (Val × State α W)} :
    whileLoop (exec P (fun _ => false) call' n (.intExp a 1)) body (k + 1) s' =
      catchBreak s' (body s') fun σ =>
        whileLoop (exec P (fun _ => false) call' n (.intExp a 1)) body k
          { s' with store := σ } := by
  rw [whileLoop, exec, ok_bind]
  rfl

/-- Below the high bound, the next turn is no overflow. -/
theorem add_one_sle {i hi : BitVec 64} (h : i.sle hi = true) (hne : i ≠ hi) :
    i ≠ BitVec.intMax 64 ∧ (i + 1#64).sle hi = true := by
  have hlt : i.toInt < hi.toInt := by
    have hle := BitVec.sle_iff_toInt_le.mp h
    have hne' : i.toInt ≠ hi.toInt := fun heq => hne (BitVec.eq_of_toInt_eq heq)
    omega
  have hmax : hi.toInt ≤ 2 ^ 63 - 1 := BitVec.toInt_le
  have hmin : -(2 ^ 63) ≤ i.toInt := BitVec.le_toInt i
  constructor
  · rintro rfl
    have htop : (BitVec.intMax 64).toInt = 2 ^ 63 - 1 := by decide
    omega
  · have hone : (1#64).toInt = 1 := by decide
    have hsum : (i.toInt + 1).bmod (2 ^ 64) = i.toInt + 1 := by
      apply Int.bmod_eq_of_le <;> omega
    rw [BitVec.sle_iff_toInt_le, BitVec.toInt_add, hone, hsum]
    omega

/-- The turns of a loop whose variable is `i`, and those of its text. -/
theorem turns_side {w₀ : World} {a : α} {x : Symbol} {body : Ast α .exp} {l b h : Nat}
    {hi i : BitVec 64} {f : Bool} (hfollows : Follows v P call call' n body)
    (hadd : ∀ i, i ≠ BitVec.intMax 64 → P.arith .add i 1#64 = .ok (i + 1#64)) (k : Nat)
    (hw : w₀ ≤ w) (hnew : w₀.left.length ≤ l) (hi' : i.sle hi = true)
    (hs : StoreRel w (s.store.setLoop l i) s'.store) (henv : EnvRel v w.inj s.env s'.env)
    (hl : w.inj[l]? = some b) (hleft : w.left[l]? = some ⟨.int i, false⟩)
    (hright : w.right[b]? = some ⟨.int i, true⟩) (hx : s'.env.var x = some b)
    (hy : s'.env.var hiName = some h) (hmem : h ∉ w.inj) (hhi : w.right[h]? = some ⟨.int hi, f⟩) :
    Side w₀ (Result v .exp s.env s'.env) (forLoop (exec P v.isString call n body) l hi k i s)
      (whileLoop (exec P (fun _ => false) call' n (.intExp a 1))
        (exec P (fun _ => false) call' n (turn a x (v.visit body))) k s') := by
  induction k generalizing w s s' i with
  | zero => exact side_fail _
  | succ k ih =>
    rw [whileLoop_one, forLoop]
    have hturn : StateRel v w { s with store := s.store.setLoop l i } s' := ⟨hs, henv⟩
    have hside := hfollows hturn
    generalize hrun : exec P v.isString call n body { s with store := s.store.setLoop l i } = r
      at hside ⊢
    generalize hrun' : exec P (fun _ => false) call' n (v.visit body) s' = r' at hside
    cases hside with
    | excuse h =>
      cases h
      exact side_wrong
    | error hw₁ he =>
      exact catchBreak_error (le_trans hw hw₁) (henv.later hw₁) he rfl (exec_turn_error hrun')
    | @ok w₁ p p' hw₁ hres =>
      obtain ⟨r', s₁'⟩ := p'
      have hσ : StoreRel w₁ p.2.store s₁'.store := hres.state.store
      have henv₁ : s₁'.env = s'.env := (hres.env rfl).2
      -- What the body leaves alone: the variable of the loop, and the high bound.
      have hl₁ : w₁.inj[l]? = some b := hw₁.inj_later hl
      have hright₁ : w₁.right[b]? = some ⟨.int i, true⟩ := by
        obtain ⟨c, ⟨val, writable⟩, hc, hc', hval, -⟩ := hσ.good.cell l b hl₁
        obtain ⟨u, hu⟩ := hw₁.flags b _ hright
        rw [hw₁.kept l _ hleft] at hc
        cases hc
        cases hval
        rw [hc'] at hu
        cases hu
        exact hc'
      have hhi₁ : w₁.right[h]? = some ⟨.int hi, f⟩ := hw₁.frame h _ hmem hhi
      have hmem₁ : h ∉ w₁.inj := by
        intro hin
        rcases hw₁.fresh h hin with hin | hge
        · exact hmem hin
        · rw [List.getElem?_eq_none hge] at hhi
          cases hhi
      have hx₁ : s₁'.env.var x = some b := by rw [henv₁, hx]
      have hy₁ : s₁'.env.var hiName = some h := by rw [henv₁, hy]
      have hstep := exec_turn (a := a) (x := x) hrun' hx₁ (hσ.right ▸ hright₁) hy₁
        (hσ.right ▸ hhi₁) fun hne => hadd i (add_one_sle hi' hne).1
      rw [hstep]
      by_cases hend : i = hi
      · rw [if_pos hend, Reference.catchBreak_ok, Reference.catchBreak_broke, if_pos hend]
        have hrest : StateRel v w₁ { s with store := p.2.store } { s' with store := s₁'.store } :=
          ⟨hσ, henv.later hw₁⟩
        exact (side_ok (c := .exp) rfl hrest fun _ => ⟨rfl, rfl⟩).later (le_trans hw hw₁)
      · rw [if_neg hend, Reference.catchBreak_ok, Reference.catchBreak_ok, if_neg hend]
        have hkept : ∀ u, w₀.left[l]? ≠ some ⟨u, false⟩ := by
          intro u hu
          rw [List.getElem?_eq_none hnew] at hu
          cases hu
        have hle : w₀ ≤ w₁.set l b ⟨.int (i + 1), false⟩ ⟨.int (i + 1), true⟩ := by
          apply World.le_set (le_trans hw hw₁) hσ.good hl₁ hkept
          intro c hc
          rw [hright₁] at hc
          cases hc
          rfl
        have hbh : b ≠ h := by
          rintro rfl
          exact hmem₁ (List.mem_of_getElem? hl₁)
        let σ' : Store W :=
          { s₁'.store with cells := s₁'.store.cells.set b ⟨.int (i + 1), true⟩ }
        apply @ih _ { s with store := p.2.store } { s' with store := σ' } (i + 1) hle
          (add_one_sle hi' hend).2
        · exact hσ.set hl₁ rfl fun _ => rfl
        · show EnvRel v w₁.inj s.env s'.env
          exact henv.later hw₁
        · exact hl₁
        · exact List.getElem?_set_self (List.getElem?_eq_some_iff.mp (hw₁.kept l _ hleft)).1
        · exact List.getElem?_set_self (List.getElem?_eq_some_iff.mp hright₁).1
        · exact hx
        · exact hy
        · exact hmem₁
        · rw [World.set, List.getElem?_set_ne hbh, hhi₁]

/-- The state in which a variable of the copy was declared. -/
def declared (x : Symbol) (r : Val) (s : State α W) : State α W :=
  ⟨.var x s.store.cells.length :: s.env, s.store.push ⟨r, true⟩⟩

section declared

variable {x y : Symbol} {r : Val} {l : Nat} {d : Cell}

theorem declared_var : (declared x r s).env.var x = some s.store.cells.length := by
  simp [declared, Env.var]

theorem declared_var_of_ne (hy : x ≠ y) : (declared x r s).env.var y = s.env.var y := by
  simp [declared, Env.var, hy]

theorem declared_cell : (declared x r s).store.cells[s.store.cells.length]? = some ⟨r, true⟩ :=
  List.getElem?_concat_length

theorem declared_cell_of_some (hd : s.store.cells[l]? = some d) :
    (declared x r s).store.cells[l]? = some d := World.getElem?_concat.mpr (.inl hd)

end declared

theorem exec_declare {a : α} {x : Symbol} {e : Ast α .exp} :
    exec P (fun _ => false) call' n (declare a x e) s' =
      (do
        let p ← exec P (fun _ => false) call' n e s'
        return ((), declared x p.1 p.2)) := by
  simp only [declare, exec, Ast.ofList, bind_assoc, pure_bind, ok_bind]
  cases exec P (fun _ => false) call' n e s' <;> rfl

theorem exec_loop {a : α} {x : Symbol} {lo hi body : Ast α .exp} :
    exec P (fun _ => false) call' n (loop a x lo hi body) s' =
      (do
        let p ← exec P (fun _ => false) call' n lo s'
        let q ← exec P (fun _ => false) call' n hi (declared loName p.1 p.2)
        let r ← exec P (fun _ => false) call' n (get a loName) (declared hiName q.1 q.2)
        let t ← exec P (fun _ => false) call' n (.ifExp a (.opExp a (get a x) .le (get a hiName))
          (.whileExp a (.intExp a 1) (turn a x body)) (.seqExp a .nil)) (declared x r.1 r.2)
        return (t.1, { s' with store := t.2.store })) := by
  rw [loop]
  generalize (Ast.ifExp a (.opExp a (get a x) .le (get a hiName))
    (.whileExp a (.intExp a 1) (turn a x body)) (.seqExp a .nil)) = e
  generalize hlo : declare a loName lo = d₁
  generalize hhi : declare a hiName hi = d₂
  generalize hx : declare a x (get a loName) = d₃
  simp only [exec, Ast.ofList, bind_assoc, pure_bind]
  subst hlo hhi hx
  simp only [exec_declare, bind_assoc, pure_bind]
  rfl

theorem setLoop_push {i : BitVec 64} :
    (σ.push ⟨.int i, false⟩).setLoop σ.cells.length i = σ.push ⟨.int i, false⟩ := by
  simp [Store.setLoop, Store.push]

/-- A variable of a text is declared in the copy alone. -/
theorem StateRel.text {x : Symbol} (hs : StateRel v w s s') (hx : x ∈ [loName, hiName]) (r : Val) :
    StateRel v (w.pushRight ⟨r, true⟩) s (declared x r s') :=
  ⟨hs.store.pushRight, .text hx hs.env⟩

theorem World.getElem?_pushRight {w : World} {d : Cell} :
    (w.pushRight d).right[w.right.length]? = some d := List.getElem?_concat_length

/-- The loop of a text, where its high bound was declared. -/
theorem loop_side {a : α} {x : Symbol} {body : Ast α .exp} {h : Nat} {lo hi : BitVec 64} {f : Bool}
    (hfollows : Follows v P call call' n body)
    (hadd : ∀ i, i ≠ BitVec.intMax 64 → P.arith .add i 1#64 = .ok (i + 1#64)) (k : Nat)
    (hx : x ≠ hiName) (hle : lo.sle hi = true) (hs : StateRel v w s s')
    (hy : s'.env.var hiName = some h) (hmem : h ∉ w.inj) (hhi : w.right[h]? = some ⟨.int hi, f⟩) :
    Side w (Result v .exp (.var x s.store.cells.length :: s.env) (declared x (.int lo) s').env)
      (forLoop (exec P v.isString call n body) s.store.cells.length hi k lo
        ⟨.var x s.store.cells.length :: s.env, s.store.push ⟨.int lo, false⟩⟩)
      (whileLoop (exec P (fun _ => false) call' n (.intExp a 1))
        (exec P (fun _ => false) call' n (turn a x (v.visit body))) k
        (declared x (.int lo) s')) := by
  have hstart := hs.declare x ⟨.int lo, false⟩ ⟨.int lo, true⟩ rfl fun _ => rfl
  have hleft : s.store.cells.length = w.left.length := by rw [hs.store.left]
  have hright : s'.store.cells.length = w.right.length := by rw [hs.store.right]
  have hne : h ≠ w.right.length := Nat.ne_of_lt (List.getElem?_eq_some_iff.mp hhi).1
  apply turns_side (s := ⟨.var x s.store.cells.length :: s.env, s.store.push ⟨.int lo, false⟩⟩)
    hfollows hadd k World.le_push (Nat.le_of_eq hleft.symm) hle
  · rw [setLoop_push]
    exact hstart.store
  · exact hstart.env
  · exact hs.store.inj_push _ _
  · rw [hleft]
    exact List.getElem?_concat_length
  · rw [hright]
    exact List.getElem?_concat_length
  · exact declared_var
  · exact (declared_var_of_ne hx).trans hy
  · intro hin
    rcases List.mem_append.mp hin with hin | hin
    · exact hmem hin
    · exact hne (List.mem_singleton.mp hin)
  · exact World.getElem?_concat.mpr (.inl hhi)

/-- A `for` and its text. -/
theorem follows_loop (hP : Supports v P) {a b : α} {x : Symbol} {t : Ast α (.opt .nameTy)}
    {init hi body : Ast α .exp} (hv : v.desugarForP = true) (hx : x ∉ [loName, hiName])
    (hinit : Follows v P call call' n init) (hhi : Follows v P call call' n hi)
    (hbody : Follows v P call call' n body) :
    Follows v P call call' n (.forExp a (.varDec b x t (.some init)) hi body) := by
  intro w s s' hs
  rw [visit, if_pos hv, exec_loop, exec]
  apply Follows.bind hinit hs
  intro w₁ hw₁ r _ s₁ s₁' hr hs₁ henv₁
  cases hr
  have hs₁' : StateRel v (w₁.pushRight ⟨r, true⟩) s₁ (declared loName r s₁') :=
    hs₁.text (by simp) r
  refine Together.later ?_ (World.le_pushRight (c := ⟨r, true⟩))
  apply Follows.bind hhi hs₁'
  intro w₂ hw₂ q _ s₂ s₂' hq hs₂ henv₂
  cases hq
  -- Bounds that are no integers go wrong.
  cases r with
  | int lo =>
    cases q with
    | int hi =>
      have hs₃ : StateRel v (w₂.pushRight ⟨.int hi, true⟩) s₂ (declared hiName (.int hi) s₂') :=
        hs₂.text (by simp) (.int hi)
      have hmem₁ : w₁.right.length ∉ w₁.inj := fun h => Nat.lt_irrefl _ (hs₁.store.good.lt h)
      have hlo : (declared hiName (.int hi) s₂').store.cells[w₁.right.length]? =
          some ⟨.int lo, true⟩ := by
        rw [hs₃.store.right]
        exact (le_trans hw₂ World.le_pushRight).frame _ _ hmem₁ World.getElem?_pushRight
      have hloEnv : (declared hiName (.int hi) s₂').env.var loName = some w₁.right.length := by
        rw [declared_var_of_ne (by decide), (henv₂ rfl).2, declared_var, hs₁.store.right]
      rw [exec_get hloEnv hlo]
      simp only [Reference.toInt, ok_bind]
      -- The variables of the text, in the copy.
      generalize hs₃' : declared hiName (.int hi) s₂' = s₃' at hs₃
      have hhiEnv : s₃'.env.var hiName = some s₂'.store.cells.length := by
        rw [← hs₃', declared_var]
      have hhiCell : s₃'.store.cells[s₂'.store.cells.length]? = some ⟨.int hi, true⟩ := by
        rw [← hs₃', declared_cell]
      have hxne : x ≠ hiName := by
        rintro rfl
        simp at hx
      have htest : exec P (fun _ => false) call' n (.opExp a (get a x) .le (get a hiName))
          (declared x (.int lo) s₃') =
          .ok (Reference.ofBool (lo.sle hi), declared x (.int lo) s₃') :=
        exec_compare declared_var declared_cell ((declared_var_of_ne hxne).trans hhiEnv)
          (declared_cell_of_some hhiCell) rfl
      rw [exec_guard htest]
      refine Together.later ?_ (World.le_pushRight (c := ⟨.int hi, true⟩))
      have hs₂env : s₂.env = s.env := (henv₂ rfl).1.trans (henv₁ rfl).1
      have henv₃ : EnvRel v w₂.inj s.env s'.env :=
        hs.env.later (le_trans hw₁ (le_trans World.le_pushRight hw₂))
      by_cases hle : lo.sle hi = true
      · rw [if_pos hle, if_pos hle, exec]
        have hmem : s₂'.store.cells.length ∉ (w₂.pushRight ⟨.int hi, true⟩).inj := by
          intro hin
          rw [hs₂.store.right] at hin
          exact Nat.lt_irrefl _ (hs₂.store.good.lt hin)
        refine Together.bind (loop_side hbody (hP.add hv) n hxne hle hs₃ hhiEnv hmem
          (hs₃.store.right ▸ hhiCell)) ?_
        rintro w₄ hw₄ ⟨u, t⟩ ⟨u', t'⟩ ⟨hu, ht, -⟩
        refine .ok (le_refl w₄) ⟨hu, ⟨ht.store, ?_⟩, ?_⟩
        · show EnvRel v w₄.inj s₂.env s'.env
          rw [hs₂env]
          exact henv₃.later (le_trans World.le_pushRight hw₄)
        · intro _
          exact ⟨hs₂env, rfl⟩
      · rw [if_neg hle, if_neg hle]
        refine .ok World.le_pushRight ⟨rfl, ⟨hs₃.store.pushRight (c := ⟨.int lo, true⟩), ?_⟩, ?_⟩
        · rw [hs₂env]
          exact henv₃
        · intro _
          exact ⟨hs₂env, rfl⟩
    | _ => exact side_wrong
  | _ => exact side_wrong

end TigerCompiler.DesugarVisitor
