import TigerCompiler.Desugar.Worlds

/-!
# Runs of a program and of its desugared copy

What is asked of both at each node, and the rules by which the runs of a node are put together from
those of its parts.
-/

namespace TigerCompiler.DesugarVisitor

open Reference (Val Lvalue Obj Cell Store Binding Env Interrupt Run Platform State exec)

variable {α W : Type}

/-! ## What goes together -/

/-- The states of both in a world. -/
structure StateRel (v : DesugarVisitor α) (w : World) (s s' : State α W) : Prop where
  store : StoreRel w s.store s'.store
  env : EnvRel v w.inj s.env s'.env

/-- What the runs of a node of a class give. -/
def MeaningRel (w : World) : (c : Kind) → c.Meaning → c.Meaning → Prop
  | .exp, r, r' => r' = r
  | .fieldInit, r, r' => r' = r
  | .var, p, p' => LvalueRel w p p'
  | .list k, rs, rs' => List.Forall₂ (MeaningRel w k) rs rs'
  | .opt k, r, r' => Option.Rel (MeaningRel w k) r r'
  | _, _, _ => True

/-- What is left of the runs among the declarations `ρ` and `ρ'`. -/
structure Result (v : DesugarVisitor α) (c : Kind) (ρ ρ' : Env α) (w : World)
    (p p' : c.Meaning × State α W) : Prop where
  meaning : MeaningRel w c p.1 p'.1
  state : StateRel v w p.2 p'.2
  env : c.declares = false → p.2.env = ρ ∧ p'.2.env = ρ'

/-- What is asked of the platform: its addition is right where it does not overflow, and the
functions that compare strings are those of the runtime. -/
structure Supports (v : DesugarVisitor α) (P : Platform W) : Prop where
  add : v.desugarForP = true → ∀ i, i ≠ BitVec.intMax 64 → P.arith .add i 1#64 = .ok (i + 1#64)
  compare : v.desugarStringCmpP = true → ∃ strcmp, Runtime.IsStrcmp strcmp ∧
    (∀ l r w, P.call streqName [.str l, .str r] w = some (.int (Runtime.tcStreq strcmp l r), w)) ∧
    ∀ l r w, P.call strcmpName [.str l, .str r] w = some (.int (Runtime.tcStrcmp strcmp l r), w)

/-- How functions are called. -/
abbrev Call (α W : Type) : Type :=
  Ast α .functionDec → Env α → List Val → Store W → Run W (Val × Store W)

/-- What is known of the calls: those of the copy of a function go together with those of the
function. -/
structure CallsRel (v : DesugarVisitor α) (P : Platform W) (call call' : Call α W) : Prop where
  follow : ∀ {w : World} {d : Ast α .functionDec} {ρ ρ' : Env α} {σ σ' : Store W} (vs : List Val),
    (d.hasBody = true → v.Clean d) → EnvRel v w.inj ρ ρ' → StoreRel w σ σ' →
    Side w (fun w₁ p p' => p'.1 = p.1 ∧ StoreRel w₁ p.2 p'.2) (call d ρ vs σ)
      (call' (v.visit d) ρ' vs σ')
  primitive : ∀ {d : Ast α .functionDec} {ρ : Env α} {σ : Store W} (vs : List Val),
    d.hasBody = false → ∀ r w, P.call d.functionName vs σ.world = some (r, w) →
      call' d ρ vs σ = .ok (r, { σ with world := w })

section Follows

variable (v : DesugarVisitor α) (P : Platform W) (call call' : Call α W) (n : Nat)

/-- The copy of a node goes together with it. -/
def Follows {c : Kind} (t : Ast α c) : Prop :=
  ∀ {w : World} {s s' : State α W}, StateRel v w s s' →
    Side w (Result v c s.env s'.env) (exec P v.isString call n t s)
      (exec P (fun _ => false) call' n (v.visit t) s')

end Follows

variable {v : DesugarVisitor α} {P : Platform W} {call call' : Call α W} {n : Nat}
  {w w₁ : World} {s s' : State α W} {σ σ' : Store W} {ρ ρ' : Env α} {c : Kind}

theorem EnvRel.later (h : EnvRel v w.inj ρ ρ') (hw : w ≤ w₁) : EnvRel v w₁.inj ρ ρ' :=
  h.mono hw.inj

theorem LvalueRel.later {p p' : Lvalue} (h : LvalueRel w p p') (hw : w ≤ w₁) :
    LvalueRel w₁ p p' := by
  cases p with
  | cell i =>
    cases p' with
    | cell l => exact hw.inj_later h
    | field | elem => cases h
  | field | elem => exact h

theorem MeaningRel.later {r r' : c.Meaning} (h : MeaningRel w c r r') (hw : w ≤ w₁) :
    MeaningRel w₁ c r r' := by
  induction c with
  | list k ih => exact List.Forall₂.imp (fun a b hab => ih hab) h
  | opt k ih =>
    cases h with
    | some h => exact .some (ih h)
    | none => exact .none
  | var => exact LvalueRel.later h hw
  | _ => exact h

/-! ## Rules -/

/-- What both do with the results of a part. -/
theorem Follows.bind {t : Ast α c} {β β' : Type} {R : World → β → β' → Prop}
    {g : c.Meaning × State α W → Run W β} {g' : c.Meaning × State α W → Run W β'}
    (h : Follows v P call call' n t) (hs : StateRel v w s s')
    (hg : ∀ w₁, w ≤ w₁ → ∀ r r' s₁ s₁', MeaningRel w₁ c r r' → StateRel v w₁ s₁ s₁' →
      (c.declares = false → s₁.env = s.env ∧ s₁'.env = s'.env) →
      Side w₁ R (g (r, s₁)) (g' (r', s₁'))) :
    Side w R (exec P v.isString call n t s >>= g)
      (exec P (fun _ => false) call' n (v.visit t) s' >>= g') := by
  apply Together.bind (h hs)
  rintro w₁ hw₁ ⟨r, s₁⟩ ⟨r', s₁'⟩ ⟨hr, hs₁, henv⟩
  exact hg w₁ hw₁ r r' s₁ s₁' hr hs₁ henv

theorem env_trans {s₁ s₁' s₂ s₂' : State α W} (h₁ : s₁.env = s.env ∧ s₁'.env = s'.env)
    (h₂ : s₂.env = s₁.env ∧ s₂'.env = s₁'.env) : s₂.env = s.env ∧ s₂'.env = s'.env :=
  ⟨h₂.1.trans h₁.1, h₂.2.trans h₁.2⟩

/-- A node that is run as a part of it is. -/
theorem Follows.map {d : Kind} {t : Ast α c} {u : Ast α d} (h : Follows v P call call' n t)
    (f : c.Meaning → d.Meaning) (hkind : d.declares = false → c.declares = false)
    (hu : ∀ s, exec P v.isString call n u s =
      (do let p ← exec P v.isString call n t s; return (f p.1, p.2)))
    (hu' : ∀ s, exec P (fun _ => false) call' n (v.visit u) s =
      (do let p ← exec P (fun _ => false) call' n (v.visit t) s; return (f p.1, p.2)))
    (hf : ∀ w r r', MeaningRel w c r r' → MeaningRel w d (f r) (f r')) :
    Follows v P call call' n u := by
  intro w s s' hs
  rw [hu, hu']
  apply Together.bind (h hs)
  rintro w₁ hw₁ p p' ⟨hr, hs₁, henv⟩
  exact .ok (le_refl w₁) ⟨hf w₁ _ _ hr, hs₁, fun hd => henv (hkind hd)⟩

/-- Both end here. -/
theorem side_ok {r r' : c.Meaning} {s₁ s₁' : State α W} (hr : MeaningRel w c r r')
    (hs : StateRel v w s₁ s₁') (henv : c.declares = false → s₁.env = s.env ∧ s₁'.env = s'.env) :
    Side (W := W) w (Result v c s.env s'.env) (.ok (r, s₁)) (.ok (r', s₁')) :=
  .ok (le_refl w) ⟨hr, hs, henv⟩

theorem side_toInt {r : Val} :
    Side (W := W) w (fun w' i i' => w' = w ∧ i' = i ∧ r = .int i) (Reference.toInt r)
      (Reference.toInt r) := by
  cases r with
  | int i => exact .ok (le_refl w) ⟨rfl, rfl, rfl⟩
  | _ => exact side_wrong

theorem side_toRef {r : Val} :
    Side (W := W) w (fun w' b b' => w' = w ∧ b' = b) (Reference.toRef r) (Reference.toRef r) := by
  cases r with
  | ref b => exact .ok (le_refl w) ⟨rfl, rfl⟩
  | nil => exact side_fail _
  | _ => exact side_wrong

/-- Both read. -/
theorem StateRel.read (h : StateRel v w s s') {p p' : Lvalue} (hp : LvalueRel w p p')
    {f : Semantics.Fault} :
    Side (W := W) w (fun w' a a' => w' = w ∧ a' = a ∧ s.store.read p = some a)
      (Reference.orFail f (s.store.read p)) (Reference.orFail f (s'.store.read p')) :=
  side_orFail (h.store.read hp)

/-- A variable is declared on both sides. -/
theorem StateRel.declare (h : StateRel v w s s') (x : Symbol) (d d' : Cell) (hval : d'.val = d.val)
    (hflag : d.writable = true → d'.writable = true) :
    StateRel v (w.push d d') ⟨.var x s.store.cells.length :: s.env, s.store.push d⟩
      ⟨.var x s'.store.cells.length :: s'.env, s'.store.push d'⟩ :=
  ⟨h.store.push hval hflag, .var (h.store.inj_push d d') (h.env.later World.le_push)⟩

theorem StateRel.restore {s₁ s₁' : State α W} (h : StateRel v w s s') (hw : w ≤ w₁)
    (h₁ : StoreRel w₁ s₁.store s₁'.store) :
    StateRel v w₁ { s with store := s₁.store } { s' with store := s₁'.store } :=
  ⟨h₁, h.env.later hw⟩

end TigerCompiler.DesugarVisitor
