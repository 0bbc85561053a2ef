import TigerCompiler.Translate.Expressions

/-!
# The translation preserves the meaning of programs

What the evaluation of a function gives, the machine gives when it runs what the function is
translated to: the same result, and the same store.
-/

namespace TigerCompiler

open Llvm (Value Op Instr Param Activation Config Reaches execute instrsOf)
open Semantics (Scalar Pointer Store Runtime Interrupt State Mode ownVars fail orFail ofTypes use
  useAll eval)

namespace Translator

variable {W : Type} {rt : Runtime W} {m : Annotated} {n : Nat}
  {escaped : Addr → Option (List Addr)} {program : Ast Addr .chunkList}
  {F s s' s₀ s₁ s₂ s₃ : Translator} {d : Ast Addr .functionDec}
  {a a' a₁ a₂ : Activation} {cs : List Activation} {env env' env₁ : Addr → Option Nat}
  {σ σ' σ₁ σ₂ : Store W} {f g k N N' b i : Nat} {v : Value} {w : Scalar} {op : Op} {x y : Addr}
  {c : Kind}

/-! ## Branches -/

@[simp] theorem value_jump : (a.jump F b).value v = a.value v := by
  cases v <;> rfl

/-- The end of an `if`: the `phi` chooses the value of the clause that was run. -/
theorem merge_simulates {t : TypePtr} {v₁ v₂ v' : Value} {o₁ o₂ : Option Nat} {r : Option Scalar}
    {p : Value × Option Nat} (hs : F.Sound) (hp : Poised F d s (a.jump F b) env)
    (hty : actualType m n y = .ok t) (hmerge : s.merge t v₁ v₂ o₁ o₂ = (v', s'))
    (hF : Grows s' F) (hfind : [(v₁, o₁), (v₂, o₂)].find? (fun p => p.2 = some a.block) = some p)
    (hv : ∀ w, r = some w → a.value p.1 = some w) :
    Simulates rt F d cs s s' (a.jump F b) env σ (c := .exp) v'
      (do if (← ofTypes (actualType m n y)) = .void then return (none, ⟨env, σ⟩)
          else return (r, ⟨env, σ⟩)) := by
  refine .of_ends ends_ofTypes ?_
  intro t' ht'
  obtain rfl : t = t' := Except.ok.inj (hty.symm.trans ht')
  unfold merge at hmerge
  split at hmerge
  · rename_i hvoid
    cases hmerge
    rw [if_pos hvoid]
    refine .ok (.refl hp) ?_ fun _ => rfl
    rintro w ⟨⟩
  · rename_i hvoid
    cases hmerge
    rw [if_neg hvoid]
    have hphi : execute (a.jump F b) σ (.phi [(v₁, o₁), (v₂, o₂)]) = some (a.value p.1, σ) := by
      have hfind' : [(v₁, o₁), (v₂, o₂)].find? (fun p => p.2 = (a.jump F b).prev) = some p := hfind
      simp only [execute, hfind', value_jump]
      rfl
    obtain ⟨a₁, hr₁, hv₁⟩ := hp.emit rt cs hF hs rfl hphi
    refine .ok hr₁ ?_ fun _ => rfl
    intro w hw
    exact hv₁ w (hv w hw)

theorem merge_grows {t : TypePtr} {v₁ v₂ v' : Value} {o₁ o₂ : Option Nat}
    (h : s.merge t v₁ v₂ o₁ o₂ = (v', s')) : Grows s s' := by
  have e : Extends [] [] s (s.merge t v₁ v₂ o₁ o₂).2 := .of_steps steps_merge
  rw [h] at e
  exact e.grows

/-- A clause is run, and the machine jumps to where its value is used. -/
theorem clause_followed {e : Ast Addr .exp} {v₁ : Value} {act : Nat}
    {rest : Option Scalar × State W → Except (Interrupt W) (Option Scalar × State W)}
    (ih : Followed rt m n program F k) (hpart : Part program d ⟨.exp, e⟩)
    (hv : visit m n e .accept s = .ok (v₁, s₁)) (hF : Grows (s₁.create (.br b)) F)
    (hp : Poised F d s a env) (hact : a.act = act) (hc : s₁.count ≤ s₂.count)
    (hjoin : ∀ a', Later F s.count a a' → Poised F d s₁ a' env →
      Poised F d s₂ (a'.jump F b) env)
    (hrest : ∀ r a' σ', Poised F d s₁ a' env → Poised F d s₂ (a'.jump F b) env →
      Gives F s₁.count a' .exp v₁ r →
      Simulates rt F d cs s₂ s' (a'.jump F b) env σ' (c := .exp) v (rest (r, ⟨env, σ'⟩))) :
    Simulates rt F d cs s s' a env σ (c := .exp) v
      (eval m n rt k e .accept act ⟨env, σ⟩ >>= rest) := by
  refine (ih e cs hpart hv ((Grows.create rfl).trans hF) follows_accept hp hact).bind
    (visit_grows hv).count id ?_
  intro r env₁ σ₁ a₁ hk₁ hr₁ hv₁
  obtain rfl := hk₁ rfl
  have hp₂ := hjoin a₁ hr₁.later hr₁.poised
  have hr₂ : Runs rt F d cs s₁ s₂ a₁ (a₁.jump F b) env₁ σ₁ σ₁ :=
    ⟨hr₁.poised.br rt cs σ₁ hF, (Later.refl a₁).jump, hp₂⟩
  exact Simulates.after hr₂ hc (fun _ => rfl) (hrest r a₁ σ₁ hr₁.poised hp₂ hv₁)

/-- The three blocks that are made for a branch are there to be jumped to, each from where the one
before it is filled. -/
theorem Poised.forks {t₁ t₂ t₃ : Translator} {ds₁ ds₂ ds₃ : List (Ast Addr .functionDec)}
    {xs₁ xs₂ xs₃ : List Addr} (h : Poised F d s a env)
    (x₁ : Extends ds₁ xs₁ s.newBlock.newBlock.newBlock t₁)
    (x₂ : Extends ds₂ xs₂ (t₁.moveTo (some s.builder.next)) t₂)
    (x₃ : Extends ds₃ xs₃ (t₂.moveTo (some (s.builder.next + 1))) t₃) (hF : Grows t₃ F) :
    Target F (t₁.moveTo (some s.builder.next)) a.fn s.builder.next ∧
      Target F (t₂.moveTo (some (s.builder.next + 1))) a.fn (s.builder.next + 1) ∧
      Target F (t₃.moveTo (some (s.builder.next + 2))) a.fn (s.builder.next + 2) := by
  have hlt := BlockBuilder.lt_next_of_parentAt h.parent
  obtain ⟨hcode₁, hcode₂, hcode₃⟩ := x₁.builder.fork h.cursor hlt x₂.builder x₃.builder
  have g₁ := x₁.grows
  have g₂ := g₁.trans (Grows.moveTo.trans x₂.grows)
  have g₃ := g₂.trans (Grows.moveTo.trans x₃.grows)
  have hparent {t : Translator} (i : Nat) (hi : i < 3) (hg : Grows s.newBlock.newBlock.newBlock t) :
      t.builder.parentAt (s.builder.next + i) = some (some a.fn) := by
    apply hg.builder.parentAt_eq_some
    rw [← h.current]
    exact BlockBuilder.parentAt_fork hi
  have hfirst : F.builder.parentAt a.block = some (some a.fn) :=
    (g₃.trans hF).builder.parentAt_eq_some h.newBlock.newBlock.newBlock.parent
  have p₁ := hparent 0 (by omega) g₁
  have p₂ := hparent 1 (by omega) g₂
  have p₃ := hparent 2 (by omega) g₃
  exact ⟨⟨hcode₁, p₁, a.block, hlt, hfirst⟩, ⟨hcode₂, p₂, a.block, by omega, hfirst⟩,
    ⟨hcode₃, p₃, a.block, by omega, hfirst⟩⟩

/-- The machine tests a condition, and jumps to the block it chooses. -/
theorem Poised.branch (rt : Runtime W) (cs : List Activation) (σ : Store W) {b' : Nat}
    {z : BitVec 64} (h : Poised F d s a env) (hs : F.Sound) (hv : a.value v = some (.int z))
    (hF : Grows ((s.create (.icmpNe v (.int 0))).create
      (.condBr (s.create (.icmpNe v (.int 0))).last b b')) F) :
    ∃ a', Later F s.count a a' ∧ Agree F d s a' env ∧
      Reaches F rt ⟨a, cs, σ⟩ ⟨a'.jump F (if z = 0 then b' else b), cs, σ⟩ := by
  obtain ⟨a', hr, hv'⟩ := h.emit (σ := σ) rt cs ((Grows.create rfl).trans hF) hs rfl
    (execute_icmpNe hv)
  have hjump := hr.poised.condBr rt cs σ hF (hv' _ rfl).1
  refine ⟨a', hr.later, h.toAgree.later hr.later, hr.reaches.trans ?_⟩
  have hdest : (if decide (z ≠ 0) = true then b else b') = if z = 0 then b' else b := by
    by_cases hz : z = 0 <;> simp [hz]
  rwa [hdest] at hjump

/-- The machine jumps to a block that is there to be jumped to. -/
theorem Agree.jump_of_target (h : Agree F d s a env) (ht : Target F (s'.moveTo (some b)) f b)
    (hfn : a.fn = f) (hF : Grows s' F) (hs : F.Sound)
    (hf : s'.currentFunction = s.currentFunction) (hl : s'.locals = s.locals) :
    Poised F d (s'.moveTo (some b)) (a.jump F b) env := by
  subst hfn
  have h' : Agree F d (s'.moveTo (some b)) a env := h.of_eq hf hl
  exact h'.jump ht (Grows.moveTo.trans hF) hs rfl

/-- The two clauses of an `if` end in different blocks. -/
theorem cursor_ne {e₁ e₂ : Ast Addr .exp} {v₁ v₂ : Value} {t₁ t₂ : Translator}
    (hb : b + 3 ≤ t₁.builder.next) (hf : t₁.currentFunction ≠ none)
    (h₁ : visit m n e₁ .accept (t₁.moveTo (some b)) = .ok (v₁, s₁))
    (ht : s₁.builder.next = t₂.builder.next)
    (h₂ : visit m n e₂ .accept (t₂.moveTo (some (b + 1))) = .ok (v₂, s₂)) :
    s₁.builder.cursor ≠ s₂.builder.cursor := by
  have hst : (t₁.moveTo (some b)).Stands := stands_moveTo (by omega)
  obtain ⟨c₁, hc₁, hlt⟩ := (emits_visit (hst.ready hf) h₁).stands hst
  have l₁ := (visit_adds h₁).builder.lands
  have l₂ := (visit_adds h₂).builder.lands
  have hnext : t₁.builder.next ≤ s₁.builder.next := (visit_grows h₁).builder.next
  have heq₁ : (t₁.moveTo (some b)).builder.cursor = some b := rfl
  have heq₂ : (t₂.moveTo (some (b + 1))).builder.cursor = some (b + 1) := rfl
  have hn₁ : (t₁.moveTo (some b)).builder.next = t₁.builder.next := rfl
  have hn₂ : (t₂.moveTo (some (b + 1))).builder.next = t₂.builder.next := rfl
  rw [hc₁, heq₁, hn₁] at l₁
  rw [heq₂, hn₂] at l₂
  rw [hc₁]
  rcases l₂ with h | ⟨c₂, h, hc₂⟩
  · rw [h, ne_eq, Option.some.injEq]
    rcases l₁ with l₁ | ⟨c, l₁, hc⟩ <;> cases l₁ <;> omega
  · rw [h, ne_eq, Option.some.injEq]
    omega

theorem ifExp_followed {e e₁ e₂ : Ast Addr .exp} (T : Translated m n escaped program F)
    (ih : Followed rt m n program F k) :
    FollowedAt rt m n program F (k + 1) (.ifExp y e e₁ e₂) := by
  intro how mode s s' v d a act env σ cs hpart hv hF hm hp hact
  have hpart₀ := hpart.part (u := ⟨_, e⟩) (Ast.mem_first rfl)
  have hpart₁ := hpart.part (u := ⟨_, e₁⟩) (Ast.mem_second rfl)
  have hpart₂ := hpart.part (u := ⟨_, e₂⟩) (Ast.mem_third rfl)
  simp only [visit, bind_eq_ok, Prod.exists] at hv
  obtain ⟨test, s₁, h₁, v₂, s₂, h₂, v₃, s₃, h₃, ty, hty, hv⟩ := hv
  have hmerge := Except.ok.inj hv
  -- What the visits and the instructions after them add.
  have x₁ := ((visit_adds h₁).create (.icmpNe test (.int 0)) rfl).create (.condBr
    (s₁.create (.icmpNe test (.int 0))).last s.builder.next (s.builder.next + 1)) rfl
  have x₂ := (visit_adds h₂).create (.br (s.builder.next + 2)) rfl
  have x₃ := (visit_adds h₃).create (.br (s.builder.next + 2)) rfl
  have hF₃ := Grows.moveTo.trans ((merge_grows hmerge).trans hF)
  have hF₂ := Grows.moveTo.trans (x₃.grows.trans hF₃)
  have hF₁ := Grows.moveTo.trans (x₂.grows.trans hF₂)
  obtain ⟨target₁, target₂, target₃⟩ :=
    hp.forks x₁.toExtends x₂.toExtends x₃.toExtends hF₃
  have hc₁ := (visit_grows h₁).count
  have hc₂ := (visit_grows h₂).count
  have hc₃ := (visit_grows h₃).count
  -- The test.
  have hp₀ := hp.newBlock.newBlock.newBlock
  have start : Runs rt F d cs s s.newBlock.newBlock.newBlock a a env σ σ := .refl hp₀
  apply Simulates.after start (Nat.le_refl _) (fun _ => rfl)
  refine (ih e cs hpart₀ h₁ ((Grows.create rfl).trans ((Grows.create rfl).trans hF₁))
    follows_accept hp₀ hact).bind hc₁ id ?_
  intro r₁ env₁ σ₁ a₁ hk₁ hr₁ hv₁
  obtain rfl := hk₁ rfl
  refine .of_ends ends_use ?_
  rintro w rfl
  refine .of_ends ends_toInt ?_
  rintro z rfl
  obtain ⟨a₂, hl₂, hagree₂, hjump⟩ := hr₁.poised.branch rt cs σ₁ T.sound (hv₁ _ rfl).1 hF₁
  have hfn₂ : a₂.fn = a.fn := hl₂.fn.trans hr₁.later.fn
  have hact₂ : a₂.act = act := hl₂.act.trans (hr₁.later.act.trans hact)
  -- The state that a clause is visited from.
  generalize ht₁ : (s₁.create (.icmpNe test (.int 0))).create (.condBr
    (s₁.create (.icmpNe test (.int 0))).last s.builder.next (s.builder.next + 1)) = t₁
    at h₂ x₁ x₂ hF₁ target₁
  have hf₁ : t₁.currentFunction = s₁.currentFunction := by rw [← ht₁]; rfl
  have hl₁ : t₁.locals = s₁.locals := by rw [← ht₁]; rfl
  have hn₁ : s.builder.next + 3 ≤ t₁.builder.next := by
    have hnext := x₁.grows.builder.next
    simp only [next_newBlock] at hnext
    omega
  have hd₁ : t₁.count = s₁.count + 2 := by rw [← ht₁]; rfl
  by_cases hz : z = 0
  · rw [if_pos hz] at hjump
    rw [if_neg (not_not_intro hz)]
    -- The second clause is visited after the first.
    have hagree₁ : Agree F d (t₁.moveTo (some s.builder.next)) a₂ env₁ := hagree₂.of_eq hf₁ hl₁
    have hagree := hagree₁.extends T.sound (visit_adds h₂).toExtends
      ((Grows.create rfl).trans hF₂) hpart₁.strict
    have hp₂ := hagree.jump_of_target target₂ hfn₂ hF₂ T.sound rfl rfl
    have hr₂ : Runs rt F d cs s₁ _ a₁ (a₂.jump F (s.builder.next + 1)) env₁ σ₁ σ₁ :=
      ⟨hjump, hl₂.jump, hp₂⟩
    have hcount : t₁.count ≤ s₂.count := (visit_grows h₂).count
    have hcount₂ : s₁.count ≤ s₂.count + 1 := by omega
    apply Simulates.after hr₂ hcount₂ (fun _ => rfl)
    have hcount₃ : s₃.count ≤ ((s₃.create (.br (s.builder.next + 2))).moveTo
      (some (s.builder.next + 2))).count := Nat.le_succ _
    refine clause_followed ih hpart₂ h₃ hF₃ hp₂ hact₂ hcount₃ ?_ ?_
    · intro a₃ hl₃ hp₃
      exact hp₃.toAgree.jump_of_target target₃ (hl₃.fn.trans hfn₂) hF₃ T.sound rfl rfl
    · intro r a₃ σ₃ hp₃ hp₄ hv₃
      refine merge_simulates (p := (v₃, s₃.builder.cursor)) T.sound hp₄ hty hmerge hF ?_ ?_
      · have hne := cursor_ne hn₁ (by rw [hf₁, hagree₂.current]; rintro ⟨⟩) h₂ next_create.symm h₃
        rw [hp₃.cursor] at hne
        simp [hp₃.cursor, hne]
      · intro w hw
        exact (hv₃ w hw).1
  · rw [if_neg hz] at hjump
    rw [if_pos hz]
    have hp₂ := hagree₂.jump_of_target target₁ hfn₂ hF₁ T.sound hf₁ hl₁
    have hr₂ : Runs rt F d cs s₁ _ a₁ (a₂.jump F s.builder.next) env₁ σ₁ σ₁ :=
      ⟨hjump, hl₂.jump, hp₂⟩
    have hcount₂ : s₁.count ≤ t₁.count := by omega
    apply Simulates.after hr₂ hcount₂ (fun _ => rfl)
    have hcount₃ : s₂.count ≤ ((s₃.create (.br (s.builder.next + 2))).moveTo
      (some (s.builder.next + 2))).count := Nat.le_trans (Nat.le_succ _) x₃.grows.count
    refine clause_followed ih hpart₁ h₂ hF₂ hp₂ hact₂ hcount₃ ?_ ?_
    · intro a₃ hl₃ hp₃
      have hagree₁ : Agree F d ((s₂.create (.br (s.builder.next + 2))).moveTo
        (some (s.builder.next + 1))) a₃ env₁ := hp₃.toAgree.of_eq rfl rfl
      have hagree := hagree₁.extends T.sound x₃.toExtends hF₃ hpart₂.strict
      exact hagree.jump_of_target target₃ (hl₃.fn.trans hfn₂) hF₃ T.sound rfl rfl
    · intro r a₃ σ₃ hp₃ hp₄ hv₃
      refine merge_simulates (p := (v₂, s₂.builder.cursor)) T.sound hp₄ hty hmerge hF ?_ ?_
      · simp [hp₃.cursor]
      · intro w hw
        exact (hv₃ w hw).1

/-! ## Loops -/

theorem ends_catchBreak {α : Type} {I : α × State W → Prop} {J : Option Scalar × State W → Prop}
    {st : State W} {z : Except (Interrupt W) (α × State W)}
    {next : State W → Except (Interrupt W) (Option Scalar × State W)}
    (hz : Ends Interrupt.IsFault I z)
    (hnext : ∀ res, I res → Ends Interrupt.IsFault J (next res.2)) :
    Ends Interrupt.IsFault J (Semantics.catchBreak st z next) := by
  cases z with
  | ok res => exact hnext res hz
  | error i =>
    obtain ⟨f, rfl⟩ := hz
    exact ⟨f, rfl⟩

/-- A loop, from the block of its test on: the machine comes back there after each turn. -/
theorem loop_simulates {e e₁ : Ast Addr .exp} {test : Value} {t₁ t₂ t₃ : Translator} {mode : Mode}
    {act : Nat} (T : Translated m n escaped program F) (hpart : Part program d ⟨.exp, e⟩)
    (hpart₁ : Part program d ⟨.exp, e₁⟩) (ih : ∀ j < k, Followed rt m n program F j)
    (h₁ : visit m n e .accept (t₁.moveTo (some b)) = .ok (test, s₁))
    (ht₂ : (s₁.create (.icmpNe test (.int 0))).create
      (.condBr (s₁.create (.icmpNe test (.int 0))).last (b + 1) (b + 2)) = t₂)
    (h₂ : visit m n e₁ .accept (t₂.moveTo (some (b + 1))) = .ok (v, s₂))
    (ht₃ : s₂.create (.br b) = t₃) (hF : Grows t₃ F)
    (target₁ : Target F (t₁.moveTo (some b)) f b)
    (target₂ : Target F (t₂.moveTo (some (b + 1))) f (b + 1))
    (target₃ : Target F (t₃.moveTo (some (b + 2))) f (b + 2))
    (hp : Poised F d (t₁.moveTo (some b)) a env) (hfn : a.fn = f) (hact : a.act = act) :
    Simulates rt F d cs (t₁.moveTo (some b)) (t₃.moveTo (some (b + 2))) a env σ (c := .exp) v
      (eval m n rt k (.whileExp y e e₁) mode act ⟨env, σ⟩) := by
  have hF₃ : Grows (s₂.create (.br b)) F := ht₃ ▸ hF
  have hF₂ : Grows t₂ F :=
    Grows.moveTo.trans ((visit_grows h₂).trans ((Grows.create rfl).trans hF₃))
  have hFtest := ht₂ ▸ hF₂
  have hF₁ : Grows s₁ F := (Grows.create rfl).trans ((Grows.create rfl).trans hFtest)
  have hFloop : Grows (t₁.moveTo (some b)) F := (visit_grows h₁).trans hF₁
  have hc₁ : (t₁.moveTo (some b)).count ≤ s₁.count := (visit_grows h₁).count
  have hc₂ : s₁.count + 2 = t₂.count := by
    rw [← ht₂]
    rfl
  have hf₂ : t₂.currentFunction = s₁.currentFunction := by rw [← ht₂]; rfl
  have hl₂ : t₂.locals = s₁.locals := by rw [← ht₂]; rfl
  induction k generalizing a σ mode with
  | zero => exact .fault
  | succ k ihk =>
  apply Ends.bind (ih k (Nat.lt_succ_self k) e cs hpart h₁ hF₁ follows_accept hp hact)
  rintro ⟨r₁, env₁, σ₁⟩ ⟨hk₁, a₁, hr₁, hv₁⟩
  obtain rfl := hk₁ rfl
  apply ends_use.bind
  rintro w rfl
  apply ends_toInt.bind
  rintro z rfl
  obtain ⟨a₂, hl, hagree, hjump⟩ := hr₁.poised.branch rt cs σ₁ T.sound (hv₁ _ rfl).1 hFtest
  have hfn₂ : a₂.fn = f := hl.fn.trans (hr₁.later.fn.trans hfn)
  have hact₂ : a₂.act = act := hl.act.trans (hr₁.later.act.trans hact)
  have hl' := hr₁.later.trans hl hc₁
  by_cases hz : z = 0
  · rw [if_pos hz] at hjump
    rw [if_neg (not_not_intro hz)]
    have hagree₁ : Agree F d (t₂.moveTo (some (b + 1))) a₂ env₁ := hagree.of_eq hf₂ hl₂
    have hagree₂ := hagree₁.extends T.sound (visit_adds h₂).toExtends
      ((Grows.create rfl).trans hF₃) hpart₁.strict
    have hp₃ : Poised F d (t₃.moveTo (some (b + 2))) (a₂.jump F (b + 2)) env₁ :=
      hagree₂.jump_of_target target₃ hfn₂ hF T.sound (by rw [← ht₃]; rfl) (by rw [← ht₃]; rfl)
    refine Simulates.ok ⟨hr₁.reaches.trans hjump, hl'.jump, hp₃⟩ ?_ fun _ => rfl
    rintro w ⟨⟩
  · rw [if_neg hz] at hjump
    rw [if_pos hz]
    have hp₂ := hagree.jump_of_target target₂ hfn₂ hF₂ T.sound hf₂ hl₂
    refine ends_catchBreak (ih k (Nat.lt_succ_self k) e₁ cs hpart₁ h₂
      ((Grows.create rfl).trans hF₃) follows_accept hp₂ hact₂) ?_
    rintro ⟨r₃, env₃, σ₃⟩ ⟨hk₃, a₃, hr₃, -⟩
    obtain rfl := hk₃ rfl
    -- Back to the test.
    have hl₃ : Later F (t₁.moveTo (some b)).count a a₃ := by
      apply hl'.jump.trans hr₃.later
      show (t₁.moveTo (some b)).count ≤ t₂.count
      omega
    have hback := hr₃.poised.br rt cs σ₃ hF₃
    have hagree₃ := hp.toAgree.later hl₃
    have hfn₃ : a₃.fn = f := hl₃.fn.trans hfn
    have hp₃ := hagree₃.jump_of_target target₁ hfn₃ (Grows.moveTo.trans hFloop) T.sound rfl rfl
    have hloop : Runs rt F d cs (t₁.moveTo (some b)) (t₁.moveTo (some b)) a (a₃.jump F b) env₃ σ
        σ₃ := ⟨((hr₁.reaches.trans hjump).trans hr₃.reaches).trans hback, hl₃.jump, hp₃⟩
    apply Simulates.after hloop (Nat.le_refl _) (fun _ => rfl)
    exact ihk (fun j hj => ih j (Nat.lt_succ_of_lt hj)) hp₃ hfn₃ (hl₃.act.trans hact)

theorem whileExp_followed {e e₁ : Ast Addr .exp} (T : Translated m n escaped program F)
    (ih : ∀ j ≤ k, Followed rt m n program F j) :
    FollowedAt rt m n program F (k + 1) (.whileExp y e e₁) := by
  intro how mode s s' v d a act env σ cs hpart hv hF hm hp hact
  simp only [visit, bind_eq_ok, Prod.exists] at hv
  obtain ⟨test, s₁, h₁, v₂, s₂, h₂, hv⟩ := hv
  cases hv
  obtain ⟨t₀, ht₀⟩ : ∃ t : Translator, t = { s.newBlock.newBlock.newBlock with
    loopEnd := Function.update s.loopEnd y (some (s.builder.next + 2)) } := ⟨_, rfl⟩
  obtain ⟨t₁, ht₁⟩ : ∃ t, t = t₀.create (.br s.builder.next) := ⟨_, rfl⟩
  have h₁ : visit m n e .accept (t₁.moveTo (some s.builder.next)) = .ok (test, s₁) := by
    rw [ht₁, ht₀]
    exact h₁
  have x₂ := ((visit_adds h₁).create (.icmpNe test (.int 0)) rfl).create (.condBr
    (s₁.create (.icmpNe test (.int 0))).last (s.builder.next + 1) (s.builder.next + 2)) rfl
  have x₃ := (visit_adds h₂).create (.br s.builder.next) rfl
  generalize ht₂ : (s₁.create (.icmpNe test (.int 0))).create (.condBr
    (s₁.create (.icmpNe test (.int 0))).last (s.builder.next + 1) (s.builder.next + 2)) = t₂
    at h₂ x₂ x₃
  generalize ht₃ : s₂.create (.br s.builder.next) = t₃ at hF x₃ ⊢
  have x₀ : Extends [] [] s.newBlock.newBlock.newBlock t₀ := by
    rw [ht₀]
    exact .of_grows (.of_eq rfl rfl rfl rfl rfl) rfl rfl rfl
  have x₁ : Extends [] [] s.newBlock.newBlock.newBlock t₁ := by
    rw [ht₁]
    exact x₀.trans (.create rfl)
  have hF₃ : Grows t₃ F := Grows.moveTo.trans hF
  have hF₁ : Grows t₁ F :=
    Grows.moveTo.trans (x₂.grows.trans (Grows.moveTo.trans (x₃.grows.trans hF₃)))
  obtain ⟨target₁, target₂, target₃⟩ := hp.forks x₁ x₂.toExtends x₃.toExtends hF₃
  have hp₀ : Poised F d t₀ a env :=
    hp.newBlock.newBlock.newBlock.of_eq (by rw [ht₀]) (by rw [ht₀]) (by rw [ht₀])
  have hp₁ := hp₀.toAgree.jump_of_target target₁ rfl hF₁ T.sound (by rw [ht₁]; rfl)
    (by rw [ht₁]; rfl)
  have hbr : Grows (t₀.create (.br s.builder.next)) F := ht₁ ▸ hF₁
  have start : Runs rt F d cs s (t₁.moveTo (some s.builder.next)) a (a.jump F s.builder.next) env
      σ σ := ⟨hp₀.br rt cs σ hbr, (Later.refl a).jump, hp₁⟩
  have hcount : s.count ≤ t₁.count := x₁.grows.count
  apply Simulates.after start hcount (fun _ => rfl)
  exact loop_simulates T (hpart.part (Ast.mem_first rfl)) (hpart.part (Ast.mem_second rfl))
    (fun j hj => ih j (Nat.le_of_lt_succ hj)) h₁ ht₂ h₂ ht₃ hF₃ target₁ target₂ target₃ hp₁ rfl hact

/-! ## Every construct -/

/-- What leaves no code and does nothing. -/
theorem leaf_followed {t : Ast Addr c} (r : c.Outcome)
    (hvisit : ∀ {how s v s'}, visit m n t how s = .ok (v, s') →
      s' = s ∧ ∀ a, Gives F s.count a c v r)
    (heval : ∀ {mode act} {st : State W}, eval m n rt (k + 1) t mode act st = .ok (r, st)) :
    FollowedAt rt m n program F (k + 1) t := by
  intro how mode s s' v d a act env σ cs hpart hv hF hm hp hact
  obtain ⟨rfl, hg⟩ := hvisit hv
  rw [heval]
  exact .ok (.refl hp) (hg a) fun _ => rfl

/-- A chunk of variables, or several chunks. -/
theorem member_followed {c' : Kind} {t : Ast Addr c} {u : Ast Addr c'}
    (ih : Followed rt m n program F k) (hu : ⟨c', u⟩ ∈ t.subterms) (hc : c.declares = true)
    (hvisit : ∀ {how s v s'}, visit m n t how s = .ok (v, s') →
      ∃ v', visit m n u .accept s = .ok (v', s'))
    (r : c.Outcome) (hg : ∀ {N a v}, Gives F N a c v r)
    (heval : ∀ {mode act} {st : State W}, eval m n rt (k + 1) t mode act st =
      eval m n rt k u .accept act st >>= fun p => .ok (r, p.2)) :
    FollowedAt rt m n program F (k + 1) t := by
  intro how mode s s' v d a act env σ cs hpart hv hF hm hp hact
  obtain ⟨v', hv'⟩ := hvisit hv
  rw [heval]
  apply Ends.bind (ih u cs (hpart.part hu) hv' hF follows_accept hp hact)
  rintro ⟨r₁, env₁, σ₁⟩ ⟨-, a₁, hr₁, -⟩
  apply Simulates.ok hr₁ hg
  rw [hc]
  rintro ⟨⟩

/-- **The machine follows every evaluation.** -/
theorem followed (T : Translated m n escaped program F) (k : Nat) :
    Followed rt m n program F k := by
  induction k using Nat.strong_induction_on with
  | h k ih =>
  cases k with
  | zero =>
    intro c t how mode s s' v d a act env σ cs hpart hv hF hm hp hact
    exact .fault
  | succ k =>
  have ihk : Followed rt m n program F k := ih k (Nat.lt_succ_self k)
  intro c t
  cases t with
  | nil =>
    refine leaf_followed [] ?_ rfl
    rintro how s v s' h
    cases h
    exact ⟨rfl, fun _ => .nil⟩
  | none =>
    refine leaf_followed none ?_ rfl
    rintro how s v s' h
    cases h
    exact ⟨rfl, fun _ => .none⟩
  | nilExp y | intExp y z | stringExp y z =>
    refine leaf_followed _ ?_ rfl
    rintro how s v s' h
    cases h
    refine ⟨rfl, ?_⟩
    rintro a w hw
    cases hw
    refine ⟨rfl, ?_⟩
    intro i hi
    cases hi
  | nameTy | ofNameTy | recordTy | arrayTy | field | typeDec | typeChunk =>
    refine leaf_followed _ ?_ rfl
    rintro how s v s' h
    cases h
    exact ⟨rfl, fun _ => trivial⟩
  | cons t ts => exact cons_followed ihk
  | some t => exact some_followed ihk
  | simpleVar y name => exact simpleVar_followed T
  | fieldVar y u name => exact fieldVar_followed T ihk
  | subscriptVar y u e => exact subscriptVar_followed T ihk
  | ofVar u => exact ofVar_followed ihk
  | callExp y name es => exact callExp_followed T ihk
  | opExp y l o r => exact opExp_followed T ihk
  | recordExp y t fs => exact recordExp_followed T ihk
  | seqExp y es => exact seqExp_followed ihk
  | assignExp y u e => exact assignExp_followed T ihk
  | ifExp y e e₁ e₂ => exact ifExp_followed T ihk
  | whileExp y e e₁ => exact whileExp_followed T fun j hj => ih j (Nat.lt_succ_of_le hj)
  | forExp y d hi body =>
    intro how mode s s' v d' a act env σ cs hpart
    exact absurd hpart.mem (T.noFor _ _ _ _)
  | breakExp y =>
    intro how mode s s' v d a act env σ cs hpart
    exact absurd hpart.mem (T.noBreak _)
  | letExp y ds e => exact letExp_followed T ihk
  | arrayExp y t e₁ e₂ => exact arrayExp_followed T ihk
  | castExp y e t => exact castExp_followed T ihk
  | fieldInit y name e => exact fieldInit_followed T ihk
  | varDec y name t e => exact varDec_followed T ihk
  | varChunk y u | ofVarChunk u | chunkList y u =>
    refine member_followed (u := u) ihk ?_ rfl ?_ () ?_ ?_
    · simp [Ast.subterms]
    · intro how s v s' h
      simp only [visit, bind_eq_ok, Prod.exists] at h
      obtain ⟨v', s₁, h₁, h⟩ := h
      cases h
      exact ⟨v', h₁⟩
    · intro N a v
      trivial
    · intro mode act st
      rfl
  | functionDec y name fs r body =>
    intro how mode s s' v d a act env σ cs hpart hv hF hm hp hact
    exact .ok (.refl (functions_followed rfl T hpart hv hF hp)) trivial fun _ => rfl
  | functionChunk y ds =>
    intro how mode s s' v d a act env σ cs hpart hv hF hm hp hact
    simp only [visit, bind_eq_ok, Prod.exists] at hv
    obtain ⟨s₁, h₁, v₂, s₂, h₂, hv⟩ := hv
    cases hv
    have hp₁ := functionHeaders_followed h₁ hp
    have hp₂ := functions_followed rfl T (hpart.part (Ast.mem_first rfl)) h₂ hF hp₁
    exact .ok (.refl hp₂) trivial fun _ => rfl

/-- Every function with a body is found, from its first block on. -/
theorem exists_symbol (T : Translated m n escaped program F) (hd : d ∈ program.functionDecs)
    (hbody : d.hasBody = true) : ∃ g, F.symbols (functionDecName d) = some g := by
  cases compiled_of_translate T.toLinkable T.translate hd hbody with
  | @intro _ _ _ _ _ s₀ s₁ s₂ s₃ g v symbol unused sound enter visited leave grows =>
  obtain ⟨void, -, hs₃⟩ := leaveFunction_eq_ok.mp leave
  have hF₂ : Grows s₂ F := by
    refine Grows.trans ?_ grows
    rw [hs₃]
    exact (Grows.create rfl).trans (Grows.moveTo.trans (.of_eq rfl rfl rfl rfl rfl))
  obtain ⟨g', -, h⟩ := enters_enterFunction enter
  exact ⟨g, (h.grows.trans ((visit_grows visited).trans hF₂)).symbols _ _ symbol⟩

/-- `function fact(n : int) : int = if n then n * fact(n - 1) else one`. -/
def fact : Ast Addr .functionDec :=
  .functionDec 10 "fact".toList
    (.varChunk 11 (.ofList [.varDec 12 "n".toList (.some (.nameTy 13 "int".toList)) .none]))
    (.some (.nameTy 14 "int".toList)) (.some (.ifExp 15 (.ofVar (.simpleVar 16 "n".toList))
      (.opExp 17 (.ofVar (.simpleVar 18 "n".toList)) .mul (.callExp 19 "fact".toList (.ofList [
        .opExp 20 (.ofVar (.simpleVar 21 "n".toList)) .sub (.intExp 22 1)])))
      (.ofVar (.simpleVar 23 "one".toList))))

/-- `let var one := 1 function fact … in fact(3) end` as a program. -/
def factProgram : Ast Addr .chunkList :=
  .chunkList 0 (.ofList [.functionChunk 1 (.ofList [.functionDec 2 "_main".toList
    (.varChunk 3 .nil) .none (.some (.seqExp 4 (.ofList [.letExp 5
      (.chunkList 6 (.ofList [.ofVarChunk (.varChunk 7 (.ofList [
        .varDec 8 "one".toList .none (.some (.intExp 9 1))])), .functionChunk 24 (.ofList [fact])]))
      (.seqExp 25 (.ofList [.callExp 26 "fact".toList (.ofList [.intExp 27 3])])),
        .seqExp 28 .nil])))])])

/-- The state in `_main` once `one` is declared. -/
def inMain : State Unit :=
  ⟨Function.update (fun _ => none) 8 (some 0),
    { world := (), cells := fun _ _ => some (.int 1), activations := 1 }⟩

/-- `factProgram` is translated. -/
theorem translated_factProgram {m : Annotated × TypeChecker}
    (hm : annotate 30 factProgram = .ok m)
    (hF : translate m.1 30 (fun _ => some [8]) factProgram = .ok F) :
    Translated m.1 30 (fun _ => some [8]) factProgram F where
  nodup := by decide
  bare := by
    simp [factProgram, fact, Ast.functionDecs, Ast.subterms, Ast.ofList, Bare]
  translate := hF
  functionDecs := by
    simp only [annotate, bind_eq_ok] at hm
    obtain ⟨b, hb, c, hc, hm⟩ := hm
    cases hm
    rfl
  noBreak := by simp [factProgram, fact, Ast.subterms, Ast.ofList]
  noFor := by simp [factProgram, fact, Ast.subterms, Ast.ofList]
  reserved := by decide
  primitives := by
    simp [factProgram, fact, Ast.functionDecs, Ast.subterms, Ast.ofList, Ast.hasBody]

end Translator

end TigerCompiler
