import TigerCompiler.Ast.DefaultVisitor
import TigerCompiler.Translate.Simulation

/-!
# Following calls

How the machine enters a function, runs it and comes back, where it follows the evaluation of its
body.  This is for programs without `break`, whose blocks are well formed, and with no `for` left;
their functions are linked under distinct names, which are not those of the functions that the
`Translator` declares.
-/

namespace TigerCompiler

open Llvm (Value Op Instr Param Activation Config Reaches execute instrsOf)
open Semantics (Scalar Pointer Store Runtime Interrupt State Mode ownVars fail orFail ofTypes use
  useAll eval)

namespace Translator

/-- The functions that the `Translator` declares. -/
def runtimeNames : List Symbol :=
  ["tc_malloc".toList, "tc_init_array".toList, "tc_init_ptr_array".toList]

/-- The module `F` is what a program is translated to. -/
structure Translated (m : Annotated) (n : Nat) (escaped : Addr → Option (List Addr))
    (program : Ast Addr .chunkList) (F : Translator) : Prop extends Linkable program where
  translate : translate m n escaped program = .ok F
  functionDecs : m.functionDecs = program.functionDecs
  noBreak : ∀ a, ⟨.exp, .breakExp a⟩ ∉ program.subterms
  noFor : ∀ a d hi body, ⟨.exp, .forExp a d hi body⟩ ∉ program.subterms
  reserved : ∀ d ∈ program.functionDecs, functionDecName d ∉ runtimeNames
  /-- Nothing is lifted out of the primitives. -/
  primitives : ∀ d ∈ program.functionDecs, d.hasBody = false →
    ∀ f, functionType m n d.functionAddr = .ok f → escaped f = some []

variable {W : Type} {rt : Runtime W} {m : Annotated} {n : Nat}
  {escaped : Addr → Option (List Addr)} {program : Ast Addr .chunkList}
  {F s s' s₀ s₁ s₂ : Translator} {d : Ast Addr .functionDec}
  {a a' a₁ a₂ : Activation} {cs : List Activation} {env env' env₁ : Addr → Option Nat}
  {σ σ' σ₁ σ₂ : Store W} {f g k N N' b i : Nat} {v : Value} {w : Scalar} {op : Op} {x : Addr}

namespace Translated

variable (T : Translated m n escaped program F)

include T

theorem adds : Adds m n (program.varDecs.map Ast.varAddr) program.functionDecs { escaped } F :=
  adds_translate T.translate

theorem sound : F.Sound := T.adds.grows.sound sound_start

/-- There is nothing in a function that has another name than those with a body. -/
theorem entry_eq_none {e : Llvm.Function} (hg : F.functions[g]? = some e)
    (hname : ∀ d ∈ program.functionDecs, d.hasBody = true → functionDecName d ≠ e.name) :
    F.builder.entry (some g) = none := by
  rw [BlockBuilder.entry_eq_none]
  intro c hc
  rcases T.adds.parents c _ hc with hc | hc | ⟨f, hf, d, hd, hbody, hsym⟩
  · cases hc
  · cases hc
  · cases hf
    obtain ⟨e', he', hname'⟩ := T.sound.function_of_symbol hsym
    rw [hg] at he'
    cases he'
    exact hname d hd hbody hname'.symm

theorem entry_of_runtime {y : Symbol} (hy : y ∈ runtimeNames) (hg : F.symbols y = some g) :
    F.builder.entry (some g) = none ∧ F.functions[g]?.map Llvm.Function.name = some y := by
  obtain ⟨e, he, rfl⟩ := T.sound.function_of_symbol hg
  refine ⟨T.entry_eq_none he ?_, by rw [he]; rfl⟩
  intro d hd _ heq
  exact T.reserved d hd (heq ▸ hy)

/-- A primitive has no block. -/
theorem entry_of_primitive (hd : d ∈ program.functionDecs) (hbody : d.hasBody = false)
    (hg : F.symbols (functionDecName d) = some g) : F.builder.entry (some g) = none := by
  obtain ⟨e, he, hname⟩ := T.sound.function_of_symbol hg
  apply T.entry_eq_none he
  intro d' hd' hbody' heq
  rw [List.inj_on_of_nodup_map T.nodup hd' hd (heq.trans hname)] at hbody'
  rw [hbody] at hbody'
  cases hbody'

end Translated

/-! ## Parts of functions -/

/-- A part of the function `d`. -/
structure Part (program : Ast Addr .chunkList) (d : Ast Addr .functionDec) (t : Σ k, Ast Addr k) :
    Prop where
  function : d ∈ program.functionDecs
  mem : t ∈ program.subterms
  strict : functionDecName d ∉ linkNames t.2.functionDecs

theorem Part.part {t u : Σ k, Ast Addr k} (h : Part program d t) (hu : u ∈ t.2.subterms) :
    Part program d u where
  function := h.function
  mem := Ast.subterms_subset h.mem hu
  strict hmem := by
    refine h.strict (List.map_subset _ ?_ hmem)
    intro d' hd'
    rw [Ast.mem_functionDecs] at hd' ⊢
    exact Ast.subterms_subset hu hd'

theorem visit_adds {c : Kind} {t : Ast Addr c} {how : How} {v : c.Result}
    (h : visit m n t how s = .ok (v, s')) :
    Adds m n (t.varDecs.map Ast.varAddr) t.functionDecs s s' := adds_visit (List.Subset.refl _) h

theorem visit_grows {c : Kind} {t : Ast Addr c} {how : How} {v : c.Result}
    (h : visit m n t how s = .ok (v, s')) : Grows s s' := (visit_adds h).grows

/-- How a part is evaluated when it is visited in a way. -/
def Follows (F : Translator) (N : Nat) (a : Activation) : How → Mode → Prop
  | .accept, .accept => True
  | .access, .access => True
  | .init fields p, .init fields' w =>
    fields = fields' ∧ a.value p = some w ∧ Stable F a.fn N p
  | _, _ => False

theorem follows_accept : Follows F N a .accept .accept := trivial

theorem Follows.later {how : How} {mode : Mode} (h : Follows F N a how mode)
    (hl : Later F N a a') (hN : N ≤ N') : Follows F N' a' how mode := by
  cases how <;> cases mode <;> first | exact h | skip
  obtain ⟨hfields, hw, hs⟩ := h
  refine ⟨hfields, (hl.value hs).trans hw, ?_⟩
  rw [hl.fn]
  exact hs.mono hN

/-- The function `d` is not one of those declared in a part of it. -/
theorem Agree.not_isNested {ds : List (Ast Addr .functionDec)} (hF : F.Sound)
    (h : Agree F d s a env) (hgrows : Grows s' F) (hd : functionDecName d ∉ linkNames ds) :
    ¬ IsNested ds s' a.fn := by
  rintro ⟨d', hd', -, hsym⟩
  obtain ⟨e, he, hname⟩ := hF.function_of_symbol h.symbol
  obtain ⟨e', he', hname'⟩ := hF.function_of_symbol (hgrows.symbols _ _ hsym)
  rw [he] at he'
  cases he'
  exact hd (List.mem_map.mpr ⟨d', hd', hname'.symm.trans hname⟩)

/-- What is known of variables after a part is visited. -/
theorem Agree.extends {xs : List Addr} {ds : List (Ast Addr .functionDec)} (hF : F.Sound)
    (h : Agree F d s a env) (he : Extends ds xs s s') (hgrows : Grows s' F)
    (hd : functionDecName d ∉ linkNames ds) : Agree F d s' a env where
  symbol := h.symbol
  current := he.currentFunction.trans h.current
  storage := h.storage
  own := h.own
  locals x v hv := by
    rcases he.locals a.fn x v hv with hv | ⟨-, i, hi, hx⟩ | hn
    · exact h.locals x v hv
    · exact .inl ⟨i, hi, hgrows.owns hx⟩
    · exact absurd hn (h.not_isNested hF hgrows hd)

/-! ## Variables -/

/-- The storage of a variable is there. -/
theorem Poised.createAlloca (h : Poised F d s a env) (ha : s.createAlloca x = .ok s')
    (hF : Grows s' F) : Poised F d s' a env ∧ F.Owns a.fn s.count x ∧
      ∀ v, s'.locals a.fn x = some v → v = .result s.count := by
  have hgrows := Grows.createAlloca ha
  obtain ⟨f, c, hf, hc, rfl⟩ := createAlloca_eq_ok.mp ha
  obtain rfl : a.fn = f := Option.some.inj (h.current.symm.trans hf)
  have hlt := BlockBuilder.lt_next_of_parentAt (BlockBuilder.entry_eq_some.mp hc).1
  have howns : F.Owns a.fn s.count x := by
    refine hF.owns ⟨c, hgrows.builder.entry hc, ?_⟩
    rw [BlockBuilder.instrsAt_insertFront hlt]
    exact List.mem_cons_self
  refine ⟨⟨⟨h.symbol, h.current, h.storage, h.own, ?_⟩, h.cursor, ?_, ?_⟩, howns, ?_⟩
  · intro y v hv
    dsimp only at hv
    rw [Function.update_self] at hv
    by_cases hy : y = x
    · subst hy
      rw [Function.update_self] at hv
      cases hv
      exact .inl ⟨_, rfl, howns⟩
    · rw [Function.update_of_ne hy] at hv
      exact h.locals y v hv
  · exact BlockBuilder.parentAt_insertFront.trans h.parent
  · rw [h.rest]
    congr 2
    exact (BlockBuilder.code_insertFront rfl).symm
  · intro v hv
    dsimp only at hv
    rw [Function.update_self, Function.update_self] at hv
    exact (Option.some.inj hv).symm

/-- From now on a variable of the function is visible. -/
theorem Poised.declare (h : Poised F d s a env) (hx : x ∈ ownVars d)
    (hl : ∀ v, s.locals a.fn x = some v → ∃ i, v = .result i ∧ F.Owns a.fn i x) :
    Poised F d s a (Function.update env x (some a.act)) := by
  refine ⟨⟨h.symbol, h.current, h.storage, ?_, ?_⟩, h.cursor, h.parent, h.rest⟩
  · intro y hy k hk
    by_cases hyx : y = x
    · rw [hyx, Function.update_self] at hk
      exact (Option.some.inj hk).symm
    · rw [Function.update_of_ne hyx] at hk
      exact h.own y hy k hk
  · intro y v hv
    by_cases hyx : y = x
    · subst hyx
      exact .inl (hl v hv)
    · rw [Function.update_of_ne hyx]
      exact h.locals y v hv

/-- The pointer to a variable. -/
theorem Agree.value_of_local (T : Translated m n escaped program F)
    (hd : d ∈ program.functionDecs) (h : Agree F d s a env) (hv : s.locals a.fn x = some v) :
    Stable F a.fn N v ∧
      ∃ w, a.value v = some w ∧ ∀ q, env x = some q → w = .ptr (.cell q x) := by
  rcases h.locals x v hv with ⟨i, rfl, hi⟩ | ⟨j, w, rfl, hw, hq⟩
  · refine ⟨?_, _, h.storage i x hi, ?_⟩
    · intro i' hi'
      cases hi'
      exact .inr ⟨x, hi⟩
    · intro q hq
      rw [h.own x (ownVars_of_owns T.toLinkable T.translate hd h.symbol hi) q hq]
  · refine ⟨?_, w, ?_, hq⟩
    · intro i hi
      cases hi
    · show (if a.fn = a.fn then a.args[j]? else none) = some w
      rw [if_pos rfl, hw]

/-! ## Entering a function -/

/-- The storage of the variables is made first. -/
theorem reaches_allocas (rt : Runtime W) (cs : List Activation) (σ : Store W) {l r : List Instr}
    (hl : ∀ j ∈ l, j.isAlloca = true)
    (hinj : ∀ j ∈ l, ∀ j' ∈ l, j.id = j'.id → j = j') (hrest : a.rest = l ++ r) :
    ∃ a', Reaches F rt ⟨a, cs, σ⟩ ⟨a', cs, σ⟩ ∧ a'.fn = a.fn ∧ a'.act = a.act ∧
      a'.args = a.args ∧ a'.block = a.block ∧ a'.rest = r ∧
      (∀ i x, ⟨i, .alloca x⟩ ∈ l → a'.regs i = some (.ptr (.cell a.act x))) ∧
      ∀ i, (∀ j ∈ l, j.id ≠ i) → a'.regs i = a.regs i := by
  induction l generalizing a with
  | nil =>
    refine ⟨a, .refl, rfl, rfl, rfl, rfl, hrest, ?_, fun _ _ => rfl⟩
    intro i x hi
    cases hi
  | cons j l ih =>
    obtain ⟨i, op⟩ := j
    have hop := hl _ List.mem_cons_self
    cases op with
    | alloca x =>
      have hstep : Llvm.step F rt ⟨a, cs, σ⟩ =
          some ⟨a.next i (some (.ptr (.cell a.act x))), cs, σ⟩ := by
        simp [Llvm.step, hrest, execute]
      have hrest' : (a.next i (some (.ptr (.cell a.act x)))).rest = l ++ r := by
        show a.rest.tail = l ++ r
        rw [hrest]
        rfl
      obtain ⟨a', hr, hfn, hact, hargs, hblock, hr', hregs, hkeep⟩ :=
        ih (fun j hj => hl j (List.mem_cons_of_mem _ hj))
          (fun j hj j' hj' => hinj j (List.mem_cons_of_mem _ hj) j' (List.mem_cons_of_mem _ hj'))
          hrest'
      refine ⟨a', .head hstep hr, hfn, hact, hargs, hblock, hr', ?_, ?_⟩
      · intro i' x' hi'
        rcases List.mem_cons.mp hi' with heq | hi'
        · cases heq
          by_cases hmem : ∃ j ∈ l, j.id = i
          · -- The same instruction comes again.
            obtain ⟨j, hj, hji⟩ := hmem
            have heq := hinj j (List.mem_cons_of_mem _ hj) _ List.mem_cons_self hji
            rw [heq] at hj
            exact hregs i x hj
          · rw [hkeep i fun j hj hji => hmem ⟨j, hj, hji⟩]
            exact Function.update_self _ _ _
        · exact hregs i' x' hi'
      · intro i' hi'
        rw [hkeep i' fun j hj => hi' j (List.mem_cons_of_mem _ hj)]
        exact Function.update_of_ne (Ne.symm (hi' _ List.mem_cons_self)) _ _
    | _ => cases hop

/-- What is passed for the variables that are lifted out of a function: pointers to them. -/
def Lifts (F : Translator) (m : Annotated) (n : Nat) (d : Ast Addr .functionDec)
    (env : Addr → Option Nat) (ws : List Scalar) : Prop :=
  ∃ f vs, functionType m n d.functionAddr = .ok f ∧ F.escaped f = some vs ∧
    List.Forall₂ (fun x w => ∀ q, env x = some q → w = .ptr (.cell q x)) vs ws

theorem argument_eq_ok (h : s.argument f k = .ok v) : v = .argument f k := by
  unfold argument at h
  split at h
  · cases h
  · split at h
    · cases h
      rfl
    · cases h

theorem Poised.bindLifted {vs : List Addr} {ws ws' : List Scalar} (h : Poised F d s a env)
    (hb : s.bindLifted a.fn k vs = .ok s') (hargs : a.args.drop k = ws ++ ws')
    (hw : List.Forall₂ (fun x w => ∀ q, env x = some q → w = .ptr (.cell q x)) vs ws) :
    Poised F d s' a env := by
  induction vs generalizing s k ws with
  | nil =>
    cases hb
    exact h
  | cons y vs ih =>
    simp only [Translator.bindLifted, bind_eq_ok] at hb
    obtain ⟨arg, harg, hb⟩ := hb
    cases hw with
    | @cons _ w _ ws hw hws =>
      have hget : a.args[k]? = some w := by
        have hhead := congrArg List.head? hargs
        rwa [List.head?_drop] at hhead
      have htail : a.args.drop (k + 1) = ws ++ ws' := by
        have htail := congrArg List.tail hargs
        rwa [List.tail_drop] at htail
      refine ih ?_ hb htail hws
      refine ⟨⟨h.symbol, h.current, h.storage, h.own, ?_⟩, h.cursor, h.parent, h.rest⟩
      intro z v hv
      dsimp only at hv
      rw [Function.update_self] at hv
      by_cases hz : z = y
      · subst hz
        rw [Function.update_self] at hv
        cases hv
        exact .inr ⟨k, w, argument_eq_ok harg, hget, hw⟩
      · rw [Function.update_of_ne hz] at hv
        exact h.locals z v hv

theorem Poised.escapedRef (h : Poised F d s a env) : Poised F d (s.escapedRef f).2 a env := by
  unfold Translator.escapedRef
  split
  · exact h.of_eq rfl rfl rfl
  · exact h

/-- The formals are stored: they become visible one after the other. -/
theorem Poised.storeFormals (rt : Runtime W) (cs : List Activation) (σ : Store W)
    {vs : List Addr} {ws : List Scalar} (hs : F.Sound) (h : Poised F d s a env)
    (hst : s.storeFormals a.fn k vs = .ok s') (hF : Grows s' F) (hx : vs ⊆ ownVars d)
    (hargs : a.args.drop k = ws) :
    Ends Interrupt.IsFault (fun σ' => ∃ a', Runs rt F d cs s s' a a'
        (vs.foldl (fun env x => Function.update env x (some a.act)) env) σ σ')
      (Semantics.bindFormals a.act vs ws σ) := by
  induction vs generalizing s k ws env σ a with
  | nil =>
    cases hst
    cases ws with
    | nil => exact ⟨a, .refl h⟩
    | cons w ws => exact ⟨_, rfl⟩
  | cons y vs ih =>
    cases ws with
    | nil => exact ⟨_, rfl⟩
    | cons w ws =>
      simp only [Translator.storeFormals, bind_eq_ok] at hst
      obtain ⟨s₁, h₁, arg, harg, hst⟩ := hst
      have e : Extends [] vs (s₁.create (.store arg (.result s.count))) s' :=
        extends_storeFormals (List.Subset.refl _) hst
      have hF₂ := e.grows.trans hF
      have hF₁ : Grows s₁ F := (Grows.create rfl).trans hF₂
      obtain ⟨hp, howns, hl⟩ := h.createAlloca h₁ hF₁
      have hp := hp.declare (hx List.mem_cons_self) fun v hv => ⟨_, hl v hv, howns⟩
      have hget : a.args[k]? = some w := by
        have hhead := congrArg List.head? hargs
        rwa [List.head?_drop] at hhead
      have htail : a.args.drop (k + 1) = ws := by
        have htail := congrArg List.tail hargs
        rwa [List.tail_drop] at htail
      have hvalue : a.value arg = some w := by
        rw [argument_eq_ok harg]
        show (if a.fn = a.fn then a.args[k]? else none) = some w
        rw [if_pos rfl, hget]
      have hx' := hp.execute (σ := σ) rt cs hF₂ hs rfl
        (execute_store hvalue (hp.storage _ _ howns) rfl)
      have hih := ih (σ.setCell a.act y w) hx'.poised hst
        (List.subset_of_cons_subset hx) htail
      apply Ends.imp hih
      rintro σ' ⟨a', hr⟩
      have hcount : s.count ≤ s₁.count := (Grows.createAlloca h₁).count
      have hstart : Runs rt F d cs s s₁ a a _ σ σ := .refl hp
      exact ⟨a', (hstart.trans hx' hcount).trans hr (Nat.le_succ_of_le hcount)⟩

theorem foldl_update {vs : List Addr} {act : Nat} :
    vs.foldl (fun env x => Function.update env x (some act)) env =
      fun x => if x ∈ vs then some act else env x := by
  induction vs generalizing env with
  | nil => rfl
  | cons y vs ih =>
    rw [List.foldl_cons, ih]
    funext x
    by_cases hx : x ∈ vs
    · simp [hx]
    · by_cases hy : x = y
      · simp [hy]
      · simp [hx, hy]

theorem bindLifted_grows {vs : List Addr} (h : s.bindLifted f k vs = .ok s') : Grows s s' := by
  induction vs generalizing s k with
  | nil =>
    cases h
    exact .refl _
  | cons y vs ih =>
    simp only [bindLifted, bind_eq_ok] at h
    obtain ⟨arg, -, h⟩ := h
    have e : Grows s { s with
        locals := Function.update s.locals f (Function.update (s.locals f) y (some arg)) } :=
      .of_eq rfl rfl rfl rfl rfl
    exact e.trans (ih h)

theorem escaped_escapedRef (f : Addr) :
    (s.escapedRef f).2.escaped f = some (s.escapedRef f).1 := by
  unfold escapedRef
  split
  · exact Function.update_self _ _ _
  · rename_i h
    exact h

/-- The block a function begins with is the first that is made for it. -/
theorem entry_enterFunction (hsym : s.symbols (functionDecName d) = some g) (hunused : ¬ s.Used g)
    (he : s.enterFunction m n d = .ok s₁) (hF : Grows s₁ F) :
    F.builder.entry (some g) = some s.builder.next := by
  obtain ⟨g', hg', h⟩ := enters_enterFunction he
  obtain rfl : g = g' := Option.some.inj (hsym.symm.trans hg')
  apply (h.builder.toGrows.trans hF.builder).entry
  rw [BlockBuilder.entry_eq_some]
  refine ⟨BlockBuilder.parentAt_newBlock, ?_⟩
  intro c hc hparent
  refine hunused (.inr (.inl ⟨c, ?_⟩))
  rwa [BlockBuilder.parentAt_moveTo, BlockBuilder.parentAt_newBlock_of_lt hc] at hparent

/-- The machine enters a function: it comes to where the body begins. -/
theorem enter_reaches (rt : Runtime W) (cs : List Activation) (σ : Store W) (ws : List Scalar)
    {act : Nat} {ls : List Scalar} (T : Translated m n escaped program F)
    (hsym : s.symbols (functionDecName d) = some g) (hunused : ¬ s.Used g)
    (he : s.enterFunction m n d = .ok s₁) (hF : Grows s₁ F) (hl : Lifts F m n d env ls) :
    Ends Interrupt.IsFault (fun σ' => ∃ a', Reaches F rt
        ⟨.start F g act (ls ++ ws) s.builder.next, cs, σ⟩ ⟨a', cs, σ'⟩ ∧
        a'.act = act ∧ Poised F d s₁ a' (Semantics.bodyEnv d act env))
      (Semantics.bindFormals act (formals d) ws σ) := by
  have hentry := entry_enterFunction hsym hunused he hF
  have hgrows : Grows s F := by
    obtain ⟨g', -, h⟩ := enters_enterFunction he
    exact h.grows.trans hF
  -- The storage of the variables.
  obtain ⟨l, hinstrs, hfront, -⟩ := T.sound.fronted s.builder.next
  obtain ⟨a₁, hr, hfn, hact, hargs, hblock, hrest, hregs, -⟩ := reaches_allocas (F := F)
    (a := .start F g act (ls ++ ws) s.builder.next) rt cs σ hfront
    (fun j hj j' hj' => T.sound.numbered.inj s.builder.next s.builder.next j
      (hinstrs ▸ List.mem_append_left _ hj) j' (hinstrs ▸ List.mem_append_left _ hj'))
    hinstrs
  have hstart : Poised F d ({ s with currentFunction := some g }.newBlock.moveTo
      (some s.builder.next)) a₁ (fun x => if x ∈ ownVars d then none else env x) := by
    refine ⟨⟨?_, ?_, ?_, ?_, ?_⟩, ?_, ?_, ?_⟩
    · rw [hfn]
      exact hgrows.symbols _ _ hsym
    · rw [hfn]
      rfl
    · intro i x hi
      rw [hfn] at hi
      obtain ⟨c, hc, hi⟩ := hi
      obtain rfl : s.builder.next = c := Option.some.inj (hentry.symm.trans hc)
      rw [hinstrs] at hi
      rw [hact]
      rcases List.mem_append.mp hi with hi | hi
      · exact hregs i x hi
      · have hnot := (List.mem_filter.mp hi).2
        cases hnot
    · intro x hx k hk
      rw [if_pos hx] at hk
      cases hk
    · intro x v hv
      rw [hfn] at hv
      exact absurd (.inr (.inr ⟨x, v, hv⟩)) hunused
    · rw [hblock]
      rfl
    · rw [hblock, hfn]
      exact BlockBuilder.parentAt_newBlock
    · have hcode : s.code s.builder.next = [] := by
        unfold code BlockBuilder.code
        rw [BlockBuilder.instrsAt_eq_nil (Nat.le_refl _)]
        rfl
      rw [hblock, hrest]
      show _ = (F.code s.builder.next).drop (({ s with currentFunction := some g }.newBlock.moveTo
        (some s.builder.next)).code s.builder.next).length
      rw [code_moveTo, code_newBlock]
      show _ = (F.code s.builder.next).drop (s.code s.builder.next).length
      rw [hcode]
      rfl
  -- The variables lifted out of the function, and then its formals.
  simp only [enterFunction, bind_eq_ok] at he
  obtain ⟨g', hg', f, hf, s₂, h₂, h₃⟩ := he
  obtain rfl : g' = g := by
    unfold getFunction at hg'
    rw [hsym] at hg'
    exact (Except.ok.inj hg').symm
  have e : Extends [] (formals d) s₂ s₁ := extends_storeFormals (List.Subset.refl _) h₃
  have hF₂ := e.grows.trans hF
  obtain ⟨f', vs, hf', hvs, hws⟩ := hl
  obtain rfl : f = f' := Except.ok.inj (hf.symm.trans hf')
  have hescaped := ((bindLifted_grows h₂).trans hF₂).escaped f _ (escaped_escapedRef f)
  rw [hvs] at hescaped
  obtain rfl := Option.some.inj hescaped
  have hargs₀ : a₁.args.drop 0 = ls ++ ws := hargs
  have hdrop (vs : List Addr) (hlen : vs.length = ls.length) : a₁.args.drop vs.length = ws := by
    rw [hargs, hlen]
    exact List.drop_left
  have hbound := (hstart.escapedRef (f := f)).bindLifted (by rw [hfn]; exact h₂) hargs₀ (hws.imp ?_)
  · have hstored := hbound.storeFormals rt cs σ T.sound
      (by rw [hfn]; exact h₃) hF formals_subset (hdrop _ hws.length_eq)
    rw [hact, foldl_update] at hstored
    apply Ends.imp hstored
    rintro σ' ⟨a', hr'⟩
    exact ⟨a', hr.trans hr'.reaches, hr'.later.act.trans hact, hr'.poised⟩
  · intro x w hw q hq
    split at hq
    · cases hq
    · exact hw q hq

/-! ## Calls -/

section Followed

variable (rt : Runtime W) (m : Annotated) (n : Nat) (program : Ast Addr .chunkList)
  (F : Translator) (k : Nat)

/-- The machine follows the evaluations of `t` that are `k` calls deep at most. -/
def FollowedAt {c : Kind} (t : Ast Addr c) : Prop :=
  ∀ {how : How} {mode : Mode} {s s' : Translator} {v : c.Result} {d : Ast Addr .functionDec}
    {a : Activation} {act : Nat} {env : Addr → Option Nat} {σ : Store W} (cs : List Activation),
    Part program d ⟨c, t⟩ → visit m n t how s = .ok (v, s') → Grows s' F →
    Follows F s.count a how mode → Poised F d s a env → a.act = act →
    Simulates rt F d cs s s' a env σ v (eval m n rt k t mode act ⟨env, σ⟩)

/-- The machine follows the evaluations that are `k` calls deep at most. -/
def Followed : Prop := ∀ {c : Kind} (t : Ast Addr c), FollowedAt rt m n program F k t

end Followed

/-- The body of a function is not a function. -/
theorem part_of_body {name : Symbol} {y : Addr} {fs : Ast Addr .varChunk}
    {r : Ast Addr (.opt .nameTy)} {body : Ast Addr .exp} (hl : Linkable program)
    (hd : .functionDec y name fs r (.some body) ∈ program.functionDecs) :
    Part program (.functionDec y name fs r (.some body)) ⟨.exp, body⟩ := by
  have hmem := Ast.mem_functionDecs.mp hd
  refine ⟨hd, Ast.subterms_subset hmem (by simp [Ast.subterms]), ?_⟩
  have hsub : (Ast.functionDec y name fs r (.some body)).functionDecs.Sublist
      program.functionDecs := (Ast.subterms_sublist hmem).filterMap _
  have hnodup := hl.nodup.sublist (hsub.map functionDecName)
  rw [functionDecs_functionDec, List.map_cons, List.nodup_cons] at hnodup
  intro hname
  refine hnodup.1 (List.map_subset _ (List.subset_append_right _ _) ?_)
  exact hname

theorem ends_catchReturn {α : Type} {I : α → Prop} {x : Except (Interrupt W) α}
    (hx : Ends Interrupt.IsFault I x) :
    Ends Interrupt.IsFault I (Semantics.catchReturn x) := by
  cases x with
  | ok y => exact hx
  | error i =>
    obtain ⟨f, rfl⟩ := hx
    exact ⟨f, rfl⟩

theorem ends_returned {r : Option Scalar} {void : Bool}
    (hvoid : (functionType m n d.functionAddr >>= returnsVoid m n) = .ok void) :
    Ends Interrupt.IsFault (fun r' => r' = if void then none else r)
      (Semantics.returned m n d r : Except (Interrupt W) (Option Scalar)) := by
  apply ends_ofTypes.bind
  intro void' hvoid'
  obtain rfl : void = void' := Except.ok.inj (hvoid.symm.trans hvoid')
  cases void with
  | true => rfl
  | false =>
    apply ends_use.bind
    rintro w rfl
    rfl

/-- The machine runs a function: it comes to a `ret` of the result. -/
theorem function_reaches {name : Symbol} {y : Addr} {fs : Ast Addr .varChunk}
    {r : Ast Addr (.opt .nameTy)} {body : Ast Addr .exp} {ls : List Scalar}
    (T : Translated m n escaped program F) (ih : Followed rt m n program F k)
    (hd : .functionDec y name fs r (.some body) ∈ program.functionDecs)
    (hg : F.symbols (functionDecName (.functionDec y name fs r (.some body))) = some g)
    (hl : Lifts F m n (.functionDec y name fs r (.some body)) env ls) :
    ∃ e, F.builder.entry (some g) = some e ∧ ∀ (cs : List Activation) (ws : List Scalar)
      (σ : Store W), Ends Interrupt.IsFault (fun res => res.2.env = env ∧ ∃ a' i o,
          Reaches F rt ⟨.start F g σ.activations (ls ++ ws) e, cs, σ.enter⟩
            ⟨a', cs, res.2.store⟩ ∧
          a'.rest.head? = some ⟨i, .ret o⟩ ∧ ∀ w, res.1 = some w → o.bind a'.value = some w)
        (Semantics.call m n rt k (.functionDec y name fs r (.some body)) ws ⟨env, σ⟩) := by
  cases compiled_of_translate T.toLinkable T.translate hd rfl with
  | @intro _ _ _ _ _ s₀ s₁ s₂ s₃ g' v symbol unused sound enter visited leave grows =>
  obtain ⟨void, hvoid, hs₃⟩ := leaveFunction_eq_ok.mp leave
  have hF₃ : Grows (s₂.create (.ret (if void then none else some v))) F := by
    refine Grows.trans ?_ grows
    rw [hs₃]
    exact Grows.moveTo.trans (.of_eq rfl rfl rfl rfl rfl)
  have hF₂ : Grows s₂ F := (Grows.create rfl).trans hF₃
  have hF₁ : Grows s₁ F := (visit_grows visited).trans hF₂
  obtain rfl : g' = g := by
    obtain ⟨g'', -, h⟩ := enters_enterFunction enter
    have hsym := (h.grows.trans hF₁).symbols _ _ symbol
    exact Option.some.inj (hsym.symm.trans hg)
  refine ⟨_, entry_enterFunction symbol unused enter hF₁, ?_⟩
  intro cs ws σ
  unfold Semantics.call Semantics.callWith
  apply (enter_reaches rt cs σ.enter ws T symbol unused enter hF₁ hl).bind
  rintro σ₁ ⟨a₁, hr₁, hact, hp₁⟩
  refine (ends_catchReturn
    (ih body cs (part_of_body T.toLinkable hd) visited hF₂ follows_accept hp₁ hact)).bind ?_
  rintro ⟨r₂, env₂, σ₂⟩ ⟨-, a₂, hr₂, hg₂⟩
  apply (ends_returned hvoid).bind
  rintro r' rfl
  refine ⟨rfl, a₂, s₂.count, if void then none else some v, hr₁.trans hr₂.reaches, ?_, ?_⟩
  · rw [hr₂.poised.head rfl hF₃]
    rfl
  · intro w hw
    cases void with
    | true => cases hw
    | false => exact (hg₂ w hw).1

/-- The machine calls a function, and comes back. -/
theorem call_simulates {d' : Ast Addr .functionDec} {vals : List Value} {ls ws : List Scalar}
    (T : Translated m n escaped program F) (ih : Followed rt m n program F k)
    (hd : d' ∈ program.functionDecs) (hg : F.symbols (functionDecName d') = some g)
    (hp : Poised F d s a env) (hF : Grows (s.create (.call g vals)) F)
    (hvals : vals.mapM a.value = some (ls ++ ws)) (hl : Lifts F m n d' env ls) :
    Simulates rt F d cs s (s.create (.call g vals)) a env σ (c := .exp)
      (s.create (.call g vals)).last (Semantics.call m n rt k d' ws ⟨env, σ⟩) := by
  have hhead := hp.head rfl hF
  have hlast (r : Option Scalar) :
      Gives F (s.create (.call g vals)).count (a.next s.count r) .exp
        (s.create (.call g vals)).last r := by
    apply gives_last
    intro w hw
    rw [← hw]
    exact Function.update_self _ _ _
  cases d' with
  | functionDec y name fs r body =>
  cases body with
  | none =>
    obtain ⟨f, vs, hf, hvs, hws⟩ := hl
    have hnil := T.adds.grows.escaped f [] (T.primitives _ hd rfl f hf)
    obtain rfl : vs = [] := Option.some.inj (hvs.symm.trans hnil)
    cases hws
    apply Simulates.of_ends ends_orFail
    rintro ⟨r', σ'⟩ hrt
    obtain ⟨hlater, hnext⟩ := hp.next rfl hF T.sound r'
    refine .ok ⟨.single ?_, hlater, hnext⟩ (hlast r') fun _ => rfl
    have hentry := T.entry_of_primitive hd rfl hg
    obtain ⟨e, he, hname⟩ := T.sound.function_of_symbol hg
    have hreserved := T.reserved _ hd
    rw [← hname, runtimeNames, List.mem_cons, List.mem_cons, List.mem_singleton] at hreserved
    have hext : Llvm.callExternal rt σ e.name ws = some (r', σ') := by
      unfold Llvm.callExternal
      rw [if_neg fun h => hreserved (.inl h), if_neg fun h => hreserved (.inr h), hname]
      exact hrt
    show Llvm.step F rt ⟨a, cs, σ⟩ = some ⟨a.next s.count r', cs, σ'⟩
    rw [List.nil_append] at hvals
    simp [Llvm.step, hhead, hvals, hentry, he, hext]
  | some body =>
    obtain ⟨e, hentry, hcall⟩ := function_reaches T ih hd hg hl
    apply Ends.imp (hcall (a :: cs) ws σ)
    rintro ⟨r', env', σ'⟩ ⟨rfl, a', i, o, hr, hret, hval⟩
    obtain ⟨hlater, hnext⟩ := hp.next rfl hF T.sound (o.bind a'.value)
    refine ⟨fun _ => rfl, _, ⟨?_, hlater, hnext⟩, ?_⟩
    · have hstep : Llvm.step F rt ⟨a, cs, σ⟩ =
          some ⟨.start F g σ.activations (ls ++ ws) e, a :: cs, σ.enter⟩ := by
        simp [Llvm.step, hhead, hvals, hentry]
      have hback : Llvm.step F rt ⟨a', a :: cs, σ'⟩ =
          some ⟨a.next s.count (o.bind a'.value), cs, σ'⟩ := by
        obtain ⟨rest, hrest⟩ := List.head?_eq_some_iff.mp hret
        simp [Llvm.step, hrest, hhead]
      exact .head hstep (hr.tail hback)
    · intro w hw
      exact hlast _ w (hval w hw)

end Translator

end TigerCompiler
