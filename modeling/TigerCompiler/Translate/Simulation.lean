import TigerCompiler.Translate.Linked

/-!
# Following the `Translator`

How the machine follows the evaluation of a part of a function: it starts where the builder stood
before the visit of that part, with what the builder appended from then on still to be run, and
comes to where the builder stood after it.  On the way it only changes registers of later
instructions, so that the values of earlier parts stay.
-/

namespace TigerCompiler

open Llvm (Value Op Instr Param Activation Config Reaches execute instrsOf)
open Semantics (Scalar Pointer Store Runtime Interrupt State ownVars fail orFail ofTypes use useAll)

/-- The evaluation stops for another reason than a `break`. -/
def Semantics.Interrupt.IsFault {W : Type} (i : Interrupt W) : Prop := ∃ f, i = .fault f

namespace Translator

variable {W : Type} {rt : Runtime W} {F s s' s₀ s₁ s₂ : Translator} {d : Ast Addr .functionDec}
  {a a' a₁ a₂ : Activation} {cs : List Activation} {env env' env₁ : Addr → Option Nat}
  {σ σ' σ₁ σ₂ : Store W} {N N' b i : Nat} {v : Value} {w : Scalar} {op : Op} {x : Addr}

/-! ## Values that stay -/

/-- The registers of instructions below `N`, and those of the storage of variables, are as they
were. -/
structure Later (F : Translator) (N : Nat) (a a' : Activation) : Prop where
  fn : a'.fn = a.fn
  act : a'.act = a.act
  args : a'.args = a.args
  regs : ∀ i, (i < N ∨ ∃ x, F.Owns a.fn i x) → a'.regs i = a.regs i

theorem Later.refl (a : Activation) : Later F N a a := ⟨rfl, rfl, rfl, fun _ _ => rfl⟩

theorem Later.trans (h₁ : Later F N a a₁) (h₂ : Later F N' a₁ a') (hN : N ≤ N') :
    Later F N a a' where
  fn := h₂.fn.trans h₁.fn
  act := h₂.act.trans h₁.act
  args := h₂.args.trans h₁.args
  regs i hi := by
    refine (h₂.regs i ?_).trans (h₁.regs i hi)
    rw [h₁.fn]
    exact hi.imp_left fun hlt => Nat.lt_of_lt_of_le hlt hN

theorem Later.jump (h : Later F N a a') : Later F N a (a'.jump F b) :=
  ⟨h.fn, h.act, h.args, h.regs⟩

/-- A value that is known before the instruction `N`. -/
def Stable (F : Translator) (f N : Nat) (v : Value) : Prop :=
  ∀ i, v = .result i → i < N ∨ ∃ x, F.Owns f i x

theorem Stable.mono {f : Nat} (h : Stable F f N v) (hN : N ≤ N') : Stable F f N' v := by
  intro i hi
  exact (h i hi).imp_left fun hlt => Nat.lt_of_lt_of_le hlt hN

theorem Later.value (h : Later F N a a') (hv : Stable F a.fn N v) : a'.value v = a.value v := by
  cases v with
  | int | null | string => rfl
  | argument f k =>
    unfold Activation.value
    rw [h.fn, h.args]
  | result i => exact h.regs i (hv i rfl)

/-- What the visit of a node of a class has given stands for what its evaluation gives. -/
def Gives (F : Translator) (N : Nat) (a : Activation) : (c : Kind) → c.Result → c.Outcome → Prop
  | .exp, v, r | .var, v, r => ∀ w, r = some w → a.value v = some w ∧ Stable F a.fn N v
  | .list c, vs, rs => List.Forall₂ (Gives F N a c) vs rs
  | .opt c, v, r => Option.Rel (Gives F N a c) v r
  | .ty, _, _ | .nameTy, _, _ | .field, _, _ | .fieldInit, _, _ | .varDec, _, _
  | .functionDec, _, _ | .typeDec, _, _ | .varChunk, _, _ | .chunk, _, _ | .chunkList, _, _ => True

theorem Gives.later {c : Kind} {v : c.Result} {r : c.Outcome} (h : Gives F N a c v r)
    (hl : Later F N a a') (hN : N ≤ N') : Gives F N' a' c v r := by
  induction c with
  | exp | var =>
    intro w hw
    obtain ⟨hv, hs⟩ := h w hw
    refine ⟨(hl.value hs).trans hv, ?_⟩
    rw [hl.fn]
    exact hs.mono hN
  | list c ih => exact List.Forall₂.imp (fun v r h => ih h) h
  | opt c ih =>
    cases h with
    | none => exact .none
    | some h => exact .some (ih h)
  | ty | nameTy | field | fieldInit | varDec | functionDec | typeDec | varChunk | chunk
  | chunkList => trivial

/-! ## Where the machine stands -/

/-- What the builder knows of the variables is what the evaluation knows of them, in the activation
of the function `d`. -/
structure Agree (F : Translator) (d : Ast Addr .functionDec) (s : Translator) (a : Activation)
    (env : Addr → Option Nat) : Prop where
  symbol : F.symbols (functionDecName d) = some a.fn
  current : s.currentFunction = some a.fn
  storage : ∀ i x, F.Owns a.fn i x → a.regs i = some (.ptr (.cell a.act x))
  own : ∀ x ∈ ownVars d, ∀ k, env x = some k → k = a.act
  locals : ∀ x v, s.locals a.fn x = some v → (∃ i, v = .result i ∧ F.Owns a.fn i x) ∨
    ∃ j w, v = .argument a.fn j ∧ a.args[j]? = some w ∧
      ∀ k, env x = some k → w = .ptr (.cell k x)

theorem Agree.later (h : Agree F d s a env) (hl : Later F N a a') : Agree F d s a' env where
  symbol := by
    rw [hl.fn]
    exact h.symbol
  current := by
    rw [hl.fn]
    exact h.current
  storage i x hi := by
    rw [hl.fn] at hi
    rw [hl.regs i (.inr ⟨x, hi⟩), hl.act]
    exact h.storage i x hi
  own x hx k hk := by
    rw [hl.act]
    exact h.own x hx k hk
  locals x v hv := by
    rw [hl.fn] at hv ⊢
    rw [hl.args]
    exact h.locals x v hv

/-- The builder knows the same variables. -/
theorem Agree.of_eq (h : Agree F d s a env) (hf : s'.currentFunction = s.currentFunction)
    (hl : s'.locals = s.locals) : Agree F d s' a env :=
  ⟨h.symbol, hf.trans h.current, h.storage, h.own, hl ▸ h.locals⟩

/-- The machine is about to run what was appended after `s`. -/
structure Poised (F : Translator) (d : Ast Addr .functionDec) (s : Translator) (a : Activation)
    (env : Addr → Option Nat) : Prop extends Agree F d s a env where
  cursor : s.builder.cursor = some a.block
  parent : s.builder.parentAt a.block = some (some a.fn)
  rest : a.rest = (F.code a.block).drop (s.code a.block).length

theorem Poised.newBlock (h : Poised F d s a env) : Poised F d s.newBlock a env where
  toAgree := h.toAgree.of_eq rfl rfl
  cursor := h.cursor
  parent := (BlockBuilder.parentAt_newBlock_of_lt (BlockBuilder.lt_next_of_parentAt h.parent)).trans
    h.parent
  rest := by
    rw [h.rest, code_newBlock]

/-- The builder goes on from another state that knows the same. -/
theorem Poised.of_eq (h : Poised F d s a env) (hb : s'.builder = s.builder)
    (hf : s'.currentFunction = s.currentFunction) (hl : s'.locals = s.locals) :
    Poised F d s' a env := by
  refine ⟨h.toAgree.of_eq hf hl, hb ▸ h.cursor, hb ▸ h.parent, ?_⟩
  have hcode : s'.code a.block = s.code a.block := by
    unfold code
    rw [hb]
  rw [hcode]
  exact h.rest

/-- A block that was made for the function, with nothing in it yet, that it does not begin with. -/
structure Target (F s : Translator) (f b : Nat) : Prop where
  code : s.code b = []
  parent : s.builder.parentAt b = some (some f)
  earlier : ∃ c < b, F.builder.parentAt c = some (some f)

theorem Target.instrsOf (h : Target F s (a.fn) b) (hF : Grows s F) (hs : F.Sound) :
    instrsOf F b = F.code b := by
  obtain ⟨l, hl, -, hentry⟩ := hs.fronted b
  obtain ⟨c, hc, hparent⟩ := h.earlier
  have hnil : l = [] := by
    by_contra hne
    obtain ⟨p, hp⟩ := hentry hne
    obtain ⟨hpb, hfirst⟩ := BlockBuilder.entry_eq_some.mp hp
    rw [hF.builder.parentAt_eq_some h.parent] at hpb
    cases hpb
    exact hfirst c hc hparent
  rw [hnil] at hl
  exact hl

/-- The machine jumps to where the builder goes. -/
theorem Agree.jump (h : Agree F d s a env) (ht : Target F s a.fn b) (hF : Grows s F)
    (hs : F.Sound) (hcur : s.builder.cursor = some b) : Poised F d s (a.jump F b) env where
  toAgree := h.later (N := 0) (Later.refl a).jump
  cursor := hcur
  parent := ht.parent
  rest := by
    show Llvm.instrsOf F b = _
    rw [ht.instrsOf hF hs]
    show _ = (F.code b).drop (s.code b).length
    rw [ht.code]
    rfl

/-! ## Runs -/

/-- The machine goes from where the builder stood before `s` to where it stood after `s'`. -/
structure Runs (rt : Runtime W) (F : Translator) (d : Ast Addr .functionDec)
    (cs : List Activation) (s s' : Translator) (a a' : Activation) (env' : Addr → Option Nat)
    (σ σ' : Store W) : Prop where
  reaches : Reaches F rt ⟨a, cs, σ⟩ ⟨a', cs, σ'⟩
  later : Later F s.count a a'
  poised : Poised F d s' a' env'

namespace Runs

theorem refl (h : Poised F d s' a env) : Runs rt F d cs s s' a a env σ σ :=
  ⟨.refl, .refl a, h⟩

theorem trans (h₁ : Runs rt F d cs s s₁ a a₁ env₁ σ σ₁)
    (h₂ : Runs rt F d cs s₁ s' a₁ a' env' σ₁ σ') (hc : s.count ≤ s₁.count) :
    Runs rt F d cs s s' a a' env' σ σ' :=
  ⟨h₁.reaches.trans h₂.reaches, h₁.later.trans h₂.later hc, h₂.poised⟩

end Runs

/-- The next instruction is the one the builder inserts. -/
theorem Poised.head (h : Poised F d s a env) (hop : (Instr.mk s.count op).isAlloca = false)
    (hF : Grows (s.create op) F) :
    a.rest = ⟨s.count, op⟩ :: (F.code a.block).drop ((s.create op).code a.block).length := by
  have hlt := BlockBuilder.lt_next_of_parentAt h.parent
  have hcode : (s.create op).code a.block = s.code a.block ++ [⟨s.count, op⟩] :=
    BlockBuilder.code_insert hop h.cursor hlt
  obtain ⟨l, hl⟩ := hF.builder.code a.block
  have hl : F.code a.block = (s.create op).code a.block ++ l := hl.symm
  rw [h.rest, hl, List.drop_left, hcode, List.append_assoc, List.drop_left]
  rfl

theorem mem_of_prefix {c : Nat} {j : Instr} (hF : Grows s F) (hj : j ∈ s.code c) :
    j ∈ F.builder.instrsAt c :=
  List.mem_of_mem_filter ((hF.builder.code c).subset hj)

/-- An instruction that is inserted is not the storage of a variable. -/
theorem Poised.ne_storage (h : Poised F d s a env) (hop : (Instr.mk s.count op).isAlloca = false)
    (hF : Grows (s.create op) F) (hs : F.Sound) {f : Nat} (hi : F.Owns f i x) : i ≠ s.count := by
  rintro rfl
  obtain ⟨c, -, hmem⟩ := hi
  have hlt := BlockBuilder.lt_next_of_parentAt h.parent
  have hcode : (s.create op).code a.block = s.code a.block ++ [⟨s.count, op⟩] :=
    BlockBuilder.code_insert hop h.cursor hlt
  have hj : ⟨s.count, op⟩ ∈ F.builder.instrsAt a.block := by
    apply mem_of_prefix hF (c := a.block)
    rw [hcode]
    exact List.mem_concat_self
  have heq := hs.numbered.inj _ _ _ hmem _ hj rfl
  rw [← heq] at hop
  cases hop

/-- The machine after the instruction that is inserted has given `w`. -/
theorem Poised.next (h : Poised F d s a env) (hop : (Instr.mk s.count op).isAlloca = false)
    (hF : Grows (s.create op) F) (hs : F.Sound) (w : Option Scalar) :
    Later F s.count a (a.next s.count w) ∧ Poised F d (s.create op) (a.next s.count w) env := by
  have hl : Later F s.count a (a.next s.count w) := by
    refine ⟨rfl, rfl, rfl, ?_⟩
    intro i hi
    refine Function.update_of_ne ?_ _ _
    rcases hi with hi | ⟨x, hi⟩
    · exact Nat.ne_of_lt hi
    · exact h.ne_storage hop hF hs hi
  have hagree : Agree F d (s.create op) a env := h.toAgree.of_eq rfl rfl
  refine ⟨hl, ⟨hagree.later hl, ?_, ?_, ?_⟩⟩
  · exact BlockBuilder.cursor_insert.trans h.cursor
  · exact BlockBuilder.parentAt_insert.trans h.parent
  · show a.rest.tail = _
    rw [h.head hop hF]
    rfl

/-- An instruction that neither calls nor jumps. -/
theorem Poised.execute (rt : Runtime W) (cs : List Activation) (h : Poised F d s a env)
    (hF : Grows (s.create op) F) (hs : F.Sound) {r : Option Scalar}
    (hop : (Instr.mk s.count op).isAlloca = false)
    (hx : execute a σ op = some (r, σ')) :
    Runs rt F d cs s (s.create op) a (a.next s.count r) env σ σ' := by
  obtain ⟨hl, hp⟩ := h.next hop hF hs r
  refine ⟨.single ?_, hl, hp⟩
  show Llvm.step F rt ⟨a, cs, σ⟩ = some ⟨a.next s.count r, cs, σ'⟩
  cases op with
  | call | br | condBr | ret => cases hx
  | _ => simp [Llvm.step, h.head hop hF, hx]

/-- What the last instruction gives. -/
theorem gives_last {r : Option Scalar} (hw : ∀ w, r = some w → a.regs (s.count) = some w) :
    Gives F (s.create op).count a .exp (s.create op).last r := by
  intro w hr
  refine ⟨hw w hr, ?_⟩
  intro i hi
  cases hi
  exact .inl (Nat.lt_succ_self _)

/-- The machine runs the instruction that is inserted, and has what it gives. -/
theorem Poised.emit (rt : Runtime W) (cs : List Activation) (h : Poised F d s a env)
    (hF : Grows (s.create op) F) (hs : F.Sound) {r : Option Scalar}
    (hop : (Instr.mk s.count op).isAlloca = false)
    (hx : Llvm.execute a σ op = some (r, σ')) :
    ∃ a', Runs rt F d cs s (s.create op) a a' env σ σ' ∧
      Gives F (s.create op).count a' .exp (s.create op).last r := by
  refine ⟨_, h.execute rt cs hF hs hop hx, gives_last ?_⟩
  intro w hw
  rw [← hw]
  exact Function.update_self _ _ _

theorem Poised.br (rt : Runtime W) (cs : List Activation) (σ : Store W) (h : Poised F d s a env)
    (hF : Grows (s.create (.br b)) F) :
    Reaches F rt ⟨a, cs, σ⟩ ⟨a.jump F b, cs, σ⟩ := by
  refine .single ?_
  show Llvm.step F rt ⟨a, cs, σ⟩ = some ⟨a.jump F b, cs, σ⟩
  simp [Llvm.step, h.head rfl hF]

theorem Poised.condBr (rt : Runtime W) (cs : List Activation) (σ : Store W) {b' : Nat} {t : Bool}
    (h : Poised F d s a env) (hF : Grows (s.create (.condBr v b b')) F)
    (hv : a.value v = some (.bool t)) :
    Reaches F rt ⟨a, cs, σ⟩ ⟨a.jump F (if t then b else b'), cs, σ⟩ := by
  refine .single ?_
  show Llvm.step F rt ⟨a, cs, σ⟩ = some ⟨a.jump F (if t then b else b'), cs, σ⟩
  simp [Llvm.step, h.head rfl hF, hv]

/-! ## Simulations -/

/-- Where an evaluation from `env` and `σ` has a result, the machine follows it. -/
def Simulates (rt : Runtime W) (F : Translator) (d : Ast Addr .functionDec)
    (cs : List Activation) (s s' : Translator) (a : Activation) (env : Addr → Option Nat)
    (σ : Store W) {c : Kind} (v : c.Result) (x : Except (Interrupt W) (c.Outcome × State W)) :
    Prop :=
  Ends Interrupt.IsFault (fun res => (c.declares = false → res.2.env = env) ∧
    ∃ a', Runs rt F d cs s s' a a' res.2.env σ res.2.store ∧ Gives F s'.count a' c v res.1) x

namespace Simulates

variable {c c₁ : Kind} {v : c.Result} {v₁ : c₁.Result} {r : c.Outcome}

theorem ok (h : Runs rt F d cs s s' a a' env' σ σ') (hg : Gives F s'.count a' c v r)
    (hk : c.declares = false → env' = env) :
    Simulates rt F d cs s s' a env σ v (.ok (r, ⟨env', σ'⟩)) :=
  ⟨hk, a', h, hg⟩

theorem fault {f : Semantics.Fault} : Simulates rt F d cs s s' a env σ v (fail f) := ⟨f, rfl⟩

/-- Something is computed before. -/
theorem of_ends {α : Type} {I : α → Prop} {x : Except (Interrupt W) α}
    {f : α → Except (Interrupt W) (c.Outcome × State W)} (hx : Ends Interrupt.IsFault I x)
    (hf : ∀ y, I y → Simulates rt F d cs s s' a env σ v (f y)) :
    Simulates rt F d cs s s' a env σ v (x >>= f) := Ends.bind hx hf

/-- The machine has run before. -/
theorem after (h : Runs rt F d cs s s₁ a a₁ env₁ σ σ₁) (hc : s.count ≤ s₁.count)
    (hk : c.declares = false → env₁ = env) {x : Except (Interrupt W) (c.Outcome × State W)}
    (hx : Simulates rt F d cs s₁ s' a₁ env₁ σ₁ v x) : Simulates rt F d cs s s' a env σ v x := by
  apply Ends.imp hx
  rintro ⟨r, st⟩ ⟨hk', a', h', hg⟩
  exact ⟨fun hd => (hk' hd).trans (hk hd), a', h.trans h' hc, hg⟩

/-- A part is evaluated, and then the rest is. -/
theorem bind {x : Except (Interrupt W) (c₁.Outcome × State W)}
    {f : c₁.Outcome × State W → Except (Interrupt W) (c.Outcome × State W)}
    (hx : Simulates rt F d cs s s₁ a env σ v₁ x) (hc : s.count ≤ s₁.count)
    (hd : c.declares = false → c₁.declares = false)
    (hf : ∀ r₁ env₁ σ₁ a₁, (c₁.declares = false → env₁ = env) →
      Runs rt F d cs s s₁ a a₁ env₁ σ σ₁ → Gives F s₁.count a₁ c₁ v₁ r₁ →
      Simulates rt F d cs s₁ s' a₁ env₁ σ₁ v (f (r₁, ⟨env₁, σ₁⟩))) :
    Simulates rt F d cs s s' a env σ v (x >>= f) := by
  apply Ends.bind hx
  rintro ⟨r₁, env₁, σ₁⟩ ⟨hk, a₁, h, hg⟩
  exact (hf r₁ env₁ σ₁ a₁ hk h hg).after h hc fun hdec => hk (hd hdec)

end Simulates

/-! ## What is computed beside -/

theorem ends_use {r : Option Scalar} :
    Ends Interrupt.IsFault (fun w => r = some w) (use r : Except (Interrupt W) Scalar) := by
  cases r with
  | none => exact ⟨_, rfl⟩
  | some w => rfl

theorem ends_orFail {α : Type} {f : Semantics.Fault} {o : Option α} :
    Ends Interrupt.IsFault (fun y => o = some y) (orFail f o : Except (Interrupt W) α) := by
  cases o with
  | none => exact ⟨_, rfl⟩
  | some w => rfl

theorem ends_ofTypes {α : Type} {x : Except Stop α} :
    Ends Interrupt.IsFault (fun y => x = .ok y) (ofTypes x : Except (Interrupt W) α) := by
  cases x with
  | error e => exact ⟨_, rfl⟩
  | ok y => rfl

theorem ends_toInt : Ends Interrupt.IsFault (fun i => w = .int i)
    (Semantics.toInt w : Except (Interrupt W) (BitVec 64)) := by
  cases w with
  | int i => rfl
  | bool | str | null | ptr => exact ⟨_, rfl⟩

/-- A member of a record or an array: a `getelementptr` gives the pointer to it. -/
theorem ends_member {i : Int} : Ends Interrupt.IsFault (fun p => Llvm.gep w i = some p)
    (Semantics.member w i : Except (Interrupt W) Scalar) := by
  cases w with
  | ptr p =>
    apply ends_orFail.bind
    intro q hq
    show Llvm.gep (.ptr p) i = some (.ptr q)
    simp [Llvm.gep, hq]
  | null | int | bool | str => exact ⟨_, rfl⟩

theorem ends_load : Ends Interrupt.IsFault (fun y => ∃ p, w = .ptr p ∧ σ.read p = some y)
    (Semantics.load σ w : Except (Interrupt W) Scalar) := by
  cases w with
  | ptr p => exact ends_orFail.imp fun y hy => ⟨p, rfl, hy⟩
  | null | int | bool | str => exact ⟨_, rfl⟩

theorem ends_store {y : Scalar} : Ends Interrupt.IsFault
    (fun σ' => ∃ p, w = .ptr p ∧ σ.write y p = some σ')
    (Semantics.store σ y w : Except (Interrupt W) (Store W)) := by
  cases w with
  | ptr p => exact ends_orFail.imp fun y hy => ⟨p, rfl, hy⟩
  | null | int | bool | str => exact ⟨_, rfl⟩

theorem ends_intOp {o : Oper} {l r : BitVec 64} : Ends Interrupt.IsFault
    (fun w => ∃ y, Llvm.intBinary o l r = some y ∧ Llvm.zextOrTrunc y = some w)
    (Semantics.intOp o l r : Except (Interrupt W) Scalar) := by
  cases o with
  | div =>
    simp only [Semantics.intOp, Llvm.intBinary]
    split
    · exact ⟨_, rfl⟩
    · exact ⟨_, rfl, rfl⟩
  | add | sub | mul | eq | ne | lt | le | gt | ge => exact ⟨_, rfl, rfl⟩

theorem ends_refOp {o : Oper} {l r : Scalar} (hl : l.isRef = true) (hr : r.isRef = true) :
    Ends Interrupt.IsFault
      (fun w => ∃ y, Llvm.binary o l r = some y ∧ Llvm.zextOrTrunc y = some w)
      (Semantics.refOp o l r : Except (Interrupt W) Scalar) := by
  cases o with
  | eq =>
    refine ⟨.bool (l = r), ?_, rfl⟩
    cases l <;> cases r <;> simp_all [Llvm.binary, Scalar.isRef]
  | ne =>
    refine ⟨.bool (l ≠ r), ?_, rfl⟩
    cases l <;> cases r <;> simp_all [Llvm.binary, Scalar.isRef]
  | add | sub | mul | div | lt | le | gt | ge => exact ⟨_, rfl⟩

/-- An operator: what the instruction gives is extended to an integer. -/
theorem ends_evalOp {o : Oper} {l r : Scalar} : Ends Interrupt.IsFault
    (fun w => ∃ y, Llvm.binary o l r = some y ∧ Llvm.zextOrTrunc y = some w)
    (Semantics.evalOp o l r : Except (Interrupt W) Scalar) := by
  unfold Semantics.evalOp
  split
  · exact ends_intOp
  · split
    · rename_i hrefs
      exact ends_refOp hrefs.1 hrefs.2
    · exact ⟨_, rfl⟩

/-! ## What the instructions do -/

section Execute

variable {u v : Value} {y z : Scalar} {p : Pointer} {o : Oper}

theorem execute_load (hv : a.value v = some (.ptr p)) (hp : σ.read p = some w) :
    execute a σ (.load v) = some (some w, σ) := by
  simp [execute, hv, hp]

theorem execute_store (hu : a.value u = some w) (hv : a.value v = some (.ptr p))
    (hp : σ.write w p = some σ') : execute a σ (.store u v) = some (none, σ') := by
  simp [execute, hu, hv, hp]

theorem execute_structGep {i : Nat} (hv : a.value v = some w) (hy : Llvm.gep w i = some y) :
    execute a σ (.structGep v i) = some (some y, σ) := by
  simp [execute, hv, hy]

theorem execute_gep {i : BitVec 64} (hv : a.value v = some w) (hu : a.value u = some (.int i))
    (hy : Llvm.gep w i.toInt = some y) : execute a σ (.gep v u) = some (some y, σ) := by
  simp [execute, hv, hu, hy]

theorem execute_binary (hu : a.value u = some w) (hv : a.value v = some y)
    (hz : Llvm.binary o w y = some z) : execute a σ (.binary o u v) = some (some z, σ) := by
  simp [execute, hu, hv, hz]

theorem execute_zextOrTrunc (hv : a.value v = some w) (hy : Llvm.zextOrTrunc w = some y) :
    execute a σ (.zextOrTrunc v) = some (some y, σ) := by
  simp [execute, hv, hy]

theorem execute_icmpNe {i : BitVec 64} (hv : a.value v = some (.int i)) :
    execute a σ (.icmpNe v (.int 0)) = some (some (.bool (i ≠ 0)), σ) := by
  have hzero : a.value (.int 0) = some (.int 0) := rfl
  simp [execute, hv, hzero, Llvm.icmpNe]

theorem execute_cast (hv : a.value v = some w) :
    execute a σ (.ptrToInt v) = some (some w, σ) ∧ execute a σ (.bitCast v) = some (some w, σ) := by
  simp [execute, hv]

end Execute

end Translator

end TigerCompiler
