import TigerCompiler.Translate.Translator
import TigerCompiler.Bind.Binder
import TigerCompiler.Type.TypeChecker

/-!
# The blocks of the `Translator`

Every block should end with its one terminator.  A visit leaves the block it began in, makes others
and ends in one of them: what it owes is followed as the list of the blocks that wait for their
terminator.  A `break` puts a terminator in the current block and stays there, so it is counted:
the terminators then outnumber the blocks.
-/

namespace TigerCompiler

open Llvm (Value Op Instr Param)

namespace Ast

/-- The `break`s that are translated. -/
def breaks : {k : Kind} → Ast Addr k → List Addr
  | _, .nil => []
  | _, .cons x xs => x.breaks ++ xs.breaks
  | _, .none => []
  | _, .some x => x.breaks
  | _, .simpleVar _ _ => []
  | _, .fieldVar _ v _ => v.breaks
  | _, .subscriptVar _ v i => v.breaks ++ i.breaks
  | _, .ofVar v => v.breaks
  | _, .nilExp _ => []
  | _, .intExp _ _ => []
  | _, .stringExp _ _ => []
  | _, .callExp _ _ args => args.breaks
  | _, .opExp _ l _ r => l.breaks ++ r.breaks
  | _, .recordExp _ _ fs => fs.breaks
  | _, .seqExp _ es => es.breaks
  | _, .assignExp _ v e => v.breaks ++ e.breaks
  | _, .ifExp _ c t e => c.breaks ++ t.breaks ++ e.breaks
  | _, .whileExp _ c b => c.breaks ++ b.breaks
  | _, .forExp _ d h b => d.breaks ++ h.breaks ++ b.breaks
  | _, .breakExp a => [a]
  | _, .letExp _ cs b => cs.breaks ++ b.breaks
  | _, .arrayExp _ _ s i => s.breaks ++ i.breaks
  | _, .castExp _ e _ => e.breaks
  | _, .nameTy _ _ => []
  | _, .ofNameTy _ => []
  | _, .recordTy _ _ => []
  | _, .arrayTy _ _ => []
  | _, .field _ _ _ => []
  | _, .fieldInit _ _ i => i.breaks
  | _, .varDec _ _ _ i => i.breaks
  | _, .functionDec _ _ _ _ b => b.breaks
  | _, .typeDec _ _ _ => []
  | _, .varChunk _ ds => ds.breaks
  | _, .ofVarChunk c => c.breaks
  | _, .functionChunk _ ds => ds.breaks
  | _, .typeChunk _ _ => []
  | _, .chunkList _ cs => cs.breaks

attribute [local simp] breaks

/-- Whether the method of a node visits parts in turn, and between them does nothing but add
instructions to the block it stands in. -/
def staysInBlock : {k : Kind} → Ast Addr k → Bool
  | _, .ifExp _ _ _ _ | _, .whileExp _ _ _ | _, .breakExp _ | _, .varDec _ _ _ _
  | _, .functionDec _ _ _ _ _ | _, .functionChunk _ _ => false
  | _, _ => true

/-- The parts that such a method visits, in its order. -/
def visited : {k : Kind} → Ast Addr k → List (Σ k, Ast Addr k)
  | _, .recordExp _ _ fs => [⟨_, fs⟩]
  | _, .assignExp _ v e => [⟨_, e⟩, ⟨_, v⟩]
  | _, .arrayExp _ _ s i => [⟨_, s⟩, ⟨_, i⟩]
  | _, .castExp _ e _ => [⟨_, e⟩]
  | _, .ofNameTy _ | _, .recordTy _ _ | _, .arrayTy _ _ | _, .field _ _ _ | _, .typeDec _ _ _
  | _, .typeChunk _ _ => []
  | _, t => t.members

theorem visited_subset_members {t : Ast Addr k} : t.visited ⊆ t.members := by
  cases t <;> simp [visited, members]

theorem breaks_visited {t : Ast Addr k} (ht : t.staysInBlock = true) :
    (t.visited.map fun p => p.2.breaks.length).sum = t.breaks.length := by
  cases t with
  | assignExp a v e => simp [visited, breaks, Nat.add_comm]
  | ifExp | whileExp | breakExp | varDec | functionDec | functionChunk => cases ht
  | _ => simp [visited, members, breaks]

end Ast

/-- Whether an instruction neither ends a block nor makes a variable. -/
def Llvm.Op.isPlain : Op → Bool
  | .alloca _ | .br _ | .condBr _ _ _ | .ret _ => false
  | _ => true

theorem Llvm.Op.isTerminator_of_isPlain {op : Op} (h : op.isPlain = true) :
    op.isTerminator = false := by
  cases op <;> first | rfl | cases h

/-- The classes whose nodes may stand outside of functions. -/
def Kind.outside : Kind → Bool
  | .varDec | .functionDec | .typeDec | .varChunk | .chunk | .chunkList => true
  | .list k => k.outside
  | _ => false

theorem Ast.outside_visited {t : Ast Addr k} (ht : t.staysInBlock = true) (hk : k.outside = true) :
    ∀ p ∈ t.visited, p.1.outside = true := by
  cases t <;> simp_all [visited, members, staysInBlock, Kind.outside]

namespace Translator

variable {m : Annotated} {n i j : Nat} {k : Kind} {s s' s₁ s₂ : Translator} {op : Op}
  {l l' : List Nat} {b : Nat} {o : Option Nat}

/-! ## What is followed -/

/-- The builder stands in a block. -/
def Stands (s : Translator) : Prop := ∃ c, s.builder.cursor = some c ∧ c < s.builder.next

/-- The current block and those of `l` have no terminator yet, and every other block is well
formed. -/
def Waits (s : Translator) (l : List Nat) : Prop :=
  s.builder.Waits Instr.ends (s.builder.cursor.toList ++ l)

/-- How many terminators there are more than blocks. -/
def surplus (s : Translator) : Int := s.builder.surplus Instr.ends

theorem Waits.perm (h : s.Waits l) (hp : l.Perm l') : s.Waits l' :=
  BlockBuilder.Waits.perm h (hp.append_left _)

theorem Waits.newBlock (h : s.Waits l) : s.newBlock.Waits (s.builder.next :: l) :=
  BlockBuilder.Waits.perm (BlockBuilder.Waits.newBlock h) List.perm_middle.symm

/-- A terminator is inserted and the builder goes on somewhere else. -/
theorem Waits.jump (h : s.Waits (o.toList ++ l)) (hop : op.isTerminator = true) :
    ((s.create op).moveTo o).Waits l :=
  (BlockBuilder.Waits.terminate (i := Instr.mk s.count op) h hop).moveTo

@[simp] theorem next_create : (s.create op).builder.next = s.builder.next :=
  BlockBuilder.next_insert

@[simp] theorem next_moveTo : (s.moveTo o).builder.next = s.builder.next := rfl

@[simp] theorem next_newBlock : s.newBlock.builder.next = s.builder.next + 1 :=
  BlockBuilder.next_newBlock

@[simp] theorem surplus_moveTo : (s.moveTo o).surplus = s.surplus := rfl

@[simp] theorem surplus_newBlock : s.newBlock.surplus = s.surplus - 1 :=
  BlockBuilder.surplus_newBlock

theorem Stands.surplus_create (h : s.Stands) (hop : op.isTerminator = true) :
    (s.create op).surplus = s.surplus + 1 := by
  obtain ⟨c, hc, hlt⟩ := h
  exact BlockBuilder.surplus_insert_of_ends hc hlt hop

theorem stands_moveTo (h : b < s.builder.next) : (s.moveTo (some b)).Stands := ⟨b, rfl, h⟩

theorem Stands.newBlock (h : s.Stands) : s.newBlock.Stands := by
  obtain ⟨c, hc, hlt⟩ := h
  exact ⟨c, hc, by rw [next_newBlock]; exact Nat.lt_succ_of_lt hlt⟩

/-- What comes of code that makes blocks and fills them, with `n` terminators too many. -/
structure Emits (n : Nat) (s s' : Translator) : Prop where
  currentFunction : s'.currentFunction = s.currentFunction
  next : s.builder.next ≤ s'.builder.next
  stands : s.Stands → s'.Stands
  outside : s.currentFunction = none → s'.builder.cursor = s.builder.cursor
  surplus : s'.surplus = s.surplus + n
  waits : n = 0 → ∀ l, s.Waits l → s'.Waits l

namespace Emits

theorem of_eq (hb : s'.builder = s.builder) (hf : s'.currentFunction = s.currentFunction) :
    Emits 0 s s' where
  currentFunction := hf
  next := Nat.le_of_eq (congrArg _ hb.symm)
  stands h := by
    unfold Stands
    rw [hb]
    exact h
  outside _ := congrArg _ hb
  surplus := by
    simp [Translator.surplus, hb]
  waits _ l h := by
    unfold Waits
    rw [hb]
    exact h

theorem refl (s : Translator) : Emits 0 s s := of_eq rfl rfl

theorem trans (h₁ : Emits i s s₁) (h₂ : Emits j s₁ s') : Emits (i + j) s s' where
  currentFunction := h₂.currentFunction.trans h₁.currentFunction
  next := Nat.le_trans h₁.next h₂.next
  stands h := h₂.stands (h₁.stands h)
  outside h := (h₂.outside (h₁.currentFunction.trans h)).trans (h₁.outside h)
  surplus := by
    rw [h₂.surplus, h₁.surplus]
    push_cast
    omega
  waits h l hw := h₂.waits (by omega) l (h₁.waits (by omega) l hw)

theorem zero_trans (h₁ : Emits 0 s s₁) (h₂ : Emits i s₁ s') : Emits i s s' := by
  have h := h₁.trans h₂
  rwa [Nat.zero_add] at h

theorem create (hop : op.isTerminator = false) : Emits 0 s (s.create op) where
  currentFunction := rfl
  next := Nat.le_of_eq next_create.symm
  stands h := by
    obtain ⟨c, hc, hlt⟩ := h
    exact ⟨c, BlockBuilder.cursor_insert.trans hc, by rwa [next_create]⟩
  outside _ := BlockBuilder.cursor_insert
  surplus := by
    have h : (s.builder.insert ⟨s.count, op⟩).surplus Instr.ends = s.surplus :=
      BlockBuilder.surplus_insert hop
    exact h.trans (Int.add_zero _).symm
  waits _ l h := by
    have hw := BlockBuilder.Waits.insert (i := Instr.mk s.count op) h hop
    unfold Waits
    rwa [Translator.create, BlockBuilder.cursor_insert]

theorem createAlloca {a : Addr} (h : s.createAlloca a = .ok s') : Emits 0 s s' := by
  unfold Translator.createAlloca at h
  split at h
  · cases h
  · split at h
    · cases h
    · cases h
      exact {
        currentFunction := rfl
        next := Nat.le_of_eq BlockBuilder.next_insertFront.symm
        stands := fun ⟨c, hc, hlt⟩ => ⟨c, hc, by rwa [BlockBuilder.next_insertFront]⟩
        outside := fun _ => rfl
        surplus := by
          exact (BlockBuilder.surplus_insertFront rfl).trans (Int.add_zero _).symm
        waits := fun _ l hw => BlockBuilder.Waits.insertFront hw rfl }

end Emits

/-! ## The methods that stay in their block -/

/-- Instructions are added to the block the builder stands in, and functions of the runtime are
looked for. -/
inductive Steps : Translator → Translator → Prop
  | refl (s : Translator) : Steps s s
  | create {s s' : Translator} {op : Op} (h : Steps s s') (hop : op.isPlain = true) :
      Steps s (s'.create op)
  | lookup {s s' : Translator} (h : Steps s s') (name : Symbol) (params : List Param) :
      Steps s (s'.getOrInsertFunction name params)

/-- Some trees are visited in turn. -/
inductive Visits (m : Annotated) (n : Nat) :
    List (Σ k, Ast Addr k) → Translator → Translator → Prop
  | nil (s : Translator) : Visits m n [] s s
  | cons {k : Kind} {t : Ast Addr k} {how : How} {v : k.Result} {ts : List (Σ k, Ast Addr k)}
      {s s₁ s' : Translator} (h : visit m n t how s = .ok (v, s₁)) (hs : Visits m n ts s₁ s') :
      Visits m n (⟨k, t⟩ :: ts) s s'

theorem Visits.one {t : Ast Addr k} {how : How} {v : k.Result}
    (h : visit m n t how s = .ok (v, s')) : Visits m n [⟨k, t⟩] s s' := .cons h (.nil s')

theorem steps_merge {t : TypePtr} {v w : Value} {o o' : Option Nat} :
    Steps s (s.merge t v w o o').2 := by
  unfold merge
  split
  · exact .refl s
  · exact .create (.refl s) rfl

theorem steps_initArray {count init : Value} {t : TypePtr}
    (h : s.initArray count init t = .ok s') : Steps s s' := by
  simp only [initArray, bind_eq_ok] at h
  obtain ⟨f, -, h⟩ := h
  cases h
  have hcast : Steps s (s.create (if isPointer t then .ptrToInt init else .bitCast init)) := by
    split <;> exact .create (.refl s) rfl
  exact .create (.create (.lookup hcast _ _) rfl) rfl

/-- What such a method does. -/
theorem visit_staysInBlock {t : Ast Addr k} {how : How} {v : k.Result}
    (ht : t.staysInBlock = true) (h : visit m n t how s = .ok (v, s')) :
    ∃ s₁ s₂, Steps s s₁ ∧ Visits m n t.visited s₁ s₂ ∧ Steps s₂ s' := by
  cases t with
  | ifExp | whileExp | breakExp | varDec | functionDec | functionChunk => cases ht
  | nil | none | nilExp | intExp | stringExp | nameTy | ofNameTy | recordTy | arrayTy | field
  | typeDec | typeChunk =>
    cases h
    exact ⟨s, s, .refl s, .nil s, .refl s⟩
  | cons x xs =>
    simp only [visit, bind_eq_ok, Prod.exists] at h
    obtain ⟨v₁, s₁, h₁, v₂, s₂, h₂, h⟩ := h
    cases h
    exact ⟨s, _, .refl s, .cons h₁ (.one h₂), .refl _⟩
  | some x | ofVar x | ofVarChunk x | varChunk _ x | chunkList _ x | seqExp _ x =>
    simp only [visit, bind_eq_ok, Prod.exists] at h
    obtain ⟨v₁, s₁, h₁, h⟩ := h
    cases h
    exact ⟨s, _, .refl s, .one h₁, .refl _⟩
  | simpleVar a x =>
    cases how
    case access =>
      simp only [visit, bind_eq_ok] at h
      obtain ⟨p, -, h⟩ := h
      cases h
      exact ⟨s, s, .refl s, .nil s, .refl s⟩
    all_goals
      simp only [visit, bind_eq_ok] at h
      obtain ⟨p, -, h⟩ := h
      cases h
      exact ⟨s, s, .refl s, .nil s, .create (.refl s) rfl⟩
  | fieldVar a w x =>
    simp only [visit, bind_eq_ok, Prod.exists] at h
    obtain ⟨p, s₁, h₁, fields, -, h⟩ := h
    refine ⟨s, s₁, .refl s, .one h₁, ?_⟩
    cases how
    case access =>
      cases h
      exact .create (.refl s₁) rfl
    all_goals
      cases h
      exact .create (.create (.refl s₁) rfl) rfl
  | subscriptVar a w i =>
    simp only [visit, bind_eq_ok, Prod.exists] at h
    obtain ⟨p, s₁, h₁, v₂, s₂, h₂, h⟩ := h
    refine ⟨s, s₂, .refl s, .cons h₁ (.one h₂), ?_⟩
    cases how
    case access =>
      cases h
      exact .create (.refl s₂) rfl
    all_goals
      cases h
      exact .create (.create (.refl s₂) rfl) rfl
  | callExp a x args =>
    simp only [visit, bind_eq_ok, Prod.exists] at h
    obtain ⟨d, -, lifted, -, v₁, s₁, h₁, f, -, h⟩ := h
    cases h
    exact ⟨s, s₁, .refl s, .one h₁, .create (.refl s₁) rfl⟩
  | opExp a l o r =>
    simp only [visit, bind_eq_ok, Prod.exists] at h
    obtain ⟨v₁, s₁, h₁, v₂, s₂, h₂, h⟩ := h
    cases h
    exact ⟨s, s₂, .refl s, .cons h₁ (.one h₂), .create (.create (.refl s₂) rfl) rfl⟩
  | recordExp a w fs =>
    simp only [visit, bind_eq_ok, Prod.exists] at h
    obtain ⟨fields, -, v₁, s₁, h₁, h⟩ := h
    cases h
    exact ⟨_, _, .create (.refl s) rfl, .one h₁, .refl _⟩
  | assignExp a w x =>
    simp only [visit, bind_eq_ok, Prod.exists] at h
    obtain ⟨v₁, s₁, h₁, v₂, s₂, h₂, h⟩ := h
    cases h
    exact ⟨s, s₂, .refl s, .cons h₁ (.one h₂), .create (.refl s₂) rfl⟩
  | forExp a d hi body =>
    simp only [visit, bind_eq_ok, Prod.exists] at h
    obtain ⟨v₁, s₁, h₁, v₂, s₂, h₂, h⟩ := h
    exact ⟨s, s', .refl s, .cons h₁ (.cons h₂ (.one h)), .refl s'⟩
  | letExp a cs body =>
    simp only [visit, bind_eq_ok, Prod.exists] at h
    obtain ⟨v₁, s₁, h₁, h⟩ := h
    exact ⟨s, s', .refl s, .cons h₁ (.one h), .refl s'⟩
  | arrayExp a w size init =>
    simp only [visit, bind_eq_ok, Prod.exists] at h
    obtain ⟨v₁, s₁, h₁, v₂, s₂, h₂, t, -, s₃, h₃, h⟩ := h
    cases h
    exact ⟨s, s₂, .refl s, .cons h₁ (.one h₂), steps_initArray h₃⟩
  | castExp a x ty =>
    simp only [visit, bind_eq_ok, Prod.exists] at h
    obtain ⟨v₁, s₁, h₁, h⟩ := h
    cases h
    exact ⟨s, s₁, .refl s, .one h₁, .create (.refl s₁) rfl⟩
  | fieldInit a x i =>
    simp only [visit, bind_eq_ok, Prod.exists] at h
    obtain ⟨v₁, s₁, h₁, h⟩ := h
    refine ⟨s, s₁, .refl s, .one h₁, ?_⟩
    cases how
    case init fields ptr =>
      simp only [bind_eq_ok] at h
      obtain ⟨index, -, h⟩ := h
      cases h
      exact .create (.create (.refl s₁) rfl) rfl
    all_goals
      cases h
      exact .refl _

/-! ## The functions called by the visits -/

theorem emits_escapedRef (f : Addr) : Emits 0 s (s.escapedRef f).2 := by
  unfold escapedRef
  split <;> exact .of_eq rfl rfl

theorem emits_getOrInsertFunction (name : Symbol) (params : List Param) :
    Emits 0 s (s.getOrInsertFunction name params) := by
  unfold getOrInsertFunction
  split
  · exact .refl s
  · exact .of_eq rfl rfl

theorem Emits.of_steps (h : Steps s s') : Emits 0 s s' := by
  induction h with
  | refl => exact .refl _
  | create _ hop ih => exact ih.trans (.create (Llvm.Op.isTerminator_of_isPlain hop))
  | lookup _ name params ih => exact ih.trans (emits_getOrInsertFunction name params)

theorem emits_functionHeader {d : Ast Addr .functionDec}
    (h : s.functionHeader m n d = .ok s') : Emits 0 s s' := by
  simp only [functionHeader, bind_eq_ok] at h
  obtain ⟨f, -, params, -, decs, -, h⟩ := h
  cases h
  apply (emits_escapedRef f).zero_trans
  exact .of_eq rfl rfl

theorem emits_functionHeaders {ds : List (Ast Addr .functionDec)}
    (h : s.functionHeaders m n ds = .ok s') : Emits 0 s s' := by
  induction ds generalizing s with
  | nil =>
    cases h
    exact .refl _
  | cons d ds ih =>
    simp only [functionHeaders, bind_eq_ok] at h
    obtain ⟨s₁, h₁, h⟩ := h
    exact (emits_functionHeader h₁).trans (ih h)

theorem emits_bindLifted {f k : Nat} {vs : List Addr} (h : s.bindLifted f k vs = .ok s') :
    Emits 0 s s' := by
  induction vs generalizing s k with
  | nil =>
    cases h
    exact .refl _
  | cons v vs ih =>
    simp only [bindLifted, bind_eq_ok] at h
    obtain ⟨arg, -, h⟩ := h
    have hl : Emits 0 s { s with
        locals := Function.update s.locals f (Function.update (s.locals f) v (some arg)) } :=
      .of_eq rfl rfl
    exact hl.trans (ih h)

theorem emits_storeFormals {f k : Nat} {vs : List Addr} (h : s.storeFormals f k vs = .ok s') :
    Emits 0 s s' := by
  induction vs generalizing s k with
  | nil =>
    cases h
    exact .refl _
  | cons v vs ih =>
    simp only [storeFormals, bind_eq_ok] at h
    obtain ⟨s₁, h₁, arg, -, h⟩ := h
    exact ((Emits.createAlloca h₁).trans (.create rfl)).trans (ih h)

/-- A function begins with a block of its own. -/
theorem enterFunction_spec {d : Ast Addr .functionDec} (h : s.enterFunction m n d = .ok s') :
    s'.currentFunction ≠ none ∧ s'.Stands ∧ s.builder.next ≤ s'.builder.next ∧
      s'.surplus = s.surplus - 1 ∧
      ∀ l, s.Waits l → s'.Waits (s.builder.cursor.toList ++ l) := by
  simp only [enterFunction, bind_eq_ok] at h
  obtain ⟨f, -, g, -, s₁, h₁, h⟩ := h
  let s₀ := { s with currentFunction := some f }.newBlock.moveTo (some s.builder.next)
  have e : Emits 0 s₀ s' := ((emits_escapedRef g).trans (emits_bindLifted h₁)).trans
    (emits_storeFormals h)
  have hnext : s₀.builder.next = s.builder.next + 1 := next_newBlock
  have hsurplus : s₀.surplus = s.surplus - 1 := surplus_newBlock
  refine ⟨?_, ?_, ?_, ?_, ?_⟩
  · rw [e.currentFunction]
    exact Option.some_ne_none f
  · exact e.stands (stands_moveTo (Nat.lt_of_lt_of_eq (Nat.lt_succ_self _) hnext.symm))
  · have := e.next
    omega
  · rw [e.surplus, hsurplus]
    omega
  · intro l hl
    exact e.waits rfl _ (BlockBuilder.Waits.newBlock hl).moveTo

/-- The end of a function closes the block the builder stands in, and goes back. -/
theorem leaveFunction_spec {s₀ : Translator} {d : Ast Addr .functionDec} {v : Value}
    (h : s.leaveFunction m n s₀ d v = .ok s') :
    s'.currentFunction = s₀.currentFunction ∧ s'.builder.cursor = s₀.builder.cursor ∧
      s'.builder.next = s.builder.next ∧ (s.Stands → s'.surplus = s.surplus + 1) ∧
      ∀ l, s.Waits (s₀.builder.cursor.toList ++ l) → s'.Waits l := by
  simp only [leaveFunction, bind_eq_ok] at h
  obtain ⟨f, -, void, -, h⟩ := h
  cases h
  refine ⟨rfl, rfl, next_create, ?_, ?_⟩
  · intro hst
    exact hst.surplus_create rfl
  · intro l hl
    exact hl.jump rfl

/-- The translation of a function, whose body has `i` terminators too many. -/
theorem Emits.function {d : Ast Addr .functionDec} {v : Value}
    (h₁ : s.enterFunction m n d = .ok s₁) (h : Emits i s₁ s₂)
    (h₂ : s₂.leaveFunction m n s d v = .ok s') : Emits i s s' := by
  obtain ⟨-, hst₁, hn₁, hs₁, hw₁⟩ := enterFunction_spec h₁
  obtain ⟨hf, hc, hn₂, hs₂, hw₂⟩ := leaveFunction_spec h₂
  have hnext := h.next
  refine ⟨hf, by omega, ?_, fun _ => hc, ?_, ?_⟩
  · rintro ⟨c, hcur, hlt⟩
    exact ⟨c, hc.trans hcur, by omega⟩
  · rw [hs₂ (h.stands hst₁), h.surplus, hs₁]
    omega
  · intro hi l hl
    exact hw₂ l (h.waits hi _ (hw₁ l hl))

/-! ## The visits -/

/-- A node of class `k` is visited inside a function, from a block, or may stand outside. -/
structure Ready (s : Translator) (k : Kind) : Prop where
  outside : s.currentFunction = none → k.outside = true
  stands : s.currentFunction ≠ none → s.Stands

theorem Ready.part {k' : Kind} (h : s.Ready k) (hk : k.outside = true → k'.outside = true) :
    s.Ready k' :=
  ⟨fun hf => hk (h.outside hf), h.stands⟩

theorem Ready.next {k' : Kind} (h : s.Ready k) (e : Emits n s s')
    (hk : k.outside = true → k'.outside = true) : s'.Ready k' where
  outside hf := hk (h.outside (e.currentFunction.symm.trans hf))
  stands hf := e.stands (h.stands fun hn => hf (e.currentFunction.trans hn))

theorem Ready.inside (h : s.Ready k) (hk : k.outside = false) : s.currentFunction ≠ none := by
  intro hf
  rw [h.outside hf] at hk
  cases hk

theorem Stands.ready (h : s.Stands) (hf : s.currentFunction ≠ none) : s.Ready k :=
  ⟨fun hn => absurd hn hf, fun _ => h⟩

/-- Three blocks are made.  Two are entered in turn, each from the end of what comes before, and
the builder stays in the third. -/
theorem Emits.fork {op₁ op₂ op₃ : Op} {i₁ i₂ i₃ : Nat} {s₃ : Translator} (hr : s.Ready .exp)
    (hop₁ : op₁.isTerminator = true) (hop₂ : op₂.isTerminator = true)
    (hop₃ : op₃.isTerminator = true)
    (h₁ : s.newBlock.newBlock.newBlock.Ready .exp →
      Emits i₁ s.newBlock.newBlock.newBlock s₁)
    (h₂ : ((s₁.create op₁).moveTo (some s.builder.next)).Ready .exp →
      Emits i₂ ((s₁.create op₁).moveTo (some s.builder.next)) s₂)
    (h₃ : ((s₂.create op₂).moveTo (some (s.builder.next + 1))).Ready .exp →
      Emits i₃ ((s₂.create op₂).moveTo (some (s.builder.next + 1))) s₃) :
    Emits (i₁ + i₂ + i₃) s ((s₃.create op₃).moveTo (some (s.builder.next + 2))) := by
  have hf := hr.inside rfl
  have hst := (hr.stands hf).newBlock.newBlock.newBlock
  have e₁ := h₁ (hst.ready hf)
  have hn₁ := e₁.next
  simp only [next_newBlock] at hn₁
  have hst₁ := e₁.stands hst
  have hf₁ : s₁.currentFunction ≠ none := by
    rw [e₁.currentFunction]
    exact hf
  have hin₁ : ((s₁.create op₁).moveTo (some s.builder.next)).Stands :=
    stands_moveTo (by rw [next_create]; omega)
  have e₂ := h₂ (hin₁.ready hf₁)
  have hn₂ := e₂.next
  simp only [next_moveTo, next_create] at hn₂
  have hst₂ := e₂.stands hin₁
  have hf₂ : s₂.currentFunction ≠ none := by
    rw [e₂.currentFunction]
    exact hf₁
  have hin₂ : ((s₂.create op₂).moveTo (some (s.builder.next + 1))).Stands :=
    stands_moveTo (by rw [next_create]; omega)
  have e₃ := h₃ (hin₂.ready hf₂)
  have hn₃ := e₃.next
  simp only [next_moveTo, next_create] at hn₃
  have hst₃ := e₃.stands hin₂
  refine ⟨?_, ?_, ?_, ?_, ?_, ?_⟩
  · exact e₃.currentFunction.trans (e₂.currentFunction.trans e₁.currentFunction)
  · simp only [next_moveTo, next_create]
    omega
  · intro _
    exact stands_moveTo (by rw [next_create]; omega)
  · intro h
    exact absurd h hf
  · rw [surplus_moveTo, hst₃.surplus_create hop₃, e₃.surplus, surplus_moveTo,
      hst₂.surplus_create hop₂, e₂.surplus, surplus_moveTo, hst₁.surplus_create hop₁, e₁.surplus]
    simp only [surplus_newBlock]
    omega
  · intro hi l hl
    have hw : s.newBlock.newBlock.newBlock.Waits
        (s.builder.next :: (s.builder.next + 1) :: (s.builder.next + 2) :: l) := by
      apply hl.newBlock.newBlock.newBlock.perm
      simp only [next_newBlock]
      grind
    have hw₁ := e₁.waits (by omega) _ hw
    have hw₂ := e₂.waits (by omega) _ (hw₁.jump (o := some _) hop₁)
    have hw₃ := e₃.waits (by omega) _ (hw₂.jump (o := some _) hop₂)
    exact hw₃.jump (o := some _) hop₃

/-- A terminator too many. -/
theorem emits_break (hr : s.Ready .exp) (hop : op.isTerminator = true) :
    Emits 1 s (s.create op) where
  currentFunction := rfl
  next := Nat.le_of_eq next_create.symm
  stands h := by
    obtain ⟨c, hc, hlt⟩ := h
    exact ⟨c, BlockBuilder.cursor_insert.trans hc, by rwa [next_create]⟩
  outside _ := BlockBuilder.cursor_insert
  surplus := (hr.stands (hr.inside rfl)).surplus_create hop
  waits h := nomatch h

theorem inside_of_createAlloca {a : Addr} (h : s.createAlloca a = .ok s') :
    s.currentFunction ≠ none := by
  intro hf
  simp [createAlloca, hf] at h

/-- The parts are visited in turn, and each leaves what it should. -/
theorem Emits.of_visits {ts : List (Σ k, Ast Addr k)} (h : Visits m n ts s s') (hr : s.Ready k)
    (hk : k.outside = true → ∀ p ∈ ts, p.1.outside = true)
    (hts : ∀ p ∈ ts, ∀ {how : How} {s s' : Translator} {v : p.1.Result}, s.Ready p.1 →
      visit m n p.2 how s = .ok (v, s') → Emits p.2.breaks.length s s') :
    Emits (ts.map fun p => p.2.breaks.length).sum s s' := by
  induction h with
  | nil s => exact .refl s
  | cons h _ ih =>
    have e := hts _ (.head _) (hr.part fun hp => hk hp _ (.head _)) h
    rw [List.map_cons, List.sum_cons]
    exact e.trans (ih (hr.next e id) (fun hp q hq => hk hp q (.tail _ hq))
      fun q hq => hts q (.tail _ hq))

/-- **A visit leaves a block that waits for its terminator, and has closed all the others, unless
it came across a `break`: the terminators too many are those of the `break`s.** -/
theorem emits_visit {t : Ast Addr k} {how : How} {v : k.Result} (hr : s.Ready k)
    (h : visit m n t how s = .ok (v, s')) : Emits t.breaks.length s s' := by
  induction k, t using Ast.members_induction generalizing s s' how with
  | node k t ih =>
    by_cases ht : t.staysInBlock = true
    · obtain ⟨s₁, s₂, h₁, hs, h₂⟩ := visit_staysInBlock ht h
      have e₁ := Emits.of_steps h₁
      have e := Emits.of_visits hs (hr.next e₁ id) (Ast.outside_visited ht) fun p hp =>
        ih p (Ast.visited_subset_members hp)
      rw [← Ast.breaks_visited ht]
      exact (e₁.zero_trans e).trans (.of_steps h₂)
    · cases t with
      | ifExp a c t e =>
        have ihc := @ih ⟨_, c⟩ (.head _)
        have iht := @ih ⟨_, t⟩ (.tail _ (.head _))
        have ihe := @ih ⟨_, e⟩ (.tail _ (.tail _ (.head _)))
        simp only [visit, bind_eq_ok, Prod.exists] at h
        obtain ⟨test, s₁, h₁, v₂, s₂, h₂, v₃, s₃, h₃, ty, -, h⟩ := h
        have compare : Emits 0 s₁ (s₁.create (.icmpNe test (.int 0))) := .create rfl
        have branch : (Op.br (s.builder.next + 2)).isTerminator = true := rfl
        have e := Emits.fork hr rfl rfl branch
          (fun hr => (ihc hr h₁).trans compare) (fun hr => iht hr h₂) (fun hr => ihe hr h₃)
        obtain rfl : _ = s' := congrArg Prod.snd (Except.ok.inj h)
        rw [Ast.breaks, List.length_append, List.length_append]
        exact e.trans (.of_steps steps_merge)
      | whileExp a c body =>
        have ihc := @ih ⟨_, c⟩ (.head _)
        have ihb := @ih ⟨_, body⟩ (.tail _ (.head _))
        simp only [visit, bind_eq_ok, Prod.exists] at h
        obtain ⟨test, s₁, h₁, v₂, s₂, h₂, h⟩ := h
        cases h
        -- The test has a block of its own: the first one made.
        have record : Emits 0 s.newBlock.newBlock.newBlock { s.newBlock.newBlock.newBlock with
            loopEnd := Function.update s.loopEnd a (some (s.builder.next + 2)) } := .of_eq rfl rfl
        have compare : Emits 0 s₁ (s₁.create (.icmpNe test (.int 0))) := .create rfl
        have branch : (Op.br s.builder.next).isTerminator = true := rfl
        have e := Emits.fork hr branch rfl branch (fun _ => record)
          (fun hr => (ihc hr h₁).trans compare) (fun hr => ihb hr h₂)
        rw [Ast.breaks, List.length_append]
        rwa [Nat.zero_add] at e
      | breakExp a =>
        simp only [visit, bind_eq_ok] at h
        obtain ⟨b, -, h⟩ := h
        cases h
        exact emits_break hr rfl
      | varDec a x w i =>
        have ihi := @ih ⟨_, i⟩ (.tail _ (.head _))
        simp only [visit, bind_eq_ok, Prod.exists] at h
        obtain ⟨s₁, h₁, v₂, s₂, h₂, h⟩ := h
        have e := Emits.createAlloca h₁
        have hf := inside_of_createAlloca h₁
        have hr₁ : s₁.Ready (.opt .exp) :=
          (e.stands (hr.stands hf)).ready fun hn => hf (e.currentFunction.symm.trans hn)
        have e := e.zero_trans (ihi hr₁ h₂)
        cases v₂ with
        | none => cases h
        | some v₂ =>
          cases h
          exact e.trans (.create rfl)
      | functionDec a x fs r body =>
        have ihb := @ih ⟨_, body⟩ (.tail _ (.tail _ (.head _)))
        simp only [visit] at h
        split at h
        · simp only [bind_eq_ok, Prod.exists] at h
          obtain ⟨s₁, h₁, v₂, s₂, h₂, h⟩ := h
          obtain ⟨hf₁, hst₁, -⟩ := enterFunction_spec h₁
          cases v₂ with
          | none => cases h
          | some v₂ =>
            simp only [bind_eq_ok] at h
            obtain ⟨s₃, h₃, h⟩ := h
            cases h
            exact .function h₁ (ihb (hst₁.ready hf₁) h₂) h₃
        · rename_i hbody
          cases h
          cases body with
          | none => exact .refl _
          | some body => exact absurd rfl hbody
      | functionChunk a ds =>
        have ih := @ih ⟨_, ds⟩ (.head _)
        simp only [visit, bind_eq_ok, Prod.exists] at h
        obtain ⟨s₁, h₁, v₂, s₂, h₂, h⟩ := h
        cases h
        have e := emits_functionHeaders h₁
        exact e.zero_trans (ih ((hr.part fun _ => rfl).next e id) h₂)
      | _ => exact absurd rfl ht

/-! ## The whole program -/

/-- Every block ends with its one terminator. -/
def BlocksWellFormed (s : Translator) : Prop := ∀ x ∈ s.builder.blocks, x.WellFormed Instr.ends

/-- **The blocks of a program that is translated are well formed exactly when it has no
`break`.** -/
theorem blocksWellFormed_iff {escaped : Addr → Option (List Addr)}
    {program : Ast Addr .chunkList} (h : translate m n escaped program = .ok s) :
    s.BlocksWellFormed ↔ program.breaks = [] := by
  simp only [translate, bind_eq_ok, Prod.exists] at h
  obtain ⟨v, s₁, h₁, h⟩ := h
  cases h
  have hr : ({ escaped } : Translator).Ready .chunkList := ⟨fun _ => rfl, fun hf => absurd rfl hf⟩
  have e := emits_visit hr h₁
  constructor
  · intro hw
    have hs : s.surplus = 0 := BlockBuilder.surplus_eq_zero hw
    have hzero : ({ escaped } : Translator).surplus = 0 := rfl
    rw [← List.length_eq_zero_iff]
    have := e.surplus
    omega
  · intro hbreaks
    have hstart : ({ escaped } : Translator).Waits [] :=
      ⟨List.nodup_nil, fun _ hb => absurd hb List.not_mem_nil, fun n x hx => by simp at hx,
        fun n x hx => by simp at hx⟩
    have hw := e.waits (by rw [hbreaks]; rfl) [] hstart
    unfold Waits at hw
    rw [e.outside rfl] at hw
    exact hw.all_wellFormed

/-- What a program is translated from: it is bound and typed, and no `for` is left in it. -/
structure Prepared (program : Ast Addr .chunkList) (m : Annotated) (n : Nat) : Prop where
  bound : ∃ b, bind program = .ok b ∧ m.defs = b.defs
  typed : ∃ c, typesCheck ⟨m.defs, program.varDecs, program.typeDecs⟩ n program = .ok c ∧
    c.errors = [] ∧ m.types = c.types ∧ m.heap = c.heap
  functionDecs : m.functionDecs = program.functionDecs
  noFor : ∀ a d hi body, ⟨.exp, .forExp a d hi body⟩ ∉ program.subterms

/-- What the passes before the translation make of a program. -/
def annotate (n : Nat) (program : Ast Addr .chunkList) : Except Stop (Annotated × TypeChecker) := do
  let b ← bind program
  let c ← typesCheck ⟨b.defs, program.varDecs, program.typeDecs⟩ n program
  return (⟨b.defs, c.types, c.heap, program.functionDecs⟩, c)

theorem prepared_of_annotate {program : Ast Addr .chunkList} {c : TypeChecker}
    (h : annotate n program = .ok (m, c)) (hc : c.errors = [])
    (hfor : ∀ a d hi body, ⟨.exp, .forExp a d hi body⟩ ∉ program.subterms) :
    Prepared program m n := by
  simp only [annotate, bind_eq_ok] at h
  obtain ⟨b, hb, c', hc', h⟩ := h
  cases h
  exact ⟨⟨b, hb, rfl⟩, ⟨c, hc', hc, rfl, rfl⟩, rfl, hfor⟩

/-- `while 1 do ()` as a program. -/
def emptyWhile : Ast Addr .chunkList :=
  .chunkList 0 (.ofList [.functionChunk 1 (.ofList [.functionDec 2 "_main".toList
    (.varChunk 3 .nil) .none (.some (.seqExp 4 (.ofList [
      .whileExp 5 (.intExp 6 1) (.seqExp 7 .nil), .seqExp 8 .nil])))])])

theorem emptyWhile_blocksWellFormed : ∃ m s,
    (annotate 20 emptyWhile >>= fun p => translate p.1 20 (fun _ => some []) emptyWhile) = .ok s ∧
      (annotate 20 emptyWhile).toOption.map (·.1) = some m ∧ s.BlocksWellFormed := by
  obtain ⟨s, hs⟩ := exists_eq_ok (x := annotate 20 emptyWhile >>= fun p =>
    translate p.1 20 (fun _ => some []) emptyWhile) (by decide)
  have hs' := hs
  rw [bind_eq_ok] at hs'
  obtain ⟨p, hp, h⟩ := hs'
  exact ⟨p.1, s, hs, by rw [hp]; rfl, (blocksWellFormed_iff h).mpr rfl⟩

/-- `while 1 do break` as a program. -/
def breakInWhile : Ast Addr .chunkList :=
  .chunkList 0 (.ofList [.functionChunk 1 (.ofList [.functionDec 2 "_main".toList
    (.varChunk 3 .nil) .none (.some (.seqExp 4 (.ofList [
      .whileExp 5 (.intExp 6 1) (.breakExp 7), .seqExp 8 .nil])))])])

/-- The block of a `break` has a second terminator. -/
theorem not_blocksWellFormed :
    ¬ ∀ (program : Ast Addr .chunkList) (m : Annotated) (n : Nat)
      (escaped : Addr → Option (List Addr)) (s : Translator), program.nodes.Nodup →
      Prepared program m n → translate m n escaped program = .ok s → s.BlocksWellFormed := by
  intro hall
  obtain ⟨⟨s, c⟩, hs⟩ := exists_eq_ok (x := do
    let (m, c) ← annotate 20 breakInWhile
    return (← translate m 20 (fun _ => some []) breakInWhile, c)) (by decide)
  have hlook : ((do
    let (m, c) ← annotate 20 breakInWhile
    return (← translate m 20 (fun _ => some []) breakInWhile, c)) :
      Except Stop (Translator × TypeChecker)).toOption.map (fun p =>
        (p.1.builder.blocks.map fun x => x.instrs.countP Llvm.Instr.ends, p.2.errors)) =
      some ([1, 1, 2, 1], []) := by decide
  rw [hs] at hlook
  simp only [Except.toOption, Option.map_some, Option.some.injEq, Prod.mk.injEq] at hlook
  simp only [bind_eq_ok, Prod.exists] at hs
  obtain ⟨m, c', hm, s', ht, hs⟩ := hs
  cases hs
  have hp : Prepared breakInWhile m 20 := prepared_of_annotate hm hlook.2 (by
    intro a d hi body h
    simp [breakInWhile, Ast.ofList, Ast.subterms] at h)
  have hw := hall breakInWhile m 20 _ s (by decide) hp ht
  have hone : (s.builder.blocks.map fun x => x.instrs.countP Llvm.Instr.ends) =
      s.builder.blocks.map fun _ => 1 :=
    List.map_congr_left fun x hx => (hw x hx).countP_eq_one
  rw [hlook.1] at hone
  have hmem : 2 ∈ s.builder.blocks.map fun _ => 1 := by
    rw [← hone]
    decide
  simp at hmem

end Translator

end TigerCompiler
