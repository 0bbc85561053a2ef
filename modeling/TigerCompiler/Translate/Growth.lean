import TigerCompiler.Misc.BlockCode
import TigerCompiler.Translate.Terminators
import TigerCompiler.Translate.Machine
import TigerCompiler.Semantics.Eval

/-!
# What a translation adds

The `Translator` only ever adds to what it has made: functions, blocks, code at the end of blocks,
and the storage of variables at the beginning of functions.  What a visit adds is followed here,
with where it puts it, so that what a part of a program is translated to is found again in the
module the whole program comes to.
-/

namespace TigerCompiler

open Llvm (Value Op Instr Param)
open Semantics (ownVars)

/-- Whether an instruction is the storage of a variable, which goes to the beginning of the
function. -/
def Llvm.Instr.isAlloca (i : Instr) : Bool :=
  match i.op with
  | .alloca _ => true
  | _ => false

theorem Llvm.Instr.isAlloca_of_isPlain {i : Nat} {op : Op} (h : op.isPlain = true) :
    (Instr.mk i op).isAlloca = false := by
  cases op <;> first | rfl | cases h

namespace Translator

variable {m : Annotated} {n c i j f g : Nat} {k : Kind} {s s' s₁ s₂ : Translator} {op : Op}
  {o : Option Nat} {x a : Addr} {d : Ast Addr .functionDec} {ds ds' : List (Ast Addr .functionDec)}
  {xs xs' : List Addr}

/-- The code of a block. -/
abbrev code (s : Translator) (c : Nat) : List Instr := s.builder.code Instr.isAlloca c

@[simp] theorem code_moveTo : (s.moveTo o).code c = s.code c := rfl

@[simp] theorem code_newBlock : s.newBlock.code c = s.code c := BlockBuilder.code_newBlock

/-- What every module that is built satisfies. -/
structure Sound (s : Translator) : Prop where
  fronted : s.builder.Fronted Instr.isAlloca
  numbered : s.builder.Numbered Instr.id s.count
  named : ∀ y f, s.symbols y = some f → (s.functions[f]?.map Llvm.Function.name) = some y

/-- A module that another has grown to. -/
structure Grows (s s' : Translator) : Prop where
  builder : s.builder.Grows Instr.isAlloca s'.builder
  count : s.count ≤ s'.count
  functions : s.functions <+: s'.functions
  symbols : ∀ y f, s.symbols y = some f → s'.symbols y = some f
  escaped : ∀ f vs, s.escaped f = some vs → s'.escaped f = some vs
  sound : s.Sound → s'.Sound

/-- The storage of `x` in the function `f` is the instruction `i`. -/
def Owns (s : Translator) (f i : Nat) (x : Addr) : Prop :=
  ∃ c, s.builder.entry (some f) = some c ∧ ⟨i, .alloca x⟩ ∈ s.builder.instrsAt c

/-- The storage of a variable: where it goes, and what it is known as. -/
theorem createAlloca_eq_ok : s.createAlloca a = .ok s' ↔
    ∃ f c, s.currentFunction = some f ∧ s.builder.entry (some f) = some c ∧ s' = { s with
      count := s.count + 1
      builder := s.builder.insertFront c ⟨s.count, .alloca a⟩
      locals :=
        Function.update s.locals f (Function.update (s.locals f) a (some (.result s.count))) } := by
  unfold Translator.createAlloca
  constructor
  · intro h
    split at h
    · cases h
    · rename_i f hf
      split at h
      · cases h
      · rename_i c hc
        cases h
        exact ⟨f, c, hf, hc, rfl⟩
  · rintro ⟨f, c, hf, hc, rfl⟩
    simp only [hf, hc]

namespace Grows

theorem refl (s : Translator) : Grows s s :=
  ⟨.refl _, Nat.le_refl _, List.prefix_refl _, fun _ _ h => h, fun _ _ h => h, id⟩

theorem trans (h₁ : Grows s s₁) (h₂ : Grows s₁ s') : Grows s s' where
  builder := h₁.builder.trans h₂.builder
  count := Nat.le_trans h₁.count h₂.count
  functions := h₁.functions.trans h₂.functions
  symbols y f h := h₂.symbols y f (h₁.symbols y f h)
  escaped f vs h := h₂.escaped f vs (h₁.escaped f vs h)
  sound h := h₂.sound (h₁.sound h)

theorem owns (h : Grows s s') (hi : s.Owns f i x) : s'.Owns f i x := by
  obtain ⟨c, hc, hi⟩ := hi
  exact ⟨c, h.builder.entry hc, h.builder.subset c hi⟩

theorem moveTo : Grows s (s.moveTo o) :=
  ⟨.moveTo (.refl _), Nat.le_refl _, List.prefix_refl _, fun _ _ h => h, fun _ _ h => h,
    fun h => ⟨h.fronted, h.numbered.moveTo, h.named⟩⟩

theorem newBlock : Grows s s.newBlock :=
  ⟨.newBlock, Nat.le_refl _, List.prefix_refl _, fun _ _ h => h, fun _ _ h => h,
    fun h => ⟨h.fronted.newBlock, h.numbered.newBlock, h.named⟩⟩

theorem create (hop : (Instr.mk s.count op).isAlloca = false) : Grows s (s.create op) :=
  ⟨.insert hop, Nat.le_succ _, List.prefix_refl _, fun _ _ h => h, fun _ _ h => h,
    fun h => ⟨h.fronted.insert hop, h.numbered.insert rfl, h.named⟩⟩

/-- A change of what the module does not depend on. -/
theorem of_eq (hb : s'.builder = s.builder) (hc : s'.count = s.count)
    (hf : s'.functions = s.functions) (hs : s'.symbols = s.symbols) (he : s'.escaped = s.escaped) :
    Grows s s' where
  builder := hb ▸ .refl _
  count := Nat.le_of_eq hc.symm
  functions := hf ▸ List.prefix_refl _
  symbols y f h := by rwa [hs]
  escaped f vs h := by rwa [he]
  sound h := by
    refine ⟨?_, ?_, ?_⟩
    · rw [hb]
      exact h.fronted
    · rw [hb, hc]
      exact h.numbered
    · rw [hf, hs]
      exact h.named

theorem createFunction (f : Llvm.Function) : Grows s (s.createFunction f) where
  builder := .refl _
  count := Nat.le_refl _
  functions := List.prefix_append _ _
  symbols y g h := by
    unfold Translator.createFunction
    split
    · exact h
    · rename_i hnew
      dsimp only
      rw [Function.update_of_ne, h]
      rintro rfl
      exact hnew (by rw [h]; rfl)
  escaped _ _ h := h
  sound h := by
    refine ⟨h.fronted, h.numbered, ?_⟩
    have hold (y : Symbol) (g : Nat) (hg : s.symbols y = some g) :
        ((s.functions ++ [f])[g]?.map Llvm.Function.name) = some y := by
      have hname := h.named y g hg
      have hlt : g < s.functions.length := by
        by_contra hlt
        rw [List.getElem?_eq_none (Nat.le_of_not_lt hlt)] at hname
        cases hname
      rwa [List.getElem?_append_left hlt]
    intro y g hg
    unfold Translator.createFunction at hg ⊢
    dsimp only at hg ⊢
    split at hg
    · exact hold y g hg
    · by_cases hy : y = f.name
      · subst hy
        rw [Function.update_self] at hg
        cases hg
        rw [List.getElem?_concat_length]
        rfl
      · rw [Function.update_of_ne hy] at hg
        exact hold y g hg

theorem escapedRef (f : Addr) : Grows s (s.escapedRef f).2 := by
  unfold Translator.escapedRef
  split
  · rename_i hnone
    refine ⟨.refl _, Nat.le_refl _, List.prefix_refl _, fun _ _ h => h, ?_,
      fun h => ⟨h.fronted, h.numbered, h.named⟩⟩
    intro g vs h
    have hne : g ≠ f := by
      rintro rfl
      rw [hnone] at h
      cases h
    dsimp only
    rwa [Function.update_of_ne hne]
  · exact .refl s

theorem getOrInsertFunction (name : Symbol) (params : List Param) :
    Grows s (s.getOrInsertFunction name params) := by
  unfold Translator.getOrInsertFunction
  split
  · exact .refl s
  · exact .createFunction _

theorem createAlloca (h : s.createAlloca a = .ok s') : Grows s s' := by
  obtain ⟨f, c, -, hc, rfl⟩ := createAlloca_eq_ok.mp h
  exact ⟨.insertFront rfl, Nat.le_succ _, List.prefix_refl _, fun _ _ h => h, fun _ _ h => h,
    fun h => ⟨h.fronted.insertFront rfl hc, h.numbered.insertFront rfl, h.named⟩⟩

end Grows

/-! ## What is added to the current function -/

/-- The function is one of those that `ds` are translated to. -/
def IsNested (ds : List (Ast Addr .functionDec)) (s : Translator) (f : Nat) : Prop :=
  ∃ d ∈ ds, d.hasBody = true ∧ s.symbols (functionDecName d) = some f

theorem IsNested.grows (hn : IsNested ds s f) (h : Grows s s') : IsNested ds s' f := by
  obtain ⟨d, hd, hbody, hf⟩ := hn
  exact ⟨d, hd, hbody, h.symbols _ _ hf⟩

theorem IsNested.mono (hn : IsNested ds s f) (h : ds ⊆ ds') : IsNested ds' s f := by
  obtain ⟨d, hd, hf⟩ := hn
  exact ⟨d, h hd, hf⟩

/-- What a part of the program adds to a module: to the current function, where it declares the
variables `xs`, or to those that `ds` are translated to. -/
structure Extends (ds : List (Ast Addr .functionDec)) (xs : List Addr) (s s' : Translator) :
    Prop where
  grows : Grows s s'
  builder : s.builder.Extends Instr.isAlloca s'.builder
  currentFunction : s'.currentFunction = s.currentFunction
  parents : ∀ c p, s'.builder.parentAt c = some p → s.builder.parentAt c = some p ∨
    p = s.currentFunction ∨ ∃ f, p = some f ∧ IsNested ds s' f
  locals : ∀ f x v, s'.locals f x = some v → s.locals f x = some v ∨
    (s.currentFunction = some f ∧ ∃ i, v = .result i ∧ s'.Owns f i x) ∨ IsNested ds s' f
  allocas : ∀ c i x, ⟨i, .alloca x⟩ ∈ s'.builder.instrsAt c →
    ⟨i, .alloca x⟩ ∈ s.builder.instrsAt c ∨
    (s'.builder.parentAt c = some s.currentFunction ∧ x ∈ xs) ∨
    ∃ d ∈ ds, ∃ f, s'.symbols (functionDecName d) = some f ∧
      s'.builder.parentAt c = some (some f) ∧ x ∈ ownVars d

namespace Extends

theorem refl (s : Translator) : Extends ds xs s s where
  grows := .refl s
  builder := .refl _
  currentFunction := rfl
  parents _ _ h := .inl h
  locals _ _ _ h := .inl h
  allocas _ _ _ h := .inl h

theorem mono (h : Extends ds xs s s') (hd : ds ⊆ ds') (hx : xs ⊆ xs') : Extends ds' xs' s s' where
  grows := h.grows
  builder := h.builder
  currentFunction := h.currentFunction
  parents c p hp := by
    refine (h.parents c p hp).imp_right (Or.imp_right ?_)
    rintro ⟨f, hf, hn⟩
    exact ⟨f, hf, hn.mono hd⟩
  locals f x v hv := (h.locals f x v hv).imp_right (Or.imp_right (·.mono hd))
  allocas c i x hi := by
    rcases h.allocas c i x hi with hi | ⟨hc, hmem⟩ | ⟨d, hmem, hd'⟩
    · exact .inl hi
    · exact .inr (.inl ⟨hc, hx hmem⟩)
    · exact .inr (.inr ⟨d, hd hmem, hd'⟩)

theorem trans (h₁ : Extends ds xs s s₁) (h₂ : Extends ds xs s₁ s') : Extends ds xs s s' where
  grows := h₁.grows.trans h₂.grows
  builder := h₁.builder.trans h₂.builder
  currentFunction := h₂.currentFunction.trans h₁.currentFunction
  parents c p hp := by
    rcases h₂.parents c p hp with hp | hp | hp
    · refine (h₁.parents c p hp).imp_right (Or.imp_right ?_)
      rintro ⟨f, hf, hn⟩
      exact ⟨f, hf, hn.grows h₂.grows⟩
    · exact .inr (.inl (hp.trans h₁.currentFunction))
    · exact .inr (.inr hp)
  locals f x v hv := by
    rcases h₂.locals f x v hv with hv | ⟨hf, hv⟩ | hn
    · rcases h₁.locals f x v hv with hv | ⟨hf, i, hv, hi⟩ | hn
      · exact .inl hv
      · exact .inr (.inl ⟨hf, i, hv, h₂.grows.owns hi⟩)
      · exact .inr (.inr (hn.grows h₂.grows))
    · exact .inr (.inl ⟨h₁.currentFunction.symm.trans hf, hv⟩)
    · exact .inr (.inr hn)
  allocas c i x hi := by
    rcases h₂.allocas c i x hi with hi | ⟨hc, hx⟩ | hd
    · rcases h₁.allocas c i x hi with hi | ⟨hc, hx⟩ | ⟨d, hd, f, hf, hc, hx⟩
      · exact .inl hi
      · exact .inr (.inl ⟨h₂.grows.builder.parentAt_eq_some hc, hx⟩)
      · exact .inr (.inr ⟨d, hd, f, h₂.grows.symbols _ _ hf,
          h₂.grows.builder.parentAt_eq_some hc, hx⟩)
    · exact .inr (.inl ⟨h₁.currentFunction ▸ hc, hx⟩)
    · exact .inr (.inr hd)

/-- A change of the tables only. -/
theorem of_grows (h : Grows s s') (hb : s'.builder = s.builder)
    (hf : s'.currentFunction = s.currentFunction) (hl : s'.locals = s.locals) :
    Extends ds xs s s' where
  grows := h
  builder := hb ▸ .refl _
  currentFunction := hf
  parents c p hp := .inl (by rwa [hb] at hp)
  locals f x v hv := .inl (by rwa [hl] at hv)
  allocas c i x hi := .inl (by rwa [hb] at hi)

theorem create (hop : (Instr.mk s.count op).isAlloca = false) :
    Extends ds xs s (s.create op) where
  grows := .create hop
  builder := .insert hop
  currentFunction := rfl
  parents c p hp := .inl (by rwa [Translator.create, BlockBuilder.parentAt_insert] at hp)
  locals _ _ _ h := .inl h
  allocas c i x hi := by
    rcases BlockBuilder.mem_instrsAt_insert hi with hi | hi
    · exact .inl hi
    · rw [← hi] at hop
      cases hop

theorem newBlock : Extends ds xs s s.newBlock where
  grows := .newBlock
  builder := .newBlock
  currentFunction := rfl
  parents c p hp := by
    by_cases hc : c < s.builder.next
    · exact .inl (by rwa [Translator.newBlock, BlockBuilder.parentAt_newBlock_of_lt hc] at hp)
    · have hlt := BlockBuilder.lt_next_of_parentAt hp
      rw [next_newBlock] at hlt
      obtain rfl : c = s.builder.next := by omega
      rw [Translator.newBlock, BlockBuilder.parentAt_newBlock] at hp
      cases hp
      exact .inr (.inl rfl)
  locals _ _ _ h := .inl h
  allocas c i x hi := .inl (by rwa [Translator.newBlock, BlockBuilder.instrsAt_newBlock] at hi)

/-- The builder goes to a block that was made in between. -/
theorem moveTo (h : Extends ds xs s s') (hc : s.builder.next ≤ c) :
    Extends ds xs s (s'.moveTo (some c)) :=
  ⟨h.grows.trans .moveTo, h.builder.moveTo hc, h.currentFunction, h.parents, h.locals, h.allocas⟩

theorem createAlloca (h : s.createAlloca a = .ok s') (ha : a ∈ xs) : Extends ds xs s s' := by
  have hg := Grows.createAlloca h
  obtain ⟨f, c, hf, hc, rfl⟩ := createAlloca_eq_ok.mp h
  have hc' := BlockBuilder.entry_eq_some.mp hc
  have hlt := BlockBuilder.lt_next_of_parentAt hc'.1
  refine ⟨hg, .insertFront rfl, rfl, ?_, ?_, ?_⟩
  · intro d p hp
    exact .inl (by rwa [BlockBuilder.parentAt_insertFront] at hp)
  · intro g x v hv
    dsimp only at hv
    by_cases hgf : g = f
    · subst hgf
      rw [Function.update_self] at hv
      by_cases hxa : x = a
      · subst hxa
        rw [Function.update_self] at hv
        cases hv
        refine .inr (.inl ⟨hf, _, rfl, c, hg.builder.entry hc, ?_⟩)
        rw [BlockBuilder.instrsAt_insertFront hlt]
        exact List.mem_cons_self
      · rw [Function.update_of_ne hxa] at hv
        exact .inl hv
    · rw [Function.update_of_ne hgf] at hv
      exact .inl hv
  · intro d i x hi
    rcases BlockBuilder.mem_instrsAt_insertFront hi with hold | ⟨hnew, rfl⟩
    · exact .inl hold
    · cases hnew
      refine .inr (.inl ⟨?_, ha⟩)
      rw [BlockBuilder.parentAt_insertFront, hc'.1, hf]

end Extends

end Translator

end TigerCompiler
