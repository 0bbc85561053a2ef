import TigerCompiler.Bind.Lexical
import TigerCompiler.Translate.Growth

/-!
# What functions are translated to

Where the functions of a program are linked under distinct names, the blocks with the number of a
function are those made of its own body, and the one it begins with is the first of them: no other
function has put anything there.
-/

namespace TigerCompiler

open Llvm (Value Op Instr Param)
open Semantics (ownVars)

variable {m : Annotated} {n c i f g : Nat} {k : Kind} {x a : Addr} {d : Ast Addr .functionDec}
  {ds ds' : List (Ast Addr .functionDec)} {xs : List Addr}

/-- The classes of nodes that hold functions only. -/
def Kind.isFunction : Kind → Bool
  | .functionDec => true
  | .list k => k.isFunction
  | _ => false

namespace Ast

/-- There are no functions in types. -/
theorem functionDecs_of_isType {t : Ast Addr k} (h : k.isType = true) : t.functionDecs = [] := by
  induction t with
  | nil | none | nameTy => rfl
  | cons x xs ihx ihxs =>
    show List.filterMap _ (_ ++ _) = []
    rw [List.filterMap_append]
    exact List.append_eq_nil_iff.mpr ⟨ihx h, ihxs h⟩
  | some _ ih | ofNameTy _ ih | recordTy _ _ ih | arrayTy _ _ ih | field _ _ _ ih
  | typeDec _ _ _ ih => exact ih h
  | simpleVar | fieldVar | subscriptVar | ofVar | nilExp | intExp | stringExp | callExp | opExp
  | recordExp | seqExp | assignExp | ifExp | whileExp | forExp | breakExp | letExp | arrayExp
  | castExp | fieldInit | varDec | functionDec | varChunk | ofVarChunk | functionChunk | typeChunk
  | chunkList => cases h

theorem functionDecs_eq (hk : k ≠ .functionDec) (t : Ast Addr k) :
    t.functionDecs = t.members.flatMap fun p => p.2.functionDecs := by
  unfold functionDecs
  rw [subterms_eq, List.filterMap_cons, List.filterMap_flatMap]
  cases t <;> first | rfl | exact absurd rfl hk

theorem functionDecs_visited {t : Ast Addr k} (ht : t.staysInBlock = true) :
    (t.visited.flatMap fun p => p.2.functionDecs).Perm t.functionDecs := by
  have hk : k ≠ .functionDec := by
    rintro rfl
    cases t
    cases ht
  rw [functionDecs_eq hk]
  cases t with
  | ifExp | whileExp | breakExp | varDec | functionDec | functionChunk => cases ht
  | ofNameTy t | recordTy _ t | arrayTy _ t | field _ _ t | typeDec _ _ t | typeChunk _ t =>
    simp [visited, members, functionDecs_of_isType (t := t) rfl]
  | recordExp a w fs =>
    simp [visited, members, functionDecs_of_isType (t := w) rfl]
  | arrayExp a w size init =>
    simp [visited, members, functionDecs_of_isType (t := w) rfl]
  | castExp a x ty =>
    simp [visited, members, functionDecs_of_isType (t := ty) rfl]
  | assignExp a w x =>
    simpa [visited, members] using List.perm_append_comm
  | _ => exact .refl _

end Ast

namespace Translator

variable {s s' s₀ s₁ s₂ F : Translator} {v : Value} {op : Op}

/-! ## Entering a function -/

/-- What is there after a function of number `g` is entered and its formals `xs` are stored. -/
structure Enters (xs : List Addr) (g : Nat) (s s' : Translator) : Prop where
  grows : Grows s s'
  builder : ((s.builder.newBlock (some g)).moveTo (some s.builder.next)).Extends Instr.isAlloca
    s'.builder
  currentFunction : s'.currentFunction = some g
  parents : ∀ c p, s'.builder.parentAt c = some p → s.builder.parentAt c = some p ∨ p = some g
  locals : ∀ f x v, s'.locals f x = some v → s.locals f x = some v ∨ f = g
  allocas : ∀ c i x, ⟨i, .alloca x⟩ ∈ s'.builder.instrsAt c →
    ⟨i, .alloca x⟩ ∈ s.builder.instrsAt c ∨ (s'.builder.parentAt c = some (some g) ∧ x ∈ xs)

namespace Enters

theorem start : Enters xs g s
    ({ s with currentFunction := some g }.newBlock.moveTo (some s.builder.next)) := by
  have hg : Grows s { s with currentFunction := some g } := .of_eq rfl rfl rfl rfl rfl
  have he : Extends [] xs { s with currentFunction := some g }
      ({ s with currentFunction := some g }.newBlock.moveTo (some s.builder.next)) :=
    Extends.newBlock.moveTo (Nat.le_refl _)
  refine ⟨hg.trans he.grows, .refl _, rfl, ?_, ?_, ?_⟩
  · intro c p hp
    rcases he.parents c p hp with hp | hp | ⟨f, -, d, hd, -⟩
    · exact .inl hp
    · exact .inr hp
    · cases hd
  · intro f x v hv
    exact .inl hv
  · intro c i x hi
    rcases he.allocas c i x hi with hi | hi | ⟨d, hd, -⟩
    · exact .inl hi
    · exact .inr hi
    · cases hd

theorem next (h : Enters xs g s s₁) (he : Extends [] xs s₁ s') : Enters xs g s s' where
  grows := h.grows.trans he.grows
  builder := h.builder.trans he.builder
  currentFunction := he.currentFunction.trans h.currentFunction
  parents c p hp := by
    rcases he.parents c p hp with hp | hp | ⟨f, -, d, hd, -⟩
    · exact h.parents c p hp
    · exact .inr (hp.trans h.currentFunction)
    · cases hd
  locals f x v hv := by
    rcases he.locals f x v hv with hv | ⟨hf, -⟩ | ⟨d, hd, -⟩
    · exact h.locals f x v hv
    · exact .inr (Option.some.inj (hf.symm.trans h.currentFunction))
    · cases hd
  allocas c i x hi := by
    rcases he.allocas c i x hi with hi | ⟨hc, hx⟩ | ⟨d, hd, -⟩
    · apply (h.allocas c i x hi).imp_right
      rintro ⟨hc, hx⟩
      exact ⟨he.grows.builder.parentAt_eq_some hc, hx⟩
    · exact .inr ⟨h.currentFunction ▸ hc, hx⟩
    · cases hd

theorem bindLifted {k : Nat} {vs : List Addr} (h : Enters xs g s s₁)
    (hb : s₁.bindLifted g k vs = .ok s') : Enters xs g s s' := by
  induction vs generalizing s₁ k with
  | nil =>
    cases hb
    exact h
  | cons v vs ih =>
    simp only [Translator.bindLifted, bind_eq_ok] at hb
    obtain ⟨arg, -, hb⟩ := hb
    refine ih ?_ hb
    refine ⟨h.grows.trans (.of_eq rfl rfl rfl rfl rfl), h.builder, h.currentFunction, h.parents, ?_,
      h.allocas⟩
    intro f x w hw
    dsimp only at hw
    by_cases hf : f = g
    · exact .inr hf
    · rw [Function.update_of_ne hf] at hw
      exact h.locals f x w hw

end Enters

theorem extends_escapedRef (f : Addr) : Extends ds xs s (s.escapedRef f).2 := by
  have hg := Grows.escapedRef (s := s) f
  unfold escapedRef at hg ⊢
  split
  · rename_i hnone
    rw [hnone] at hg
    exact .of_grows hg rfl rfl rfl
  · exact .refl s

theorem extends_storeFormals {k : Nat} {vs : List Addr} (hx : vs ⊆ xs)
    (h : s.storeFormals f k vs = .ok s') : Extends ds xs s s' := by
  induction vs generalizing s k with
  | nil =>
    cases h
    exact .refl _
  | cons v vs ih =>
    simp only [storeFormals, bind_eq_ok] at h
    obtain ⟨s₁, h₁, arg, -, h⟩ := h
    have e : Extends ds xs s s₁ := .createAlloca h₁ (hx List.mem_cons_self)
    exact (e.trans (.create rfl)).trans (ih (List.subset_of_cons_subset hx) h)

/-- What `enterFunction` does. -/
theorem enters_enterFunction (h : s.enterFunction m n d = .ok s') :
    ∃ g, s.symbols (functionDecName d) = some g ∧ Enters (formals d) g s s' := by
  simp only [enterFunction, bind_eq_ok] at h
  obtain ⟨g, hg, f, -, s₁, h₁, h⟩ := h
  refine ⟨g, ?_, ?_⟩
  · unfold getFunction at hg
    split at hg
    · cases hg
    · rename_i hs
      cases hg
      exact hs
  · have start : Enters (formals d) g s _ := .start
    have e := start.next (extends_escapedRef f)
    exact (e.bindLifted h₁).next (extends_storeFormals (List.Subset.refl _) h)

/-! ## Names that are still free -/

/-- Something has been put into the function of number `g`. -/
def Used (s : Translator) (g : Nat) : Prop :=
  s.currentFunction = some g ∨ (∃ c, s.builder.parentAt c = some (some g)) ∨
    ∃ x v, s.locals g x = some v

/-- Nothing has been put into the functions of some names. -/
def Fresh (s : Translator) (names : List Symbol) : Prop :=
  ∀ g, s.Used g → ∃ e, s.functions[g]? = some e ∧ e.name ∉ names

/-- The names that some functions are linked under. -/
abbrev linkNames (ds : List (Ast Addr .functionDec)) : List Symbol := ds.map functionDecName

theorem functions_of_prefix {e : Llvm.Function} (h : Grows s s') (he : s.functions[g]? = some e) :
    s'.functions[g]? = some e := by
  obtain ⟨l, hl⟩ := h.functions
  rw [← hl, List.getElem?_append_left (List.getElem?_eq_some_iff.mp he).1, he]

theorem Sound.function_of_symbol {y : Symbol} (h : s.Sound) (hg : s.symbols y = some g) :
    ∃ e, s.functions[g]? = some e ∧ e.name = y := Option.map_eq_some_iff.mp (h.named y g hg)

/-- A name is that of one function. -/
theorem Fresh.not_used {names : List Symbol} {y : Symbol} (hf : s.Fresh names) (hs : s.Sound)
    (hy : y ∈ names) (hg : s.symbols y = some g) : ¬ s.Used g := by
  intro hu
  obtain ⟨e, he, hname⟩ := hf g hu
  obtain ⟨e', he', rfl⟩ := hs.function_of_symbol hg
  rw [he] at he'
  cases he'
  exact hname hy

theorem Fresh.mono {names names' : List Symbol} (hf : s.Fresh names) (h : names' ⊆ names) :
    s.Fresh names' := by
  intro g hg
  obtain ⟨e, he, hname⟩ := hf g hg
  exact ⟨e, he, fun hmem => hname (h hmem)⟩

/-- What a part of the program adds is put into no other functions. -/
theorem Fresh.extends {names : List Symbol} (hf : s.Fresh names) (hs : s.Sound)
    (h : Extends ds xs s s') (hd : ∀ d ∈ ds, functionDecName d ∉ names) : s'.Fresh names := by
  have hold (g : Nat) (hg : s.Used g) : ∃ e, s'.functions[g]? = some e ∧ e.name ∉ names := by
    obtain ⟨e, he, hname⟩ := hf g hg
    exact ⟨e, functions_of_prefix h.grows he, hname⟩
  have hnew (g : Nat) (hg : IsNested ds s' g) :
      ∃ e, s'.functions[g]? = some e ∧ e.name ∉ names := by
    obtain ⟨d, hmem, -, hg⟩ := hg
    obtain ⟨e, he, hname⟩ := (h.grows.sound hs).function_of_symbol hg
    exact ⟨e, he, hname ▸ hd d hmem⟩
  rintro g (hg | ⟨c, hc⟩ | ⟨x, v, hv⟩)
  · exact hold g (.inl (h.currentFunction ▸ hg))
  · rcases h.parents c _ hc with hc | hc | ⟨g', hg', hn⟩
    · exact hold g (.inr (.inl ⟨c, hc⟩))
    · exact hold g (.inl hc.symm)
    · cases hg'
      exact hnew g hn
  · rcases h.locals g x v hv with hv | ⟨hg, -⟩ | hn
    · exact hold g (.inr (.inr ⟨x, v, hv⟩))
    · exact hold g (.inl hg)
    · exact hnew g hn

/-- After a function is entered, its own name is taken. -/
theorem Fresh.enters {names : List Symbol} {y : Symbol} (hf : s.Fresh names) (hs : s.Sound)
    (h : Enters xs g s s') (hg : s.symbols y = some g) (hy : y ∉ names) : s'.Fresh names := by
  have hold (f : Nat) (hf' : s.Used f) : ∃ e, s'.functions[f]? = some e ∧ e.name ∉ names := by
    obtain ⟨e, he, hname⟩ := hf f hf'
    exact ⟨e, functions_of_prefix h.grows he, hname⟩
  have hnew : ∃ e, s'.functions[g]? = some e ∧ e.name ∉ names := by
    obtain ⟨e, he, rfl⟩ := hs.function_of_symbol hg
    exact ⟨e, functions_of_prefix h.grows he, hy⟩
  rintro f (hf' | ⟨c, hc⟩ | ⟨x, v, hv⟩)
  · rw [h.currentFunction] at hf'
    cases hf'
    exact hnew
  · rcases h.parents c _ hc with hc | hc
    · exact hold f (.inr (.inl ⟨c, hc⟩))
    · cases hc
      exact hnew
  · rcases h.locals f x v hv with hv | rfl
    · exact hold f (.inr (.inr ⟨x, v, hv⟩))
    · exact hnew

/-! ## Functions that are found again -/

/-- Nothing is declared in the formals of a function. -/
def Bare : Ast Addr .functionDec → Prop
  | .functionDec _ _ fs _ _ => fs.functionDecs = []

/-- The module `F` has what a function with a body is translated to, as the `Translator` made it:
from a point where nothing had been put into the function. -/
inductive Compiled (m : Annotated) (n : Nat) (F : Translator) : Ast Addr .functionDec → Prop
  | intro {a : Addr} {name : Symbol} {fs : Ast Addr .varChunk} {r : Ast Addr (.opt .nameTy)}
      {body : Ast Addr .exp} {s₀ s₁ s₂ s₃ : Translator} {g : Nat} {v : Value}
      (symbol : s₀.symbols (functionDecName (.functionDec a name fs r (.some body))) = some g)
      (unused : ¬ s₀.Used g) (sound : s₀.Sound)
      (enter : s₀.enterFunction m n (.functionDec a name fs r (.some body)) = .ok s₁)
      (visited : visit m n body .accept s₁ = .ok (v, s₂))
      (leave : s₂.leaveFunction m n s₀ (.functionDec a name fs r (.some body)) v = .ok s₃)
      (grows : Grows s₃ F) : Compiled m n F (.functionDec a name fs r (.some body))

/-- What a part of the program adds, with the functions `ds`, of which it has all. -/
structure Adds (m : Annotated) (n : Nat) (xs : List Addr) (ds : List (Ast Addr .functionDec))
    (s s' : Translator) : Prop extends Extends ds xs s s' where
  compiled : s.Sound → (linkNames ds).Nodup → s.Fresh (linkNames ds) → (∀ d ∈ ds, Bare d) →
    ∀ F, Grows s' F → ∀ d ∈ ds, d.hasBody = true → Compiled m n F d

namespace Adds

theorem of_extends (h : Extends [] xs s s') : Adds m n xs [] s s' :=
  ⟨h, fun _ _ _ _ _ _ _ hd => absurd hd List.not_mem_nil⟩

theorem refl (s : Translator) : Adds m n xs [] s s := .of_extends (.refl s)

theorem trans (h₁ : Adds m n xs ds s s₁) (h₂ : Adds m n xs ds' s₁ s') :
    Adds m n xs (ds ++ ds') s s' where
  toExtends := by
    have e₁ := h₁.mono (List.subset_append_left ds ds') (List.Subset.refl xs)
    exact e₁.trans (h₂.mono (List.subset_append_right ds ds') (List.Subset.refl xs))
  compiled hs hnodup hfresh hbare F hF d hd hbody := by
    rw [linkNames, List.map_append] at hnodup hfresh
    obtain ⟨hn₁, hn₂, hdisj⟩ := List.nodup_append.mp hnodup
    rcases List.mem_append.mp hd with hd | hd
    · exact h₁.compiled hs hn₁ (hfresh.mono (List.subset_append_left _ _))
        (fun d hd => hbare d (List.mem_append_left _ hd)) F (h₂.grows.trans hF) d hd hbody
    · have hfresh₁ : s₁.Fresh (linkNames ds') := by
        apply (hfresh.mono (List.subset_append_right _ _)).extends hs h₁.toExtends
        intro d' hd' hmem
        exact hdisj _ (List.mem_map_of_mem hd') _ hmem rfl
      exact h₂.compiled (h₁.grows.sound hs) hn₂ hfresh₁
        (fun d hd => hbare d (List.mem_append_right _ hd)) F hF d hd hbody

/-- What comes after changes the current function only. -/
theorem next (h : Adds m n xs ds s s₁) (e : Extends [] xs s₁ s') : Adds m n xs ds s s' := by
  have h' := h.trans (.of_extends e)
  rwa [List.append_nil] at h'

theorem create (h : Adds m n xs ds s s') (op : Op)
    (hop : (Instr.mk s'.count op).isAlloca = false) : Adds m n xs ds s (s'.create op) :=
  h.next (.create hop)

theorem perm (h : Adds m n xs ds s s') (hp : ds.Perm ds') : Adds m n xs ds' s s' where
  toExtends := h.mono hp.subset (List.Subset.refl xs)
  compiled hs hnodup hfresh hbare F hF d hd := by
    have hnames : (linkNames ds).Perm (linkNames ds') := hp.map _
    exact h.compiled hs (hnames.nodup_iff.mpr hnodup) (hfresh.mono hnames.subset)
      (fun d hd => hbare d (hp.subset hd)) F hF d (hp.symm.subset hd)

/-- The builder goes to a block that was made in between. -/
theorem moveTo (h : Adds m n xs ds s s') (hc : s.builder.next ≤ c) :
    Adds m n xs ds s (s'.moveTo (some c)) where
  toExtends := h.toExtends.moveTo hc
  compiled hs hnodup hfresh hbare F hF :=
    h.compiled hs hnodup hfresh hbare F (Grows.moveTo.trans hF)

/-- Three blocks are made.  Two are entered in turn, each from the end of what comes before, and
the builder stays in the third. -/
theorem fork {op₁ op₂ op₃ : Op} {ds₁ ds₂ ds₃ : List (Ast Addr .functionDec)} {s₃ : Translator}
    (h₁ : Adds m n xs ds₁ s.newBlock.newBlock.newBlock s₁)
    (h₂ : Adds m n xs ds₂ ((s₁.create op₁).moveTo (some s.builder.next)) s₂)
    (h₃ : Adds m n xs ds₃ ((s₂.create op₂).moveTo (some (s.builder.next + 1))) s₃)
    (hop₁ : (Instr.mk s₁.count op₁).isAlloca = false)
    (hop₂ : (Instr.mk s₂.count op₂).isAlloca = false)
    (hop₃ : (Instr.mk s₃.count op₃).isAlloca = false) :
    Adds m n xs (ds₁ ++ ds₂ ++ ds₃) s
      ((s₃.create op₃).moveTo (some (s.builder.next + 2))) := by
  have blocks : Extends [] xs s s.newBlock.newBlock.newBlock :=
    (Extends.newBlock.trans .newBlock).trans .newBlock
  have start := ((Adds.of_extends blocks).trans h₁).create op₁ hop₁
  have branch₁ := ((start.moveTo (Nat.le_refl _)).trans h₂).create op₂ hop₂
  have branch₂ := ((branch₁.moveTo (Nat.le_add_right _ 1)).trans h₃).create op₃ hop₃
  exact branch₂.moveTo (Nat.le_add_right _ 2)

end Adds

/-- What `leaveFunction` does. -/
theorem leaveFunction_eq_ok : s.leaveFunction m n s₀ d v = .ok s' ↔
    ∃ void, (functionType m n d.functionAddr >>= returnsVoid m n) = .ok void ∧
      s' = { (s.create (.ret (if void then none else some v))).moveTo s₀.builder.cursor with
        currentFunction := s₀.currentFunction } := by
  simp only [leaveFunction, bind_eq_ok]
  constructor
  · rintro ⟨f, hf, void, hvoid, h⟩
    cases h
    exact ⟨void, ⟨f, hf, hvoid⟩, rfl⟩
  · rintro ⟨void, ⟨f, hf, hvoid⟩, rfl⟩
    exact ⟨f, hf, void, hvoid, rfl⟩

theorem formals_subset : formals d ⊆ ownVars d := by
  cases d with
  | functionDec a name fs r body =>
    cases fs with
    | varChunk b vs =>
      intro x hx
      obtain ⟨w, hw, rfl⟩ := List.mem_map.mp hx
      refine List.mem_map_of_mem (Ast.mem_varDecs.mpr ?_)
      have hmem := Ast.mem_subterms_of_mem hw
      simp [Ast.subterms, hmem]

theorem leave_grows (h : s₂.leaveFunction m n s d v = .ok s') : Grows s₂ s' := by
  obtain ⟨void, -, rfl⟩ := leaveFunction_eq_ok.mp h
  have hcreate : Grows s₂ (s₂.create (.ret (if void then none else some v))) := .create rfl
  exact (hcreate.trans .moveTo).trans (.of_eq rfl rfl rfl rfl rfl)

/-- What a function adds: to the module, itself and what its body does. -/
theorem Extends.function (hbody : d.hasBody = true) (hg : s.symbols (functionDecName d) = some g)
    (he : Enters (formals d) g s s₁) (h : Extends ds (ownVars d) s₁ s₂)
    (hl : s₂.leaveFunction m n s d v = .ok s') : Extends (d :: ds) xs s s' := by
  have hgrows := leave_grows hl
  have hg' : s'.symbols (functionDecName d) = some g :=
    hgrows.symbols _ _ (h.grows.symbols _ _ (he.grows.symbols _ _ hg))
  have hself : IsNested (d :: ds) s' g := ⟨d, List.mem_cons_self, hbody, hg'⟩
  have hnested {f : Nat} (hn : IsNested ds s₂ f) : IsNested (d :: ds) s' f :=
    (hn.grows hgrows).mono (List.subset_cons_self _ _)
  obtain ⟨void, -, rfl⟩ := leaveFunction_eq_ok.mp hl
  let s₃ := s₂.create (.ret (if void then none else some v))
  have h₃ : Extends ds (ownVars d) s₁ s₃ := h.trans (.create rfl)
  refine ⟨he.grows.trans (h.grows.trans hgrows), (he.builder.trans h₃.builder).detour, rfl, ?_, ?_,
    ?_⟩
  · intro c p hp
    rcases h₃.parents c p hp with hp | hp | ⟨f, hf, hn⟩
    · apply (he.parents c p hp).imp_right
      intro hp
      exact .inr ⟨g, hp, hself⟩
    · exact .inr (.inr ⟨g, hp.trans he.currentFunction, hself⟩)
    · exact .inr (.inr ⟨f, hf, hnested hn⟩)
  · intro f x v hv
    rcases h₃.locals f x v hv with hv | ⟨hf, -⟩ | hn
    · apply (he.locals f x v hv).imp_right
      rintro rfl
      exact .inr hself
    · obtain rfl : g = f := Option.some.inj (he.currentFunction.symm.trans hf)
      exact .inr (.inr hself)
    · exact .inr (.inr (hnested hn))
  · intro c i x hi
    rcases h₃.allocas c i x hi with hi | ⟨hc, hx⟩ | ⟨d', hd', f, hf, hc, hx⟩
    · apply (he.allocas c i x hi).imp_right
      rintro ⟨hc, hx⟩
      exact .inr ⟨d, List.mem_cons_self, g, hg', h₃.grows.builder.parentAt_eq_some hc,
        formals_subset hx⟩
    · exact .inr (.inr ⟨d, List.mem_cons_self, g, hg', he.currentFunction ▸ hc, hx⟩)
    · exact .inr (.inr ⟨d', List.mem_cons_of_mem _ hd', f, hf, hc, hx⟩)

/-- The function is found again, with those of its body. -/
theorem Adds.function {name : Symbol} {fs : Ast Addr .varChunk} {r : Ast Addr (.opt .nameTy)}
    {body : Ast Addr .exp}
    (he : s.enterFunction m n (.functionDec a name fs r (.some body)) = .ok s₁)
    (hv : visit m n body .accept s₁ = .ok (v, s₂))
    (h : Adds m n (ownVars (.functionDec a name fs r (.some body))) body.functionDecs s₁ s₂)
    (hl : s₂.leaveFunction m n s (.functionDec a name fs r (.some body)) v = .ok s') :
    Adds m n xs
      (.functionDec a name fs r (.some body) :: (fs.functionDecs ++ body.functionDecs)) s s' := by
  obtain ⟨g, hg, hent⟩ := enters_enterFunction he
  have hgrows := leave_grows hl
  refine ⟨?_, ?_⟩
  · apply (Extends.function rfl hg hent h.toExtends hl).mono _ (List.Subset.refl xs)
    exact List.cons_subset_cons _ (List.subset_append_right _ _)
  · intro hs hnodup hfresh hbare F hF d hd hbody
    rcases List.mem_cons.mp hd with rfl | hd
    · exact .intro hg (hfresh.not_used hs List.mem_cons_self hg) hs he hv hl hF
    · have hnone : fs.functionDecs = [] := hbare _ List.mem_cons_self
      rw [hnone, List.nil_append] at hnodup hfresh hbare hd
      obtain ⟨hname, hnodup⟩ := List.nodup_cons.mp hnodup
      have hfresh₁ := (hfresh.mono (List.subset_cons_self _ _)).enters hs hent hg hname
      exact h.compiled (hent.grows.sound hs) hnodup hfresh₁
        (fun d hd => hbare d (List.mem_cons_of_mem _ hd)) F (hgrows.trans hF) d hd hbody

theorem functionDecs_functionDec {name : Symbol} {fs : Ast Addr .varChunk}
    {r : Ast Addr (.opt .nameTy)} {body : Ast Addr (.opt .exp)} :
    (Ast.functionDec a name fs r body).functionDecs =
      .functionDec a name fs r body :: (fs.functionDecs ++ body.functionDecs) := by
  show _ :: List.filterMap _ (_ ++ _ ++ _) = _
  rw [List.filterMap_append, List.filterMap_append,
    show List.filterMap _ r.subterms = [] from Ast.functionDecs_of_isType (t := r) rfl,
    List.append_nil]
  rfl

/-- There is nothing to find of a primitive. -/
theorem Adds.primitive {name : Symbol} {fs : Ast Addr .varChunk} {r : Ast Addr (.opt .nameTy)} :
    Adds m n xs (.functionDec a name fs r .none ::
      (fs.functionDecs ++ (Ast.none : Ast Addr (.opt .exp)).functionDecs)) s s := by
  refine ⟨.refl s, ?_⟩
  intro _ _ _ hbare F _ d hd hbody
  have hnone : fs.functionDecs = [] := hbare _ List.mem_cons_self
  rw [hnone] at hd
  obtain rfl := List.mem_singleton.mp hd
  cases hbody

/-! ## The visits -/

theorem functionHeaders_extends (h : s.functionHeaders m n ds' = .ok s') :
    Extends ds xs s s' := by
  induction ds' generalizing s with
  | nil =>
    cases h
    exact .refl _
  | cons d ds' ih =>
    simp only [functionHeaders, functionHeader, bind_eq_ok] at h
    obtain ⟨s₁, ⟨f, -, params, -, decs, -, h₁⟩, h⟩ := h
    cases h₁
    have e : Extends ds xs (s.escapedRef f).2 ((s.escapedRef f).2.createFunction
        ⟨functionDecName d, params, decs⟩) := .of_grows (.createFunction _) rfl rfl rfl
    exact ((extends_escapedRef f).trans e).trans (ih h)

theorem getOrInsertFunction_extends (name : Symbol) (params : List Param) :
    Extends ds xs s (s.getOrInsertFunction name params) := by
  have hg := Grows.getOrInsertFunction (s := s) name params
  unfold getOrInsertFunction at hg ⊢
  split
  · exact .refl s
  · rename_i hnew
    rw [if_neg hnew] at hg
    exact .of_grows hg rfl rfl rfl

theorem Extends.of_steps (h : Steps s s') : Extends ds xs s s' := by
  induction h with
  | refl => exact .refl _
  | create _ hop ih => exact ih.trans (.create (Llvm.Instr.isAlloca_of_isPlain hop))
  | lookup _ name params ih => exact ih.trans (getOrInsertFunction_extends name params)

theorem varDecs_part {j : Kind} {t : Ast Addr k} {u : Ast Addr j}
    (hx : t.varDecs.map Ast.varAddr ⊆ xs) (hu : ⟨j, u⟩ ∈ t.subterms) :
    u.varDecs.map Ast.varAddr ⊆ xs := by
  refine List.Subset.trans (List.map_subset _ ?_) hx
  intro d hd
  rw [Ast.mem_varDecs] at hd ⊢
  exact Ast.subterms_subset hu hd

/-- The parts are visited in turn, and each adds what it should. -/
theorem Adds.of_visits {ts : List (Σ k, Ast Addr k)} (h : Visits m n ts s s')
    (hts : ∀ p ∈ ts, ∀ {how : How} {s s' : Translator} {v : p.1.Result},
      visit m n p.2 how s = .ok (v, s') → Adds m n xs p.2.functionDecs s s') :
    Adds m n xs (ts.flatMap fun p => p.2.functionDecs) s s' := by
  induction h with
  | nil s => exact .refl s
  | cons h _ ih => exact (hts _ (.head _) h).trans (ih fun q hq => hts q (.tail _ hq))

/-- **A visit adds to the current function, and all the functions declared in what it goes
over.** -/
theorem adds_visit {t : Ast Addr k} {how : How} {v : k.Result}
    (hx : t.varDecs.map Ast.varAddr ⊆ xs) (h : visit m n t how s = .ok (v, s')) :
    Adds m n xs t.functionDecs s s' := by
  induction k, t using Ast.members_induction generalizing s s' how xs with
  | node k t ih =>
    by_cases ht : t.staysInBlock = true
    · obtain ⟨s₁, s₂, h₁, hs, h₂⟩ := visit_staysInBlock ht h
      have hmem {p : Σ k, Ast Addr k} (hp : p ∈ t.visited) : p ∈ t.members :=
        Ast.visited_subset_members hp
      have e : Adds m n xs _ s₁ s₂ := .of_visits hs fun p hp =>
        ih p (hmem hp) (varDecs_part hx (Ast.mem_of_mem_members (hmem hp)))
      have e' := ((Adds.of_extends (.of_steps h₁)).trans e).next (.of_steps h₂)
      exact e'.perm (Ast.functionDecs_visited ht)
    · cases t with
      | ifExp a c t e =>
        have ihc := @ih ⟨_, c⟩ (.head _)
        have iht := @ih ⟨_, t⟩ (.tail _ (.head _))
        have ihe := @ih ⟨_, e⟩ (.tail _ (.tail _ (.head _)))
        simp only [visit, bind_eq_ok, Prod.exists] at h
        obtain ⟨test, s₁, h₁, v₂, s₂, h₂, v₃, s₃, h₃, ty, -, h⟩ := h
        obtain rfl : _ = s' := congrArg Prod.snd (Except.ok.inj h)
        have e₁ := (ihc (varDecs_part hx (Ast.mem_first rfl)) h₁).create
          (.icmpNe test (.int 0)) rfl
        have e₂ := iht (varDecs_part hx (Ast.mem_second rfl)) h₂
        have e₃ := ihe (varDecs_part hx (Ast.mem_third rfl)) h₃
        have hfork : Adds m n xs _ s ((s₃.create (.br (s.builder.next + 2))).moveTo
            (some (s.builder.next + 2))) := .fork e₁ e₂ e₃ rfl rfl rfl
        rw [show (Ast.ifExp a c t e).functionDecs = _ from List.filterMap_append,
          List.filterMap_append]
        exact hfork.next (.of_steps steps_merge)
      | whileExp a c body =>
        have ihc := @ih ⟨_, c⟩ (.head _)
        have ihb := @ih ⟨_, body⟩ (.tail _ (.head _))
        simp only [visit, bind_eq_ok, Prod.exists] at h
        obtain ⟨test, s₁, h₁, v₂, s₂, h₂, h⟩ := h
        cases h
        have record : Extends [] xs s.newBlock.newBlock.newBlock
            { s.newBlock.newBlock.newBlock with
              loopEnd := Function.update s.loopEnd a (some (s.builder.next + 2)) } :=
          .of_grows (.of_eq rfl rfl rfl rfl rfl) rfl rfl rfl
        have e₁ := (ihc (varDecs_part hx (Ast.mem_first rfl)) h₁).create
          (.icmpNe test (.int 0)) rfl
        have e₂ := ihb (varDecs_part hx (Ast.mem_second rfl)) h₂
        rw [show (Ast.whileExp a c body).functionDecs = _ from List.filterMap_append]
        exact Adds.fork (.of_extends record) e₁ e₂ rfl rfl rfl
      | breakExp a =>
        simp only [visit, bind_eq_ok] at h
        obtain ⟨b, -, h⟩ := h
        cases h
        exact .of_extends (.create rfl)
      | varDec a x w i =>
        have ihi := @ih ⟨_, i⟩ (.tail _ (.head _))
        simp only [visit, bind_eq_ok, Prod.exists] at h
        obtain ⟨s₁, h₁, v₂, s₂, h₂, h⟩ := h
        have hmem : a ∈ (Ast.varDec a x w i).varDecs.map Ast.varAddr := List.mem_cons_self
        have e₁ : Extends [] xs s s₁ := .createAlloca h₁ (hx hmem)
        have e₂ := ihi (varDecs_part hx (Ast.mem_second rfl)) h₂
        rw [show (Ast.varDec a x w i).functionDecs = _ from List.filterMap_append]
        rw [show List.filterMap _ w.subterms = [] from Ast.functionDecs_of_isType (t := w) rfl]
        cases v₂ with
        | none => cases h
        | some v₂ =>
          cases h
          exact ((Adds.of_extends e₁).trans e₂).next (.create rfl)
      | functionDec a x fs r body =>
        have ihb := @ih ⟨_, body⟩ (.tail _ (.tail _ (.head _)))
        rw [functionDecs_functionDec]
        cases body with
        | none =>
          cases h
          exact .primitive
        | some b =>
          simp only [visit, Ast.isSome_some, if_true, bind_eq_ok, Prod.exists] at h
          obtain ⟨s₁, h₁, v₂, s₂, ⟨v₃, s₃, h₂, heq⟩, h⟩ := h
          cases heq
          simp only [bind_eq_ok] at h
          obtain ⟨s₄, h₄, h⟩ := h
          cases h
          have hown := varDecs_part (List.Subset.refl (ownVars (.functionDec a x fs r (.some b))))
            (u := .some b) (Ast.mem_third rfl)
          have hbody : visit m n (.some b) .accept s₁ = .ok (some v₃, s₂) := by
            simp only [visit, h₂]
            rfl
          exact .function h₁ h₂ (ihb hown hbody) h₄
      | functionChunk a ds =>
        have ih := @ih ⟨_, ds⟩ (.head _)
        simp only [visit, bind_eq_ok, Prod.exists] at h
        obtain ⟨s₁, h₁, v₂, s₂, h₂, h⟩ := h
        cases h
        have e : Extends [] xs s s₁ := functionHeaders_extends h₁
        exact (Adds.of_extends e).trans (ih (varDecs_part hx (Ast.mem_first rfl)) h₂)
      | _ => exact absurd rfl ht

/-- Functions leave the block they are declared in as it was. -/
theorem visit_functions {t : Ast Addr k} {how : How} {v : k.Result} (hk : k.isFunction = true)
    (h : visit m n t how s = .ok (v, s')) :
    s'.builder.cursor = s.builder.cursor ∧ ∀ c < s.builder.next, s'.code c = s.code c := by
  induction t generalizing s s' how with
  | nil =>
    cases h
    exact ⟨rfl, fun _ _ => rfl⟩
  | cons y ys ih ihs =>
    simp only [visit, bind_eq_ok, Prod.exists] at h
    obtain ⟨v₁, s₁, h₁, v₂, s₂, h₂, h⟩ := h
    cases h
    obtain ⟨hc₁, hcode₁⟩ := ih hk h₁
    obtain ⟨hc₂, hcode₂⟩ := ihs hk h₂
    have hnext := (adds_visit (List.Subset.refl _) h₁).grows.builder.next
    refine ⟨hc₂.trans hc₁, ?_⟩
    intro c hc
    exact (hcode₂ c (Nat.lt_of_lt_of_le hc hnext)).trans (hcode₁ c hc)
  | functionDec a x fs r body =>
    cases body with
    | none =>
      cases h
      exact ⟨rfl, fun _ _ => rfl⟩
    | some b =>
      simp only [visit, Ast.isSome_some, if_true, bind_eq_ok, Prod.exists] at h
      obtain ⟨s₁, h₁, v₂, s₂, ⟨v₃, s₃, h₂, heq⟩, h⟩ := h
      cases heq
      simp only [bind_eq_ok] at h
      obtain ⟨s₄, h₄, h⟩ := h
      cases h
      obtain ⟨g, -, hent⟩ := enters_enterFunction h₁
      have e₂ := (adds_visit (List.Subset.refl _) h₂).builder
      obtain ⟨void, -, rfl⟩ := leaveFunction_eq_ok.mp h₄
      refine ⟨rfl, ?_⟩
      intro c hc
      have hins : s₂.builder.Extends Instr.isAlloca (s₂.create
          (.ret (if void then none else some v₃))).builder := .insert rfl
      have hne : ((s.builder.newBlock (some g)).moveTo (some s.builder.next)).cursor ≠ some c := by
        rintro ⟨⟩
        exact Nat.lt_irrefl _ hc
      have hlt : c < ((s.builder.newBlock (some g)).moveTo (some s.builder.next)).next := by
        rw [BlockBuilder.next_moveTo, BlockBuilder.next_newBlock]
        exact Nat.lt_succ_of_lt hc
      have hstays := ((hent.builder.trans e₂).trans hins).stays c hlt hne
      rw [BlockBuilder.code_moveTo, BlockBuilder.code_newBlock] at hstays
      exact hstays
  | none | some | simpleVar | fieldVar | subscriptVar | ofVar | nilExp | intExp | stringExp
  | callExp | opExp | recordExp | seqExp | assignExp | ifExp | whileExp | forExp | breakExp
  | letExp | arrayExp | castExp | nameTy | ofNameTy | recordTy | arrayTy | field | fieldInit
  | varDec | typeDec | varChunk | ofVarChunk | functionChunk | typeChunk | chunkList => cases hk

/-! ## The whole program -/

theorem sound_start {escaped : Addr → Option (List Addr)} : ({ escaped } : Translator).Sound := by
  refine ⟨?_, ?_, ?_⟩
  · intro c
    exact ⟨[], rfl, fun i hi => absurd hi List.not_mem_nil, fun h => absurd rfl h⟩
  · refine ⟨?_, ?_⟩
    · intro c i hi
      exact absurd hi List.not_mem_nil
    · intro c d i hi
      exact absurd hi List.not_mem_nil
  · intro y f h
    dsimp only at h ⊢
    split at h
    · rename_i hy
      cases h
      rw [hy]
      rfl
    · cases h

theorem fresh_start {escaped : Addr → Option (List Addr)} {names : List Symbol} :
    ({ escaped } : Translator).Fresh names := by
  rintro g (hg | ⟨c, hc⟩ | ⟨x, v, hv⟩)
  · cases hg
  · cases hc
  · cases hv

/-- A program whose functions can be told apart by the names they are linked under. -/
structure Linkable (program : Ast Addr .chunkList) : Prop where
  nodup : (linkNames program.functionDecs).Nodup
  bare : ∀ d ∈ program.functionDecs, Bare d

section Program

variable {escaped : Addr → Option (List Addr)} {program : Ast Addr .chunkList}

theorem adds_translate (h : translate m n escaped program = .ok F) :
    Adds m n (program.varDecs.map Ast.varAddr) program.functionDecs { escaped } F := by
  simp only [translate, bind_eq_ok, Prod.exists] at h
  obtain ⟨v, s₁, h₁, h⟩ := h
  cases h
  exact adds_visit (List.Subset.refl _) h₁

/-- The functions of a program are all found in the module it is translated to. -/
theorem compiled_of_translate (hp : Linkable program) (h : translate m n escaped program = .ok F)
    (hd : d ∈ program.functionDecs) (hbody : d.hasBody = true) : Compiled m n F d :=
  (adds_translate h).compiled sound_start hp.nodup fresh_start hp.bare F (.refl F) d hd hbody

/-- A function only has the storage of its own variables. -/
theorem ownVars_of_owns (hp : Linkable program) (h : translate m n escaped program = .ok F)
    (hd : d ∈ program.functionDecs) (hg : F.symbols (functionDecName d) = some g)
    (hx : F.Owns g i x) : x ∈ ownVars d := by
  have e := adds_translate h
  have hs : F.Sound := e.grows.sound sound_start
  obtain ⟨c, hc, hi⟩ := hx
  have hparent := (BlockBuilder.entry_eq_some.mp hc).1
  rcases e.allocas c i x hi with hi | ⟨hc', -⟩ | ⟨d', hd', f, hf, hc', hx⟩
  · exact absurd hi List.not_mem_nil
  · rw [hparent] at hc'
    cases hc'
  · rw [hparent] at hc'
    cases hc'
    -- The two functions have the same number, so they are linked under the same name.
    obtain ⟨e₁, he₁, hname₁⟩ := hs.function_of_symbol hg
    obtain ⟨e₂, he₂, hname₂⟩ := hs.function_of_symbol hf
    rw [he₁] at he₂
    cases he₂
    rw [List.inj_on_of_nodup_map hp.nodup hd hd' (hname₁.symm.trans hname₂)]
    exact hx

end Program

end Translator

end TigerCompiler
