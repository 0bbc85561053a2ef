import TigerCompiler.Type.LoopVariables
import Mathlib.Logic.Relation

/-!
# The pointers the checker follows

The type of a node stays null when it comes from a use without a `def_`, and most methods follow
the types of their parts.  What the methods of the parts of a tree follow (`Followed`) and which
nodes they call `accept` on (`nexts`) can be read off the tree and its `def_` members; the run on
a program can only come to its end where every one of these pointers is set and no `VarDec` leads
back to itself (`Runnable`).
-/

namespace TigerCompiler

namespace TypeChecker

variable {j k : Kind}

/-! ## Null pointers -/

/-- The type of the node stays null, as that of the use it comes from does. -/
def Untypable (f : Addr → Option Addr) : {k : Kind} → Ast Addr k → Prop
  | _, .cons x xs => Untypable f xs ∨ xs.toList = [] ∧ Untypable f x
  | _, .some x => Untypable f x
  | _, .simpleVar a _ => f a = none
  | _, .ofVar v => Untypable f v
  | _, .seqExp _ es => Untypable f es
  | _, .letExp _ _ body => Untypable f body
  | _, .nameTy a name => name.isBuiltin = false ∧ f a = none
  | _, .ofNameTy n => Untypable f n
  | _, .varDec _ _ n i =>
    Untypable f n ∨ n.isSome = false ∧ (Untypable f i ∨ i.isSome = false)
  | _, _ => False

/-- The nodes whose types the method of a node follows. -/
def derefs (counted : Addr → Nat → Bool) : {k : Kind} → Ast Addr k → List (Σ k, Ast Addr k)
  | _, .subscriptVar _ _ i => entries i
  | _, .callExp a _ args => if counted a args.toList.length then entries args else []
  | _, .opExp _ l _ r => entries l ++ entries r
  | _, .recordExp _ _ fs => entries fs
  | _, .assignExp _ v e => entries v ++ entries e
  | _, .ifExp _ c t e => entries c ++ entries t ++ entries e
  | _, .whileExp _ c body => entries c ++ entries body
  | _, .forExp _ vardec hi body => entries vardec ++ entries hi ++ entries body
  | _, .arrayExp _ t size i => entries t ++ entries size ++ entries i
  | _, .recordTy _ fs => entries fs
  | _, .arrayTy _ t => entries t
  | _, .varDec _ _ t i => if t.isSome && i.isSome then entries t ++ entries i else []
  | _, .functionDec _ _ (.varChunk _ fs) result body =>
    entries fs ++ entries result ++ entries body
  | _, _ => []

/-- The number of fields of the record type a name is bound to, none for another type. -/
def fieldCount (m : Tree) (typeName : Ast Addr .nameTy) : Option Nat :=
  match (m.defs typeName.addr).bind m.typeDec with
  | some (.typeDec _ _ (.recordTy _ gs)) => some gs.toList.length
  | some _ => some 0
  | none => none

/-- The declaration the method of a node follows is there, and is long enough. -/
def Declared (m : Tree) : (Σ k, Ast Addr k) → Prop
  | ⟨_, .callExp a _ _⟩ => m.defs a ≠ none
  | ⟨_, .recordExp _ t fs⟩ => ∃ n, fieldCount m t = some n ∧ fs.toList.length ≤ n
  | _ => True

/-- Every pointer the method of a node follows is set. -/
structure Followed (F : Facts) (c : Σ k, Ast Addr k) : Prop where
  types : ∀ e ∈ derefs F.counted c.2, ¬ Untypable F.tree.defs e.2
  declared : Declared F.tree c

/-! ## The calls that are made -/

/-- The nodes on which the method of a node calls `accept`. -/
def nexts (F : Facts) : {k : Kind} → Ast Addr k → List (Σ k, Ast Addr k)
  | _, .callExp a _ args => if F.counted a args.toList.length then entries args else []
  | _, t => calls F.tree t

/-- `c` is one of them. -/
def Calls (F : Facts) (c t : Σ k, Ast Addr k) : Prop := c ∈ nexts F t.2

/-- The recursion from the node comes to an end, and it follows no null pointer. -/
structure Whole (F : Facts) (t : Ast Addr k) : Prop where
  grounded : ∀ c ∈ entries t, Acc (Calls F) c
  followed : ∀ c ∈ t.reached F.counted, Followed F c

/-- The same, and the type of the node is not null. -/
structure Usable (F : Facts) (t : Ast Addr k) : Prop extends Whole F t where
  typable : ∀ c ∈ entries t, ¬ Untypable F.tree.defs c.2

variable {F : Facts} {i : Kind} {t : Ast Addr k} {x : Ast Addr j} {y : Ast Addr i}

theorem Whole.acc (h : Whole F t) (hk : HasMethod k = true) : Acc (Calls F) ⟨k, t⟩ :=
  h.grounded _ (by rw [entries_of_hasMethod hk]; exact .head _)

theorem Whole.usable (h : Whole F t) (hk : HasMethod k = true) (hu : ¬ Untypable F.tree.defs t) :
    Usable F t where
  toWhole := h
  typable c hc := by
    rw [entries_of_hasMethod hk, List.mem_singleton] at hc
    exact hc ▸ hu

/-- A node is gone over once what its method calls has been, and its other parts. -/
theorem Whole.node (hk : HasMethod k = true) (hc : ∀ c ∈ nexts F t, Acc (Calls F) c)
    (hf : Followed F ⟨k, t⟩) (hr : ∀ c ∈ t.reached F.counted, c = ⟨k, t⟩ ∨ Followed F c) :
    Whole F t where
  grounded c hc' := by
    rw [entries_of_hasMethod hk, List.mem_singleton] at hc'
    exact hc' ▸ .intro _ hc
  followed c hc' := (hr c hc').elim (fun h => h ▸ hf) id

theorem Whole.leaf (hk : HasMethod k = true) (hn : nexts F t = [])
    (hr : t.reached F.counted = [⟨k, t⟩]) (hf : Followed F ⟨k, t⟩) : Whole F t :=
  .node hk (by simp [hn]) hf fun c hc => .inl (by simpa [hr] using hc)

theorem Whole.one (hx : Whole F x) (hk : HasMethod k = true) (hn : nexts F t = entries x)
    (hr : t.reached F.counted = ⟨k, t⟩ :: x.reached F.counted) (hf : Followed F ⟨k, t⟩) :
    Whole F t := by
  refine .node hk (hn ▸ hx.grounded) hf fun c hc => ?_
  rw [hr, List.mem_cons] at hc
  exact hc.imp_right (hx.followed c)

theorem Whole.two (hx : Whole F x) (hy : Whole F y) (hk : HasMethod k = true)
    (hn : nexts F t = entries x ++ entries y)
    (hr : t.reached F.counted = ⟨k, t⟩ :: (x.reached F.counted ++ y.reached F.counted))
    (hf : Followed F ⟨k, t⟩) : Whole F t := by
  refine .node hk (hn ▸ List.forall_mem_append.mpr ⟨hx.grounded, hy.grounded⟩) hf fun c hc => ?_
  rw [hr, List.mem_cons, List.mem_append] at hc
  exact hc.imp_right fun hc => hc.elim (hx.followed c) (hy.followed c)

theorem Whole.three {l : Kind} {z : Ast Addr l} (hx : Whole F x) (hy : Whole F y)
    (hz : Whole F z) (hk : HasMethod k = true)
    (hn : nexts F t = entries x ++ entries y ++ entries z)
    (hr : t.reached F.counted =
      ⟨k, t⟩ :: (x.reached F.counted ++ y.reached F.counted ++ z.reached F.counted))
    (hf : Followed F ⟨k, t⟩) : Whole F t := by
  have hacc := List.forall_mem_append.mpr ⟨hx.grounded, hy.grounded⟩
  refine .node hk (hn ▸ List.forall_mem_append.mpr ⟨hacc, hz.grounded⟩) hf fun c hc => ?_
  rw [hr, List.mem_cons, List.mem_append, List.mem_append] at hc
  refine hc.imp_right fun hc => ?_
  rcases hc with (hc | hc) | hc
  · exact hx.followed c hc
  · exact hy.followed c hc
  · exact hz.followed c hc

/-- A part that is no node of its own is gone over with what it holds. -/
theorem Whole.part (hx : Whole F x) (hn : entries t = entries x)
    (hr : t.reached F.counted = ⟨k, t⟩ :: x.reached F.counted) (hf : Followed F ⟨k, t⟩) :
    Whole F t where
  grounded := hn ▸ hx.grounded
  followed := by
    rw [hr]
    exact List.forall_mem_cons.mpr ⟨hf, hx.followed⟩

/-- A class whose method follows nothing. -/
theorem followed_of_derefs (hd : derefs F.counted t = []) (h : Declared F.tree ⟨k, t⟩) :
    Followed F ⟨k, t⟩ := ⟨by simp [hd], h⟩

theorem Whole.nil : Whole F (.nil : Ast Addr (.list k)) :=
  ⟨by simp [entries], List.forall_mem_singleton.mpr (followed_of_derefs rfl trivial)⟩

theorem Whole.cons {ts : Ast Addr (.list k)} (h : Whole F t) (hs : Whole F ts) :
    Whole F (.cons t ts) where
  grounded := List.forall_mem_append.mpr ⟨h.grounded, hs.grounded⟩
  followed := List.forall_mem_cons.mpr ⟨followed_of_derefs rfl trivial,
    List.forall_mem_append.mpr ⟨h.followed, hs.followed⟩⟩

theorem Whole.list : (xs : Ast Addr (.list k)) → (∀ x ∈ xs.toList, Whole F x) → Whole F xs
  | .nil, _ => .nil
  | .cons y ys, h => .cons (h y (by simp)) (Whole.list ys fun x hx => h x (by simp [hx]))

theorem Whole.none : Whole F (.none : Ast Addr (.opt k)) :=
  ⟨by simp [entries], List.forall_mem_singleton.mpr (followed_of_derefs rfl trivial)⟩

theorem Whole.some (h : Whole F t) : Whole F (.some t) :=
  h.part rfl rfl (followed_of_derefs rfl trivial)

theorem Usable.list (xs : Ast Addr (.list k)) (h : ∀ x ∈ xs.toList, Usable F x) : Usable F xs where
  toWhole := .list xs fun x hx => (h x hx).toWhole
  typable c hc := by
    obtain ⟨x, hx, hc⟩ := (mem_entries_list xs).mp hc
    exact (h x hx).typable c hc

theorem Usable.none : Usable F (.none : Ast Addr (.opt k)) := ⟨.none, by simp [entries]⟩

theorem Usable.some (h : Usable F t) : Usable F (.some t) := ⟨h.toWhole.some, h.typable⟩

theorem Usable.two (hx : Usable F x) (hy : Usable F y) (hk : HasMethod k = true)
    (hn : nexts F t = entries x ++ entries y)
    (hr : t.reached F.counted = ⟨k, t⟩ :: (x.reached F.counted ++ y.reached F.counted))
    (hd : derefs F.counted t = entries x ++ entries y) (h : Declared F.tree ⟨k, t⟩) :
    Whole F t :=
  hx.toWhole.two hy.toWhole hk hn hr
    ⟨hd ▸ List.forall_mem_append.mpr ⟨hx.typable, hy.typable⟩, h⟩

theorem Usable.three {l : Kind} {z : Ast Addr l} (hx : Usable F x) (hy : Usable F y)
    (hz : Usable F z) (hk : HasMethod k = true)
    (hn : nexts F t = entries x ++ entries y ++ entries z)
    (hr : t.reached F.counted =
      ⟨k, t⟩ :: (x.reached F.counted ++ y.reached F.counted ++ z.reached F.counted))
    (hd : derefs F.counted t = entries x ++ entries y ++ entries z)
    (h : Declared F.tree ⟨k, t⟩) : Whole F t := by
  have htyp := List.forall_mem_append.mpr ⟨hx.typable, hy.typable⟩
  exact hx.toWhole.three hy.toWhole hz.toWhole hk hn hr
    ⟨hd ▸ List.forall_mem_append.mpr ⟨htyp, hz.typable⟩, h⟩

/-- The nodes `accept` is called on for a part are inside it. -/
theorem mem_of_mem_entries {c : Σ k, Ast Addr k} (t : Ast Addr k) (h : c ∈ entries t) :
    c ∈ t.subterms ∧ HasMethod c.1 = true := by
  have hself {j : Kind} {u : Ast Addr j} (hj : HasMethod j = true) (hc : c ∈ entries u) :
      c ∈ u.subterms ∧ HasMethod c.1 = true := by
    rw [entries_of_hasMethod hj, List.mem_singleton] at hc
    exact hc ▸ ⟨u.mem_subterms_self, hj⟩
  induction t with
  | nil | none => cases h
  | cons x xs ihx ihxs =>
    rcases List.mem_append.mp h with h | h
    · exact (ihx h).imp_left (Ast.subterms_subset (Ast.mem_first rfl) ·)
    · exact (ihxs h).imp_left (Ast.subterms_subset (Ast.mem_second rfl) ·)
  | some x ih | field _ _ x ih | fieldInit _ _ x ih | typeDec _ _ x ih =>
    exact (ih h).imp_left (.tail _ ·)
  | functionDec a x fs r b ihf ihr ihb =>
    cases fs with
    | varChunk e ds =>
      simp only [entries, List.mem_append] at h
      rcases h with (h | h) | h
      · obtain ⟨d, hd, hc⟩ := (mem_entries_list ds).mp h
        refine (hself rfl hc).imp_left fun hc => Ast.subterms_subset (Ast.mem_first rfl) ?_
        exact .tail _ (Ast.subterms_subset (Ast.mem_subterms_of_mem hd) hc)
      · exact (ihr h).imp_left (Ast.subterms_subset (Ast.mem_second rfl) ·)
      · exact (ihb h).imp_left (Ast.subterms_subset (Ast.mem_third rfl) ·)
  | _ => exact hself rfl h

/-- The node that lives at the address of a node with a method. -/
theorem exists_inner (F : Facts) (t : Ast Addr k) (hk : HasMethod k = true) :
    ∃ c ∈ t.subterms, c.2.isNode = true ∧ HasMethod c.1 = true ∧ c.2.addr = t.addr ∧
      (Untypable F.tree.defs t ↔ Untypable F.tree.defs c.2) ∧ (Whole F t ↔ Whole F c.2) ∧
      (c.1 = .ty → c = ⟨k, t⟩) := by
  have hself (hn : t.isNode = true) : ∃ c ∈ t.subterms, c.2.isNode = true ∧
      HasMethod c.1 = true ∧ c.2.addr = t.addr ∧
      (Untypable F.tree.defs t ↔ Untypable F.tree.defs c.2) ∧ (Whole F t ↔ Whole F c.2) ∧
      (c.1 = .ty → c = ⟨k, t⟩) :=
    ⟨_, t.mem_subterms_self, hn, hk, rfl, Iff.rfl, Iff.rfl, fun _ => rfl⟩
  -- an inclusion between classes has the one node of what it includes
  have hwhole {j : Kind} {v : Ast Addr j} (hj : HasMethod j = true) (hn : nexts F t = entries v)
      (hr : t.reached F.counted = ⟨k, t⟩ :: v.reached F.counted) (hf : Followed F ⟨k, t⟩) :
      Whole F t ↔ Whole F v := by
    refine ⟨fun h => ⟨fun c hc => ?_, fun c hc => h.followed c (hr ▸ .tail _ hc)⟩,
      fun h => h.one hk hn hr hf⟩
    exact (h.acc hk).inv (show c ∈ nexts F t from hn ▸ hc)
  cases t with
  | nil | cons | none | some | field | fieldInit | functionDec | typeDec => cases hk
  | ofVar v =>
    refine ⟨⟨_, v⟩, Ast.mem_first rfl, by cases v <;> rfl, rfl, rfl, Iff.rfl,
      hwhole rfl rfl rfl (followed_of_derefs rfl trivial), fun h => ?_⟩
    cases h
  | ofNameTy v =>
    refine ⟨⟨_, v⟩, Ast.mem_first rfl, by cases v; rfl, rfl, rfl, Iff.rfl,
      hwhole rfl rfl rfl (followed_of_derefs rfl trivial), fun h => ?_⟩
    cases h
  | ofVarChunk v =>
    refine ⟨⟨_, v⟩, Ast.mem_first rfl, by cases v; rfl, rfl, rfl, by cases v; exact Iff.rfl,
      hwhole rfl rfl rfl (followed_of_derefs rfl trivial), fun h => ?_⟩
    cases h
  | _ => exact hself rfl

/-! ## The facts and the program -/

/-- The facts are about the program. -/
structure Facts.About (F : Facts) (program : Ast Addr .chunkList) : Prop where
  nodup : program.nodes.Nodup
  noCast : NoCast program
  varDec : ∀ d v, F.tree.varDec d = some v ↔ ⟨.varDec, v⟩ ∈ program.subterms ∧ v.varAddr = d
  typeDec : ∀ d v, F.tree.typeDec d = some v ↔ ⟨.typeDec, v⟩ ∈ program.subterms ∧ v.typeAddr = d
  arity : ∀ a x c fs r b, ⟨.functionDec, .functionDec a x (.varChunk c fs) r b⟩ ∈
    program.subterms → F.arity a = some fs.toList.length

variable {program : Ast Addr .chunkList}

/-! ## The way to a part -/

theorem not_acc_of_cycle {α : Type} {r : α → α → Prop} {a : α} (h : r a a) : ¬ Acc r a := by
  intro ha
  induction ha with
  | intro a _ ih => exact ih a h h

/-- The recursion from a part of a tree gets to `c`. -/
def Leads (F : Facts) (t : Ast Addr k) (c : Σ k, Ast Addr k) : Prop :=
  ∃ e ∈ entries t, Relation.ReflTransGen (Calls F) c e

variable {c : Σ k, Ast Addr k}

theorem Leads.self (hk : HasMethod k = true) : Leads F t ⟨k, t⟩ :=
  ⟨_, by rw [entries_of_hasMethod hk]; exact .head _, .refl⟩

theorem Leads.mono (h : Leads F x c) (ht : entries x ⊆ entries t) : Leads F t c := by
  obtain ⟨e, he, hc⟩ := h
  exact ⟨e, ht he, hc⟩

/-- The method of a node calls `accept` on the entries of its parts. -/
theorem Leads.call (h : Leads F x c) (hk : HasMethod k = true) (ht : entries x ⊆ nexts F t) :
    Leads F t c := by
  obtain ⟨e, he, hc⟩ := h
  exact ⟨⟨k, t⟩, by rw [entries_of_hasMethod hk]; exact .head _, hc.tail (ht he)⟩

/-- The recursion from a node gets to all its parts that have a method; the `VarChunk` of formals
is gone over without it. -/
theorem leads_of_reached (hnc : NoCast t) (hc : c ∈ t.reached F.counted)
    (hk : HasMethod c.1 = true) (hv : c.1 ≠ .varChunk) : Leads F t c := by
  induction t with
  | nil | none =>
    rw [Ast.reached, List.mem_singleton] at hc
    subst hc
    cases hk
  | simpleVar | nilExp | intExp | stringExp | breakExp | nameTy =>
    rw [Ast.reached, List.mem_singleton] at hc
    exact hc ▸ .self rfl
  | castExp a e ty => exact absurd (Ast.mem_subterms_self _) (hnc a e ty)
  | some y ih | field _ _ y ih | fieldInit _ _ y ih | typeDec _ _ y ih =>
    rcases List.mem_cons.mp hc with rfl | hc
    · cases hk
    · exact ih (hnc.part (Ast.mem_first rfl)) hc
  | cons y ys ih₁ ih₂ =>
    simp only [Ast.reached, List.mem_cons, List.mem_append] at hc
    rcases hc with rfl | hc | hc
    · cases hk
    · exact (ih₁ (hnc.part (Ast.mem_first rfl)) hc).mono (by simp [entries])
    · exact (ih₂ (hnc.part (Ast.mem_second rfl)) hc).mono (by simp [entries])
  | functionDec a y fs r body ih₁ ih₂ ih₃ =>
    cases fs with
    | varChunk b ds =>
      simp only [Ast.reached, List.mem_cons, List.mem_append] at hc
      rcases hc with rfl | ((rfl | hc) | hc) | hc
      · cases hk
      · exact absurd rfl hv
      · obtain ⟨e, he, hce⟩ := ih₁ (hnc.part (Ast.mem_first rfl)) (List.mem_cons_of_mem _ hc)
        simp (disch := decide) only [entries_of_hasMethod, List.mem_singleton] at he
        subst he
        rcases hce.cases_tail with heq | ⟨e, hce, he⟩
        · exact absurd (congrArg Sigma.fst heq).symm hv
        · exact ⟨e, by simp only [entries, List.mem_append]; exact .inl (.inl he), hce⟩
      · exact (ih₂ (hnc.part (Ast.mem_second rfl)) hc).mono (by simp [entries])
      · exact (ih₃ (hnc.part (Ast.mem_third rfl)) hc).mono (by simp [entries])
  | callExp a y args ih =>
    rw [Ast.reached, List.mem_cons] at hc
    rcases hc with rfl | hc
    · exact .self rfl
    · split at hc
      · rename_i hcount
        exact (ih (hnc.part (Ast.mem_first rfl)) hc).call rfl (by simp [nexts, hcount])
      · cases hc
  | ofVar _ ih | ofNameTy _ ih | ofVarChunk _ ih | fieldVar _ _ _ ih | seqExp _ _ ih
  | recordTy _ _ ih | arrayTy _ _ ih | varChunk _ _ ih | functionChunk _ _ ih | typeChunk _ _ ih
  | chunkList _ _ ih =>
    rcases List.mem_cons.mp hc with rfl | hc
    · exact .self rfl
    · exact (ih (hnc.part (Ast.mem_first rfl)) hc).call rfl (List.Subset.refl _)
  | subscriptVar _ _ _ ih₁ ih₂ | opExp _ _ _ _ ih₁ ih₂ | recordExp _ _ _ ih₁ ih₂
  | assignExp _ _ _ ih₁ ih₂ | whileExp _ _ _ ih₁ ih₂ | letExp _ _ _ ih₁ ih₂
  | varDec _ _ _ _ ih₁ ih₂ =>
    simp only [Ast.reached, List.mem_cons, List.mem_append] at hc
    rcases hc with rfl | hc | hc
    · exact .self rfl
    · exact (ih₁ (hnc.part (Ast.mem_first rfl)) hc).call rfl (by simp [nexts, calls])
    · exact (ih₂ (hnc.part (Ast.mem_second rfl)) hc).call rfl (by simp [nexts, calls])
  | ifExp _ _ _ _ ih₁ ih₂ ih₃ | forExp _ _ _ _ ih₁ ih₂ ih₃ | arrayExp _ _ _ _ ih₁ ih₂ ih₃ =>
    simp only [Ast.reached, List.mem_cons, List.mem_append] at hc
    rcases hc with rfl | (hc | hc) | hc
    · exact .self rfl
    · exact (ih₁ (hnc.part (Ast.mem_first rfl)) hc).call rfl (by simp [nexts, calls])
    · exact (ih₂ (hnc.part (Ast.mem_second rfl)) hc).call rfl (by simp [nexts, calls])
    · exact (ih₃ (hnc.part (Ast.mem_third rfl)) hc).call rfl (by simp [nexts, calls])

/-- From a node with a method the recursion gets to its parts. -/
theorem reaches_of_reached (hnc : NoCast t) (ht : HasMethod k = true)
    (hc : c ∈ t.reached F.counted) (hk : HasMethod c.1 = true) (hv : c.1 ≠ .varChunk) :
    Relation.ReflTransGen (Calls F) c ⟨k, t⟩ := by
  obtain ⟨e, he, hce⟩ := leads_of_reached (F := F) hnc hc hk hv
  rw [entries_of_hasMethod ht, List.mem_singleton] at he
  exact he ▸ hce

/-- No `VarDec` the checker goes over holds a use of itself that it goes over. -/
def NoSelfUse (F : Facts) (t : Ast Addr k) : Prop :=
  ∀ v, ⟨.varDec, v⟩ ∈ t.reached F.counted → ∀ u x,
    ⟨.var, .simpleVar u x⟩ ∈ v.reached F.counted → F.tree.defs u ≠ some v.varAddr

/-- Where the recursion comes to an end, no `VarDec` leads back to itself. -/
theorem Whole.noSelfUse (hp : F.About program) (h : Whole F t) (ht : ⟨k, t⟩ ∈ program.subterms)
    (hk : HasMethod k = true) : NoSelfUse F t := by
  intro v hv u x hu hd
  have hnc : NoCast t := hp.noCast.part ht
  have hmem := reached_subset _ t hv
  have hv' := reaches_of_reached (F := F) hnc hk hv rfl (by rintro ⟨⟩)
  have hu' := reaches_of_reached (F := F) (hnc.part hmem) rfl hu rfl (by rintro ⟨⟩)
  -- the `SimpleVar` calls the `VarDec` that leads to it
  have hfound := (hp.varDec v.varAddr v).mpr ⟨Ast.subterms_subset ht hmem, rfl⟩
  have hcall : Calls F ⟨_, v⟩ ⟨_, .simpleVar u x⟩ := by
    simp [Calls, nexts, calls, hd, hfound]
  have hcycle := Relation.TransGen.head' hcall hu'
  have hreached := (h.acc hk).inv_of_transGen (hcycle.trans_left hv')
  exact not_acc_of_cycle hcycle hreached.transGen

/-- What keeps the run of the checker on a node from going round for ever and from following a
null pointer. -/
structure Runnable (F : Facts) (t : Ast Addr k) : Prop where
  noSelfUse : NoSelfUse F t
  followed : ∀ c ∈ t.reached F.counted, Followed F c

end TypeChecker

open TypeChecker

section Program

variable {f : Addr → Option Addr} {program : Ast Addr .chunkList}

theorem find?_eq_some_iff_of_inj {α β : Type} [DecidableEq β] {g : α → β} {xs : List α} {x : α}
    {b : β} (hg : ∀ y ∈ xs, ∀ z ∈ xs, g y = g z → y = z) :
    xs.find? (fun y => g y = b) = some x ↔ x ∈ xs ∧ g x = b := by
  constructor
  · intro h
    exact ⟨List.mem_of_find?_eq_some h, by simpa using List.find?_some h⟩
  · rintro ⟨hx, rfl⟩
    cases hfind : xs.find? fun y => g y = g x with
    | none => simpa using List.find?_eq_none.mp hfind x hx
    | some y =>
      have hy : g y = g x := by simpa using List.find?_some hfind
      rw [hg y (List.mem_of_find?_eq_some hfind) x hx hy]

theorem mem_typeDecs {d : Ast Addr .typeDec} :
    d ∈ program.typeDecs ↔ ⟨.typeDec, d⟩ ∈ program.subterms := by
  simp only [Ast.typeDecs, List.mem_filterMap]
  constructor
  · rintro ⟨⟨j, u⟩, hu, hd⟩
    cases j <;> simp_all
  · exact fun h => ⟨_, h, rfl⟩

theorem factsOf_about (hn : program.nodes.Nodup) (hc : NoCast program) :
    (factsOf f program).About program where
  nodup := hn
  noCast := hc
  varDec d v := by
    rw [← Ast.mem_varDecs]
    refine find?_eq_some_iff_of_inj fun v hv w hw h => ?_
    cases Ast.eq_of_addr_eq hn (Ast.mem_varDecs.mp hv) (Ast.mem_varDecs.mp hw) (by cases v; rfl)
      (by cases w; rfl) (by cases v; cases w; exact h)
    rfl
  typeDec d v := by
    rw [← mem_typeDecs]
    refine find?_eq_some_iff_of_inj fun v hv w hw h => ?_
    cases Ast.eq_of_addr_eq hn (mem_typeDecs.mp hv) (mem_typeDecs.mp hw) (by cases v; rfl)
      (by cases w; rfl) (by cases v; cases w; exact h)
    rfl
  arity a x c fs r b h := by
    have hderef := Ast.deref_eq hn h rfl
    simp only [factsOf, formalCount]
    rw [show a = (Ast.functionDec a x (.varChunk c fs) r b).addr from rfl, hderef]

end Program

end TigerCompiler
