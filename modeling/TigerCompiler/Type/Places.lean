import TigerCompiler.Bind.Initialisers
import TigerCompiler.Type.Invariant

/-!
# The places the checker runs on

The `Binder` leaves no use without a `def_` but those aside (`Reached.visitBound`), and binds the
others to what has been declared before them.  So where the checker comes to a part of the program
in its scope, everything the scope shows has been made (`View`), and what has been made stays
(`Grows`).
-/

namespace TigerCompiler

open Scope

variable {j k : Kind}

/-- The run ends by throwing the errors, which `main` reports. -/
def Reports : Stop → Prop
  | .error _ => True
  | _ => False

namespace Binder

/-- A use aside is not bound, and any other is bound to what the scope shows by the rule of the
`Binder`, or is the name of a builtin type. -/
def VisitBound (f : Addr → Option Addr) ⦃k : Kind⦄ (ρ : Scope) : Ast Addr k → Prop
  | .simpleVar a x =>
    if ρ.aside then f a = none else ∃ d, f a = some d ∧ ρ.early x = some d
  | .callExp a x _ =>
    if ρ.aside then f a = none else ∃ d, f a = some d ∧ ρ.funs x = some d
  | .nameTy a x =>
    if ρ.aside then f a = none else f a = ρ.types x ∧ (f a = none → x.isBuiltin = true)
  | _ => True

theorem Reached.visitBound {f : Addr → Option Addr} {ρ : Scope} {t : Ast Addr k}
    (h : Reached f ρ t) : VisitBound f ρ t := by
  unfold Reached at h
  split at h
  · rename_i ha
    cases t <;> simp_all [VisitBound, Ast.nodes]
  · rename_i ha
    obtain ⟨w, b, b', hv, hw⟩ := h
    cases t with
    | simpleVar a x =>
      obtain ⟨d, hd, rfl⟩ := useVar_eq_ok.mp hv
      have hf := hw.defs a (by simp [Ast.nodes])
      simp only [VisitBound, ha]
      exact ⟨d, by rw [hf, defs_defSet], hw.early ▸ hd⟩
    | callExp a x args =>
      simp only [visit, bind_eq_ok] at hv
      obtain ⟨b₁, h₁, hv⟩ := hv
      obtain ⟨d, hd, rfl⟩ := useFunction_eq_ok.mp h₁
      have hf := hw.defs a (by simp [Ast.nodes])
      have hargs : a ∉ args.nodes := (List.nodup_cons.mp hw.nodup).1
      rw [(visit_effect hv).frame a hargs, defs_defSet] at hf
      simp only [VisitBound, ha]
      exact ⟨d, hf, hw.funs ▸ hd⟩
    | nameTy a x =>
      obtain ⟨hx, rfl⟩ := useType_eq_ok.mp hv
      have hf := hw.defs a (by simp [Ast.nodes])
      rw [defs_defSet] at hf
      simp only [VisitBound, ha]
      exact ⟨hf.trans (hw.types ▸ rfl), fun hn => hx (hf ▸ hn)⟩
    | _ => trivial

end Binder

namespace TypeChecker

variable {F : Facts} {program : Ast Addr .chunkList} {ρ σ : Scope} {P Q : List (Σ k, Ast Addr k)}
  {t : Ast Addr k} {s s' s₁ s₂ : TypeChecker} {L : List TypePtr} {a : Addr} {n : Nat}

/-! ## Growth -/

/-- Nothing that has been made is lost. -/
structure Grows (s s' : TypeChecker) : Prop where
  types : ∀ a, (s.types a).isSome = true → (s'.types a).isSome = true
  nameds : ∀ a, (s.heap.nameds a).isSome = true → (s'.heap.nameds a).isSome = true
  functions : ∀ a, (s.heap.functions a).isSome = true → (s'.heap.functions a).isSome = true

theorem Grows.refl (s : TypeChecker) : Grows s s := ⟨fun _ => id, fun _ => id, fun _ => id⟩

theorem Grows.trans (h : Grows s s₁) (h' : Grows s₁ s₂) : Grows s s₂ :=
  ⟨fun a ha => h'.types a (h.types a ha), fun a ha => h'.nameds a (h.nameds a ha),
    fun a ha => h'.functions a (h.functions a ha)⟩

theorem Grows.report (r : Report) : Grows s { s with errors := s.errors ++ [r] } :=
  ⟨fun _ => id, fun _ => id, fun _ => id⟩

theorem Grows.typeSet {u : Option TypePtr} (hu : u = none → s.types a = none) :
    Grows s (s.typeSet a u) := by
  refine ⟨fun b hb => ?_, fun _ => id, fun _ => id⟩
  by_cases hba : b = a
  · subst hba
    simp only [TypeChecker.typeSet, Function.update_self]
    cases u with
    | none => exact hu rfl ▸ hb
    | some u => rfl
  · simpa only [TypeChecker.typeSet, Function.update_of_ne hba] using hb

theorem Grows.errorAndRecover {x : Str} {q : Culprit} : Grows s (s.errorAndRecover a x q) :=
  (Grows.report _).trans (.typeSet (by rintro ⟨⟩))

theorem Grows.createNamed {x : Symbol} : Grows s (s.createNamed a x) :=
  ⟨fun _ => isSome_setDefault_of_isSome, fun _ => isSome_setDefault_of_isSome, fun _ => id⟩

theorem Grows.createRecord {fs : List (Symbol × TypePtr)} : Grows s (s.createRecord a fs) :=
  ⟨fun _ => isSome_setDefault_of_isSome, fun _ => id, fun _ => id⟩

theorem Grows.createArray {u : TypePtr} : Grows s (s.createArray a u) :=
  ⟨fun _ => isSome_setDefault_of_isSome, fun _ => id, fun _ => id⟩

theorem Grows.createFunction {fs : List (Symbol × TypePtr)} {r : TypePtr} :
    Grows s (s.createFunction a fs r) :=
  ⟨fun _ => isSome_setDefault_of_isSome, fun _ => id, fun _ => isSome_setDefault_of_isSome⟩

theorem Grows.namedTypeSet {u : Option TypePtr} : Grows s (s.namedTypeSet a u) := by
  refine ⟨fun _ => id, fun b hb => ?_, fun _ => id⟩
  simp only [TypeChecker.namedTypeSet]
  split
  · rename_i hba
    rw [Option.isSome_map]
    exact hba ▸ hb
  · exact hb

theorem Grows.checkReadOnly {m : Tree} {v : Ast Addr .var} : Grows s (s.checkReadOnly m a v) := by
  unfold TypeChecker.checkReadOnly
  split
  · split
    · exact .report _
    · exact .refl _
  · exact .refl _

/-! ## What is visible -/

/-- None of the parts is a use of the variable at `d`. -/
def Unused (F : Facts) (P : List (Σ k, Ast Addr k)) (d : Addr) : Prop :=
  ∀ u x, ⟨.var, .simpleVar u x⟩ ∈ P → F.tree.defs u ≠ some d

/-- What the uses among the parts `P` may lead to has been made: the variables have their types,
or are being declared and not used. -/
structure Visible (F : Facts) (ρ : Scope) (s : TypeChecker) (P : List (Σ k, Ast Addr k)) :
    Prop where
  vars : ∀ x d, ρ.early x = some d →
    F.tree.varDec d ≠ none ∧ ((s.types d).isSome = true ∨ Unused F P d)
  funs : ∀ x d, ρ.funs x = some d → (s.heap.functions d).isSome = true
  types : ∀ x d, ρ.types x = some d → (s.heap.nameds d).isSome = true
  bodies : ∀ x d, ρ.types x = some d → ∀ b y a gs,
    F.tree.typeDec d = some (.typeDec b y (.recordTy a gs)) → (s.types a).isSome = true

/-- The same in the places that do not lie aside. -/
def View (F : Facts) (ρ : Scope) (s : TypeChecker) (P : List (Σ k, Ast Addr k)) : Prop :=
  ρ.aside = false → Visible F ρ s P

theorem View.grows (h : View F ρ s P) (hg : Grows s s') : View F ρ s' P := by
  intro ha
  obtain ⟨hv, hf, ht, hb⟩ := h ha
  refine ⟨fun x d hd => ?_, fun x d hd => hg.functions d (hf x d hd),
    fun x d hd => hg.nameds d (ht x d hd),
    fun x d hd b y a gs he => hg.types a (hb x d hd b y a gs he)⟩
  exact (hv x d hd).imp_right (Or.imp_left (hg.types d))

theorem View.sub (h : View F ρ s P) (hP : Q ⊆ P) : View F ρ s Q := by
  intro ha
  obtain ⟨hv, hf, ht, hb⟩ := h ha
  refine ⟨fun x d hd => ?_, hf, ht, hb⟩
  exact (hv x d hd).imp_right (Or.imp_right fun hu u y hy => hu u y (hP hy))

theorem View.aside (h : ρ.aside = true) : View F ρ s P := fun ha => by
  rw [h] at ha
  cases ha

/-- A variable is seen from its name on. -/
theorem View.putEarly (h : View F ρ s P) {x : Symbol} (ha : F.tree.varDec a ≠ none)
    (hu : (s.types a).isSome = true ∨ Unused F P a) : View F (ρ.putEarly x a) s P := by
  intro hρ
  obtain ⟨hv, hf, ht, hb⟩ := h hρ
  refine ⟨fun y d hd => ?_, hf, ht, hb⟩
  rw [putEarly_early] at hd
  split at hd
  · cases hd
    exact ⟨ha, hu⟩
  · exact hv y d hd

/-- What the node declares has been made. -/
structure Provides (F : Facts) (ρ : Scope) (s : TypeChecker) (t : Ast Addr k) : Prop where
  vars : ∀ x d, (ρ.after t).early x = some d →
    ρ.early x = some d ∨ F.tree.varDec d ≠ none ∧ (s.types d).isSome = true
  funs : ∀ x d, (ρ.after t).funs x = some d →
    ρ.funs x = some d ∨ (s.heap.functions d).isSome = true
  types : ∀ x d, (ρ.after t).types x = some d →
    ρ.types x = some d ∨ (s.heap.nameds d).isSome = true ∧ ∀ b y a gs,
      F.tree.typeDec d = some (.typeDec b y (.recordTy a gs)) → (s.types a).isSome = true

theorem Provides.of_not_declares (hk : k.declares = false) : Provides F ρ s t := by
  refine ⟨fun x d hd => .inl ?_, fun x d hd => .inl ?_, fun x d hd => .inl ?_⟩
  all_goals rwa [after_of_not_declares hk] at hd

theorem Provides.grows (h : Provides F ρ s t) (hg : Grows s s') : Provides F ρ s' t where
  vars x d hd := (h.vars x d hd).imp_right (And.imp_right (hg.types d))
  funs x d hd := (h.funs x d hd).imp_right (hg.functions d)
  types x d hd := (h.types x d hd).imp_right fun h =>
    ⟨hg.nameds d h.1, fun b y a gs he => hg.types a (h.2 b y a gs he)⟩

theorem View.after (h : View F ρ s P) (hs : ρ.aside = false → Provides F ρ s t) :
    View F (ρ.after t) s P := by
  intro ha
  rw [after_aside] at ha
  obtain ⟨hv, hf, ht, hb⟩ := h ha
  obtain ⟨hv', hf', ht'⟩ := hs ha
  refine ⟨fun x d hd => ?_, fun x d hd => ?_, fun x d hd => ?_, fun x d hd b y a gs he => ?_⟩
  · exact (hv' x d hd).elim (hv x d) fun h => ⟨h.1, .inl h.2⟩
  · exact (hf' x d hd).elim (hf x d) id
  · exact (ht' x d hd).elim (ht x d) And.left
  · exact (ht' x d hd).elim (fun hd => hb x d hd b y a gs he) fun h => h.2 b y a gs he

/-! ## Places the checker can run on -/

theorem mem_reached_self {counted : Addr → Nat → Bool} (t : Ast Addr k) :
    ⟨k, t⟩ ∈ t.reached counted := by
  cases t <;> exact List.mem_cons_self

/-- Outside the places that lie aside the type of a node does not stay null. -/
theorem typable_of_visitBound {f : Addr → Option Addr} {t : Ast Addr k}
    (h : ρ.Everywhere (Binder.VisitBound f) t) (ha : ρ.aside = false)
    (hd : ∀ a x, ⟨.varDec, .varDec a x .none .none⟩ ∉ t.subterms) : ¬ Untypable f t := by
  have hpart {i j : Kind} {t : Ast Addr i} {e : Ast Addr j} (he : ⟨j, e⟩ ∈ t.subterms)
      (hd : ∀ a x, ⟨.varDec, .varDec a x .none .none⟩ ∉ t.subterms) :
      ∀ a x, ⟨.varDec, .varDec a x .none .none⟩ ∉ e.subterms :=
    fun a x hm => hd a x (Ast.subterms_subset he hm)
  induction t generalizing ρ with
  | cons y ys ihy ihys =>
    rintro (hu | ⟨-, hu⟩)
    · exact ihys h.2 ((after_aside ρ y).trans ha) (hpart (Ast.mem_second rfl) hd) hu
    · exact ihy h.1 ha (hpart (Ast.mem_first rfl) hd) hu
  | some y ih | ofVar y ih | ofNameTy y ih => exact ih h ha (hpart (Ast.mem_first rfl) hd)
  | seqExp a es ih => exact ih h.2 ha (hpart (Ast.mem_first rfl) hd)
  | letExp a cs body ihc ihb =>
    exact ihb h.2.2 ((after_aside ρ cs).trans ha) (hpart (Ast.mem_second rfl) hd)
  | simpleVar a x =>
    intro hu
    simp only [Everywhere, Binder.VisitBound, ha] at h
    obtain ⟨d, hf, -⟩ := h
    cases hf.symm.trans hu
  | nameTy a x =>
    rintro ⟨hx, hu⟩
    simp only [Everywhere, Binder.VisitBound, ha] at h
    rw [h.2 hu] at hx
    cases hx
  | varDec a x n i ihn ihi =>
    rintro (hu | ⟨hn, hu | hi⟩)
    · exact ihn h.2.1 ha (hpart (Ast.mem_first rfl) hd) hu
    · exact ihi h.2.2 ha (hpart (Ast.mem_second rfl) hd) hu
    · cases n with
      | some n => cases hn
      | none =>
        cases i with
        | some i => cases hi
        | none => exact hd a x (Ast.mem_subterms_self _)
  | _ => exact id

/-- The formals of a function are declared with a type and nothing else. -/
def PlainFormals (program : Ast Addr .chunkList) : Prop :=
  ∀ a x c fs r b, ⟨.functionDec, .functionDec a x (.varChunk c fs) r b⟩ ∈ program.subterms →
    ∀ d ∈ fs.toList, ∃ e y t, d = .varDec e y (.some t) .none

/-- A part of the program in its scope, on which the checker can run. -/
structure Place (F : Facts) (program : Ast Addr .chunkList) (ρ : Scope) (t : Ast Addr k) : Prop
    extends Runnable F t where
  mem : ⟨k, t⟩ ∈ program.subterms
  bound : ρ.Everywhere (Binder.VisitBound F.tree.defs) t

/-- The types the method of the node follows are set. -/
theorem Place.typable (h : Place F program ρ t) {c : Σ k, Ast Addr k}
    (hc : c ∈ derefs F.counted t) : ¬ Untypable F.tree.defs c.2 :=
  (h.followed ⟨k, t⟩ (mem_reached_self t)).types c hc

/-- The parts of a reached part are reached. -/
theorem reached_subset_of_mem {counted : Addr → Nat → Bool} {t : Ast Addr k} {e : Ast Addr j}
    (h : ⟨j, e⟩ ∈ t.reached counted) : e.reached counted ⊆ t.reached counted := by
  induction t with
  | nil | none | simpleVar | nilExp | intExp | stringExp | breakExp | nameTy =>
    cases List.mem_singleton.mp h
    exact List.Subset.refl _
  | callExp a x args ih =>
    refine Ast.subset_of_mem_cons h (by rintro ⟨⟩; rfl) fun h => ?_
    split at h
    · rename_i hc
      rw [if_pos hc]
      exact ih h
    · cases h
  | some _ ih | ofVar _ ih | ofNameTy _ ih | ofVarChunk _ ih | fieldVar _ _ _ ih | seqExp _ _ ih
  | recordTy _ _ ih | arrayTy _ _ ih | field _ _ _ ih | fieldInit _ _ _ ih | typeDec _ _ _ ih
  | varChunk _ _ ih | functionChunk _ _ ih | typeChunk _ _ ih | chunkList _ _ ih =>
    exact Ast.subset_of_mem_cons h (by rintro ⟨⟩; rfl) ih
  | cons _ _ ih₁ ih₂ | subscriptVar _ _ _ ih₁ ih₂ | opExp _ _ _ _ ih₁ ih₂ | recordExp _ _ _ ih₁ ih₂
  | assignExp _ _ _ ih₁ ih₂ | whileExp _ _ _ ih₁ ih₂ | letExp _ _ _ ih₁ ih₂
  | castExp _ _ _ ih₁ ih₂ | varDec _ _ _ _ ih₁ ih₂ =>
    exact Ast.subset_of_mem_cons h (by rintro ⟨⟩; rfl) (Ast.subset_of_mem_append · ih₁ ih₂)
  | ifExp _ _ _ _ ih₁ ih₂ ih₃ | forExp _ _ _ _ ih₁ ih₂ ih₃ | arrayExp _ _ _ _ ih₁ ih₂ ih₃
  | functionDec _ _ _ _ _ ih₁ ih₂ ih₃ =>
    exact Ast.subset_of_mem_cons h (by rintro ⟨⟩; rfl)
      (Ast.subset_of_mem_append · (Ast.subset_of_mem_append · ih₁ ih₂) ih₃)

/-- The elements of a collection that is reached are. -/
theorem mem_reached_of_mem {counted : Addr → Nat → Bool} {x : Ast Addr k} :
    {xs : Ast Addr (.list k)} → x ∈ xs.toList → ⟨k, x⟩ ∈ xs.reached counted
  | .nil, h => by simp at h
  | .cons y ys, h => by
    rw [Ast.toList_cons, List.mem_cons] at h
    rcases h with rfl | h
    · exact .tail _ (List.mem_append_left _ (mem_reached_self x))
    · exact .tail _ (List.mem_append_right _ (mem_reached_of_mem h))

/-- The node is no call with a wrong number of arguments. -/
def Counts (F : Facts) : {k : Kind} → Ast Addr k → Bool
  | _, .callExp a _ args => F.counted a args.toList.length
  | _, _ => true

theorem mem_reached_of_mem_members {t : Ast Addr k} {c : Σ k, Ast Addr k} (h : c ∈ t.members)
    (hc : Counts F t = true) : c ∈ t.reached F.counted := by
  cases t <;> simp only [Ast.members, List.mem_cons, List.not_mem_nil, or_false] at h
  case callExp a x args =>
    subst h
    simp only [Counts] at hc
    simp only [Ast.reached, hc, if_true]
    exact .tail _ (mem_reached_self args)
  all_goals first
    | (subst h; exact .tail _ (mem_reached_self _))
    | (rcases h with rfl | rfl
       · exact .tail _ (List.mem_append_left _ (mem_reached_self _))
       · exact .tail _ (List.mem_append_right _ (mem_reached_self _)))
    | (rcases h with rfl | rfl | rfl
       · exact .tail _ (List.mem_append_left _ (List.mem_append_left _ (mem_reached_self _)))
       · exact .tail _ (List.mem_append_left _ (List.mem_append_right _ (mem_reached_self _)))
       · exact .tail _ (List.mem_append_right _ (mem_reached_self _)))

/-- The parts of a member are fewer. -/
theorem length_lt_of_mem_members {t : Ast Addr k} {c : Σ k, Ast Addr k} (h : c ∈ t.members) :
    c.2.subterms.length < t.subterms.length := by
  cases t <;> simp only [Ast.members, List.mem_cons, List.not_mem_nil, or_false] at h
  all_goals first
    | (subst h; simp only [Ast.subterms, List.length_cons]; omega)
    | (rcases h with rfl | rfl <;>
        simp only [Ast.subterms, List.length_cons, List.length_append] <;> omega)
    | (rcases h with rfl | rfl | rfl <;>
        simp only [Ast.subterms, List.length_cons, List.length_append] <;> omega)

theorem length_le_of_mem_subterms {t : Ast Addr k} {c : Σ k, Ast Addr k} (h : c ∈ t.subterms) :
    c.2.subterms.length ≤ t.subterms.length := by
  induction t with
  | _ =>
    simp only [Ast.subterms, List.mem_cons, List.mem_append, List.not_mem_nil, or_false] at h
    simp only [Ast.subterms, List.length_cons, List.length_append, List.length_nil]
    grind [Ast.subterms]

/-- The part is reached through a member of the node. -/
def Below (F : Facts) (t : Ast Addr k) (e : Ast Addr j) : Prop :=
  Counts F t = true ∧ ∃ m ∈ t.members, ⟨j, e⟩ ∈ m.2.reached F.counted

theorem Below.subset {e : Ast Addr j} (h : Below F t e) :
    e.reached F.counted ⊆ t.reached F.counted := by
  obtain ⟨hc, m, hm, he⟩ := h
  exact List.Subset.trans (reached_subset_of_mem he)
    (reached_subset_of_mem (mem_reached_of_mem_members hm hc))

theorem Below.mem {e : Ast Addr j} (h : Below F t e) : ⟨j, e⟩ ∈ t.subterms := by
  obtain ⟨-, m, hm, he⟩ := h
  exact Ast.subterms_subset (Ast.mem_of_mem_members hm) (reached_subset _ _ he)

theorem Below.length_lt {e : Ast Addr j} (h : Below F t e) :
    e.subterms.length < t.subterms.length := by
  obtain ⟨-, m, hm, he⟩ := h
  have hle := length_le_of_mem_subterms (reached_subset _ _ he)
  exact Nat.lt_of_le_of_lt hle (length_lt_of_mem_members hm)

theorem Place.below {e : Ast Addr j} (h : Place F program ρ t) (he : Below F t e)
    (hb : σ.Everywhere (Binder.VisitBound F.tree.defs) e) : Place F program σ e where
  noSelfUse v hv := h.noSelfUse v (he.subset hv)
  followed c hc := h.followed c (he.subset hc)
  mem := Ast.subterms_subset h.mem he.mem
  bound := hb

theorem Below.trans {d : Ast Addr j} {i : Kind} {e : Ast Addr i} (h : Below F t d)
    (h' : Below F d e) : Below F t e := by
  obtain ⟨hc, m, hm, hd⟩ := h
  obtain ⟨hc', m', hm', he⟩ := h'
  refine ⟨hc, m, hm, reached_subset_of_mem hd ?_⟩
  exact reached_subset_of_mem (mem_reached_of_mem_members hm' hc') he

end TypeChecker

end TigerCompiler
