import TigerCompiler.Ast.DefaultVisitor
import TigerCompiler.Type.Inversion
import TigerCompiler.Type.Typed
import Mathlib.Data.List.Perm.Subperm

/-!
# Checks of bound programs

The visit of a node of a correctly bound program, with or without errors: it gives every node a
type, goes over all its parts but the arguments of the calls with a wrong number of them, and
reports errors of its nodes only (`Logs`): each assignment to the variable of a loop it goes over,
each loop from nil, and nothing for a nil elsewhere.  `operator()(ForExp)` puts its
`VarDec` into `var_read_only_` once the bounds are checked, and nothing takes it out again; as a
variable is only seen in the body of its loop, an assignment finds it there exactly when it is one
(`Open`).
-/

namespace TigerCompiler

namespace Ast

/-- The parts of a tree without the arguments of the calls that are not `counted`. -/
def reached (counted : Addr → Nat → Bool) : {k : Kind} → Ast Addr k → List (Σ k, Ast Addr k)
  | _, t@.nil => [⟨_, t⟩]
  | _, t@(.cons x xs) => ⟨_, t⟩ :: (x.reached counted ++ xs.reached counted)
  | _, t@.none => [⟨_, t⟩]
  | _, t@(.some x) => ⟨_, t⟩ :: x.reached counted
  | _, t@(.simpleVar _ _) => [⟨_, t⟩]
  | _, t@(.fieldVar _ v _) => ⟨_, t⟩ :: v.reached counted
  | _, t@(.subscriptVar _ v i) => ⟨_, t⟩ :: (v.reached counted ++ i.reached counted)
  | _, t@(.ofVar v) => ⟨_, t⟩ :: v.reached counted
  | _, t@(.nilExp _) => [⟨_, t⟩]
  | _, t@(.intExp _ _) => [⟨_, t⟩]
  | _, t@(.stringExp _ _) => [⟨_, t⟩]
  | _, t@(.callExp a _ args) =>
    ⟨_, t⟩ :: if counted a args.toList.length then args.reached counted else []
  | _, t@(.opExp _ l _ r) => ⟨_, t⟩ :: (l.reached counted ++ r.reached counted)
  | _, t@(.recordExp _ n fs) => ⟨_, t⟩ :: (n.reached counted ++ fs.reached counted)
  | _, t@(.seqExp _ es) => ⟨_, t⟩ :: es.reached counted
  | _, t@(.assignExp _ v e) => ⟨_, t⟩ :: (v.reached counted ++ e.reached counted)
  | _, t@(.ifExp _ c th el) =>
    ⟨_, t⟩ :: (c.reached counted ++ th.reached counted ++ el.reached counted)
  | _, t@(.whileExp _ c b) => ⟨_, t⟩ :: (c.reached counted ++ b.reached counted)
  | _, t@(.forExp _ d h b) =>
    ⟨_, t⟩ :: (d.reached counted ++ h.reached counted ++ b.reached counted)
  | _, t@(.breakExp _) => [⟨_, t⟩]
  | _, t@(.letExp _ cs b) => ⟨_, t⟩ :: (cs.reached counted ++ b.reached counted)
  | _, t@(.arrayExp _ n s i) =>
    ⟨_, t⟩ :: (n.reached counted ++ s.reached counted ++ i.reached counted)
  | _, t@(.castExp _ e ty) => ⟨_, t⟩ :: (e.reached counted ++ ty.reached counted)
  | _, t@(.nameTy _ _) => [⟨_, t⟩]
  | _, t@(.ofNameTy n) => ⟨_, t⟩ :: n.reached counted
  | _, t@(.recordTy _ fs) => ⟨_, t⟩ :: fs.reached counted
  | _, t@(.arrayTy _ n) => ⟨_, t⟩ :: n.reached counted
  | _, t@(.field _ _ n) => ⟨_, t⟩ :: n.reached counted
  | _, t@(.fieldInit _ _ i) => ⟨_, t⟩ :: i.reached counted
  | _, t@(.varDec _ _ n i) => ⟨_, t⟩ :: (n.reached counted ++ i.reached counted)
  | _, t@(.functionDec _ _ fs r b) =>
    ⟨_, t⟩ :: (fs.reached counted ++ r.reached counted ++ b.reached counted)
  | _, t@(.typeDec _ _ ty) => ⟨_, t⟩ :: ty.reached counted
  | _, t@(.varChunk _ ds) => ⟨_, t⟩ :: ds.reached counted
  | _, t@(.ofVarChunk c) => ⟨_, t⟩ :: c.reached counted
  | _, t@(.functionChunk _ ds) => ⟨_, t⟩ :: ds.reached counted
  | _, t@(.typeChunk _ ds) => ⟨_, t⟩ :: ds.reached counted
  | _, t@(.chunkList _ cs) => ⟨_, t⟩ :: cs.reached counted

theorem subterms_eq_cons {k : Kind} (t : Ast Addr k) : ∃ cs, t.subterms = ⟨k, t⟩ :: cs := by
  cases t <;> exact ⟨_, rfl⟩

end Ast

attribute [local simp] Ast.reached

/-- The `VarDec` at `d` is that of a loop of the program. -/
def IsLoopVar (program : Ast Addr .chunkList) (d : Addr) : Prop :=
  ∃ a v hi b, ⟨.exp, .forExp a v hi b⟩ ∈ program.subterms ∧ v.varAddr = d

namespace TypeChecker

/-- What the checker knows of a program before it runs: the tree, which variables are those of
loops, and how many formals the function at an address has. -/
structure Facts where
  tree : Tree
  loop : Addr → Prop
  arity : Addr → Option Nat

/-- The number of arguments is that of the formals. -/
def Facts.counted (F : Facts) (a : Addr) (args : Nat) : Bool :=
  (F.tree.defs a).bind F.arity = some args

variable {F : Facts} {j k : Kind} {ρ σ : Scope} {s s' s₁ s₂ : TypeChecker} {a : Addr} {n : Nat}

/-- What the parts of a program are, given what is known of it: a variable has a type or an
initialiser, and no `VarDec` of a chunk or among the formals is that of a loop. -/
def Facts.Allows (F : Facts) : (Σ k, Ast Addr k) → Prop
  | ⟨_, .castExp _ _ _⟩ => False
  | ⟨_, .varDec _ _ .none .none⟩ => False
  | ⟨_, .forExp _ d _ _⟩ => F.loop d.varAddr
  | ⟨_, .varChunk _ ds⟩ => ∀ d ∈ ds.toList, ¬ F.loop d.varAddr
  | ⟨_, .functionDec a _ (.varChunk _ fs) _ _⟩ => F.arity a = some fs.toList.length
  | _ => True

/-- A node in its scope, in a program the facts are about. -/
structure Fit (F : Facts) (ρ : Scope) (t : Ast Addr k) : Prop where
  bound : ρ.Everywhere (LexicallyBound F.tree.defs) t
  allowed : ∀ c ∈ t.subterms, F.Allows c

theorem Fit.child {t : Ast Addr k} {e : Ast Addr j} (h : Fit F ρ t)
    (hb : σ.Everywhere (LexicallyBound F.tree.defs) e) (he : ⟨j, e⟩ ∈ t.subterms) : Fit F σ e :=
  ⟨hb, fun c hc => h.allowed c (Ast.subterms_subset he hc)⟩

theorem Fit.ofSome {e : Ast Addr j} (h : Fit F ρ (.some e)) : Fit F ρ e :=
  h.child (e := e) h.bound (Ast.mem_first rfl)

/-! ## Updates -/

/-- The part is an assignment at `a` to the variable of a loop. -/
def Facts.IsUpdate (F : Facts) (a : Addr) : (Σ k, Ast Addr k) → Prop
  | ⟨.exp, .assignExp b (.simpleVar u _) _⟩ => b = a ∧ ∃ d, F.tree.defs u = some d ∧ F.loop d
  | _ => False

/-- One of the parts is. -/
def Facts.Updates (F : Facts) (P : List (Σ k, Ast Addr k)) (a : Addr) : Prop :=
  ∃ c ∈ P, F.IsUpdate a c

/-! ## Parts that are told of -/

/-- The part is an assignment, an operation, a loop or the declaration of a variable. -/
def Tracked : (Σ k, Ast Addr k) → Bool
  | ⟨_, .assignExp _ _ _⟩ => true
  | ⟨_, .opExp _ _ _ _⟩ => true
  | ⟨_, .forExp _ _ _ _⟩ => true
  | ⟨_, .varDec _ _ _ _⟩ => true
  | _ => false

/-- The part is one of them. -/
def Met (P : List (Σ k, Ast Addr k)) (c : Σ k, Ast Addr k) : Prop := c ∈ P ∧ Tracked c = true

variable {P Q : List (Σ k, Ast Addr k)} {c : Σ k, Ast Addr k}

@[simp] theorem met_nil : ¬ Met [] c := fun h => nomatch h.1

@[simp] theorem met_append : Met (P ++ Q) c ↔ Met P c ∨ Met Q c := by
  simp only [Met, List.mem_append, or_and_right]

theorem met_cons {p : Σ k, Ast Addr k} :
    Met (p :: P) c ↔ c = p ∧ Tracked p = true ∨ Met P c := by
  simp only [Met, List.mem_cons, or_and_right]
  exact or_congr_left (and_congr_right fun h => by rw [h])

theorem tracked_of_isUpdate (h : F.IsUpdate a c) : Tracked c = true := by
  obtain ⟨k, t⟩ := c
  cases t <;> first | rfl | exact h.elim

/-- What the reports `rs` of a run tell of a part it has gone over: an equality of two nils is not
reported, a variable that is declared with nil is when it is that of a loop, and else a declaration
without a type is not. -/
def Facts.Settled (F : Facts) (s : TypeChecker) (rs : List Report) : (Σ k, Ast Addr k) → Prop
  | ⟨_, .opExp a l op r⟩ => op = .eq ∨ op = .ne → s.typeGet l = some .nil →
      s.typeGet r = some .nil → ∀ x t y u, .mismatch a x t y u ∉ rs
  | ⟨_, .forExp _ (.varDec d _ .none (.some init)) _ _⟩ =>
      s.typeGet init = some .nil → ∃ r ∈ rs, r.node = d
  | ⟨_, .varDec d _ .none _⟩ => ¬ F.loop d → ∀ r ∈ rs, r.node ≠ d
  | _ => True

theorem settled_of_not_tracked {rs : List Report} (h : Tracked c = false) : F.Settled s rs c := by
  obtain ⟨k, t⟩ := c
  cases t <;> trivial

/-- What was told of a part stays so as long as its nodes keep their types and get no report. -/
theorem Facts.Settled.mono {rs qs : List Report} (h : F.Settled s rs c)
    (ht : ∀ b ∈ c.2.nodes, s'.types b = s.types b) (hsub : rs ⊆ qs)
    (hr : ∀ r ∈ qs, r.node ∈ c.2.nodes → r ∈ rs) : F.Settled s' qs c := by
  obtain ⟨k, t⟩ := c
  have hget {i : Ast Addr .exp} (hi : i.nodes ⊆ t.nodes) : s'.typeGet i = s.typeGet i :=
    ht _ (hi (addr_mem_nodes rfl))
  cases t with
  | opExp a l op r =>
    intro ho hl hrt x t y u hmem
    rw [hget (by simp [Ast.nodes])] at hl hrt
    exact h ho hl hrt x t y u (hr _ hmem (.head _))
  | forExp a d hi b =>
    cases d with
    | varDec d x ty i =>
      cases ty with
      | none =>
        cases i with
        | none => trivial
        | some i =>
          intro hnil
          rw [hget fun _ hb => by simp [Ast.nodes, hb]] at hnil
          obtain ⟨r, hmem, hd⟩ := h hnil
          exact ⟨r, hsub hmem, hd⟩
      | some ty => trivial
  | varDec d x ty i =>
    cases ty with
    | none => exact fun hl r hmem hd => h hl r (hr r hmem (hd ▸ .head _)) hd
    | some ty => trivial
  | _ => trivial

/-! ## Runs -/

/-- What is known of a state of the checker. -/
structure Sound (F : Facts) (s : TypeChecker) : Prop where
  readOnly : ∀ d ∈ s.readOnly, F.loop d
  functions : ∀ a fs r, s.heap.functions a = some (fs, r) → F.arity a = some fs.length

/-- The reports `rs` of a run are about the nodes `N`; they are those of the updates among the
parts `P`, and others. -/
structure Logs (F : Facts) (N : List Addr) (P : List (Σ k, Ast Addr k)) (s : TypeChecker)
    (rs : List Report) : Prop where
  node : ∀ r ∈ rs, r.node ∈ N
  updates : ∀ a, readOnlyError a ∈ rs ↔ F.Updates P a
  settled : ∀ c ∈ P, F.Settled s rs c

/-- A run sets the types of the nodes `N` only, takes nothing back, and tells of the parts `P`. -/
structure Runs (F : Facts) (N : List Addr) (P : List (Σ k, Ast Addr k)) (s s' : TypeChecker) :
    Prop where
  types : ∀ a, a ∉ N → s'.types a = s.types a
  typed : ∀ a, (s.types a).isSome = true → (s'.types a).isSome = true
  nameds : ∀ a, (s.heap.nameds a).isSome = true → (s'.heap.nameds a).isSome = true
  readOnly : ∀ d ∈ s.readOnly, d ∈ s'.readOnly
  sound : Sound F s → Sound F s'
  errors : ∃ rs, s'.errors = s.errors ++ rs ∧ Logs F N P s' rs

variable {N M : List Addr}

theorem not_updates_nil : ¬ F.Updates [] a := by
  rintro ⟨c, hc, -⟩
  cases hc

theorem Logs.nil (N : List Addr) (s : TypeChecker) : Logs F N [] s [] where
  node := List.forall_mem_nil _
  updates _ := iff_of_false List.not_mem_nil not_updates_nil
  settled := List.forall_mem_nil _

theorem not_mem_singleton (h : a ∉ N) : ∀ b ∈ N, b ∉ [a] :=
  fun _ hb hba => h (List.mem_singleton.mp hba ▸ hb)

theorem Own.runs (h : Own a s s') : Runs F [a] [] s s' where
  types b hb := h.types b (by simpa using hb)
  typed := h.typed
  nameds := h.nameds
  readOnly d hd := by rwa [h.readOnly]
  sound hs := ⟨by rw [h.readOnly]; exact hs.readOnly, by rw [h.functions]; exact hs.functions⟩
  errors := by
    obtain ⟨rs, hrs, hr⟩ := h.errors
    refine ⟨rs, hrs, fun r hr' => by simp [(hr r hr').1], fun b => ?_,
      List.forall_mem_nil _⟩
    exact iff_of_false (fun hb => (hr _ hb).2 b rfl) not_updates_nil

theorem Runs.refl (N : List Addr) (s : TypeChecker) : Runs F N [] s s where
  types _ _ := rfl
  typed _ h := h
  nameds _ h := h
  readOnly _ h := h
  sound h := h
  errors := ⟨[], by simp, .nil N s⟩

/-- What is told of the parts does not depend on the nodes. -/
def Apart (F : Facts) (P : List (Σ k, Ast Addr k)) (N : List Addr) : Prop :=
  ∀ c ∈ P, (∀ s rs, F.Settled s rs c) ∨ ∀ b ∈ c.2.nodes, b ∉ N

theorem Apart.nil (N : List Addr) : Apart F [] N := nofun

theorem Apart.append (h : Apart F P N) (h' : Apart F Q N) : Apart F (P ++ Q) N :=
  List.forall_mem_append.mpr ⟨h, h'⟩

theorem Runs.trans (h : Runs F N P s s₁) (h' : Runs F M Q s₁ s₂) (hP : Apart F P M)
    (hQ : Apart F Q N) : Runs F (N ++ M) (P ++ Q) s s₂ where
  types a ha := by
    rw [List.mem_append, not_or] at ha
    rw [h'.types a ha.2, h.types a ha.1]
  typed a ha := h'.typed a (h.typed a ha)
  nameds a ha := h'.nameds a (h.nameds a ha)
  readOnly d hd := h'.readOnly d (h.readOnly d hd)
  sound hs := h'.sound (h.sound hs)
  errors := by
    obtain ⟨rs, hrs, hr⟩ := h.errors
    obtain ⟨qs, hqs, hq⟩ := h'.errors
    refine ⟨rs ++ qs, by rw [hqs, hrs, List.append_assoc], fun r hmem => ?_, fun a => ?_, ?_⟩
    · exact List.mem_append.mpr ((List.mem_append.mp hmem).imp (hr.node r) (hq.node r))
    · rw [List.mem_append, hr.updates, hq.updates]
      simp only [Facts.Updates, List.mem_append, or_and_right, exists_or]
    · refine List.forall_mem_append.mpr ⟨fun c hc => ?_, fun c hc => ?_⟩
      · rcases hP c hc with hall | hM
        · exact hall ..
        · refine (hr.settled c hc).mono (fun b hb => h'.types b (hM b hb))
            (List.subset_append_left ..) fun r hmem hb => ?_
          exact (List.mem_append.mp hmem).resolve_right fun hmem => hM _ hb (hq.node r hmem)
      · rcases hQ c hc with hall | hN
        · exact hall ..
        · refine (hq.settled c hc).mono (fun _ _ => rfl) (List.subset_append_right ..)
            fun r hmem hb => ?_
          exact (List.mem_append.mp hmem).resolve_left fun hmem => hN _ hb (hr.node r hmem)

/-- A last step of the node `a` itself. -/
theorem Runs.step (h : Runs F N P s s₁) (ho : Own a s₁ s₂) (ha : Apart F P [a]) :
    Runs F (N ++ [a]) P s s₂ := by
  simpa using h.trans ho.runs ha (.nil N)

theorem Runs.congr (h : Runs F N P s s') (hn : N ⊆ M) (hp : ∀ c, Met P c ↔ Met Q c) :
    Runs F M Q s s' where
  types a ha := h.types a fun hN => ha (hn hN)
  typed := h.typed
  nameds := h.nameds
  readOnly := h.readOnly
  sound := h.sound
  errors := by
    have hupdates {a : Addr} {P Q : List (Σ k, Ast Addr k)} (hp : ∀ c, Met P c → Met Q c) :
        F.Updates P a → F.Updates Q a := fun ⟨c, hc, hu⟩ =>
      ⟨c, (hp c ⟨hc, tracked_of_isUpdate hu⟩).1, hu⟩
    obtain ⟨rs, hrs, hr⟩ := h.errors
    refine ⟨rs, hrs, fun r hmem => hn (hr.node r hmem), fun a => (hr.updates a).trans ?_,
      fun c hc => ?_⟩
    · exact ⟨hupdates fun c => (hp c).mp, hupdates fun c => (hp c).mpr⟩
    · cases ht : Tracked c with
      | false => exact settled_of_not_tracked ht
      | true => exact hr.settled c ((hp c).mpr ⟨hc, ht⟩).1

/-- One more part that is told of. -/
theorem Runs.add (h : Runs F N P s s') (hu : ∀ a, ¬ F.IsUpdate a c)
    (hc : ∀ rs, s'.errors = s.errors ++ rs → F.Settled s' rs c) : Runs F N (c :: P) s s' := by
  refine { h with errors := ?_ }
  obtain ⟨rs, hrs, hr⟩ := h.errors
  refine ⟨rs, hrs, hr.node, fun a => ?_, List.forall_mem_cons.mpr ⟨hc rs hrs, hr.settled⟩⟩
  rw [hr.updates]
  simp [Facts.Updates, hu]

/-- The visible variables have their types, those of loops are read-only, and the visible types
are created. -/
structure Open (F : Facts) (ρ : Scope) (s : TypeChecker) : Prop extends Ready ρ s where
  loops : ∀ x d, ρ.vars x = some d → F.loop d → d ∈ s.readOnly

theorem Open.congr (h : Open F ρ s) (hv : σ.vars = ρ.vars) (ht : σ.types = ρ.types) :
    Open F σ s where
  toReady := h.toReady.congr hv ht
  loops x d hd := h.loops x d (hv ▸ hd)

theorem Open.runs (h : Open F ρ s) (hr : Runs F N P s s') : Open F ρ s' where
  vars x d hd := hr.typed d (h.vars x d hd)
  types x d hd := hr.nameds d (h.types x d hd)
  loops x d hd hl := hr.readOnly d (h.loops x d hd hl)

/-- The scope after a variable that has its type, and is read-only if it is that of a loop. -/
theorem Open.varDec {d : Ast Addr .varDec} (h : Open F ρ s) (hd : (s.typeGet d).isSome = true)
    (hl : F.loop d.varAddr → d.varAddr ∈ s.readOnly) : Open F (ρ.after d) s := by
  cases d with
  | varDec a x t i =>
    refine ⟨⟨fun y b hb => ?_, h.types⟩, fun y b hb hloop => ?_⟩
    all_goals
      simp only [Scope.after, Scope.putVar, Function.update_apply] at hb
      split at hb
    · cases hb
      exact hd
    · exact h.vars y b hb
    · cases hb
      exact hl hloop
    · exact h.loops y b hb hloop

/-- What a visit of the nodes `N` starts from. -/
structure Entry (F : Facts) (ρ : Scope) (N : List Addr) (s : TypeChecker) : Prop where
  opens : Open F ρ s
  sound : Sound F s
  untyped : ∀ a ∈ N, s.types a = none
  nodup : N.Nodup

theorem Entry.congr (h : Entry F ρ N s) (hv : σ.vars = ρ.vars) (ht : σ.types = ρ.types) :
    Entry F σ N s := ⟨h.opens.congr hv ht, h.sound, h.untyped, h.nodup⟩

theorem Entry.sub (h : Entry F ρ N s) (hm : List.Subperm M N) : Entry F ρ M s where
  opens := h.opens
  sound := h.sound
  untyped a ha := h.untyped a (hm.subset ha)
  nodup := by
    obtain ⟨l, hl, hs⟩ := hm
    exact hl.nodup_iff.mp (h.nodup.sublist hs)

theorem Entry.left (h : Entry F ρ (N ++ M) s) : Entry F ρ N s :=
  h.sub (List.sublist_append_left ..).subperm

/-- A run over other nodes. -/
theorem Entry.avoid (h : Entry F ρ M s) (hr : Runs F N P s s') (hd : ∀ a ∈ M, a ∉ N) :
    Entry F ρ M s' where
  opens := h.opens.runs hr
  sound := hr.sound h.sound
  untyped a ha := (hr.types a (hd a ha)).trans (h.untyped a ha)
  nodup := h.nodup

/-- What is left after a run over the first nodes. -/
theorem Entry.next (h : Entry F ρ (N ++ M) s) (hr : Runs F N P s s') : Entry F ρ M s' :=
  (h.sub (List.sublist_append_right ..).subperm).avoid hr fun _ ha hN =>
    List.disjoint_of_nodup_append h.nodup hN ha

/-! ## Nodes gone over one after the other -/

/-- The classes of nodes that get a type. -/
def GetsType : Kind → Bool
  | .exp | .var | .ty | .nameTy | .varDec => true
  | _ => false

/-- What the visit of a node leaves behind. -/
structure Checked (F : Facts) (ρ : Scope) (t : Ast Addr k) (s s' : TypeChecker) : Prop where
  runs : Runs F t.nodes (t.reached F.counted) s s'
  typed : GetsType k = true → (s'.typeGet t).isSome = true
  opens : GetsType k = false → Open F (ρ.after t) s'

/-- With fuel for `n` calls every node is checked that is visited in its scope. -/
def Checks (F : Facts) (n : Nat) : Prop :=
  ∀ ⦃k : Kind⦄ (t : Ast Addr k) ρ s s', HasMethod k = true → Fit F ρ t → Entry F ρ t.nodes s →
    accept F.tree n t s = .ok s' → Checked F ρ t s s'

/-- The nodes fit into the scope one after the other, each declaring what comes after it.  What
declares nothing may lie in a scope that differs in other things than the variables and types. -/
def Along (F : Facts) : Scope → List (Σ k, Ast Addr k) → Prop
  | _, [] => True
  | ρ, c :: es => HasMethod c.1 = true ∧
    (∃ σ, Fit F σ c.2 ∧ σ.vars = ρ.vars ∧ σ.types = ρ.types ∧ (GetsType c.1 = false → σ = ρ)) ∧
    (∀ d, c = ⟨.varDec, d⟩ → ¬ F.loop d.varAddr) ∧ Along F (ρ.after c.2) es

/-- The scope after them. -/
def afters (ρ : Scope) (es : List (Σ k, Ast Addr k)) : Scope := es.foldl (fun ρ c => ρ.after c.2) ρ

/-- The parts they reach. -/
def reachedOf (F : Facts) (es : List (Σ k, Ast Addr k)) : List (Σ k, Ast Addr k) :=
  es.flatMap fun c => c.2.reached F.counted

@[simp] theorem reachedOf_nil : reachedOf F [] = [] := rfl

@[simp] theorem reachedOf_cons (c : Σ k, Ast Addr k) (es : List (Σ k, Ast Addr k)) :
    reachedOf F (c :: es) = c.2.reached F.counted ++ reachedOf F es := rfl

variable {es : List (Σ k, Ast Addr k)} {t : Ast Addr k} {e : Ast Addr j}

/-- A node that has no type yet is visited. -/
theorem accept_of_call (hk : HasMethod j = true) (hs : Entry F ρ e.nodes s)
    (h : s.type (accept F.tree n) e = .ok s₁ ∨ accept F.tree n e s = .ok s₁) :
    accept F.tree n e s = .ok s₁ := by
  have hu : s.typeGet e = none := hs.untyped _ (addr_mem_nodes hk)
  rcases h with h | h
  · rwa [TypeChecker.type, hu] at h
  · exact h

theorem reached_subset (counted : Addr → Nat → Bool) (t : Ast Addr k) :
    t.reached counted ⊆ t.subterms := by
  induction t with
  | callExp a x args ih =>
    simp only [Ast.reached, Ast.subterms]
    split
    · exact List.cons_subset_cons _ ih
    · exact List.cons_subset_cons _ (List.nil_subset _)
  | _ =>
    simp only [Ast.reached, Ast.subterms]
    grind

theorem Apart.reached (h : ∀ b ∈ t.nodes, b ∉ N) : Apart F (t.reached F.counted) N :=
  fun _ hc => .inr fun b hb => h b (Ast.nodes_subset (reached_subset _ t hc) hb)

theorem Apart.reachedOf (h : ∀ b ∈ nodesOf es, b ∉ N) : Apart F (reachedOf F es) N := by
  intro c hc
  obtain ⟨p, hp, hc⟩ := List.mem_flatMap.mp hc
  exact Apart.reached (fun b hb => h b (List.mem_flatMap.mpr ⟨p, hp, hb⟩)) c hc

/-- A part that lives at the address of a node is the node. -/
theorem eq_of_addr_mem {c : Σ k, Ast Addr k} (hn : t.nodes.Nodup) (ht : t.isNode = true)
    (hc : c ∈ t.subterms) (ha : t.addr ∈ c.2.nodes) : c = ⟨k, t⟩ := by
  rw [Ast.nodes_eq_map, List.mem_map] at ha
  obtain ⟨d, hd, hda⟩ := ha
  rw [List.mem_filter] at hd
  have hdt := Ast.eq_of_addr_eq hn (Ast.subterms_subset hc hd.1) t.mem_subterms_self hd.2 ht hda
  subst hdt
  have heq := (Ast.subterms_sublist hc).antisymm (Ast.subterms_sublist hd.1)
  obtain ⟨cs, hcs⟩ := Ast.subterms_eq_cons c.2
  obtain ⟨ts, hts⟩ := Ast.subterms_eq_cons t
  exact (List.cons.inj (hcs.symm.trans (heq.trans hts))).1

/-- An expression or a declaration that is told of and lives at the address of one is it. -/
theorem eq_of_tracked {c : Σ k, Ast Addr k} (hk : j = .exp ∨ j = .varDec) (hn : e.nodes.Nodup)
    (hc : c ∈ e.subterms) (ht : Tracked c = true) (ha : e.addr ∈ c.2.nodes) : c = ⟨j, e⟩ := by
  have hvar {v : Ast Addr .var} (hn : v.nodes.Nodup) (hc : c ∈ v.subterms)
      (ha : v.addr ∈ c.2.nodes) : False := by
    cases v <;> (obtain rfl := eq_of_addr_mem hn rfl hc ha; cases ht)
  rcases hk with rfl | rfl
  · cases e with
    | ofVar v =>
      rcases List.mem_cons.mp hc with rfl | hc
      · rfl
      · exact (hvar hn hc ha).elim
    | _ => exact eq_of_addr_mem hn rfl hc ha
  · cases e with
    | varDec => exact eq_of_addr_mem hn rfl hc ha

/-- What was told of the parts of a node stays so when it gets the type nil, unless it is a
declaration that is not of a loop. -/
theorem settled_recover {rs : List Report} {c : Σ k, Ast Addr k} {msg : Str} {q : Culprit}
    (hk : j = .exp ∨ j = .varDec ∧ F.loop e.addr) (hn : e.nodes.Nodup)
    (hc : c ∈ e.reached F.counted) (h : F.Settled s rs c) :
    F.Settled (s.errorAndRecover e.addr msg q) (rs ++ [.error e.addr msg (some q)]) c := by
  have htypes {b : Addr} (hb : b ≠ e.addr) :
      (s.errorAndRecover e.addr msg q).types b = s.types b := Function.update_of_ne hb ..
  by_cases hmem : e.addr ∈ c.2.nodes
  · cases htr : Tracked c with
    | false => exact settled_of_not_tracked htr
    | true =>
      obtain rfl := eq_of_tracked (hk.imp_right And.left) hn (reached_subset _ e hc) htr hmem
      cases e with
      | opExp a l op r =>
        simp only [Ast.nodes, List.nodup_cons, List.mem_append, not_or] at hn
        intro ho hl hr x t y u hmem
        have hne {i : Ast Addr .exp} (hi : a ∉ i.nodes) : i.addr ≠ a :=
          fun h => hi (h ▸ addr_mem_nodes rfl)
        refine h ho ((htypes (hne hn.1.1)).symm.trans hl) ((htypes (hne hn.1.2)).symm.trans hr)
          x t y u ?_
        simpa using hmem
      | forExp a d hi b =>
        cases d with
        | varDec d x ty i =>
          cases ty with
          | none =>
            cases i with
            | none => trivial
            | some i =>
              intro hnil
              have hmem : i.addr ∈ i.nodes := addr_mem_nodes rfl
              have hne : i.addr ≠ a := fun hia =>
                (List.nodup_cons.mp hn).1 (hia ▸ by simp [Ast.nodes, hmem])
              obtain ⟨r, hr, hd⟩ := h ((htypes hne).symm.trans hnil)
              exact ⟨r, List.mem_append_left _ hr, hd⟩
          | some ty => trivial
      | varDec d x ty i =>
        rcases hk with hk | ⟨-, hloop⟩
        · cases hk
        · cases ty with
          | none => exact fun hnot => absurd hloop hnot
          | some ty => trivial
      | assignExp a v e => trivial
      | _ => cases htr
  · refine h.mono (fun b hb => htypes fun hbe => hmem (hbe ▸ hb)) (List.subset_append_left ..)
      fun r hr hb => ?_
    refine (List.mem_append.mp hr).resolve_right fun hr => hmem ?_
    rw [List.mem_singleton.mp hr] at hb
    exact hb

/-- The type nil in place of that of the node. -/
theorem Checked.recovers (h : Checked F ρ e s s₁) (hk : HasMethod j = true)
    (hn : e.nodes.Nodup) (hj : j = .exp ∨ j = .varDec ∧ F.loop e.addr)
    (ho : Recovers e.addr s₁ s₂) : Checked F ρ e s s₂ where
  runs := by
    rcases ho with rfl | ⟨msg, q, rfl⟩
    · exact h.runs
    · have ho : Own e.addr s₁ (s₁.errorAndRecover e.addr msg q) := Own.errorAndRecover
      obtain ⟨rs, hrs, hr⟩ := h.runs.errors
      refine ⟨fun a ha => ?_, fun a ha => ho.typed a (h.runs.typed a ha),
        h.runs.nameds, h.runs.readOnly, fun hs => ⟨(h.runs.sound hs).readOnly,
          (h.runs.sound hs).functions⟩, rs ++ [.error e.addr msg (some q)], ?_, ?_, ?_, ?_⟩
      · rw [ho.types a fun hae => ha (hae ▸ addr_mem_nodes hk), h.runs.types a ha]
      · simp [errorAndRecover, error, typeSet, hrs]
      · exact List.forall_mem_append.mpr ⟨hr.node, by simpa [Report.node] using addr_mem_nodes hk⟩
      · intro a
        rw [← hr.updates a, List.mem_append, or_iff_left]
        simp [readOnlyError]
      · exact fun c hc => settled_recover hj hn hc (hr.settled c hc)
  typed hk := ho.own.typed _ (h.typed hk)
  opens hk := (h.opens hk).runs (F := F) ho.own.runs

/-- The scope after a node that has been checked. -/
theorem Checked.after (h : Checked F σ e s s') (hk : HasMethod j = true) (ho : Open F ρ s)
    (hσ : GetsType j = false → σ = ρ) (hl : ∀ d, (⟨j, e⟩ : Σ k, Ast Addr k) = ⟨.varDec, d⟩ →
      ¬ F.loop d.varAddr) : Open F (ρ.after e) s' := by
  have ho' := ho.runs h.runs
  cases j
  case exp | var | ty | nameTy =>
    rw [Scope.after_of_not_declares rfl]
    exact ho'
  case varDec => exact ho'.varDec (h.typed rfl) fun hloop => absurd hloop (hl e rfl)
  case varChunk | chunk | chunkList => exact hσ rfl ▸ h.opens rfl
  all_goals cases hk

/-- **Nodes gone over one after the other.** -/
theorem Visits.runs (ih : Checks F n) (h : Visits (accept F.tree n) a es s s')
    (hes : Along F ρ es) (hs : Entry F ρ (nodesOf es) s) (ha : a ∉ nodesOf es) :
    Runs F (a :: nodesOf es) (reachedOf F es) s s' ∧
      (∀ c ∈ es, GetsType c.1 = true → (s'.typeGet c.2).isSome = true) ∧
      Open F (afters ρ es) s' := by
  induction h generalizing ρ with
  | nil s => exact ⟨Runs.refl _ s, nofun, hs.opens⟩
  | @own es s s₁ s₂ ho _ ih' =>
    have hr : Runs F [a] [] s s₁ := ho.runs
    have hs₁ : Entry F ρ (nodesOf es) s₁ := by
      refine ⟨hs.opens.runs hr, hr.sound hs.sound, fun b hb => ?_, hs.nodup⟩
      rw [ho.types b fun hba => ha (hba ▸ hb)]
      exact hs.untyped b hb
    obtain ⟨hr', ht, hopen⟩ := ih' hes hs₁ ha
    have hQ : Apart F (reachedOf F es) [a] := .reachedOf (not_mem_singleton ha)
    exact ⟨(hr.trans hr' (.nil _) hQ).congr (by simp) (by simp), ht, hopen⟩
  | @call k e es s s₁ s₂ s₃ hc ho _ ih' =>
    obtain ⟨hk, ⟨σ, hfit, hv, ht, hσ⟩, hl, hes⟩ := hes
    rw [nodesOf_cons] at hs ha
    simp only [List.mem_append, not_or] at ha
    have hcall := accept_of_call hk (hs.left.congr hv ht) hc
    have hdis := List.disjoint_of_nodup_append hs.nodup
    have hck : Checked F σ e s s₂ := by
      have hck := ih e σ s s₁ hk hfit (hs.left.congr hv ht) hcall
      rcases ho with rfl | ⟨rfl, ho⟩
      · exact hck
      · exact hck.recovers hk hs.left.nodup (.inl rfl) ho
    have hs₂ : Entry F (ρ.after e) (nodesOf es) s₂ :=
      { hs.next hck.runs with opens := hck.after hk hs.opens hσ hl }
    obtain ⟨hr, htyped, hopen⟩ := ih' hes hs₂ ha.2
    have hP : Apart F (e.reached F.counted) (a :: nodesOf es) := .reached fun b hb => by
      simpa using ⟨fun hba => ha.1 (hba ▸ hb), hdis hb⟩
    have hQ : Apart F (reachedOf F es) e.nodes := .reachedOf fun b hb he => hdis he hb
    refine ⟨(hck.runs.trans hr hP hQ).congr ?_ (by simp), fun c hc hk => ?_, hopen⟩
    · intro b hb
      simp only [List.mem_append, List.mem_cons, nodesOf_cons] at hb ⊢
      grind
    · rcases List.mem_cons.mp hc with rfl | hc
      · exact hr.typed _ (hck.typed hk)
      · exact htyped c hc hk

/-! ## Nodes that declare nothing -/

/-- A node that declares nothing, in a scope with the variables and types of `ρ`. -/
def Plain (F : Facts) (ρ : Scope) (c : Σ k, Ast Addr k) : Prop :=
  HasMethod c.1 = true ∧ c.1.declares = false ∧ GetsType c.1 = true ∧
    ∃ σ, Fit F σ c.2 ∧ σ.vars = ρ.vars ∧ σ.types = ρ.types

theorem Fit.plain (h : Fit F ρ e) (hm : HasMethod j = true) (hd : j.declares = false)
    (ht : GetsType j = true) : Plain F ρ ⟨j, e⟩ := ⟨hm, hd, ht, ρ, h, rfl, rfl⟩

theorem Along.of_plain (h : ∀ c ∈ es, Plain F ρ c) : Along F ρ es := by
  induction es with
  | nil => trivial
  | cons c es ih =>
    obtain ⟨hm, hd, ht, σ, hfit, hv, hty⟩ := h c (.head _)
    refine ⟨hm, ⟨σ, hfit, hv, hty, fun hf => absurd (ht.symm.trans hf) (by decide)⟩, ?_, ?_⟩
    · rintro d rfl
      cases hd
    · rw [Scope.after_of_not_declares hd]
      exact ih fun c hc => h c (.tail _ hc)

/-- Nodes of a node have been gone over, and a last step of its own gives it its type. -/
theorem Visits.finish {N : List Addr} (ih : Checks F n) (hv : Visits (accept F.tree n) a es s s₁)
    (hes : ∀ c ∈ es, Plain F ρ c) (hs : Entry F ρ N s) (hn : List.Subperm (a :: nodesOf es) N)
    (ho : (∀ c ∈ es, (s₁.typeGet c.2).isSome = true) → Own a s₁ s' ∧ (s'.types a).isSome = true) :
    Runs F N (reachedOf F es) s s' ∧ (s'.types a).isSome = true := by
  have hs' := hs.sub hn
  obtain ⟨hr, ht, -⟩ := hv.runs ih (.of_plain hes) (hs'.sub (List.sublist_cons_self ..).subperm)
    (List.nodup_cons.mp hs'.nodup).1
  obtain ⟨hown, hsome⟩ := ho fun c hc => ht c hc (hes c hc).2.2.1
  have ha : Apart F (reachedOf F es) [a] :=
    .reachedOf (not_mem_singleton (List.nodup_cons.mp hs'.nodup).1)
  refine ⟨(hr.step hown ha).congr (fun b hb => ?_) (by simp), hsome⟩
  simp only [List.mem_append, List.mem_singleton] at hb
  rcases hb with hb | rfl
  · exact hn.subset hb
  · exact hn.subset (.head _)

theorem Checked.of_visits (ih : Checks F n) (hk : GetsType k = true)
    (hv : Visits (accept F.tree n) t.addr es s s₁) (hes : ∀ c ∈ es, Plain F ρ c)
    (hs : Entry F ρ t.nodes s) (hn : List.Subperm (t.addr :: nodesOf es) t.nodes)
    (hp : ∀ c, Met (reachedOf F es) c ↔ Met (t.reached F.counted) c)
    (ho : (∀ c ∈ es, (s₁.typeGet c.2).isSome = true) →
      Own t.addr s₁ s' ∧ (s'.typeGet t).isSome = true) : Checked F ρ t s s' := by
  obtain ⟨hr, hsome⟩ := hv.finish ih hes hs hn ho
  exact ⟨hr.congr (fun _ h => h) hp, fun _ => hsome,
    fun hf => absurd (hk.symm.trans hf) (by decide)⟩

theorem Checked.typeSet (ih : Checks F n) {u : Option TypePtr} (hk : GetsType k = true)
    (hv : Visits (accept F.tree n) t.addr es s s₁) (hes : ∀ c ∈ es, Plain F ρ c)
    (hs : Entry F ρ t.nodes s) (hn : List.Subperm (t.addr :: nodesOf es) t.nodes)
    (hp : ∀ c, Met (reachedOf F es) c ↔ Met (t.reached F.counted) c)
    (hu : (∀ c ∈ es, (s₁.typeGet c.2).isSome = true) → u.isSome = true) :
    Checked F ρ t s (s₁.typeSet t.addr u) :=
  .of_visits ih hk hv hes hs hn hp fun h => ⟨Own.typeSet (hu h), isSome_typeSet (hu h)⟩

/-- A node that is told of itself. -/
theorem Checked.of_told (hk : GetsType k = true)
    (hr : Runs F t.nodes P s s' ∧ (s'.types t.addr).isSome = true)
    (hu : ∀ a, ¬ F.IsUpdate a ⟨k, t⟩)
    (hp : ∀ c, Met (⟨k, t⟩ :: P) c ↔ Met (t.reached F.counted) c)
    (ht : ∀ rs, s'.errors = s.errors ++ rs → F.Settled s' rs ⟨k, t⟩) : Checked F ρ t s s' :=
  ⟨(hr.1.add hu ht).congr (fun _ h => h) hp, fun _ => hr.2,
    fun hf => absurd (hk.symm.trans hf) (by decide)⟩

/-! ## Collections -/

theorem nodesOf_list : (xs : Ast Addr (.list k)) → nodesOf (xs.toList.map (⟨k, ·⟩)) = xs.nodes
  | .nil => rfl
  | .cons x xs => congrArg (x.nodes ++ ·) (nodesOf_list xs)

theorem met_list {c : Σ k, Ast Addr k} : (xs : Ast Addr (.list k)) →
    (Met (reachedOf F (xs.toList.map (⟨k, ·⟩))) c ↔ Met (xs.reached F.counted) c)
  | .nil => by simp [met_cons, Tracked]
  | .cons x xs => by
    have hxs := met_list (c := c) xs
    simp [met_cons, Tracked, hxs]

theorem nodesOf_inits : (fs : Ast Addr (.list .fieldInit)) →
    (nodesOf (fs.toList.map Visits.initOf)).Sublist fs.nodes
  | .nil => .slnil
  | .cons (.fieldInit b _ i) fs => ((List.Sublist.refl i.nodes).cons b).append (nodesOf_inits fs)

theorem met_inits {c : Σ k, Ast Addr k} : (fs : Ast Addr (.list .fieldInit)) →
    (Met (reachedOf F (fs.toList.map Visits.initOf)) c ↔ Met (fs.reached F.counted) c)
  | .nil => by simp [met_cons, Tracked]
  | .cons (.fieldInit b x i) fs => by
    have hfs := met_inits (c := c) fs
    simp [met_cons, Tracked, Visits.initOf, hfs]

/-- The nodes `typeFields` is called on for the fields of a record type. -/
def namesOf (fs : Ast Addr (.list .field)) : List (Σ k, Ast Addr k) :=
  (fieldsOf fs.toList).map fun e => ⟨.nameTy, e.2⟩

theorem nodesOf_fields : (fs : Ast Addr (.list .field)) → (nodesOf (namesOf fs)).Sublist fs.nodes
  | .nil => .slnil
  | .cons (.field b _ t) fs => ((List.Sublist.refl t.nodes).cons b).append (nodesOf_fields fs)

theorem met_fields {c : Σ k, Ast Addr k} : (fs : Ast Addr (.list .field)) →
    (Met (reachedOf F (namesOf fs)) c ↔ Met (fs.reached F.counted) c)
  | .nil => by simp [namesOf, fieldsOf, met_cons, Tracked]
  | .cons (.field b x t) fs => by
    have hcons : namesOf (.cons (.field b x t) fs) = ⟨_, t⟩ :: namesOf fs := rfl
    rw [hcons, reachedOf_cons, met_append, met_fields fs]
    simp [met_cons, Tracked]

/-- The elements of a collection that declares nothing. -/
theorem Fit.elements {xs : Ast Addr (.list k)} (h : Fit F ρ xs) (hm : HasMethod k = true)
    (hd : k.declares = false) (ht : GetsType k = true) :
    ∀ c ∈ xs.toList.map (⟨k, ·⟩), Plain F ρ c := by
  intro c hc
  obtain ⟨x, hx, rfl⟩ := List.mem_map.mp hc
  exact (h.child (h.bound.of_mem hd x hx) (Ast.mem_subterms_of_mem hx)).plain hm hd ht

theorem Fit.inits {fs : Ast Addr (.list .fieldInit)} (h : Fit F ρ fs) :
    ∀ c ∈ fs.toList.map Visits.initOf, Plain F ρ c := by
  intro c hc
  obtain ⟨x, hx, rfl⟩ := List.mem_map.mp hc
  have hx' := h.child (h.bound.of_mem rfl x hx) (Ast.mem_subterms_of_mem hx)
  cases x with
  | fieldInit b y i => exact (hx'.child hx'.bound.2 (Ast.mem_first rfl)).plain rfl rfl rfl

theorem Fit.fields {fs : Ast Addr (.list .field)} (h : Fit F ρ fs) :
    ∀ c ∈ namesOf fs, Plain F ρ c := by
  intro c hc
  simp only [namesOf, fieldsOf, List.map_map, List.mem_map] at hc
  obtain ⟨x, hx, rfl⟩ := hc
  have hx' := h.child (h.bound.of_mem rfl x hx) (Ast.mem_subterms_of_mem hx)
  cases x with
  | field b y t => exact (hx'.child hx'.bound.2 (Ast.mem_first rfl)).plain rfl rfl rfl

/-! ## Variables and expressions -/

section Methods

variable (ih : Checks F n)

include ih

theorem checked_fieldVar {v : Ast Addr .var} {x : Symbol} (hf : Fit F ρ (.fieldVar a v x))
    (hs : Entry F ρ (Ast.fieldVar a v x).nodes s)
    (h : s.visit F.tree n (accept F.tree n) (.fieldVar a v x) = .ok s') :
    Checked F ρ (.fieldVar a v x) s s' := by
  have hv := hf.child hf.bound.2 (e := v) (Ast.mem_first rfl)
  simp only [visit, bind_eq_ok] at h
  obtain ⟨s₁, h₁, h⟩ := h
  have key {s₂ : TypeChecker} (ho : Own a s₁ s₂) (t : TypePtr) :
      Checked F ρ (.fieldVar a v x) s (s₂.typeSet a (some t)) :=
    .typeSet ih rfl ((Visits.type h₁).step ho) (by simpa using hv.plain rfl rfl rfl) hs
      (List.Perm.subperm (by simp [Ast.nodes, Ast.addr])) (by simp [met_cons, Tracked])
      fun _ => rfl
  split at h
  · simp only [bind_eq_ok] at h
    obtain ⟨t, -, h⟩ := h
    cases h
    exact key (Own.refl ..) t
  · cases h
    exact key (Own.report rfl (by simp [readOnlyError])) .nil

theorem checked_subscriptVar {v : Ast Addr .var} {i : Ast Addr .exp}
    (hf : Fit F ρ (.subscriptVar a v i)) (hs : Entry F ρ (Ast.subscriptVar a v i).nodes s)
    (h : s.visit F.tree n (accept F.tree n) (.subscriptVar a v i) = .ok s') :
    Checked F ρ (.subscriptVar a v i) s s' := by
  have hv := hf.child hf.bound.2.1 (e := v) (Ast.mem_first rfl)
  have hi := hf.child hf.bound.2.2 (e := i) (Ast.mem_second rfl)
  simp only [visit, bind_eq_ok] at h
  obtain ⟨s₁, h₁, s₂, h₂, h⟩ := h
  have hperm : (a :: nodesOf [⟨_, i⟩, ⟨_, v⟩]).Perm (Ast.subscriptVar a v i).nodes := by
    simpa [Ast.nodes] using List.perm_append_comm
  have key {s₃ : TypeChecker} (ho : Own a s₂ s₃) (t : TypePtr) :
      Checked F ρ (.subscriptVar a v i) s (s₃.typeSet a (some t)) :=
    .typeSet ih rfl (((Visits.checkType h₁).append (Visits.type h₂)).step ho)
      (by simpa using ⟨hi.plain rfl rfl rfl, hv.plain rfl rfl rfl⟩) hs hperm.subperm
      (by simp [met_cons, Tracked, or_comm]) fun _ => rfl
  split at h
  · cases h
    exact key (Own.refl ..) _
  · cases h
    exact key (Own.report rfl (by simp [readOnlyError])) .nil

/-- The node a variable is used as. -/
theorem checked_inclusion {e : Ast Addr j} (hj : GetsType j = true) (hk : GetsType k = true)
    (hm : HasMethod j = true) (hf : Fit F ρ e) (hs : Entry F ρ e.nodes s)
    (h : accept F.tree n e s = .ok s') (hn : t.nodes = e.nodes)
    (hp : t.reached F.counted = ⟨k, t⟩ :: e.reached F.counted)
    (hu : Tracked ⟨k, t⟩ = false) : Checked F ρ t s s' := by
  obtain ⟨hr, ht, -⟩ := ih e ρ s s' hm hf hs h
  refine ⟨hr.congr (by rw [hn]; exact fun _ h => h) fun b => ?_, fun _ => ?_, ?_⟩
  · simp [hp, met_cons, hu]
  · rw [typeGet, Ast.addr, hn]
    exact ht hj
  · exact fun hf => absurd (hk.symm.trans hf) (by decide)

theorem checked_callExp {x : Symbol} {args : Ast Addr (.list .exp)}
    (hf : Fit F ρ (.callExp a x args)) (hs : Entry F ρ (Ast.callExp a x args).nodes s)
    (h : s.visit F.tree n (accept F.tree n) (.callExp a x args) = .ok s') :
    Checked F ρ (.callExp a x args) s s' := by
  have hargs := hf.child hf.bound.2 (e := args) (Ast.mem_first rfl)
  simp only [visit] at h
  split at h
  · rename_i fs r hfun
    simp only [bind_eq_ok] at h
    obtain ⟨s₁, h₁, h⟩ := h
    cases h
    obtain ⟨d, hd, hfs⟩ := Option.bind_eq_some_iff.mp hfun
    -- the runtime comparison is that of the declaration
    have hcounted : F.counted a args.toList.length = decide (args.toList.length = fs.length) := by
      simp only [Facts.counted, hd, Option.bind_some, hs.sound.functions d fs r hfs,
        Option.some.injEq, eq_comm]
    have hv := Visits.checkCall h₁
    refine .typeSet ih rfl hv (fun c hc => ?_) hs ?_ ?_ fun _ => rfl
    · split at hc
      · exact hargs.elements rfl rfl rfl c hc
      · cases hc
    · split
      · exact List.Perm.subperm (by rw [nodesOf_list]; exact .refl _)
      · exact List.Sublist.subperm (by simp [Ast.nodes, Ast.addr])
    · intro b
      simp only [Ast.reached, hcounted, met_cons, Tracked, Bool.false_eq_true, and_false, false_or,
        decide_eq_true_eq]
      split
      · exact met_list args
      · rfl
  · cases h

/-- `type` on a node. -/
theorem checked_type {e : Ast Addr j} (hm : HasMethod j = true) (hf : Fit F ρ e)
    (hs : Entry F ρ e.nodes s) (h : s.type (accept F.tree n) e = .ok s') : Checked F ρ e s s' :=
  ih e ρ s s' hm hf hs (accept_of_call hm hs (.inl h))

omit ih in
/-- Two nils may be compared. -/
theorem eq_of_checkTypes_nil {x y : Str} (h : s.checkTypes n a x .nil y .nil = .ok s') :
    s' = s := by
  obtain _ | _ | n := n
  · cases h
  · cases h
  · cases h
    rfl

/-- Nothing is reported for an equality of two nils. -/
theorem not_mem_of_checkTypesOf {l r : Ast Addr .exp} {x y : Str} {rs : List Report}
    (hl : Fit F ρ l) (hr : Fit F ρ r) (hs : Entry F ρ (a :: (l.nodes ++ r.nodes)) s)
    (h : s.checkTypesOf n (accept F.tree n) a x l y r = .ok s₁) (hrs : s₁.errors = s.errors ++ rs)
    (hlnil : s₁.typeGet l = some .nil) (hrnil : s₁.typeGet r = some .nil) :
    ∀ q ∈ rs, q.node ≠ a := by
  have hnodup := hs.nodup
  simp only [List.nodup_cons, List.mem_append, not_or] at hnodup
  have hne {i : Ast Addr .exp} (hi : a ∉ i.nodes) : i.addr ≠ a :=
    fun h => hi (h ▸ addr_mem_nodes rfl)
  simp only [checkTypesOf, bind_eq_ok] at h
  obtain ⟨p, hp, q, hq, h⟩ := h
  have hs₀ : Entry F ρ (l.nodes ++ r.nodes) s := hs.sub (List.sublist_cons_self ..).subperm
  have hckl := checked_type ih rfl hl hs₀.left (type_of_typeRef hp)
  have hckr := checked_type ih rfl hr (hs₀.next hckl.runs) (type_of_typeRef hq)
  -- the types the comparison has found are those the operands keep
  have hown := Own.checkTypes h
  have hq₂ : q.2 = .nil := by
    have htype := typeGet_of_typeRef hq
    rw [typeGet, ← hown.types _ (hne hnodup.1.2)] at htype
    exact Option.some.inj (htype.symm.trans hrnil)
  have hp₂ : p.2 = .nil := by
    have htype := typeGet_of_typeRef hp
    have hout : l.addr ∉ r.nodes :=
      List.disjoint_of_nodup_append hnodup.2 (addr_mem_nodes rfl)
    rw [typeGet, ← hckr.runs.types _ hout, ← hown.types _ (hne hnodup.1.1)] at htype
    exact Option.some.inj (htype.symm.trans hlnil)
  rw [hp₂, hq₂] at h
  obtain rfl := eq_of_checkTypes_nil h
  obtain ⟨rs₁, hrs₁, hl₁⟩ := hckl.runs.errors
  obtain ⟨rs₂, hrs₂, hl₂⟩ := hckr.runs.errors
  rw [hrs₂, hrs₁, List.append_assoc, List.append_cancel_left_eq] at hrs
  subst hrs
  refine List.forall_mem_append.mpr ⟨fun r hr ha => ?_, fun r hr ha => ?_⟩
  · exact hnodup.1.1 (ha ▸ hl₁.node r hr)
  · exact hnodup.1.2 (ha ▸ hl₂.node r hr)

theorem checked_opExp {l r : Ast Addr .exp} {op : Oper} (hf : Fit F ρ (.opExp a l op r))
    (hs : Entry F ρ (Ast.opExp a l op r).nodes s)
    (h : s.visit F.tree n (accept F.tree n) (.opExp a l op r) = .ok s') :
    Checked F ρ (.opExp a l op r) s s' := by
  have hl := hf.child hf.bound.2.1 (e := l) (Ast.mem_first rfl)
  have hr := hf.child hf.bound.2.2 (e := r) (Ast.mem_second rfl)
  simp only [visit, bind_eq_ok] at h
  obtain ⟨s₁, h₁, h⟩ := h
  cases h
  have hset : Own a s₁ (s₁.typeSet a (some .int)) := Own.typeSet rfl
  refine .of_told rfl ((Visits.checkOperands h₁).finish ih
    (by simpa using ⟨hl.plain rfl rfl rfl, hr.plain rfl rfl rfl⟩) hs
    (List.Perm.subperm (by simp [Ast.nodes, Ast.addr])) fun _ => ⟨hset, isSome_typeSet rfl⟩)
    (fun _ h => h) (by simp [met_cons, Tracked]) fun rs hrs ho hlnil hrnil x t y u hmem => ?_
  have hnodup := hs.nodup
  simp only [Ast.nodes, List.nodup_cons, List.mem_append, not_or] at hnodup
  have hne {i : Ast Addr .exp} (hi : a ∉ i.nodes) : i.addr ≠ a := fun hia =>
    hi (hia ▸ addr_mem_nodes rfl)
  have hsame {i : Ast Addr .exp} (hi : a ∉ i.nodes) :
      (s₁.typeSet a (some .int)).typeGet i = s₁.typeGet i :=
    Function.update_of_ne (hne hi) ..
  have heq : s.checkTypesOf n (accept F.tree n) a "left op".toList l "right op".toList r =
      .ok s₁ := by rcases ho with rfl | rfl <;> exact h₁
  rw [hsame hnodup.1.1] at hlnil
  rw [hsame hnodup.1.2] at hrnil
  exact not_mem_of_checkTypesOf ih hl hr hs heq hrs hlnil hrnil _ hmem rfl

theorem checked_recordExp {t : Ast Addr .nameTy} {fs : Ast Addr (.list .fieldInit)}
    (hf : Fit F ρ (.recordExp a t fs)) (hs : Entry F ρ (Ast.recordExp a t fs).nodes s)
    (h : s.visit F.tree n (accept F.tree n) (.recordExp a t fs) = .ok s') :
    Checked F ρ (.recordExp a t fs) s s' := by
  have ht := hf.child hf.bound.2.1 (e := t) (Ast.mem_first rfl)
  have hfs := hf.child hf.bound.2.2 (e := fs) (Ast.mem_second rfl)
  simp only [visit, bind_eq_ok] at h
  obtain ⟨r, -, s₁, h₁, s₂, h₂, h⟩ := h
  cases h
  refine .typeSet ih rfl ((Visits.checkRecord h₁).append (Visits.type h₂)) (fun c hc => ?_) hs
    ?_ ?_ fun hsome => hsome ⟨_, t⟩ (by simp)
  · rcases List.mem_append.mp hc with hc | hc
    · exact hfs.inits c hc
    · rw [List.mem_singleton.mp hc]
      exact ht.plain rfl rfl rfl
  · rw [nodesOf_append]
    refine (List.subperm_cons a).mpr ?_
    refine List.perm_append_comm.subperm.trans ?_
    simpa using ((List.Sublist.refl t.nodes).append (nodesOf_inits fs)).subperm
  · intro b
    have hi := met_inits (F := F) (c := b) fs
    simp only [reachedOf] at hi ⊢
    simp only [List.flatMap_append, met_append, hi]
    simp [met_cons, Tracked, or_comm]

theorem checked_seqExp {es : Ast Addr (.list .exp)} (hf : Fit F ρ (.seqExp a es))
    (hs : Entry F ρ (Ast.seqExp a es).nodes s)
    (h : s.visit F.tree n (accept F.tree n) (.seqExp a es) = .ok s') :
    Checked F ρ (.seqExp a es) s s' := by
  have hes := hf.child hf.bound.2 (e := es) (Ast.mem_first rfl)
  simp only [visit, bind_eq_ok] at h
  obtain ⟨r, h₁, h⟩ := h
  cases h
  obtain ⟨hv, hlast⟩ := Visits.typeSeq (a := a) h₁
  refine .typeSet ih rfl hv (hes.elements rfl rfl rfl) hs
    (List.Perm.subperm (by rw [nodesOf_list]; exact .refl _)) (fun b => ?_) fun hsome => ?_
  · rw [met_list]
    simp [met_cons, Tracked]
  · rcases hlast with ⟨-, hlast⟩ | ⟨e, he, hlast⟩
    · rw [hlast]
      rfl
    · rw [hlast]
      exact hsome ⟨_, e⟩ (List.mem_map_of_mem he)

omit ih in
theorem types_checkReadOnly (m : Tree) (a : Addr) (v : Ast Addr .var) :
    (s.checkReadOnly m a v).types = s.types := by
  unfold checkReadOnly
  split
  · split <;> rfl
  · rfl

omit ih in
/-- The test of `operator()(AssignExp)` on `var_read_only_` finds the variables of loops. -/
theorem runs_checkReadOnly {v : Ast Addr .var} {e : Ast Addr .exp} (hf : Fit F ρ v)
    (ho : Open F ρ s) (hs : Sound F s) :
    Runs F [a] [⟨_, .assignExp a v e⟩] s (s.checkReadOnly F.tree a v) := by
  have hone (b : Addr) : F.Updates [⟨_, .assignExp a v e⟩] b ↔
      F.IsUpdate b ⟨_, .assignExp a v e⟩ := by simp [Facts.Updates]
  have hsettled (s : TypeChecker) (rs : List Report) :
      ∀ c ∈ [(⟨_, .assignExp a v e⟩ : Σ k, Ast Addr k)], F.Settled s rs c :=
    List.forall_mem_singleton.mpr trivial
  have hsame (hu : ∀ b, ¬ F.IsUpdate b ⟨_, .assignExp a v e⟩) :
      Runs F [a] [⟨_, .assignExp a v e⟩] s s :=
    { Runs.refl (F := F) [a] s with
      errors := ⟨[], by simp, List.forall_mem_nil _, fun b => by simp [hone, hu],
        hsettled _ _⟩ }
  cases v with
  | simpleVar u x =>
    obtain ⟨d, hd, hu⟩ := hf.bound
    have hany : (F.tree.defs u).any (· ∈ s.readOnly) = true ↔ d ∈ s.readOnly := by simp [hu]
    simp only [checkReadOnly]
    split
    · rename_i hin
      have hloop := hs.readOnly d (hany.mp hin)
      refine ⟨fun _ _ => rfl, fun _ h => h, fun _ h => h, fun _ h => h,
        fun h => ⟨h.readOnly, h.functions⟩, [readOnlyError a], rfl, ?_, fun b => ?_,
        hsettled _ _⟩
      · simp [readOnlyError, Report.node]
      · have hupdate : F.IsUpdate b ⟨_, .assignExp a (.simpleVar u x) e⟩ ↔ a = b :=
          and_iff_left ⟨d, hu, hloop⟩
        rw [hone, hupdate]
        simp [readOnlyError, eq_comm]
    · rename_i hout
      refine hsame fun b hb => hout (hany.mpr ?_)
      obtain ⟨-, d', hd', hloop⟩ := hb
      cases hu.symm.trans hd'
      exact ho.loops x d hd hloop
  | fieldVar | subscriptVar => exact hsame fun _ h => h

theorem checked_assignExp {v : Ast Addr .var} {e : Ast Addr .exp} (hf : Fit F ρ (.assignExp a v e))
    (hs : Entry F ρ (Ast.assignExp a v e).nodes s)
    (h : s.visit F.tree n (accept F.tree n) (.assignExp a v e) = .ok s') :
    Checked F ρ (.assignExp a v e) s s' := by
  have hv := hf.child hf.bound.2.1 (e := v) (Ast.mem_first rfl)
  have he := hf.child hf.bound.2.2 (e := e) (Ast.mem_second rfl)
  simp only [visit, bind_eq_ok] at h
  obtain ⟨s₁, h₁, h⟩ := h
  cases h
  have hr₀ := runs_checkReadOnly (e := e) (a := a) hv hs.opens hs.sound
  have hs₀ : Entry F ρ (Ast.assignExp a v e).nodes (s.checkReadOnly F.tree a v) :=
    ⟨hs.opens.runs hr₀, hr₀.sound hs.sound,
      fun b hb => (congrFun (types_checkReadOnly F.tree a v) b).trans (hs.untyped b hb), hs.nodup⟩
  have hset : Own a s₁ (s₁.typeSet a (some .void)) := Own.typeSet rfl
  obtain ⟨hr, hsome⟩ := (Visits.checkTypesOf h₁).finish ih
    (by simpa using ⟨hv.plain rfl rfl rfl, he.plain rfl rfl rfl⟩) hs₀
    (List.Perm.subperm (by simp [Ast.nodes])) fun _ => ⟨hset, isSome_typeSet rfl⟩
  have hnodup := hs.nodup
  simp only [Ast.nodes, List.nodup_cons] at hnodup
  have hP : Apart F [⟨_, .assignExp a v e⟩] (Ast.assignExp a v e).nodes :=
    List.forall_mem_singleton.mpr (.inl fun _ _ => trivial)
  have hQ : Apart F (reachedOf F [⟨_, v⟩, ⟨_, e⟩]) [a] := .reachedOf fun b hb hba => by
    rw [List.mem_singleton.mp hba] at hb
    exact hnodup.1 (by simpa using hb)
  refine ⟨(hr₀.trans hr hP hQ).congr ?_ fun b => ?_, fun _ => hsome, by rintro ⟨⟩⟩
  · exact List.append_subset.mpr ⟨by simp [Ast.nodes], List.Subset.refl _⟩
  · simp [met_cons]

theorem checked_ifExp {c t e : Ast Addr .exp} (hf : Fit F ρ (.ifExp a c t e))
    (hs : Entry F ρ (Ast.ifExp a c t e).nodes s)
    (h : s.visit F.tree n (accept F.tree n) (.ifExp a c t e) = .ok s') :
    Checked F ρ (.ifExp a c t e) s s' := by
  have hc := hf.child hf.bound.2.1 (e := c) (Ast.mem_first rfl)
  have ht := hf.child hf.bound.2.2.1 (e := t) (Ast.mem_second rfl)
  have he := hf.child hf.bound.2.2.2 (e := e) (Ast.mem_third rfl)
  simp only [visit, bind_eq_ok] at h
  obtain ⟨s₁, h₁, s₂, h₂, h⟩ := h
  cases h
  exact .typeSet ih rfl ((Visits.checkType h₁).append (Visits.checkTypesOf h₂))
    (by simpa using ⟨hc.plain rfl rfl rfl, ht.plain rfl rfl rfl, he.plain rfl rfl rfl⟩) hs
    (List.Perm.subperm (by simp [Ast.nodes, Ast.addr]))
    (by simp [met_cons, Tracked]) fun hsome => hsome ⟨_, t⟩ (by simp)

theorem checked_whileExp {c body : Ast Addr .exp} (hf : Fit F ρ (.whileExp a c body))
    (hs : Entry F ρ (Ast.whileExp a c body).nodes s)
    (h : s.visit F.tree n (accept F.tree n) (.whileExp a c body) = .ok s') :
    Checked F ρ (.whileExp a c body) s s' := by
  have hc := hf.child hf.bound.2.1 (e := c) (Ast.mem_first rfl)
  have hb := hf.child hf.bound.2.2 (e := body) (Ast.mem_second rfl)
  simp only [visit, bind_eq_ok] at h
  obtain ⟨s₁, h₁, s₂, h₂, h⟩ := h
  cases h
  exact .typeSet ih rfl ((Visits.checkType h₁).append (Visits.checkType h₂))
    (by simpa using ⟨⟨rfl, rfl, rfl, _, hc, rfl, rfl⟩, hb.plain rfl rfl rfl⟩) hs
    (List.Perm.subperm (by simp [Ast.nodes, Ast.addr])) (by simp [met_cons, Tracked])
    fun _ => rfl

theorem checked_checkType {e : Ast Addr .exp} {x : Str} {t : TypePtr} (hf : Fit F ρ e)
    (hs : Entry F ρ e.nodes s) (h : s.checkType n (accept F.tree n) e x t = .ok s') :
    Checked F ρ e s s' := by
  obtain ⟨s₁, h₁, ho⟩ := type_of_checkType h
  exact (checked_type ih rfl hf hs h₁).recovers rfl hs.nodup (.inl rfl) ho

theorem checked_letExp {cs : Ast Addr .chunkList} {body : Ast Addr .exp}
    (hf : Fit F ρ (.letExp a cs body)) (hs : Entry F ρ (Ast.letExp a cs body).nodes s)
    (h : s.visit F.tree n (accept F.tree n) (.letExp a cs body) = .ok s') :
    Checked F ρ (.letExp a cs body) s s' := by
  have hcs := hf.child hf.bound.2.1 (e := cs) (Ast.mem_first rfl)
  have hb := hf.child hf.bound.2.2 (e := body) (Ast.mem_second rfl)
  simp only [visit, bind_eq_ok] at h
  obtain ⟨s₁, h₁, s₂, h₂, h⟩ := h
  cases h
  have hs₀ : Entry F ρ (cs.nodes ++ body.nodes) s := hs.sub (List.sublist_cons_self ..).subperm
  have hck := ih cs ρ s s₁ rfl hcs hs₀.left h₁
  have hs₁ : Entry F (ρ.after cs) body.nodes s₁ :=
    { hs₀.next hck.runs with opens := hck.opens rfl }
  have hckb := checked_type ih rfl hb hs₁ h₂
  have hsome := hckb.typed rfl
  have hnodup := hs.nodup
  simp only [Ast.nodes, List.nodup_cons, List.mem_append, not_or] at hnodup
  have hdis := List.disjoint_of_nodup_append hs₀.nodup
  have hr := hck.runs.trans hckb.runs (.reached fun _ h h' => hdis h h')
    (.reached fun _ h h' => hdis h' h)
  have ha : Apart F (cs.reached F.counted ++ body.reached F.counted) [a] :=
    .append (.reached (not_mem_singleton hnodup.1.1)) (.reached (not_mem_singleton hnodup.1.2))
  refine ⟨(hr.step (Own.typeSet hsome) ha).congr ?_ ?_, fun _ => isSome_typeSet hsome,
    by rintro ⟨⟩⟩
  · intro b hb
    simp only [List.mem_append, Ast.nodes, List.mem_cons, List.not_mem_nil, or_false] at hb ⊢
    exact hb.symm
  · simp [met_cons, Tracked]

omit ih in
/-- The check of a variable that is to be an int, and has the type nil. -/
theorem eq_of_checkType_nil {e : Ast Addr j} {x : Str}
    (h : s.checkType n (accept F.tree n) e x .int = .ok s')
    (h₁ : s.type (accept F.tree n) e = .ok s₁) (hnil : s₁.typeGet e = some .nil) :
    s' = s₁.errorAndRecover e.addr x (.type .nil) := by
  simp only [checkType, typeRef, h₁, ok_bind, hnil] at h
  cases n with
  | zero => cases h
  | succ n =>
    cases h
    rfl

omit ih in
/-- A variable declared without a type has that of its initialiser. -/
theorem typeGet_untyped {d : Addr} {x : Symbol} {i : Ast Addr .exp} (hd : d ∉ i.nodes)
    (h : accept F.tree n (.varDec d x .none (.some i)) s = .ok s') :
    s'.types d = s'.typeGet i := by
  cases n with
  | zero => cases h
  | succ n =>
    simp only [accept, visit, visitVarDec, bind_eq_ok] at h
    obtain ⟨s₁, -, h⟩ := h
    cases h
    have hne : i.addr ≠ d := fun h => hd (h ▸ addr_mem_nodes rfl)
    show Function.update s₁.types d (s₁.typeGet i) d = Function.update s₁.types d _ i.addr
    rw [Function.update_self, Function.update_of_ne hne]
    rfl

/-- A loop: its variable is read-only once the bounds are checked, and the body is all that sees
it. -/
theorem checked_forExp {d : Ast Addr .varDec} {hi body : Ast Addr .exp}
    (hf : Fit F ρ (.forExp a d hi body)) (hs : Entry F ρ (Ast.forExp a d hi body).nodes s)
    (h : s.visit F.tree n (accept F.tree n) (.forExp a d hi body) = .ok s') :
    Checked F ρ (.forExp a d hi body) s s' := by
  have hd := hf.child hf.bound.2.1 (e := d) (Ast.mem_first rfl)
  have hhi := hf.child hf.bound.2.2.1 (e := hi) (Ast.mem_second rfl)
  have hb := hf.child hf.bound.2.2.2 (e := body) (Ast.mem_third rfl)
  have hloop : F.loop d.varAddr := hf.allowed _ (Ast.mem_subterms_self _)
  have haddr : d.addr = d.varAddr := by cases d; rfl
  simp only [visit, bind_eq_ok] at h
  obtain ⟨s₁, h₁, s₂, h₂, s₃, h₃, h⟩ := h
  cases h
  have hs₀ : Entry F ρ (d.nodes ++ (hi.nodes ++ body.nodes)) s :=
    hs.sub (List.Sublist.subperm (by simp [Ast.nodes]))
  obtain ⟨s₀, h₀, hrec⟩ := type_of_checkType h₁
  have hckd₀ := checked_type ih rfl hd hs₀.left h₀
  have hckd := hckd₀.recovers rfl hs₀.left.nodup (.inr ⟨rfl, haddr ▸ hloop⟩) hrec
  have hs₁ := hs₀.next hckd.runs
  have hckhi := checked_checkType ih hhi (hs₁.left.congr rfl rfl) h₂
  have hs₂ := hs₁.next hckhi.runs
  have hread : Runs F [] [] s₂ { s₂ with readOnly := d.varAddr :: s₂.readOnly } :=
    ⟨fun _ _ => rfl, fun _ h => h, fun _ h => h, fun _ h => .tail _ h,
      fun h => ⟨List.forall_mem_cons.mpr ⟨hloop, h.readOnly⟩, h.functions⟩, [], by simp, .nil ..⟩
  have hopen := (hs₂.opens.runs hread).varDec (hckhi.runs.typed _ (hckd.typed rfl))
    fun _ => .head _
  have hckb := checked_checkType ih hb
    { Entry.next (N := []) hs₂ hread with opens := hopen } h₃
  have hnodup := hs.nodup
  simp only [Ast.nodes, List.nodup_cons, List.mem_append, not_or] at hnodup
  have hdis₁ := List.disjoint_of_nodup_append hs₀.nodup
  have hdis₂ := List.disjoint_of_nodup_append hs₁.nodup
  have hrest : Runs F (hi.nodes ++ body.nodes) (hi.reached F.counted ++ body.reached F.counted)
      s₁ s₃ := by
    have hr := hread.trans hckb.runs (.nil _) (.reached fun _ _ => List.not_mem_nil)
    exact hckhi.runs.trans hr (.reached fun _ h h' => hdis₂ h h')
      (.reached fun _ h h' => hdis₂ h' h)
  have hall := hckd.runs.trans hrest (.reached fun _ h h' => hdis₁ h h') (.append
    (.reached fun _ h h' => hdis₁ h' (List.mem_append_left _ h))
    (.reached fun _ h h' => hdis₁ h' (List.mem_append_right _ h)))
  have ha : Apart F (d.reached F.counted ++ (hi.reached F.counted ++ body.reached F.counted)) [a] :=
    .append (.reached (not_mem_singleton hnodup.1.1.1)) (.append
      (.reached (not_mem_singleton hnodup.1.1.2)) (.reached (not_mem_singleton hnodup.1.2)))
  have hset : Own a s₃ (s₃.typeSet a (some .void)) := Own.typeSet rfl
  refine .of_told rfl ⟨(hall.step hset ha).congr ?_ fun _ => Iff.rfl, isSome_typeSet rfl⟩
    (fun _ h => h) (by simp [met_cons, Tracked]) fun rs hrs => ?_
  · intro b hb
    simp only [List.mem_append, Ast.nodes, List.mem_cons, List.not_mem_nil, or_false] at hb ⊢
    grind
  · cases d with
    | varDec d x ty i =>
      cases ty with
      | some ty => trivial
      | none =>
        cases i with
        | none => trivial
        | some i =>
          intro hnil
          have hmem : i.addr ∈ (Ast.varDec d x .none (.some i)).nodes :=
            .tail _ (addr_mem_nodes (t := i) rfl)
          have hdn := hs₀.left.nodup
          simp only [Ast.nodes, List.nil_append, List.nodup_cons] at hdn
          -- the initialiser keeps its type, so the variable has been nil
          have hkeep : (s₃.typeSet a (some .void)).typeGet i = s₀.typeGet i := by
            have hia : i.addr ≠ a := fun h => hnodup.1.1.1 (h ▸ hmem)
            have hid : i.addr ≠ d := fun h => hdn.1 (h ▸ addr_mem_nodes rfl)
            refine (Function.update_of_ne hia ..).trans
              ((hrest.types _ fun h => hdis₁ hmem h).trans ?_)
            exact hrec.own.types _ hid
          have hget : s₀.typeGet (.varDec d x .none (.some i)) = some .nil := by
            rw [hkeep] at hnil
            exact (typeGet_untyped hdn.1 (accept_of_call rfl hs₀.left (.inl h₀))).trans hnil
          have hreport := eq_of_checkType_nil h₁ h₀ hget
          obtain ⟨rs₁, hrs₁, -⟩ := hrest.errors
          obtain ⟨rs₀, hrs₀, -⟩ := hckd₀.runs.errors
          have herrors : (s₃.typeSet a (some .void)).errors = s.errors ++
              (rs₀ ++ .error d "expected int".toList (some (.type .nil)) :: rs₁) := by
            show s₃.errors = _
            rw [hrs₁, hreport]
            simp [errorAndRecover, error, typeSet, hrs₀, Ast.addr, Ast.nodes]
          rw [herrors, List.append_cancel_left_eq] at hrs
          exact ⟨.error d "expected int".toList (some (.type .nil)), by simp [← hrs], rfl⟩

theorem checked_arrayExp {t : Ast Addr .nameTy} {size i : Ast Addr .exp}
    (hf : Fit F ρ (.arrayExp a t size i)) (hs : Entry F ρ (Ast.arrayExp a t size i).nodes s)
    (h : s.visit F.tree n (accept F.tree n) (.arrayExp a t size i) = .ok s') :
    Checked F ρ (.arrayExp a t size i) s s' := by
  have ht := hf.child hf.bound.2.1 (e := t) (Ast.mem_first rfl)
  have hsize := hf.child hf.bound.2.2.1 (e := size) (Ast.mem_second rfl)
  have hi := hf.child hf.bound.2.2.2 (e := i) (Ast.mem_third rfl)
  simp only [visit, bind_eq_ok] at h
  obtain ⟨r, h₁, s₂, h₂, s₃, h₃, h⟩ := h
  cases h
  have hperm : (a :: nodesOf [⟨_, size⟩, ⟨_, t⟩, ⟨_, i⟩]).Perm
      (Ast.arrayExp a t size i).nodes := by
    simpa [Ast.nodes] using List.perm_append_comm_assoc ..
  exact .typeSet ih rfl (((Visits.typeRef h₁).step (Own.checkTypes h₂)).append
    (Visits.checkTypesOf h₃))
    (by simpa using ⟨hsize.plain rfl rfl rfl, ht.plain rfl rfl rfl, hi.plain rfl rfl rfl⟩) hs
    hperm.subperm (by simp [met_cons, Tracked, or_left_comm])
    fun hsome => hsome ⟨_, t⟩ (by simp)

/-! ## Types and variables -/

omit ih in
/-- A node without nodes of its own gets its type. -/
theorem checked_leaf {u : Option TypePtr} (hk : GetsType k = true)
    (ht : t.nodes = [t.addr]) (hp : ∀ c, ¬ Met (t.reached F.counted) c)
    (hu : u.isSome = true) : Checked F ρ t s (s.typeSet t.addr u) where
  runs := (Own.typeSet hu).runs.congr (by simp [ht]) (by simpa using hp)
  typed _ := isSome_typeSet hu
  opens hf := absurd (hk.symm.trans hf) (by decide)

omit ih in
/-- A variable in scope has its type: its `VarDec` is not visited again. -/
theorem checked_simpleVar {x : Symbol} (hf : Fit F ρ (.simpleVar a x))
    (hs : Entry F ρ (Ast.simpleVar (α := Addr) a x).nodes s)
    (h : s.visit F.tree n (accept F.tree n) (.simpleVar a x) = .ok s') :
    Checked F ρ (.simpleVar a x) s s' := by
  obtain ⟨d, hd, hu⟩ := hf.bound
  simp only [visit, hu] at h
  split at h
  · cases h
  · rename_i v hv
    have hvd : v.varAddr = d := by simpa using List.find?_some hv
    have ht : (s.typeGet v).isSome = true := by
      rw [← hvd] at hd
      cases v
      exact hs.opens.vars x _ hd
    simp only [type, ht, if_true, ok_bind] at h
    cases h
    exact checked_leaf (t := .simpleVar a x) rfl rfl
      (by simp [met_cons, Tracked]) ht

omit ih in
/-- The type a name stands for is created already. -/
theorem checked_nameTy {x : Symbol} (hf : Fit F ρ (.nameTy a x))
    (hs : Entry F ρ (Ast.nameTy (α := Addr) a x).nodes s)
    (h : s.visit F.tree n (accept F.tree n) (.nameTy a x) = .ok s') :
    Checked F ρ (.nameTy a x) s s' := by
  obtain ⟨hu, hb⟩ := hf.bound
  have key {u : Option TypePtr} (hu : u.isSome = true) :
      Checked F ρ (.nameTy a x) s (s.typeSet a u) :=
    checked_leaf (t := .nameTy a x) rfl rfl (by simp [met_cons, Tracked]) hu
  simp only [visit] at h
  split at h
  · cases h
    exact key rfl
  · split at h
    · cases h
      exact key rfl
    · split at h
      · rename_i d hd
        cases h
        refine key ?_
        rw [createdTypeDec, Option.isSome_map]
        exact hs.opens.types x d (hu.symm.trans hd)
      · rename_i h₁ h₂ _ hd
        have hx := hb (hu.symm.trans hd)
        simp only [Symbol.isBuiltin, h₁, h₂, decide_false, Bool.or_self] at hx
        cases hx

theorem checked_recordTy {fs : Ast Addr (.list .field)} (hf : Fit F ρ (.recordTy a fs))
    (hs : Entry F ρ (Ast.recordTy a fs).nodes s)
    (h : s.visit F.tree n (accept F.tree n) (.recordTy a fs) = .ok s') :
    Checked F ρ (.recordTy a fs) s s' := by
  have hfs := hf.child hf.bound.2 (e := fs) (Ast.mem_first rfl)
  simp only [visit, bind_eq_ok] at h
  obtain ⟨r, h₁, h⟩ := h
  cases h
  refine .of_visits ih rfl (Visits.typeFields (a := a) h₁).1 hfs.fields hs
    ((nodesOf_fields fs).cons_cons a).subperm (fun b => ?_)
    fun _ => ⟨(Own.typeDefault (u := .record a)).heap rfl rfl, isSome_setDefault⟩
  have hu := met_fields (F := F) (c := b) fs
  simpa [met_cons, Tracked, namesOf] using hu

theorem checked_arrayTy {t : Ast Addr .nameTy} (hf : Fit F ρ (.arrayTy a t))
    (hs : Entry F ρ (Ast.arrayTy a t).nodes s)
    (h : s.visit F.tree n (accept F.tree n) (.arrayTy a t) = .ok s') :
    Checked F ρ (.arrayTy a t) s s' := by
  have ht := hf.child hf.bound.2 (e := t) (Ast.mem_first rfl)
  simp only [visit, bind_eq_ok] at h
  obtain ⟨r, h₁, h⟩ := h
  cases h
  exact .of_visits ih rfl (Visits.typeRef h₁) (by simpa using ht.plain rfl rfl rfl) hs
    (List.Perm.subperm (by simp [Ast.nodes, Ast.addr])) (by simp [met_cons, Tracked])
    fun _ => ⟨(Own.typeDefault (u := .array a)).heap rfl rfl, isSome_setDefault⟩

theorem checked_varDec {x : Symbol} {t : Ast Addr (.opt .nameTy)} {i : Ast Addr (.opt .exp)}
    (hf : Fit F ρ (.varDec a x t i)) (hs : Entry F ρ (Ast.varDec a x t i).nodes s)
    (h : s.visit F.tree n (accept F.tree n) (.varDec a x t i) = .ok s') :
    Checked F ρ (.varDec a x t i) s s' := by
  have ht := hf.child hf.bound.2.1 (e := t) (Ast.mem_first rfl)
  have hi := hf.child hf.bound.2.2 (e := i) (Ast.mem_second rfl)
  have hplain {j : Kind} {e : Ast Addr j} (he : Fit F (ρ.putEarly x a) e) (hm : HasMethod j = true)
      (hd : j.declares = false) (hk : GetsType j = true) : Plain F ρ ⟨j, e⟩ :=
    ⟨hm, hd, hk, _, he, rfl, rfl⟩
  simp only [visit] at h
  cases t with
  | none =>
    cases i with
    | none => exact (hf.allowed _ (Ast.mem_subterms_self _)).elim
    | some i =>
      simp only [visitVarDec, bind_eq_ok] at h
      obtain ⟨s₁, h₁, h⟩ := h
      cases h
      have hs₀ : Entry F ρ i.nodes s := hs.sub (List.sublist_cons_self ..).subperm
      have hck := checked_type ih rfl hi.ofSome (hs₀.congr rfl rfl) h₁
      have hsome := hck.typed rfl
      have hout : a ∉ i.nodes := (List.nodup_cons.mp hs.nodup).1
      refine .of_told rfl ⟨(hck.runs.step (Own.typeSet (a := a) hsome)
        (.reached (not_mem_singleton hout))).congr ?_ fun _ => Iff.rfl, isSome_typeSet hsome⟩
        (fun _ h => h) (by simp [met_cons, Tracked]) fun rs hrs _ r hr hra => ?_
      · intro b hb
        simp only [List.mem_append, Ast.nodes, List.nil_append, List.mem_cons, List.not_mem_nil,
          or_false] at hb ⊢
        exact hb.symm
      · obtain ⟨rs₁, hrs₁, hl⟩ := hck.runs.errors
        have heq : rs = rs₁ := List.append_cancel_left (hrs.symm.trans hrs₁)
        exact hout (hra ▸ hl.node r (heq ▸ hr))
  | some t =>
    have ht := hplain ht.ofSome rfl rfl rfl
    have htold {P : List (Σ k, Ast Addr k)} {s' : TypeChecker}
        (hr : Runs F (Ast.varDec a x (.some t) i).nodes P s s' ∧ (s'.types a).isSome = true)
        (hp : ∀ c, Met (⟨_, .varDec a x (.some t) i⟩ :: P) c ↔
          Met ((Ast.varDec a x (.some t) i).reached F.counted) c) :
        Checked F ρ (.varDec a x (.some t) i) s s' :=
      .of_told rfl hr (fun _ h => h) hp fun _ _ => trivial
    cases i with
    | none =>
      simp only [visitVarDec, bind_eq_ok] at h
      obtain ⟨s₁, h₁, h⟩ := h
      cases h
      refine htold ((Visits.type (a := a) h₁).finish ih (by simpa using ht) hs
        (List.Perm.subperm (by simp [Ast.nodes])) fun hsome => ?_) (by simp [met_cons, Tracked])
      have hsome := hsome ⟨_, t⟩ (by simp)
      exact ⟨Own.typeSet hsome, isSome_typeSet hsome⟩
    | some i =>
      have hi := hplain hi.ofSome rfl rfl rfl
      simp only [visitVarDec, checkInit, bind_eq_ok] at h
      obtain ⟨s₁, h₁, r, h₂, h⟩ := h
      split at h
      · cases h
      · simp only [bind_eq_ok] at h
        obtain ⟨s₂, h₃, h⟩ := h
        cases h
        exact htold (((Visits.type h₁).append ((Visits.typeRef h₂).step
          (Own.checkTypes h₃))).finish ih (by simpa using ⟨ht, hi⟩) hs
          (List.Perm.subperm (by simp [Ast.nodes])) fun _ => ⟨Own.typeSet rfl, isSome_typeSet rfl⟩)
          (by simp [met_cons, Tracked])

/-! ## Chunks -/

omit ih in
theorem afters_list : (ds : Ast Addr (.list j)) → ∀ ρ : Scope,
    afters ρ (ds.toList.map (⟨j, ·⟩)) = ρ.after ds
  | .nil, _ => rfl
  | .cons d ds, ρ => afters_list ds (ρ.after d)

omit ih in
/-- The elements of a collection, each in the scope of those before it. -/
theorem Along.list (hm : HasMethod j = true) : (ds : Ast Addr (.list j)) → ∀ {ρ : Scope},
    Fit F ρ ds → (∀ d ∈ ds.toList, ∀ v, (⟨j, d⟩ : Σ k, Ast Addr k) = ⟨.varDec, v⟩ →
      ¬ F.loop v.varAddr) → Along F ρ (ds.toList.map (⟨j, ·⟩))
  | .nil, _, _, _ => trivial
  | .cons d ds, ρ, hf, hl =>
    have hd : Fit F ρ d := hf.child hf.bound.1 (Ast.mem_first rfl)
    have hds : Fit F (ρ.after d) ds := hf.child hf.bound.2 (Ast.mem_second rfl)
    ⟨hm, ⟨ρ, hd, rfl, rfl, fun _ => rfl⟩, hl d (.head _),
      Along.list hm ds hds fun d' hd' => hl d' (.tail _ hd')⟩

/-- A class whose method is the loop over its elements. -/
theorem checked_visitAll {a : Addr} {ds : Ast Addr (.list j)} (hk : GetsType k = false)
    (hm : HasMethod j = true) (hf : Fit F ρ ds) (hs : Entry F ρ t.nodes s)
    (hl : ∀ d ∈ ds.toList, ∀ v, (⟨j, d⟩ : Σ k, Ast Addr k) = ⟨.varDec, v⟩ → ¬ F.loop v.varAddr)
    (h : s.visitAll (fun s d => accept F.tree n d s) ds.toList = .ok s')
    (hn : t.nodes = a :: ds.nodes) (hp : t.reached F.counted = ⟨k, t⟩ :: ds.reached F.counted)
    (hu : Tracked ⟨k, t⟩ = false) (hafter : ρ.after t = ρ.after ds) :
    Checked F ρ t s s' := by
  rw [hn] at hs
  have hnodes := nodesOf_list ds
  obtain ⟨hr, -, hopen⟩ := (Visits.visitAll (a := a) h).runs ih (.list hm ds hf hl)
    (by rw [hnodes]; exact hs.sub (List.sublist_cons_self ..).subperm)
    (by rw [hnodes]; exact (List.nodup_cons.mp hs.nodup).1)
  refine ⟨hr.congr (by rw [hnodes, hn]; exact fun _ h => h) fun b => ?_,
    fun hf => absurd (hf.symm.trans hk) (by decide), fun _ => ?_⟩
  · simp [hp, met_list, met_cons, hu]
  · rw [hafter, ← afters_list]
    exact hopen

/-- What the header of a function reaches. -/
def headReached (F : Facts) : Ast Addr .functionDec → List (Σ k, Ast Addr k)
  | .functionDec _ _ formals result _ => formals.reached F.counted ++ result.reached F.counted

/-- What the body of a function reaches. -/
def bodyReached (F : Facts) : Ast Addr .functionDec → List (Σ k, Ast Addr k)
  | .functionDec _ _ _ _ body => body.reached F.counted

/-- The nodes of the formals and of the result of a function. -/
def headParts : Ast Addr .functionDec → List Addr
  | .functionDec _ _ formals result _ => formals.nodes ++ result.nodes

omit ih in
theorem headNodes_perm (ds : List (Ast Addr .functionDec)) :
    (ds.flatMap headNodes).Perm (ds.map Ast.functionAddr ++ ds.flatMap headParts) := by
  induction ds with
  | nil => exact .refl _
  | cons d ds ihd =>
    cases d with
    | functionDec a x fs r b =>
      simp only [List.flatMap_cons, List.map_cons, headNodes, headParts, Ast.functionAddr,
        List.cons_append]
      refine List.Perm.cons a ?_
      exact (ihd.append_left _).trans (List.perm_append_comm_assoc ..)

omit ih in
theorem Apart.head {d : Ast Addr .functionDec} (h : ∀ b ∈ headParts d, b ∉ N) :
    Apart F (headReached F d) N := by
  cases d with
  | functionDec a x fs r b =>
    exact .append (.reached fun b hb => h b (List.mem_append_left _ hb))
      (.reached fun b hb => h b (List.mem_append_right _ hb))

omit ih in
theorem Apart.body {d : Ast Addr .functionDec} (h : ∀ b ∈ bodyNodes d, b ∉ N) :
    Apart F (bodyReached F d) N := by
  cases d
  exact .reached h

omit ih in
theorem Apart.flatMap {α : Type} {ds : List α} {g : α → List (Σ k, Ast Addr k)}
    (h : ∀ d ∈ ds, Apart F (g d) N) : Apart F (ds.flatMap g) N := by
  intro c hc
  obtain ⟨d, hd, hc⟩ := List.mem_flatMap.mp hc
  exact h d hd c hc

/-- The formals of a function have their types. -/
def FormalsTyped (s : TypeChecker) : Ast Addr .functionDec → Prop
  | .functionDec _ _ (.varChunk _ fs) _ _ => ∀ v ∈ fs.toList, (s.typeGet v).isSome = true

omit ih in
theorem FormalsTyped.runs {d : Ast Addr .functionDec} (h : FormalsTyped s d)
    (hr : Runs F N P s s') : FormalsTyped s' d := by
  cases d with
  | functionDec a x fs r b =>
    cases fs
    exact fun v hv => hr.typed _ (h v hv)

omit ih in
/-- A function with as many formals as its declaration is made. -/
theorem runs_createFunction {fs : List (Symbol × TypePtr)} {r : TypePtr}
    (ha : F.arity a = some fs.length) : Runs F [a] [] s (s.createFunction a fs r) where
  types b hb := setDefault_of_ne (by simpa using hb)
  typed _ h := isSome_setDefault_of_isSome h
  nameds _ h := h
  readOnly _ h := h
  sound h := by
    refine ⟨h.readOnly, fun b gs q hb => ?_⟩
    by_cases hba : b = a
    · subst hba
      simp only [createFunction, typeDefault, setDefault] at hb
      split at hb
      · exact h.functions _ _ _ hb
      · simp only [Function.update_self, Option.some.injEq, Prod.mk.injEq] at hb
        exact hb.1 ▸ ha
    · exact h.functions b gs q ((setDefault_of_ne hba).symm.trans hb)
  errors := ⟨[], by simp [createFunction, typeDefault], .nil ..⟩

theorem runs_functionHeader {d : Ast Addr .functionDec} (hf : Fit F ρ d)
    (hs : Entry F ρ (headNodes d) s) (h : s.functionHeader (accept F.tree n) d = .ok s') :
    Runs F (headNodes d) (headReached F d) s s' ∧ FormalsTyped s' d := by
  cases d with
  | functionDec a x fs r b =>
    cases fs with
    | varChunk c fs =>
      have harity : F.arity a = some fs.toList.length := hf.allowed _ (Ast.mem_subterms_self _)
      have hloop : ∀ v ∈ fs.toList, ¬ F.loop v.varAddr :=
        hf.allowed ⟨_, .varChunk c fs⟩ (Ast.mem_first rfl)
      have hfs : Fit F ρ fs := hf.child hf.bound.2.1.2 (by simp [Ast.subterms])
      have hr : Fit F ρ.putAside r := hf.child hf.bound.2.2.1 (Ast.mem_second rfl)
      simp only [functionHeader, bind_eq_ok] at h
      obtain ⟨p, h₁, q, h₂, h⟩ := h
      cases h
      have hs₀ : Entry F ρ (fs.nodes ++ r.nodes) s :=
        hs.sub (((List.Sublist.refl _).cons c).cons a).subperm
      obtain ⟨hv, hlen⟩ := Visits.typeFields (a := a) h₁
      have hmap : ((formalsOf fs.toList).map fun e => (⟨.varDec, e.2⟩ : Σ k, Ast Addr k)) =
          fs.toList.map (⟨.varDec, ·⟩) := by simp [formalsOf]
      rw [hmap] at hv
      have hnodup := hs.nodup
      simp only [headNodes, Ast.nodes, List.nodup_cons, List.mem_append, List.mem_cons,
        not_or] at hnodup
      -- the formals, each in the scope of those before it
      obtain ⟨hr₁, ht₁, -⟩ := hv.runs ih (.list rfl fs hfs fun v hv w hw => by
        cases hw
        exact hloop v hv) (by rw [nodesOf_list]; exact hs₀.left)
        (by rw [nodesOf_list]; exact hnodup.1.1.2)
      have hr₁ : Runs F (a :: fs.nodes) (fs.reached F.counted) s p.1 :=
        hr₁.congr (by rw [nodesOf_list]; exact fun _ h => h) fun b => met_list fs
      have hs₁ : Entry F ρ r.nodes p.1 :=
        Entry.next (N := a :: fs.nodes)
          (hs.sub (((List.Sublist.refl _).cons c).cons_cons a).subperm) hr₁
      have hr₂ : Runs F r.nodes (r.reached F.counted) p.1 q.1 := by
        cases r with
        | none =>
          cases h₂
          exact (Runs.refl _ _).congr (fun _ h => h) (by simp [met_cons, Tracked])
        | some r =>
          have hck := checked_type ih rfl hr.ofSome (hs₁.congr rfl rfl) (type_of_typeRef h₂)
          exact hck.runs.congr (fun _ h => h) (by simp [met_cons, Tracked])
      have hr₃ : Runs F [a] [] q.1 (q.1.createFunction a p.2 q.2) := by
        refine runs_createFunction ?_
        rw [harity, hlen]
        simp [formalsOf]
      have hdis := List.disjoint_of_nodup_append hs₀.nodup
      have hr₁₂ := hr₁.trans hr₂ (.reached fun _ h h' => hdis h h') (.reached fun b h h' => by
        rcases List.mem_cons.mp h' with rfl | h'
        · exact hnodup.1.2 h
        · exact hdis h' h)
      have ha : Apart F (fs.reached F.counted ++ r.reached F.counted) [a] :=
        .append (.reached (not_mem_singleton hnodup.1.1.2))
          (.reached (not_mem_singleton hnodup.1.2))
      refine ⟨(hr₁₂.trans hr₃ ha (.nil _)).congr ?_ ?_, fun v hv => ?_⟩
      · intro b hb
        simp only [List.mem_append, List.mem_cons, List.not_mem_nil, or_false, headNodes,
          Ast.nodes] at hb ⊢
        grind
      · simp [headReached, met_cons, Tracked]
      · exact hr₃.typed _ (hr₂.typed _ (ht₁ ⟨_, v⟩ (List.mem_map_of_mem hv) rfl))

theorem runs_functionHeaders {ds : List (Ast Addr .functionDec)} (hf : ∀ d ∈ ds, Fit F ρ d)
    (hs : Entry F ρ (ds.flatMap headNodes) s)
    (h : s.visitAll (fun s d => s.functionHeader (accept F.tree n) d) ds = .ok s') :
    Runs F (ds.flatMap headNodes) (ds.flatMap (headReached F)) s s' ∧
      ∀ d ∈ ds, FormalsTyped s' d := by
  induction ds generalizing s with
  | nil =>
    cases h
    exact ⟨Runs.refl _ _, nofun⟩
  | cons d ds ihd =>
    simp only [visitAll, bind_eq_ok] at h
    obtain ⟨s₁, h₁, h⟩ := h
    rw [List.flatMap_cons] at hs
    obtain ⟨hr₁, ht₁⟩ := runs_functionHeader ih (hf d (.head _)) hs.left h₁
    obtain ⟨hr₂, ht₂⟩ := ihd (fun d hd => hf d (.tail _ hd)) (hs.next hr₁) h
    have hdis := List.disjoint_of_nodup_append hs.nodup
    have hparts {d : Ast Addr .functionDec} : headParts d ⊆ headNodes d := by
      cases d
      exact List.subset_cons_self ..
    have hr := hr₁.trans hr₂ (.head fun b hb hb' => hdis (hparts hb) hb') (.flatMap fun d hd =>
      .head fun b hb hb' => hdis hb' (List.mem_flatMap.mpr ⟨d, hd, hparts hb⟩))
    refine ⟨hr, fun d' hd' => ?_⟩
    rcases List.mem_cons.mp hd' with rfl | hd'
    · exact ht₁.runs hr₂
    · exact ht₂ d' hd'

omit ih in
/-- The scope of the body of a function. -/
theorem Open.formals {c : Addr} : (fs : Ast Addr (.list .varDec)) → ∀ {ρ : Scope},
    Open F ρ s → (∀ v ∈ fs.toList, (s.typeGet v).isSome = true) →
    (∀ v ∈ fs.toList, ¬ F.loop v.varAddr) → Open F (ρ.after (.varChunk c fs)) s
  | .nil, _, ho, _, _ => ho
  | .cons v fs, _, ho, ht, hl =>
    Open.formals (c := c) fs (ho.varDec (ht v (.head _)) fun hloop => absurd hloop (hl v (.head _)))
      (fun w hw => ht w (.tail _ hw)) fun w hw => hl w (.tail _ hw)

theorem runs_functionBody {d : Ast Addr .functionDec} (hf : Fit F ρ d)
    (hs : Entry F ρ (bodyNodes d) s) (ht : FormalsTyped s d) (hn : d.functionAddr ∉ bodyNodes d)
    (h : s.functionBody n (accept F.tree n) d = .ok s') :
    Runs F (d.functionAddr :: bodyNodes d) (bodyReached F d) s s' := by
  cases d with
  | functionDec a x fs r b =>
    cases fs with
    | varChunk c fs =>
      have hloop : ∀ v ∈ fs.toList, ¬ F.loop v.varAddr :=
        hf.allowed ⟨_, .varChunk c fs⟩ (Ast.mem_first rfl)
      have hb : Fit F (ρ.after (.varChunk c fs)) b :=
        hf.child hf.bound.2.2.2 (Ast.mem_third rfl)
      cases b with
      | none =>
        cases h
        exact (Runs.refl _ _).congr (fun _ h => h) (by simp [bodyReached, met_cons, Tracked])
      | some b =>
        simp only [functionBody] at h
        split at h
        · simp only [bind_eq_ok] at h
          obtain ⟨r₁, h₁, h⟩ := h
          have hck := checked_type ih rfl hb.ofSome
            { hs with opens := hs.opens.formals fs ht hloop } (type_of_typeRef h₁)
          refine (hck.runs.step (Own.checkTypes h) (.reached (not_mem_singleton hn))).congr
            (fun e he => ?_) (by simp [bodyReached, met_cons, Tracked])
          exact List.mem_cons.mpr ((List.mem_append.mp he).imp_right List.mem_singleton.mp).symm
        · cases h

theorem runs_functionBodies {ds : List (Ast Addr .functionDec)} (hf : ∀ d ∈ ds, Fit F ρ d)
    (hs : Entry F ρ (ds.flatMap bodyNodes) s) (ht : ∀ d ∈ ds, FormalsTyped s d)
    (hn : ∀ d ∈ ds, d.functionAddr ∉ ds.flatMap bodyNodes)
    (h : s.visitAll (fun s d => s.functionBody n (accept F.tree n) d) ds = .ok s') :
    Runs F (ds.map Ast.functionAddr ++ ds.flatMap bodyNodes) (ds.flatMap (bodyReached F)) s s' := by
  induction ds generalizing s with
  | nil =>
    cases h
    exact Runs.refl _ _
  | cons d ds ihd =>
    simp only [visitAll, bind_eq_ok] at h
    obtain ⟨s₁, h₁, h⟩ := h
    simp only [List.flatMap_cons, List.mem_append, not_or] at hs hn
    have hdis := List.disjoint_of_nodup_append hs.nodup
    have hr₁ := runs_functionBody ih (hf d (.head _)) hs.left (ht d (.head _)) (hn d (.head _)).1 h₁
    have hrest : Entry F ρ (ds.flatMap bodyNodes) s₁ :=
      (hs.sub (List.sublist_append_right ..).subperm).avoid hr₁ fun b hb hN => by
        rcases List.mem_cons.mp hN with rfl | hN
        · exact (hn d (.head _)).2 hb
        · exact hdis hN hb
    have hr₂ := ihd (fun d hd => hf d (.tail _ hd)) hrest
      (fun d hd => (ht d (.tail _ hd)).runs hr₁) (fun d hd => (hn d (.tail _ hd)).2) h
    have hP : Apart F (bodyReached F d) (ds.map Ast.functionAddr ++ ds.flatMap bodyNodes) :=
      .body fun b hb hb' => by
        rcases List.mem_append.mp hb' with hb' | hb'
        · obtain ⟨d', hd', rfl⟩ := List.mem_map.mp hb'
          exact (hn d' (.tail _ hd')).1 hb
        · exact hdis hb hb'
    have hQ : Apart F (ds.flatMap (bodyReached F)) (d.functionAddr :: bodyNodes d) :=
      .flatMap fun d' hd' => .body fun b hb hb' => by
        have hin : b ∈ ds.flatMap bodyNodes := List.mem_flatMap.mpr ⟨d', hd', hb⟩
        rcases List.mem_cons.mp hb' with rfl | hb'
        · exact (hn d (.head _)).2 hin
        · exact hdis hb' hin
    refine (hr₁.trans hr₂ hP hQ).congr (fun b hb => ?_) (by simp)
    simp only [List.map_cons, List.flatMap_cons, List.mem_append, List.mem_cons] at hb ⊢
    grind

omit ih in
theorem met_functions {c : Σ k, Ast Addr k} : (ds : Ast Addr (.list .functionDec)) →
    (Met (ds.toList.flatMap (headReached F) ++ ds.toList.flatMap (bodyReached F)) c ↔
      Met (ds.reached F.counted) c)
  | .nil => by simp [met_cons, Tracked]
  | .cons (.functionDec b x fs r body) ds => by
    have hds := met_functions (c := c) ds
    simp only [met_append] at hds
    simp only [Ast.toList_cons, List.flatMap_cons, headReached, bodyReached, met_append,
      Ast.reached, met_cons, Tracked, Bool.false_eq_true, and_false, false_or, ← hds]
    tauto

theorem checked_functionChunk {ds : Ast Addr (.list .functionDec)}
    (hf : Fit F ρ (.functionChunk a ds)) (hs : Entry F ρ (Ast.functionChunk a ds).nodes s)
    (h : s.visit F.tree n (accept F.tree n) (.functionChunk a ds) = .ok s') :
    Checked F ρ (.functionChunk a ds) s s' := by
  have hds : Fit F (ρ.putFuns ds.toList) ds := hf.child hf.bound.2 (Ast.mem_first rfl)
  have hfit (d : Ast Addr .functionDec) (hd : d ∈ ds.toList) : Fit F (ρ.putFuns ds.toList) d :=
    hds.child (hds.bound.of_mem rfl d hd) (Ast.mem_subterms_of_mem hd)
  simp only [visit, bind_eq_ok] at h
  obtain ⟨s₁, h₁, h⟩ := h
  have hs₀ : Entry F (ρ.putFuns ds.toList)
      (ds.toList.flatMap headNodes ++ ds.toList.flatMap bodyNodes) s :=
    ((hs.sub (List.sublist_cons_self ..).subperm).sub (nodes_perm ds).symm.subperm).congr
      (Scope.putFuns_vars _).1 (Scope.putFuns_types _)
  obtain ⟨hr₁, ht₁⟩ := runs_functionHeaders ih hfit hs₀.left h₁
  have hdis := List.disjoint_of_nodup_append hs₀.nodup
  have hperm := headNodes_perm ds.toList
  have hhead {b : Addr} (hb : b ∈ ds.toList.map Ast.functionAddr) :
      b ∈ ds.toList.flatMap headNodes := hperm.mem_iff.mpr (List.mem_append_left _ hb)
  have hr₂ := runs_functionBodies ih hfit (hs₀.next hr₁) ht₁
    (fun d hd => hdis (hhead (List.mem_map_of_mem hd))) h
  -- the addresses of the functions are none of the parts of their headers
  have hP : Apart F (ds.toList.flatMap (headReached F))
      (ds.toList.map Ast.functionAddr ++ ds.toList.flatMap bodyNodes) :=
    .flatMap fun d hd => .head fun b hb hb' => by
      have hin : b ∈ ds.toList.flatMap headParts := List.mem_flatMap.mpr ⟨d, hd, hb⟩
      rcases List.mem_append.mp hb' with hb' | hb'
      · exact List.disjoint_of_nodup_append (hperm.nodup_iff.mp hs₀.left.nodup) hb' hin
      · exact hdis (hperm.mem_iff.mpr (List.mem_append_right _ hin)) hb'
  have hQ : Apart F (ds.toList.flatMap (bodyReached F)) (ds.toList.flatMap headNodes) :=
    .flatMap fun d hd => .body fun b hb hb' =>
      hdis hb' (List.mem_flatMap.mpr ⟨d, hd, hb⟩)
  have hr := hr₁.trans hr₂ hP hQ
  refine ⟨hr.congr (fun b hb => .tail _ ((nodes_perm ds).mem_iff.mpr ?_)) fun b => ?_,
    by rintro ⟨⟩, fun _ => ?_⟩
  · simp only [List.mem_append] at hb ⊢
    exact hb.elim .inl fun hb => hb.imp_left hhead
  · rw [met_functions]
    simp [met_cons, Tracked]
  · exact (hs.opens.runs hr).congr (Scope.putFuns_vars _).1 (Scope.putFuns_types _)

omit ih in
theorem runs_typeHeaders {ds : List (Ast Addr .typeDec)}
    (h : s.visitAll (fun s d => s.typeHeader d) ds = .ok s') :
    Runs F (ds.map Ast.typeAddr) [] s s' ∧
      ∀ d ∈ ds, (s'.heap.nameds d.typeAddr).isSome = true := by
  induction ds generalizing s with
  | nil =>
    cases h
    exact ⟨Runs.refl _ _, nofun⟩
  | cons d ds ihd =>
    simp only [visitAll, bind_eq_ok] at h
    obtain ⟨s₁, h₁, h⟩ := h
    cases d with
    | typeDec a x ty =>
      cases h₁
      obtain ⟨hr, hd⟩ := ihd h
      have hr₀ : Runs F [a] [] s (s.createNamed a x) :=
        ⟨fun b hb => setDefault_of_ne (by simpa using hb), fun _ => isSome_setDefault_of_isSome,
          fun _ => isSome_setDefault_of_isSome, fun _ h => h,
          fun h => ⟨h.readOnly, h.functions⟩, [], by simp [createNamed, typeDefault], .nil ..⟩
      refine ⟨hr₀.trans hr (.nil _) (.nil _), fun d' hd' => ?_⟩
      rcases List.mem_cons.mp hd' with rfl | hd'
      · exact hr.nameds _ isSome_setDefault
      · exact hd d' hd'

theorem runs_typeBody {d : Ast Addr .typeDec} (hf : Fit F ρ d) (hs : Entry F ρ (tyOf d).nodes s)
    (hn : d.typeAddr ∉ (tyOf d).nodes) (h : s.typeBody n (accept F.tree n) d = .ok s') :
    Runs F (d.typeAddr :: (tyOf d).nodes) ((tyOf d).reached F.counted) s s' := by
  cases d with
  | typeDec a x ty =>
    simp only [typeBody, bind_eq_ok] at h
    obtain ⟨s₁, h₁, c, -, h⟩ := h
    have hck := checked_type ih rfl (hf.child hf.bound.2 (e := ty) (Ast.mem_first rfl))
      (hs.congr rfl rfl) h₁
    have hr : Runs F [] [] s₁ (s₁.namedTypeSet a (s₁.createdTy ty)) :=
      ⟨fun _ _ => rfl, fun _ h => h, (frame_namedTypeSet s₁ a _).nameds, fun _ h => h,
        fun h => ⟨h.readOnly, h.functions⟩, [], by simp [namedTypeSet], .nil ..⟩
    have ho : Own a (s₁.namedTypeSet a (s₁.createdTy ty)) s' := by
      cases c
      · cases h
        exact Own.errorAndRecover
      · cases h
        exact Own.refl ..
    have hr := hck.runs.trans hr (.reached fun _ _ => List.not_mem_nil) (.nil _)
    refine (hr.step ho ((Apart.reached (not_mem_singleton hn)).append (.nil _))).congr
      (fun b hb => ?_) (by simp [tyOf])
    simp only [List.mem_append, List.mem_cons, List.not_mem_nil, or_false] at hb
    exact List.mem_cons.mpr hb.symm

theorem runs_typeBodies {ds : List (Ast Addr .typeDec)} (hf : ∀ d ∈ ds, Fit F ρ d)
    (hs : Entry F ρ (ds.flatMap fun d => (tyOf d).nodes) s)
    (hn : ∀ d ∈ ds, d.typeAddr ∉ ds.flatMap fun d => (tyOf d).nodes)
    (h : s.visitAll (fun s d => s.typeBody n (accept F.tree n) d) ds = .ok s') :
    Runs F (ds.map Ast.typeAddr ++ ds.flatMap fun d => (tyOf d).nodes)
      (ds.flatMap fun d => (tyOf d).reached F.counted) s s' := by
  induction ds generalizing s with
  | nil =>
    cases h
    exact Runs.refl _ _
  | cons d ds ihd =>
    simp only [visitAll, bind_eq_ok] at h
    obtain ⟨s₁, h₁, h⟩ := h
    simp only [List.flatMap_cons, List.mem_append, not_or] at hs hn
    have hdis := List.disjoint_of_nodup_append hs.nodup
    have hr₁ := runs_typeBody ih (hf d (.head _)) hs.left (hn d (.head _)).1 h₁
    have hrest : Entry F ρ (ds.flatMap fun d => (tyOf d).nodes) s₁ :=
      (hs.sub (List.sublist_append_right ..).subperm).avoid hr₁ fun b hb hN => by
        rcases List.mem_cons.mp hN with rfl | hN
        · exact (hn d (.head _)).2 hb
        · exact hdis hN hb
    have hr₂ := ihd (fun d hd => hf d (.tail _ hd)) hrest (fun d hd => (hn d (.tail _ hd)).2) h
    have hP : Apart F ((tyOf d).reached F.counted)
        (ds.map Ast.typeAddr ++ ds.flatMap fun d => (tyOf d).nodes) := .reached fun b hb hb' => by
      rcases List.mem_append.mp hb' with hb' | hb'
      · obtain ⟨d', hd', rfl⟩ := List.mem_map.mp hb'
        exact (hn d' (.tail _ hd')).1 hb
      · exact hdis hb hb'
    have hQ : Apart F (ds.flatMap fun d => (tyOf d).reached F.counted)
        (d.typeAddr :: (tyOf d).nodes) := .flatMap fun d' hd' => .reached fun b hb hb' => by
      have hin : b ∈ ds.flatMap fun d => (tyOf d).nodes := List.mem_flatMap.mpr ⟨d', hd', hb⟩
      rcases List.mem_cons.mp hb' with rfl | hb'
      · exact (hn d (.head _)).2 hin
      · exact hdis hb' hin
    refine (hr₁.trans hr₂ hP hQ).congr (fun b hb => ?_) (by simp)
    simp only [List.map_cons, List.flatMap_cons, List.mem_append, List.mem_cons] at hb ⊢
    grind

omit ih in
theorem met_types {c : Σ k, Ast Addr k} : (ds : Ast Addr (.list .typeDec)) →
    (Met (ds.toList.flatMap fun d => (tyOf d).reached F.counted) c ↔ Met (ds.reached F.counted) c)
  | .nil => by simp [met_cons, Tracked]
  | .cons (.typeDec b x ty) ds => by
    have hds := met_types (c := c) ds
    simp only [Ast.toList_cons, List.flatMap_cons, tyOf, met_append, Ast.reached,
      met_cons, Tracked, Bool.false_eq_true, and_false, false_or, ← hds]

theorem checked_typeChunk {ds : Ast Addr (.list .typeDec)}
    (hf : Fit F ρ (.typeChunk a ds)) (hs : Entry F ρ (Ast.typeChunk a ds).nodes s)
    (h : s.visit F.tree n (accept F.tree n) (.typeChunk a ds) = .ok s') :
    Checked F ρ (.typeChunk a ds) s s' := by
  have hds : Fit F (ρ.putTypes ds.toList) ds := hf.child hf.bound.2 (Ast.mem_first rfl)
  have hfit (d : Ast Addr .typeDec) (hd : d ∈ ds.toList) : Fit F (ρ.putTypes ds.toList) d :=
    hds.child (hds.bound.of_mem rfl d hd) (Ast.mem_subterms_of_mem hd)
  simp only [visit, bind_eq_ok] at h
  obtain ⟨s₁, h₁, h⟩ := h
  have hs₀ :
      Entry F ρ (ds.toList.map Ast.typeAddr ++ ds.toList.flatMap fun d => (tyOf d).nodes) s :=
    (hs.sub (List.sublist_cons_self ..).subperm).sub (typeNodes_perm ds).symm.subperm
  obtain ⟨hr₁, hd₁⟩ := runs_typeHeaders (F := F) h₁
  have hs₁ := hs₀.next hr₁
  -- the types of the chunk are visible in all of it
  have hopen : Open F (ρ.putTypes ds.toList) s₁ :=
    ⟨hs₁.opens.toReady.putTypes hd₁, fun x d hd => hs₁.opens.loops x d
      ((Scope.putTypes_vars ds.toList).1 ▸ hd)⟩
  have hr₂ := runs_typeBodies ih hfit { hs₁ with opens := hopen }
    (fun d hd => List.disjoint_of_nodup_append hs₀.nodup (List.mem_map_of_mem hd)) h
  have hQ : Apart F (ds.toList.flatMap fun d => (tyOf d).reached F.counted)
      (ds.toList.map Ast.typeAddr) := .flatMap fun d hd => .reached fun b hb hb' =>
    List.disjoint_of_nodup_append hs₀.nodup hb' (List.mem_flatMap.mpr ⟨d, hd, hb⟩)
  refine ⟨(hr₁.trans hr₂ (.nil _) hQ).congr (fun b hb => List.mem_cons_of_mem a ?_) fun b => ?_,
    by rintro ⟨⟩, fun _ => hopen.runs hr₂⟩
  · rw [(typeNodes_perm ds).mem_iff]
    simp only [List.mem_append] at hb ⊢
    grind
  · rw [met_append, met_types]
    simp [met_cons, Tracked]

end Methods

/-- **Every node is checked that is visited in its scope.** -/
theorem checks (F : Facts) (n : Nat) : Checks F n := by
  induction n with
  | zero =>
    intro k t ρ s s' _ _ _ h
    cases h
  | succ n ih =>
    intro k t ρ s s' hm hf hs h
    rw [accept] at h
    cases t with
    | nil | cons | none | some | field | fieldInit | functionDec | typeDec => cases hm
    | castExp a e ty => exact (hf.allowed _ (Ast.mem_subterms_self _)).elim
    | nilExp a | intExp a | stringExp a | breakExp a =>
      cases h
      exact checked_leaf rfl rfl (by simp [met_cons, Tracked]) rfl
    | simpleVar a x => exact checked_simpleVar hf hs h
    | nameTy a x => exact checked_nameTy hf hs h
    | fieldVar a v x => exact checked_fieldVar ih hf hs h
    | subscriptVar a v i => exact checked_subscriptVar ih hf hs h
    | ofVar v =>
      exact checked_inclusion ih (e := v) rfl rfl rfl
        (hf.child hf.bound (Ast.mem_first rfl)) hs h rfl rfl rfl
    | ofNameTy t =>
      exact checked_inclusion ih (e := t) rfl rfl rfl
        (hf.child hf.bound (Ast.mem_first rfl)) hs h rfl rfl rfl
    | callExp a x args => exact checked_callExp ih hf hs h
    | opExp a l op r => exact checked_opExp ih hf hs h
    | recordExp a t fs => exact checked_recordExp ih hf hs h
    | seqExp a es => exact checked_seqExp ih hf hs h
    | assignExp a v e => exact checked_assignExp ih hf hs h
    | ifExp a c t e => exact checked_ifExp ih hf hs h
    | whileExp a c body => exact checked_whileExp ih hf hs h
    | forExp a d hi body => exact checked_forExp ih hf hs h
    | letExp a cs body => exact checked_letExp ih hf hs h
    | arrayExp a t size i => exact checked_arrayExp ih hf hs h
    | recordTy a fs => exact checked_recordTy ih hf hs h
    | arrayTy a t => exact checked_arrayTy ih hf hs h
    | varDec a x t i => exact checked_varDec ih hf hs h
    | varChunk a ds =>
      refine checked_visitAll ih rfl rfl (hf.child hf.bound.2 (Ast.mem_first rfl)) hs
        (fun d hd v hv => ?_) h rfl rfl rfl rfl
      cases hv
      exact hf.allowed _ (Ast.mem_subterms_self _) d hd
    | ofVarChunk c =>
      have hck := ih c ρ s s' rfl (hf.child hf.bound (Ast.mem_first rfl)) hs h
      exact ⟨hck.runs.congr (fun _ h => h) (by simp [met_cons, Tracked]), by rintro ⟨⟩,
        hck.opens⟩
    | functionChunk a ds => exact checked_functionChunk ih hf hs h
    | typeChunk a ds => exact checked_typeChunk ih hf hs h
    | chunkList a ds =>
      exact checked_visitAll ih rfl rfl (hf.child hf.bound.2 (Ast.mem_first rfl)) hs
        (fun _ _ _ => (by rintro ⟨⟩)) h rfl rfl rfl rfl

end TypeChecker

end TigerCompiler
