import TigerCompiler.Bind.Lexical

/-!
# Declarations and uses of variables

The declarations and the uses of variables in a tree, in the order in which the default visitor
meets them, each with the functions, the loops and the `let`s around it.  In a program that is
bound as lexical scoping requires, a use comes after the declaration it is bound to, and what is
around the declaration is around the use (`placed_occurrences`).
-/

namespace TigerCompiler

/-- A function. -/
def Ast.isFunction {α : Type} : {k : Kind} → Ast α k → Bool
  | _, .functionDec _ _ _ _ _ => true
  | _, _ => false

/-- A `let` or a `for` loop. -/
def Ast.isLetOrFor {α : Type} : {k : Kind} → Ast α k → Bool
  | _, .forExp _ _ _ _ | _, .letExp _ _ _ => true
  | _, _ => false

/-- The functions, loops and `let`s around a place, innermost first. -/
abbrev Surroundings := List (Σ k, Ast Addr k)

/-- The declaration of a variable at its address, or a use by its address. -/
inductive Occurrence
  | declaration (d : Addr) (around : Surroundings)
  | use (a : Addr) (around : Surroundings)

/-- The declarations and uses of variables in a tree, in the order they are visited in. -/
def Ast.occurrences : {k : Kind} → Ast Addr k → Surroundings → List Occurrence
  | _, .nil, _ => []
  | _, .cons x xs, π => x.occurrences π ++ xs.occurrences π
  | _, .none, _ => []
  | _, .some x, π => x.occurrences π
  | _, .simpleVar a _, π => [.use a π]
  | _, .fieldVar _ v _, π => v.occurrences π
  | _, .subscriptVar _ v i, π => v.occurrences π ++ i.occurrences π
  | _, .ofVar v, π => v.occurrences π
  | _, .nilExp _, _ => []
  | _, .intExp _ _, _ => []
  | _, .stringExp _ _, _ => []
  | _, .callExp _ _ args, π => args.occurrences π
  | _, .opExp _ l _ r, π => l.occurrences π ++ r.occurrences π
  | _, .recordExp _ t fs, π => t.occurrences π ++ fs.occurrences π
  | _, .seqExp _ es, π => es.occurrences π
  | _, .assignExp _ v e, π => v.occurrences π ++ e.occurrences π
  | _, .ifExp _ c t e, π => c.occurrences π ++ t.occurrences π ++ e.occurrences π
  | _, .whileExp _ c body, π => c.occurrences π ++ body.occurrences π
  | _, t@(.forExp _ vardec hi body), π =>
    vardec.occurrences (⟨_, t⟩ :: π) ++ hi.occurrences (⟨_, t⟩ :: π) ++
      body.occurrences (⟨_, t⟩ :: π)
  | _, .breakExp _, _ => []
  | _, t@(.letExp _ chunks body), π =>
    chunks.occurrences (⟨_, t⟩ :: π) ++ body.occurrences (⟨_, t⟩ :: π)
  | _, .arrayExp _ t size init, π =>
    t.occurrences π ++ size.occurrences π ++ init.occurrences π
  | _, .castExp _ e t, π => e.occurrences π ++ t.occurrences π
  | _, .nameTy _ _, _ => []
  | _, .ofNameTy t, π => t.occurrences π
  | _, .recordTy _ fs, π => fs.occurrences π
  | _, .arrayTy _ t, π => t.occurrences π
  | _, .field _ _ t, π => t.occurrences π
  | _, .fieldInit _ _ init, π => init.occurrences π
  | _, .varDec a _ t init, π =>
    .declaration a π :: (t.occurrences π ++ init.occurrences π)
  | _, t@(.functionDec _ _ formals result body), π =>
    formals.occurrences (⟨_, t⟩ :: π) ++ result.occurrences (⟨_, t⟩ :: π) ++
      body.occurrences (⟨_, t⟩ :: π)
  | _, .typeDec _ _ ty, π => ty.occurrences π
  | _, .varChunk _ ds, π => ds.occurrences π
  | _, .ofVarChunk c, π => c.occurrences π
  | _, .functionChunk _ ds, π => ds.occurrences π
  | _, .typeChunk _ ds, π => ds.occurrences π
  | _, .chunkList _ cs, π => cs.occurrences π


/-- The `SimpleVar`s of a tree. -/
def Ast.varUses {α : Type} {k : Kind} (t : Ast α k) : List α :=
  t.subterms.filterMap fun | ⟨.var, .simpleVar a _⟩ => .some a | _ => .none

/-- The variable at `d` is used inside a part of the tree that is of the given sort and does not
hold its declaration. -/
def UsedInside (sort : ⦃k : Kind⦄ → Ast Addr k → Bool) (f : Addr → Option Addr) {k : Kind}
    (t : Ast Addr k) (d : Addr) : Prop :=
  ∃ c ∈ t.subterms, sort c.2 = true ∧ d ∉ c.2.nodes ∧ ∃ a ∈ c.2.varUses, f a = some d

instance (sort : ⦃k : Kind⦄ → Ast Addr k → Bool) (f : Addr → Option Addr) {k : Kind}
    (t : Ast Addr k) (d : Addr) : Decidable (UsedInside sort f t d) :=
  inferInstanceAs (Decidable (∃ c ∈ t.subterms, _))

/-- The uses of variables are bound to what lexical scoping makes visible. -/
def VarBound (f : Addr → Option Addr) ⦃k : Kind⦄ (ρ : Scope) : Ast Addr k → Prop
  | .simpleVar a x => ∃ d, ρ.vars x = some d ∧ f a = some d
  | _ => True

theorem LexicallyBound.varBound {f : Addr → Option Addr} {k : Kind} {ρ : Scope}
    {t : Ast Addr k} (h : LexicallyBound f ρ t) : VarBound f ρ t := by
  cases t <;> first | exact h | trivial

namespace Occurrence

/-- The addresses of the variables declared. -/
def declared (os : List Occurrence) : List Addr :=
  os.filterMap fun | .declaration d _ => some d | .use _ _ => none

@[simp] theorem declared_append (os os' : List Occurrence) :
    declared (os ++ os') = declared os ++ declared os' := List.filterMap_append

@[simp] theorem declared_cons_declaration (d : Addr) (π : Surroundings) (os : List Occurrence) :
    declared (.declaration d π :: os) = d :: declared os := rfl

@[simp] theorem declared_cons_use (a : Addr) (π : Surroundings) (os : List Occurrence) :
    declared (.use a π :: os) = declared os := rfl

/-- What is around the declarations met so far, after some more of them. -/
def known (K : Addr → Option Surroundings) : List Occurrence → Addr → Option Surroundings
  | [] => K
  | .declaration d π :: os => known (Function.update K d (some π)) os
  | .use _ _ :: os => known K os

/-- What is around a declaration that has been met holds it, and a use is bound to one of these,
with nothing more around it than what does not hold the declaration. -/
def WellPlaced (f : Addr → Option Addr) : (Addr → Option Surroundings) → List Occurrence → Prop
  | _, [] => True
  | K, .declaration d π :: os =>
    (∀ c ∈ π, d ∈ c.2.nodes) ∧ WellPlaced f (Function.update K d (some π)) os
  | K, .use a π :: os =>
    (∃ d β π', f a = some d ∧ K d = some π' ∧ π = β ++ π' ∧ ∀ c ∈ β, d ∉ c.2.nodes) ∧
      WellPlaced f K os

variable {f : Addr → Option Addr} {K : Addr → Option Surroundings} {π : Surroundings}
  {os os' : List Occurrence} {k : Kind}

theorem known_append (os os' : List Occurrence) :
    known K (os ++ os') = known (known K os) os' := by
  induction os generalizing K with
  | nil => rfl
  | cons o os ih =>
    cases o with
    | declaration d π => exact ih
    | use a π => exact ih

theorem wellPlaced_append :
    WellPlaced f K (os ++ os') ↔ WellPlaced f K os ∧ WellPlaced f (known K os) os' := by
  induction os generalizing K with
  | nil => simp [WellPlaced, known]
  | cons o os ih =>
    cases o with
    | declaration d π => simp [WellPlaced, known, ih, and_assoc]
    | use a π => simp [WellPlaced, known, ih, and_assoc]

theorem known_of_not_mem {d : Addr} (h : d ∉ declared os) : known K os d = K d := by
  induction os generalizing K with
  | nil => rfl
  | cons o os ih =>
    cases o with
    | declaration e π =>
      rw [declared_cons_declaration, List.mem_cons, not_or] at h
      rw [known, ih h.2, Function.update_of_ne h.1]
    | use a π => exact ih h

end Occurrence

open Occurrence

namespace Ast

attribute [local simp] occurrences

variable {k : Kind} {π : Surroundings}

/-- The variables a tree declares are those of its `VarDec`s. -/
theorem declared_occurrences (t : Ast Addr k) (π : Surroundings) :
    declared (t.occurrences π) = t.varDecs.map varAddr := by
  induction t generalizing π <;> simp_all [varDecs, subterms, declared, varAddr]

theorem declared_subset (t : Ast Addr k) (π : Surroundings) :
    declared (t.occurrences π) ⊆ t.nodes := by
  rw [declared_occurrences]
  exact t.varDecs_sublist.subset

end Ast

namespace Occurrence

/-! ## Placement -/

variable {f : Addr → Option Addr} {K : Addr → Option Surroundings} {π : Surroundings}
  {N M : List Addr} {vars : Symbol → Option Addr} {os os' : List Occurrence} {k : Kind} {ρ : Scope}

/-- A place for the nodes `N` inside `π`: what is around holds them, and the visible variables
have been met, with no more around them than what is around here and holds them. -/
structure Site (vars : Symbol → Option Addr) (K : Addr → Option Surroundings) (π : Surroundings)
    (N : List Addr) : Prop where
  nodup : N.Nodup
  around : ∀ c ∈ π, N ⊆ c.2.nodes
  fresh : ∀ x d, vars x = some d → d ∉ N
  sees : ∀ x d, vars x = some d →
    ∃ β π', K d = some π' ∧ π = β ++ π' ∧ ∀ c ∈ β, d ∉ c.2.nodes

theorem Site.sub (h : Site vars K π N) (hs : M.Sublist N) : Site vars K π M where
  nodup := h.nodup.sublist hs
  around c hc := List.Subset.trans hs.subset (h.around c hc)
  fresh x d hd hm := h.fresh x d hd (hs.subset hm)
  sees := h.sees

/-- The place after the occurrences of some of the nodes. -/
theorem Site.next (h : Site vars K π (N ++ M)) (hos : declared os ⊆ N) :
    Site vars (known K os) π M where
  nodup := h.nodup.of_append_right
  around := (h.sub (List.sublist_append_right N M)).around
  fresh := (h.sub (List.sublist_append_right N M)).fresh
  sees x d hd := by
    have hn : d ∉ declared os := fun hm =>
      h.fresh x d hd (List.mem_append_left _ (hos hm))
    rw [known_of_not_mem hn]
    exact h.sees x d hd

/-- The place inside a function, a loop or a `let`. -/
theorem Site.enter {t : Ast Addr k} (h : Site vars K π t.nodes) :
    Site vars K (⟨k, t⟩ :: π) t.nodes where
  nodup := h.nodup
  around c hc := by
    rcases List.mem_cons.mp hc with rfl | hc
    · exact List.Subset.refl _
    · exact h.around c hc
  fresh := h.fresh
  sees x d hd := by
    obtain ⟨β, π', hK, hπ, hβ⟩ := h.sees x d hd
    refine ⟨⟨k, t⟩ :: β, π', hK, by rw [hπ, List.cons_append], fun c hc => ?_⟩
    rcases List.mem_cons.mp hc with rfl | hc
    · exact h.fresh x d hd
    · exact hβ c hc

/-- Occurrences of the nodes `N`, well placed wherever these lie with `vars` visible. -/
def Placed (f : Addr → Option Addr) (vars : Symbol → Option Addr) (π : Surroundings) (N : List Addr)
    (os : List Occurrence) : Prop :=
  declared os ⊆ N ∧ ∀ K, Site vars K π N → WellPlaced f K os

theorem Placed.nil : Placed f vars π N [] := ⟨nofun, fun _ _ => trivial⟩

theorem Placed.cons (h : Placed f vars π N os) (a : Addr) : Placed f vars π (a :: N) os :=
  ⟨List.subset_cons_of_subset _ h.1, fun K hs => h.2 K (hs.sub (List.sublist_cons_self a N))⟩

theorem Placed.append (h : Placed f vars π N os) (h' : Placed f vars π M os') :
    Placed f vars π (N ++ M) (os ++ os') := by
  refine ⟨?_, fun K hs => ?_⟩
  · rw [declared_append]
    exact List.append_subset.mpr ⟨List.subset_append_of_subset_left _ h.1,
      List.subset_append_of_subset_right _ h'.1⟩
  · exact wellPlaced_append.mpr ⟨h.2 K (hs.sub (List.sublist_append_left N M)),
      h'.2 _ (hs.next h.1)⟩

theorem Placed.enter {t : Ast Addr k} (h : Placed f vars (⟨k, t⟩ :: π) t.nodes os) :
    Placed f vars π t.nodes os :=
  ⟨h.1, fun K hs => h.2 K hs.enter⟩

end Occurrence

attribute [local simp] Ast.occurrences Ast.nodes Scope.after

variable {f : Addr → Option Addr} {K : Addr → Option Surroundings} {π : Surroundings}
  {N M : List Addr} {os os' : List Occurrence} {k : Kind} {ρ : Scope}

/-- A variable visible after a node was so before, or is declared by the node, in what is around
the node. -/
theorem known_after {t : Ast Addr k} (hn : t.nodes.Nodup) {x : Symbol} {d : Addr}
    (hd : (ρ.after t).vars x = some d) :
    ρ.vars x = some d ∨ d ∈ t.nodes ∧ known K (t.occurrences π) d = some π := by
  induction t generalizing ρ K with
  | cons y ys ihy ihys =>
    simp only [Ast.nodes, List.nodup_append] at hn
    rcases ihys (K := known K (y.occurrences π)) hn.2.1 hd with h | ⟨hm, hk⟩
    · rcases ihy (K := K) hn.1 h with h | ⟨hm, hk⟩
      · exact .inl h
      · refine .inr ⟨List.mem_append_left _ hm, ?_⟩
        have hns : d ∉ declared (ys.occurrences π) := fun hys =>
          hn.2.2 d hm d (ys.declared_subset π hys) rfl
        rw [Ast.occurrences, known_append, known_of_not_mem hns]
        exact hk
    · refine .inr ⟨List.mem_append_right _ hm, ?_⟩
      rw [Ast.occurrences, known_append]
      exact hk
  | some y ih => exact ih hn hd
  | varDec a y t i ih₁ ih₂ =>
    simp only [Scope.after, Scope.putVar] at hd
    by_cases hy : x = y
    · subst hy
      rw [Function.update_self, Option.some.injEq] at hd
      subst hd
      refine .inr ⟨.head _, ?_⟩
      have hna : a ∉ declared (t.occurrences π ++ i.occurrences π) := by
        rw [declared_append]
        exact fun hm => (List.nodup_cons.mp hn).1 ((List.append_subset.mpr
          ⟨List.subset_append_of_subset_left _ (t.declared_subset π),
            List.subset_append_of_subset_right _ (i.declared_subset π)⟩) hm)
      rw [Ast.occurrences, known, known_of_not_mem hna, Function.update_self]
    · rw [Function.update_of_ne hy] at hd
      exact .inl hd
  | varChunk a ds ih | chunkList a ds ih =>
    rcases ih (K := K) (List.nodup_cons.mp hn).2 hd with h | ⟨hm, hk⟩
    · exact .inl h
    · exact .inr ⟨.tail _ hm, hk⟩
  | ofVarChunk c ih => exact ih hn hd
  | functionChunk a ds => simp_all
  | typeChunk a ds => simp_all
  | _ => exact .inl hd

/-- What comes after a node, and sees what the node declares. -/
theorem Occurrence.Placed.after {t : Ast Addr k}
    (h : Placed f ρ.vars π (t.nodes ++ N) (t.occurrences π ++ os)) (hos : declared os ⊆ N)
    (h' : Placed f (ρ.after t).vars π M os') :
    Placed f ρ.vars π (t.nodes ++ N ++ M) (t.occurrences π ++ os ++ os') := by
  refine ⟨?_, fun K hs => ?_⟩
  · rw [declared_append]
    exact List.append_subset.mpr ⟨List.subset_append_of_subset_left _ h.1,
      List.subset_append_of_subset_right _ h'.1⟩
  · have hr := hs.next h.1
    have hn := List.nodup_append.mp hs.nodup
    refine wellPlaced_append.mpr ⟨h.2 K (hs.sub (List.sublist_append_left _ M)),
      h'.2 _ ⟨hr.nodup, hr.around, fun x d hd => ?_, fun x d hd => ?_⟩⟩
    · rcases known_after (K := K) (π := π) hn.1.of_append_left hd with hd | ⟨hm, -⟩
      · exact hr.fresh x d hd
      · exact fun hM => hn.2.2 d (List.mem_append_left _ hm) d hM rfl
    · rcases known_after (K := K) (π := π) hn.1.of_append_left hd with hd | ⟨hm, hk⟩
      · exact hr.sees x d hd
      · have hno : d ∉ declared os := fun ho =>
          (List.nodup_append.mp hn.1).2.2 d hm d (hos ho) rfl
        refine ⟨[], π, ?_, rfl, nofun⟩
        rw [known_append, known_of_not_mem hno]
        exact hk

/-- **In a program bound by lexical scoping the occurrences are well placed.** -/
theorem placed_occurrences {t : Ast Addr k} (h : ρ.Everywhere (VarBound f) t) (π : Surroundings) :
    Placed f ρ.vars π t.nodes (t.occurrences π) := by
  induction t generalizing ρ π with
  | nil | none => exact .nil
  | nilExp | intExp | stringExp | breakExp | nameTy => exact Placed.nil.cons _
  | simpleVar a x =>
    refine ⟨nofun, fun K hs => ⟨?_, trivial⟩⟩
    obtain ⟨d, hd, ha⟩ := h
    obtain ⟨β, π', hK, hπ, hβ⟩ := hs.sees x d hd
    exact ⟨d, β, π', ha, hK, hπ, hβ⟩
  | varDec a x t i ih₁ ih₂ =>
    have hparts := (ih₁ h.2.1 π).append (ih₂ h.2.2 π)
    refine ⟨?_, fun K hs => ⟨fun c hc => hs.around c hc (.head _), hparts.2 _ ?_⟩⟩
    · rw [Ast.occurrences, declared_cons_declaration]
      exact List.cons_subset_cons a hparts.1
    · have hn := List.nodup_cons.mp hs.nodup
      have hsub := hs.sub (List.sublist_cons_self a _)
      refine ⟨hsub.nodup, hsub.around, hsub.fresh, fun y d hd => ?_⟩
      have hne : d ≠ a := fun hda => hs.fresh y d hd (hda ▸ .head _)
      rw [Function.update_of_ne hne]
      exact hs.sees y d hd
  | cons x xs ihx ihxs =>
    have hx : Placed f ρ.vars π (x.nodes ++ []) (x.occurrences π ++ []) := by
      simpa using ihx h.1 π
    simpa using hx.after (List.Subset.refl _) (ihxs h.2 π)
  | letExp a cs b ihcs ihb =>
    refine Placed.enter (Placed.cons ?_ a)
    have hcs : Placed f ρ.vars (⟨_, .letExp a cs b⟩ :: π) (cs.nodes ++ [])
        (cs.occurrences (⟨_, .letExp a cs b⟩ :: π) ++ []) := by
      simpa using ihcs h.2.1 _
    simpa using hcs.after (List.Subset.refl _) (ihb h.2.2 _)
  | forExp a d hi b ihd ihhi ihb =>
    refine Placed.enter (Placed.cons ?_ a)
    have hhi := ihhi h.2.2.1 (⟨_, .forExp a d hi b⟩ :: π)
    exact ((ihd h.2.1 _).append hhi).after hhi.1 (ihb h.2.2.2 _)
  | functionDec a x fs r b ihfs ihr ihb =>
    refine Placed.enter (Placed.cons ?_ a)
    have hr := ihr h.2.2.1 (⟨_, .functionDec a x fs r b⟩ :: π)
    exact ((ihfs h.2.1 _).append hr).after hr.1 (ihb h.2.2.2 _)
  | some _ ih | ofVar _ ih | ofNameTy _ ih | ofVarChunk _ ih => exact ih h π
  | fieldVar a _ _ ih | callExp a _ _ ih | seqExp a _ ih | recordTy a _ ih | arrayTy a _ ih
  | field a _ _ ih | fieldInit a _ _ ih | typeDec a _ _ ih | varChunk a _ ih
  | chunkList a _ ih => exact (ih h.2 π).cons a
  | functionChunk a ds ih | typeChunk a ds ih =>
    have hds := ih h.2 π
    simp only [Scope.putFuns_vars, Scope.putTypes_vars] at hds
    exact hds.cons a
  | subscriptVar a _ _ ih₁ ih₂ | opExp a _ _ _ ih₁ ih₂ | recordExp a _ _ ih₁ ih₂
  | assignExp a _ _ ih₁ ih₂ | whileExp a _ _ ih₁ ih₂ | castExp a _ _ ih₁ ih₂ =>
    exact ((ih₁ h.2.1 π).append (ih₂ h.2.2 π)).cons a
  | ifExp a _ _ _ ih₁ ih₂ ih₃ | arrayExp a _ _ _ ih₁ ih₂ ih₃ =>
    exact (((ih₁ h.2.1 π).append (ih₂ h.2.2.1 π)).append (ih₃ h.2.2.2 π)).cons a

/-! ## What is around a use -/

attribute [local simp] Ast.subterms

/-- A function, a loop or a `let`. -/
def Ast.isBlock {α : Type} (t : Ast α k) : Bool := t.isFunction || t.isLetOrFor

/-- The use of `a` is in the tree. -/
def Ast.HasUse (a : Addr) (t : Ast Addr k) : Prop := ∃ x, ⟨.var, .simpleVar a x⟩ ∈ t.subterms

theorem Ast.mem_varUses {a : Addr} {t : Ast Addr k} : a ∈ t.varUses ↔ t.HasUse a := by
  simp only [varUses, List.mem_filterMap, HasUse]
  constructor
  · rintro ⟨⟨j, u⟩, hu, ha⟩
    cases u <;> simp_all
    exact ⟨_, hu⟩
  · rintro ⟨x, hx⟩
    exact ⟨_, hx, rfl⟩

/-- A use at `a` occurs inside `c`. -/
def UseInside (os : List Occurrence) (a : Addr) (c : Σ k, Ast Addr k) : Prop :=
  ∃ σ, .use a σ ∈ os ∧ c ∈ σ

variable {a : Addr} {c : Σ k, Ast Addr k}

theorem useInside_append :
    UseInside (os ++ os') a c ↔ UseInside os a c ∨ UseInside os' a c := by
  simp only [UseInside, List.mem_append]
  grind

@[simp] theorem useInside_declaration {d : Addr} :
    UseInside (.declaration d π :: os) a c ↔ UseInside os a c := by
  simp [UseInside]

/-- What is around a use inside a tree is around the tree, or is a function, a loop or a `let` of
the tree that holds the use. -/
theorem useInside_spec {t : Ast Addr k} (h : UseInside (t.occurrences π) a c) :
    t.HasUse a ∧ (c ∈ π ∨ c ∈ t.subterms ∧ c.2.isBlock = true ∧ c.2.HasUse a) := by
  induction t generalizing π with
  | simpleVar b x =>
    obtain ⟨σ, hu, hc⟩ := h
    simp only [Ast.occurrences, List.mem_singleton, Occurrence.use.injEq] at hu
    obtain ⟨rfl, rfl⟩ := hu
    exact ⟨⟨x, Ast.mem_subterms_self _⟩, .inl hc⟩
  | nil | none | nilExp | intExp | stringExp | breakExp | nameTy =>
    obtain ⟨σ, hu, -⟩ := h
    cases hu
  | forExp | letExp | functionDec =>
    simp only [Ast.occurrences, useInside_append, Ast.subterms, Ast.HasUse, List.mem_cons,
      List.mem_append] at *
    grind [Ast.isBlock, Ast.isFunction, Ast.isLetOrFor, Ast.subterms]
  | _ =>
    simp only [Ast.occurrences, useInside_append, useInside_declaration, Ast.subterms,
      Ast.HasUse, List.mem_cons, List.mem_append] at *
    grind

/-- Each use in a tree occurs inside what is around the tree. -/
theorem useInside_of_mem {t : Ast Addr k} (h : t.HasUse a) (hc : c ∈ π) :
    UseInside (t.occurrences π) a c := by
  obtain ⟨x, h⟩ := h
  induction t generalizing π with
  | simpleVar b y =>
    simp only [Ast.subterms, List.mem_singleton] at h
    cases h
    exact ⟨π, .head _, hc⟩
  | _ =>
    simp only [Ast.occurrences, useInside_append, useInside_declaration, Ast.subterms,
      List.mem_cons, List.mem_append] at h ⊢
    grind

/-- A use in a function, a loop or a `let` occurs inside it. -/
theorem useInside_self {t : Ast Addr k} (hb : t.isBlock = true) (h : t.HasUse a) :
    UseInside (t.occurrences π) a ⟨k, t⟩ := by
  obtain ⟨x, h⟩ := h
  cases t with
  | forExp b d hi body | functionDec b d hi r body =>
    simp only [Ast.subterms, List.mem_cons, List.mem_append] at h
    simp only [Ast.occurrences, useInside_append]
    rcases h with h | (h | h) | h
    · cases h
    · exact .inl (.inl (useInside_of_mem ⟨x, h⟩ (.head _)))
    · exact .inl (.inr (useInside_of_mem ⟨x, h⟩ (.head _)))
    · exact .inr (useInside_of_mem ⟨x, h⟩ (.head _))
  | letExp b cs body =>
    simp only [Ast.subterms, List.mem_cons, List.mem_append] at h
    simp only [Ast.occurrences, useInside_append]
    rcases h with h | h | h
    · cases h
    · exact .inl (useInside_of_mem ⟨x, h⟩ (.head _))
    · exact .inr (useInside_of_mem ⟨x, h⟩ (.head _))
  | _ => cases hb

/-- A use inside a function, a loop or a `let` of a tree occurs inside it. -/
theorem useInside_of_isBlock {t : Ast Addr k} (hc : c ∈ t.subterms) (hb : c.2.isBlock = true)
    (h : c.2.HasUse a) (π : Surroundings) : UseInside (t.occurrences π) a c := by
  induction t generalizing π with
  | _ =>
    simp only [Ast.subterms, List.mem_cons, List.mem_append, List.not_mem_nil, or_false] at hc
    first
    | subst hc
      exact useInside_self hb h
    | rcases hc with hc | hc
      · subst hc
        exact useInside_self hb h
      · simp only [Ast.occurrences, useInside_append, useInside_declaration]
        grind

/-- A variable is used inside a function, a loop or a `let` that does not hold its declaration
exactly when one of those around a use does not. -/
theorem usedInside_isBlock_iff {t : Ast Addr k} {d : Addr} :
    UsedInside (fun _ t => t.isBlock) f t d ↔
      ∃ a σ, .use a σ ∈ t.occurrences [] ∧ f a = some d ∧ ∃ c ∈ σ, d ∉ c.2.nodes := by
  constructor
  · rintro ⟨c, hc, hb, hd, a, ha, hf⟩
    obtain ⟨σ, hu, hσ⟩ := useInside_of_isBlock hc hb (Ast.mem_varUses.mp ha) []
    exact ⟨a, σ, hu, hf, c, hσ, hd⟩
  · rintro ⟨a, σ, hu, hf, c, hc, hd⟩
    rcases (useInside_spec ⟨σ, hu, hc⟩).2 with h | ⟨hc, hb, ha⟩
    · cases h
    · exact ⟨c, hc, hb, hd, a, Ast.mem_varUses.mpr ha, hf⟩

end TigerCompiler
