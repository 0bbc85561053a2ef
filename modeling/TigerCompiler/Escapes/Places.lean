import TigerCompiler.Bind.Lexical
import Mathlib.Data.List.Infix
import Mathlib.Data.List.Perm.Subperm

/-!
# The functions around

Where the declarations, the uses of variables and the calls of a program stand: each with the
functions around it, innermost first.  In a program that is bound as lexical scoping requires, the
functions around a declaration are around what is bound to it (`bound_places`).
-/

namespace TigerCompiler

/-- The declaration of a variable or of a function, a use of a variable or a call, each by its
address. -/
inductive Mention
  | variable (d : Addr)
  | function (g : Addr)
  | use (a : Addr)
  | call (a : Addr)
  deriving DecidableEq

/-- The node of a mention. -/
def Mention.node : Mention → Addr
  | .variable d => d
  | .function g => g
  | .use a => a
  | .call a => a

/-- A mention and the functions around it. -/
abbrev Place := Mention × List Addr

/-- The places of a tree with the functions `π` around it: parents before children, but a call
after its arguments. -/
def Ast.places : {k : Kind} → Ast Addr k → List Addr → List Place
  | _, .nil, _ => []
  | _, .cons x xs, π => x.places π ++ xs.places π
  | _, .none, _ => []
  | _, .some x, π => x.places π
  | _, .simpleVar a _, π => [(.use a, π)]
  | _, .fieldVar _ v _, π => v.places π
  | _, .subscriptVar _ v i, π => v.places π ++ i.places π
  | _, .ofVar v, π => v.places π
  | _, .nilExp _, _ => []
  | _, .intExp _ _, _ => []
  | _, .stringExp _ _, _ => []
  | _, .callExp a _ args, π => args.places π ++ [(.call a, π)]
  | _, .opExp _ l _ r, π => l.places π ++ r.places π
  | _, .recordExp _ t fs, π => t.places π ++ fs.places π
  | _, .seqExp _ es, π => es.places π
  | _, .assignExp _ v e, π => v.places π ++ e.places π
  | _, .ifExp _ c t e, π => c.places π ++ t.places π ++ e.places π
  | _, .whileExp _ c body, π => c.places π ++ body.places π
  | _, .forExp _ vardec hi body, π => vardec.places π ++ hi.places π ++ body.places π
  | _, .breakExp _, _ => []
  | _, .letExp _ chunks body, π => chunks.places π ++ body.places π
  | _, .arrayExp _ t size init, π => t.places π ++ size.places π ++ init.places π
  | _, .castExp _ e t, π => e.places π ++ t.places π
  | _, .nameTy _ _, _ => []
  | _, .ofNameTy t, π => t.places π
  | _, .recordTy _ fs, π => fs.places π
  | _, .arrayTy _ t, π => t.places π
  | _, .field _ _ t, π => t.places π
  | _, .fieldInit _ _ init, π => init.places π
  | _, .varDec a _ t init, π => (.variable a, π) :: (t.places π ++ init.places π)
  | _, .functionDec a _ formals result body, π =>
    (.function a, π) ::
      (formals.places (a :: π) ++ result.places (a :: π) ++ body.places (a :: π))
  | _, .typeDec _ _ ty, π => ty.places π
  | _, .varChunk _ ds, π => ds.places π
  | _, .ofVarChunk c, π => c.places π
  | _, .functionChunk _ ds, π => ds.places π
  | _, .typeChunk _ ds, π => ds.places π
  | _, .chunkList _ cs, π => cs.places π

attribute [local simp] Ast.places Ast.nodes

variable {k : Kind} {f : Addr → Option Addr} {ρ : Scope} {π : List Addr} {L M M' : List Place}

/-- A node is mentioned at one place. -/
theorem Ast.places_subperm (t : Ast Addr k) (π : List Addr) :
    ((t.places π).map fun p => p.1.node).Subperm t.nodes := by
  induction t generalizing π with
  | nil | none | nilExp | intExp | stringExp | breakExp | nameTy => simp
  | simpleVar a x => simp [Mention.node]
  | some _ ih | ofVar _ ih | ofNameTy _ ih | ofVarChunk _ ih => exact ih π
  | cons _ _ ih₁ ih₂ => simpa using (ih₁ π).append (ih₂ π)
  | fieldVar _ _ _ ih | seqExp _ _ ih | recordTy _ _ ih | arrayTy _ _ ih | field _ _ _ ih
  | fieldInit _ _ _ ih | typeDec _ _ _ ih | varChunk _ _ ih | functionChunk _ _ ih
  | typeChunk _ _ ih | chunkList _ _ ih => exact (ih π).cons_right _
  | callExp a _ _ ih =>
    have h := (ih π).append (List.Subperm.refl [a])
    simpa [Mention.node] using h.trans (List.perm_append_singleton a _).subperm
  | varDec a _ _ _ ih₁ ih₂ =>
    have h := (List.Subperm.refl [a]).append ((ih₁ π).append (ih₂ π))
    simpa [Mention.node] using h
  | functionDec a _ _ _ _ ih₁ ih₂ ih₃ =>
    have h := (ih₁ (a :: π)).append ((ih₂ (a :: π)).append (ih₃ (a :: π)))
    simpa [Mention.node] using (List.Subperm.refl [a]).append h
  | subscriptVar _ _ _ ih₁ ih₂ | opExp _ _ _ _ ih₁ ih₂ | recordExp _ _ _ ih₁ ih₂
  | assignExp _ _ _ ih₁ ih₂ | whileExp _ _ _ ih₁ ih₂ | letExp _ _ _ ih₁ ih₂
  | castExp _ _ _ ih₁ ih₂ => simpa using ((ih₁ π).append (ih₂ π)).cons_right _
  | ifExp _ _ _ _ ih₁ ih₂ ih₃ | forExp _ _ _ _ ih₁ ih₂ ih₃ | arrayExp _ _ _ _ ih₁ ih₂ ih₃ =>
    simpa using (((ih₁ π).append (ih₂ π)).append (ih₃ π)).cons_right _

theorem Ast.places_nodup {t : Ast Addr k} (hn : t.nodes.Nodup) (π : List Addr) :
    ((t.places π).map fun p => p.1.node).Nodup := by
  obtain ⟨l, hl, hs⟩ := t.places_subperm π
  exact hl.nodup (hn.sublist hs)

/-- The functions around a mention are the same wherever it is looked up. -/
theorem Ast.places_unique {t : Ast Addr k} (hn : t.nodes.Nodup) {m : Mention} {σ τ : List Addr}
    (hσ : (m, σ) ∈ t.places π) (hτ : (m, τ) ∈ t.places π) : σ = τ := by
  have h := List.inj_on_of_nodup_map (Ast.places_nodup hn π) hσ hτ rfl
  exact (Prod.mk.inj h).2

/-- The functions around a place that are not around the tree are in the tree. -/
theorem Ast.function_mem_places {t : Ast Addr k} {m : Mention} {F : Addr} {σ : List Addr}
    (h : (m, F :: σ) ∈ t.places π) :
    F :: σ <:+ π ∨ (.function F, σ) ∈ t.places π := by
  induction t generalizing π with
  | nil | none | nilExp | intExp | stringExp | breakExp | nameTy => simp at h
  | simpleVar a x =>
    simp only [places, List.mem_singleton, Prod.mk.injEq] at h
    exact .inl (h.2 ▸ List.suffix_refl _)
  | some _ ih | ofVar _ ih | ofNameTy _ ih | ofVarChunk _ ih | fieldVar _ _ _ ih | seqExp _ _ ih
  | recordTy _ _ ih | arrayTy _ _ ih | field _ _ _ ih | fieldInit _ _ _ ih | typeDec _ _ _ ih
  | varChunk _ _ ih | functionChunk _ _ ih | typeChunk _ _ ih | chunkList _ _ ih => exact ih h
  | cons _ _ ih₁ ih₂ | subscriptVar _ _ _ ih₁ ih₂ | opExp _ _ _ _ ih₁ ih₂
  | recordExp _ _ _ ih₁ ih₂ | assignExp _ _ _ ih₁ ih₂ | whileExp _ _ _ ih₁ ih₂
  | letExp _ _ _ ih₁ ih₂ | castExp _ _ _ ih₁ ih₂ =>
    rcases List.mem_append.mp h with h | h
    · exact (ih₁ h).imp_right (List.mem_append_left _)
    · exact (ih₂ h).imp_right (List.mem_append_right _)
  | ifExp _ _ _ _ ih₁ ih₂ ih₃ | forExp _ _ _ _ ih₁ ih₂ ih₃ | arrayExp _ _ _ _ ih₁ ih₂ ih₃ =>
    simp only [places, List.mem_append] at h ⊢
    grind
  | callExp a _ _ ih =>
    simp only [places, List.mem_append, List.mem_singleton, Prod.mk.injEq] at h ⊢
    rcases h with h | ⟨-, h⟩
    · exact (ih h).imp_right .inl
    · exact .inl (h ▸ List.suffix_refl _)
  | varDec a _ _ _ ih₁ ih₂ =>
    simp only [places, List.mem_cons, List.mem_append, Prod.mk.injEq] at h ⊢
    rcases h with ⟨-, h⟩ | h | h
    · exact .inl (h ▸ List.suffix_refl _)
    · exact (ih₁ h).imp_right fun h => .inr (.inl h)
    · exact (ih₂ h).imp_right fun h => .inr (.inr h)
  | functionDec a _ _ _ _ ih₁ ih₂ ih₃ =>
    simp only [places, List.mem_cons, List.mem_append, Prod.mk.injEq] at h ⊢
    have hin (h : F :: σ <:+ a :: π) : F :: σ <:+ π ∨ F = a ∧ σ = π := by
      rcases List.suffix_cons_iff.mp h with h | h
      · exact .inr (List.cons.inj h)
      · exact .inl h
    rcases h with ⟨-, h⟩ | (h | h) | h
    · exact .inl (h ▸ List.suffix_refl _)
    · grind
    · grind
    · grind

/-! ## Binding and the functions around -/

/-- The visible variables and functions are declared at places of `L` with no function around
them that is not around here. -/
structure Visible (L : List Place) (ρ : Scope) (π : List Addr) : Prop where
  vars : ∀ x d, ρ.vars x = some d → ∃ σ, (.variable d, σ) ∈ L ∧ σ <:+ π
  funs : ∀ x g, ρ.funs x = some g → ∃ σ, (.function g, σ) ∈ L ∧ σ <:+ π

theorem Visible.enter (h : Visible L ρ π) (a : Addr) : Visible L ρ (a :: π) where
  vars x d hd := by
    obtain ⟨σ, hσ, hs⟩ := h.vars x d hd
    exact ⟨σ, hσ, hs.trans (List.suffix_cons a π)⟩
  funs x g hg := by
    obtain ⟨σ, hσ, hs⟩ := h.funs x g hg
    exact ⟨σ, hσ, hs.trans (List.suffix_cons a π)⟩

theorem Visible.putFuns (h : Visible L ρ π) {ds : List (Ast Addr .functionDec)}
    (hds : ∀ d ∈ ds, (.function d.functionAddr, π) ∈ L) : Visible L (ρ.putFuns ds) π := by
  induction ds generalizing ρ with
  | nil => exact h
  | cons d ds ih =>
    refine ih ⟨h.vars, fun x g hg => ?_⟩ fun d' hd' => hds d' (.tail _ hd')
    by_cases hx : x = d.functionName
    · simp only [Scope.putFun, hx, Function.update_self, Option.some.injEq] at hg
      exact hg ▸ ⟨π, hds d (.head _), List.suffix_refl π⟩
    · simp only [Scope.putFun, Function.update_of_ne hx] at hg
      exact h.funs x g hg

/-- The functions of a chunk are declared where the chunk is. -/
theorem mem_places_of_mem {d : Ast Addr .functionDec} :
    {ds : Ast Addr (.list .functionDec)} → d ∈ ds.toList →
      (.function d.functionAddr, π) ∈ ds.places π
  | .nil, h => by simp at h
  | .cons e ds, h => by
    rw [Ast.toList_cons, List.mem_cons] at h
    rcases h with rfl | h
    · cases d
      exact .head _
    · exact List.mem_append_right _ (mem_places_of_mem h)

/-- What is visible after a node is declared at its places, if it was not visible before. -/
theorem Visible.after {t : Ast Addr k} (h : Visible L ρ π) (hL : t.places π ⊆ L) :
    Visible L (ρ.after t) π := by
  induction t generalizing ρ with
  | cons x xs ihx ihxs =>
    obtain ⟨hx, hxs⟩ := List.append_subset.mp hL
    exact ihxs (ihx h hx) hxs
  | some _ ih | varChunk _ _ ih | ofVarChunk _ ih | chunkList _ _ ih => exact ih h hL
  | varDec a y t i =>
    refine ⟨fun x d hd => ?_, h.funs⟩
    by_cases hx : x = y
    · simp only [Scope.after, Scope.putVar, hx, Function.update_self, Option.some.injEq] at hd
      exact hd ▸ ⟨π, hL (.head _), List.suffix_refl π⟩
    · simp only [Scope.after, Scope.putVar, Function.update_of_ne hx] at hd
      exact h.vars x d hd
  | functionChunk a ds => exact h.putFuns fun d hd => hL (mem_places_of_mem hd)
  | typeChunk a ds =>
    refine ⟨fun x d hd => h.vars x d ?_, fun x g hg => h.funs x g ?_⟩
    · simpa [Scope.after] using hd
    · simpa [Scope.after] using hg
  | _ => exact h

/-- The uses and the calls of `M` are bound to declarations of `L`, and the functions around
these are around them. -/
structure Resolved (f : Addr → Option Addr) (L M : List Place) : Prop where
  use : ∀ a σ, (.use a, σ) ∈ M → ∃ d τ, f a = some d ∧ (.variable d, τ) ∈ L ∧ τ <:+ σ
  call : ∀ a σ, (.call a, σ) ∈ M → ∃ g τ, f a = some g ∧ (.function g, τ) ∈ L ∧ τ <:+ σ

theorem Resolved.nil : Resolved f L [] := ⟨nofun, nofun⟩

theorem Resolved.append (h : Resolved f L M) (h' : Resolved f L M') :
    Resolved f L (M ++ M') where
  use a σ hm := (List.mem_append.mp hm).elim (h.use a σ) (h'.use a σ)
  call a σ hm := (List.mem_append.mp hm).elim (h.call a σ) (h'.call a σ)

theorem Resolved.cons {p : Place} (h : Resolved f L [p]) (h' : Resolved f L M) :
    Resolved f L (p :: M) := h.append h'

theorem Resolved.variable (d : Addr) : Resolved f L [(.variable d, π)] := by
  constructor <;> simp

theorem Resolved.function (g : Addr) : Resolved f L [(.function g, π)] := by
  constructor <;> simp

/-- **The functions around a declaration are around what is bound to it.** -/
theorem bound_places {t : Ast Addr k} (h : ρ.Everywhere (LexicallyBound f) t)
    (hv : Visible L ρ π) (hL : t.places π ⊆ L) : Resolved f L (t.places π) := by
  induction t generalizing ρ π with
  | nil | none | nilExp | intExp | stringExp | breakExp | nameTy => exact .nil
  | simpleVar a x =>
    obtain ⟨d, hd, ha⟩ := h
    obtain ⟨τ, hτ, hs⟩ := hv.vars x d hd
    refine ⟨fun b σ hb => ?_, by simp⟩
    cases List.mem_singleton.mp hb
    exact ⟨d, τ, ha, hτ, hs⟩
  | callExp a x args ih =>
    obtain ⟨⟨g, hg, ha⟩, h⟩ := h
    obtain ⟨τ, hτ, hs⟩ := hv.funs x g hg
    refine (ih h hv (List.append_subset.mp hL).1).append ⟨by simp, fun b σ hb => ?_⟩
    cases List.mem_singleton.mp hb
    exact ⟨g, τ, ha, hτ, hs⟩
  | some _ ih | ofVar _ ih | ofNameTy _ ih | ofVarChunk _ ih => exact ih h hv hL
  | fieldVar _ _ _ ih | seqExp _ _ ih | recordTy _ _ ih | arrayTy _ _ ih | field _ _ _ ih
  | fieldInit _ _ _ ih | varChunk _ _ ih | chunkList _ _ ih => exact ih h.2 hv hL
  | typeDec _ _ _ ih => exact ih h.2 ⟨hv.vars, hv.funs⟩ hL
  | functionChunk a ds ih =>
    exact ih h.2 (hv.putFuns fun d hd => hL (mem_places_of_mem hd)) hL
  | typeChunk a ds ih =>
    refine ih h.2 ⟨fun x d hd => hv.vars x d ?_, fun x g hg => hv.funs x g ?_⟩ hL
    · simpa using hd
    · simpa using hg
  | cons x xs ihx ihxs =>
    obtain ⟨hx, hxs⟩ := List.append_subset.mp hL
    exact (ihx h.1 hv hx).append (ihxs h.2 (hv.after hx) hxs)
  | letExp a cs b ihcs ihb =>
    obtain ⟨hcs, hb⟩ := List.append_subset.mp hL
    exact (ihcs h.2.1 hv hcs).append (ihb h.2.2 (hv.after hcs) hb)
  | forExp a d hi b ihd ihhi ihb =>
    obtain ⟨hdh, hb⟩ := List.append_subset.mp hL
    obtain ⟨hd, hh⟩ := List.append_subset.mp hdh
    exact ((ihd h.2.1 hv hd).append (ihhi h.2.2.1 ⟨hv.vars, hv.funs⟩ hh)).append
      (ihb h.2.2.2 (hv.after hd) hb)
  | functionDec a x fs r b ihfs ihr ihb =>
    have hva := hv.enter a
    obtain ⟨hfr, hb⟩ := List.append_subset.mp (List.cons_subset.mp hL).2
    obtain ⟨hfs, hr⟩ := List.append_subset.mp hfr
    exact .cons (.function a) (((ihfs h.2.1 hva hfs).append
      (ihr h.2.2.1 ⟨hva.vars, hva.funs⟩ hr)).append (ihb h.2.2.2 (hva.after hfs) hb))
  | varDec a x t i iht ihi =>
    obtain ⟨ht, hi⟩ := List.append_subset.mp (List.cons_subset.mp hL).2
    exact .cons (.variable a) ((iht h.2.1 ⟨hv.vars, hv.funs⟩ ht).append
      (ihi h.2.2 ⟨hv.vars, hv.funs⟩ hi))
  | whileExp a c b ihc ihb =>
    obtain ⟨hc, hb⟩ := List.append_subset.mp hL
    exact (ihc h.2.1 ⟨hv.vars, hv.funs⟩ hc).append (ihb h.2.2 hv hb)
  | subscriptVar _ _ _ ih₁ ih₂ | opExp _ _ _ _ ih₁ ih₂ | recordExp _ _ _ ih₁ ih₂
  | assignExp _ _ _ ih₁ ih₂ | castExp _ _ _ ih₁ ih₂ =>
    obtain ⟨h₁, h₂⟩ := List.append_subset.mp hL
    exact (ih₁ h.2.1 hv h₁).append (ih₂ h.2.2 hv h₂)
  | ifExp _ _ _ _ ih₁ ih₂ ih₃ | arrayExp _ _ _ _ ih₁ ih₂ ih₃ =>
    obtain ⟨h₁₂, h₃⟩ := List.append_subset.mp hL
    obtain ⟨h₁, h₂⟩ := List.append_subset.mp h₁₂
    exact ((ih₁ h.2.1 hv h₁).append (ih₂ h.2.2.1 hv h₂)).append (ih₃ h.2.2.2 hv h₃)

end TigerCompiler
