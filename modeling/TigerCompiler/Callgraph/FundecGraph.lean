import TigerCompiler.Misc.Error
import Mathlib.Data.List.Nodup
import Mathlib.Logic.Function.Basic
import Mathlib.Logic.Relation

/-!
# Graphs of functions

`callgraph::FundecGraph`, the visitor that builds the parent graph, and the search for an
ancestor in it.  A function at the top level is linked to the null pointer, for which
`hfundecs` makes up the vertex 0: it hangs from the function that was added first.
-/

namespace TigerCompiler

/-- `callgraph::FundecGraph`: `boost::adjacency_list` with its vertices numbered from 0. -/
structure FundecGraph where
  /-- The `FunctionDec` attached to each vertex. -/
  labels : List Addr := []
  edges : List (Nat × Nat) := []
  /-- The vertices of the functions; a pointer may be null. -/
  hfundecs : Option Addr → Option Nat := fun _ => none

namespace FundecGraph

/-- `vertex_add`: the number of the vertex, and the graph with it. -/
def vertexAdd (g : FundecGraph) (f : Addr) : Nat × FundecGraph :=
  (g.labels.length, { g with labels := g.labels ++ [f] })

def fundecAdd (g : FundecGraph) (f : Addr) : FundecGraph :=
  { (g.vertexAdd f).2 with hfundecs := Function.update g.hfundecs (some f) (g.vertexAdd f).1 }

/-- `hfundecs[f]`: an entry is made, with vertex 0, where there is none. -/
def hfundecsAt (g : FundecGraph) (f : Option Addr) : Nat × FundecGraph :=
  match g.hfundecs f with
  | some v => (v, g)
  | none => (0, { g with hfundecs := Function.update g.hfundecs f (some 0) })

/-- `fundec_link`. -/
def fundecLink (g : FundecGraph) (fu fv : Option Addr) : FundecGraph :=
  let (u, g) := g.hfundecsAt fu
  let (v, g) := g.hfundecsAt fv
  { g with edges := g.edges.insert (u, v) }

/-- The first of `boost::adjacent_vertices`: the set of the edges out of a vertex is ordered by
their targets. -/
def firstAdjacent (g : FundecGraph) (u : Nat) : Option Nat :=
  ((g.edges.filter fun e => e.1 = u).map Prod.snd).min?

/-- `hfundec_deep_get`: `none` is the null pointer. -/
def hfundecDeepGet (g : FundecGraph) : Nat → Addr → Addr → Except Stop (Option Addr)
  | 0, _, _ => .error .outOfFuel
  | n + 1, start, searched =>
    if start = searched then .ok (some searched)
    else
      match (g.hfundecs (some start)).bind g.firstAdjacent with
      | none => .error .undefined
      | some v =>
        match g.labels[v]? with
        | none => .error .undefined
        | some parent => if parent = start then .ok none else g.hfundecDeepGet n parent searched

end FundecGraph

namespace ParentGraphVisitor

/-- What a `FunctionChunk` adds before it is visited. -/
def addChunk (parent : Option Addr) (ds : List (Ast Addr .functionDec)) (g : FundecGraph) :
    FundecGraph :=
  ds.foldl (fun g d => (g.fundecAdd d.functionAddr).fundecLink (some d.functionAddr) parent) g

/-- The visiting methods; `parent` is the member of that name, which a `FunctionDec` restores. -/
def visit : {k : Kind} → Ast Addr k → Option Addr → FundecGraph → FundecGraph
  | _, .functionChunk _ ds, p, g => visit ds p (addChunk p ds.toList g)
  | _, .functionDec a _ fs r b, _, g =>
    visit b (some a) (visit r (some a) (visit fs (some a) g))
  | _, .nil, _, g | _, .none, _, g => g
  | _, .cons x xs, p, g => visit xs p (visit x p g)
  | _, .some x, p, g => visit x p g
  | _, .simpleVar _ _, _, g | _, .nilExp _, _, g | _, .intExp _ _, _, g | _, .stringExp _ _, _, g
  | _, .breakExp _, _, g | _, .nameTy _ _, _, g => g
  | _, .fieldVar _ v _, p, g => visit v p g
  | _, .subscriptVar _ v i, p, g => visit i p (visit v p g)
  | _, .ofVar v, p, g => visit v p g
  | _, .callExp _ _ args, p, g => visit args p g
  | _, .opExp _ l _ r, p, g => visit r p (visit l p g)
  | _, .recordExp _ t fs, p, g => visit fs p (visit t p g)
  | _, .seqExp _ es, p, g => visit es p g
  | _, .assignExp _ v e, p, g => visit e p (visit v p g)
  | _, .ifExp _ c t e, p, g => visit e p (visit t p (visit c p g))
  | _, .whileExp _ c b, p, g => visit b p (visit c p g)
  | _, .forExp _ d h b, p, g => visit b p (visit h p (visit d p g))
  | _, .letExp _ cs b, p, g => visit b p (visit cs p g)
  | _, .arrayExp _ t s i, p, g => visit i p (visit s p (visit t p g))
  | _, .castExp _ e t, p, g => visit t p (visit e p g)
  | _, .ofNameTy n, p, g => visit n p g
  | _, .recordTy _ fs, p, g => visit fs p g
  | _, .arrayTy _ b, p, g => visit b p g
  | _, .field _ _ t, p, g => visit t p g
  | _, .fieldInit _ _ i, p, g => visit i p g
  | _, .varDec _ _ t i, p, g => visit i p (visit t p g)
  | _, .typeDec _ _ t, p, g => visit t p g
  | _, .varChunk _ ds, p, g => visit ds p g
  | _, .ofVarChunk c, p, g => visit c p g
  | _, .typeChunk _ ds, p, g => visit ds p g
  | _, .chunkList _ cs, p, g => visit cs p g

/-! ## What is added, in order -/

/-- One function is added and linked. -/
def addLink (g : FundecGraph) (l : Addr × Option Addr) : FundecGraph :=
  (g.fundecAdd l.1).fundecLink (some l.1) l.2

/-- The functions a visit adds, each with the one it is linked to, in the order of the visit. -/
def links : {k : Kind} → Ast Addr k → Option Addr → List (Addr × Option Addr)
  | _, .functionChunk _ ds, p => ds.toList.map (fun d => (d.functionAddr, p)) ++ links ds p
  | _, .functionDec a _ fs r b, _ =>
    links fs (some a) ++ links r (some a) ++ links b (some a)
  | _, .nil, _ | _, .none, _ => []
  | _, .cons x xs, p => links x p ++ links xs p
  | _, .some x, p => links x p
  | _, .simpleVar _ _, _ | _, .nilExp _, _ | _, .intExp _ _, _ | _, .stringExp _ _, _
  | _, .breakExp _, _ | _, .nameTy _ _, _ => []
  | _, .fieldVar _ v _, p => links v p
  | _, .subscriptVar _ v i, p => links v p ++ links i p
  | _, .ofVar v, p => links v p
  | _, .callExp _ _ args, p => links args p
  | _, .opExp _ l _ r, p => links l p ++ links r p
  | _, .recordExp _ t fs, p => links t p ++ links fs p
  | _, .seqExp _ es, p => links es p
  | _, .assignExp _ v e, p => links v p ++ links e p
  | _, .ifExp _ c t e, p => links c p ++ links t p ++ links e p
  | _, .whileExp _ c b, p => links c p ++ links b p
  | _, .forExp _ d h b, p => links d p ++ links h p ++ links b p
  | _, .letExp _ cs b, p => links cs p ++ links b p
  | _, .arrayExp _ t s i, p => links t p ++ links s p ++ links i p
  | _, .castExp _ e t, p => links e p ++ links t p
  | _, .ofNameTy n, p => links n p
  | _, .recordTy _ fs, p => links fs p
  | _, .arrayTy _ b, p => links b p
  | _, .field _ _ t, p => links t p
  | _, .fieldInit _ _ i, p => links i p
  | _, .varDec _ _ t i, p => links t p ++ links i p
  | _, .typeDec _ _ t, p => links t p
  | _, .varChunk _ ds, p => links ds p
  | _, .ofVarChunk c, p => links c p
  | _, .typeChunk _ ds, p => links ds p
  | _, .chunkList _ cs, p => links cs p

/-- The functions that a node is or that a collection holds: they are added by the chunk that
these are part of. -/
def tops : {k : Kind} → Ast Addr k → List Addr
  | _, .functionDec a _ _ _ _ => [a]
  | _, .cons x xs => tops x ++ tops xs
  | _, .some x => tops x
  | _, _ => []

attribute [local simp] visit links tops

variable {k : Kind} {t : Ast Addr k} {p : Option Addr} {g : FundecGraph}

theorem addChunk_eq {ds : List (Ast Addr .functionDec)} :
    addChunk p ds g = (ds.map fun d => (d.functionAddr, p)).foldl addLink g := by
  rw [addChunk, List.foldl_map]
  rfl

theorem visit_eq : visit t p g = (links t p).foldl addLink g := by
  induction t generalizing p g with
  | functionChunk a ds ih => simp [ih, addChunk_eq]
  | functionDec a x fs r b ih₁ ih₂ ih₃ => simp [ih₁, ih₂, ih₃]
  | _ => simp [*]

/-- The class of what a collection or an optional member holds. -/
def base : Kind → Kind
  | .list k | .opt k => base k
  | k => k

theorem tops_eq_nil (h : base k ≠ .functionDec) : tops t = [] := by
  induction t with
  | functionDec => exact absurd rfl h
  | cons x xs ihx ihxs => rw [tops, ihx h, ihxs h, List.append_nil]
  | some x ih => exact ih h
  | _ => rfl

theorem tops_functionDecs {ds : List (Ast Addr .functionDec)} :
    ∀ {xs : Ast Addr (.list .functionDec)}, xs.toList = ds → tops xs = ds.map Ast.functionAddr
  | .nil, h => by rw [← h]; rfl
  | .cons (.functionDec a _ _ _ _) xs, h => by
    rw [← h, Ast.toList_cons, List.map_cons, tops, tops_functionDecs rfl]
    rfl

/-- Every function of a tree is added once. -/
theorem links_perm : (tops t ++ (links t p).map Prod.fst).Perm
    (t.functionDecs.map Ast.functionAddr) := by
  induction t generalizing p with
  | functionChunk a ds ih =>
    have h := ih (p := p)
    rw [tops_functionDecs rfl] at h
    rw [tops_eq_nil (by decide), links, List.nil_append, List.map_append, List.map_map]
    exact h
  | functionDec a x fs r b ih₁ ih₂ ih₃ =>
    simp (disch := decide) only [tops_eq_nil, List.nil_append] at ih₁ ih₂ ih₃
    simp only [Ast.functionDecs, Ast.subterms, tops, links, List.filterMap_cons, List.map_append,
      List.filterMap_append, List.map_cons] at ih₁ ih₂ ih₃ ⊢
    exact ((ih₁.append ih₂).append ih₃).cons a
  | cons x xs ihx ihxs =>
    have h := ihx (p := p).append (ihxs (p := p))
    simp only [Ast.functionDecs, Ast.subterms, tops, links, List.filterMap_cons, List.map_append,
      List.filterMap_append] at h ⊢
    refine List.Perm.trans ?_ h
    simp only [List.append_assoc]
    exact (List.perm_append_comm_assoc _ _ _).append_left _
  | nil | none | simpleVar | nilExp | intExp | stringExp | breakExp | nameTy => exact .refl _
  | some _ ih => exact ih
  | ofVar _ ih | ofNameTy _ ih | ofVarChunk _ ih
  | fieldVar _ _ _ ih | callExp _ _ _ ih | seqExp _ _ ih | recordTy _ _ ih | arrayTy _ _ ih
  | field _ _ _ ih | fieldInit _ _ _ ih | typeDec _ _ _ ih | varChunk _ _ ih
  | typeChunk _ _ ih | chunkList _ _ ih =>
    have h := ih (p := p)
    rwa [tops_eq_nil (by decide)] at h
  | subscriptVar _ _ _ ih₁ ih₂ | opExp _ _ _ _ ih₁ ih₂ | recordExp _ _ _ ih₁ ih₂
  | assignExp _ _ _ ih₁ ih₂ | whileExp _ _ _ ih₁ ih₂ | letExp _ _ _ ih₁ ih₂
  | castExp _ _ _ ih₁ ih₂ | varDec _ _ _ _ ih₁ ih₂ =>
    have h := (ih₁ (p := p)).append (ih₂ (p := p))
    simp (disch := decide) only [tops_eq_nil, List.nil_append] at h
    simpa [Ast.functionDecs, Ast.subterms] using h
  | ifExp _ _ _ _ ih₁ ih₂ ih₃ | forExp _ _ _ _ ih₁ ih₂ ih₃ | arrayExp _ _ _ _ ih₁ ih₂ ih₃ =>
    have h := ((ih₁ (p := p)).append (ih₂ (p := p))).append (ih₃ (p := p))
    simp (disch := decide) only [tops_eq_nil, List.nil_append] at h
    simpa [Ast.functionDecs, Ast.subterms] using h

theorem links_eq_nil (h : base k = .functionDec) (ht : tops t = []) : links t p = [] := by
  induction t with
  | functionDec => cases ht
  | cons x xs ihx ihxs =>
    rw [tops, List.append_eq_nil_iff] at ht
    rw [links, ihx h ht.1, ihxs h ht.2, List.append_nil]
  | some x ih => exact ih h ht
  | nil | none => rfl
  | _ => cases h

/-- The function that is added first is the first one of the text. -/
theorem head_links : (tops t ++ (links t p).map Prod.fst).head? =
    (t.functionDecs.map Ast.functionAddr).head? := by
  induction t generalizing p with
  | functionChunk a ds ih =>
    have h := ih (p := p)
    rw [tops_functionDecs rfl] at h
    rw [tops_eq_nil (by decide), links, List.nil_append, List.map_append, List.map_map]
    exact h
  | functionDec a x fs r b ih₁ ih₂ ih₃ => rfl
  | @cons j x xs ihx ihxs =>
    have hx := ihx (p := p)
    have hxs := ihxs (p := p)
    have hdecs : ((Ast.cons x xs).functionDecs.map Ast.functionAddr).head? =
        (x.functionDecs.map Ast.functionAddr).head?.or
          (xs.functionDecs.map Ast.functionAddr).head? := by
      simp [Ast.functionDecs, Ast.subterms, List.head?_append]
    rw [hdecs, ← hx, ← hxs, tops, links, List.map_append]
    -- Where functions come next, those of the collection are all before those inside them.
    by_cases hb : base j = .functionDec
    · by_cases ht : tops x = []
      · simp only [ht, links_eq_nil hb ht, List.map_nil, List.nil_append, List.head?_nil,
          Option.none_or]
      · obtain ⟨a, as, ha⟩ := List.exists_cons_of_ne_nil ht
        simp only [ha, List.cons_append, List.head?_cons, Option.some_or]
    · simp only [tops_eq_nil hb, tops_eq_nil (t := xs) hb, List.nil_append, List.head?_append]
  | nil | none | simpleVar | nilExp | intExp | stringExp | breakExp | nameTy => rfl
  | some _ ih => exact ih
  | ofVar _ ih | ofNameTy _ ih | ofVarChunk _ ih
  | fieldVar _ _ _ ih | callExp _ _ _ ih | seqExp _ _ ih | recordTy _ _ ih | arrayTy _ _ ih
  | field _ _ _ ih | fieldInit _ _ _ ih | typeDec _ _ _ ih | varChunk _ _ ih
  | typeChunk _ _ ih | chunkList _ _ ih =>
    have h := ih (p := p)
    rwa [tops_eq_nil (by decide)] at h
  | subscriptVar _ _ _ ih₁ ih₂ | opExp _ _ _ _ ih₁ ih₂ | recordExp _ _ _ ih₁ ih₂
  | assignExp _ _ _ ih₁ ih₂ | whileExp _ _ _ ih₁ ih₂ | letExp _ _ _ ih₁ ih₂
  | castExp _ _ _ ih₁ ih₂ | varDec _ _ _ _ ih₁ ih₂ =>
    have h₁ := ih₁ (p := p)
    have h₂ := ih₂ (p := p)
    simp (disch := decide) only [tops_eq_nil, List.nil_append] at h₁ h₂
    simp [Ast.functionDecs, Ast.subterms, List.head?_append, h₁, h₂]
  | ifExp _ _ _ _ ih₁ ih₂ ih₃ | forExp _ _ _ _ ih₁ ih₂ ih₃ | arrayExp _ _ _ _ ih₁ ih₂ ih₃ =>
    have h₁ := ih₁ (p := p)
    have h₂ := ih₂ (p := p)
    have h₃ := ih₃ (p := p)
    simp (disch := decide) only [tops_eq_nil, List.nil_append] at h₁ h₂ h₃
    simp [Ast.functionDecs, Ast.subterms, List.head?_append, h₁, h₂, h₃]

/-- A pointer is null or that of a function already there. -/
def Known (seen : List Addr) (p : Option Addr) : Prop := ∀ a, p = some a → a ∈ seen

/-- Each function is linked to none, or to one that is added before it or in `seen`. -/
def Ordered : List Addr → List (Addr × Option Addr) → Prop
  | _, [] => True
  | seen, (f, q) :: ls => Known seen q ∧ Ordered (seen ++ [f]) ls

section ordered

variable {seen seen' : List Addr} {ls ms : List (Addr × Option Addr)}

theorem Known.append (h : Known seen p) : Known (seen ++ seen') p :=
  fun a ha => List.mem_append_left _ (h a ha)

theorem ordered_append :
    Ordered seen (ls ++ ms) ↔ Ordered seen ls ∧ Ordered (seen ++ ls.map Prod.fst) ms := by
  induction ls generalizing seen with
  | nil => simp [Ordered]
  | cons l ls ih =>
    rw [List.cons_append, Ordered, Ordered, ih, and_assoc, List.map_cons]
    simp only [List.append_assoc, List.singleton_append]

theorem ordered_map {ds : List (Ast Addr .functionDec)} (h : Known seen p) :
    Ordered seen (ds.map fun d => (d.functionAddr, p)) := by
  induction ds generalizing seen with
  | nil => trivial
  | cons d ds ih => exact ⟨h, ih h.append⟩

theorem tops_subset (h : base k ≠ .functionDec) : tops t ⊆ seen :=
  tops_eq_nil (t := t) h ▸ List.nil_subset _

theorem ordered_links (hp : Known seen p) (ht : tops t ⊆ seen) : Ordered seen (links t p) := by
  induction t generalizing p seen with
  | functionChunk a ds ih =>
    rw [links, ordered_append]
    refine ⟨ordered_map hp, ih hp.append ?_⟩
    rw [tops_functionDecs rfl, List.map_map]
    exact List.subset_append_right _ _
  | functionDec a x fs r b ih₁ ih₂ ih₃ =>
    have ha : Known seen (some a) := fun _ h => Option.some.inj h ▸ ht (List.mem_singleton_self a)
    rw [links, ordered_append, ordered_append]
    exact ⟨⟨ih₁ ha (tops_subset (by decide)), ih₂ ha.append (tops_subset (by decide))⟩,
      ih₃ ha.append (tops_subset (by decide))⟩
  | cons x xs ihx ihxs =>
    obtain ⟨hx, hxs⟩ := List.append_subset.mp ht
    rw [links, ordered_append]
    exact ⟨ihx hp hx, ihxs hp.append (List.subset_append_of_subset_left _ hxs)⟩
  | nil | none | simpleVar | nilExp | intExp | stringExp | breakExp | nameTy => trivial
  | some _ ih => exact ih hp ht
  | ofVar _ ih | ofNameTy _ ih | ofVarChunk _ ih
  | fieldVar _ _ _ ih | callExp _ _ _ ih | seqExp _ _ ih | recordTy _ _ ih | arrayTy _ _ ih
  | field _ _ _ ih | fieldInit _ _ _ ih | typeDec _ _ _ ih | varChunk _ _ ih
  | typeChunk _ _ ih | chunkList _ _ ih =>
    exact ih hp (tops_subset (by decide))
  | subscriptVar _ _ _ ih₁ ih₂ | opExp _ _ _ _ ih₁ ih₂ | recordExp _ _ _ ih₁ ih₂
  | assignExp _ _ _ ih₁ ih₂ | whileExp _ _ _ ih₁ ih₂ | letExp _ _ _ ih₁ ih₂
  | castExp _ _ _ ih₁ ih₂ | varDec _ _ _ _ ih₁ ih₂ =>
    rw [links, ordered_append]
    exact ⟨ih₁ hp (tops_subset (by decide)), ih₂ hp.append (tops_subset (by decide))⟩
  | ifExp _ _ _ _ ih₁ ih₂ ih₃ | forExp _ _ _ _ ih₁ ih₂ ih₃ | arrayExp _ _ _ _ ih₁ ih₂ ih₃ =>
    rw [links, ordered_append, ordered_append]
    exact ⟨⟨ih₁ hp (tops_subset (by decide)), ih₂ hp.append (tops_subset (by decide))⟩,
      ih₃ hp.append (tops_subset (by decide))⟩

/-- What a function is linked to comes before it. -/
theorem Ordered.earlier {i : Nat} {f a : Addr} (h : Ordered seen ls)
    (hi : ls[i]? = some (f, some a)) : a ∈ seen ∨ ∃ j < i, ∃ q, ls[j]? = some (a, q) := by
  induction ls generalizing seen i with
  | nil => cases hi
  | cons l ls ih =>
    cases i with
    | zero =>
      cases hi
      exact .inl (h.1 a rfl)
    | succ i =>
      rcases ih h.2 hi with hm | ⟨j, hj, q, hq⟩
      · rcases List.mem_append.mp hm with hm | hm
        · exact .inl hm
        · obtain rfl := List.mem_singleton.mp hm
          exact .inr ⟨0, Nat.succ_pos i, l.2, rfl⟩
      · exact .inr ⟨j + 1, Nat.succ_lt_succ hj, q, hq⟩

end ordered

/-! ## The graph that is built -/

/-- The vertex a function is linked to: that of its parent, the first one if it has none. -/
def Hangs (fs : List Addr) (q : Option Addr) (v : Nat) : Prop :=
  match q with
  | none => v = 0
  | some a => fs[v]? = some a

/-- The graph of the functions added so far. -/
structure Built (g : FundecGraph) (ls : List (Addr × Option Addr)) : Prop where
  labels : g.labels = ls.map Prod.fst
  vertex : ∀ {i f}, g.labels[i]? = some f → g.hfundecs (some f) = some i
  null : ∀ {v}, g.hfundecs none = some v → v = 0
  lt : ∀ {u v}, (u, v) ∈ g.edges → u < ls.length
  /-- One edge leaves each vertex. -/
  edges : ∀ {u f q}, ls[u]? = some (f, q) →
    ∃ v, Hangs g.labels q v ∧ ∀ w, (u, w) ∈ g.edges ↔ w = v

section built

variable {ls ms : List (Addr × Option Addr)} {f : Addr} {q : Option Addr}

theorem Built.start : Built {} [] where
  labels := rfl
  vertex h := by cases h
  null h := by cases h
  lt h := by cases h
  edges h := by cases h

theorem Hangs.append {fs gs : List Addr} {v : Nat} (h : Hangs fs q v) : Hangs (fs ++ gs) q v := by
  cases q with
  | none => exact h
  | some a =>
    obtain ⟨hlt, -⟩ := List.getElem?_eq_some_iff.mp h
    exact (List.getElem?_append_left hlt).trans h

theorem Built.extend {g' : FundecGraph} {v : Nat} (h : Built g ls) (hf : f ∉ g.labels)
    (hv : Hangs g.labels q v) (hl : g'.labels = g.labels ++ [f])
    (he : g'.edges = g.edges.insert (g.labels.length, v))
    (hh : ∀ a, g'.hfundecs (some a) =
      if a = f then some g.labels.length else g.hfundecs (some a))
    (hn : ∀ {w}, g'.hfundecs none = some w → w = 0) : Built g' (ls ++ [(f, q)]) := by
  have hlen : g.labels.length = ls.length := by rw [h.labels, List.length_map]
  constructor
  · rw [hl, h.labels, List.map_append]
    rfl
  · intro i a hi
    rw [hl] at hi
    rw [hh]
    rcases Nat.lt_or_ge i g.labels.length with hlt | hge
    · rw [List.getElem?_append_left hlt] at hi
      have hne : a ≠ f := by
        rintro rfl
        exact hf (List.mem_of_getElem? hi)
      rw [if_neg hne]
      exact h.vertex hi
    · rw [List.getElem?_append_right hge, List.getElem?_singleton] at hi
      split at hi
      · cases hi
        rw [if_pos rfl]
        congr 1
        omega
      · cases hi
  · exact hn
  · intro u w hw
    rw [he, List.mem_insert_iff] at hw
    rw [List.length_append, List.length_singleton]
    rcases hw with hw | hw
    · cases hw
      omega
    · exact Nat.lt_succ_of_lt (h.lt hw)
  · intro u a r hu
    rcases Nat.lt_or_ge u ls.length with hlt | hge
    · rw [List.getElem?_append_left hlt] at hu
      obtain ⟨w, hw, huniq⟩ := h.edges hu
      refine ⟨w, hl ▸ hw.append, fun x => ?_⟩
      rw [he, List.mem_insert_iff, ← huniq x]
      refine or_iff_right ?_
      intro hx
      cases hx
      omega
    · rw [List.getElem?_append_right hge, List.getElem?_singleton] at hu
      split at hu
      · cases hu
        have hu : u = g.labels.length := by omega
        refine ⟨v, hl ▸ hv.append, fun x => ?_⟩
        rw [he, List.mem_insert_iff, hu]
        constructor
        · rintro (hx | hx)
          · cases hx
            rfl
          · have := h.lt hx
            omega
        · rintro rfl
          exact .inl rfl
      · cases hu

theorem Built.add (h : Built g ls) (hf : f ∉ g.labels) (hq : Known g.labels q) :
    Built (addLink g (f, q)) (ls ++ [(f, q)]) := by
  have hat : (g.fundecAdd f).hfundecsAt (some f) = (g.labels.length, g.fundecAdd f) := by
    simp [FundecGraph.hfundecsAt, FundecGraph.fundecAdd, FundecGraph.vertexAdd]
  have hadd (b : Addr) : (g.fundecAdd f).hfundecs (some b) =
      if b = f then some g.labels.length else g.hfundecs (some b) := by
    simp [FundecGraph.fundecAdd, FundecGraph.vertexAdd, Function.update_apply]
  have hnull : (g.fundecAdd f).hfundecs none = g.hfundecs none := by
    simp [FundecGraph.fundecAdd]
  rw [addLink, FundecGraph.fundecLink, hat]
  cases q with
  | none =>
    cases hg : g.hfundecs none with
    | none =>
      simp only [FundecGraph.hfundecsAt, hnull, hg]
      refine h.extend hf rfl rfl rfl (fun b => ?_) (fun hw => ?_)
      · rw [← hadd b]
        simp
      · simpa using hw.symm
    | some v =>
      simp only [FundecGraph.hfundecsAt, hnull, hg]
      obtain rfl := h.null hg
      exact h.extend hf rfl rfl rfl hadd fun hw => h.null (hnull ▸ hw)
  | some a =>
    obtain ⟨j, hj, hja⟩ := List.getElem_of_mem (hq a rfl)
    have hsome : g.labels[j]? = some a := by rw [List.getElem?_eq_getElem hj, hja]
    have hne : a ≠ f := by
      rintro rfl
      exact hf (hq a rfl)
    simp only [FundecGraph.hfundecsAt, hadd a, if_neg hne, h.vertex hsome]
    exact h.extend hf hsome rfl rfl hadd fun hw => h.null (hnull ▸ hw)

theorem Built.run (h : Built g ls) (ho : Ordered (ls.map Prod.fst) ms)
    (hn : ((ls ++ ms).map Prod.fst).Nodup) : Built (ms.foldl addLink g) (ls ++ ms) := by
  induction ms generalizing g ls with
  | nil => rwa [List.append_nil]
  | cons m ms ih =>
    obtain ⟨f, q⟩ := m
    obtain ⟨hq, ho⟩ := ho
    have hf : f ∉ g.labels := by
      rw [List.map_append, List.map_cons] at hn
      rw [h.labels]
      exact fun hm => (List.nodup_append.mp hn).2.2 f hm f List.mem_cons_self rfl
    rw [← h.labels] at hq
    have hstep := ih (h.add hf hq) (by rw [List.map_append]; exact ho) (by simpa using hn)
    rwa [List.append_assoc] at hstep

end built

/-! ## The search -/

/-- The second function is the first one or one that it hangs from, over any number of links. -/
def Above (ls : List (Addr × Option Addr)) : Addr → Addr → Prop :=
  Relation.ReflTransGen fun f a => (f, some a) ∈ ls

/-- What the search gives: the function searched for where `P`, the null pointer elsewhere. -/
def Tells (r : Option Addr) (searched : Addr) (P : Prop) : Prop :=
  r = some searched ∧ P ∨ r = none ∧ ¬ P

section search

variable {ls : List (Addr × Option Addr)} {f a s : Addr} {q : Option Addr}

theorem Tells.congr {r : Option Addr} {P Q : Prop} (h : Tells r s P) (hpq : P ↔ Q) :
    Tells r s Q := by
  rwa [← propext hpq]

/-- A function is linked to one only. -/
theorem link_unique {q' : Option Addr} (hn : (ls.map Prod.fst).Nodup) (h : (f, q) ∈ ls)
    (h' : (f, q') ∈ ls) : q = q' :=
  congrArg Prod.snd (List.inj_on_of_nodup_map hn h h' rfl)

theorem above_iff (hn : (ls.map Prod.fst).Nodup) (h : (f, q) ∈ ls) (hne : f ≠ s) :
    Above ls f s ↔ ∃ a, q = some a ∧ Above ls a s := by
  constructor
  · intro ha
    rcases Relation.ReflTransGen.cases_head ha with heq | ⟨a, hfa, has⟩
    · exact absurd heq hne
    · exact ⟨a, link_unique hn h hfa, has⟩
  · rintro ⟨a, rfl, ha⟩
    exact .head h ha

theorem firstAdjacent_eq {u v : Nat} (h : ∀ w, (u, w) ∈ g.edges ↔ w = v) :
    g.firstAdjacent u = some v := by
  rw [FundecGraph.firstAdjacent, List.min?_eq_some_iff]
  have hmem (w : Nat) : w ∈ (g.edges.filter fun e => e.1 = u).map Prod.snd ↔ w = v := by
    rw [← h w]
    simp
  exact ⟨(hmem v).mpr rfl, fun w hw => Nat.le_of_eq ((hmem w).mp hw).symm⟩

/-- The search goes up the links, and on to the function that was added first. -/
theorem Built.search (h : Built g ls) (hn : (ls.map Prod.fst).Nodup) (ho : Ordered [] ls)
    (s : Addr) {i : Nat} (hi : ls[i]? = some (f, q)) :
    ∃ r, (∀ n, i + 2 ≤ n → g.hfundecDeepGet n f s = .ok r) ∧
      Tells r s (Above ls f s ∨ g.labels.head? = some s) := by
  have hinj {i j : Nat} {a : Addr} {q r : Option Addr} (h : ls[i]? = some (a, q))
      (h' : ls[j]? = some (a, r)) : i = j := by
    have hlt : i < (ls.map Prod.fst).length := by
      rw [List.length_map]
      exact (List.getElem?_eq_some_iff.mp h).1
    apply (List.getElem?_inj hlt hn).mp
    rw [List.getElem?_map, List.getElem?_map, h, h']
    rfl
  induction i using Nat.strongRecOn generalizing f q with
  | ind i ih =>
    by_cases hs : f = s
    · refine ⟨some s, ?_, .inl ⟨rfl, .inl (hs ▸ .refl)⟩⟩
      intro n hle
      obtain ⟨n, rfl⟩ : ∃ m, n = m + 1 := ⟨n - 1, by omega⟩
      rw [FundecGraph.hfundecDeepGet, if_pos hs]
    · have hfi : g.labels[i]? = some f := by rw [h.labels, List.getElem?_map, hi]; rfl
      obtain ⟨v, hv, huniq⟩ := h.edges hi
      have hfirst : (g.hfundecs (some f)).bind g.firstAdjacent = some v := by
        rw [h.vertex hfi]
        exact firstAdjacent_eq huniq
      have hstep (n : Nat) : g.hfundecDeepGet (n + 1) f s =
          match g.labels[v]? with
          | none => .error .undefined
          | some parent => if parent = f then .ok none else g.hfundecDeepGet n parent s := by
        rw [FundecGraph.hfundecDeepGet, if_neg hs, hfirst]
      have habove := above_iff (s := s) hn (List.mem_of_getElem? hi) hs
      -- The search in a vertex before this one decides.
      have hgo {j : Nat} {a : Addr} {r : Option Addr} (hj : j < i) (hja : ls[j]? = some (a, r))
          (hvj : v = j) (haf : a ≠ f) : ∃ r, (∀ n, i + 2 ≤ n → g.hfundecDeepGet n f s = .ok r) ∧
            Tells r s (Above ls a s ∨ g.labels.head? = some s) := by
        obtain ⟨r, hr, hp⟩ := ih j hj hja
        refine ⟨r, fun n hle => ?_, hp⟩
        obtain ⟨n, rfl⟩ : ∃ m, n = m + 1 := ⟨n - 1, by omega⟩
        have ha : g.labels[v]? = some a := by rw [h.labels, List.getElem?_map, hvj, hja]; rfl
        rw [hstep, ha]
        simp only [if_neg haf]
        exact hr n (by omega)
      cases q with
      | none =>
        obtain rfl : v = 0 := hv
        have hnot : ¬ Above ls f s := by
          rw [habove]
          rintro ⟨a, ha, -⟩
          cases ha
        cases i with
        | zero =>
          have hhead : g.labels.head? = some f := by rw [List.head?_eq_getElem?, hfi]
          refine ⟨none, fun n hle => ?_, .inr ⟨rfl, ?_⟩⟩
          · obtain ⟨n, rfl⟩ : ∃ m, n = m + 1 := ⟨n - 1, by omega⟩
            rw [hstep, hfi]
            simp only [if_pos]
          · rw [hhead]
            rintro (ha | ha)
            · exact hnot ha
            · exact hs (Option.some.inj ha)
        | succ i =>
          obtain ⟨⟨a, r⟩, ha⟩ : ∃ l, ls[0]? = some l := by
            have hlt := (List.getElem?_eq_some_iff.mp hi).1
            exact ⟨_, List.getElem?_eq_getElem (Nat.zero_lt_of_lt hlt)⟩
          have hhead : g.labels.head? = some a := by
            rw [List.head?_eq_getElem?, h.labels, List.getElem?_map, ha]
            rfl
          have hr : r = none := by
            cases r with
            | none => rfl
            | some b =>
              obtain ⟨j, hj, -⟩ := (ho.earlier ha).resolve_left nofun
              cases hj
          subst hr
          have haf : a ≠ f := fun heq => absurd (hinj (heq ▸ ha) hi) (Nat.succ_ne_zero i).symm
          obtain ⟨r, hrun, htells⟩ := hgo (Nat.succ_pos i) ha rfl haf
          refine ⟨r, hrun, htells.congr (or_congr_left' fun hne => ?_)⟩
          have has : a ≠ s := fun heq => hne (hhead.trans (congrArg some heq))
          refine iff_of_false ?_ hnot
          rw [above_iff hn (List.mem_of_getElem? ha) has]
          rintro ⟨b, hb, -⟩
          cases hb
      | some a =>
        obtain ⟨j, hj, r, hja⟩ := (ho.earlier hi).resolve_left nofun
        have hvj : v = j := by
          obtain ⟨l, hl, rfl⟩ : ∃ l, ls[v]? = some l ∧ l.1 = a := by
            have hv : g.labels[v]? = some a := hv
            rwa [h.labels, List.getElem?_map, Option.map_eq_some_iff] at hv
          exact hinj hl hja
        have haf : a ≠ f := fun heq => absurd (hinj (heq ▸ hja) hi) (Nat.ne_of_lt hj)
        obtain ⟨r, hrun, htells⟩ := hgo hj hja hvj haf
        refine ⟨r, hrun, htells.congr (or_congr_left ?_)⟩
        rw [habove]
        constructor
        · exact fun has => ⟨a, rfl, has⟩
        · rintro ⟨b, hb, hbs⟩
          cases hb
          exact hbs

end search

end ParentGraphVisitor

end TigerCompiler
