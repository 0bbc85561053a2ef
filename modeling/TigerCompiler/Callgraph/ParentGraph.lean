import TigerCompiler.Callgraph.FundecGraph

/-!
# The ancestors of a function

The links of the parent graph go up exactly the nesting of the functions of the program, so the
search finds what encloses a function, and besides that the function the graph begins with.
-/

namespace TigerCompiler

/-- The functions declared inside a function. -/
def Ast.nested : Ast Addr .functionDec → List (Ast Addr .functionDec)
  | .functionDec _ _ fs r b => fs.functionDecs ++ r.functionDecs ++ b.functionDecs

/-- The function at `f` lexically encloses the one at `g`. -/
def Ast.Encloses {k : Kind} (t : Ast Addr k) (f g : Addr) : Prop :=
  ∃ d ∈ t.functionDecs, ∃ e ∈ d.nested, d.functionAddr = f ∧ e.functionAddr = g

namespace ParentGraphVisitor

variable {k : Kind} {t : Ast Addr k} {p : Option Addr} {g : FundecGraph}

section nesting

variable {f q : Addr} {d e : Ast Addr .functionDec}

theorem Above.mono {ls ms : List (Addr × Option Addr)} (h : Above ls f q) (hs : ls ⊆ ms) :
    Above ms f q := by
  induction h with
  | refl => exact .refl
  | tail _ hl ih => exact ih.tail (hs hl)

theorem functionDecs_eq (d : Ast Addr .functionDec) : d.functionDecs = d :: d.nested := by
  cases d
  simp [Ast.functionDecs, Ast.subterms, Ast.nested]

theorem mem_functionDecs_of_link {r : Option Addr} (h : (f, r) ∈ links t p) :
    ∃ e ∈ t.functionDecs, e.functionAddr = f := by
  have hmem : f ∈ tops t ++ (links t p).map Prod.fst :=
    List.mem_append_right _ (List.mem_map.mpr ⟨_, h, rfl⟩)
  exact List.mem_map.mp (links_perm.mem_iff.mp hmem)

/-- What is added inside a function is linked to it or to a function that it encloses. -/
theorem encloses_part {j : Kind} {c : Ast Addr j} {r : Option Addr}
    (hc : (f, r) ∈ links c (some d.functionAddr))
    (h : r = some d.functionAddr ∨ ∃ q, r = some q ∧ c.Encloses q f)
    (hin : c.functionDecs ⊆ d.nested) : ∃ q, r = some q ∧ d.Encloses q f := by
  have hd : d.functionDecs = d :: d.nested := functionDecs_eq d
  rcases h with rfl | ⟨q, rfl, u, hu, hq⟩
  · obtain ⟨e, he, hf⟩ := mem_functionDecs_of_link hc
    exact ⟨_, rfl, d, hd ▸ List.mem_cons_self, e, hin he, rfl, hf⟩
  · exact ⟨q, rfl, u, hd ▸ List.mem_cons_of_mem _ (hin hu), hq⟩

/-- What is added inside a tree is linked to what the tree is visited with, or to a function of
the tree that encloses it. -/
theorem links_sound {r : Option Addr} (h : (f, r) ∈ links t p) :
    r = p ∨ ∃ q, r = some q ∧ t.Encloses q f := by
  induction t generalizing p with
  | functionDec a x fs s b ih₁ ih₂ ih₃ =>
    right
    rw [links, List.mem_append, List.mem_append] at h
    rcases h with (h | h) | h
    · exact encloses_part h (ih₁ h) fun e he => List.mem_append_left _ (List.mem_append_left _ he)
    · exact encloses_part h (ih₂ h) fun e he => List.mem_append_left _ (List.mem_append_right _ he)
    · exact encloses_part h (ih₃ h) fun e he => List.mem_append_right _ he
  | functionChunk a ds ih =>
    rw [links, List.mem_append] at h
    rcases h with h | h
    · obtain ⟨d, -, hd⟩ := List.mem_map.mp h
      cases hd
      exact .inl rfl
    · have hds : (Ast.functionChunk a ds).functionDecs = ds.functionDecs := rfl
      simp only [Ast.Encloses, hds]
      exact ih h
  | nil | none | simpleVar | nilExp | intExp | stringExp | breakExp | nameTy => cases h
  | _ =>
    simp only [links, List.mem_append] at h
    grind [Ast.Encloses, Ast.subterms, Ast.mem_functionDecs]

/-- The links that a function of a tree makes are made by the tree. -/
theorem links_subset {p' : Option Addr} (h : d ∈ t.functionDecs) : links d p' ⊆ links t p := by
  rw [Ast.mem_functionDecs] at h
  induction t generalizing p with
  | functionDec a x fs r b ih₁ ih₂ ih₃ =>
    simp only [Ast.subterms, List.mem_cons, List.mem_append] at h
    rcases h with h | (h | h) | h
    · cases h
      exact List.Subset.refl _
    · exact List.subset_append_of_subset_left _ (List.subset_append_of_subset_left _ (ih₁ h))
    · exact List.subset_append_of_subset_left _ (List.subset_append_of_subset_right _ (ih₂ h))
    · exact List.subset_append_of_subset_right _ (ih₃ h)
  | functionChunk a ds ih =>
    simp only [Ast.subterms, List.mem_cons] at h
    rcases h with h | h
    · cases h
    · exact List.subset_append_of_subset_right _ (ih h)
  | nil | none | simpleVar | nilExp | intExp | stringExp | breakExp | nameTy =>
    simp [Ast.subterms] at h
  | _ =>
    simp only [Ast.subterms, List.mem_cons, List.mem_append] at h
    simp only [links]
    grind

/-- From a function the links lead to what the tree is visited with, or to a function that the
tree is or holds. -/
def Leads (t : Ast Addr k) (p : Option Addr) (e : Ast Addr .functionDec) : Prop :=
  ∃ f, Above (links t p) e.functionAddr f ∧ (f ∈ tops t ∨ (f, p) ∈ links t p)

theorem Leads.part {j : Kind} {c : Ast Addr j} (h : Leads c p e) (hj : base j ≠ .functionDec)
    (hs : links c p ⊆ links t p) : Leads t p e := by
  obtain ⟨f, hf, ht⟩ := h
  rw [tops_eq_nil hj] at ht
  exact ⟨f, hf.mono hs, .inr (hs (ht.resolve_left List.not_mem_nil))⟩

theorem Leads.up {j : Kind} {c : Ast Addr j} (h : Leads c (some d.functionAddr) e)
    (hj : base j ≠ .functionDec) (hs : links c (some d.functionAddr) ⊆ links d p) :
    Above (links d p) e.functionAddr d.functionAddr := by
  obtain ⟨f, hf, ht⟩ := h
  rw [tops_eq_nil hj] at ht
  exact (hf.mono hs).tail (hs (ht.resolve_left List.not_mem_nil))

theorem leads (h : e ∈ t.functionDecs) : Leads t p e := by
  rw [Ast.mem_functionDecs] at h
  induction t generalizing p with
  | functionDec a x fs r b ih₁ ih₂ ih₃ =>
    simp only [Ast.subterms, List.mem_cons, List.mem_append] at h
    refine ⟨a, ?_, .inl (List.mem_singleton_self a)⟩
    have hl₁ := List.subset_append_left (links fs (some a)) (links r (some a))
    have hl₂ := List.subset_append_right (links fs (some a)) (links r (some a))
    rcases h with h | (h | h) | h
    · cases h
      exact .refl
    · exact (ih₁ h).up (d := .functionDec a x fs r b) (by decide)
        (List.subset_append_of_subset_left _ hl₁)
    · exact (ih₂ h).up (d := .functionDec a x fs r b) (by decide)
        (List.subset_append_of_subset_left _ hl₂)
    · exact (ih₃ h).up (d := .functionDec a x fs r b) (by decide) (List.subset_append_right _ _)
  | functionChunk a ds ih =>
    simp only [Ast.subterms, List.mem_cons] at h
    rcases h with h | h
    · cases h
    · obtain ⟨f, hf, ht⟩ := ih (p := p) h
      refine ⟨f, hf.mono (List.subset_append_right _ _), .inr ?_⟩
      rcases ht with ht | ht
      · rw [tops_functionDecs rfl] at ht
        obtain ⟨d, hd, rfl⟩ := List.mem_map.mp ht
        exact List.mem_append_left _ (List.mem_map.mpr ⟨d, hd, rfl⟩)
      · exact List.mem_append_right _ ht
  | cons x xs ihx ihxs =>
    simp only [Ast.subterms, List.mem_cons, List.mem_append] at h
    rcases h with h | h | h
    · cases h
    · obtain ⟨f, hf, ht⟩ := ihx (p := p) h
      exact ⟨f, hf.mono (List.subset_append_left _ _),
        ht.imp (List.mem_append_left _) (List.mem_append_left _)⟩
    · obtain ⟨f, hf, ht⟩ := ihxs (p := p) h
      exact ⟨f, hf.mono (List.subset_append_right _ _),
        ht.imp (List.mem_append_right _) (List.mem_append_right _)⟩
  | some x ih =>
    simp only [Ast.subterms, List.mem_cons] at h
    rcases h with h | h
    · cases h
    · exact ih h
  | nil | none | simpleVar | nilExp | intExp | stringExp | breakExp | nameTy =>
    simp [Ast.subterms] at h
  | ofVar _ ih | ofNameTy _ ih | ofVarChunk _ ih
  | fieldVar _ _ _ ih | callExp _ _ _ ih | seqExp _ _ ih | recordTy _ _ ih | arrayTy _ _ ih
  | field _ _ _ ih | fieldInit _ _ _ ih | typeDec _ _ _ ih | varChunk _ _ ih
  | typeChunk _ _ ih | chunkList _ _ ih =>
    simp only [Ast.subterms, List.mem_cons] at h
    rcases h with h | h
    · cases h
    · exact (ih h).part (by decide) (List.Subset.refl _)
  | subscriptVar _ _ _ ih₁ ih₂ | opExp _ _ _ _ ih₁ ih₂ | recordExp _ _ _ ih₁ ih₂
  | assignExp _ _ _ ih₁ ih₂ | whileExp _ _ _ ih₁ ih₂ | letExp _ _ _ ih₁ ih₂
  | castExp _ _ _ ih₁ ih₂ | varDec _ _ _ _ ih₁ ih₂ =>
    simp only [Ast.subterms, List.mem_cons, List.mem_append] at h
    rcases h with h | h | h
    · cases h
    · exact (ih₁ h).part (by decide) (List.subset_append_left _ _)
    · exact (ih₂ h).part (by decide) (List.subset_append_right _ _)
  | ifExp _ _ _ _ ih₁ ih₂ ih₃ | forExp _ _ _ _ ih₁ ih₂ ih₃ | arrayExp _ _ _ _ ih₁ ih₂ ih₃ =>
    simp only [Ast.subterms, List.mem_cons, List.mem_append] at h
    rcases h with h | (h | h) | h
    · cases h
    · exact (ih₁ h).part (by decide)
        (List.subset_append_of_subset_left _ (List.subset_append_left _ _))
    · exact (ih₂ h).part (by decide)
        (List.subset_append_of_subset_left _ (List.subset_append_right _ _))
    · exact (ih₃ h).part (by decide) (List.subset_append_right _ _)

theorem nested_subset (h : e ∈ d.functionDecs) : e.nested ⊆ d.nested := by
  rw [functionDecs_eq, List.mem_cons] at h
  rcases h with rfl | h
  · exact List.Subset.refl _
  · have hsub (j : Kind) (c : Ast Addr j) (hc : e ∈ c.functionDecs) :
        e.nested ⊆ c.functionDecs := by
      intro u hu
      have hue : u ∈ e.functionDecs := functionDecs_eq e ▸ List.mem_cons_of_mem _ hu
      rw [Ast.mem_functionDecs] at hc hue ⊢
      exact Ast.subterms_subset hc hue
    cases d with
    | functionDec a x fs r b =>
      simp only [Ast.nested, List.mem_append] at h
      rcases h with (h | h) | h
      · exact List.subset_append_of_subset_left _ (List.subset_append_of_subset_left _ (hsub _ _ h))
      · exact List.subset_append_of_subset_left _
          (List.subset_append_of_subset_right _ (hsub _ _ h))
      · exact List.subset_append_of_subset_right _ (hsub _ _ h)

/-- The addresses of the functions are among those of the nodes, in the same order. -/
theorem functionDecs_sublist : (t.functionDecs.map Ast.functionAddr).Sublist t.nodes := by
  induction t with
  | nil | none | simpleVar | nilExp | intExp | stringExp | breakExp | nameTy =>
    simp [Ast.functionDecs, Ast.subterms]
  | some _ ih | ofVar _ ih | ofNameTy _ ih | ofVarChunk _ ih => exact ih
  | functionDec a _ _ _ _ ih₁ ih₂ ih₃ =>
    rw [functionDecs_eq, List.map_cons, Ast.nested, List.map_append, List.map_append]
    exact ((ih₁.append ih₂).append ih₃).cons_cons a
  | cons _ _ ih₁ ih₂ => simpa [Ast.functionDecs, Ast.subterms, Ast.nodes] using ih₁.append ih₂
  | fieldVar _ _ _ ih | callExp _ _ _ ih | seqExp _ _ ih | recordTy _ _ ih | arrayTy _ _ ih
  | field _ _ _ ih | fieldInit _ _ _ ih | typeDec _ _ _ ih | varChunk _ _ ih
  | functionChunk _ _ ih | typeChunk _ _ ih | chunkList _ _ ih => exact ih.cons _
  | subscriptVar _ _ _ ih₁ ih₂ | opExp _ _ _ _ ih₁ ih₂ | recordExp _ _ _ ih₁ ih₂
  | assignExp _ _ _ ih₁ ih₂ | whileExp _ _ _ ih₁ ih₂ | letExp _ _ _ ih₁ ih₂
  | castExp _ _ _ ih₁ ih₂ | varDec _ _ _ _ ih₁ ih₂ =>
    simpa [Ast.functionDecs, Ast.subterms, Ast.nodes] using (ih₁.append ih₂).cons _
  | ifExp _ _ _ _ ih₁ ih₂ ih₃ | forExp _ _ _ _ ih₁ ih₂ ih₃ | arrayExp _ _ _ _ ih₁ ih₂ ih₃ =>
    simpa [Ast.functionDecs, Ast.subterms, Ast.nodes] using ((ih₁.append ih₂).append ih₃).cons _

theorem Encloses.trans {a b c : Addr} (hn : t.nodes.Nodup) (h : t.Encloses a b)
    (h' : t.Encloses b c) : t.Encloses a c := by
  obtain ⟨d, hd, e, he, hda, heb⟩ := h
  obtain ⟨d', hd', e', he', hdb, hec⟩ := h'
  have het : e ∈ t.functionDecs := by
    rw [Ast.mem_functionDecs] at hd ⊢
    have hed : e ∈ d.functionDecs := functionDecs_eq d ▸ List.mem_cons_of_mem _ he
    exact Ast.subterms_subset hd (Ast.mem_functionDecs.mp hed)
  have heq : e = d' := List.inj_on_of_nodup_map (hn.sublist functionDecs_sublist) het hd'
    (heb.trans hdb.symm)
  have hed : e ∈ d.functionDecs := functionDecs_eq d ▸ List.mem_cons_of_mem _ he
  exact ⟨d, hd, e', nested_subset hed (heq ▸ he'), hda, hec⟩

/-- The links go up exactly the nesting of the functions. -/
theorem above_iff_encloses (hn : t.nodes.Nodup) :
    Above (links t none) f q ↔ q = f ∨ t.Encloses q f := by
  constructor
  · intro h
    induction h using Relation.ReflTransGen.head_induction_on with
    | refl => exact .inl rfl
    | head hl _ ih =>
      obtain ⟨u, hu, henc⟩ := (links_sound hl).resolve_left nofun
      cases hu
      rcases ih with rfl | ih
      · exact .inr henc
      · exact .inr (Encloses.trans hn ih henc)
  · rintro (rfl | ⟨d, hd, e, he, rfl, rfl⟩)
    · exact .refl
    · have hed : e ∈ d.functionDecs := functionDecs_eq d ▸ List.mem_cons_of_mem _ he
      obtain ⟨u, hu, ht⟩ := leads (p := some d.functionAddr) hed
      have hsub : links d (some d.functionAddr) ⊆ links t none := links_subset hd
      rcases ht with ht | ht
      · cases d with
        | functionDec a x fs r b =>
          obtain rfl := List.mem_singleton.mp ht
          exact hu.mono hsub
      · exact (hu.mono hsub).tail (hsub ht)

end nesting

/-- `parentgraph_compute`. -/
def parentgraphCompute (program : Ast Addr .chunkList) : FundecGraph := visit program none {}

end ParentGraphVisitor

/-- The constructor of `Inliner`: `closure` gives the edges of the transitive closure of the call
graph, in the order of its vertices and of what is adjacent to each. -/
def recFuns (parentGraph : FundecGraph) (n : Nat) (closure : List (Addr × Addr)) :
    Except Stop (List Addr) :=
  closure.foldlM (fun recFuns l => do
    let found ← parentGraph.hfundecDeepGet n l.1 l.2
    return if found.isSome then recFuns.insert l.2 else recFuns) []

open ParentGraphVisitor

/-- The search from one function for another terminates, and it finds it when it is the same or
lexically encloses the first one, and only then. -/
def DeepGetExact (program : Ast Addr .chunkList) (start searched : Addr) : Prop :=
  ∃ r, (∃ m, ∀ n, m ≤ n →
    (parentgraphCompute program).hfundecDeepGet n start searched = .ok r) ∧
    Tells r searched (searched = start ∨ program.Encloses searched start)

/-- The functions marked as recursive are called from themselves or from a function nested in
them. -/
def MarksRecursive (program : Ast Addr .chunkList) (closure : List (Addr × Addr)) : Prop :=
  ∃ fs, (∃ m, ∀ n, m ≤ n → recFuns (parentgraphCompute program) n closure = .ok fs) ∧
    ∀ f ∈ fs, ∃ g, (g, f) ∈ closure ∧ (f = g ∨ program.Encloses f g)

section exactness

variable {program : Ast Addr .chunkList} {start searched f g : Addr}

/-- The function that the parent graph begins with. -/
def firstFunction (program : Ast Addr .chunkList) : Option Addr :=
  (program.functionDecs.map Ast.functionAddr).head?

/-- What the search gives in the graph of a program. -/
theorem deepGet_spec (hn : program.nodes.Nodup)
    (hs : start ∈ program.functionDecs.map Ast.functionAddr) (searched : Addr) :
    ∃ r, (∃ m, ∀ n, m ≤ n →
      (parentgraphCompute program).hfundecDeepGet n start searched = .ok r) ∧
      Tells r searched ((searched = start ∨ program.Encloses searched start) ∨
        firstFunction program = some searched) := by
  have hperm := links_perm (t := program) (p := none)
  have hhead := head_links (t := program) (p := none)
  rw [tops_eq_nil (by decide), List.nil_append] at hperm hhead
  have hnd : ((links program none).map Prod.fst).Nodup :=
    hperm.nodup_iff.mpr (hn.sublist functionDecs_sublist)
  have ho : Ordered [] (links program none) :=
    ordered_links (fun _ h => nomatch h) (tops_subset (by decide))
  have hb : Built (parentgraphCompute program) (links program none) := by
    rw [parentgraphCompute, visit_eq]
    exact Built.start.run ho hnd
  obtain ⟨⟨f, q⟩, hl, rfl⟩ := List.mem_map.mp (hperm.mem_iff.mpr hs)
  obtain ⟨i, hi⟩ := List.getElem?_of_mem hl
  obtain ⟨r, hr, ht⟩ := hb.search hnd ho searched hi
  refine ⟨r, ⟨i + 2, hr⟩, ht.congr ?_⟩
  rw [above_iff_encloses hn, hb.labels, hhead, firstFunction]

/-- Two runs of a search with enough calls give the same. -/
theorem eq_of_runs {α : Type} {x : Nat → Except Stop α} {a b : α}
    (ha : ∃ m, ∀ n, m ≤ n → x n = .ok a) (hb : ∃ m, ∀ n, m ≤ n → x n = .ok b) : a = b := by
  obtain ⟨m, ha⟩ := ha
  obtain ⟨m', hb⟩ := hb
  exact Except.ok.inj
    ((ha (max m m') (Nat.le_max_left _ _)).symm.trans (hb _ (Nat.le_max_right _ _)))

/-- The search is exact but for the first function, which it finds from everywhere. -/
theorem deepGetExact_of_mem (hn : program.nodes.Nodup)
    (hs : start ∈ program.functionDecs.map Ast.functionAddr) :
    DeepGetExact program start searched ↔
      (firstFunction program = some searched →
        searched = start ∨ program.Encloses searched start) := by
  obtain ⟨r, hr, ht⟩ := deepGet_spec hn hs searched
  constructor
  · rintro ⟨r', hr', ht'⟩ hfirst
    obtain rfl := eq_of_runs hr hr'
    rcases ht' with ⟨-, hp⟩ | ⟨rfl, -⟩
    · exact hp
    · rcases ht with ⟨h, -⟩ | ⟨-, h⟩
      · cases h
      · exact absurd (.inr hfirst) h
  · intro h
    exact ⟨r, hr, ht.congr (or_iff_left_of_imp h)⟩

/-- What the constructor of `Inliner` marks. -/
theorem recFuns_spec (hn : program.nodes.Nodup) {closure : List (Addr × Addr)}
    (hc : ∀ l ∈ closure, l.1 ∈ program.functionDecs.map Ast.functionAddr) :
    ∃ fs, (∃ m, ∀ n, m ≤ n → recFuns (parentgraphCompute program) n closure = .ok fs) ∧
      ∀ f, f ∈ fs ↔ ∃ g, (g, f) ∈ closure ∧
        ((f = g ∨ program.Encloses f g) ∨ firstFunction program = some f) := by
  have hrun (acc : List Addr) : ∃ fs, (∃ m, ∀ n, m ≤ n →
      closure.foldlM (fun recFuns l => do
        let found ← (parentgraphCompute program).hfundecDeepGet n l.1 l.2
        return if found.isSome then recFuns.insert l.2 else recFuns) acc = .ok fs) ∧
      ∀ f, f ∈ fs ↔ f ∈ acc ∨ ∃ g, (g, f) ∈ closure ∧
        ((f = g ∨ program.Encloses f g) ∨ firstFunction program = some f) := by
    induction closure generalizing acc with
    | nil => exact ⟨acc, ⟨0, fun _ _ => rfl⟩, by simp⟩
    | cons l ls ih =>
      obtain ⟨g, f⟩ := l
      obtain ⟨r, ⟨m, hr⟩, ht⟩ := deepGet_spec hn (hc _ List.mem_cons_self) f
      obtain ⟨fs, ⟨m', hm'⟩, hfs⟩ := ih (fun l hl => hc l (List.mem_cons_of_mem _ hl))
        (if r.isSome then acc.insert f else acc)
      refine ⟨fs, ⟨max m m', fun n hle => ?_⟩, fun f' => ?_⟩
      · rw [List.foldlM_cons, hr n (Nat.le_trans (Nat.le_max_left _ _) hle)]
        exact hm' n (Nat.le_trans (Nat.le_max_right _ _) hle)
      · rw [hfs]
        rcases ht with ⟨rfl, hp⟩ | ⟨rfl, hp⟩
        · simp only [Option.isSome_some, if_true, List.mem_insert_iff, List.mem_cons,
            Prod.mk.injEq]
          grind
        · simp only [Option.isSome_none, Bool.false_eq_true, if_false, List.mem_cons,
            Prod.mk.injEq]
          grind
  obtain ⟨fs, hfs, hmem⟩ := hrun []
  exact ⟨fs, hfs, fun f => by rw [hmem]; simp⟩

end exactness

/-- `function f() = () function g() = f()`. -/
def twoFunctions : Ast Addr .chunkList :=
  .chunkList 1 (.cons (.functionChunk 2
    (.cons (.functionDec 3 "f".toList (.varChunk 4 .nil) .none (.some (.seqExp 5 .nil)))
      (.cons (.functionDec 6 "g".toList (.varChunk 7 .nil) .none
        (.some (.callExp 8 "f".toList .nil))) .nil))) .nil)

end TigerCompiler
