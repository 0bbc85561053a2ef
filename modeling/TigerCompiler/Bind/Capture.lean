import TigerCompiler.Bind.Completeness
import TigerCompiler.Bind.Renaming

/-!
# When a renamed tree is bound as before

The renamed tree is resolved again, use by use.  A use that is left its name while its
declaration is not, or the other way round, loses its declaration; and a declaration that lies
between a use and its declaration captures it when it has the new name of the latter, which takes
one that is renamed and one that is not.  Two such declarations of one chunk collide.
-/

namespace TigerCompiler

variable {k : Kind} {N : Addr → Symbol}

/-- What a chunk declares, and under which names. -/
def Ast.declarations : {k : Kind} → Ast Addr k → List (Symbol × Addr)
  | _, .varChunk _ ds => ds.toList.map fun d => (d.varName, d.varAddr)
  | _, .functionChunk _ ds => ds.toList.map fun d => (d.functionName, d.functionAddr)
  | _, .typeChunk _ ds => ds.toList.map fun d => (d.typeName, d.typeAddr)
  | _, _ => []

/-! ## Renaming the uses -/

/-- A use under new names. -/
def Use.withNames (N : Addr → Symbol) (u : Use) : Use :=
  { u with name := N u.addr, around := u.around.map fun p => (N p.2, p.2) }

/-- The declarations around a place under new names. -/
def Decls.withNames (N : Addr → Symbol) (δ : Decls) : Decls :=
  { δ with
    vars := δ.vars.map fun p => (N p.2, p.2)
    funs := δ.funs.map fun p => (N p.2, p.2)
    types := δ.types.map fun p => (N p.2, p.2) }

theorem Ast.toList_withNames : (xs : Ast Addr (.list k)) →
    (xs.withNames N).toList = xs.toList.map (·.withNames N)
  | .nil => rfl
  | .cons x xs => by rw [withNames, toList_cons, toList_cons, List.map_cons, xs.toList_withNames]

theorem Ast.varDecl_withNames (d : Ast Addr .varDec) :
    ((d.withNames N).varName, (d.withNames N).varAddr) = (N d.varAddr, d.varAddr) := by
  cases d
  rfl

theorem Ast.functionDecl_withNames (d : Ast Addr .functionDec) :
    ((d.withNames N).functionName, (d.withNames N).functionAddr) =
      (N d.functionAddr, d.functionAddr) := by
  cases d
  rfl

theorem Ast.typeDecl_withNames (d : Ast Addr .typeDec) :
    ((d.withNames N).typeName, (d.withNames N).typeAddr) = (N d.typeAddr, d.typeAddr) := by
  cases d
  rfl

theorem Ast.declarations_withNames (c : Ast Addr k) :
    (c.withNames N).declarations = c.declarations.map fun p => (N p.2, p.2) := by
  cases c with
  | varChunk a ds =>
    simp [declarations, Ast.withNames, toList_withNames, varDecl_withNames, Function.comp_def]
  | functionChunk a ds =>
    simp [declarations, Ast.withNames, toList_withNames, functionDecl_withNames,
      Function.comp_def]
  | typeChunk a ds =>
    simp [declarations, Ast.withNames, toList_withNames, typeDecl_withNames, Function.comp_def]
  | _ => rfl

namespace Decls

variable {δ : Decls}

theorem putFuns_withNames (ds : List (Ast Addr .functionDec)) :
    (δ.withNames N).putFuns (ds.map (·.withNames N)) = (δ.putFuns ds).withNames N := by
  simp [Decls.withNames, putFuns, Ast.functionDecl_withNames, Function.comp_def]

theorem putTypes_withNames (ds : List (Ast Addr .typeDec)) :
    (δ.withNames N).putTypes (ds.map (·.withNames N)) = (δ.putTypes ds).withNames N := by
  simp [Decls.withNames, putTypes, Ast.typeDecl_withNames, Function.comp_def]

theorem after_withNames (t : Ast Addr k) :
    (δ.withNames N).after (t.withNames N) = (δ.after t).withNames N := by
  induction t generalizing δ with
  | cons x xs ihx ihxs =>
    rw [Ast.withNames, after, ihx, ihxs]
    rfl
  | some x ih | varChunk _ x ih | ofVarChunk x ih | chunkList _ x ih => exact ih
  | functionChunk a ds =>
    rw [Ast.withNames, after, Ast.toList_withNames, putFuns_withNames]
    rfl
  | typeChunk a ds =>
    rw [Ast.withNames, after, Ast.toList_withNames, putTypes_withNames]
    rfl
  | _ => rfl

theorem signature_withNames (body : Ast Addr (.opt .exp)) :
    (δ.withNames N).signature (body.withNames N) = (δ.signature body).withNames N := by
  cases body <;> rfl

theorem uses_withNames (t : Ast Addr k) :
    (δ.withNames N).uses (t.withNames N) = (δ.uses t).map (Use.withNames N) := by
  induction t generalizing δ with
  | cons x xs ihx ihxs => simp [Ast.withNames, uses, after_withNames, ihx, ihxs]
  | forExp _ d h b ih₁ ih₂ ih₃ => simp [Ast.withNames, uses, after_withNames, ih₁, ih₂, ih₃]
  | letExp _ cs b ih₁ ih₂ => simp [Ast.withNames, uses, after_withNames, ih₁, ih₂]
  | functionDec _ _ fs r b ih₁ ih₂ ih₃ =>
    simp [Ast.withNames, uses, after_withNames, signature_withNames, ih₁, ih₂, ih₃]
  | functionChunk _ ds ih =>
    simp [Ast.withNames, uses, Ast.toList_withNames, putFuns_withNames, ih]
  | typeChunk _ ds ih =>
    simp [Ast.withNames, uses, Ast.toList_withNames, putTypes_withNames, ih]
  | simpleVar | nameTy => rfl
  | callExp a x args ih => exact congrArg (_ :: ·) ih
  | _ => simp_all [Ast.withNames, uses]

end Decls

/-! ## What the declarations around a use are -/

/-- The declaration at an address is given a new name. -/
def Renamed (program : Ast Addr k) (a : Addr) : Prop := (a, Mark.dec) ∈ program.marks false

instance (program : Ast Addr k) (a : Addr) : Decidable (Renamed program a) :=
  inferInstanceAs (Decidable (_ ∈ _))

/-- A declaration of the program, with its name. -/
def Declared (program : Ast Addr k) (p : Symbol × Addr) : Prop :=
  program.nameAt p.2 = p.1 ∧
    ((p.2, Mark.dec) ∈ program.marks false ∨ (p.2, Mark.kept) ∈ program.marks false)

/-- What holds of the declarations of one name space around a place: the variables and the types
that keep their names lie inside those that are renamed, and outside the primitives only they
and the functions without a body or called `_main` keep theirs. -/
structure Around (program : Ast Addr k) (space : Space) (inPrimitive : Bool)
    (l : List (Symbol × Addr)) : Prop where
  declared : ∀ p ∈ l, Declared program p
  inner : space ≠ .function →
    l.Pairwise fun e d => ¬ Renamed program d.2 → ¬ Renamed program e.2
  outside : inPrimitive = false → ∀ p ∈ l, Renamed program p.2 ↔
    (space = .function → program.hasBodyAt p.2 = true ∧ p.1 ≠ Symbol.main)

section

variable {program : Ast Addr k} {space : Space} {inPrimitive : Bool} {l : List (Symbol × Addr)}

theorem Around.cons (h : Around program space inPrimitive l) {p : Symbol × Addr}
    (hp : Declared program p) (hin : inPrimitive = true → ¬ Renamed program p.2)
    (hout : inPrimitive = false → (Renamed program p.2 ↔
      (space = .function → program.hasBodyAt p.2 = true ∧ p.1 ≠ Symbol.main))) :
    Around program space inPrimitive (p :: l) where
  declared := List.forall_mem_cons.mpr ⟨hp, h.declared⟩
  inner hs := by
    refine List.pairwise_cons.mpr ⟨fun d hd hk => ?_, h.inner hs⟩
    cases hi : inPrimitive with
    | true => exact hin hi
    | false => exact absurd ((h.outside hi d hd).mpr fun h => absurd h hs) hk
  outside hi := List.forall_mem_cons.mpr ⟨hout hi, h.outside hi⟩

/-- Entering a primitive asks for less. -/
theorem Around.enter (h : Around program space false l) (b : Bool) :
    Around program space b l where
  declared := h.declared
  inner := h.inner
  outside _ := h.outside rfl

end

/-- What holds of the declarations around a place of the program. -/
structure Decls.Wf (program : Ast Addr k) (δ : Decls) : Prop where
  vars : Around program .variable δ.inPrimitive δ.vars
  funs : Around program .function δ.inPrimitive δ.funs
  types : Around program .type δ.inPrimitive δ.types

/-- What holds of a use of the program. -/
structure Use.Wf (program : Ast Addr k) (u : Use) : Prop where
  named : program.nameAt u.addr = u.name
  marked : (u.addr, if u.inPrimitive then Mark.kept else
    if u.space = .function then .call else .use) ∈ program.marks false
  around : Around program u.space u.inPrimitive u.around

/-- `t` lies in the program, where the declarations around it are `δ`. -/
structure Lies (program : Ast Addr .chunkList) (δ : Decls) (t : Ast Addr k) : Prop where
  nodup : program.nodes.Nodup
  subterms : t.subterms ⊆ program.subterms
  marks : t.marks δ.inPrimitive ⊆ program.marks false
  wf : δ.Wf program

section

variable {program : Ast Addr .chunkList} {δ : Decls}

theorem nameAt_eq (hn : program.nodes.Nodup) {t : Ast Addr k}
    (ht : ⟨k, t⟩ ∈ program.subterms) (hk : t.isNode = true) :
    program.nameAt t.addr = t.nameGet := by
  have h := Ast.deref_eq hn ht hk
  rw [Ast.nameAt, h]
  rfl

theorem hasBodyAt_eq (hn : program.nodes.Nodup) {d : Ast Addr .functionDec}
    (hd : ⟨_, d⟩ ∈ program.subterms) : program.hasBodyAt d.functionAddr = d.hasBody := by
  cases d with
  | functionDec a x fs r b =>
    have h := Ast.deref_eq hn hd rfl
    have ha : (Ast.functionDec a x fs r b).addr = a := rfl
    rw [ha] at h
    simp only [Ast.functionAddr, Ast.hasBodyAt, h]

/-- No node has two marks. -/
theorem mark_unique (hn : program.nodes.Nodup) {a : Addr} {m m' : Mark}
    (h : (a, m) ∈ program.marks false) (h' : (a, m') ∈ program.marks false) : m = m' := by
  have hnd := hn.sublist (program.marks_sublist false)
  have he := List.inj_on_of_nodup_map hnd h h' rfl
  exact (Prod.mk.inj he).2

theorem Lies.next {j : Kind} {t : Ast Addr k} (h : Lies program δ t) {u : Ast Addr j}
    {δ' : Decls} (hs : ⟨j, u⟩ ∈ t.subterms)
    (hm : ∀ m ∈ u.marks δ'.inPrimitive, m ∈ t.marks δ.inPrimitive) (hw : δ'.Wf program) :
    Lies program δ' u :=
  ⟨h.nodup, fun _ hc => h.subterms (Ast.subterms_subset hs hc), fun _ hc => h.marks (hm _ hc), hw⟩

theorem Lies.part {j : Kind} {t : Ast Addr k} (h : Lies program δ t) {u : Ast Addr j}
    (hs : ⟨j, u⟩ ∈ t.subterms) (hm : ∀ m ∈ u.marks δ.inPrimitive, m ∈ t.marks δ.inPrimitive) :
    Lies program δ u := h.next hs hm h.wf

theorem Lies.nameAt {t : Ast Addr k} (h : Lies program δ t) (hk : t.isNode = true) :
    program.nameAt t.addr = t.nameGet := nameAt_eq h.nodup (h.subterms (by simp)) hk

/-- A declaration of a variable, or of a type, is added to those around. -/
theorem Around.cons_dec {space : Space} {l : List (Symbol × Addr)} (hn : program.nodes.Nodup)
    (hs : space ≠ .function) (h : Around program space δ.inPrimitive l) {x : Symbol} {a : Addr}
    (hx : program.nameAt a = x)
    (hm : (a, if δ.inPrimitive then Mark.kept else .dec) ∈ program.marks false) :
    Around program space δ.inPrimitive ((x, a) :: l) := by
  refine h.cons ⟨hx, ?_⟩ ?_ ?_
  · cases hi : δ.inPrimitive with
    | true => exact .inr (by simpa [hi] using hm)
    | false => exact .inl (by simpa [hi] using hm)
  · intro hi hr
    rw [if_pos hi] at hm
    exact absurd (mark_unique hn hm hr) (by decide)
  · intro hi
    rw [hi] at hm
    exact ⟨fun _ h => absurd h hs, fun _ => by simpa [Renamed] using hm⟩

/-- The functions of a chunk are added to those around. -/
theorem Around.cons_fun {l : List (Symbol × Addr)} (hn : program.nodes.Nodup)
    (h : Around program .function δ.inPrimitive l) {d : Ast Addr .functionDec}
    (hd : ⟨_, d⟩ ∈ program.subterms) (hm : d.marks δ.inPrimitive ⊆ program.marks false) :
    Around program .function δ.inPrimitive ((d.functionName, d.functionAddr) :: l) := by
  have hb := hasBodyAt_eq hn hd
  cases d with
  | functionDec a x fs r b =>
    have hx : program.nameAt a = x := nameAt_eq hn hd rfl
    have ha : (a, if δ.inPrimitive || !b.isSome || x == Symbol.main then Mark.kept else .dec) ∈
        program.marks false := hm (List.mem_cons_self ..)
    have hb' : program.hasBodyAt a = b.isSome := hb
    refine h.cons ⟨hx, ?_⟩ ?_ ?_
    · split at ha
      · exact .inr ha
      · exact .inl ha
    · intro hi hr
      rw [hi, Bool.true_or, Bool.true_or, if_pos rfl] at ha
      exact absurd (mark_unique hn ha hr) (by decide)
    · intro hi
      show Renamed program a ↔ (_ → program.hasBodyAt a = true ∧ x ≠ Symbol.main)
      rw [hi, Bool.false_or] at ha
      rw [hb']
      split at ha
      · rename_i hk
        have hr : ¬ Renamed program a := fun hr => absurd (mark_unique hn ha hr) (by decide)
        simp only [Bool.or_eq_true, Bool.not_eq_true', beq_iff_eq] at hk
        refine ⟨fun h => absurd h hr, fun h => ?_⟩
        rcases hk with hk | hk
        · simp [hk] at h
        · exact absurd hk (h rfl).2
      · rename_i hk
        simp only [Bool.or_eq_true, Bool.not_eq_true', beq_iff_eq, not_or, Bool.not_eq_false]
          at hk
        exact ⟨fun _ _ => hk, fun _ => ha⟩

theorem Around.append_funs (hn : program.nodes.Nodup) {ds : List (Ast Addr .functionDec)}
    (hd : ∀ d ∈ ds, ⟨_, d⟩ ∈ program.subterms ∧ d.marks δ.inPrimitive ⊆ program.marks false)
    {l : List (Symbol × Addr)} (h : Around program .function δ.inPrimitive l) :
    Around program .function δ.inPrimitive
      ((ds.map fun d => (d.functionName, d.functionAddr)).reverse ++ l) := by
  induction ds generalizing l with
  | nil => exact h
  | cons d ds ih =>
    have hd' := List.forall_mem_cons.mp hd
    have hc := h.cons_fun hn hd'.1.1 hd'.1.2
    simpa using ih hd'.2 hc

theorem Around.append_types (hn : program.nodes.Nodup) {ds : List (Ast Addr .typeDec)}
    (hd : ∀ d ∈ ds, ⟨_, d⟩ ∈ program.subterms ∧ d.marks δ.inPrimitive ⊆ program.marks false)
    {l : List (Symbol × Addr)} (h : Around program .type δ.inPrimitive l) :
    Around program .type δ.inPrimitive
      ((ds.map fun d => (d.typeName, d.typeAddr)).reverse ++ l) := by
  induction ds generalizing l with
  | nil => exact h
  | cons d ds ih =>
    have hd' := List.forall_mem_cons.mp hd
    have hc : Around program .type δ.inPrimitive ((d.typeName, d.typeAddr) :: l) := by
      cases d with
      | typeDec a x t =>
        exact h.cons_dec hn (by decide) (nameAt_eq hn hd'.1.1 rfl) (hd'.1.2 (List.mem_cons_self ..))
    simpa using ih hd'.2 hc

theorem marks_subset_of_mem {skip : Bool} {x : Ast Addr k} : {xs : Ast Addr (.list k)} →
    x ∈ xs.toList → x.marks skip ⊆ xs.marks skip
  | .nil, h => by simp at h
  | .cons y ys, h => by
    rw [Ast.toList_cons, List.mem_cons] at h
    rcases h with rfl | h
    · exact List.subset_append_left _ _
    · exact List.subset_append_of_subset_right _ (marks_subset_of_mem h)

/-- Below a node the marks are those of its own visit, in a primitive or not. -/
theorem Ast.marks_subterm {t : Ast Addr k} {c : Σ k, Ast Addr k} (hc : c ∈ t.subterms)
    (skip : Bool) : ∃ skip', c.2.marks skip' ⊆ t.marks skip := by
  induction t generalizing skip with
  | nil | none | simpleVar | nilExp | intExp | stringExp | breakExp | nameTy =>
    obtain rfl := List.mem_singleton.mp hc
    exact ⟨skip, List.Subset.refl _⟩
  | functionDec a x fs r b ih₁ ih₂ ih₃ =>
    simp only [Ast.subterms, List.mem_cons, List.mem_append] at hc
    rcases hc with rfl | (hc | hc) | hc
    · exact ⟨skip, List.Subset.refl _⟩
    · obtain ⟨s, hs⟩ := ih₁ hc (skip || !b.isSome)
      exact ⟨s, fun m hm => by simp [Ast.marks, hs hm]⟩
    · obtain ⟨s, hs⟩ := ih₂ hc (skip || !b.isSome)
      exact ⟨s, fun m hm => by simp [Ast.marks, hs hm]⟩
    · obtain ⟨s, hs⟩ := ih₃ hc skip
      exact ⟨s, fun m hm => by simp [Ast.marks, hs hm]⟩
  | some x ih | ofVar x ih | ofNameTy x ih | ofVarChunk x ih | fieldVar _ x _ ih | seqExp _ x ih
  | recordTy _ x ih | arrayTy _ x ih | field _ _ x ih | fieldInit _ _ x ih | varChunk _ x ih
  | chunkList _ x ih | typeDec _ _ x ih | functionChunk _ x ih | typeChunk _ x ih
  | callExp _ _ x ih =>
    rcases List.mem_cons.mp hc with rfl | hc
    · exact ⟨skip, List.Subset.refl _⟩
    · obtain ⟨s, hs⟩ := ih hc skip
      exact ⟨s, fun m hm => by simp [Ast.marks, hs hm]⟩
  | cons x y ih₁ ih₂ | subscriptVar _ x y ih₁ ih₂ | opExp _ x _ y ih₁ ih₂
  | recordExp _ x y ih₁ ih₂ | assignExp _ x y ih₁ ih₂ | whileExp _ x y ih₁ ih₂
  | letExp _ x y ih₁ ih₂ | castExp _ x y ih₁ ih₂ | varDec _ _ x y ih₁ ih₂ =>
    simp only [Ast.subterms, List.mem_cons, List.mem_append] at hc
    rcases hc with rfl | hc | hc
    · exact ⟨skip, List.Subset.refl _⟩
    · obtain ⟨s, hs⟩ := ih₁ hc skip
      exact ⟨s, fun m hm => by simp [Ast.marks, hs hm]⟩
    · obtain ⟨s, hs⟩ := ih₂ hc skip
      exact ⟨s, fun m hm => by simp [Ast.marks, hs hm]⟩
  | ifExp _ x y z ih₁ ih₂ ih₃ | forExp _ x y z ih₁ ih₂ ih₃ | arrayExp _ x y z ih₁ ih₂ ih₃ =>
    simp only [Ast.subterms, List.mem_cons, List.mem_append] at hc
    rcases hc with rfl | (hc | hc) | hc
    · exact ⟨skip, List.Subset.refl _⟩
    · obtain ⟨s, hs⟩ := ih₁ hc skip
      exact ⟨s, fun m hm => by simp [Ast.marks, hs hm]⟩
    · obtain ⟨s, hs⟩ := ih₂ hc skip
      exact ⟨s, fun m hm => by simp [Ast.marks, hs hm]⟩
    · obtain ⟨s, hs⟩ := ih₃ hc skip
      exact ⟨s, fun m hm => by simp [Ast.marks, hs hm]⟩

/-- What a chunk of the program declares is declared under its name. -/
theorem declared_of_mem (hn : program.nodes.Nodup) {c : Σ k, Ast Addr k}
    (hc : c ∈ program.subterms) {p : Symbol × Addr} (hp : p ∈ c.2.declarations) :
    Declared program p := by
  obtain ⟨skip, hm⟩ := Ast.marks_subterm hc false
  have hmark : ∀ (b : Bool) (a : Addr), (a, if b then Mark.kept else .dec) ∈ program.marks false →
      (a, Mark.dec) ∈ program.marks false ∨ (a, Mark.kept) ∈ program.marks false := by
    intro b a h
    cases b with
    | true => exact .inr h
    | false => exact .inl h
  obtain ⟨j, c⟩ := c
  have hpart : ∀ {l : Kind} {xs : Ast Addr (.list l)}, ⟨_, xs⟩ ∈ c.subterms →
      xs.marks skip ⊆ c.marks skip → ∀ d ∈ xs.toList,
        ⟨l, d⟩ ∈ program.subterms ∧ d.marks skip ⊆ program.marks false :=
    fun hs hx d hd => ⟨Ast.subterms_subset hc (Ast.subterms_subset hs (Ast.mem_subterms_of_mem hd)),
      List.Subset.trans (List.Subset.trans (marks_subset_of_mem hd) hx) hm⟩
  cases c with
  | varChunk a ds =>
    obtain ⟨d, hd, rfl⟩ := List.mem_map.mp hp
    obtain ⟨hs, hdm⟩ := hpart (Ast.mem_first rfl) (List.Subset.refl _) d hd
    cases d with
    | varDec b x t i => exact ⟨nameAt_eq hn hs rfl, hmark _ _ (hdm (List.mem_cons_self ..))⟩
  | functionChunk a ds =>
    obtain ⟨d, hd, rfl⟩ := List.mem_map.mp hp
    obtain ⟨hs, hdm⟩ := hpart (Ast.mem_first rfl) (List.Subset.refl _) d hd
    cases d with
    | functionDec b x fs r t =>
      exact ⟨nameAt_eq hn hs rfl, hmark _ _ (hdm (List.mem_cons_self ..))⟩
  | typeChunk a ds =>
    obtain ⟨d, hd, rfl⟩ := List.mem_map.mp hp
    obtain ⟨hs, hdm⟩ := hpart (Ast.mem_first rfl) (List.Subset.refl _) d hd
    cases d with
    | typeDec b x t => exact ⟨nameAt_eq hn hs rfl, hmark _ _ (hdm (List.mem_cons_self ..))⟩
  | _ => cases hp

@[simp] theorem Decls.after_inPrimitive (δ : Decls) (t : Ast Addr k) :
    (δ.after t).inPrimitive = δ.inPrimitive := by
  induction t generalizing δ <;> simp_all [after, putVar, putFuns, putTypes]

/-- The elements of a collection that lies in the program lie in it. -/
theorem Lies.elements {t : Ast Addr k} (h : Lies program δ t) {j : Kind}
    {xs : Ast Addr (.list j)} (hs : ⟨_, xs⟩ ∈ t.subterms)
    (hm : ∀ m ∈ xs.marks δ.inPrimitive, m ∈ t.marks δ.inPrimitive) :
    ∀ d ∈ xs.toList, ⟨j, d⟩ ∈ program.subterms ∧ d.marks δ.inPrimitive ⊆ program.marks false :=
  fun _ hd => ⟨h.subterms (Ast.subterms_subset hs (Ast.mem_subterms_of_mem hd)),
    fun _ hc => h.marks (hm _ (marks_subset_of_mem hd hc))⟩

theorem Lies.putFuns {a : Addr} {ds : Ast Addr (.list .functionDec)}
    (h : Lies program δ (.functionChunk a ds)) : (δ.putFuns ds.toList).Wf program where
  vars := h.wf.vars
  funs := h.wf.funs.append_funs h.nodup
    (h.elements (Ast.mem_first rfl) (by simp +contextual [Ast.marks]))
  types := h.wf.types

theorem Lies.putTypes {a : Addr} {ds : Ast Addr (.list .typeDec)}
    (h : Lies program δ (.typeChunk a ds)) : (δ.putTypes ds.toList).Wf program where
  vars := h.wf.vars
  funs := h.wf.funs
  types :=
    h.wf.types.append_types h.nodup
      (h.elements (Ast.mem_first rfl) (by simp +contextual [Ast.marks]))

theorem Lies.after {t : Ast Addr k} (h : Lies program δ t) : (δ.after t).Wf program := by
  induction t generalizing δ with
  | cons x xs ihx ihxs =>
    have hx := ihx (h.part (Ast.mem_first rfl) (by simp +contextual [Ast.marks]))
    exact ihxs (h.next (Ast.mem_second rfl) (by simp +contextual [Ast.marks]) hx)
  | some x ih | varChunk _ x ih | ofVarChunk x ih | chunkList _ x ih =>
    exact ih (h.part (Ast.mem_first rfl) (by simp +contextual [Ast.marks]))
  | varDec a x n i =>
    have hx : program.nameAt a = x := h.nameAt rfl
    have hm := h.marks (List.mem_cons_self ..)
    exact ⟨h.wf.vars.cons_dec h.nodup (by decide) hx hm, h.wf.funs, h.wf.types⟩
  | functionChunk a ds => exact h.putFuns
  | typeChunk a ds => exact h.putTypes
  | _ => exact h.wf

theorem Lies.uses {t : Ast Addr k} (h : Lies program δ t) : ∀ u ∈ δ.uses t, u.Wf program := by
  induction t generalizing δ with
  | simpleVar a x =>
    have hx : program.nameAt a = x := h.nameAt rfl
    intro u hu
    obtain rfl := List.mem_singleton.mp hu
    exact ⟨hx, h.marks (List.mem_singleton.mpr rfl), h.wf.vars⟩
  | nameTy a x =>
    have hx : program.nameAt a = x := h.nameAt rfl
    intro u hu
    obtain rfl := List.mem_singleton.mp hu
    exact ⟨hx, h.marks (List.mem_singleton.mpr rfl), h.wf.types⟩
  | callExp a x args ih =>
    have hx : program.nameAt a = x := h.nameAt rfl
    have hargs := ih (h.part (Ast.mem_first rfl) (by simp +contextual [Ast.marks]))
    refine List.forall_mem_cons.mpr ⟨⟨hx, h.marks (List.mem_cons_self ..), h.wf.funs⟩, hargs⟩
  | cons x xs ihx ihxs =>
    have hx := h.part (u := x) (Ast.mem_first rfl) (by simp +contextual [Ast.marks])
    have hxs := h.next (u := xs) (Ast.mem_second rfl) (by simp +contextual [Ast.marks]) hx.after
    exact List.forall_mem_append.mpr ⟨ihx hx, ihxs hxs⟩
  | forExp a d hi body ih₁ ih₂ ih₃ =>
    have h₁ := h.part (u := d) (Ast.mem_first rfl) (by simp +contextual [Ast.marks])
    have h₂ := h.part (u := hi) (Ast.mem_second rfl) (by simp +contextual [Ast.marks])
    have h₃ := h.next (u := body) (Ast.mem_third rfl) (by simp +contextual [Ast.marks])
      h₁.after
    simp only [Decls.uses, List.forall_mem_append]
    exact ⟨⟨ih₁ h₁, ih₂ h₂⟩, ih₃ h₃⟩
  | letExp a cs body ih₁ ih₂ =>
    have h₁ := h.part (u := cs) (Ast.mem_first rfl) (by simp +contextual [Ast.marks])
    have h₂ := h.next (u := body) (Ast.mem_second rfl) (by simp +contextual [Ast.marks])
      h₁.after
    exact List.forall_mem_append.mpr ⟨ih₁ h₁, ih₂ h₂⟩
  | functionDec a x fs res body ih₁ ih₂ ih₃ =>
    have hw : (δ.signature body).Wf program := by
      have hi : (δ.signature body).inPrimitive = (δ.inPrimitive || !body.isSome) := rfl
      cases hp : δ.inPrimitive with
      | true =>
        have hs : δ.signature body = δ := by
          rw [Decls.signature, hp, Bool.true_or, ← hp]
        rw [hs]
        exact h.wf
      | false =>
        have hv := h.wf.vars
        have hf := h.wf.funs
        have ht := h.wf.types
        rw [hp] at hv hf ht
        exact ⟨hv.enter _, hf.enter _, ht.enter _⟩
    have h₁ := h.next (u := fs) (Ast.mem_first rfl)
      (by simp +contextual [Ast.marks, Decls.signature]) hw
    have h₂ := h.next (u := res) (Ast.mem_second rfl)
      (by simp +contextual [Ast.marks, Decls.signature]) hw
    have h₃ : ∀ u ∈ (δ.after fs).uses body, u.Wf program := by
      cases body with
      | none =>
        intro u hu
        simp [Decls.uses] at hu
      | some body =>
        -- With a body, what follows the formals is not in a primitive because of them.
        have hs : δ.signature (.some body) = δ := by simp [Decls.signature]
        rw [hs] at h₁
        exact ih₃ (h.next (Ast.mem_third rfl) (by simp +contextual [Ast.marks]) h₁.after)
    simp only [Decls.uses, List.forall_mem_append]
    exact ⟨⟨ih₁ h₁, ih₂ h₂⟩, h₃⟩
  | functionChunk a ds ih =>
    exact ih (h.next (Ast.mem_first rfl) (fun _ hm => hm) h.putFuns)
  | typeChunk a ds ih =>
    exact ih (h.next (Ast.mem_first rfl) (fun _ hm => hm) h.putTypes)
  | nil | none | nilExp | intExp | stringExp | breakExp =>
    intro u hu
    simp [Decls.uses] at hu
  | some x ih | ofVar x ih | ofNameTy x ih | ofVarChunk x ih | fieldVar _ x _ ih | seqExp _ x ih
  | recordTy _ x ih | arrayTy _ x ih | field _ _ x ih | fieldInit _ _ x ih | varChunk _ x ih
  | chunkList _ x ih | typeDec _ _ x ih =>
    exact ih (h.part (Ast.mem_first rfl) (by simp +contextual [Ast.marks]))
  | subscriptVar _ x y ih₁ ih₂ | opExp _ x _ y ih₁ ih₂ | recordExp _ x y ih₁ ih₂
  | assignExp _ x y ih₁ ih₂ | whileExp _ x y ih₁ ih₂ | castExp _ x y ih₁ ih₂
  | varDec _ _ x y ih₁ ih₂ =>
    have h₁ := h.part (u := x) (Ast.mem_first rfl) (by simp +contextual [Ast.marks])
    have h₂ := h.part (u := y) (Ast.mem_second rfl) (by simp +contextual [Ast.marks])
    exact List.forall_mem_append.mpr ⟨ih₁ h₁, ih₂ h₂⟩
  | ifExp _ x y z ih₁ ih₂ ih₃ | arrayExp _ x y z ih₁ ih₂ ih₃ =>
    have h₁ := h.part (u := x) (Ast.mem_first rfl) (by simp +contextual [Ast.marks])
    have h₂ := h.part (u := y) (Ast.mem_second rfl) (by simp +contextual [Ast.marks])
    have h₃ := h.part (u := z) (Ast.mem_third rfl) (by simp +contextual [Ast.marks])
    simp only [Decls.uses, List.forall_mem_append]
    exact ⟨⟨ih₁ h₁, ih₂ h₂⟩, ih₃ h₃⟩

theorem lies_program (hn : program.nodes.Nodup) : Lies program {} program where
  nodup := hn
  subterms := List.Subset.refl _
  marks := List.Subset.refl _
  wf := ⟨⟨nofun, fun _ => .nil, fun _ => nofun⟩, ⟨nofun, fun _ => .nil, fun _ => nofun⟩,
    ⟨nofun, fun _ => .nil, fun _ => nofun⟩⟩

/-- A node that takes the name of its declaration is a use. -/
theorem exists_use {t : Ast Addr k} {m : Addr × Mark} (hm : m ∈ t.marks δ.inPrimitive)
    (hu : m.2 = .use ∨ m.2 = .call) : ∃ u ∈ δ.uses t, u.addr = m.1 := by
  induction t generalizing δ with
  | simpleVar a x | nameTy a x =>
    obtain rfl := List.mem_singleton.mp hm
    simp [Decls.uses]
  | callExp a x args ih =>
    rcases List.mem_cons.mp hm with rfl | hm
    · exact ⟨_, List.mem_cons_self .., rfl⟩
    · obtain ⟨u, hu, ha⟩ := ih hm
      exact ⟨u, List.mem_cons_of_mem _ hu, ha⟩
  | varDec a x n i ih₁ ih₂ =>
    have hne : m ≠ (a, if δ.inPrimitive then .kept else .dec) := by
      rintro rfl
      revert hu
      cases δ.inPrimitive <;> simp
    have hm' := List.mem_append.mp ((List.mem_cons.mp hm).resolve_left hne)
    simp only [Decls.uses, List.mem_append]
    grind
  | typeDec a x t ih =>
    have hne : m ≠ (a, if δ.inPrimitive then .kept else .dec) := by
      rintro rfl
      revert hu
      cases δ.inPrimitive <;> simp
    exact ih ((List.mem_cons.mp hm).resolve_left hne)
  | functionDec a x fs res body ih₁ ih₂ ih₃ =>
    have hne : m ≠ (a, if δ.inPrimitive || !body.isSome || x == Symbol.main then .kept
        else .dec) := by
      rintro rfl
      revert hu
      cases (δ.inPrimitive || !body.isSome || x == Symbol.main) <;> simp
    have hm' := (List.mem_cons.mp hm).resolve_left hne
    simp only [List.mem_append, or_assoc] at hm'
    simp only [Decls.uses, List.mem_append]
    rcases hm' with h | h | h
    · obtain ⟨u, hu, ha⟩ := ih₁ (δ := δ.signature body) h
      exact ⟨u, .inl (.inl hu), ha⟩
    · obtain ⟨u, hu, ha⟩ := ih₂ (δ := δ.signature body) h
      exact ⟨u, .inl (.inr hu), ha⟩
    · obtain ⟨u, hu, ha⟩ := ih₃ (δ := δ.after fs) (by simpa using h)
      exact ⟨u, .inr hu, ha⟩
  | cons x xs ih₁ ih₂ =>
    rcases List.mem_append.mp hm with h | h
    · obtain ⟨u, hu, ha⟩ := ih₁ h
      exact ⟨u, List.mem_append_left _ hu, ha⟩
    · obtain ⟨u, hu, ha⟩ := ih₂ (δ := δ.after x) (by simpa using h)
      exact ⟨u, List.mem_append_right _ hu, ha⟩
  | forExp a d hi body ih₁ ih₂ ih₃ =>
    have hi₃ := ih₃ (δ := δ.after d)
    simp only [Ast.marks, List.mem_append, Decls.after_inPrimitive] at hm hi₃
    simp only [Decls.uses, List.mem_append]
    grind
  | letExp a cs body ih₁ ih₂ =>
    have hi₂ := ih₂ (δ := δ.after cs)
    simp only [Ast.marks, List.mem_append, Decls.after_inPrimitive] at hm hi₂
    simp only [Decls.uses, List.mem_append]
    grind
  | functionChunk a ds ih => exact ih (δ := δ.putFuns ds.toList) hm
  | typeChunk a ds ih => exact ih (δ := δ.putTypes ds.toList) hm
  | nil | none | nilExp | intExp | stringExp | breakExp => simp [Ast.marks] at hm
  | _ =>
    simp only [Ast.marks, List.mem_append] at hm
    simp only [Decls.uses, List.mem_append]
    grind

end

/-! ## The names after the pass -/

section

variable {program : Ast Addr .chunkList} {defs : Addr → Option Addr} {counter : UInt32}

/-- The name of a declaration after the pass: a renamed one takes its own name with the number of
those that are met before it. -/
def newName (defs : Addr → Option Addr) (counter : UInt32) (program : Ast Addr .chunkList)
    (d : Addr) : Symbol :=
  if Renamed program d then
    Renamer.uniqueName program.nameAt counter
      (Renamer.calls defs program.hasBodyAt (program.marks false)) d
  else program.nameAt d

/-- Every use of the program is bound as lexical scoping says. -/
def BoundUses (defs : Addr → Option Addr) (program : Ast Addr .chunkList) : Prop :=
  ∀ u ∈ ({} : Decls).uses program, u.Bound defs

theorem mem_around_of_decl {u : Use} {d : Addr} (h : u.decl = some d) :
    (u.name, d) ∈ u.around := by
  obtain ⟨l₁, l₂, hl, _⟩ := List.lookup_eq_some_iff.mp h
  rw [hl]
  simp

/-- A declaration is only ever renamed by its own visit. -/
theorem calls_unique (hn : program.nodes.Nodup) (hb : BoundUses defs program) (a d : Addr)
    (ha : (a, some d) ∈ Renamer.calls defs program.hasBodyAt (program.marks false)) (d' : Addr)
    (hd : (d, some d') ∈ Renamer.calls defs program.hasBodyAt (program.marks false)) :
    d' = d := by
  simp only [Renamer.calls, List.mem_map, Prod.mk.injEq] at ha hd
  obtain ⟨⟨b, m⟩, hm, hba, ht⟩ := ha
  obtain ⟨⟨b', m'⟩, hm', hba', ht'⟩ := hd
  dsimp only at hba hba'
  rw [hba] at hm ht
  rw [hba'] at hm' ht'
  have hdecl : (d, Mark.dec) ∈ program.marks false ∨ (d, Mark.kept) ∈ program.marks false := by
    have huse (hu : m = .use ∨ m = .call) (hd : defs a = some d) :
        (d, Mark.dec) ∈ program.marks false ∨ (d, Mark.kept) ∈ program.marks false := by
      obtain ⟨u, hu, hua⟩ := exists_use (δ := {}) hm hu
      have hud : u.decl = some d := by
        rw [← (hb u hu).1, hua, hd]
      have hw := (lies_program hn).uses u hu
      exact (hw.around.declared _ (mem_around_of_decl hud)).2
    cases m with
    | use => exact huse (.inl rfl) ht
    | call => exact huse (.inr rfl) (Option.eq_some_of_filter_eq_some ht)
    | dec =>
      obtain rfl : a = d := Option.some.inj ht
      exact .inl hm
    | kept => cases ht
  rcases hdecl with h | h
  · obtain rfl := mark_unique hn h hm'
    exact (Option.some.inj ht').symm
  · obtain rfl := mark_unique hn h hm'
    cases ht'

variable (counter) in
theorem ran_rename (hn : program.nodes.Nodup) (hb : BoundUses defs program) :
    Renamer.Ran program.nameAt counter
      (Renamer.calls defs program.hasBodyAt (program.marks false))
      (rename defs counter program) := by
  have hnamed : Renamer.Named { names := program.nameAt, counter } program := by
    intro d hd
    cases d
    exact nameAt_eq hn hd rfl
  rw [rename, Renamer.accept_eq_run program hn hnamed]
  refine Renamer.ran_run ?_ (calls_unique hn hb)
  have hs := hn.sublist (program.marks_sublist false)
  simpa [Renamer.calls, Function.comp_def] using hs

theorem names_eq_newName (hn : program.nodes.Nodup) (hb : BoundUses defs program)
    {p : Symbol × Addr} (hp : Declared program p) :
    (rename defs counter program).names p.2 = newName defs counter program p.2 := by
  have hr := ran_rename counter hn hb
  obtain ⟨x, d⟩ := p
  rw [newName]
  by_cases hren : Renamed program d
  · rw [if_pos hren]
    exact hr.set d d (List.mem_map.mpr ⟨(d, .dec), hren, rfl⟩)
  · rw [if_neg hren]
    have hk : (d, Mark.kept) ∈ program.marks false := hp.2.resolve_left hren
    refine hr.unset d fun d' hd' => ?_
    obtain ⟨⟨b, m⟩, hm, he⟩ := List.mem_map.mp hd'
    obtain rfl : b = d := (Prod.mk.inj he).1
    obtain rfl := mark_unique hn hk hm
    cases (Prod.mk.inj he).2

/-- The name of a use after the pass. -/
theorem names_use (hn : program.nodes.Nodup) (hb : BoundUses defs program) {u : Use}
    (hu : u ∈ ({} : Decls).uses program) :
    (rename defs counter program).names u.addr =
      match u.decl with
      | some d =>
        if u.inPrimitive = false ∧ (u.space = .function → program.hasBodyAt d = true) then
          Renamer.uniqueName program.nameAt counter
            (Renamer.calls defs program.hasBodyAt (program.marks false)) d
        else u.name
      | none => u.name := by
  have hr := ran_rename counter hn hb
  have hw := (lies_program hn).uses u hu
  have hd := (hb u hu).1
  -- A use whose mark stands for no call keeps its name.
  have hkeep : ∀ m, (u.addr, m) ∈ program.marks false →
      Renamer.target defs program.hasBodyAt (u.addr, m) = none →
      (rename defs counter program).names u.addr = u.name := by
    intro m hm ht
    rw [hr.unset u.addr, hw.named]
    intro d' hd'
    obtain ⟨⟨b, m'⟩, hm', he⟩ := List.mem_map.mp hd'
    obtain rfl : b = u.addr := (Prod.mk.inj he).1
    obtain rfl := mark_unique hn hm hm'
    rw [(Prod.mk.inj he).2] at ht
    cases ht
  have hset : ∀ m d, (u.addr, m) ∈ program.marks false →
      Renamer.target defs program.hasBodyAt (u.addr, m) = some d →
      (rename defs counter program).names u.addr = Renamer.uniqueName program.nameAt counter
        (Renamer.calls defs program.hasBodyAt (program.marks false)) d := fun m d hm ht =>
    hr.set _ d (List.mem_map.mpr ⟨_, hm, by rw [ht]⟩)
  have hmark := hw.marked
  cases hp : u.inPrimitive with
  | true =>
    rw [hp, if_pos rfl] at hmark
    rw [hkeep _ hmark rfl]
    cases u.decl <;> simp
  | false =>
    rw [hp] at hmark
    by_cases hs : u.space = .function
    · simp only [hs, Bool.false_eq_true, if_false, if_true] at hmark
      cases hdecl : u.decl with
      | none =>
        rw [hdecl] at hd
        exact hkeep _ hmark (by simp [Renamer.target, hd])
      | some d =>
        rw [hdecl] at hd
        cases hbody : program.hasBodyAt d with
        | true =>
          rw [hset _ d hmark (by simp [Renamer.target, hd, Option.filter, hbody])]
          simp [hbody]
        | false =>
          rw [hkeep _ hmark (by simp [Renamer.target, hd, Option.filter, hbody])]
          simp [hbody, hs]
    · simp only [hs, Bool.false_eq_true, if_false] at hmark
      cases hdecl : u.decl with
      | none =>
        rw [hdecl] at hd
        exact hkeep _ hmark (by simp [Renamer.target, hd])
      | some d =>
        rw [hdecl] at hd
        rw [hset _ d hmark (by simp [Renamer.target, hd])]
        simp [hs]

/-! ## Safe uses -/

/-- The declarations that lie between a use and the one it refers to. -/
def Use.between (u : Use) : List (Symbol × Addr) := u.around.takeWhile (·.1 != u.name)

/-- What a use needs to keep its declaration. -/
structure Use.Safe (defs : Addr → Option Addr) (counter : UInt32)
    (program : Ast Addr .chunkList) (u : Use) : Prop where
  /-- The formals and the result of a primitive are not visited. -/
  outside : u.inPrimitive = true → ∀ d, u.decl = some d → ¬ Renamed program d
  /-- `_main` keeps its name, the calls to it do not. -/
  notMain : u.space = .function → u.inPrimitive = false → u.name = Symbol.main →
    ∀ d, u.decl = some d → program.hasBodyAt d = false
  /-- No function between the call and the one it refers to gets the name of the latter. -/
  notCaptured : u.space = .function → ∀ d, u.decl = some d → ∀ p ∈ u.between,
    (Renamed program p.2 ↔ ¬ Renamed program d) →
      newName defs counter program p.2 ≠ newName defs counter program d

/-- Looking up a name after a renaming, which gives `y` to the declaration found before. -/
theorem lookup_map_names (names : Addr → Symbol) {l₁ l₂ : List (Symbol × Addr)} {x y : Symbol}
    {d : Addr} (hd : ∀ p ∈ l₁, p.2 ≠ d) :
    ((l₁ ++ (x, d) :: l₂).map fun p => (names p.2, p.2)).lookup y = some d ↔
      names d = y ∧ ∀ p ∈ l₁, names p.2 ≠ y := by
  induction l₁ with
  | nil =>
    simp only [List.nil_append, List.map_cons, List.lookup_cons]
    by_cases hy : y = names d
    · simp [hy]
    · have hne : (y == names d) = false := beq_false_of_ne hy
      simp only [hne, List.not_mem_nil, false_imp_iff, implies_true, and_true]
      constructor
      · intro h
        obtain ⟨m₁, m₂, hm, -⟩ := List.lookup_eq_some_iff.mp h
        have hmem : (y, d) ∈ l₂.map fun p => (names p.2, p.2) := by simp [hm]
        obtain ⟨p, _, hp⟩ := List.mem_map.mp hmem
        obtain ⟨h₁, h₂⟩ := Prod.mk.inj hp
        rw [← h₁, h₂]
      · exact fun h => absurd h.symm hy
  | cons p l₁ ih =>
    have hd' := List.forall_mem_cons.mp hd
    simp only [List.cons_append, List.map_cons, List.lookup_cons, List.forall_mem_cons]
    by_cases hy : y = names p.2
    · simp [hy, hd'.1]
    · have hne : (y == names p.2) = false := beq_false_of_ne hy
      rw [hne, ih hd'.2]
      simp [Ne.symm hy]

theorem lookup_split {l : List (Symbol × Addr)} {x : Symbol} {d : Addr}
    (h : l.lookup x = some d) : ∃ l₂, l = l.takeWhile (·.1 != x) ++ (x, d) :: l₂ ∧
      ∀ p ∈ l.takeWhile (·.1 != x), p.1 ≠ x := by
  obtain ⟨l₁, l₂, rfl, hne⟩ := List.lookup_eq_some_iff.mp h
  have hp : ∀ p ∈ l₁, (p.1 != x) = true := by
    intro p hp
    have hx := hne p hp
    rw [bne_iff_ne]
    rintro rfl
    simp at hx
  have ht : (l₁ ++ (x, d) :: l₂).takeWhile (·.1 != x) = l₁ := by
    rw [List.takeWhile_append_of_pos hp]
    simp
  rw [ht]
  exact ⟨l₂, rfl, fun p h => by simpa using hp p h⟩

/-- The innermost of two declarations of one name space that have different names still has a
name of its own, if both are renamed or none is. -/
theorem newName_ne {p q : Symbol × Addr} (hp : Declared program p) (hq : Declared program q)
    (hne : p.1 ≠ q.1) (h : Renamed program p.2 ↔ Renamed program q.2) :
    newName defs counter program p.2 ≠ newName defs counter program q.2 := by
  intro he
  rw [newName, newName] at he
  by_cases hr : Renamed program q.2
  · rw [if_pos hr, if_pos (h.mpr hr)] at he
    have hi := Symbol.fresh_inj he
    rw [hp.1, hq.1] at hi
    exact hne hi
  · rw [if_neg hr, if_neg (h.not.mpr hr), hp.1, hq.1] at he
    exact hne he

variable (counter) in
/-- A use has the name of its declaration after the pass unless it is one of two kinds. -/
theorem names_use_eq_iff (hn : program.nodes.Nodup) (hb : BoundUses defs program) {u : Use}
    (hu : u ∈ ({} : Decls).uses program) {d : Addr} (hd : u.decl = some d) :
    newName defs counter program d = (rename defs counter program).names u.addr ↔
      (u.inPrimitive = true → ¬ Renamed program d) ∧
      (u.space = .function → u.inPrimitive = false → u.name = Symbol.main →
        program.hasBodyAt d = false) := by
  have hw := (lies_program hn).uses u hu
  have hdecl := hw.around.declared _ (mem_around_of_decl hd)
  have hself : ∀ n, (program.nameAt d).fresh n ≠ u.name := by
    intro n h
    rw [hdecl.1] at h
    exact Symbol.fresh_ne_self _ _ h
  have hout := fun h => hw.around.outside h _ (mem_around_of_decl hd)
  rw [names_use hn hb hu, hd, newName, hdecl.1]
  dsimp only
  by_cases hp : u.inPrimitive = true
  · by_cases hr : Renamed program d
    · simp [hp, hr, Renamer.uniqueName, hself]
    · simp [hp, hr]
  · have hp' : u.inPrimitive = false := by simpa using hp
    have hout := hout hp'
    by_cases hs : u.space = .function
    · by_cases hbody : program.hasBodyAt d = true
      · by_cases hm : u.name = Symbol.main
        · have hr : ¬ Renamed program d := fun h => (hout.mp h hs).2 hm
          refine iff_of_false ?_ fun h => ?_
          · rw [if_neg hr, if_pos ⟨hp', fun _ => hbody⟩]
            exact fun h => hself _ h.symm
          · rw [h.2 hs hp' hm] at hbody
            cases hbody
        · have hr : Renamed program d := hout.mpr fun _ => ⟨hbody, hm⟩
          simp [hp', hbody, hm, hr]
      · have hr : ¬ Renamed program d := fun h => hbody (hout.mp h hs).1
        simp [hp', hs, hbody, hr]
    · have hr : Renamed program d := hout.mpr fun h => absurd h hs
      simp [hp', hs, hr]

/-- One use keeps its declaration exactly when it is safe. -/
theorem bound_withNames_iff (hn : program.nodes.Nodup) (hb : BoundUses defs program) {u : Use}
    (hu : u ∈ ({} : Decls).uses program) :
    (u.withNames (rename defs counter program).names).Bound defs ↔
      u.Safe defs counter program := by
  have hw := (lies_program hn).uses u hu
  have hbu := hb u hu
  have hnames : ∀ p ∈ u.around, (rename defs counter program).names p.2 =
      newName defs counter program p.2 := fun p hp =>
    names_eq_newName hn hb (hw.around.declared p hp)
  cases hd : u.decl with
  | none =>
    -- Only `int` and `string` are bound to nothing, and no new name is one of these.
    have hno : ∀ d, u.decl ≠ some d := by simp [hd]
    have hs : u.Safe defs counter program :=
      ⟨fun _ d h => absurd h (hno d), fun _ _ _ d h => absurd h (hno d),
        fun _ d h => absurd h (hno d)⟩
    obtain ⟨htype, hbuiltin⟩ := hbu.2 hd
    have hnu : (rename defs counter program).names u.addr = u.name := by
      rw [names_use hn hb hu, hd]
    have hnone : (u.withNames (rename defs counter program).names).decl = none := by
      refine List.lookup_eq_none_iff.mpr fun p hp => ?_
      obtain ⟨q, hq, rfl⟩ := List.mem_map.mp hp
      have hqn : q.1 ≠ u.name := by
        have hl := List.lookup_eq_none_iff.mp hd q hq
        rintro h
        simp [h] at hl
      rw [bne_iff_ne]
      show (rename defs counter program).names u.addr ≠ (rename defs counter program).names q.2
      rw [hnu, hnames q hq, newName]
      split
      · intro he
        rw [he, Renamer.uniqueName, Symbol.fresh_not_isBuiltin] at hbuiltin
        cases hbuiltin
      · rw [(hw.around.declared q hq).1]
        exact hqn.symm
    refine iff_of_true ⟨?_, fun _ => ⟨htype, ?_⟩⟩ hs
    · rw [hnone, ← hd]
      exact hbu.1
    · show ((rename defs counter program).names u.addr).isBuiltin = true
      rw [hnu]
      exact hbuiltin
  | some d =>
    obtain ⟨l₂, hl, hbetween⟩ := lookup_split hd
    have hmem := mem_around_of_decl hd
    have hdecl := hw.around.declared _ hmem
    have hin : ∀ p ∈ u.between, p ∈ u.around := fun p hp => List.takeWhile_subset _ hp
    have haddr : ∀ p ∈ u.between, p.2 ≠ d := by
      intro p hp h
      refine hbetween p hp ?_
      rw [← (hw.around.declared p (hin p hp)).1, h, hdecl.1]
    have hlookup : (u.withNames (rename defs counter program).names).decl = some d ↔
        (rename defs counter program).names d = (rename defs counter program).names u.addr ∧
          ∀ p ∈ u.between, (rename defs counter program).names p.2 ≠
            (rename defs counter program).names u.addr := by
      have h := @lookup_map_names (rename defs counter program).names _ l₂ u.name
        ((rename defs counter program).names u.addr) d haddr
      rw [Use.between, ← hl] at h
      exact h
    have hbound : (u.withNames (rename defs counter program).names).Bound defs ↔
        (u.withNames (rename defs counter program).names).decl = some d := by
      constructor
      · intro h
        rw [← h.1]
        exact hbu.1.trans hd
      · intro h
        refine ⟨?_, fun hnone => ?_⟩
        · rw [h, ← hd]
          exact hbu.1
        · rw [h] at hnone
          cases hnone
    have huse := names_use_eq_iff counter hn hb hu hd
    have hd' : ∀ {d'}, u.decl = some d' → d' = d := fun h => Option.some.inj (h.symm.trans hd)
    rw [hbound, hlookup, hnames _ hmem]
    constructor
    · rintro ⟨heq, hne⟩
      obtain ⟨hprim, hmain⟩ := huse.mp heq
      refine ⟨fun hi d' h => hd' h ▸ hprim hi, fun hs hi hm d' h => hd' h ▸ hmain hs hi hm, ?_⟩
      intro _ d' h p hp _
      obtain rfl := hd' h
      rw [heq, ← hnames p (hin p hp)]
      exact hne p hp
    · intro hs
      have heq := huse.mpr ⟨fun hi => hs.outside hi d hd, fun hf hi hm => hs.notMain hf hi hm d hd⟩
      refine ⟨heq, fun p hp => ?_⟩
      rw [hnames p (hin p hp), ← heq]
      by_cases hsame : Renamed program p.2 ↔ Renamed program d
      · exact newName_ne (hw.around.declared p (hin p hp)) hdecl (hbetween p hp) hsame
      by_cases hf : u.space = .function
      · exact hs.notCaptured hf d hd p hp (by tauto)
      -- A variable or a type that keeps its name is hidden by none that does not.
      exfalso
      have hinner := hw.around.inner hf
      rw [hl, List.pairwise_append] at hinner
      have hkept := hinner.2.2 p hp (u.name, d) (List.mem_cons_self ..)
      cases hi : u.inPrimitive with
      | true =>
        have hr := hs.outside hi d hd
        exact hsame (iff_of_false (hkept hr) hr)
      | false =>
        have hout := fun q hq => (hw.around.outside hi q hq).mpr fun h => absurd h hf
        exact hsame (iff_of_true (hout p (hin p hp)) (hout _ hmem))

/-- Two declarations of one chunk, one of which is renamed, must not end with one name. -/
def ChunkSafe (defs : Addr → Option Addr) (counter : UInt32) (program : Ast Addr .chunkList)
    (c : Σ k, Ast Addr k) : Prop :=
  (c.2.declarations.map Prod.fst).Nodup → ∀ p ∈ c.2.declarations, ∀ q ∈ c.2.declarations,
    Renamed program p.2 → ¬ Renamed program q.2 → newName defs counter program p.2 ≠ q.1

instance (c : Σ k, Ast Addr k) : Decidable (ChunkSafe defs counter program c) :=
  inferInstanceAs (Decidable (_ → _))

variable (counter) in
/-- The names a chunk declares stay distinct exactly when it is safe. -/
theorem nodup_withNames_iff (hn : program.nodes.Nodup) (hb : BoundUses defs program)
    {c : Σ k, Ast Addr k} (hc : c ∈ program.subterms) :
    ((c.2.declarations.map Prod.fst).Nodup →
      ((c.2.withNames (rename defs counter program).names).declarations.map Prod.fst).Nodup) ↔
      ChunkSafe defs counter program c := by
  have hd : ∀ p ∈ c.2.declarations, Declared program p := fun p hp => declared_of_mem hn hc hp
  have hnames : ∀ p ∈ c.2.declarations, (rename defs counter program).names p.2 =
      newName defs counter program p.2 := fun p hp => names_eq_newName hn hb (hd p hp)
  have hkept : ∀ q ∈ c.2.declarations, ¬ Renamed program q.2 →
      newName defs counter program q.2 = q.1 := fun q hq hk => by
    rw [newName, if_neg hk, (hd q hq).1]
  refine imp_congr_right fun hnd => ?_
  rw [Ast.declarations_withNames, List.map_map]
  constructor
  · intro h p hp q hq hr hk he
    obtain rfl : p = q := List.inj_on_of_nodup_map h hp hq (by
      simp only [Function.comp_apply]
      rw [hnames p hp, hnames q hq, hkept q hq hk, he])
    exact hk hr
  · intro hs
    rw [List.Nodup, List.pairwise_map]
    refine (List.pairwise_map.mp hnd).imp_of_mem fun {p q} hp hq hne => ?_
    simp only [Function.comp_apply]
    rw [hnames p hp, hnames q hq]
    by_cases hpr : Renamed program p.2
    · by_cases hqr : Renamed program q.2
      · exact newName_ne (hd p hp) (hd q hq) hne (iff_of_true hpr hqr)
      · rw [hkept q hq hqr]
        exact hs p hp q hq hpr hqr
    · by_cases hqr : Renamed program q.2
      · rw [hkept p hp hpr]
        exact (hs q hq p hp hqr hpr).symm
      · exact newName_ne (hd p hp) (hd q hq) hne (iff_of_false hpr hqr)

end

/-! ## The renamed program -/

/-- The address and the name of a `SimpleVar`, a `CallExp` or a `NameTy`. -/
def Ast.use? {α : Type} : {k : Kind} → Ast α k → Option (α × Symbol)
  | _, .simpleVar a x => Option.some (a, x)
  | _, .callExp a x _ => Option.some (a, x)
  | _, .nameTy a x => Option.some (a, x)
  | _, _ => Option.none

/-- What the `Renamer` is meant for. -/
structure PreservesBindings (defs : Addr → Option Addr) (counter : UInt32)
    (program : Ast Addr .chunkList) : Prop where
  /-- Every use that has a declaration carries its name. -/
  carries : ∀ c ∈ (program.withNames (rename defs counter program).names).subterms,
    ∀ a x, c.2.use? = some (a, x) → ∀ d, defs a = some d →
      x = (rename defs counter program).names d
  /-- Resolved again by lexical scoping, every use has the declaration it had. -/
  resolves : ({} : Scope).Everywhere (LexicallyBound defs)
    (program.withNames (rename defs counter program).names)
  /-- No declaration collides with another one of its chunk. -/
  distinct : ∀ c ∈ program.subterms, (c.2.declarations.map Prod.fst).Nodup →
    ((c.2.withNames (rename defs counter program).names).declarations.map Prod.fst).Nodup

/-- The nodes that are uses are those `Decls.uses` lists. -/
theorem mem_uses_of_subterm {δ : Decls} {t : Ast Addr k} {c : Σ k, Ast Addr k}
    (hc : c ∈ t.subterms) {p : Addr × Symbol} (hu : c.2.use? = some p) :
    p ∈ (δ.uses t).map fun u => (u.addr, u.name) := by
  induction t generalizing δ with
  | simpleVar b y | nameTy b y =>
    obtain rfl := List.mem_singleton.mp hc
    obtain rfl := Option.some.inj hu
    exact List.mem_singleton.mpr rfl
  | callExp b y args ih =>
    rcases List.mem_cons.mp hc with rfl | hc
    · obtain rfl := Option.some.inj hu
      exact List.mem_cons_self ..
    · exact List.mem_cons_of_mem _ (ih hc)
  | nil | none | nilExp | intExp | stringExp | breakExp =>
    obtain rfl := List.mem_singleton.mp hc
    cases hu
  | some x ih | ofVar x ih | ofNameTy x ih | ofVarChunk x ih | fieldVar _ x _ ih | seqExp _ x ih
  | recordTy _ x ih | arrayTy _ x ih | field _ _ x ih | fieldInit _ _ x ih | varChunk _ x ih
  | chunkList _ x ih | typeDec _ _ x ih | functionChunk _ x ih | typeChunk _ x ih =>
    rcases List.mem_cons.mp hc with rfl | hc
    · cases hu
    · exact ih hc
  | _ =>
    rcases List.mem_cons.mp hc with rfl | hc
    · cases hu
    · simp only [List.mem_append] at hc
      simp only [Decls.uses, List.map_append, List.mem_append]
      grind

theorem everywhere_iff_boundUses {defs : Addr → Option Addr} {program : Ast Addr .chunkList} :
    ({} : Scope).Everywhere (LexicallyBound defs) program ↔ BoundUses defs program :=
  Decls.Agrees.everywhere_iff_bound ⟨fun _ => rfl, fun _ => rfl, fun _ => rfl⟩ program

/-- **Renaming keeps the bindings exactly of the programs whose uses and chunks are safe.** -/
theorem preservesBindings_iff_safe {defs : Addr → Option Addr} {counter : UInt32}
    {program : Ast Addr .chunkList} (hn : program.nodes.Nodup)
    (hb : ({} : Scope).Everywhere (LexicallyBound defs) program) :
    PreservesBindings defs counter program ↔
      (∀ u ∈ ({} : Decls).uses program, u.Safe defs counter program) ∧
        ∀ c ∈ program.subterms, ChunkSafe defs counter program c := by
  have hbu := everywhere_iff_boundUses.mp hb
  have huses : ({} : Decls).uses (program.withNames (rename defs counter program).names) =
      (({} : Decls).uses program).map (Use.withNames (rename defs counter program).names) :=
    Decls.uses_withNames (δ := {}) program
  have hbound : ({} : Scope).Everywhere (LexicallyBound defs)
      (program.withNames (rename defs counter program).names) ↔
      ∀ u ∈ ({} : Decls).uses program, u.Safe defs counter program := by
    rw [everywhere_iff_boundUses, BoundUses, huses, List.forall_mem_map]
    exact forall₂_congr fun u hu => bound_withNames_iff hn hbu hu
  have hdistinct := forall₂_congr fun (c : Σ k, Ast Addr k) (hc : c ∈ program.subterms) =>
    nodup_withNames_iff counter hn hbu hc
  refine ⟨fun h => ⟨hbound.mp h.resolves, hdistinct.mp h.distinct⟩, fun h =>
    ⟨?_, hbound.mpr h.1, hdistinct.mpr h.2⟩⟩
  intro c hc a x hax d hd
  have hmem := mem_uses_of_subterm (δ := {}) hc hax
  rw [huses, List.map_map] at hmem
  obtain ⟨u, hu, he⟩ := List.mem_map.mp hmem
  obtain ⟨rfl, rfl⟩ := Prod.mk.inj he
  have hdecl : u.decl = some d := (hbu u hu).1.symm.trans hd
  have hs := h.1 u hu
  have heq := (names_use_eq_iff counter hn hbu hu hdecl).mpr
    ⟨fun hi => hs.outside hi d hdecl, fun hf hi hm => hs.notMain hf hi hm d hdecl⟩
  have hw := ((lies_program hn).uses u hu).around.declared _ (mem_around_of_decl hdecl)
  rw [← names_eq_newName hn hbu hw] at heq
  exact heq.symm

/-- `let primitive p() function f() = p() var a := 0 in f(); a end` as a program. -/
def besidePrimitive : Ast Addr .chunkList :=
  .chunkList 0 (.ofList [.functionChunk 1 (.ofList [.functionDec 2 "_main".toList
    (.varChunk 3 .nil) .none (.some (.seqExp 4 (.ofList [
      .letExp 5
        (.chunkList 6 (.ofList [
          .functionChunk 7 (.ofList [
            .functionDec 8 "p".toList (.varChunk 9 .nil) .none .none,
            .functionDec 10 "f".toList (.varChunk 11 .nil) .none
              (.some (.callExp 12 "p".toList .nil))]),
          .ofVarChunk (.varChunk 13 (.ofList [
            .varDec 14 "a".toList .none (.some (.intExp 15 0))]))]))
        (.seqExp 16 (.ofList [.callExp 17 "f".toList .nil, .ofVar (.simpleVar 18 "a".toList)])),
      .seqExp 19 .nil])))])])

/-- The definitions of `besidePrimitive`. -/
def besidePrimitiveDefs : Addr → Option Addr
  | 12 => some 8
  | 17 => some 10
  | 18 => some 14
  | _ => none

theorem uses_besidePrimitive : ({} : Decls).uses besidePrimitive =
    [⟨.function, 12, "p".toList, [("f".toList, 10), ("p".toList, 8), ("_main".toList, 2)], false⟩,
      ⟨.function, 17, "f".toList, [("f".toList, 10), ("p".toList, 8), ("_main".toList, 2)], false⟩,
      ⟨.variable, 18, "a".toList, [("a".toList, 14)], false⟩] := rfl

theorem bound_besidePrimitive :
    ({} : Scope).Everywhere (LexicallyBound besidePrimitiveDefs) besidePrimitive := by
  rw [everywhere_iff_boundUses, BoundUses, uses_besidePrimitive]
  simp only [List.forall_mem_cons]
  exact ⟨⟨rfl, by decide⟩, ⟨rfl, by decide⟩, ⟨rfl, by decide⟩, nofun⟩

theorem safe_besidePrimitive :
    ∀ u ∈ ({} : Decls).uses besidePrimitive, u.Safe besidePrimitiveDefs 0 besidePrimitive := by
  rw [uses_besidePrimitive]
  simp only [List.forall_mem_cons]
  refine ⟨⟨nofun, nofun, fun _ d hd => ?_⟩, ⟨nofun, nofun, fun _ d hd => ?_⟩,
    ⟨nofun, nofun, nofun⟩, nofun⟩
  · obtain rfl := Option.some.inj hd
    decide
  · obtain rfl := Option.some.inj hd
    decide

/-- The primitive keeps its name, and no other function gets it. -/
theorem besidePrimitive_preservesBindings :
    PreservesBindings besidePrimitiveDefs 0 besidePrimitive :=
  (preservesBindings_iff_safe (by decide) bound_besidePrimitive).mpr
    ⟨safe_besidePrimitive, by decide⟩

/-- `let primitive f_0() function f() = () in f() end` as a program. -/
def takenName : Ast Addr .chunkList :=
  .chunkList 0 (.ofList [.functionChunk 1 (.ofList [.functionDec 2 "_main".toList
    (.varChunk 3 .nil) .none (.some (.seqExp 4 (.ofList [
      .letExp 5
        (.chunkList 6 (.ofList [
          .functionChunk 7 (.ofList [
            .functionDec 8 "f_0".toList (.varChunk 9 .nil) .none .none,
            .functionDec 10 "f".toList (.varChunk 11 .nil) .none (.some (.seqExp 12 .nil))])]))
        (.seqExp 13 (.ofList [.callExp 14 "f".toList .nil])),
      .seqExp 15 .nil])))])])

-- Both functions are called `f_0` in the end.
example : ¬ ∀ c ∈ takenName.subterms, ChunkSafe (fun _ => none) 0 takenName c := by decide

/-- `let type t = int primitive p(x : t) in end` as a program. -/
def typeOfFormal : Ast Addr .chunkList :=
  .chunkList 0 (.ofList [.functionChunk 1 (.ofList [.functionDec 2 "_main".toList
    (.varChunk 3 .nil) .none (.some (.seqExp 4 (.ofList [
      .letExp 5
        (.chunkList 6 (.ofList [
          .typeChunk 7 (.ofList [.typeDec 8 "t".toList (.ofNameTy (.nameTy 9 "int".toList))]),
          .functionChunk 10 (.ofList [.functionDec 11 "p".toList
            (.varChunk 12 (.ofList [.varDec 13 "x".toList
              (.some (.nameTy 14 "t".toList)) .none])) .none .none])]))
        (.seqExp 15 .nil),
      .seqExp 16 .nil])))])])

/-- The formal of the primitive keeps the name of a type that has a new one. -/
theorem not_preservesBindings_of_bound :
    ¬ ∀ (defs : Addr → Option Addr) (counter : UInt32) (program : Ast Addr .chunkList),
      program.nodes.Nodup → ({} : Scope).Everywhere (LexicallyBound defs) program →
        PreservesBindings defs counter program := by
  intro h
  have hb : ({} : Scope).Everywhere
      (LexicallyBound fun a => if a = 14 then some 8 else none) typeOfFormal := by
    have hu : ({} : Decls).uses typeOfFormal =
        [⟨.type, 9, "int".toList, [("t".toList, 8)], false⟩,
          ⟨.type, 14, "t".toList, [("t".toList, 8)], true⟩] := rfl
    rw [everywhere_iff_boundUses, BoundUses, hu, List.forall_mem_cons, List.forall_mem_singleton]
    exact ⟨⟨rfl, fun _ => ⟨rfl, rfl⟩⟩, ⟨rfl, nofun⟩⟩
  obtain ⟨ha, _⟩ := h (fun a => if a = 14 then some 8 else none) 0 typeOfFormal (by decide) hb
  have hx := ha ⟨.nameTy, .nameTy 14 "t".toList⟩ (by decide) 14 "t".toList rfl 8 rfl
  exact absurd hx (by decide)

end TigerCompiler
