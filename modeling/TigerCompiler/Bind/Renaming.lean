import TigerCompiler.Bind.Renamer
import TigerCompiler.Bind.Uses
import Mathlib.Data.List.Induction

/-!
# What the renaming keeps

A visit of the `Renamer` is the sequence of its calls of `visit(e, def)` (`accept_eq_run`), and
these give each declaration the name made when it is first met (`Ran`).  Two fresh names made
from different names differ whatever the counter, so a name can only be captured where one
declaration is renamed and the other is not, and these are the primitives and `_main`.
-/

namespace TigerCompiler

variable {k : Kind}

/-! ## The calls of `visit` -/

/-- What `Renamer` does with the name of a node. -/
inductive Mark
  /-- The node takes the name of the declaration it is bound to. -/
  | use
  /-- The same, unless it is bound to a primitive. -/
  | call
  /-- The declaration is renamed. -/
  | dec
  /-- The name stays. -/
  | kept
  deriving DecidableEq

/-- What becomes of the names of a tree, in the order of the visit; `skip` tells whether the
tree lies in the formals or the result of a primitive. -/
def Ast.marks {α : Type} : {k : Kind} → Bool → Ast α k → List (α × Mark)
  | _, _, .nil => []
  | _, skip, .cons x xs => x.marks skip ++ xs.marks skip
  | _, _, .none => []
  | _, skip, .some x => x.marks skip
  | _, skip, .simpleVar a _ => [(a, if skip then .kept else .use)]
  | _, skip, .fieldVar _ v _ => v.marks skip
  | _, skip, .subscriptVar _ v i => v.marks skip ++ i.marks skip
  | _, skip, .ofVar v => v.marks skip
  | _, _, .nilExp _ => []
  | _, _, .intExp _ _ => []
  | _, _, .stringExp _ _ => []
  | _, skip, .callExp a _ args => (a, if skip then .kept else .call) :: args.marks skip
  | _, skip, .opExp _ l _ r => l.marks skip ++ r.marks skip
  | _, skip, .recordExp _ t fs => t.marks skip ++ fs.marks skip
  | _, skip, .seqExp _ es => es.marks skip
  | _, skip, .assignExp _ v e => v.marks skip ++ e.marks skip
  | _, skip, .ifExp _ c t e => c.marks skip ++ t.marks skip ++ e.marks skip
  | _, skip, .whileExp _ c b => c.marks skip ++ b.marks skip
  | _, skip, .forExp _ d h b => d.marks skip ++ h.marks skip ++ b.marks skip
  | _, _, .breakExp _ => []
  | _, skip, .letExp _ cs b => cs.marks skip ++ b.marks skip
  | _, skip, .arrayExp _ t s i => t.marks skip ++ s.marks skip ++ i.marks skip
  | _, skip, .castExp _ e t => e.marks skip ++ t.marks skip
  | _, skip, .nameTy a _ => [(a, if skip then .kept else .use)]
  | _, skip, .ofNameTy n => n.marks skip
  | _, skip, .recordTy _ fs => fs.marks skip
  | _, skip, .arrayTy _ t => t.marks skip
  | _, skip, .field _ _ t => t.marks skip
  | _, skip, .fieldInit _ _ i => i.marks skip
  | _, skip, .varDec a _ t i =>
    (a, if skip then .kept else .dec) :: (t.marks skip ++ i.marks skip)
  | _, skip, .functionDec a name formals result body =>
    (a, if skip || !body.isSome || name == Symbol.main then .kept else .dec) ::
      (formals.marks (skip || !body.isSome) ++ result.marks (skip || !body.isSome) ++
        body.marks skip)
  | _, skip, .typeDec a _ t => (a, if skip then .kept else .dec) :: t.marks skip
  | _, skip, .varChunk _ ds => ds.marks skip
  | _, skip, .ofVarChunk c => c.marks skip
  | _, skip, .functionChunk _ ds => ds.marks skip
  | _, skip, .typeChunk _ ds => ds.marks skip
  | _, skip, .chunkList _ cs => cs.marks skip

theorem Ast.marks_sublist {α : Type} (skip : Bool) (t : Ast α k) :
    ((t.marks skip).map Prod.fst).Sublist t.nodes := by
  induction t generalizing skip with
  | nil | none | simpleVar | nilExp | intExp | stringExp | breakExp | nameTy =>
    simp [marks, nodes]
  | some _ ih | ofVar _ ih | ofNameTy _ ih | ofVarChunk _ ih => exact ih skip
  | cons _ _ ih₁ ih₂ => simpa [marks, nodes] using (ih₁ skip).append (ih₂ skip)
  | callExp a _ _ ih | typeDec a _ _ ih => exact (ih skip).cons_cons a
  | varDec a _ _ _ ih₁ ih₂ =>
    simpa [marks, nodes] using ((ih₁ skip).append (ih₂ skip)).cons_cons a
  | functionDec a x fs r b ih₁ ih₂ ih₃ =>
    simpa [marks, nodes] using
      ((ih₁ (skip || !b.isSome)).append ((ih₂ (skip || !b.isSome)).append (ih₃ skip))).cons_cons a
  | fieldVar _ _ _ ih | seqExp _ _ ih | recordTy _ _ ih | arrayTy _ _ ih
  | field _ _ _ ih | fieldInit _ _ _ ih | varChunk _ _ ih
  | functionChunk _ _ ih | typeChunk _ _ ih | chunkList _ _ ih => exact (ih skip).cons _
  | subscriptVar _ _ _ ih₁ ih₂ | opExp _ _ _ _ ih₁ ih₂ | recordExp _ _ _ ih₁ ih₂
  | assignExp _ _ _ ih₁ ih₂ | whileExp _ _ _ ih₁ ih₂ | letExp _ _ _ ih₁ ih₂
  | castExp _ _ _ ih₁ ih₂ =>
    simpa [marks, nodes] using ((ih₁ skip).append (ih₂ skip)).cons _
  | ifExp _ _ _ _ ih₁ ih₂ ih₃ | forExp _ _ _ _ ih₁ ih₂ ih₃ | arrayExp _ _ _ _ ih₁ ih₂ ih₃ =>
    simpa [marks, nodes] using ((ih₁ skip).append ((ih₂ skip).append (ih₃ skip))).cons _

namespace Renamer

variable {defs : Addr → Option Addr} {bodies : Addr → Bool}

/-- The `def` of the call of `visit` a mark stands for. -/
def target (defs : Addr → Option Addr) (bodies : Addr → Bool) (m : Addr × Mark) : Option Addr :=
  match m.2 with
  | .use => defs m.1
  | .call => (defs m.1).filter bodies
  | .dec => some m.1
  | .kept => none

/-- The calls of `visit` that marks stand for. -/
def calls (defs : Addr → Option Addr) (bodies : Addr → Bool) (ms : List (Addr × Mark)) :
    List (Addr × Option Addr) :=
  ms.map fun m => (m.1, target defs bodies m)

/-- Successive calls of `visit`. -/
def run (r : Renamer) (ps : List (Addr × Option Addr)) : Renamer :=
  ps.foldl (fun r p => r.visit p.1 p.2) r

theorem run_append (r : Renamer) (ps qs : List (Addr × Option Addr)) :
    r.run (ps ++ qs) = (r.run ps).run qs := List.foldl_append ..

theorem names_visit_of_ne {r : Renamer} {e a : Addr} (d : Option Addr) (h : a ≠ e) :
    (r.visit e d).names a = r.names a := by
  cases d with
  | none => rfl
  | some d =>
    rw [visit, nameSet]
    show Function.update (r.unique d).names e _ a = _
    rw [Function.update_of_ne h, unique]
    split <;> rfl

theorem names_run_of_not_mem {r : Renamer} {ps : List (Addr × Option Addr)} {a : Addr}
    (h : a ∉ ps.map Prod.fst) : (r.run ps).names a = r.names a := by
  induction ps generalizing r with
  | nil => rfl
  | cons p ps ih =>
    rw [List.map_cons, List.mem_cons, not_or] at h
    exact (ih h.2).trans (names_visit_of_ne p.2 h.1)

/-- The functions of a tree have their names. -/
def Named (r : Renamer) (t : Ast Addr k) : Prop :=
  ∀ d : Ast Addr .functionDec, ⟨.functionDec, d⟩ ∈ t.subterms →
    r.names d.functionAddr = d.functionName

variable (defs bodies) in
/-- Inside a primitive nothing is renamed. -/
theorem run_calls_skip (r : Renamer) (t : Ast Addr k) :
    r.run (calls defs bodies (t.marks true)) = r := by
  have h : ∀ m ∈ t.marks true, m.2 = .kept := by
    induction t <;> simp only [Ast.marks, List.mem_append, List.mem_cons, List.not_mem_nil] <;>
      grind
  have hr : ∀ ms : List (Addr × Mark), (∀ m ∈ ms, m.2 = .kept) →
      r.run (calls defs bodies ms) = r := by
    intro ms hms
    induction ms with
    | nil => rfl
    | cons m ms ih =>
      obtain ⟨a, m⟩ := m
      obtain rfl : m = .kept := hms _ (.head _)
      exact ih fun m hm => hms m (.tail _ hm)
  exact hr _ h

theorem run_calls_append (r : Renamer) (ms ms' : List (Addr × Mark)) :
    r.run (calls defs bodies (ms ++ ms')) =
      (r.run (calls defs bodies ms)).run (calls defs bodies ms') := by
  rw [calls, List.map_append, run_append]
  rfl

/-- The calls a part makes leave the functions of another part alone. -/
theorem Named.run {r : Renamer} {ms : List (Addr × Mark)} {t : Ast Addr k} (h : r.Named t)
    (hd : ∀ a ∈ ms.map Prod.fst, a ∉ t.nodes) : (r.run (calls defs bodies ms)).Named t := by
  intro d hm
  rw [names_run_of_not_mem, h d hm]
  intro ha
  simp only [calls, List.map_map] at ha
  refine hd _ ha (Ast.nodes_subset hm ?_)
  cases d
  simp [Ast.functionAddr, Ast.nodes]

/-- The call for one node leaves the functions elsewhere alone. -/
theorem Named.call {r : Renamer} {a : Addr} {t : Ast Addr k} (m : Mark) (h : r.Named t)
    (ha : a ∉ t.nodes) : (r.run (calls defs bodies [(a, m)])).Named t := by
  refine h.run fun b hb => ?_
  obtain rfl : b = a := by simpa using hb
  exact ha

theorem Named.part {r : Renamer} {j : Kind} {t : Ast Addr k} {u : Ast Addr j} (h : r.Named t)
    (hu : ⟨j, u⟩ ∈ t.subterms) : r.Named u := fun d hd => h d (Ast.subterms_subset hu hd)

/-- The visit of a tree is the calls its marks stand for. -/
def AcceptsAsRun (defs : Addr → Option Addr) (bodies : Addr → Bool) (t : Ast Addr k) : Prop :=
  ∀ {r : Renamer}, t.nodes.Nodup → r.Named t →
    r.accept defs bodies t = r.run (calls defs bodies (t.marks false))

theorem AcceptsAsRun.append {i j : Kind} {x : Ast Addr i} {y : Ast Addr j}
    (hx : AcceptsAsRun defs bodies x) (hy : AcceptsAsRun defs bodies y) {r : Renamer}
    (hn : (x.nodes ++ y.nodes).Nodup) (hr : r.Named x) (hr' : r.Named y) :
    (r.accept defs bodies x).accept defs bodies y =
      r.run (calls defs bodies (x.marks false ++ y.marks false)) := by
  have hd := List.disjoint_of_nodup_append hn
  rw [hx hn.of_append_left hr, run_calls_append, hy hn.of_append_right]
  exact hr'.run fun a ha => hd ((x.marks_sublist false).subset ha)

theorem AcceptsAsRun.append₃ {i j l : Kind} {x : Ast Addr i} {y : Ast Addr j} {z : Ast Addr l}
    (hx : AcceptsAsRun defs bodies x) (hy : AcceptsAsRun defs bodies y)
    (hz : AcceptsAsRun defs bodies z) {r : Renamer}
    (hn : (x.nodes ++ y.nodes ++ z.nodes).Nodup) (hr : r.Named x) (hr' : r.Named y)
    (hr'' : r.Named z) :
    ((r.accept defs bodies x).accept defs bodies y).accept defs bodies z =
      r.run (calls defs bodies (x.marks false ++ y.marks false ++ z.marks false)) := by
  have hd := List.disjoint_of_nodup_append hn
  rw [hx.append hy hn.of_append_left hr hr', run_calls_append _ (_ ++ _), hz hn.of_append_right]
  refine hr''.run fun a ha => hd ?_
  rw [List.map_append, List.mem_append] at ha
  exact List.mem_append.mpr
    (ha.imp (fun h => (x.marks_sublist false).subset h) fun h => (y.marks_sublist false).subset h)

theorem accept_eq_run (t : Ast Addr k) : AcceptsAsRun defs bodies t := by
  induction t with
  | nil | none | nilExp | intExp | stringExp | breakExp | simpleVar | nameTy =>
    intro r _ _
    rfl
  | some x ih | ofVar x ih | ofNameTy x ih | ofVarChunk x ih =>
    intro r hn hr
    exact ih hn (hr.part (Ast.mem_first rfl))
  | fieldVar _ x _ ih | seqExp _ x ih | recordTy _ x ih | arrayTy _ x ih | field _ _ x ih
  | fieldInit _ _ x ih | varChunk _ x ih | functionChunk _ x ih | typeChunk _ x ih
  | chunkList _ x ih =>
    intro r hn hr
    exact ih hn.of_cons (hr.part (Ast.mem_first rfl))
  | cons x y ih₁ ih₂ =>
    intro r hn hr
    exact ih₁.append ih₂ hn (hr.part (Ast.mem_first rfl)) (hr.part (Ast.mem_second rfl))
  | subscriptVar _ x y ih₁ ih₂ | opExp _ x _ y ih₁ ih₂ | recordExp _ x y ih₁ ih₂
  | assignExp _ x y ih₁ ih₂ | whileExp _ x y ih₁ ih₂ | letExp _ x y ih₁ ih₂
  | castExp _ x y ih₁ ih₂ =>
    intro r hn hr
    exact ih₁.append ih₂ hn.of_cons (hr.part (Ast.mem_first rfl))
      (hr.part (Ast.mem_second rfl))
  | ifExp _ x y z ih₁ ih₂ ih₃ | forExp _ x y z ih₁ ih₂ ih₃ | arrayExp _ x y z ih₁ ih₂ ih₃ =>
    intro r hn hr
    exact ih₁.append₃ ih₂ ih₃ hn.of_cons (hr.part (Ast.mem_first rfl))
      (hr.part (Ast.mem_second rfl)) (hr.part (Ast.mem_third rfl))
  | callExp a x args ih =>
    intro r hn hr
    have ha := (List.nodup_cons.mp hn).1
    have hc : (if (defs a).any bodies then r.visit a (defs a) else r) =
        r.run (calls defs bodies [(a, .call)]) := by
      cases h : defs a with
      | none => simp [calls, target, run, h, visit]
      | some d => cases hb : bodies d <;> simp [calls, target, run, h, hb, visit, Option.filter]
    have hs : (r.run (calls defs bodies [(a, .call)])).Named args :=
      (hr.part (Ast.mem_first rfl)).call _ ha
    rw [accept, hc, ih hn.of_cons hs, ← run_calls_append]
    rfl
  | varDec a x n i ih₁ ih₂ =>
    intro r hn hr
    have ha := (List.nodup_cons.mp hn).1
    rw [List.mem_append, not_or] at ha
    have hs₁ : (r.run (calls defs bodies [(a, .dec)])).Named n :=
      (hr.part (Ast.mem_first rfl)).call _ ha.1
    have hs₂ : (r.run (calls defs bodies [(a, .dec)])).Named i :=
      (hr.part (Ast.mem_second rfl)).call _ ha.2
    have h := ih₁.append ih₂ hn.of_cons hs₁ hs₂
    rw [← run_calls_append] at h
    exact h
  | typeDec a x t ih =>
    intro r hn hr
    have hs : (r.run (calls defs bodies [(a, .dec)])).Named t :=
      (hr.part (Ast.mem_first rfl)).call _ (List.nodup_cons.mp hn).1
    have h := ih hn.of_cons hs
    rw [← run_calls_append] at h
    exact h
  | functionDec a x fs res body ih₁ ih₂ ih₃ =>
    intro r hn hr
    have hx : r.names a = x := hr (.functionDec a x fs res body) (by simp)
    have ha := (List.nodup_cons.mp hn).1
    rw [List.mem_append, List.mem_append, not_or, not_or] at ha
    cases body with
    | none =>
      -- A primitive: nothing is called, and what the marks below it stand for is nothing.
      have hk := run_calls_skip defs bodies r
        (.functionDec a x fs res .none)
      rw [accept, Ast.isSome_none, if_neg (by decide)]
      simpa [Ast.marks] using hk.symm
    | some body =>
      have hv : (if r.names a = Symbol.main then r else r.visit a (some a)) =
          r.run (calls defs bodies [(a, if x = Symbol.main then Mark.kept else .dec)]) := by
        rw [hx]
        split <;> rfl
      have hs {j : Kind} {u : Ast Addr j}
          (hu : ⟨j, u⟩ ∈ Ast.subterms (.functionDec a x fs res (.some body))) (hau : a ∉ u.nodes) :
          (r.run (calls defs bodies [(a, if x = Symbol.main then Mark.kept else .dec)])).Named
            u := (hr.part hu).call _ hau
      have h := ih₁.append₃ ih₂ ih₃ hn.of_cons (hs (Ast.mem_first rfl) ha.1.1)
        (hs (Ast.mem_second rfl) ha.1.2) (hs (Ast.mem_third rfl) ha.2)
      rw [← run_calls_append, ← hv] at h
      rw [accept, Ast.isSome_some, if_pos rfl, h]
      simp [Ast.marks]

/-! ## The names that are made -/

/-- The declarations that are given a name, in the order they are first met. -/
def met (ps : List (Addr × Option Addr)) : List Addr := (ps.filterMap Prod.snd).eraseDups

/-- The name a declaration is given: the number in it tells how many were given before. -/
def uniqueName (names : Addr → Symbol) (counter : UInt32) (ps : List (Addr × Option Addr))
    (d : Addr) : Symbol :=
  (names d).fresh (counter + UInt32.ofNat ((met ps).idxOf d))

theorem mem_met {ps : List (Addr × Option Addr)} {d : Addr} :
    d ∈ met ps ↔ ∃ a, (a, some d) ∈ ps := by
  simp [met, List.mem_eraseDups]

theorem met_concat (ps : List (Addr × Option Addr)) (e d : Addr) :
    met (ps ++ [(e, some d)]) = if d ∈ met ps then met ps else met ps ++ [d] := by
  rw [met, List.filterMap_append, List.eraseDups_append]
  have hd : d ∈ met ps ↔ d ∈ ps.filterMap Prod.snd := by rw [met, List.mem_eraseDups]
  by_cases h : d ∈ ps.filterMap Prod.snd
  · rw [if_pos (hd.mpr h)]
    simp [met, List.removeAll, h]
  · rw [if_neg (hd.not.mpr h)]
    simp [met, List.removeAll, h, List.eraseDups_cons]

theorem met_concat_none (ps : List (Addr × Option Addr)) (e : Addr) :
    met (ps ++ [(e, none)]) = met ps := by
  simp [met]

/-- Later calls do not change the name a declaration has been given. -/
theorem uniqueName_concat {names : Addr → Symbol} {counter : UInt32}
    {ps : List (Addr × Option Addr)} {d : Addr} (e d' : Addr) (h : d ∈ met ps) :
    uniqueName names counter (ps ++ [(e, some d')]) d = uniqueName names counter ps d := by
  rw [uniqueName, met_concat]
  split
  · rfl
  · rw [List.idxOf_append, if_pos h]
    rfl

/-- Where successive calls lead to, from the names `names` and the counter `counter`. -/
structure Ran (names : Addr → Symbol) (counter : UInt32) (ps : List (Addr × Option Addr))
    (r : Renamer) : Prop where
  unique : ∀ d, r.uniqueNames d =
    if d ∈ met ps then some (uniqueName names counter ps d) else none
  count : r.counter = counter + UInt32.ofNat (met ps).length
  set : ∀ a d, (a, some d) ∈ ps → r.names a = uniqueName names counter ps d
  unset : ∀ a, (∀ d, (a, some d) ∉ ps) → r.names a = names a

/-- Asking for the name of `d`: whether it is met now or was before, the table then has it. -/
theorem Ran.unique_concat {names : Addr → Symbol} {counter : UInt32}
    {ps : List (Addr × Option Addr)} {r : Renamer} (h : Ran names counter ps r) {d : Addr}
    (hd : d ∉ met ps → r.names d = names d) (e : Addr) :
    (∀ d', (r.unique d).uniqueNames d' = if d' ∈ met (ps ++ [(e, some d)]) then
      some (uniqueName names counter (ps ++ [(e, some d)]) d') else none) ∧
    (r.unique d).counter = counter + UInt32.ofNat (met (ps ++ [(e, some d)])).length := by
  have hu := h.unique d
  by_cases hm : d ∈ met ps
  · rw [if_pos hm] at hu
    have hr : r.unique d = r := by simp [Renamer.unique, hu]
    have hmet : met (ps ++ [(e, some d)]) = met ps := by rw [met_concat, if_pos hm]
    rw [hr, hmet]
    refine ⟨fun d' => ?_, h.count⟩
    rw [h.unique d', uniqueName, uniqueName, hmet]
  · rw [if_neg hm] at hu
    have hmet : met (ps ++ [(e, some d)]) = met ps ++ [d] := by rw [met_concat, if_neg hm]
    have hr : r.unique d = { r with
        uniqueNames := Function.update r.uniqueNames d (some ((r.names d).fresh r.counter))
        counter := r.counter + 1 } := by simp [Renamer.unique, hu]
    rw [hr]
    refine ⟨fun d' => ?_, ?_⟩
    · show Function.update r.uniqueNames d _ d' = _
      by_cases hdd : d' = d
      · subst hdd
        rw [Function.update_self, if_pos (by simp [hmet]), hd hm, h.count, uniqueName, hmet,
          List.idxOf_append, if_neg hm]
        simp
      · rw [Function.update_of_ne hdd, h.unique d']
        by_cases hm' : d' ∈ met ps
        · rw [if_pos hm', if_pos (by simp [hmet, hm']), uniqueName_concat e d hm']
        · rw [if_neg hm', if_neg (by simp [hmet, hm', hdd])]
    · show r.counter + 1 = _
      rw [h.count, hmet]
      simp [UInt32.ofNat_add, UInt32.add_assoc]

theorem ran_run {names : Addr → Symbol} {counter : UInt32} {ps : List (Addr × Option Addr)}
    (hn : (ps.map Prod.fst).Nodup)
    (hd : ∀ a d, (a, some d) ∈ ps → ∀ d', (d, some d') ∈ ps → d' = d) :
    Ran names counter ps (run { names, counter } ps) := by
  induction ps using List.reverseRecOn with
  | nil => exact ⟨fun d => rfl, by simp [run, met], nofun, fun _ _ => rfl⟩
  | append_singleton ps p ih =>
    obtain ⟨e, p⟩ := p
    rw [List.map_append, List.nodup_append] at hn
    have he : ∀ d, (e, some d) ∉ ps := fun d h =>
      hn.2.2 e (List.mem_map_of_mem h) e (by simp) rfl
    have h := ih hn.1 fun a d ha d' hd' =>
      hd a d (List.mem_append_left _ ha) d' (List.mem_append_left _ hd')
    rw [run_append]
    cases p with
    | none =>
      refine ⟨?_, ?_, ?_, ?_⟩
      · intro d
        rw [uniqueName, met_concat_none]
        exact h.unique d
      · rw [met_concat_none]
        exact h.count
      · intro a d ha
        rw [List.mem_append, List.mem_singleton, Prod.mk.injEq] at ha
        have hs := h.set a d (ha.resolve_right (by simp))
        rwa [uniqueName, met_concat_none]
      · exact fun a ha => h.unset a fun d hd => ha d (List.mem_append_left _ hd)
    | some d =>
      have hdn : d ∉ met ps → (run { names, counter } ps).names d = names d := by
        intro hm
        refine h.unset d fun d' hd' => hm (mem_met.mpr ⟨d, ?_⟩)
        obtain rfl := hd e d (by simp) d' (List.mem_append_left _ hd')
        exact hd'
      obtain ⟨hu, hc⟩ := h.unique_concat hdn e
      have hnames : ∀ a, ((run { names, counter } ps).unique d).names a =
          (run { names, counter } ps).names a := by
        intro a
        rw [Renamer.unique]
        split <;> rfl
      have hself : d ∈ met (ps ++ [(e, some d)]) := mem_met.mpr ⟨e, by simp⟩
      refine ⟨hu, hc, ?_, ?_⟩
      · intro a d' ha
        show Function.update _ e _ a = _
        by_cases hae : a = e
        · subst hae
          obtain rfl : d' = d := by
            rcases List.mem_append.mp ha with ha | ha
            · exact absurd ha (he d')
            · simpa using ha
          rw [Function.update_self, hu, if_pos hself]
          rfl
        · have ha' : (a, some d') ∈ ps := by simpa [hae] using ha
          rw [Function.update_of_ne hae, hnames, h.set a d' ha',
            uniqueName_concat e d (mem_met.mpr ⟨a, ha'⟩)]
      · intro a ha
        have hae : a ≠ e := by
          rintro rfl
          exact ha d (by simp)
        show Function.update _ e _ a = _
        rw [Function.update_of_ne hae, hnames]
        exact h.unset a fun d' hd' => ha d' (List.mem_append_left _ hd')

end Renamer

end TigerCompiler
