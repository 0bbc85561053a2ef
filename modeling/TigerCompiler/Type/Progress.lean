import TigerCompiler.Type.Safety

/-!
# The methods of the checker

The method of each class comes to its end on a part of the program the checker can run on, when
its calls do (`Place.visit`), and so the whole recursion does (`Place.accept`): the tree gets
smaller at each call, and a `SimpleVar` or a `NameTy` leads to a declaration that has its type.
-/

namespace TigerCompiler

open Scope

namespace TypeChecker

variable {j k : Kind} {F : Facts} {program : Ast Addr .chunkList} {ρ σ : Scope}
  {P Q : List (Σ k, Ast Addr k)} {t : Ast Addr k} {e : Ast Addr j} {s s' : TypeChecker}
  {L : List TypePtr} {a : Addr} {n : Nat}
  {acc : ⦃k : Kind⦄ → Ast Addr k → TypeChecker → Except Stop TypeChecker}

/-- The calls of `accept` on the parts below the node come to an end. -/
def Callees (F : Facts) (program : Ast Addr .chunkList) (P : List (Σ k, Ast Addr k))
    (acc : ⦃k : Kind⦄ → Ast Addr k → TypeChecker → Except Stop TypeChecker) (t : Ast Addr k) :
    Prop :=
  ∀ ⦃j : Kind⦄ ⦃e : Ast Addr j⦄ ⦃σ : Scope⦄, Below F t e → HasMethod j = true →
    σ.Everywhere (Binder.VisitBound F.tree.defs) e →
    Safe F program σ P acc e

section Callees

variable {es : Ast Addr (.list j)} {o : Ast Addr (.opt j)} {cs : List (Σ k, Ast Addr k)}
  {c₁ c₂ : Σ k, Ast Addr k}

theorem Callees.first (h : Callees F program P acc t) (hm : t.members = ⟨j, e⟩ :: cs)
    (hc : Counts F t = true) (hj : HasMethod j = true)
    (hb : σ.Everywhere (Binder.VisitBound F.tree.defs) e) :
    Safe F program σ P acc e :=
  h ⟨hc, ⟨j, e⟩, by rw [hm]; exact .head _, mem_reached_self e⟩ hj hb

theorem Callees.second (h : Callees F program P acc t) (hm : t.members = c₁ :: ⟨j, e⟩ :: cs)
    (hc : Counts F t = true) (hj : HasMethod j = true)
    (hb : σ.Everywhere (Binder.VisitBound F.tree.defs) e) :
    Safe F program σ P acc e :=
  h ⟨hc, ⟨j, e⟩, by rw [hm]; exact .tail _ (.head _), mem_reached_self e⟩ hj hb

theorem Callees.third (h : Callees F program P acc t) (hm : t.members = c₁ :: c₂ :: ⟨j, e⟩ :: cs)
    (hc : Counts F t = true) (hj : HasMethod j = true)
    (hb : σ.Everywhere (Binder.VisitBound F.tree.defs) e) :
    Safe F program σ P acc e :=
  h ⟨hc, ⟨j, e⟩, by rw [hm]; exact .tail _ (.tail _ (.head _)), mem_reached_self e⟩ hj hb

/-- The elements of a member that is a collection. -/
theorem Callees.element (h : Callees F program P acc t) (hm : ⟨_, es⟩ ∈ t.members)
    (hc : Counts F t = true) (hj : HasMethod j = true) (he : e ∈ es.toList)
    (hb : σ.Everywhere (Binder.VisitBound F.tree.defs) e) :
    Safe F program σ P acc e :=
  h ⟨hc, _, hm, mem_reached_of_mem he⟩ hj hb

/-- The member there may be. -/
theorem Callees.option (h : Callees F program P acc t) (hm : ⟨_, o⟩ ∈ t.members)
    (hc : Counts F t = true) (hj : HasMethod j = true)
    (hb : σ.Everywhere (Binder.VisitBound F.tree.defs) o) :
    ∀ c ∈ entries o, Safe F program σ P acc c.2 := by
  intro c hco
  cases o with
  | none => cases hco
  | some e =>
    simp only [entries, entries_of_hasMethod hj, List.mem_singleton] at hco
    subst hco
    exact h ⟨hc, _, hm, .tail _ (mem_reached_self e)⟩ hj hb

theorem Callees.below {d : Ast Addr j} (h : Callees F program P acc t) (hd : Below F t d) :
    Callees F program P acc d := fun _ _ _ he => h (hd.trans he)

end Callees

/-- The visit of a node comes to an end. -/
def Finishes (F : Facts) (n : Nat)
    (acc : ⦃k : Kind⦄ → Ast Addr k → TypeChecker → Except Stop TypeChecker) (ρ : Scope)
    (s : TypeChecker) (t : Ast Addr k) : Prop :=
  Ends Reports (fun s' => Went F ρ s s' t) (s.visit F.tree n acc t)

section Methods

variable (hp : F.About program) (hn : 4 ≤ n)

include hp

theorem Place.simpleVar {x : Symbol} (hpl : Place F program ρ (.simpleVar a x))
    (hs : Inv F program false L s) (hv : View F ρ s ((Ast.simpleVar a x).reached F.counted)) :
    Finishes F n acc ρ s (.simpleVar a x) := by
  have hb := hpl.bound
  simp only [Everywhere, Binder.VisitBound] at hb
  split at hb
  · simp only [Finishes, visit, hb]
    exact ⟨.refl s, fun _ hu => absurd hb hu, fun _ => .of_not_declares rfl⟩
  · rename_i ha
    obtain ⟨d, hd, he⟩ := hb
    obtain ⟨hfound, ht⟩ := (hv (Bool.eq_false_iff.mpr ha)).vars x d he
    obtain ⟨v, hvd⟩ := Option.ne_none_iff_exists'.mp hfound
    have hself : ⟨.var, .simpleVar a x⟩ ∈ (Ast.simpleVar a x).reached F.counted := .head _
    have ht := ht.resolve_right fun hun => hun a x hself hd
    -- the variable has its type, so the checker does not go to it
    have haddr : v.addr = d := by
      have hva := ((hp.varDec d v).mp hvd).2
      cases v
      exact hva
    have hset : (s.types v.addr).isSome = true := haddr ▸ ht
    have htype : s.type acc v = .ok s := if_pos hset
    simp only [Finishes, visit, hd, hvd, htype]
    refine hs.went (.refl s) hpl.mem rfl rfl fun _ => ?_
    rwa [typeGet, haddr]

omit hp in
theorem Place.nameTy {x : Symbol} (hpl : Place F program ρ (.nameTy a x))
    (hs : Inv F program false L s) (hv : View F ρ s P) :
    Finishes F n acc ρ s (.nameTy a x) := by
  have hb := hpl.bound
  simp only [Everywhere, Binder.VisitBound] at hb
  have hsome {u : TypePtr} : Went F ρ s (s.typeSet a (some u)) (.nameTy a x) :=
    hs.went (.refl s) hpl.mem rfl rfl fun _ => rfl
  simp only [Finishes, visit]
  split
  · exact hsome
  · rename_i hint
    split
    · exact hsome
    · rename_i hstring
      have hx : x.isBuiltin = false := by simpa [Symbol.isBuiltin] using ⟨hint, hstring⟩
      split
      · rename_i d hd
        refine hs.went (.refl s) hpl.mem rfl rfl fun _ => ?_
        split at hb
        · cases hd.symm.trans hb
        · rename_i ha
          have hmade := (hv (Bool.eq_false_iff.mpr ha)).types x d (hb.1 ▸ hd)
          rw [createdTypeDec, Option.isSome_map]
          exact hmade
      · rename_i hnone
        exact ⟨.refl s, fun _ hu => absurd ⟨hx, hnone⟩ hu, fun _ => .of_not_declares rfl⟩

omit hp in
theorem Place.fieldVar {v : Ast Addr .var} {x : Symbol} (hpl : Place F program ρ (.fieldVar a v x))
    (hacc : Callees F program P acc (.fieldVar a v x)) (hs : Inv F program false L s)
    (hv : View F ρ s P) :
    Finishes F n acc ρ s (.fieldVar a v x) := by
  have he := hacc.first (e := v) rfl rfl rfl hpl.bound.2
  refine (he.type rfl hs hv).bind ?_
  rintro s₁ ⟨hs₁, hg, _⟩
  split
  · unfold fieldType
    split
    · exact hs₁.went hg hpl.mem rfl rfl fun _ => rfl
    · trivial
  · exact hg.wentError (t := .fieldVar a v x) rfl

include hn

theorem Place.subscriptVar {v : Ast Addr .var} {e : Ast Addr .exp}
    (hpl : Place F program ρ (.subscriptVar a v e))
    (hacc : Callees F program P acc (.subscriptVar a v e)) (hs : Inv F program false L s)
    (hv : View F ρ s P) :
    Finishes F n acc ρ s (.subscriptVar a v e) := by
  have hvar := hacc.first (e := v) rfl rfl rfl hpl.bound.2.1
  have he := hacc.second (e := e) rfl rfl rfl hpl.bound.2.2
  have hu := hpl.typable (c := ⟨_, e⟩) (by simp (disch := decide) [derefs])
  refine (he.checkType hp hn (by decide) hu hs hv).bind ?_
  rintro s₁ ⟨hs₁, hg, _⟩
  refine (hvar.type rfl hs₁ (hv.grows hg)).bind ?_
  rintro s₂ ⟨hs₂, hg', _⟩
  split
  · exact hs₂.went (hg.trans hg') hpl.mem rfl rfl fun _ => rfl
  · exact (hg.trans hg').wentError (t := .subscriptVar a v e) rfl

theorem Place.callExp {x : Symbol} {args : Ast Addr (.list .exp)}
    (hpl : Place F program ρ (.callExp a x args)) (hseen : Seen F program acc)
    (hacc : Callees F program P acc (.callExp a x args)) (hs : Inv F program false L s)
    (hv : View F ρ s P) :
    Finishes F n acc ρ s (.callExp a x args) := by
  have hb := hpl.bound.1
  have hdecl : F.tree.defs a ≠ none := (hpl.followed _ (mem_reached_self _)).declared
  simp only [Binder.VisitBound] at hb
  split at hb
  · exact absurd hb hdecl
  · rename_i ha
    obtain ⟨d, hd, hf⟩ := hb
    have hmade := (hv (Bool.eq_false_iff.mpr ha)).funs x d hf
    obtain ⟨⟨formals, result⟩, hfun⟩ := Option.isSome_iff_exists.mp hmade
    obtain ⟨hlen, hformals, -⟩ := hs.functions d formals result hfun
    simp only [Finishes, visit, hd, Option.bind_some, hfun]
    have hargs (heq : args.toList.length = formals.length) : ∀ e ∈ args.toList,
        Safe F program ρ P acc e ∧
          ¬ Untypable F.tree.defs e := by
      intro e he
      have hc : Counts F (.callExp a x args) = true := by
        simp [Counts, Facts.counted, hd, hlen, heq]
      refine ⟨hacc.element (.head _) hc rfl he (hpl.bound.2.of_mem rfl e he), ?_⟩
      refine hpl.typable (c := ⟨_, e⟩) ?_
      simp only [Counts] at hc
      simpa only [derefs, hc, if_true] using mem_entries_of_mem he rfl
    have hs' := hs.append (M := formals.map Prod.snd) (List.forall_mem_map.mpr hformals)
    have hsees (e : Ast Addr .exp) (he : e ∈ args.toList) : Sees F program acc e :=
      hseen.part hpl.mem (.tail _ (Ast.mem_subterms_of_mem he)) rfl
    refine (ends_and ((Sees.checkCall hp hsees hs').imp fun _ => And.left)
      (Safe.checkCall hp hn hargs (fun p hp => List.mem_append_left _ (List.mem_map_of_mem hp))
        hs' hv)).bind ?_
    rintro s₁ ⟨hs₁, hg⟩
    exact hs₁.went hg hpl.mem rfl rfl fun _ => rfl

theorem Place.opExp {l r : Ast Addr .exp} {op : Oper} (hpl : Place F program ρ (.opExp a l op r))
    (hacc : Callees F program P acc (.opExp a l op r)) (hs : Inv F program false L s)
    (hv : View F ρ s P) :
    Finishes F n acc ρ s (.opExp a l op r) := by
  have hl := hacc.first (e := l) rfl rfl rfl hpl.bound.2.1
  have hr := hacc.second (e := r) rfl rfl rfl hpl.bound.2.2
  have hul := hpl.typable (c := ⟨_, l⟩) (by simp (disch := decide) [derefs])
  have hur := hpl.typable (c := ⟨_, r⟩) (by simp (disch := decide) [derefs])
  refine (ends_and ((Sees.checkOperands hp hpl.mem hl.sees hr.sees hs).imp fun _ => And.left)
    (hl.checkOperands hp hn hr hul hur hs hv)).bind ?_
  rintro s₁ ⟨hs₁, hg⟩
  exact hs₁.went hg hpl.mem rfl rfl fun _ => rfl

omit hn in
theorem Place.seqExp {es : Ast Addr (.list .exp)} (hpl : Place F program ρ (.seqExp a es))
    (hacc : Callees F program P acc (.seqExp a es)) (hs : Inv F program false L s)
    (hv : View F ρ s P) :
    Finishes F n acc ρ s (.seqExp a es) := by
  have hes (e : Ast Addr .exp) (he : e ∈ es.toList) :=
    hacc.element (.head _) rfl rfl he (hpl.bound.2.of_mem rfl e he)
  refine (ends_and ((Sees.typeSeq hp es (fun e he => (hes e he).sees) hs
    fun u => live_some (by simp)).imp fun _ => And.left) (Safe.typeSeq es hes hs hv)).bind ?_
  rintro r ⟨hs₁, hg, ht⟩
  exact hs₁.went hg hpl.mem rfl rfl (ht fun _ => rfl)

theorem Place.assignExp {v : Ast Addr .var} {e : Ast Addr .exp}
    (hpl : Place F program ρ (.assignExp a v e)) (hacc : Callees F program P acc (.assignExp a v e))
    (hs : Inv F program false L s) (hv : View F ρ s P) :
    Finishes F n acc ρ s (.assignExp a v e) := by
  have hvar := hacc.first (e := v) rfl rfl rfl hpl.bound.2.1
  have he := hacc.second (e := e) rfl rfl rfl hpl.bound.2.2
  have huv := hpl.typable (c := ⟨_, v⟩) (by simp (disch := decide) [derefs])
  have hue := hpl.typable (c := ⟨_, e⟩) (by simp (disch := decide) [derefs])
  have hg₀ : Grows s (s.checkReadOnly F.tree a v) := .checkReadOnly
  refine (hvar.checkTypesOf hp hn he (by decide) (by decide) huv hue hs.checkReadOnly
    (hv.grows hg₀)).bind ?_
  rintro s₁ ⟨hs₁, hg, _⟩
  exact hs₁.went (hg₀.trans hg) hpl.mem rfl rfl fun _ => rfl

theorem Place.ifExp {c th el : Ast Addr .exp} (hpl : Place F program ρ (.ifExp a c th el))
    (hacc : Callees F program P acc (.ifExp a c th el)) (hs : Inv F program false L s)
    (hv : View F ρ s P) :
    Finishes F n acc ρ s (.ifExp a c th el) := by
  have hc := hacc.first (e := c) rfl rfl rfl hpl.bound.2.1
  have hth := hacc.second (e := th) rfl rfl rfl hpl.bound.2.2.1
  have hel := hacc.third (e := el) rfl rfl rfl hpl.bound.2.2.2
  have huc := hpl.typable (c := ⟨_, c⟩) (by simp (disch := decide) [derefs])
  have hut := hpl.typable (c := ⟨_, th⟩) (by simp (disch := decide) [derefs])
  have hue := hpl.typable (c := ⟨_, el⟩) (by simp (disch := decide) [derefs])
  refine (hc.checkType hp hn (by decide) huc hs hv).bind ?_
  rintro s₁ ⟨hs₁, hg, _⟩
  refine (hth.checkTypesOf hp hn hel (by decide) (by decide) hut hue hs₁ (hv.grows hg)).bind ?_
  rintro s₂ ⟨hs₂, hg', ht⟩
  exact hs₂.went (hg.trans hg') hpl.mem rfl rfl fun _ => ht

theorem Place.whileExp {c body : Ast Addr .exp} (hpl : Place F program ρ (.whileExp a c body))
    (hacc : Callees F program P acc (.whileExp a c body)) (hs : Inv F program false L s)
    (hv : View F ρ s P) :
    Finishes F n acc ρ s (.whileExp a c body) := by
  have hc := hacc.first (e := c) rfl rfl rfl hpl.bound.2.1
  have hb := hacc.second (e := body) rfl rfl rfl hpl.bound.2.2
  have huc := hpl.typable (c := ⟨_, c⟩) (by simp (disch := decide) [derefs])
  have hub := hpl.typable (c := ⟨_, body⟩) (by simp (disch := decide) [derefs])
  refine (hc.checkType hp hn (by decide) huc hs (View.aside rfl)).bind ?_
  rintro s₁ ⟨hs₁, hg, _⟩
  refine (hb.checkType hp hn (by decide) hub hs₁ (hv.grows hg)).bind ?_
  rintro s₂ ⟨hs₂, hg', _⟩
  exact hs₂.went (hg.trans hg') hpl.mem rfl rfl fun _ => rfl

omit hp hn in
theorem Place.letExp {cs : Ast Addr .chunkList} {body : Ast Addr .exp}
    (hpl : Place F program ρ (.letExp a cs body))
    (hacc : Callees F program P acc (.letExp a cs body))
    (hs : Inv F program false L s) (hv : View F ρ s P) :
    Finishes F n acc ρ s (.letExp a cs body) := by
  have hcs := hacc.first (e := cs) rfl rfl rfl hpl.bound.2.1
  have hb := hacc.second (e := body) rfl rfl rfl hpl.bound.2.2
  refine (hcs.accept hs hv).bind ?_
  rintro s₁ ⟨hs₁, hw⟩
  refine (hb.type rfl hs₁ ((hv.grows hw.grows).after hw.adds)).bind ?_
  rintro s₂ ⟨hs₂, hg, ht⟩
  exact hs₂.went (hw.grows.trans hg) hpl.mem rfl rfl ht

theorem Place.arrayExp {ty : Ast Addr .nameTy} {size e : Ast Addr .exp}
    (hpl : Place F program ρ (.arrayExp a ty size e))
    (hacc : Callees F program P acc (.arrayExp a ty size e)) (hs : Inv F program false L s)
    (hv : View F ρ s P) :
    Finishes F n acc ρ s (.arrayExp a ty size e) := by
  have hty := hacc.first (e := ty) rfl rfl rfl hpl.bound.2.1
  have hsize := hacc.second (e := size) rfl rfl rfl hpl.bound.2.2.1
  have he := hacc.third (e := e) rfl rfl rfl hpl.bound.2.2.2
  have hut := hpl.typable (c := ⟨_, ty⟩) (by simp (disch := decide) [derefs])
  have hus := hpl.typable (c := ⟨_, size⟩) (by simp (disch := decide) [derefs])
  have hue := hpl.typable (c := ⟨_, e⟩) (by simp (disch := decide) [derefs])
  refine (hsize.typeRef hp (by decide) hus hs hv).bind ?_
  rintro r ⟨hs₁, hg, _⟩
  refine (hs₁.checkTypes_ends hn (hs₁.live _ (.head _)) (.of_builtin (by simp))).bind ?_
  rintro s₂ ⟨hs₂, hg₂⟩
  refine (hty.checkTypesOf hp hn he (by decide) (by decide) hut hue hs₂.tail
    (hv.grows (hg.trans hg₂))).bind ?_
  rintro s₃ ⟨hs₃, hg₃, ht⟩
  exact hs₃.went ((hg.trans hg₂).trans hg₃) hpl.mem rfl rfl fun _ => ht

omit hn in
/-- What the type declaration holds that the name of a record expression is bound to, and how many
fields the checker finds there. -/
theorem Place.typeOfBody {ty : Ast Addr .nameTy} {fs : Ast Addr (.list .fieldInit)}
    (hpl : Place F program ρ (.recordExp a ty fs)) (hs : Inv F program false L s)
    (hv : View F ρ s P) :
    ∃ u, s.typeOfBody F.tree ty = .ok u ∧ fs.toList.length ≤ ((s.asRecord u).getD []).length := by
  obtain ⟨m, hm, hle⟩ := (hpl.followed _ (mem_reached_self _)).declared
  unfold fieldCount at hm
  split at hm
  · -- a record type
    rename_i b y c gs hd
    obtain ⟨d, hdef, hdec⟩ := Option.bind_eq_some_iff.mp hd
    obtain ⟨hmem, -⟩ := (hp.typeDec d _).mp hdec
    have hmade : (s.types c).isSome = true := by
      have hb := hpl.bound.2.1
      cases ty with
      | nameTy e z =>
        simp only [Everywhere, Binder.VisitBound] at hb
        split at hb
        · cases hdef.symm.trans hb
        · rename_i ha
          exact (hv (Bool.eq_false_iff.mpr ha)).bodies z d (hb.1 ▸ hdef) b y c gs hdec
    obtain ⟨u, hu⟩ := Option.isSome_iff_exists.mp hmade
    obtain ⟨hlen, htype⟩ := hs.recordTys c gs (Ast.subterms_subset hmem (Ast.mem_first rfl))
    obtain ⟨rfl, hrec⟩ := htype u hu
    obtain ⟨fields, hf⟩ := Option.isSome_iff_exists.mp hrec
    refine ⟨s.types c, ?_, ?_⟩
    · rw [TypeChecker.typeOfBody, hd]
      rfl
    · rw [hu, asRecord, hf, Option.getD_some, hlen fields hf]
      cases hm
      exact hle
  · rename_i d hnot hd
    cases hm
    cases d with
    | typeDec b y body =>
      exact ⟨s.typeGet body, by rw [TypeChecker.typeOfBody, hd], hle.trans (Nat.zero_le _)⟩
  · cases hm

theorem Place.recordExp {ty : Ast Addr .nameTy} {fs : Ast Addr (.list .fieldInit)}
    (hpl : Place F program ρ (.recordExp a ty fs))
    (hacc : Callees F program P acc (.recordExp a ty fs)) (hs : Inv F program false L s)
    (hv : View F ρ s P) :
    Finishes F n acc ρ s (.recordExp a ty fs) := by
  have hty := hacc.first (e := ty) rfl rfl rfl hpl.bound.2.1
  have hinit (b x q) (hq : Ast.fieldInit b x q ∈ fs.toList) :
      Safe F program ρ P acc q ∧
        ¬ Untypable F.tree.defs q := by
    have hb := hpl.bound.2.2.of_mem rfl _ hq
    refine ⟨hacc ⟨rfl, _, .tail _ (.head _), ?_⟩ rfl hb.2, hpl.typable (c := ⟨_, q⟩) ?_⟩
    · exact reached_subset_of_mem (mem_reached_of_mem hq) (.tail _ (mem_reached_self q))
    · exact entries_subset hq (by simp (disch := decide) [entries])
  obtain ⟨u, hu, hlen⟩ := hpl.typeOfBody hp hs hv
  simp only [Finishes, visit, hu]
  have hlive : ∀ p ∈ (s.asRecord u).getD [], Live s p.2 := by
    intro p hp'
    cases hr : s.asRecord u with
    | none => rw [hr] at hp'; cases hp'
    | some fields =>
      obtain ⟨c, -, hc⟩ := asRecord_eq hr
      rw [hr] at hp'
      exact hs.records c fields hc p hp'
  have hs' := hs.append (M := ((s.asRecord u).getD []).map Prod.snd) (List.forall_mem_map.mpr hlive)
  refine (ends_and ((Sees.checkRecord hp (fun b x q hq => (hinit b x q hq).1.sees) hs').imp
    fun _ => And.left) (Safe.checkRecord hp hn hinit hlen (fun p hp =>
      List.mem_append_left _ (List.mem_map_of_mem hp)) hs' hv)).bind ?_
  rintro s₁ ⟨hs₁, hg⟩
  refine (hty.type rfl hs₁ (hv.grows hg)).bind ?_
  rintro s₂ ⟨hs₂, hg', ht⟩
  refine hs₂.went (hg.trans hg') hpl.mem rfl rfl fun _ => ht fun hut => ?_
  -- the name is bound, so it has a type
  obtain ⟨m, hm, -⟩ := (hpl.followed _ (mem_reached_self _)).declared
  cases ty with
  | nameTy e z =>
    have hnone : F.tree.defs (Ast.nameTy e z).addr = none := hut.2
    simp [fieldCount, hnone] at hm

omit hp hn in
theorem provides_varDec {x : Symbol} {o : Ast Addr (.opt .nameTy)} {q : Ast Addr (.opt .exp)}
    (hfound : F.tree.varDec a ≠ none) (ht : (s.types a).isSome = true) :
    Provides F ρ s (.varDec a x o q) where
  vars y d hd := by
    simp only [Scope.after, putVar, Function.update_apply] at hd
    split at hd
    · cases hd
      exact .inr ⟨hfound, ht⟩
    · exact .inl hd
  funs _ _ := .inl
  types _ _ := .inl

omit hn in
theorem Place.varDec_ne_none {v : Ast Addr .varDec} (hpl : Place F program ρ v) :
    F.tree.varDec v.varAddr ≠ none := by
  rw [(hp.varDec v.varAddr v).mpr ⟨hpl.mem, rfl⟩]
  rintro ⟨⟩

theorem Place.varDec {x : Symbol} {o : Ast Addr (.opt .nameTy)} {q : Ast Addr (.opt .exp)}
    (hpl : Place F program ρ (.varDec a x o q))
    (hacc : Callees F program ((Ast.varDec a x o q).reached F.counted) acc (.varDec a x o q))
    (hd : HasTypeOrInit program) (hs : Inv F program false L s)
    (hv : View F ρ s ((Ast.varDec a x o q).reached F.counted)) :
    Finishes F n acc ρ s (.varDec a x o q) := by
  have ho := hacc.option (o := o) (.head _) rfl rfl hpl.bound.2.1
  have hq := hacc.option (o := q) (.tail _ (.head _)) rfl rfl hpl.bound.2.2
  have hfound := hpl.varDec_ne_none hp
  -- the variable is not used in its own declaration
  have hv' := hv.putEarly (x := x) hfound (.inr (hpl.noSelfUse _ (mem_reached_self _)))
  refine (Safe.visitVarDec hp hn hpl.mem ho hq (fun c hc => hpl.typable hc) hs hv').imp ?_
  rintro s' ⟨hg, ht⟩
  refine ⟨hg, fun _ hu => ht hu, fun ha => provides_varDec hfound (ht ?_)⟩
  exact typable_of_visitBound hpl.bound ha fun b y hm => hd b y (Ast.subterms_subset hpl.mem hm)

theorem Place.forExp {v : Ast Addr .varDec} {hi body : Ast Addr .exp}
    (hpl : Place F program ρ (.forExp a v hi body))
    (hacc : Callees F program P acc (.forExp a v hi body)) (hs : Inv F program false L s)
    (hv : View F ρ s P) :
    Finishes F n acc ρ s (.forExp a v hi body) := by
  have hvar := hacc.first (e := v) rfl rfl rfl hpl.bound.2.1
  have hhi := hacc.second (e := hi) rfl rfl rfl hpl.bound.2.2.1
  have hb := hacc.third (e := body) rfl rfl rfl hpl.bound.2.2.2
  have huv := hpl.typable (c := ⟨_, v⟩) (by simp (disch := decide) [derefs])
  have huh := hpl.typable (c := ⟨_, hi⟩) (by simp (disch := decide) [derefs])
  have hub := hpl.typable (c := ⟨_, body⟩) (by simp (disch := decide) [derefs])
  have hfound := (hpl.below (e := v) ⟨rfl, _, .head _, mem_reached_self v⟩
    hpl.bound.2.1).varDec_ne_none hp
  refine (hvar.checkType hp hn (by decide) huv hs hv).bind ?_
  rintro s₁ ⟨hs₁, hg₁, ht₁⟩
  -- the variable has its type from here on
  have ht : (s₁.types v.varAddr).isSome = true := by
    cases v
    exact ht₁
  refine (hhi.checkType hp hn (by decide) huh hs₁
    ((hv.grows hg₁).putEarly hfound (.inl ht))).bind ?_
  rintro s₂ ⟨hs₂, hg₂, _⟩
  have hg₃ : Grows s₂ { s₂ with readOnly := v.varAddr :: s₂.readOnly } :=
    ⟨fun _ => id, fun _ => id, fun _ => id⟩
  have hg := (hg₁.trans hg₂).trans hg₃
  have hadds : Provides F ρ { s₂ with readOnly := v.varAddr :: s₂.readOnly } v := by
    cases v
    exact provides_varDec hfound ((hg₂.trans hg₃).types _ ht)
  refine (hb.checkType hp hn (by decide) hub (hs₂.readOnly _)
    ((hv.grows hg).after fun _ => hadds)).bind ?_
  rintro s₄ ⟨hs₄, hg₄, _⟩
  exact hs₄.went (hg.trans hg₄) hpl.mem rfl rfl fun _ => rfl

omit hn in
theorem Place.recordTy {gs : Ast Addr (.list .field)} (hpl : Place F program ρ (.recordTy a gs))
    (hacc : Callees F program P acc (.recordTy a gs)) (hs : Inv F program false L s)
    (hv : View F ρ s P) :
    Finishes F n acc ρ s (.recordTy a gs) := by
  have hnames : ∀ p ∈ fieldsOf gs.toList,
      Safe F program ρ P acc p.2 ∧
        ¬ Untypable F.tree.defs p.2 := by
    intro p hp'
    obtain ⟨f, hf, rfl⟩ := List.mem_map.mp hp'
    have hb := hpl.bound.2.of_mem rfl f hf
    cases f with
    | field b x e =>
      refine ⟨hacc ⟨rfl, _, .head _, ?_⟩ rfl hb.2, hpl.typable (c := ⟨_, e⟩) ?_⟩
      · exact reached_subset_of_mem (mem_reached_of_mem hf) (.tail _ (mem_reached_self e))
      · exact entries_subset hf (by simp (disch := decide) [entries])
  refine (Safe.typeFields hp (by decide) (fun p h => (hnames p h).1) (fun p h => (hnames p h).2)
    hs hv).bind ?_
  rintro r ⟨hg, _⟩
  exact ⟨hg.trans .createRecord, fun _ _ => isSome_setDefault, fun _ => .of_not_declares rfl⟩

omit hn in
theorem Place.arrayTy {e : Ast Addr .nameTy} (hpl : Place F program ρ (.arrayTy a e))
    (hacc : Callees F program P acc (.arrayTy a e)) (hs : Inv F program false L s)
    (hv : View F ρ s P) :
    Finishes F n acc ρ s (.arrayTy a e) := by
  have he := hacc.first (e := e) rfl rfl rfl hpl.bound.2
  have hu := hpl.typable (c := ⟨_, e⟩) (by simp (disch := decide) [derefs])
  refine (he.typeRef hp (by decide) hu hs hv).bind ?_
  rintro r ⟨_, hg, _⟩
  exact ⟨hg.trans .createArray, fun _ _ => isSome_setDefault, fun _ => .of_not_declares rfl⟩

omit hp hn in
theorem mem_of_putFuns {ds : List (Ast Addr .functionDec)} {x : Symbol} {d : Addr}
    (h : (ρ.putFuns ds).funs x = some d) :
    ρ.funs x = some d ∨ ∃ f ∈ ds, f.functionAddr = d := by
  induction ds generalizing ρ with
  | nil => exact .inl h
  | cons f fs ih =>
    rcases ih h with h | ⟨g, hg, hd⟩
    · simp only [putFun, Function.update_apply] at h
      split at h
      · cases h
        exact .inr ⟨f, .head _, rfl⟩
      · exact .inl h
    · exact .inr ⟨g, .tail _ hg, hd⟩

omit hp hn in
theorem mem_of_putTypes {ds : List (Ast Addr .typeDec)} {x : Symbol} {d : Addr}
    (h : (ρ.putTypes ds).types x = some d) :
    ρ.types x = some d ∨ ∃ e ∈ ds, e.typeAddr = d := by
  induction ds generalizing ρ with
  | nil => exact .inl h
  | cons e es ih =>
    rcases ih h with h | ⟨g, hg, hd⟩
    · simp only [putType, Function.update_apply] at h
      split at h
      · cases h
        exact .inr ⟨e, .head _, rfl⟩
      · exact .inl h
    · exact .inr ⟨g, .tail _ hg, hd⟩

omit hp hn in
/-- The formals only use types, so they may be taken to lie outside the function. -/
theorem formals_visitBound {f : Addr → Option Addr} : (fs : Ast Addr (.list .varDec)) →
    ∀ {σ : Scope}, σ.types = ρ.types → σ.aside = ρ.aside →
    (∀ v ∈ fs.toList, ∃ e y t, v = .varDec e y (.some t) .none) →
    σ.Everywhere (Binder.VisitBound f) fs →
    ∀ v ∈ fs.toList, ρ.Everywhere (Binder.VisitBound f) v
  | .nil, _, _, _, _, _ => List.forall_mem_nil _
  | .cons v fs, σ, ht, ha, hfs, hb => by
    obtain ⟨e, y, t, rfl⟩ := hfs v (by simp)
    refine List.forall_mem_cons.mpr ⟨?_, formals_visitBound fs
      (show (σ.after (Ast.varDec e y (.some t) .none)).types = ρ.types from ht) ha
      (fun w hw => hfs w (by simp [hw])) hb.2⟩
    cases t with
    | nameTy b z =>
      obtain ⟨-, hn, -⟩ := hb.1
      change if σ.aside = true then f b = .none else f b = σ.types z ∧ _ at hn
      rw [ha, ht] at hn
      exact ⟨trivial, hn, trivial⟩

omit hp hn in
theorem provides_formals : (fs : Ast Addr (.list .varDec)) → ∀ {ρ : Scope},
    (∀ v ∈ fs.toList, F.tree.varDec v.varAddr ≠ none ∧ (s.types v.varAddr).isSome = true) →
    Provides F ρ s fs
  | .nil, _, _ => ⟨fun _ _ => .inl, fun _ _ => .inl, fun _ _ => .inl⟩
  | .cons v fs, _, h => by
    obtain ⟨⟨hfound, ht⟩, hrest⟩ := List.forall_mem_cons.mp h
    cases v
    exact (provides_varDec hfound ht).cons (provides_formals fs hrest)

omit hn in
/-- The header of a function of a chunk: the scope `ρ` is that around the chunk. -/
theorem Place.functionHeader {b c : Addr} {y : Symbol} {fs : Ast Addr (.list .varDec)}
    {r : Ast Addr (.opt .nameTy)} {body : Ast Addr (.opt .exp)}
    (hpl : Place F program σ (.functionDec b y (.varChunk c fs) r body))
    (hacc : Callees F program P acc (.functionDec b y (.varChunk c fs) r body))
    (hseen : Seen F program acc) (hf : PlainFormals program) (ht : σ.types = ρ.types)
    (ha : σ.aside = ρ.aside) (hs : Inv F program false L s) (hv : View F ρ s P) :
    Ends Reports (fun s' => Inv F program false L s' ∧ Grows s s' ∧
      HeaderMade (.functionDec b y (.varChunk c fs) r body) s')
      (s.functionHeader acc (.functionDec b y (.varChunk c fs) r body)) := by
  have hsees : ∀ q ∈ entries (.functionDec b y (.varChunk c fs) r body),
      Sees F program acc q.2 := by
    intro q hq
    obtain ⟨hmem, hk⟩ := mem_of_mem_entries _ hq
    exact hseen.part hpl.mem hmem hk
  have hbound := formals_visitBound fs ht ha (hf _ _ _ _ _ _ hpl.mem) hpl.bound.2.1.2
  have hfs : ∀ v ∈ fs.toList, Safe F program ρ P acc v ∧ ¬ Untypable F.tree.defs v := by
    intro v hv'
    refine ⟨hacc ⟨rfl, _, .head _, .tail _ (mem_reached_of_mem hv')⟩ rfl (hbound v hv'),
      hpl.typable (c := ⟨_, v⟩) ?_⟩
    exact List.mem_append_left _ (List.mem_append_left _ (mem_entries_of_mem hv' rfl))
  have hr := hacc.option (o := r) (.tail _ (.head _)) rfl rfl hpl.bound.2.2.1
  exact Safe.functionHeader hp hpl.mem hsees hfs (fun c hc => ⟨hr c hc, hpl.typable
    (List.mem_append_left _ (List.mem_append_right _ hc))⟩) rfl hs hv

/-- The body of a function of a chunk, in the scope of the chunk. -/
theorem Place.functionBody {b c : Addr} {y : Symbol} {fs : Ast Addr (.list .varDec)}
    {r : Ast Addr (.opt .nameTy)} {body : Ast Addr (.opt .exp)}
    (hpl : Place F program ρ (.functionDec b y (.varChunk c fs) r body))
    (hacc : Callees F program P acc (.functionDec b y (.varChunk c fs) r body))
    (hm : HeaderMade (.functionDec b y (.varChunk c fs) r body) s) (hs : Inv F program false L s)
    (hv : View F ρ s P) :
    Ends Reports (fun s' => Inv F program false L s' ∧ Grows s s')
      (s.functionBody n acc (.functionDec b y (.varChunk c fs) r body)) := by
  have hb := hacc.option (o := body) (.tail _ (.tail _ (.head _))) rfl rfl hpl.bound.2.2.2
  have hadds : Provides F ρ s fs := provides_formals fs fun v hv' => by
    have hchunk : ⟨.varDec, v⟩ ∈ (Ast.varChunk c fs).subterms :=
      .tail _ (Ast.mem_subterms_of_mem hv')
    have hmem : ⟨.varDec, v⟩ ∈ program.subterms :=
      Ast.subterms_subset hpl.mem (Ast.subterms_subset (Ast.mem_first rfl) hchunk)
    refine ⟨?_, ?_⟩
    · rw [(hp.varDec v.varAddr v).mpr ⟨hmem, rfl⟩]
      rintro ⟨⟩
    · have ht := hm.2 v hv'
      cases v
      exact ht
  have hv' : View F (ρ.after (.varChunk c fs)) s P :=
    hv.after fun _ => ⟨hadds.vars, hadds.funs, hadds.types⟩
  exact Safe.functionBody hp hn (fun c hc => ⟨hb c hc, hpl.typable
    (List.mem_append_right _ hc)⟩) hm hs hv'

theorem Place.functionChunk {ds : Ast Addr (.list .functionDec)}
    (hpl : Place F program ρ (.functionChunk a ds))
    (hacc : Callees F program P acc (.functionChunk a ds)) (hseen : Seen F program acc)
    (hf : PlainFormals program) (hs : Inv F program false L s) (hv : View F ρ s P) :
    Finishes F n acc ρ s (.functionChunk a ds) := by
  have hbelow {d : Ast Addr .functionDec} (hd : d ∈ ds.toList) : Below F (.functionChunk a ds) d :=
    ⟨rfl, _, .head _, mem_reached_of_mem hd⟩
  have hplace {d : Ast Addr .functionDec} (hd : d ∈ ds.toList) :
      Place F program (ρ.putFuns ds.toList) d :=
    hpl.below (hbelow hd) (hpl.bound.2.of_mem rfl d hd)
  refine (ends_visitAll (I := fun s => View F ρ s P) (R := HeaderMade)
    (fun _ _ h hg => h.grows hg) (fun _ _ _ h hg => h.grows hg)
    (fun d hd s hs hv => ?_) hs hv).bind ?_
  · have hd' := hplace hd
    have hacc' := hacc.below (hbelow hd)
    cases d with
    | functionDec b y fs r body =>
      cases fs with
      | varChunk c fs =>
        exact hd'.functionHeader hp hacc' hseen hf (putFuns_types _) (putFuns_aside _) hs hv
  rintro s₁ ⟨hs₁, hg₁, hm⟩
  have hadds : Provides F ρ s₁ (.functionChunk a ds) := by
    refine ⟨fun x d hd => .inl ?_, fun x d hd => ?_, fun x d hd => .inl ?_⟩
    · rwa [Scope.after, (putFuns_vars ds.toList).2] at hd
    · refine (mem_of_putFuns hd).imp_right ?_
      rintro ⟨f, hmem, rfl⟩
      have hmade := hm f hmem
      cases f with
      | functionDec b y fs r body =>
        cases fs
        exact hmade.1
    · rwa [Scope.after, putFuns_types] at hd
  refine (ends_visitAll (I := fun s => View F (ρ.putFuns ds.toList) s P ∧
    ∀ d ∈ ds.toList, HeaderMade d s) (R := fun _ _ => True)
    (fun _ _ h hg => ⟨h.1.grows hg, fun d hd => (h.2 d hd).grows hg⟩) (fun _ _ _ _ _ => trivial)
    (fun d hd s hs hi => ?_) hs₁
    ⟨(hv.grows hg₁).after (t := Ast.functionChunk a ds) fun _ => hadds, hm⟩).imp ?_
  · have hd' := hplace hd
    have hacc' := hacc.below (hbelow hd)
    have hm' := hi.2 d hd
    cases d with
    | functionDec b y fs r body =>
      cases fs with
      | varChunk c fs =>
        exact (hd'.functionBody hp hn hacc' hm' hs hi.1).imp fun s' h => ⟨h.1, h.2, trivial⟩
  rintro s₂ ⟨_, hg₂, _⟩
  exact ⟨hg₁.trans hg₂, by rintro ⟨⟩, fun _ => hadds.grows hg₂⟩

/-- The body of the type declaration has its type, if it is a `RecordTy`. -/
def BodyMade (d : Ast Addr .typeDec) (s : TypeChecker) : Prop :=
  ∀ a x b gs, d = .typeDec a x (.recordTy b gs) → (s.types b).isSome = true

theorem Place.typeChunk {ds : Ast Addr (.list .typeDec)}
    (hpl : Place F program ρ (.typeChunk a ds))
    (hacc : Callees F program P acc (.typeChunk a ds)) (hs : Inv F program false L s) :
    Finishes F n acc ρ s (.typeChunk a ds) := by
  have hbelow {d : Ast Addr .typeDec} (hd : d ∈ ds.toList) : Below F (.typeChunk a ds) d :=
    ⟨rfl, _, .head _, mem_reached_of_mem hd⟩
  have hplace {d : Ast Addr .typeDec} (hd : d ∈ ds.toList) :
      Place F program (ρ.putTypes ds.toList) d :=
    hpl.below (hbelow hd) (hpl.bound.2.of_mem rfl d hd)
  refine (ends_visitAll (I := fun _ => True)
    (R := fun d s => (s.heap.nameds d.typeAddr).isSome = true) (fun _ _ _ _ => trivial)
    (fun _ _ _ h hg => hg.nameds _ h) (fun d hd s hs _ => ?_) hs trivial).bind ?_
  · have hd' := (hplace hd).mem
    cases d
    exact ⟨hs.createNamed hp hd', .createNamed, isSome_setDefault⟩
  rintro s₁ ⟨hs₁, hg₁, hm⟩
  refine (ends_visitAll (I := fun s => ∀ d ∈ ds.toList, (s.heap.nameds d.typeAddr).isSome = true)
    (R := BodyMade) (fun _ _ h hg d hd => hg.nameds _ (h d hd))
    (fun _ _ _ h hg a x b gs he => hg.types _ (h a x b gs he))
    (fun d hd s hs hi => ?_) hs₁ hm).imp ?_
  · have hd' := hplace hd
    have hacc' := hacc.below (hbelow hd)
    have hm' := hi d hd
    cases d with
    | typeDec b y ty =>
      have hty := hacc'.first (e := ty) rfl rfl rfl hd'.bound.2
      refine (hty.typeBody hp hn hd'.mem hm' hs (View.aside rfl)).imp ?_
      rintro s' ⟨hs', hg, ht⟩
      refine ⟨hs', hg, ?_⟩
      rintro a x c gs ⟨⟩
      exact ht id
  rintro s₂ ⟨_, hg₂, hb⟩
  refine ⟨hg₁.trans hg₂, by rintro ⟨⟩, fun _ => ⟨fun x d hd => .inl ?_, fun x d hd => .inl ?_,
    fun x d hd => ?_⟩⟩
  · rwa [Scope.after, (putTypes_vars ds.toList).2] at hd
  · rwa [Scope.after, putTypes_funs] at hd
  · refine (mem_of_putTypes hd).imp_right ?_
    rintro ⟨e, he, rfl⟩
    refine ⟨hg₂.nameds _ (hm e he), fun b y c gs hdec => ?_⟩
    rw [(hp.typeDec _ e).mpr ⟨(hplace he).mem, rfl⟩, Option.some_inj] at hdec
    exact hb e he b y c gs hdec

/-- **Where the checker can run, its methods come to an end.** -/
theorem Place.visit (hpl : Place F program ρ t) (hk : HasMethod k = true)
    (hacc : Callees F program (t.reached F.counted) acc t) (hseen : Seen F program acc)
    (hd : HasTypeOrInit program) (hf : PlainFormals program) (hs : Inv F program false L s)
    (hv : View F ρ s (t.reached F.counted)) : Finishes F n acc ρ s t := by
  cases t with
  | nil | cons | none | some | field | fieldInit | functionDec | typeDec => cases hk
  | castExp a e ty => exact absurd hpl.mem (hp.noCast a e ty)
  | nilExp | intExp | stringExp | breakExp =>
    exact hs.went (.refl s) hpl.mem rfl rfl fun _ => rfl
  | ofVar e | ofNameTy e =>
    refine ((hacc.first (e := e) rfl rfl rfl hpl.bound).accept hs hv).imp ?_
    rintro s' ⟨_, hw⟩
    exact ⟨hw.grows, fun _ => hw.typed rfl, fun _ => .of_not_declares rfl⟩
  | ofVarChunk c =>
    refine ((hacc.first (e := c) rfl rfl rfl hpl.bound).accept hs hv).imp ?_
    rintro s' ⟨_, hw⟩
    exact ⟨hw.grows, by rintro ⟨⟩, fun ha =>
      ⟨(hw.adds ha).vars, (hw.adds ha).funs, (hw.adds ha).types⟩⟩
  | varChunk a ds | chunkList a ds =>
    refine (ends_chunk ds (fun d hd σ hb => hacc.element (.head _) rfl rfl hd hb) hpl.bound.2 hs
      hv).imp ?_
    rintro s' ⟨hg, ha⟩
    refine ⟨hg, by rintro ⟨⟩, fun hρ => ?_⟩
    exact ⟨(ha hρ).vars, (ha hρ).funs, (ha hρ).types⟩
  | simpleVar a x => exact hpl.simpleVar hp hs hv
  | fieldVar a v x => exact hpl.fieldVar hacc hs hv
  | subscriptVar a v e => exact hpl.subscriptVar hp hn hacc hs hv
  | callExp a x args => exact hpl.callExp hp hn hseen hacc hs hv
  | opExp a l op r => exact hpl.opExp hp hn hacc hs hv
  | recordExp a ty fs => exact hpl.recordExp hp hn hacc hs hv
  | seqExp a es => exact hpl.seqExp hp hacc hs hv
  | assignExp a v e => exact hpl.assignExp hp hn hacc hs hv
  | ifExp a c th el => exact hpl.ifExp hp hn hacc hs hv
  | whileExp a c body => exact hpl.whileExp hp hn hacc hs hv
  | forExp a v hi body => exact hpl.forExp hp hn hacc hs hv
  | letExp a cs body => exact hpl.letExp hacc hs hv
  | arrayExp a ty size e => exact hpl.arrayExp hp hn hacc hs hv
  | nameTy a x => exact hpl.nameTy hs hv
  | recordTy a gs => exact hpl.recordTy hp hacc hs hv
  | arrayTy a e => exact hpl.arrayTy hp hacc hs hv
  | varDec a x o q => exact hpl.varDec hp hn hacc hd hs hv
  | functionChunk a ds => exact hpl.functionChunk hp hn hacc hseen hf hs hv
  | typeChunk a ds => exact hpl.typeChunk hp hn hacc hs

end Methods

/-- **Where the checker can run it comes to an end**, with fuel for the depth of the tree. -/
theorem Place.accept (hp : F.About program) (hd : HasTypeOrInit program)
    (hf : PlainFormals program) (hpl : Place F program ρ t) (hk : HasMethod k = true)
    (hn : t.subterms.length + 4 ≤ n) :
    Safe F program ρ (t.reached F.counted) (accept F.tree n) t := by
  induction n generalizing k ρ with
  | zero => omega
  | succ n ih =>
    have hacc : Callees F program (t.reached F.counted) (TypeChecker.accept F.tree n) t := by
      intro j e σ he hj hb
      have hlt := he.length_lt
      exact (ih (hpl.below he hb) hj (by omega)).sub he.subset
    have hpos : 0 < t.subterms.length := List.length_pos_of_mem (Ast.mem_subterms_self t)
    exact ⟨seen_accept hp (n + 1) hpl.mem hk, fun L s hs hv =>
      hpl.visit hp (by omega) hk hacc (seen_accept hp n) hd hf hs hv⟩

end TypeChecker

end TigerCompiler
