import TigerCompiler.Translate.EscapesCollector
import TigerCompiler.Type.TypeChecker
import Mathlib.Data.Finset.Prod

/-!
# Lambda lifting

What `collect_escapes` hands over to a function: the escaping variables that it uses, and at each
call those that the callee has so far.  The functions of a chunk are gone over again as long as a
call directly in one of them brings something, so a variable that a callee gets later may never
come to the caller (`passes`).  Only variables of the functions around are lifted exactly when no
function comes to need a variable of its own that way.
-/

namespace TigerCompiler

variable {f : Addr → Option Addr} {flag : Addr → Bool} {n : Nat} {k : Kind}
  {π : List Addr} {L M P : List Place} {a F G v d : Addr}

/-- The function `F` uses the escaping variable `v`, or calls a function that needs it. -/
inductive Needs (f : Addr → Option Addr) (flag : Addr → Bool) (L : List Place) :
    Addr → Addr → Prop
  | use {a F v : Addr} {π : List Addr} (ha : (.use a, F :: π) ∈ L) (hf : f a = some v)
      (hv : flag v = true) : Needs f flag L F v
  | call {a F G v : Addr} {π : List Addr} (ha : (.call a, F :: π) ∈ L) (hf : f a = some G)
      (hG : Needs f flag L G v) : Needs f flag L F v

/-- `Needs` as the places give it one after the other: a call counts with what its callee needs
by the places before it. -/
inductive NeedsInOrder (f : Addr → Option Addr) (flag : Addr → Bool) :
    List Place → Addr → Addr → Prop
  | use {P : List Place} {a F v : Addr} {π : List Addr} (ha : (.use a, F :: π) ∈ P)
      (hf : f a = some v) (hv : flag v = true) : NeedsInOrder f flag P F v
  | call {P Q : List Place} {a F G v : Addr} {π : List Addr} (hf : f a = some G)
      (hG : NeedsInOrder f flag P G v) : NeedsInOrder f flag (P ++ (.call a, F :: π) :: Q) F v

theorem NeedsInOrder.append_right (h : NeedsInOrder f flag P F v) :
    NeedsInOrder f flag (P ++ M) F v := by
  cases h with
  | use ha hf hv => exact .use (List.mem_append_left M ha) hf hv
  | call hf hG =>
    rw [List.append_assoc, List.cons_append]
    exact .call hf hG

theorem not_needsInOrder_nil : ¬ NeedsInOrder f flag [] F v := by
  intro h
  generalize hP : ([] : List Place) = P at h
  cases h <;> simp_all

/-- What one more place adds. -/
theorem needsInOrder_concat {p : Place} : NeedsInOrder f flag (P ++ [p]) F v ↔
    NeedsInOrder f flag P F v ∨
      (∃ a π, p = (.use a, F :: π) ∧ f a = some v ∧ flag v = true) ∨
      ∃ a π G, p = (.call a, F :: π) ∧ f a = some G ∧ NeedsInOrder f flag P G v := by
  constructor
  · intro h
    generalize hP : P ++ [p] = P' at h
    cases h with
    | use ha hf hv =>
      subst hP
      rcases List.mem_append.mp ha with ha | ha
      · exact .inl (.use ha hf hv)
      · exact .inr (.inl ⟨_, _, (List.mem_singleton.mp ha).symm, hf, hv⟩)
    | @call P₁ Q a F G v π hf hG =>
      rcases Q.eq_nil_or_concat' with rfl | ⟨Q, q, rfl⟩
      · obtain ⟨rfl, hp⟩ := List.append_inj' hP rfl
        exact .inr (.inr ⟨a, π, G, by simpa using hp, hf, hG⟩)
      · rw [← List.cons_append, ← List.append_assoc] at hP
        obtain ⟨rfl, -⟩ := List.append_inj' hP rfl
        exact .inl (.call hf hG)
  · rintro (h | ⟨a, π, rfl, hf, hv⟩ | ⟨a, π, G, rfl, hf, hG⟩)
    · exact h.append_right
    · exact .use (List.mem_append_right P (.head _)) hf hv
    · exact .call hf hG

/-- What a place adds to the pairs of a function and a variable it needs. -/
def gains (f : Addr → Option Addr) (flag : Addr → Bool) (N : List (Addr × Addr)) :
    Place → List (Addr × Addr)
  | (.use a, F :: _) => ((f a).filter flag).toList.map (F, ·)
  | (.call a, F :: _) => (N.filter fun q => f a = some q.1).map (F, ·.2)
  | _ => []

theorem mem_gains {N : List (Addr × Addr)} {p : Place} : (F, v) ∈ gains f flag N p ↔
    (∃ a π, p = (.use a, F :: π) ∧ f a = some v ∧ flag v = true) ∨
      ∃ a π G, p = (.call a, F :: π) ∧ f a = some G ∧ (G, v) ∈ N := by
  obtain ⟨m, π⟩ := p
  cases m with
  | «variable» d | function g => simp [gains]
  | use a =>
    cases π with
    | nil => simp [gains]
    | cons F' π =>
      simp only [gains, List.mem_map, Option.mem_toList, Option.filter_eq_some_iff,
        Prod.mk.injEq, Mention.use.injEq, List.cons.injEq, reduceCtorEq, false_and,
        exists_false, or_false]
      grind
  | call a =>
    cases π with
    | nil => simp [gains]
    | cons F' π =>
      simp only [gains, List.mem_map, List.mem_filter, decide_eq_true_eq, Prod.mk.injEq,
        Mention.call.injEq, List.cons.injEq, reduceCtorEq, false_and, exists_false, false_or,
        Prod.exists]
      grind

/-- The needs can be computed. -/
theorem needsInOrder_iff_mem : NeedsInOrder f flag P F v ↔
    (F, v) ∈ P.foldl (fun N p => N ++ gains f flag N p) [] := by
  induction P using List.reverseRecOn generalizing F v with
  | nil => exact iff_of_false not_needsInOrder_nil nofun
  | append_singleton P p ih =>
    simp only [List.foldl_append, List.foldl_cons, List.foldl_nil, List.mem_append, mem_gains,
      needsInOrder_concat, ih]

instance : Decidable (NeedsInOrder f flag P F v) := decidable_of_iff _ needsInOrder_iff_mem.symm

/-- The place is a call of a function that needs a variable, by the places before, which the
function around the call does not need by them. -/
def Brings (f : Addr → Option Addr) (flag : Addr → Bool) (P : List Place) (p : Place) : Prop :=
  ∃ a F π G v, p = (.call a, F :: π) ∧ f a = some G ∧ NeedsInOrder f flag P G v ∧
    ¬ NeedsInOrder f flag P F v

namespace EscapesCollector

variable {s s' s₁ s₂ : EscapesCollector} {actual : Option Addr}

/-- The set of `F` has `v`. -/
def Holds (s : EscapesCollector) (F v : Addr) : Prop := ∃ set, s.escaped F = some set ∧ v ∈ set

instance : Decidable (s.Holds F v) :=
  decidable_of_iff ((s.escaped F).any (v ∈ ·) = true) (by simp [Holds, Option.any_eq_true])

/-- What `operator()(SimpleVar)` adds. -/
theorem simpleVar_holds {o : Option Addr} (h : s.simpleVar flag actual o = .ok s') :
    s'.Holds F v ↔ s.Holds F v ∨ (actual = some F ∧ o = some v ∧ flag v = true) := by
  cases o with
  | none => simp [simpleVar] at h
  | some d =>
    by_cases hd : flag d = true
    · cases actual with
      | none => simp [simpleVar, hd] at h
      | some c =>
        cases hc : s.escaped c with
        | none => simp [simpleVar, hd, hc] at h
        | some set =>
          simp only [simpleVar, hd, if_true, hc, Except.ok.injEq] at h
          subst h
          by_cases hF : F = c
          · subst hF
            simp [Holds, hc]
            grind
          · simp [Holds, Function.update_of_ne hF, Ne.symm hF]
    · simp only [simpleVar, hd, if_false, Except.ok.injEq, Bool.false_eq_true] at h
      grind

/-- What `operator()(CallExp)` adds. -/
theorem callExp_holds {o : Option Addr} (h : s.callExp actual o = .ok s') :
    s'.Holds F v ↔ s.Holds F v ∨ (actual = some F ∧ ∃ g, o = some g ∧ s.Holds g v) := by
  cases o with
  | none => simp_all [callExp]
  | some g =>
    cases hg : s.escaped g with
    | none =>
      simp only [callExp, hg, Except.ok.injEq] at h
      simp [← h, Holds, hg]
    | some callee =>
      cases actual with
      | none => simp [callExp, hg] at h
      | some c =>
        cases hc : s.escaped c with
        | none => simp [callExp, hg, hc] at h
        | some set =>
          simp only [callExp, hg, hc, Except.ok.injEq] at h
          subst h
          by_cases hF : F = c
          · subst hF
            simp [Holds, hc, hg]
          · simp [Holds, Function.update_of_ne hF, Ne.symm hF]

/-- `operator()(SimpleVar)` leaves `did_modify_` as it is. -/
theorem simpleVar_didModify {o : Option Addr} (h : s.simpleVar flag actual o = .ok s') :
    s'.didModify = s.didModify := by
  unfold simpleVar at h
  grind

/-- When `operator()(CallExp)` sets `did_modify_`. -/
theorem callExp_didModify {o : Option Addr} (h : s.callExp actual o = .ok s') :
    s'.didModify = true ↔ s.didModify = true ∨
      ∃ F g v, actual = some F ∧ o = some g ∧ s.Holds g v ∧ ¬ s.Holds F v := by
  cases o with
  | none => simp_all [callExp]
  | some g =>
    cases hg : s.escaped g with
    | none =>
      simp only [callExp, hg, Except.ok.injEq] at h
      simp [← h, Holds, hg]
    | some callee =>
      cases actual with
      | none => simp [callExp, hg] at h
      | some c =>
        cases hc : s.escaped c with
        | none => simp [callExp, hg, hc] at h
        | some set =>
          simp only [callExp, hg, hc, Except.ok.injEq] at h
          simp [← h, Holds, hg, hc, Finset.not_subset]

@[simp] theorem enter_didModify : (s.enter a).didModify = s.didModify := by
  unfold enter
  split <;> rfl

@[simp] theorem enter_holds : (s.enter a).Holds F v ↔ s.Holds F v := by
  unfold enter
  split
  · rfl
  · rename_i ha
    rw [Bool.not_eq_true, Option.isSome_eq_false_iff, Option.isNone_iff_eq_none] at ha
    by_cases hF : F = a
    · subst hF
      simp [Holds, ha]
    · simp [Holds, Function.update_of_ne hF]

/-! ## The loop -/

variable {E : Stop → Prop} {I : EscapesCollector → Prop}
  {pass : EscapesCollector → Except Stop EscapesCollector}

/-- What a pass keeps whatever the flag, the loop keeps. -/
theorem ends_whileModified (hE : E .outOfFuel)
    (hpass : ∀ s, I s → Ends E I (pass { s with didModify := false })) (hs : I s) :
    Ends E I (whileModified pass n s) := by
  induction n generalizing s with
  | zero =>
    cases h : s.didModify <;> simp [whileModified, h, Ends, hs, hE]
  | succ n ih =>
    cases h : s.didModify with
    | false => simpa [whileModified, h, Ends] using hs
    | true =>
      simp only [whileModified, h, if_true]
      exact (hpass s hs).bind fun s₁ hs₁ => ih hs₁

/-- What the first pass gives and the further passes keep holds after the loop. -/
theorem ends_functionChunk {empty : Bool} (hE : E .outOfFuel)
    (hI : ∀ s b, I s → I { s with didModify := b }) (hempty : empty = true → I s)
    (hfirst : Ends E I (pass { s with didModify := false }))
    (hagain : ∀ s, I s → Ends E I (pass { s with didModify := false })) :
    Ends E I (s.functionChunk n empty pass) := by
  refine Ends.bind (I := I) ?_ fun s₁ hs₁ => hI s₁ _ hs₁
  cases empty with
  | true => exact ends_whileModified hE hagain (hI s _ (hempty rfl))
  | false =>
    cases n with
    | zero => exact hE
    | succ n => exact hfirst.bind fun s₁ hs₁ => ends_whileModified hE hagain hs₁

/-! ## The members of the sets -/

/-- **A set has only what its function needs.** -/
theorem upper (f : Addr → Option Addr) (flag : Addr → Bool) (n : Nat) (L : List Place) :
    Rules f flag n L (fun _ => True) (fun _ s => ∀ F v, s.Holds F v → Needs f flag L F v)
      (fun _ _ _ _ => True) where
  nil _ _ := trivial
  append _ _ := trivial
  declare _ _ _ := trivial
  use {π a s} hL hs := by
    cases h : s.simpleVar flag π.head? (f a) with
    | error e => trivial
    | ok s' =>
      refine ⟨fun F v hF => ?_, trivial⟩
      rcases (simpleVar_holds h).mp hF with hF | ⟨hF, hf, hv⟩
      · exact hs F v hF
      · obtain ⟨σ, rfl⟩ := List.head?_eq_some_iff.mp hF
        exact .use hL hf hv
  call {π a s} hL hs := by
    cases h : s.callExp π.head? (f a) with
    | error e => trivial
    | ok s' =>
      refine ⟨fun F v hF => ?_, trivial⟩
      rcases (callExp_holds h).mp hF with hF | ⟨hF, G, hf, hG⟩
      · exact hs F v hF
      · obtain ⟨σ, rfl⟩ := List.head?_eq_some_iff.mp hF
        exact .call hL hf (hs G v hG)
  enter _ hs F v hF := hs F v (enter_holds.mp hF)
  leave hs _ := ⟨hs, trivial⟩
  chunk {π s ds pass} _ hs hpass := by
    have hagain (s : EscapesCollector) (hs : ∀ F v, s.Holds F v → Needs f flag L F v) :
        Ends (fun _ => True) (fun s => ∀ F v, s.Holds F v → Needs f flag L F v)
          (pass { s with didModify := false }) :=
      (hpass { s with didModify := false } hs).imp fun _ h => h.1
    exact (ends_functionChunk trivial (fun _ _ h => h) (fun _ => hs) (hagain s hs) hagain).imp
      fun _ h => ⟨h, trivial⟩

/-! ## The passes -/

/-- The sets have what is needed by the places `P`, and nothing else. -/
def Exact (f : Addr → Option Addr) (flag : Addr → Bool) (P : List Place)
    (s : EscapesCollector) : Prop := ∀ F v, s.Holds F v ↔ NeedsInOrder f flag P F v

/-- The blocks are gone over, each set gets what its function needs, and `did_modify_` is set
when a call outside their loops has brought something. -/
def Passes (f : Addr → Option Addr) (flag : Addr → Bool) (M : Blocks Place)
    (s s' : EscapesCollector) : Prop :=
  ∀ P, s.Exact f flag P → ∃ T b, Blocks.GoneOver (Brings f flag) P M T b ∧
    s'.Exact f flag (P ++ T) ∧ s'.didModify = (s.didModify || b)

variable {M M' : Blocks Place}

/-- A place that is no call. -/
theorem Passes.one {p : Place} (hp : ∀ a π, p ≠ (.call a, π))
    (hs : ∀ P, s.Exact f flag P → s'.Exact f flag (P ++ [p])) (hm : s'.didModify = s.didModify) :
    Passes f flag (.one p) s s' := by
  refine fun P hP => ⟨[p], false, .pass ?_ (.nil _), hs P hP, by simp [hm]⟩
  rintro ⟨a, F, π, G, v, rfl, -⟩
  exact hp a _ rfl

/-- A declaration adds no need. -/
theorem Exact.declare {p : Place} (h : s.Exact f flag P) (hu : ∀ a π, p ≠ (.use a, π))
    (hc : ∀ a π, p ≠ (.call a, π)) : s.Exact f flag (P ++ [p]) := by
  intro F v
  rw [h F v, needsInOrder_concat]
  grind

/-- `while (did_modify_)`, the first time round. -/
theorem passes_whileModified {pass : EscapesCollector → Except Stop EscapesCollector}
    (hpass : ∀ s, Ends (fun _ => True) (Passes f flag M s) (pass s)) (hs : s.Exact f flag P)
    (hm : s.didModify = true) :
    Ends (fun _ => True) (fun s' => ∃ T, Blocks.GoneOver (Brings f flag) P (.loop M .nil) T false ∧
      s'.Exact f flag (P ++ T)) (whileModified pass n s) := by
  induction n generalizing s P with
  | zero => simp [whileModified, hm, Ends]
  | succ n ih =>
    simp only [whileModified, hm, if_true]
    refine (hpass { s with didModify := false }).bind fun s₁ h₁ => ?_
    obtain ⟨T, b, hT, hs₁, hm₁⟩ := h₁ P hs
    rw [Bool.false_or] at hm₁
    cases b with
    | false =>
      have hend : whileModified pass n s₁ = .ok s₁ := by cases n <;> simp [whileModified, hm₁]
      rw [hend]
      exact ⟨T ++ [], .last hT (.nil _), by simpa using hs₁⟩
    | true =>
      refine (ih hs₁ hm₁).imp fun s₂ h₂ => ?_
      obtain ⟨T', hT', hs₂⟩ := h₂
      exact ⟨T ++ T', .again hT hT', by simpa using hs₂⟩

/-- **The sets have what the functions need by the places gone over.** -/
theorem passes (f : Addr → Option Addr) (flag : Addr → Bool) (n : Nat) (L : List Place) :
    Rules f flag n L (fun _ => True) (fun _ _ => True) (fun _ => Passes f flag) where
  nil _ s P hP := ⟨[], false, .nil P, by simpa using hP, by simp⟩
  append h h' P hP := by
    obtain ⟨T, b, hT, hs₁, hm₁⟩ := h P hP
    obtain ⟨T', b', hT', hs₂, hm₂⟩ := h' _ hs₁
    exact ⟨T ++ T', b || b', hT.append hT', by simpa using hs₂, by
      rw [hm₂, hm₁, Bool.or_assoc]⟩
  declare _ _ _ := .one nofun (fun P hP => hP.declare nofun nofun) rfl
  use {π a s} _ _ := by
    cases h : s.simpleVar flag π.head? (f a) with
    | error e => trivial
    | ok s' =>
      refine ⟨trivial, .one nofun (fun P hP F v => ?_) (simpleVar_didModify h)⟩
      rw [simpleVar_holds h, hP F v, needsInOrder_concat, List.head?_eq_some_iff]
      grind
  call {π a s} _ _ := by
    cases h : s.callExp π.head? (f a) with
    | error e => trivial
    | ok s' =>
      refine ⟨trivial, fun P hP => ?_⟩
      have hs' : s'.Exact f flag (P ++ [(.call a, π)]) := by
        intro F v
        rw [callExp_holds h, hP F v, needsInOrder_concat, List.head?_eq_some_iff]
        grind [Exact]
      have hm : s'.didModify = true ↔ s.didModify = true ∨ Brings f flag P (.call a, π) := by
        rw [callExp_didModify h]
        simp only [hP _ _, Brings, List.head?_eq_some_iff]
        grind
      by_cases hb : Brings f flag P (.call a, π)
      · exact ⟨_, true, .bring hb (.nil _), hs', by simpa using hm.mpr (.inr hb)⟩
      · refine ⟨_, false, .pass hb (.nil _), hs', ?_⟩
        rw [Bool.or_false, Bool.eq_iff_iff, hm, or_iff_left hb]
  enter _ _ := trivial
  leave {π a M s s'} _ hM := by
    refine ⟨trivial, fun P hP => ?_⟩
    have hP' : (s.enter a).Exact f flag P := fun F v => enter_holds.trans (hP F v)
    obtain ⟨T, b, hT, hs', hm⟩ := hM _ (hP'.declare (p := (.function a, π)) nofun nofun)
    refine ⟨_, b, .pass ?_ hT, by simpa using hs', by simpa using hm⟩
    rintro ⟨_, _, _, _, _, ⟨⟩, _⟩
  chunk {π s ds pass} _ _ hpass := by
    cases hds : ds with
    | nil =>
      have hend : whileModified pass n { s with didModify := false } =
          .ok { s with didModify := false } := by cases n <;> simp [whileModified]
      simp only [functionChunk, Ast.toList_nil, List.isEmpty_nil, Bool.not_true, hend]
      exact ⟨trivial, fun P hP => ⟨_, false, .last (.nil P) (.nil _), by simpa using hP, by simp⟩⟩
    | cons d ds' =>
      have hpass' (s : EscapesCollector) :
          Ends (fun _ => True) (Passes f flag (ds.blocks π) s) (pass s) :=
        (hpass s trivial).imp fun _ h => h.2
      rw [← hds]
      -- the places before the chunk are the same for every pass
      cases hw : whileModified pass n { s with didModify := !ds.toList.isEmpty } with
      | error e =>
        simp only [functionChunk, hw]
        trivial
      | ok s₁ =>
        simp only [functionChunk, hw]
        refine ⟨trivial, fun P hP => ?_⟩
        have hloop := passes_whileModified (n := n) hpass'
          (s := { s with didModify := !ds.toList.isEmpty }) hP (by simp [hds])
        rw [hw] at hloop
        obtain ⟨T, hT, hs₁⟩ := hloop
        exact ⟨T, false, hT, hs₁, by simp⟩

/-! ## The end of the loops -/

/-- The functions `π` have their sets. -/
def Made (π : List Addr) (s : EscapesCollector) : Prop := ∀ F ∈ π, (s.escaped F).isSome = true

/-- Nothing leaves a set, and the flag is raised only if something new came to one. -/
structure Grows (s s' : EscapesCollector) : Prop where
  keep : ∀ F v, s.Holds F v → s'.Holds F v
  raise : s'.didModify = true → s.didModify = true ∨ ∃ F v, s'.Holds F v ∧ ¬ s.Holds F v

theorem Grows.refl (s : EscapesCollector) : Grows s s := ⟨fun _ _ h => h, .inl⟩

theorem Grows.trans (h : Grows s s₁) (h' : Grows s₁ s₂) : Grows s s₂ where
  keep F v hF := h'.keep F v (h.keep F v hF)
  raise hm := by
    rcases h'.raise hm with hm | ⟨F, v, hF, hn⟩
    · rcases h.raise hm with hm | ⟨F, v, hF, hn⟩
      · exact .inl hm
      · exact .inr ⟨F, v, h'.keep F v hF, hn⟩
    · exact .inr ⟨F, v, hF, fun hs => hn (h.keep F v hs)⟩

theorem simpleVar_ok (flag : Addr → Bool) (v : Addr) {c : Addr}
    (hc : (s.escaped c).isSome = true) :
    ∃ s', s.simpleVar flag (some c) (some v) = .ok s' ∧ s'.didModify = s.didModify ∧
      ∀ F, (s'.escaped F).isSome = (s.escaped F).isSome := by
  obtain ⟨set, hset⟩ := Option.isSome_iff_exists.mp hc
  by_cases hv : flag v = true
  · refine ⟨{ s with escaped := Function.update s.escaped c (some (insert v set)) },
      by simp [simpleVar, hv, hset], rfl, fun F => ?_⟩
    by_cases hF : F = c
    · simp [hF, hset]
    · simp [Function.update_of_ne hF]
  · exact ⟨s, by simp [simpleVar, hv], rfl, fun _ => rfl⟩

theorem callExp_ok {c : Addr} (hc : (s.escaped c).isSome = true) :
    ∃ s', s.callExp (some c) (some G) = .ok s' ∧
      (s'.didModify = true → s.didModify = true ∨ ∃ F v, s'.Holds F v ∧ ¬ s.Holds F v) ∧
      ∀ F, (s'.escaped F).isSome = (s.escaped F).isSome := by
  obtain ⟨set, hset⟩ := Option.isSome_iff_exists.mp hc
  cases hG : s.escaped G with
  | none => exact ⟨s, by simp [callExp, hG], .inl, fun _ => rfl⟩
  | some callee =>
    refine ⟨{ escaped := Function.update s.escaped c (some (set ∪ callee))
              didModify := s.didModify || decide (¬ callee ⊆ set) },
      by simp only [callExp, hG, hset], fun hm => ?_, fun F => ?_⟩
    · simp only [Bool.or_eq_true, decide_eq_true_eq] at hm
      refine hm.imp_right fun hm => ?_
      obtain ⟨v, hv, hn⟩ := Finset.not_subset.mp hm
      refine ⟨c, v, ?_, ?_⟩
      · simp [Holds, hv]
      · simp [Holds, hset, hn]
    · by_cases hF : F = c
      · simp [hF, hset]
      · simp [Function.update_of_ne hF]

theorem enter_made (hs : Made π s) (a : Addr) : Made (a :: π) (s.enter a) := by
  intro F hF
  unfold enter
  split
  · rename_i ha
    rcases List.mem_cons.mp hF with rfl | hF
    · exact ha
    · exact hs F hF
  · by_cases hFa : F = a
    · simp [hFa]
    · simpa [Function.update_of_ne hFa] using hs F (List.mem_of_ne_of_mem hFa hF)

theorem enter_grows (s : EscapesCollector) (a : Addr) : Grows s (s.enter a) where
  keep F v h := enter_holds.mpr h
  raise h := by
    unfold enter at h
    split at h
    · exact .inl h
    · exact .inl h

/-- The pairs of a function and a variable that may come together. -/
def pairs (f : Addr → Option Addr) (L : List Place) : Finset (Addr × Addr) :=
  (L.flatMap (·.2)).toFinset ×ˢ (L.filterMap fun p => f p.1.node).toFinset

theorem mem_pairs (h : Needs f flag L F v) : (F, v) ∈ pairs f L := by
  have hmem {m : Mention} {F : Addr} {π : List Addr} (h : (m, F :: π) ∈ L) :
      F ∈ L.flatMap (·.2) := List.mem_flatMap.mpr ⟨_, h, .head _⟩
  induction h with
  | use ha hf hv =>
    refine Finset.mem_product.mpr ⟨List.mem_toFinset.mpr (hmem ha), ?_⟩
    exact List.mem_toFinset.mpr (List.mem_filterMap.mpr ⟨_, ha, hf⟩)
  | call ha hf hG ih =>
    exact Finset.mem_product.mpr ⟨List.mem_toFinset.mpr (hmem ha), (Finset.mem_product.mp ih).2⟩

/-- How many of the pairs have come together. -/
def weight (U : Finset (Addr × Addr)) (s : EscapesCollector) : Nat :=
  (U.filter fun p => s.Holds p.1 p.2).card

theorem weight_le (U : Finset (Addr × Addr)) (s : EscapesCollector) : weight U s ≤ U.card :=
  Finset.card_filter_le U _

theorem weight_lt {U : Finset (Addr × Addr)} (h : Grows s s')
    (hU : ∀ F v, s'.Holds F v → (F, v) ∈ U) (hn : ∃ F v, s'.Holds F v ∧ ¬ s.Holds F v) :
    weight U s < weight U s' := by
  obtain ⟨F, v, hF, hn⟩ := hn
  refine Finset.card_lt_card (Finset.ssubset_iff_of_subset ?_ |>.mpr ⟨(F, v), ?_, ?_⟩)
  · exact Finset.monotone_filter_right U fun p _ => h.keep p.1 p.2
  · exact Finset.mem_filter.mpr ⟨hU F v hF, hF⟩
  · exact fun hm => hn (Finset.mem_filter.mp hm).2

/-- Enough fuel for every pass that brings pairs together, and one more. -/
theorem whileModified_isOk {U : Finset (Addr × Addr)} {I : EscapesCollector → Prop}
    {pass : EscapesCollector → Except Stop EscapesCollector}
    (hU : ∀ s, I s → ∀ F v, s.Holds F v → (F, v) ∈ U)
    (hI : ∀ s b, I s → I { s with didModify := b })
    (hpass : ∀ s, I s → ∃ s', pass s = .ok s' ∧ I s' ∧ Grows s s') (hs : I s)
    (hn : s.didModify = true → U.card < n + weight U s) :
    ∃ s', whileModified pass n s = .ok s' ∧ I s' ∧ ∀ F v, s.Holds F v → s'.Holds F v := by
  induction n generalizing s with
  | zero =>
    have hle := weight_le U s
    cases h : s.didModify with
    | false => exact ⟨s, by simp [whileModified, h], hs, fun _ _ => id⟩
    | true =>
      have := hn h
      omega
  | succ n ih =>
    cases h : s.didModify with
    | false => exact ⟨s, by simp [whileModified, h], hs, fun _ _ => id⟩
    | true =>
      obtain ⟨s₁, hp, hs₁, hg⟩ := hpass { s with didModify := false } (hI s _ hs)
      have hsame : weight U { s with didModify := false } = weight U s := rfl
      obtain ⟨s', hw, hs', hg'⟩ := ih hs₁ fun hm => by
        have hlt := weight_lt hg (hU s₁ hs₁) ((hg.raise hm).resolve_left (by simp))
        have := hn h
        omega
      refine ⟨s', ?_, hs', fun F v hF => hg' F v (hg.keep F v hF)⟩
      simp only [whileModified, h, if_true, hp, ok_bind, hw]

/-- **The visit comes to its end**, where the uses and the calls are bound and stand inside
functions. -/
theorem ending (flag : Addr → Bool) (hr : Resolved f L L)
    (hL : ∀ a, (.use a, []) ∉ L ∧ (.call a, []) ∉ L) (hn : (pairs f L).card < n) :
    Rules f flag n L (fun _ => False)
      (fun π s => Made π s ∧ ∀ F v, s.Holds F v → Needs f flag L F v)
      (fun _ _ s s' => Grows s s') where
  nil _ s := .refl s
  append h h' := h.trans h'
  declare _ _ s := .refl s
  use {π a s} ha hs := by
    obtain ⟨v, τ, hf, -, -⟩ := hr.use a π ha
    cases π with
    | nil => exact absurd ha (hL a).1
    | cons c σ =>
      obtain ⟨s', he, hm, hkeys⟩ := simpleVar_ok flag v (hs.1 c (.head _))
      have hsound := (upper f flag n L).use ha hs.2
      rw [hf] at hsound ⊢
      rw [List.head?_cons, he] at hsound ⊢
      refine ⟨⟨fun F hF => (hkeys F).trans (hs.1 F hF), hsound.1⟩, fun F v hF => ?_, fun h => ?_⟩
      · exact (simpleVar_holds he).mpr (.inl hF)
      · exact .inl (hm ▸ h)
  call {π a s} ha hs := by
    obtain ⟨G, τ, hf, -, -⟩ := hr.call a π ha
    cases π with
    | nil => exact absurd ha (hL a).2
    | cons c σ =>
      obtain ⟨s', he, hm, hkeys⟩ := callExp_ok (G := G) (hs.1 c (.head _))
      have hsound := (upper f flag n L).call ha hs.2
      rw [hf] at hsound ⊢
      rw [List.head?_cons, he] at hsound ⊢
      refine ⟨⟨fun F hF => (hkeys F).trans (hs.1 F hF), hsound.1⟩, fun F v hF => ?_, hm⟩
      exact (callExp_holds he).mpr (.inl hF)
  enter {π a s} _ hs := ⟨enter_made hs.1 a, fun F v hF => hs.2 F v (enter_holds.mp hF)⟩
  leave hs hM :=
    ⟨⟨fun F hF => hs.1 F (.tail _ hF), hs.2⟩, (enter_grows _ _).trans hM⟩
  chunk {π s ds pass} _ hs hpass := by
    have hstep (s : EscapesCollector)
        (hs : Made π s ∧ ∀ F v, s.Holds F v → Needs f flag L F v) :
        ∃ s', pass s = .ok s' ∧ (Made π s' ∧ ∀ F v, s'.Holds F v → Needs f flag L F v) ∧
          Grows s s' := (hpass s hs).exists_ok
    obtain ⟨s', hw, hs', hg⟩ := whileModified_isOk (fun s hs F v hF => mem_pairs (hs.2 F v hF))
      (fun s b hs => hs) hstep (s := { s with didModify := !ds.toList.isEmpty }) (n := n) hs
      (fun _ => by omega)
    rw [functionChunk, hw]
    exact ⟨hs', hg, .inl⟩

end EscapesCollector

open EscapesCollector

variable {program : Ast Addr .chunkList} {s : EscapesCollector}

/-! ## A run -/

theorem not_holds_empty : ¬ ({} : EscapesCollector).Holds F v := by
  simp [Holds]

/-- A run gives each function what it needs by the places gone over. -/
theorem goneOver_of_collectEscapes (h : collectEscapes f flag n program = .ok s) :
    ∃ T b, Blocks.GoneOver (Brings f flag) [] (program.blocks []) T b ∧ s.Exact f flag T := by
  have hp := (passes f flag n (program.places [])).collect trivial
  rw [h] at hp
  obtain ⟨T, b, hT, hs, -⟩ := hp.2 [] fun F v => iff_of_false not_holds_empty not_needsInOrder_nil
  exact ⟨T, b, hT, hs⟩

/-- Every run comes to its end. -/
theorem exists_collectEscapes (flag : Addr → Bool)
    (hr : Resolved f (program.places []) (program.places []))
    (hL : ∀ a, (.use a, []) ∉ program.places [] ∧ (.call a, []) ∉ program.places [])
    (hn : (pairs f (program.places [])).card < n) :
    ∃ s, collectEscapes f flag n program = .ok s := by
  have he := (ending flag hr hL hn).collect
    ⟨nofun, fun F v h => (not_holds_empty h).elim⟩
  exact he.exists_ok.imp fun s h => h.1

/-! ## Only foreign variables -/

/-- No function has `N` of a variable that it declares itself, or that no function declares. -/
def OnlyForeign (L : List Place) (N : Addr → Addr → Prop) : Prop :=
  ∀ F π v, (.function F, π) ∈ L → N F v → (.variable v, F :: π) ∉ L ∧ (.variable v, []) ∉ L

/-- With enough fuel a run comes to its end, and the variables of the set of a function are
declared in functions that strictly enclose it. -/
def LiftsOnlyForeign (f : Addr → Option Addr) (flag : Addr → Bool)
    (program : Ast Addr .chunkList) : Prop :=
  ∃ n₀, ∀ n ≥ n₀, ∃ s, collectEscapes f flag n program = .ok s ∧
    ∀ F π, (.function F, π) ∈ program.places [] → ∀ v, s.Holds F v →
      ∃ D σ, (.variable v, D :: σ) ∈ program.places [] ∧ D :: σ <:+ π

/-- What a function needs is declared in it or around it. -/
theorem NeedsInOrder.declared (hn : program.nodes.Nodup)
    (hr : Resolved f (program.places []) (program.places [])) {T : List Place}
    (hT : T ⊆ program.places [])
    (ho : OnlyForeign (program.places []) (NeedsInOrder f flag T))
    (h : NeedsInOrder f flag P F v) (hP : P <+: T) (hF : (.function F, π) ∈ program.places []) :
    ∃ σ, (.variable v, σ) ∈ program.places [] ∧ σ <:+ F :: π := by
  have hpath {m : Mention} {F : Addr} {π σ : List Addr} (hm : (m, F :: σ) ∈ T)
      (hF : (.function F, π) ∈ program.places []) : σ = π := by
    rcases Ast.function_mem_places (hT hm) with hs | hs
    · simp at hs
    · exact Ast.places_unique hn hs hF
  induction h generalizing π with
  | use ha hf hv =>
    obtain ⟨d, τ, hd, hτ, hs⟩ := hr.use _ _ (hT (hP.subset ha))
    rw [hf, Option.some.injEq] at hd
    subst hd
    exact ⟨τ, hτ, hpath (hP.subset ha) hF ▸ hs⟩
  | @call P Q a F G v σ hf hG ih =>
    have ha : (.call a, F :: σ) ∈ T := hP.subset (by simp)
    have hP' : P <+: T := (List.prefix_append _ _).trans hP
    obtain ⟨G, τ, hd, hτ, hs⟩ := hr.call _ _ (hT ha)
    rw [hf, Option.some.injEq] at hd
    subst hd
    obtain ⟨σ', hσ, hσs⟩ := ih hP' hτ
    rcases List.suffix_cons_iff.mp hσs with rfl | hσs
    · obtain ⟨Q', rfl⟩ := hP'
      exact absurd hσ (ho _ _ _ hτ hG.append_right).1
    · exact ⟨σ', hσ, hpath ha hF ▸ hσs.trans hs⟩

theorem resolved_program (hb : Scope.Everywhere (LexicallyBound f) {} program) :
    Resolved f (program.places []) (program.places []) :=
  bound_places hb ⟨nofun, nofun⟩ (List.Subset.refl _)

/-- `let var v := 1 function g() : int = h() function h() : int = v in g() end` as a program. -/
def usedTooLate : Ast Addr .chunkList :=
  .chunkList 0 (.ofList [.functionChunk 1 (.ofList [.functionDec 2 "_main".toList
    (.varChunk 3 .nil) .none (.some (.seqExp 4 (.ofList [
      .letExp 5
        (.chunkList 6 (.ofList [
          .ofVarChunk (.varChunk 7 (.ofList [.varDec 8 "v".toList .none (.some (.intExp 9 1))])),
          .functionChunk 10 (.ofList [
            .functionDec 11 "g".toList (.varChunk 12 .nil) (.some (.nameTy 13 "int".toList))
              (.some (.callExp 14 "h".toList .nil)),
            .functionDec 15 "h".toList (.varChunk 16 .nil) (.some (.nameTy 17 "int".toList))
              (.some (.ofVar (.simpleVar 18 "v".toList)))])]))
        (.seqExp 19 (.ofList [.callExp 20 "g".toList .nil])),
      .seqExp 21 .nil])))])])

/-- The `def_` members of `usedTooLate`. -/
def usedTooLateDefs (a : Addr) : Option Addr := [(14, 15), (18, 8), (20, 11)].lookup a

/-- The places of `usedTooLate`, each gone over once. -/
def usedTooLatePlaces : List Place :=
  [(.function 2, []), (.variable 8, [2]), (.function 11, [2]), (.call 14, [11, 2]),
    (.function 15, [2]), (.use 18, [15, 2]), (.call 20, [2])]

theorem usedTooLate_places : usedTooLate.places [] = usedTooLatePlaces := rfl

/-- The call of `h` comes before the use in `h`, and no call brings anything: there is one pass. -/
theorem usedTooLate_goneOver {flag : Addr → Bool} :
    Blocks.GoneOver (Brings usedTooLateDefs flag) [] (usedTooLate.blocks []) usedTooLatePlaces
      false := by
  have hdec {P : List Place} {m : Mention} {σ : List Addr} (hm : ∀ a, m ≠ .call a) :
      ¬ Brings usedTooLateDefs flag P (m, σ) := by
    rintro ⟨a, F, π, G, v, hp, -⟩
    exact hm a (Prod.mk.inj hp).1
  have h₁₄ : ¬ Brings usedTooLateDefs flag
      [(.function 2, []), (.variable 8, [2]), (.function 11, [2])] (.call 14, [11, 2]) := by
    rintro ⟨a, F, π, G, v, -, -, hG, -⟩
    simp [needsInOrder_iff_mem, gains] at hG
  have h₂₀ : ¬ Brings usedTooLateDefs flag
      [(.function 2, []), (.variable 8, [2]), (.function 11, [2]), (.call 14, [11, 2]),
        (.function 15, [2]), (.use 18, [15, 2])] (.call 20, [2]) := by
    rintro ⟨a, F, π, G, v, hp, hf, hG, -⟩
    cases hp
    cases hf
    simp [needsInOrder_iff_mem, gains] at hG
  refine .last (.pass (hdec ?_) (.pass (hdec ?_) (.last (.pass (hdec ?_) (.pass h₁₄
    (.pass (hdec ?_) (.pass (hdec ?_) (.nil _))))) (.pass h₂₀ (.nil _))))) (.nil _)
  all_goals simp

end TigerCompiler
