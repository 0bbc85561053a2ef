import TigerCompiler.Type.Places

/-!
# The calls of the checker

What a call of `accept` on a part leaves behind (`Went`) is enough for the methods to follow the
types they ask for: one lemma for each function the methods share.
-/

namespace TigerCompiler

open Scope

namespace TypeChecker

variable {j k : Kind} {F : Facts} {program : Ast Addr .chunkList} {ρ σ : Scope}
  {P Q : List (Σ k, Ast Addr k)} {t : Ast Addr k} {s s' s₁ s₂ : TypeChecker} {L : List TypePtr}
  {a : Addr} {n : Nat}

/-! ## Calls that come to an end -/

/-- What a run on the node that starts in `s` leaves behind. -/
structure Went (F : Facts) (ρ : Scope) (s s' : TypeChecker) (t : Ast Addr k) : Prop where
  grows : Grows s s'
  typed : GetsType k = true → ¬ Untypable F.tree.defs t → (s'.typeGet t).isSome = true
  adds : ρ.aside = false → Provides F ρ s' t

/-- The last step of most methods. -/
theorem Inv.went (hs : Inv F program false L s₁) (hg : Grows s s₁) (ht : ⟨k, t⟩ ∈ program.subterms)
    (hk : HasMethod k = true) (hd : k.declares = false) {u : Option TypePtr}
    (hu : ¬ Untypable F.tree.defs t → u.isSome = true) : Went F ρ s (s₁.typeSet t.addr u) t where
  grows := by
    refine hg.trans (.typeSet fun hn => ?_)
    by_cases h : Untypable F.tree.defs t
    · exact hs.typeGet_eq_none ht hk h
    · rw [hn] at hu
      cases hu h
  typed _ h := by
    simp only [typeGet, TypeChecker.typeSet, Function.update_self]
    exact hu h
  adds _ := .of_not_declares hd

theorem Grows.wentError (hg : Grows s s₁) (hd : k.declares = false) {x : Str} {q : Culprit} :
    Went F ρ s (s₁.errorAndRecover t.addr x q) t where
  grows := hg.trans .errorAndRecover
  typed _ _ := by
    simp only [typeGet, TypeChecker.errorAndRecover, TypeChecker.typeSet, Function.update_self]
    rfl
  adds _ := .of_not_declares hd

section Safe

variable {acc : ⦃k : Kind⦄ → Ast Addr k → TypeChecker → Except Stop TypeChecker}
  {e : Ast Addr j} {i : Kind} {e' : Ast Addr i}

/-- The calls of `accept` on the node come to an end. -/
structure Safe (F : Facts) (program : Ast Addr .chunkList) (ρ : Scope)
    (P : List (Σ k, Ast Addr k))
    (acc : ⦃k : Kind⦄ → Ast Addr k → TypeChecker → Except Stop TypeChecker) (e : Ast Addr j) :
    Prop where
  sees : Sees F program acc e
  ends : ∀ L s, Inv F program false L s → View F ρ s P →
    Ends Reports (fun s' => Went F ρ s s' e) (acc e s)

theorem Safe.accept (he : Safe F program ρ P acc e) (hs : Inv F program false L s)
    (hv : View F ρ s P) :
    Ends Reports (fun s' => Inv F program false L s' ∧ Went F ρ s s' e) (acc e s) :=
  ends_and ((he.sees.2.2 false L s hs).imp fun _ => And.left) (he.ends L s hs hv)

theorem Safe.type (he : Safe F program ρ P acc e) (hj : GetsType j = true)
    (hs : Inv F program false L s) (hv : View F ρ s P) :
    Ends Reports (fun s' => Inv F program false L s' ∧ Grows s s' ∧
      (¬ Untypable F.tree.defs e → (s'.typeGet e).isSome = true)) (s.type acc e) := by
  unfold TypeChecker.type
  split
  · rename_i h
    exact ⟨hs, .refl s, fun _ => h⟩
  · refine (he.accept hs hv).imp ?_
    rintro s' ⟨hs, hw⟩
    exact ⟨hs, hw.grows, hw.typed hj⟩

theorem Safe.typeRef (hp : F.About program) (he : Safe F program ρ P acc e)
    (hj : GetsType j = true ∧ j ≠ .ty) (hu : ¬ Untypable F.tree.defs e)
    (hs : Inv F program false L s) (hv : View F ρ s P) :
    Ends Reports (fun r => Inv F program false (r.2 :: L) r.1 ∧ Grows s r.1 ∧
      (r.1.typeGet e).isSome = true) (s.typeRef acc e) := by
  refine ends_and ((he.sees.typeRef hp hj.2 hs).imp fun _ => And.left) ?_
  refine (he.type hj.1 hs hv).bind ?_
  rintro s' ⟨_, hg, ht⟩
  have hsome := ht hu
  cases h : s'.typeGet e with
  | none => rw [h] at hsome; cases hsome
  | some u => exact ⟨hg, hsome⟩

/-! ### Types -/

theorem ends_actual (hs : Shallow s) (hn : 2 ≤ n) {u : TypePtr}
    (hu : ∀ b, u = .named b → (s.heap.nameds b).isSome = true) :
    Ends Reports TypeHeap.IsActual (s.heap.actual n u) := by
  obtain ⟨n, rfl⟩ := Nat.exists_eq_add_of_le' hn
  cases u with
  | named b =>
    simp only [TypeHeap.actual]
    split
    · rename_i name t ht
      rw [TypeHeap.actual_of_isActual (hs b name t ht)]
      exact hs b name t ht
    · trivial
    · rename_i hnone
      have hsome := hu b rfl
      rw [hnone] at hsome
      cases hsome
  | _ => trivial

theorem Live.made {u : TypePtr} (hu : Live s u) :
    ∀ b, u = .named b → (s.heap.nameds b).isSome = true := by
  rintro b rfl
  exact hu

theorem made_of_isActual {u : TypePtr} (hu : TypeHeap.IsActual u) :
    ∀ b, u = .named b → (s.heap.nameds b).isSome = true := by
  rintro b rfl
  exact hu.elim

theorem ends_compatibleWith (hs : Shallow s) (hn : 4 ≤ n) {u v : TypePtr} (hu : Live s u)
    (hv : TypeHeap.IsActual v) :
    Ends Reports (fun _ => True) (s.heap.compatibleWith n u v) := by
  have hact {n : Nat} (hn : 2 ≤ n) {w : TypePtr} (hw : TypeHeap.IsActual w) :
      Ends Reports TypeHeap.IsActual (s.heap.actual n w) := ends_actual hs hn (made_of_isActual hw)
  have hsame {n : Nat} (hn : 2 ≤ n) {w : TypePtr} (hw : TypeHeap.IsActual w) :
      Ends Reports (fun _ => True) (s.heap.same n w v) :=
    (hact hn hw).bind fun _ _ => (hact hn hv).bind fun _ _ => trivial
  have hrec {n : Nat} (hn : 2 ≤ n) {w : TypePtr} (hw : TypeHeap.IsActual w) :
      Ends Reports (fun _ => True) (s.heap.recordCompatibleWith n w v) := by
    refine (hact hn hv).bind fun v' _ => ?_
    split
    · trivial
    · exact (hact hn hw).bind fun _ _ => (hact hn hv).bind fun _ _ => trivial
  have hcase {n : Nat} (hn : 3 ≤ n) {w : TypePtr} (hw : TypeHeap.IsActual w) :
      Ends Reports (fun _ => True) (s.heap.compatibleWith n w v) := by
    obtain ⟨n, rfl⟩ := Nat.exists_eq_add_of_le' (show 1 ≤ n by omega)
    cases w with
    | named a => exact hw.elim
    | record a => exact hrec (by omega) hw
    | _ => exact hsame (by omega) hw
  cases u with
  | named a =>
    obtain ⟨n, rfl⟩ := Nat.exists_eq_add_of_le' (show 1 ≤ n by omega)
    rw [TypeHeap.compatibleWith]
    exact (ends_actual hs (by omega) hu.made).bind fun t ht => hcase (by omega) ht
  | _ => exact hcase (by omega) trivial

theorem Inv.checkTypes_ends (hs : Inv F program false L s) (hn : 4 ≤ n) {x y : Str} {u v : TypePtr}
    (hu : Live s u) (hv : Live s v) :
    Ends Reports (fun s' => Inv F program false L s' ∧ Grows s s') (s.checkTypes n a x u y v) := by
  refine (ends_actual hs.shallow (by omega) hv.made).bind fun v' hv' => ?_
  refine (ends_compatibleWith hs.shallow hn hu hv').bind fun c _ => ?_
  cases c
  · exact ⟨hs.report _, .report _⟩
  · exact ⟨hs, .refl s⟩

/-! ### The parts of the methods -/

theorem Safe.checkTypesOf (hp : F.About program) (hn : 4 ≤ n) (he : Safe F program ρ P acc e)
    (he' : Safe F program ρ P acc e') (hj : GetsType j = true ∧ j ≠ .ty)
    (hi : GetsType i = true ∧ i ≠ .ty) (hu : ¬ Untypable F.tree.defs e)
    (hu' : ¬ Untypable F.tree.defs e') (hs : Inv F program false L s) (hv : View F ρ s P)
    {x y : Str} :
    Ends Reports (fun s' => Inv F program false L s' ∧ Grows s s' ∧ (s'.typeGet e).isSome = true)
      (s.checkTypesOf n acc a x e y e') := by
  refine (he.typeRef hp hj hu hs hv).bind ?_
  rintro r ⟨hs, hg, ht⟩
  refine (he'.typeRef hp hi hu' hs (hv.grows hg)).bind ?_
  rintro r' ⟨hs', hg', _⟩
  refine (hs'.checkTypes_ends hn (hs'.live _ (.tail _ (.head _))) (hs'.live _ (.head _))).imp ?_
  rintro s'' ⟨hs'', hg''⟩
  exact ⟨hs''.tail.tail, (hg.trans hg').trans hg'', hg''.types _ (hg'.types _ ht)⟩

theorem Safe.checkType (hp : F.About program) (hn : 4 ≤ n) (he : Safe F program ρ P acc e)
    (hj : GetsType j = true ∧ j ≠ .ty) (hu : ¬ Untypable F.tree.defs e)
    (hs : Inv F program false L s) (hv : View F ρ s P) {x : Str} {u : TypePtr} :
    Ends Reports (fun s' => Inv F program false L s' ∧ Grows s s' ∧ (s'.typeGet e).isSome = true)
      (s.checkType n acc e x u) := by
  refine ends_and ((he.sees.checkType hp hj.2 hs).imp fun _ => And.left) ?_
  refine (he.typeRef hp hj hu hs hv).bind ?_
  rintro r ⟨hs, hg, ht⟩
  refine (ends_actual hs.shallow (by omega) (hs.live _ (.head _)).made).bind fun v _ => ?_
  split
  · exact ⟨hg, ht⟩
  · exact ⟨hg.trans .errorAndRecover, Grows.errorAndRecover.types _ ht⟩

theorem Safe.typeFields (hp : F.About program) (hj : GetsType j = true ∧ j ≠ .ty)
    {es : List (Symbol × Ast Addr j)} (he : ∀ e ∈ es, Safe F program ρ P acc e.2)
    (hu : ∀ e ∈ es, ¬ Untypable F.tree.defs e.2) (hs : Inv F program false L s)
    (hv : View F ρ s P) :
    Ends Reports (fun r => Grows s r.1 ∧ ∀ e ∈ es, (r.1.typeGet e.2).isSome = true)
      (s.typeFields acc es) := by
  induction es generalizing s L with
  | nil => exact ⟨.refl s, List.forall_mem_nil _⟩
  | cons e es ih =>
    obtain ⟨hfirst, hrest⟩ := List.forall_mem_cons.mp he
    obtain ⟨hu, hus⟩ := List.forall_mem_cons.mp hu
    refine (hfirst.typeRef hp hj hu hs hv).bind ?_
    rintro r ⟨hs, hg, ht⟩
    refine (ih hrest hus hs (hv.grows hg)).bind ?_
    rintro r' ⟨hg', ht'⟩
    exact ⟨hg.trans hg', List.forall_mem_cons.mpr ⟨hg'.types _ ht, ht'⟩⟩

theorem Safe.typeSeq : (es : Ast Addr (.list .exp)) →
    ∀ {s : TypeChecker} {last : Option TypePtr}, (∀ e ∈ es.toList, Safe F program ρ P acc e) →
    Inv F program false L s → View F ρ s P →
    Ends Reports (fun r => Grows s r.1 ∧ ((es.toList = [] → last.isSome = true) →
      ¬ Untypable F.tree.defs es → r.2.isSome = true)) (s.typeSeq acc last es.toList)
  | .nil, s, _, _, _, _ => ⟨.refl s, fun h _ => h rfl⟩
  | .cons e .nil, _, _, he, hs, hv => by
    refine ((he e (by simp)).type rfl hs hv).bind ?_
    rintro s₁ ⟨_, hg, ht⟩
    refine ⟨hg, fun _ hu => ?_⟩
    exact ht fun h => hu (.inr ⟨rfl, h⟩)
  | .cons e (.cons e' es), _, _, he, hs, hv => by
    refine ((he e (by simp)).type rfl hs hv).bind ?_
    rintro s₁ ⟨hs₁, hg, _⟩
    refine (Safe.typeSeq (.cons e' es) (fun e he' => he e (List.mem_cons_of_mem _ he')) hs₁
      (hv.grows hg)).imp ?_
    rintro r ⟨hg', ht⟩
    refine ⟨hg.trans hg', fun _ hu => ?_⟩
    exact ht (by simp) fun h => hu (.inl h)

theorem Safe.checkFields (hp : F.About program) (hn : 4 ≤ n) {es : List (Ast Addr .fieldInit)}
    {ts : List (Symbol × TypePtr)} (he : ∀ b x q, Ast.fieldInit b x q ∈ es →
      Safe F program ρ P acc q ∧ ¬ Untypable F.tree.defs q)
    (hlen : es.length ≤ ts.length) (hL : ∀ p ∈ ts, p.2 ∈ L) (hs : Inv F program false L s)
    (hv : View F ρ s P) : Ends Reports (Grows s) (s.checkFields n acc a es ts) := by
  induction es generalizing s ts with
  | nil => exact .refl s
  | cons e es ih =>
    cases e with
    | fieldInit b x q =>
      cases ts with
      | nil => cases hlen
      | cons t ts =>
        obtain ⟨ht, hts⟩ := List.forall_mem_cons.mp hL
        obtain ⟨hq, hu⟩ := he b x q (.head _)
        refine (hq.typeRef hp (by decide) hu hs hv).bind ?_
        rintro r ⟨hs, hg, _⟩
        refine (hs.checkTypes_ends hn (hs.live _ (.tail _ ht)) (hs.live _ (.head _))).bind ?_
        rintro s' ⟨hs', hg'⟩
        refine (ih (fun b x q hq => he b x q (.tail _ hq)) (Nat.le_of_succ_le_succ hlen) hts
          hs'.tail (hv.grows (hg.trans hg'))).imp fun s'' hg'' => ?_
        exact (hg.trans hg').trans hg''

theorem Safe.checkArgs (hp : F.About program) (hn : 4 ≤ n) {es : List (Ast Addr .exp)}
    {ts : List (Symbol × TypePtr)}
    (he : ∀ e ∈ es, Safe F program ρ P acc e ∧ ¬ Untypable F.tree.defs e)
    (hL : ∀ p ∈ ts, p.2 ∈ L) (hs : Inv F program false L s) (hv : View F ρ s P) :
    Ends Reports (Grows s) (s.checkArgs n acc a es ts) := by
  induction es generalizing s ts with
  | nil => exact .refl s
  | cons e es ih =>
    cases ts with
    | nil => exact .refl s
    | cons t ts =>
      obtain ⟨ht, hts⟩ := List.forall_mem_cons.mp hL
      obtain ⟨⟨hfirst, hu⟩, hrest⟩ := List.forall_mem_cons.mp he
      refine (hfirst.typeRef hp (by decide) hu hs hv).bind ?_
      rintro r ⟨hs, hg, _⟩
      refine (hs.checkTypes_ends hn (hs.live _ (.head _)) (hs.live _ (.tail _ ht))).bind ?_
      rintro s' ⟨hs', hg'⟩
      exact (ih hrest hts hs'.tail (hv.grows (hg.trans hg'))).imp fun s'' hg'' =>
        (hg.trans hg').trans hg''

theorem Safe.checkCall (hp : F.About program) (hn : 4 ≤ n) {es : List (Ast Addr .exp)}
    {ts : List (Symbol × TypePtr)}
    (he : es.length = ts.length → ∀ e ∈ es, Safe F program ρ P acc e ∧ ¬ Untypable F.tree.defs e)
    (hL : ∀ p ∈ ts, p.2 ∈ L) (hs : Inv F program false L s) (hv : View F ρ s P) :
    Ends Reports (Grows s) (s.checkCall n acc a es ts) := by
  unfold TypeChecker.checkCall
  split
  · exact .report _
  · rename_i heq
    exact checkArgs hp hn (he (not_not.mp heq)) hL hs hv

theorem Safe.checkRecord (hp : F.About program) (hn : 4 ≤ n) {es : List (Ast Addr .fieldInit)}
    {fields : Option (List (Symbol × TypePtr))} (he : ∀ b x q, Ast.fieldInit b x q ∈ es →
      Safe F program ρ P acc q ∧ ¬ Untypable F.tree.defs q)
    (hlen : es.length ≤ (fields.getD []).length) (hL : ∀ p ∈ fields.getD [], p.2 ∈ L)
    (hs : Inv F program false L s) (hv : View F ρ s P) :
    Ends Reports (Grows s) (s.checkRecord n acc a es fields) := by
  cases fields with
  | none =>
    refine (checkFields hp hn he hlen hL (hs.report _) (hv.grows (.report _))).imp ?_
    exact fun s' hg => (Grows.report _).trans hg
  | some fields => exact checkFields hp hn he hlen hL hs hv

/-- A loop over declarations, where each step gives what it is to give. -/
theorem ends_visitAll {f : TypeChecker → Ast Addr j → Except Stop TypeChecker}
    {I : TypeChecker → Prop} {R : Ast Addr j → TypeChecker → Prop} {ds : List (Ast Addr j)}
    (hI : ∀ s s', I s → Grows s s' → I s') (hR : ∀ d s s', R d s → Grows s s' → R d s')
    (hf : ∀ d ∈ ds, ∀ s, Inv F program false L s → I s →
      Ends Reports (fun s' => Inv F program false L s' ∧ Grows s s' ∧ R d s') (f s d))
    (hs : Inv F program false L s) (hi : I s) :
    Ends Reports (fun s' => Inv F program false L s' ∧ Grows s s' ∧ ∀ d ∈ ds, R d s')
      (s.visitAll f ds) := by
  induction ds generalizing s with
  | nil => exact ⟨hs, .refl s, List.forall_mem_nil _⟩
  | cons d ds ih =>
    refine (hf d (.head _) s hs hi).bind ?_
    rintro s₁ ⟨hs₁, hg, hr⟩
    refine (ih (fun d hd => hf d (.tail _ hd)) hs₁ (hI s s₁ hi hg)).imp ?_
    rintro s₂ ⟨hs₂, hg', hrs⟩
    exact ⟨hs₂, hg.trans hg', List.forall_mem_cons.mpr ⟨hR d s₁ s₂ hr hg', hrs⟩⟩

theorem Safe.checkOperands (hp : F.About program) (hn : 4 ≤ n) {l r : Ast Addr .exp} {op : Oper}
    (hl : Safe F program ρ P acc l) (hr : Safe F program ρ P acc r)
    (hul : ¬ Untypable F.tree.defs l) (hur : ¬ Untypable F.tree.defs r)
    (hs : Inv F program false L s) (hv : View F ρ s P) :
    Ends Reports (Grows s) (s.checkOperands n acc a l r op) := by
  cases op
  case add | sub | mul | div =>
    refine (hl.checkType hp hn (by decide) hul hs hv).bind ?_
    rintro s ⟨hs, hg, _⟩
    refine (hr.checkType hp hn (by decide) hur hs (hv.grows hg)).imp ?_
    rintro s' ⟨_, hg', _⟩
    exact hg.trans hg'
  case eq | ne =>
    exact (hl.checkTypesOf hp hn hr (by decide) (by decide) hul hur hs hv).imp fun s' h => h.2.1
  all_goals
    refine (hl.checkTypesOf hp hn hr (by decide) (by decide) hul hur hs hv).bind ?_
    rintro s' ⟨hs', hg, ht⟩
    cases hu : s'.typeGet l with
    | none => rw [hu] at ht; cases ht
    | some u =>
      have hlive : Live s' u := hs'.live_typeGet hp hl.sees.1 rfl (by rintro b gs ⟨⟩) hu
      refine (ends_actual hs'.shallow (by omega) hlive.made).bind fun v _ => ?_
      split
      · exact hg.trans .errorAndRecover
      · exact hg

theorem Safe.sub (h : Safe F program ρ Q acc e) (hQ : Q ⊆ P) : Safe F program ρ P acc e where
  sees := h.sees
  ends L s hs hv := h.ends L s hs (hv.sub hQ)

theorem Safe.typeResult (hp : F.About program) {r : Ast Addr (.opt .nameTy)}
    (hr : ∀ c ∈ entries r, Safe F program ρ P acc c.2 ∧ ¬ Untypable F.tree.defs c.2)
    (hs : Inv F program false L s) (hv : View F ρ s P) :
    Ends Reports (fun q => Grows s q.1) (s.typeResult acc r) := by
  cases r with
  | none => exact .refl s
  | some r =>
    obtain ⟨hr, hu⟩ : Safe F program ρ P acc r ∧ ¬ Untypable F.tree.defs r :=
      hr ⟨_, r⟩ (by simp (disch := decide) [entries])
    exact (hr.typeRef hp (by decide) hu hs hv).imp fun q h => h.2.1

/-- The header of the function has been made, and the formals have their types. -/
def HeaderMade (d : Ast Addr .functionDec) (s : TypeChecker) : Prop :=
  match d with
  | .functionDec a _ (.varChunk _ fs) _ _ =>
    (s.heap.functions a).isSome = true ∧ ∀ v ∈ fs.toList, (s.typeGet v).isSome = true

theorem HeaderMade.grows {d : Ast Addr .functionDec} (h : HeaderMade d s) (hg : Grows s s') :
    HeaderMade d s' := by
  cases d with
  | functionDec a x fs r b =>
    cases fs
    exact ⟨hg.functions a h.1, fun v hv => hg.types _ (h.2 v hv)⟩

theorem Safe.functionHeader (hp : F.About program) {x : Symbol} {c : Addr}
    {fs : Ast Addr (.list .varDec)} {r : Ast Addr (.opt .nameTy)} {b : Ast Addr (.opt .exp)}
    (hd : ⟨.functionDec, .functionDec a x (.varChunk c fs) r b⟩ ∈ program.subterms)
    (hsees : ∀ q ∈ entries (.functionDec a x (.varChunk c fs) r b), Sees F program acc q.2)
    (hfs : ∀ v ∈ fs.toList, Safe F program ρ P acc v ∧ ¬ Untypable F.tree.defs v)
    (hr : ∀ c ∈ entries r, Safe F program σ P acc c.2 ∧ ¬ Untypable F.tree.defs c.2)
    (hσ : σ.aside = true) (hs : Inv F program false L s) (hv : View F ρ s P) :
    Ends Reports (fun s' => Inv F program false L s' ∧ Grows s s' ∧
      HeaderMade (.functionDec a x (.varChunk c fs) r b) s')
      (s.functionHeader acc (.functionDec a x (.varChunk c fs) r b)) := by
  have hsafe : ∀ p ∈ formalsOf fs.toList, Safe F program ρ P acc p.2 ∧
      ¬ Untypable F.tree.defs p.2 := by
    intro p hp'
    obtain ⟨v, hv', rfl⟩ := List.mem_map.mp hp'
    exact hfs v hv'
  refine ends_and ((Sees.functionHeader hp hd hsees hs).imp fun _ => And.left) ?_
  refine (ends_and (Sees.typeFields hp (by decide) (fun p h => (hsafe p h).1.sees) hs)
    (typeFields hp (by decide) (fun p h => (hsafe p h).1) (fun p h => (hsafe p h).2) hs hv)).bind ?_
  rintro p ⟨⟨hs', _⟩, hg, ht⟩
  refine (typeResult hp hr hs' (View.aside hσ)).bind fun q hg' => ?_
  refine ⟨(hg.trans hg').trans .createFunction, isSome_setDefault, fun v hv' => ?_⟩
  exact Grows.createFunction.types _ (hg'.types _ (ht _ (List.mem_map_of_mem hv')))

theorem Safe.functionBody (hp : F.About program) (hn : 4 ≤ n) {x : Symbol} {c : Addr}
    {fs : Ast Addr (.list .varDec)} {r : Ast Addr (.opt .nameTy)} {b : Ast Addr (.opt .exp)}
    (hb : ∀ c ∈ entries b, Safe F program ρ P acc c.2 ∧ ¬ Untypable F.tree.defs c.2)
    (hm : HeaderMade (.functionDec a x (.varChunk c fs) r b) s) (hs : Inv F program false L s)
    (hv : View F ρ s P) :
    Ends Reports (fun s' => Inv F program false L s' ∧ Grows s s')
      (s.functionBody n acc (.functionDec a x (.varChunk c fs) r b)) := by
  cases b with
  | none => exact ⟨hs, .refl s⟩
  | some b =>
    obtain ⟨hb, hu⟩ : Safe F program ρ P acc b ∧ ¬ Untypable F.tree.defs b :=
      hb ⟨_, b⟩ (by simp (disch := decide) [entries])
    obtain ⟨⟨formals, result⟩, hf⟩ := Option.isSome_iff_exists.mp hm.1
    simp only [TypeChecker.functionBody, hf]
    have hlive := (hs.functions a formals result hf).2.2
    refine (hb.typeRef hp (by decide) hu (hs.cons hlive) hv).bind ?_
    rintro q ⟨hs', hg, _⟩
    refine (hs'.checkTypes_ends hn (hs'.live _ (.head _)) (hs'.live _ (.tail _ (.head _)))).imp ?_
    rintro s'' ⟨hs'', hg'⟩
    exact ⟨hs''.tail.tail, hg.trans hg'⟩

theorem ends_sound (hs : Shallow s) (hn : 1 ≤ n) (ha : (s.heap.nameds a).isSome = true) :
    Ends Reports (fun _ => True) (s.heap.sound n a) := by
  obtain ⟨n, rfl⟩ := Nat.exists_eq_add_of_le' hn
  simp only [TypeHeap.sound, TypeHeap.soundLoop]
  split
  · rename_i name next hnext
    exact (hs a name _ hnext).elim
  · trivial
  · rename_i hnone
    rw [hnone] at ha
    cases ha

theorem Safe.typeBody (hp : F.About program) (hn : 4 ≤ n) {x : Symbol} {ty : Ast Addr .ty}
    (hd : ⟨.typeDec, .typeDec a x ty⟩ ∈ program.subterms)
    (hty : Safe F program ρ P acc ty) (hm : (s.heap.nameds a).isSome = true)
    (hs : Inv F program false L s) (hv : View F ρ s P) :
    Ends Reports (fun s' => Inv F program false L s' ∧ Grows s s' ∧
      (¬ Untypable F.tree.defs ty → (s'.typeGet ty).isSome = true))
      (s.typeBody n acc (.typeDec a x ty)) := by
  have hsees : ∀ c ∈ entries (.typeDec a x ty : Ast Addr .typeDec), Sees F program acc c.2 := by
    simp (disch := decide) only [entries, entries_of_hasMethod, List.mem_singleton]
    rintro c rfl
    exact hty.sees
  refine ends_and ((Sees.typeBody hp hd hsees hs).imp fun _ => And.left) ?_
  refine (hty.type rfl hs hv).bind ?_
  rintro s₁ ⟨hs₁, hg, ht⟩
  have hg₁ : Grows s₁ (s₁.namedTypeSet a (s₁.createdTy ty)) := .namedTypeSet
  refine (ends_sound hs₁.namedTypeSet.shallow (by omega)
    (hg₁.nameds a (hg.nameds a hm))).bind fun c _ => ?_
  cases c
  · exact ⟨(hg.trans hg₁).trans .errorAndRecover, fun hu =>
      Grows.errorAndRecover.types _ (hg₁.types _ (ht hu))⟩
  · exact ⟨hg.trans hg₁, fun hu => hg₁.types _ (ht hu)⟩

theorem Safe.visitVarDec (hp : F.About program) (hn : 4 ≤ n) {o : Ast Addr (.opt .nameTy)}
    {q : Ast Addr (.opt .exp)} {x : Symbol}
    (ht : ⟨.varDec, .varDec a x o q⟩ ∈ program.subterms)
    (ho : ∀ c ∈ entries o, Safe F program ρ P acc c.2)
    (hq : ∀ c ∈ entries q, Safe F program ρ P acc c.2)
    (hu : ∀ c ∈ derefs F.counted (.varDec a x o q), ¬ Untypable F.tree.defs c.2)
    (hs : Inv F program false L s) (hv : View F ρ s P) :
    Ends Reports (fun s' => Grows s s' ∧
      (¬ Untypable F.tree.defs (.varDec a x o q) → (s'.types a).isSome = true))
      (s.visitVarDec n acc a o q) := by
  have hfinish {s₁ : TypeChecker} {u : Option TypePtr} (hs₁ : Inv F program false L s₁)
      (hg : Grows s s₁)
      (hu : ¬ Untypable F.tree.defs (.varDec a x o q) → u.isSome = true) :
      Grows s (s₁.typeSet a u) ∧ (¬ Untypable F.tree.defs (.varDec a x o q) →
        ((s₁.typeSet a u).types a).isSome = true) := by
    refine ⟨hg.trans (.typeSet fun hn => ?_), fun h => ?_⟩
    · by_cases h : Untypable F.tree.defs (.varDec a x o q)
      · exact hs₁.typeGet_eq_none ht rfl h
      · rw [hn] at hu
        cases hu h
    · simpa only [TypeChecker.typeSet, Function.update_self] using hu h
  cases o with
  | none =>
    cases q with
    | none => exact ⟨.report _, fun h => absurd (.inr ⟨rfl, .inr rfl⟩) h⟩
    | some e =>
      have he : Safe F program ρ P acc e := hq ⟨_, e⟩ (by simp (disch := decide) [entries])
      refine (he.type rfl hs hv).bind ?_
      rintro s₁ ⟨hs₁, hg, ht'⟩
      refine hfinish hs₁ hg fun h => ht' ?_
      exact fun hu => h (.inr ⟨rfl, .inl hu⟩)
  | some o =>
    have ho : Safe F program ρ P acc o := ho ⟨_, o⟩ (by simp (disch := decide) [entries])
    cases q with
    | none =>
      refine (ho.type rfl hs hv).bind ?_
      rintro s₁ ⟨hs₁, hg, ht'⟩
      refine hfinish hs₁ hg fun h => ht' ?_
      exact fun hu => h (.inl hu)
    | some e =>
      refine (ho.type rfl hs hv).bind ?_
      rintro s₁ ⟨hs₁, hg, ht'⟩
      have he : Safe F program ρ P acc e := hq ⟨_, e⟩ (by simp (disch := decide) [entries])
      have huo : ¬ Untypable F.tree.defs o :=
        hu ⟨_, o⟩ (by simp (disch := decide) [derefs, entries])
      have hue : ¬ Untypable F.tree.defs e :=
        hu ⟨_, e⟩ (by simp (disch := decide) [derefs, entries])
      obtain ⟨u, hu⟩ := Option.isSome_iff_exists.mp (ht' huo)
      have hlive : Live s₁ u := ho.sees.live hp hs₁ (by decide) u hu
      simp only [checkInit, hu]
      refine (he.typeRef hp (by decide) hue (hs₁.cons hlive) (hv.grows hg)).bind ?_
      rintro r ⟨hs₂, hg₂, _⟩
      have hlive' := hs₂.live _ (.tail _ (.head _))
      refine (hs₂.checkTypes_ends hn (hs₂.live _ (.head _)) hlive').bind ?_
      rintro s₃ ⟨hs₃, hg₃⟩
      exact hfinish hs₃.tail.tail ((hg.trans hg₂).trans hg₃) fun _ => rfl

theorem Provides.cons {d : Ast Addr j} {ds : Ast Addr (.list j)} (h : Provides F ρ s d)
    (hs : Provides F (ρ.after d) s ds) : Provides F ρ s (.cons d ds) where
  vars x b hb := (hs.vars x b hb).elim (h.vars x b) .inr
  funs x b hb := (hs.funs x b hb).elim (h.funs x b) .inr
  types x b hb := (hs.types x b hb).elim (h.types x b) .inr

/-- The declarations or chunks of a collection, each in the scope after those before it. -/
theorem ends_chunk : (ds : Ast Addr (.list j)) → ∀ {ρ : Scope} {s : TypeChecker},
    (∀ d ∈ ds.toList, ∀ σ : Scope, σ.Everywhere (Binder.VisitBound F.tree.defs) d →
      Safe F program σ P acc d) →
    ρ.Everywhere (Binder.VisitBound F.tree.defs) ds → Inv F program false L s → View F ρ s P →
    Ends Reports (fun s' => Grows s s' ∧ (ρ.aside = false → Provides F ρ s' ds))
      (s.visitAll (fun s d => acc d s) ds.toList)
  | .nil, _, s, _, _, _, _ =>
    ⟨.refl s, fun _ => ⟨fun _ _ => .inl, fun _ _ => .inl, fun _ _ => .inl⟩⟩
  | .cons d ds, ρ, s, hd, hb, hs, hv => by
    refine ((hd d (by simp) ρ hb.1).accept hs hv).bind ?_
    rintro s₁ ⟨hs₁, hw⟩
    refine (ends_chunk ds (fun d hd' => hd d (by simp [hd'])) hb.2 hs₁
      ((hv.grows hw.grows).after hw.adds)).imp ?_
    rintro s₂ ⟨hg, ha⟩
    refine ⟨hw.grows.trans hg, fun hρ => ?_⟩
    exact ((hw.adds hρ).grows hg).cons (ha ((after_aside ρ d).trans hρ))

end Safe

end TypeChecker

end TigerCompiler
