import TigerCompiler.Type.Arrays

/-!
# Records

`operator()(RecordExp)` takes the record from the body of the declaration of its type name, and
checks the values by their position, for as many as the expression has.  The `Translator` stores
each value in the slot it finds by name.
-/

namespace TigerCompiler

open TypeHeap TypeChecker

namespace TypeChecker

/-- The loop of `Record::field_index`, once `i` fields have been gone over. -/
def fieldIndexFrom (key : Symbol) : Nat → List (Symbol × TypePtr) → Except Stop Nat
  | _, [] => .error (typeError ("No field with key: ".toList ++ key))
  | i, (name, _) :: fields => if name = key then .ok i else fieldIndexFrom key (i + 1) fields

/-- `Record::field_index`. -/
def fieldIndex (fields : List (Symbol × TypePtr)) (key : Symbol) : Except Stop Nat :=
  fieldIndexFrom key 0 fields

/-- The slots in which the loop of `Translator::operator()(RecordExp)` stores the values. -/
def storeSlots (fields : List (Symbol × TypePtr)) :
    List (Ast Addr .fieldInit) → Except Stop (List Nat)
  | [] => .ok []
  | .fieldInit _ name _ :: es => do
    let i ← fieldIndex fields name
    let is ← storeSlots fields es
    return i :: is

end TypeChecker

/-- The name and the value of a field initialiser. -/
def initName : Ast Addr .fieldInit → Symbol
  | .fieldInit _ name _ => name

@[inherit_doc initName]
def initExp : Ast Addr .fieldInit → Ast Addr .exp
  | .fieldInit _ _ e => e

/-! ## Slots -/

variable {fields : List (Symbol × TypePtr)} {es : List (Ast Addr .fieldInit)}

theorem fieldIndexFrom_eq {key : Symbol} (i : Nat) (h : key ∈ fields.map Prod.fst) :
    fieldIndexFrom key i fields = .ok (i + (fields.map Prod.fst).idxOf key) := by
  induction fields generalizing i with
  | nil => cases h
  | cons f fields ih =>
    obtain ⟨name, t⟩ := f
    rw [fieldIndexFrom]
    by_cases hk : name = key
    · simp [hk]
    · rw [if_neg hk, ih (i + 1) ((List.mem_cons.mp h).resolve_left (Ne.symm hk)), List.map_cons,
        List.idxOf_cons_ne _ hk]
      congr 1
      omega

theorem storeSlots_eq (h : ∀ e ∈ es, initName e ∈ fields.map Prod.fst) :
    storeSlots fields es = .ok (es.map fun e => (fields.map Prod.fst).idxOf (initName e)) := by
  induction es with
  | nil => rfl
  | cons e es ih =>
    cases e with
    | fieldInit b name e =>
      have hname : name ∈ fields.map Prod.fst := h _ (.head _)
      rw [storeSlots, fieldIndex, fieldIndexFrom_eq 0 hname, ok_bind,
        ih fun e he => h e (.tail _ he), Nat.zero_add]
      rfl

theorem map_idxOf_eq_range {α : Type} [BEq α] [LawfulBEq α] (xs : List α) :
    xs.map xs.idxOf = List.range xs.length ↔ xs.Nodup := by
  constructor
  · intro h
    have hnodup : (xs.map xs.idxOf).Nodup := h ▸ List.nodup_range
    exact hnodup.of_map _
  · intro h
    apply List.ext_getElem
    · simp
    · intro i h₁ h₂
      rw [List.getElem_map, List.getElem_range, h.idxOf_getElem]

/-- With the names of the fields, in their order, each value goes in its own place exactly when no
name comes twice. -/
theorem storeSlots_eq_range (h : es.map initName = fields.map Prod.fst) :
    storeSlots fields es = .ok (List.range es.length) ↔ (fields.map Prod.fst).Nodup := by
  have hmem (e : Ast Addr .fieldInit) (he : e ∈ es) : initName e ∈ fields.map Prod.fst :=
    h ▸ List.mem_map_of_mem he
  have hmap : es.map (fun e => (fields.map Prod.fst).idxOf (initName e)) =
      (fields.map Prod.fst).map (fields.map Prod.fst).idxOf := by
    rw [← h, List.map_map]
    rfl
  have hlen : es.length = (fields.map Prod.fst).length := by rw [← h, List.length_map]
  rw [storeSlots_eq hmem, Except.ok.injEq, hmap, hlen]
  exact map_idxOf_eq_range (fields.map Prod.fst)

/-! ## Checking by position -/

section Fields

variable {m : Tree} {n : Nat} {I : TypeChecker → Prop} {s : TypeChecker} {a : Addr}
  {t u x : TypePtr} {ys : List TypePtr} {tn : Ast Addr .nameTy} {fs : Ast Addr (.list .fieldInit)}

/-- No alias is met when the two lists of types are gone over side by side. -/
def Settled (m : Tree) (ts ys : List TypePtr) : Prop :=
  ∀ q ∈ ts.zip ys, ¬ IsAliasPtr m q.1 ∧ ¬ IsAliasPtr m q.2

/-- The values pass against the fields at their positions, as far as there are values. -/
def PassesByPosition (m : Tree) (fields : List (Symbol × TypePtr)) (ys : List TypePtr) : Prop :=
  List.Forall₂ (Passes m) ((fields.map Prod.snd).take ys.length) ys

/-- There is a value for each field, under its name and of a type that goes with that of the
field. -/
def Initialises (m : Tree) (fields : List (Symbol × TypePtr)) (es : List (Ast Addr .fieldInit))
    (ys : List TypePtr) : Prop :=
  es.map initName = fields.map Prod.fst ∧
    List.Forall₂ (MeantCompatible m) ys (fields.map Prod.snd)

theorem PassesByPosition.settled (h : PassesByPosition m fields ys) :
    Settled m (fields.map Prod.snd) ys := by
  unfold PassesByPosition at h
  generalize fields.map Prod.snd = ts at h ⊢
  induction ys generalizing ts with
  | nil => simp [Settled]
  | cons y ys ih =>
    cases ts with
    | nil => simp [Settled]
    | cons t ts =>
      rw [List.length_cons, List.take_succ_cons, List.forall₂_cons] at h
      intro q hq
      rcases List.mem_cons.mp hq with rfl | hq
      · exact ⟨h.1.1, h.1.2.1⟩
      · exact ih ts h.2 q hq

/-- The loop of `operator()(RecordExp)`: it ends, it stops at an alias, or it runs out of the
fields. -/
theorem checkFields_spec (hI : Steady n I)
    (h : List.Forall₂ (fun e y => Gives I a (accept m n) (initExp e) y ∧ IsDeclared m I y) es ys)
    (hf : ∀ f ∈ fields, IsDeclared m I f.2) (hs : I s) :
    (∃ s', s.checkFields n (accept m n) a es fields = .ok s' ∧ I s' ∧
        Adds a (¬ PassesByPosition m fields ys) s s' ∧ es.length ≤ fields.length) ∨
      (¬ Settled m (fields.map Prod.snd) ys ∧
        ∃ e, s.checkFields n (accept m n) a es fields = .error (typeError e)) ∨
      fields.length < es.length ∧ Settled m (fields.map Prod.snd) ys ∧
        s.checkFields n (accept m n) a es fields = .error .undefined := by
  induction h generalizing fields s with
  | nil => exact .inl ⟨s, rfl, hs, (Adds.of_eq rfl).congr (by simp [PassesByPosition]), by simp⟩
  | @cons e y es ys he hes ih =>
    cases fields with
    | nil => exact .inr (.inr ⟨by simp, by simp [Settled], by cases e; rfl⟩)
    | cons f fields =>
      obtain ⟨name, t⟩ := f
      cases e with
      | fieldInit b w e =>
        obtain ⟨s₁, h₁, hs₁, ha₁⟩ := he.1 s hs
        have hzip (hy : ¬ IsAliasPtr m t ∧ ¬ IsAliasPtr m y) :
            Settled m (((name, t) :: fields).map Prod.snd) (y :: ys) ↔
              Settled m (fields.map Prod.snd) ys := by
          simp only [Settled, List.map_cons, List.zip_cons_cons, List.forall_mem_cons]
          exact and_iff_right hy
        rcases checkTypes_spec (a := a) hI (hf _ (.head _)) he.2 hs₁ "left field".toList
          "right field".toList with ⟨s₂, h₂, hs₂, -, ha₂, hy⟩ | ⟨hy, e', he'⟩
        · have heq : s.checkFields n (accept m n) a (.fieldInit b w e :: es) ((name, t) :: fields) =
              s₂.checkFields n (accept m n) a es fields := by
            rw [checkFields]
            simp only [initExp] at h₁
            simp only [h₁, h₂, ok_bind]
          rw [heq, hzip hy]
          rcases ih (fun f hf' => hf f (.tail _ hf')) hs₂ with ⟨s', h', hs', ha', hle⟩ | herr | herr
          · refine .inl ⟨s', h', hs', ((ha₁.trans ha₂).trans ha').congr ?_, by simpa using hle⟩
            simp only [PassesByPosition, List.map_cons, List.length_cons, List.take_succ_cons,
              List.forall₂_cons]
            tauto
          · exact .inr (.inl herr)
          · exact .inr (.inr ⟨by simpa using herr.1, herr.2⟩)
        · refine .inr (.inl ⟨fun hset => ?_, e', ?_⟩)
          · have hq := hset (t, y) (.head _)
            exact hy.elim hq.1 hq.2
          · rw [checkFields]
            simp only [initExp] at h₁
            simp only [h₁, he', ok_bind]
            rfl

/-! ## `RecordExp` -/

theorem Passes.compatible (h : Passes m t u) : MeantCompatible m u t := by
  obtain ⟨-, -, t', u', ht, hu, hf⟩ := h
  refine ⟨u', t', hu, ht, ?_⟩
  rcases hf with rfl | ⟨hrec, rfl⟩
  · exact .inl rfl
  · exact .inr (.inl ⟨rfl, hrec⟩)

theorem ne_nil_of_means (ht : t ≠ .nil) (hm : Means m t u) : u ≠ .nil := by
  cases hm with
  | actual => exact ht
  | named hd hend =>
    clear hd
    rintro rfl
    generalize hv : TypePtr.nil = v at hend
    induction hend with
    | «alias» _ _ _ ih => exact ih hv
    | _ => cases hv

theorem MeantCompatible.passes (h : MeantCompatible m u t) (ht : t ≠ .nil)
    (hat : ¬ IsAliasPtr m t) (hau : ¬ IsAliasPtr m u) : Passes m t u := by
  obtain ⟨u', t', hu, hmt, hc⟩ := h
  refine ⟨hat, hau, t', u', hmt, hu, ?_⟩
  rcases hc with rfl | ⟨rfl, hrec⟩ | ⟨-, rfl⟩
  · exact .inl rfl
  · exact .inr ⟨hrec, rfl⟩
  · exact absurd rfl (ne_nil_of_means ht hmt)

/-- The `type_` of the body of a declaration that has been visited. -/
def Elaborated (s : TypeChecker) : Ast Addr .ty → Prop
  | .ofNameTy e => ∀ c, s.typeGet e ≠ some (.record c)
  | .recordTy c _ => s.types c = some (.record c)
  | .arrayTy c _ => s.types c = some (.array c)

/-- Typing the parts of a `RecordExp` ends: `x` is the type of its type name and `ys` are those of
the values.  The declaration of the type name has been visited, and the record it leads to has
been made. -/
structure RecordParts (m : Tree) (n : Nat) (I : TypeChecker → Prop) (a : Addr)
    (tn : Ast Addr .nameTy) (fs : Ast Addr (.list .fieldInit)) (x : TypePtr) (ys : List TypePtr) :
    Prop where
  steady : Steady n I
  name : TypeOfName m I tn x
  givesName : Gives I a (accept m n) tn x
  givesInits : List.Forall₂ (fun e y => Gives I a (accept m n) (initExp e) y ∧ IsDeclared m I y)
    fs.toList ys
  body : ∀ d e, m.defs tn.addr = some d → m.typeDec d = some e →
    ∀ s, I s → Elaborated s (tyOf e)
  made : ∀ c, EndsIn m (.ofNameTy tn) (.record c) → ∃ fields,
    (∀ s, I s → s.heap.records c = some fields) ∧
    ∀ f ∈ fields, IsDeclared m I f.2 ∧ f.2 ≠ .nil

/-- The visit goes on to its end or to an error.  When the type name resolves to a record, there
is no error exactly when each field is initialised, and each value is then stored in the slot it
has been checked for. -/
def CheckedCompletely (m : Tree) (n : Nat) (I : TypeChecker → Prop) (a : Addr)
    (tn : Ast Addr .nameTy) (fs : Ast Addr (.list .fieldInit)) (ys : List TypePtr)
    (s : TypeChecker) : Prop :=
  ∃ t p, Outcome a s t p (accept m (n + 1) (.recordExp a tn fs) s) ∧
    ∀ c fields, EndsIn m (.ofNameTy tn) (.record c) →
      (∀ s, I s → s.heap.records c = some fields) →
      (¬ p ↔ Initialises m fields fs.toList ys) ∧
        (¬ p → storeSlots fields fs.toList = .ok (List.range fs.toList.length))

/-- The fields found by position are those found by name: the values do not outnumber the fields
(unless the check stops before, at an alias), they come under the names of the fields when they
pass, and no alias keeps them from passing. -/
structure FieldsAgree (m : Tree) (fields : List (Symbol × TypePtr))
    (es : List (Ast Addr .fieldInit)) (ys : List TypePtr) : Prop where
  counted : es.length ≤ fields.length ∨ ¬ Settled m (fields.map Prod.snd) ys
  named : PassesByPosition m fields ys →
    es.map initName = fields.map Prod.fst ∧ (fields.map Prod.fst).Nodup
  settled : Initialises m fields es ys → Settled m (fields.map Prod.snd) ys

/-- The body of the declaration of the type name is the one of the record, whose fields agree; or
it is not, and there is no value, though the record has a field if there is one. -/
def ChecksBody (m : Tree) (I : TypeChecker → Prop) (tn : Ast Addr .nameTy)
    (es : List (Ast Addr .fieldInit)) (ys : List TypePtr) : Ast Addr .ty → Prop
  | .recordTy c _ =>
    ∀ fields, (∀ s, I s → s.heap.records c = some fields) → FieldsAgree m fields es ys
  | _ => es = [] ∧ ∀ c fields, EndsIn m (.ofNameTy tn) (.record c) →
      (∀ s, I s → s.heap.records c = some fields) → fields ≠ []

/-- The type name is not that of a builtin type, and `ChecksBody` holds of its declaration. -/
def ChecksFields (m : Tree) (I : TypeChecker → Prop) (tn : Ast Addr .nameTy)
    (es : List (Ast Addr .fieldInit)) (ys : List TypePtr) : Prop :=
  ∃ d e, m.defs tn.addr = some d ∧ m.typeDec d = some e ∧ ChecksBody m I tn es ys (tyOf e)

/-- Under the names of the fields, passing by position is being compatible with each field, as long
as no alias is met. -/
theorem passesByPosition_iff (hn : es.map initName = fields.map Prod.fst)
    (hl : ys.length = es.length) (hf : ∀ f ∈ fields, f.2 ≠ .nil) :
    PassesByPosition m fields ys ↔
      List.Forall₂ (MeantCompatible m) ys (fields.map Prod.snd) ∧
        Settled m (fields.map Prod.snd) ys := by
  have hlen : ys.length = (fields.map Prod.snd).length := by
    have := congrArg List.length hn
    simpa [hl] using this
  have hnil : ∀ t ∈ fields.map Prod.snd, t ≠ .nil := List.forall_mem_map.mpr hf
  refine ⟨fun h => ⟨?_, h.settled⟩, fun h => ?_⟩
  · rw [PassesByPosition, hlen, List.take_length] at h
    exact h.flip.imp fun _ _ => Passes.compatible
  · rw [PassesByPosition, hlen, List.take_length]
    obtain ⟨hc, hs⟩ := h
    clear hn hf hl hlen
    generalize fields.map Prod.snd = ts at hc hs hnil ⊢
    induction hc with
    | nil => exact .nil
    | cons h _ ih =>
      have hq := hs _ (.head _)
      exact .cons (h.passes (hnil _ (.head _)) hq.1 hq.2)
        (ih (fun q hq => hs q (.tail _ hq)) fun t ht => hnil t (.tail _ ht))

/-- What the method does once it has taken the record from the body of the declaration. -/
theorem RecordParts.visit {d c : Addr} {e : Ast Addr .typeDec} {g : Ast Addr (.list .field)}
    (h : RecordParts m n I a tn fs x ys) (hs : I s) (hd : m.defs tn.addr = some d)
    (he : m.typeDec d = some e) (hty : tyOf e = .recordTy c g)
    (hr : ∀ s, I s → s.heap.records c = some fields) (hf : ∀ f ∈ fields, IsDeclared m I f.2) :
    (∃ t p, Outcome a s t p (accept m (n + 1) (.recordExp a tn fs) s) ∧
        (¬ p ↔ PassesByPosition m fields ys)) ∧
        (fs.toList.length ≤ fields.length ∨ ¬ Settled m (fields.map Prod.snd) ys) ∨
      accept m (n + 1) (.recordExp a tn fs) s = .error .undefined ∧
        ¬ (fs.toList.length ≤ fields.length ∨ ¬ Settled m (fields.map Prod.snd) ys) := by
  have hbody : s.typeOfBody m tn = .ok (some (.record c)) := by
    have helab := h.body d e hd he s hs
    rw [hty] at helab
    rw [typeOfBody, hd, Option.bind_some, he]
    cases e with
    | typeDec b y ty =>
      cases hty
      exact congrArg Except.ok helab
  have hvisit : accept m (n + 1) (.recordExp a tn fs) s = (do
      let s ← s.checkFields n (accept m n) a fs.toList fields
      let s ← s.type (accept m n) tn
      return s.typeSet a (s.typeGet tn)) := by
    simp only [accept, TypeChecker.visit, hbody, ok_bind, asRecord, hr s hs, checkRecord]
  rw [hvisit]
  rcases checkFields_spec (a := a) h.steady h.givesInits hf hs with
    ⟨s₁, h₁, hs₁, ha₁, hle⟩ | ⟨hset, e', he'⟩ | ⟨hlt, hset, hu⟩
  · obtain ⟨s₂, h₂, hs₂, ha₂⟩ := h.givesName s₁ hs₁
    obtain ⟨htype, hget⟩ := typeRef_eq_ok.mp h₂
    refine .inl ⟨⟨some x, ¬ PassesByPosition m fields ys, ?_, not_not⟩, .inl hle⟩
    rw [h₁, ok_bind, htype, ok_bind, hget]
    exact ⟨typeGet_typeSet .., (ha₁.trans ha₂).congr (by simp)⟩
  · refine .inl ⟨⟨none, True, ?_, ?_⟩, .inr hset⟩
    · rw [he']
      exact ⟨rfl, rfl, trivial⟩
    · exact iff_of_false (fun hp => hp trivial) fun hp => hset hp.settled
  · refine .inr ⟨by rw [hu]; rfl, ?_⟩
    rintro (hle | hns)
    · omega
    · exact hns hset

/-- What the method does when it has found no record: it says so, and goes on. -/
theorem RecordParts.visit_untyped {d : Addr} {e : Ast Addr .typeDec}
    (h : RecordParts m n I a tn fs x ys) (hs : I s) (hd : m.defs tn.addr = some d)
    (he : m.typeDec d = some e) (hty : ∀ c g, tyOf e ≠ .recordTy c g) :
    (fs.toList = [] ∧ Outcome a s (some x) True (accept m (n + 1) (.recordExp a tn fs) s)) ∨
      fs.toList ≠ [] ∧ accept m (n + 1) (.recordExp a tn fs) s = .error .undefined := by
  have hbody : ∃ o, s.typeOfBody m tn = .ok o ∧ s.asRecord o = none := by
    have helab := h.body d e hd he s hs
    rw [typeOfBody, hd, Option.bind_some, he]
    cases e with
    | typeDec b y ty =>
      refine ⟨s.typeGet ty, rfl, ?_⟩
      cases ty with
      | recordTy c g => exact absurd rfl (hty c g)
      | arrayTy c el =>
        have hget : s.typeGet (.arrayTy c el) = some (.array c) := helab
        rw [hget]
        rfl
      | ofNameTy nm =>
        have hget : ∀ c, s.typeGet (.ofNameTy nm) ≠ some (.record c) := helab
        unfold asRecord
        split
        · rename_i c hc
          exact absurd hc (hget c)
        · rfl
  obtain ⟨o, ho, hnone⟩ := hbody
  have hvisit : accept m (n + 1) (.recordExp a tn fs) s = (do
      let s ← (s.error a "RecordExp: Untyped".toList none).checkFields n (accept m n) a fs.toList []
      let s ← s.type (accept m n) tn
      return s.typeSet a (s.typeGet tn)) := by
    simp only [accept, TypeChecker.visit, ho, hnone, ok_bind, checkRecord]
  rw [hvisit]
  cases hes : fs.toList with
  | nil =>
    have hs₁ : I (s.error a "RecordExp: Untyped".toList none) := h.steady.report hs _
    obtain ⟨s₂, h₂, hs₂, ha₂⟩ := h.givesName _ hs₁
    obtain ⟨htype, hget⟩ := typeRef_eq_ok.mp h₂
    refine .inl ⟨rfl, ?_⟩
    rw [checkFields, ok_bind, htype, ok_bind, hget]
    have hone : Adds a True s (s.error a "RecordExp: Untyped".toList none) :=
      Adds.one (r := .error a _ _) rfl rfl
    exact ⟨typeGet_typeSet .., (hone.trans ha₂).congr (by simp)⟩
  | cons e es => exact .inr ⟨List.cons_ne_nil _ _, rfl⟩

/-- The `def_` of a name of a builtin type is null, and is followed all the same. -/
theorem visit_builtinRecord (hd : m.defs tn.addr = none) :
    accept m (n + 1) (.recordExp a tn fs) s = .error .undefined := by
  simp only [accept, TypeChecker.visit, typeOfBody, hd, Option.bind_none]
  rfl

theorem not_outcome_undefined {t : Option TypePtr} {p : Prop} :
    ¬ Outcome a s t p (.error .undefined) := id

theorem TypeOfName.exists_typeDec {d : Addr} (h : TypeOfName m I tn t)
    (hd : m.defs tn.addr = some d) : ∃ e, m.typeDec d = some e := by
  cases h with
  | int hb | string hb => cases hb.symm.trans hd
  | declared hb hdec =>
    cases hb.symm.trans hd
    obtain ⟨e, he, -⟩ := hdec
    exact ⟨e, he⟩

/-- The type name is that of the record itself. -/
theorem RecordParts.direct {d c : Addr} {e : Ast Addr .typeDec} {g : Ast Addr (.list .field)}
    (h : RecordParts m n I a tn fs x ys) (hs : I s) (hd : m.defs tn.addr = some d)
    (he : m.typeDec d = some e) (hty : tyOf e = .recordTy c g) :
    CheckedCompletely m n I a tn fs ys s ↔ ChecksBody m I tn fs.toList ys (tyOf e) := by
  have hends (t : TypePtr) : EndsIn m (.ofNameTy tn) t ↔ t = .record c := by
    cases e with
    | typeDec b y ty =>
      obtain ⟨b', w⟩ := tn
      cases hty
      constructor
      · intro hend
        cases endsIn_declared hd he hend
        rfl
      · rintro rfl
        exact .alias hd he .record
  obtain ⟨fields, hr, hf⟩ := h.made c ((hends _).mpr rfl)
  have huniq {fields' : List (Symbol × TypePtr)}
      (hr' : ∀ s, I s → s.heap.records c = some fields') : fields' = fields :=
    Option.some.inj ((hr' s hs).symm.trans (hr s hs))
  have hvisit := h.visit hs hd he hty hr fun f hf' => (hf f hf').1
  have hlen : ys.length = fs.toList.length := h.givesInits.length_eq.symm
  have hiff (hn : fs.toList.map initName = fields.map Prod.fst) :=
    passesByPosition_iff (m := m) hn hlen fun f hf' => (hf f hf').2
  rw [hty]
  constructor
  · rintro ⟨t, p, ho, hall⟩ fields' hr'
    obtain rfl := huniq hr'
    obtain ⟨hinit, hslots⟩ := hall c _ ((hends _).mpr rfl) hr
    rcases hvisit with ⟨⟨t', p', ho', hp'⟩, hcount⟩ | ⟨hundef, -⟩
    · have hpp : ¬ p ↔ PassesByPosition m fields' ys := (ho.unique ho').2.not.trans hp'
      refine ⟨hcount, fun hpass => ?_, fun hi => (hpp.mp (hinit.mpr hi)).settled⟩
      have hnames := (hinit.mp (hpp.mpr hpass)).1
      exact ⟨hnames, (storeSlots_eq_range hnames).mp (hslots (hpp.mpr hpass))⟩
    · rw [hundef] at ho
      exact (not_outcome_undefined ho).elim
  · intro hagree
    have hfa := hagree fields hr
    rcases hvisit with ⟨⟨t, p, ho, hp⟩, -⟩ | ⟨-, hcount⟩
    · refine ⟨t, p, ho, fun c' fields' hend hr' => ?_⟩
      cases (hends _).mp hend
      obtain rfl := huniq hr'
      refine ⟨?_, fun hnp => ?_⟩
      · constructor
        · intro hnp
          have hnames := (hfa.named (hp.mp hnp)).1
          exact ⟨hnames, ((hiff hnames).mp (hp.mp hnp)).1⟩
        · intro hi
          exact hp.mpr ((hiff hi.1).mpr ⟨hi.2, hfa.settled hi⟩)
      · obtain ⟨hnames, hnodup⟩ := hfa.named (hp.mp hnp)
        exact (storeSlots_eq_range hnames).mpr hnodup
    · exact absurd hfa.counted hcount

/-- The type name is that of an alias, or of an array. -/
theorem RecordParts.indirect {d : Addr} {e : Ast Addr .typeDec}
    (h : RecordParts m n I a tn fs x ys) (hs : I s) (hd : m.defs tn.addr = some d)
    (he : m.typeDec d = some e) (hty : ∀ c g, tyOf e ≠ .recordTy c g) :
    CheckedCompletely m n I a tn fs ys s ↔ ChecksBody m I tn fs.toList ys (tyOf e) := by
  have hbody : ChecksBody m I tn fs.toList ys (tyOf e) ↔
      fs.toList = [] ∧ ∀ c fields, EndsIn m (.ofNameTy tn) (.record c) →
        (∀ s, I s → s.heap.records c = some fields) → fields ≠ [] := by
    unfold ChecksBody
    split
    · rename_i c g hc
      exact absurd hc (hty c g)
    · exact Iff.rfl
  have hlen : ys.length = fs.toList.length := h.givesInits.length_eq.symm
  rw [hbody]
  rcases h.visit_untyped hs hd he hty with ⟨hnil, ho⟩ | ⟨hne, hundef⟩
  · rw [hnil] at hlen
    obtain rfl := List.eq_nil_of_length_eq_zero hlen
    constructor
    · rintro ⟨t, p, ho', hall⟩
      refine ⟨hnil, fun c fields hend hr hfields => ?_⟩
      have hinit : Initialises m fields fs.toList [] := by
        rw [hnil, hfields]
        exact ⟨rfl, .nil⟩
      exact ((hall c fields hend hr).1.mpr hinit) ((ho'.unique ho).2.mpr trivial)
    · rintro ⟨-, hfields⟩
      refine ⟨some x, True, ho, fun c fields hend hr => ⟨?_, fun hp => absurd trivial hp⟩⟩
      refine iff_of_false (fun hp => hp trivial) fun hi => hfields c fields hend hr ?_
      have hnames := hi.1
      rw [hnil] at hnames
      exact List.map_eq_nil_iff.mp hnames.symm
  · refine iff_of_false ?_ fun hb => hne hb.1
    rintro ⟨t, p, ho, -⟩
    rw [hundef] at ho
    exact not_outcome_undefined ho

/-- **The construction of a record is checked completely exactly when its type name is that of the
record itself, whose fields agree, or there is nothing to check.** -/
theorem checkedCompletely_iff (h : RecordParts m n I a tn fs x ys) (hs : I s) :
    CheckedCompletely m n I a tn fs ys s ↔ ChecksFields m I tn fs.toList ys := by
  cases hdef : m.defs tn.addr with
  | none =>
    refine iff_of_false ?_ ?_
    · rintro ⟨t, p, ho, -⟩
      rw [visit_builtinRecord hdef] at ho
      exact not_outcome_undefined ho
    · rintro ⟨d, e, hd, -⟩
      cases hdef.symm.trans hd
  | some d =>
    obtain ⟨e, he⟩ := h.name.exists_typeDec hdef
    have hchecks : ChecksFields m I tn fs.toList ys ↔ ChecksBody m I tn fs.toList ys (tyOf e) := by
      constructor
      · rintro ⟨d', e', hd', he', hb⟩
        cases hdef.symm.trans hd'
        cases he.symm.trans he'
        exact hb
      · exact fun hb => ⟨d, e, hdef, he, hb⟩
    rw [hchecks]
    by_cases hty : ∃ c g, tyOf e = .recordTy c g
    · obtain ⟨c, g, hty⟩ := hty
      exact h.direct hs hdef he hty
    · exact h.indirect hs hdef he fun c g hc => hty ⟨c, g, hc⟩

end Fields

/-- `type r = { f : int  g : string }`. -/
def twoFields : Ast Addr .typeDec :=
  .typeDec 1 "r".toList (.recordTy 2 (.ofList [.field 3 "f".toList (.nameTy 4 "int".toList),
    .field 5 "g".toList (.nameTy 6 "string".toList)]))

def twoFieldsTree : Tree := ⟨fun a => if a = 11 then some 1 else none, [], [twoFields]⟩

/-- The states in which the declaration has been visited, and the parts of the expression have
their types or none yet. -/
structure TwoFieldsVisited (s : TypeChecker) : Prop where
  named : s.heap.nameds 1 = some ("r".toList, some (.record 2))
  record : s.heap.records 2 = some [("f".toList, .int), ("g".toList, .string)]
  body : s.types 2 = some (.record 2)
  name : ∀ u, s.types 11 = some u → u = .named 1
  first : ∀ u, s.types 13 = some u → u = .int
  second : ∀ u, s.types 15 = some u → u = .string

/-- Nothing of the expression has a type yet. -/
def twoFieldsState : TypeChecker where
  types a := if a = 2 then some (.record 2) else none
  heap.nameds a := if a = 1 then some ("r".toList, some (.record 2)) else none
  heap.records a := if a = 2 then some [("f".toList, .int), ("g".toList, .string)] else none

theorem twoFieldsState_visited : TwoFieldsVisited twoFieldsState :=
  ⟨rfl, rfl, rfl, by rintro _ ⟨⟩, by rintro _ ⟨⟩, by rintro _ ⟨⟩⟩

theorem TwoFieldsVisited.typeSet (hs : TwoFieldsVisited s) {b : Addr} {u : TypePtr}
    (h : b = 11 ∧ u = .named 1 ∨ b = 13 ∧ u = .int ∨ b = 15 ∧ u = .string) :
    TwoFieldsVisited (s.typeSet b (some u)) := by
  obtain ⟨hn, hr, hbody, hname, hfirst, hsecond⟩ := hs
  rcases h with ⟨rfl, rfl⟩ | ⟨rfl, rfl⟩ | ⟨rfl, rfl⟩ <;>
    exact ⟨hn, hr, hbody, eq_of_typeSet hname (by simp), eq_of_typeSet hfirst (by simp),
      eq_of_typeSet hsecond (by simp)⟩

/-- `{ name = 0  g = "a" }`. -/
def twoInits (name : Symbol) : Ast Addr (.list .fieldInit) :=
  .ofList [.fieldInit 12 name (.intExp 13 0),
    .fieldInit 14 "g".toList (.stringExp 15 "a".toList)]

theorem twoFields_ends {c : Addr}
    (h : EndsIn twoFieldsTree (.ofNameTy (.nameTy 11 "r".toList)) (.record c)) : c = 2 := by
  cases endsIn_declared rfl rfl h
  rfl

theorem twoFields_parts (name : Symbol) :
    RecordParts twoFieldsTree 3 TwoFieldsVisited 10 (.nameTy 11 "r".toList) (twoInits name)
      (.named 1) [.int, .string] where
  steady := ⟨Nat.le_refl 3,
    fun hs _ => ⟨hs.named, hs.record, hs.body, hs.name, hs.first, hs.second⟩⟩
  name := .declared rfl ⟨twoFields, rfl, fun s hs => ⟨_, hs.named⟩⟩
  givesName := .of_method (fun s hs => hs.name)
    (fun s hs => by
      simp [accept, visit, twoFieldsTree, createdTypeDec, hs.named, Ast.addr, Ast.nodes])
    fun s hs => hs.typeSet (.inl ⟨rfl, rfl⟩)
  givesInits := by
    refine .cons ⟨?_, trivial⟩ (.cons ⟨?_, trivial⟩ .nil)
    · exact .of_method (fun s hs => hs.first) (fun s _ => rfl)
        fun s hs => hs.typeSet (.inr (.inl ⟨rfl, rfl⟩))
    · exact .of_method (fun s hs => hs.second) (fun s _ => rfl)
        fun s hs => hs.typeSet (.inr (.inr ⟨rfl, rfl⟩))
  body d e hd he s hs := by
    cases hd
    cases he
    exact hs.body
  made c hc := by
    obtain rfl := twoFields_ends hc
    exact ⟨_, fun s hs => hs.record, by simp [IsDeclared]⟩

theorem twoFields_fields {fields : List (Symbol × TypePtr)}
    (h : ∀ s, TwoFieldsVisited s → s.heap.records 2 = some fields) :
    fields = [("f".toList, .int), ("g".toList, .string)] :=
  (Option.some.inj (h _ twoFieldsState_visited)).symm

theorem twoFields_settled : Settled twoFieldsTree [.int, .string] [.int, .string] := by
  simp [Settled, IsAliasPtr]

/-- `r { f = 0  g = "a" }` is accepted. -/
theorem twoFields_checkedCompletely :
    CheckedCompletely twoFieldsTree 3 TwoFieldsVisited 10 (.nameTy 11 "r".toList)
      (twoInits "f".toList) [.int, .string] twoFieldsState := by
  refine (checkedCompletely_iff (twoFields_parts _) twoFieldsState_visited).mpr
    ⟨1, twoFields, rfl, rfl, fun fields hr => ?_⟩
  obtain rfl := twoFields_fields hr
  exact ⟨.inl (Nat.le_refl 2), fun _ => ⟨rfl, by decide⟩, fun _ => twoFields_settled⟩

/-- `r { h = 0  g = "a" }` is accepted too. -/
theorem not_checkedCompletely :
    ¬ ∀ (m : Tree) (n : Nat) (I : TypeChecker → Prop) (a : Addr) (tn : Ast Addr .nameTy)
      (fs : Ast Addr (.list .fieldInit)) (x : TypePtr) (ys : List TypePtr) (s : TypeChecker),
      RecordParts m n I a tn fs x ys → I s → CheckedCompletely m n I a tn fs ys s := by
  intro hall
  have hparts := twoFields_parts "h".toList
  have hchecked := hall _ _ _ _ _ _ _ _ _ hparts twoFieldsState_visited
  rw [hparts.direct twoFieldsState_visited rfl rfl rfl] at hchecked
  have hagree := hchecked _ fun s hs => hs.record
  have hpass : PassesByPosition twoFieldsTree [("f".toList, .int), ("g".toList, .string)]
      [.int, .string] :=
    .cons ⟨id, id, .int, .int, .actual trivial, .actual trivial, .inl rfl⟩
      (.cons ⟨id, id, .string, .string, .actual trivial, .actual trivial, .inl rfl⟩ .nil)
  have hnames := (hagree.named hpass).1
  simp [twoInits, Ast.ofList, initName] at hnames

end TigerCompiler
