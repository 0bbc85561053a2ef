import TigerCompiler.Type.Checks

/-!
# Fields and elements

`operator()(FieldVar)` and `operator()(SubscriptVar)` look for a record, respectively an array, by
a `dynamic_cast` of the type of the variable itself.  A variable that has been given its type by a
name has a `Named` for type, and a `Named` is neither: the two methods see the aliases.
-/

namespace TigerCompiler

open TypeHeap TypeChecker

/-- What is accessed of a variable. -/
inductive Access
  | field (name : Symbol)
  | element (index : Ast Addr .exp)

namespace Access

/-- The variable an access to `v` makes. -/
def of (v : Ast Addr .var) (a : Addr) : Access → Ast Addr .var
  | .field name => .fieldVar a v name
  | .element i => .subscriptVar a v i

/-- The class the `dynamic_cast` of the method is after. -/
def Matches : Access → TypePtr → Prop
  | .field _, .record _ => True
  | .element _, .array _ => True
  | _, _ => False

/-- The object `t` has what is accessed, which is of type `u`. -/
def Provides (h : TypeHeap) : Access → TypePtr → TypePtr → Prop
  | .field name, .record r, u => ∃ fields, h.records r = some fields ∧ fields.lookup name = some u
  | .element _, .array r, u => h.arrays r = some u
  | _, _, _ => False

end Access

/-- A record or an array that has been made. -/
def Made (h : TypeHeap) : TypePtr → Prop
  | .record r => (h.records r).isSome = true
  | .array r => (h.arrays r).isSome = true
  | _ => False

section

variable {m : Tree} {n : Nat} {I I₁ I₂ : TypeChecker → Prop}
  {a b : Addr} {v : Ast Addr .var} {x : Access} {t u : TypePtr} {s s₁ s₂ : TypeChecker}

/-- The index can be typed, and the states of `I` stay so when it gets the type nil. -/
structure Index (m : Tree) (n : Nat) (I : TypeChecker → Prop) (a : Addr) (i : Ast Addr .exp) :
    Prop where
  gives : ∃ t u, Gives I a (accept m n) i t ∧ ∀ s, I s → ComesTo s.heap n t u
  addr_ne : i.addr ≠ a
  recover : ∀ s, I s → I (s.typeSet i.addr (some .nil))

/-- Typing `v` gives exactly `t`, and typing the index of the access ends. -/
structure Accessed (m : Tree) (n : Nat) (I : TypeChecker → Prop) (a : Addr) (v : Ast Addr .var)
    (x : Access) (t : TypePtr) : Prop where
  steady : Steady n I
  gives : Gives I a (accept m n) v t
  index : ∀ i, x = .element i → Index m n I a i

/-- The static type of `v` is the record or the array `t` in the states of `I₁`; in those of `I₂`
it has been replaced by a `Named` whose `actual()` is `t`. -/
structure Replaced (m : Tree) (n : Nat) (I₁ I₂ : TypeChecker → Prop) (a : Addr)
    (v : Ast Addr .var) (x : Access) (t : TypePtr) (b : Addr) : Prop where
  bare : Accessed m n I₁ a v x t
  named : Accessed m n I₂ a v x (.named b)
  comes : ∀ s, I₂ s → Resolves s.heap (.named b) t
  made : ∀ s, I₁ s → Made s.heap t

/-! ## The checks before the cast -/

/-- `check_type` on the index. -/
theorem Index.checkType {i : Ast Addr .exp} (hI : Steady n I) (hi : Index m n I a i)
    (hs : I s) (msg : Str) (t : TypePtr) :
    ∃ s', s.checkType n (accept m n) i msg t = .ok s' ∧ I s' ∧ Adds a False s s' := by
  obtain ⟨t₁, u, hg, hu⟩ := hi.gives
  obtain ⟨s₁, h₁, hs₁, ha₁⟩ := hg s hs
  have hactual : s₁.heap.actual n t₁ = .ok u := (hu s₁ hs₁).2 n (by omega)
  simp only [TypeChecker.checkType, h₁, ok_bind, hactual]
  by_cases hut : u = t
  · exact ⟨s₁, by rw [if_pos hut]; rfl, hs₁, ha₁⟩
  · refine ⟨s₁.errorAndRecover i.addr msg (.type u), by rw [if_neg hut]; rfl, ?_, ?_⟩
    · exact hi.recover _ (hI.report hs₁ _)
    · have hone : Adds a False s₁ (s₁.errorAndRecover i.addr msg (.type u)) :=
        ⟨[.error i.addr msg (some (.type u))], rfl, by simpa [Report.node] using hi.addr_ne⟩
      exact (ha₁.trans hone).congr (by simp)

/-- The methods get to their cast. -/
theorem Accessed.visit_eq (h : Accessed m n I a v x t) (hs : I s) :
    ∃ s', I s' ∧ Adds a False s s' ∧ s'.typeGet v = some t ∧
      accept m (n + 1) (x.of v a) s = match x with
        | .field name => match s'.asRecord (some t) with
          | some fields => do return s'.typeSet a (some (← fieldType fields name))
          | none => .ok (s'.errorAndRecover a "wrong type".toList (.pointer (some t)))
        | .element _ => match s'.asArray (some t) with
          | some u => .ok (s'.typeSet a (some u))
          | none => .ok (s'.errorAndRecover a "wrong type".toList (.pointer (some t))) := by
  cases x with
  | field name =>
    obtain ⟨s', h', hs', ha⟩ := h.gives s hs
    obtain ⟨htype, hget⟩ := typeRef_eq_ok.mp h'
    refine ⟨s', hs', ha, hget, ?_⟩
    simp only [Access.of, accept, visit, htype, ok_bind, hget]
    rfl
  | element i =>
    obtain ⟨s₁, h₁, hs₁, ha₁⟩ := (h.index i rfl).checkType h.steady hs "expected int".toList .int
    obtain ⟨s', h', hs', ha⟩ := h.gives s₁ hs₁
    obtain ⟨htype, hget⟩ := typeRef_eq_ok.mp h'
    refine ⟨s', hs', (ha₁.trans ha).congr (by simp), hget, ?_⟩
    simp only [Access.of, accept, visit, h₁, htype, ok_bind, hget]
    cases s'.asArray (some t) <;> rfl

theorem Outcome.wrongType {s' : TypeChecker} (ha : Adds a False s s') (t : Option TypePtr) :
    Outcome a s (some .nil) True
      (.ok (s'.errorAndRecover a "wrong type".toList (.pointer t))) := by
  refine ⟨typeGet_typeSet .., ?_⟩
  have hone : Adds a True s' (s'.errorAndRecover a "wrong type".toList (.pointer t)) :=
    Adds.one (r := .error a _ _) rfl rfl
  exact (ha.trans hone).congr (by simp)

/-- What is neither a record nor an array, or is the wrong one of the two, is rejected. -/
theorem Accessed.rejects (h : Accessed m n I a v x t) (hs : I s) (hx : ¬ x.Matches t) :
    Outcome a s (some .nil) True (accept m (n + 1) (x.of v a) s) := by
  obtain ⟨s', hs', ha, -, heq⟩ := h.visit_eq hs
  rw [heq]
  cases x <;> cases t <;>
    first
    | exact Outcome.wrongType ha _
    | exact absurd trivial hx

/-- The right object gives the type it has, or there is a typing error. -/
theorem Accessed.accepts (h : Accessed m n I a v x t) (hs : I s) (hx : x.Matches t)
    (hm : ∀ s, I s → Made s.heap t) :
    (∃ u, Outcome a s (some u) False (accept m (n + 1) (x.of v a) s)) ∨
      Outcome a s none True (accept m (n + 1) (x.of v a) s) := by
  obtain ⟨s', hs', ha, -, heq⟩ := h.visit_eq hs
  have hmade := hm s' hs'
  rw [heq]
  cases x with
  | field name =>
    cases t with
    | record r =>
      obtain ⟨fields, hfields⟩ := Option.isSome_iff_exists.mp hmade
      simp only [asRecord, hfields, fieldType]
      cases fields.lookup name with
      | none => exact .inr ⟨rfl, rfl, trivial⟩
      | some u => exact .inl ⟨u, typeGet_typeSet .., ha⟩
    | _ => exact hx.elim
  | element i =>
    cases t with
    | array r =>
      obtain ⟨u, hu⟩ := Option.isSome_iff_exists.mp hmade
      simp only [asArray, hu]
      exact .inl ⟨u, typeGet_typeSet .., ha⟩
    | _ => exact hx.elim

/-! ## Seeing the aliases -/

/-- The access comes to the same whether `v` has the type `t` or the `Named`, and is accepted with
the latter when `t` has what is accessed. -/
def AliasBlind (m : Tree) (n : Nat) (a : Addr) (v : Ast Addr .var) (x : Access) (t : TypePtr)
    (s₁ s₂ : TypeChecker) : Prop :=
  (∃ u p, Outcome a s₁ u p (accept m (n + 1) (x.of v a) s₁) ∧
    Outcome a s₂ u p (accept m (n + 1) (x.of v a) s₂)) ∧
  ∀ u, x.Provides s₂.heap t u → Outcome a s₂ (some u) False (accept m (n + 1) (x.of v a) s₂)

theorem Access.Provides.matches {h : TypeHeap} (hp : x.Provides h t u) : x.Matches t := by
  cases x <;> cases t <;>
    first
    | exact hp.elim
    | trivial

/-- **An access does not see the aliases exactly when it is rejected with the bare type as
well.** -/
theorem aliasBlind_iff (h : Replaced m n I₁ I₂ a v x t b) (h₁ : I₁ s₁) (h₂ : I₂ s₂) :
    AliasBlind m n a v x t s₁ s₂ ↔ ¬ x.Matches t := by
  have hnamed : Outcome a s₂ (some .nil) True (accept m (n + 1) (x.of v a) s₂) :=
    h.named.rejects h₂ (by cases x <;> exact id)
  constructor
  · rintro ⟨⟨u, p, hu₁, hu₂⟩, -⟩ hx
    obtain ⟨rfl, hp⟩ := hu₂.unique hnamed
    rcases h.bare.accepts h₁ hx h.made with ⟨u, hu⟩ | hu
    · exact (hu.unique hu₁).2.mpr (hp.mpr trivial)
    · cases (hu.unique hu₁).1
  · intro hx
    exact ⟨⟨_, _, h.bare.rejects h₁ hx, hnamed⟩, fun u hu => absurd hu.matches hx⟩

/-- The states in which `v` has the type `t` and the heap is `h`. -/
def HasType (h : TypeHeap) (v : Ast Addr .var) (t : TypePtr) (s : TypeChecker) : Prop :=
  s.types v.addr = some t ∧ s.heap = h

theorem accessed_field {h : TypeHeap} {name : Symbol} (hn : 3 ≤ n) :
    Accessed m n (HasType h v t) a v (.field name) t where
  steady := ⟨hn, fun hs _ => hs⟩
  gives := Gives.of_typed fun _ hs => hs.1
  index := nofun

/-- The `Named` at 1 is the record at 2, the one at 3 the array at 4. -/
def twoNames : TypeHeap where
  nameds a :=
    if a = 1 then some ("r".toList, some (.record 2))
    else if a = 3 then some ("t".toList, some (.array 4)) else none
  records a := if a = 2 then some [("f".toList, .int)] else none
  arrays a := if a = 4 then some .int else none

/-- The access is to a field, and the type of the variable has been replaced by a name. -/
theorem replaced_field (m : Tree) (v : Ast Addr .var) (a : Addr) (name : Symbol)
    (ht : Resolves twoNames (.named b) t) (hm : Made twoNames t) :
    Replaced m 3 (HasType twoNames v t) (HasType twoNames v (.named b)) a v (.field name) t b where
  bare := accessed_field (Nat.le_refl 3)
  named := accessed_field (Nat.le_refl 3)
  comes s hs := by rwa [hs.2]
  made s hs := by rwa [hs.2]

/-- `v.f` for an array `v` is rejected under any name. -/
theorem fieldOfArray_aliasBlind :
    AliasBlind ⟨fun _ => none, [], []⟩ 3 10 (.simpleVar 11 "v".toList) (.field "f".toList)
      (.array 4)
      { types := fun b => if b = 11 then some (.array 4) else none, heap := twoNames }
      { types := fun b => if b = 11 then some (.named 3) else none, heap := twoNames } :=
  (aliasBlind_iff (replaced_field (t := .array 4) _ _ _ _ (.named rfl (.actual trivial)) rfl)
    ⟨rfl, rfl⟩ ⟨rfl, rfl⟩).mpr id

/-- `v.f` is accepted for a variable of the record type itself, and rejected for one that has been
declared by the name of this type. -/
theorem not_aliasBlind :
    ¬ ∀ (m : Tree) (n : Nat) (I₁ I₂ : TypeChecker → Prop) (a : Addr)
      (v : Ast Addr .var) (x : Access) (t : TypePtr) (b : Addr) (s₁ s₂ : TypeChecker),
      Replaced m n I₁ I₂ a v x t b → I₁ s₁ → I₂ s₂ → AliasBlind m n a v x t s₁ s₂ := by
  intro hall
  have hr := replaced_field ⟨fun _ => none, [], []⟩ (.simpleVar 11 "v".toList) 10 "f".toList
    (b := 1) (t := .record 2) (.named rfl (.actual trivial)) rfl
  have h₂ : HasType twoNames (.simpleVar 11 "v".toList) (.named 1)
      { types := fun b => if b = 11 then some (.named 1) else none, heap := twoNames } :=
    ⟨rfl, rfl⟩
  obtain ⟨-, hacc⟩ := hall _ _ _ _ _ _ _ _ _
    { types := fun b => if b = 11 then some (.record 2) else none, heap := twoNames } _ hr
    ⟨rfl, rfl⟩ h₂
  have hout := hacc .int ⟨_, rfl, rfl⟩
  exact (hout.unique (hr.named.rejects h₂ id)).2.mpr trivial

end

end TigerCompiler
