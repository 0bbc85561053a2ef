import TigerCompiler.Type.Checks

/-!
# `&` and `|`

The language has no node for the boolean operators: the parser makes an `IfExp` of each, with a
constant for the operand that is not evaluated.  The constants are `StringExp`s, whose text is that
of an expression.
-/

namespace TigerCompiler

open TypeHeap TypeChecker

/-- The action of the rule for `&`, the constant being the node `k`. -/
def makeAnd (a k : Addr) (left right : Ast Addr .exp) : Ast Addr .exp :=
  .ifExp a left right (.stringExp k "1 = 2".toList)

/-- The action of the rule for `|`. -/
def makeOr (a k : Addr) (left right : Ast Addr .exp) : Ast Addr .exp :=
  .ifExp a left (.stringExp k "1 = 1".toList) right

namespace ShortCircuit

/-! ## Evaluation -/

/-- A value of a basic type. -/
inductive Value
  | int (i : Int)
  | string (s : Str)
  deriving DecidableEq, Repr

variable {σ : Type}

/-- The evaluation of an expression in a store: constants and `if` as in Tiger, any other
expression as `op` says. -/
def eval (op : ⦃k : Kind⦄ → Ast Addr k → σ → Option (Value × σ)) :
    {k : Kind} → Ast Addr k → σ → Option (Value × σ)
  | _, .intExp _ i, st => some (.int i, st)
  | _, .stringExp _ s, st => some (.string s, st)
  | _, .ifExp _ c t e, st =>
    match eval op c st with
    | some (.int i, st) => if i = 0 then eval op e st else eval op t st
    | _ => none
  | _, e, st => op e st

variable {op : ⦃k : Kind⦄ → Ast Addr k → σ → Option (Value × σ)} {a k : Addr}
  {left right : Ast Addr .exp} {st st₁ : σ} {i : Int}

/-- `a & b` is `b` unless `a` is 0. -/
theorem eval_makeAnd (h : eval op left st = some (.int i, st₁)) :
    eval op (makeAnd a k left right) st =
      if i = 0 then some (.string "1 = 2".toList, st₁) else eval op right st₁ := by
  simp only [makeAnd, eval, h]

/-- `a | b` is `b` if `a` is 0. -/
theorem eval_makeOr (h : eval op left st = some (.int i, st₁)) :
    eval op (makeOr a k left right) st =
      if i = 0 then eval op right st₁ else some (.string "1 = 1".toList, st₁) := by
  simp only [makeOr, eval, h]

/-! ## Typing -/

variable {m : Tree} {n : Nat} {I : TypeChecker → Prop} {s : TypeChecker} {x y : TypePtr}

/-- The two operands are int expressions, of any shape: typing them ends, with types `x` and `y`
that come to int.  The constant can be typed too. -/
structure IntOperands (m : Tree) (n : Nat) (I : TypeChecker → Prop) (a k : Addr)
    (left right : Ast Addr .exp) (x y : TypePtr) : Prop where
  steady : Steady n I
  left : Gives I a (accept m n) left x
  left_int : ∀ s, I s → ComesTo s.heap n x .int
  right : Gives I a (accept m n) right y
  right_int : ∀ s, I s → ComesTo s.heap n y .int
  constant : ∀ w, Gives I a (accept m n) (.stringExp k w) .string

/-- No error is reported for the node, which gets the type int. -/
def WellTyped (m : Tree) (n : Nat) (e : Ast Addr .exp) (s : TypeChecker) : Prop :=
  Outcome e.addr s (some .int) False (accept m (n + 1) e s)

/-- `a & b` and `a | b` are well typed, and compute the conjunction and the disjunction of their
operands without evaluating the second when the first decides. -/
structure IsShortCircuit (m : Tree) (n : Nat) (a k : Addr) (left right : Ast Addr .exp)
    (op : ⦃k : Kind⦄ → Ast Addr k → σ → Option (Value × σ)) (s : TypeChecker) : Prop where
  and_typed : WellTyped m n (makeAnd a k left right) s
  and_zero {st st₁ : σ} (h : eval op left st = some (.int 0, st₁)) :
    eval op (makeAnd a k left right) st = some (.int 0, st₁)
  and_right {st st₁ st₂ : σ} {i j : Int} (h : eval op left st = some (.int i, st₁)) (hi : i ≠ 0)
    (h' : eval op right st₁ = some (.int j, st₂)) :
    ∃ r, eval op (makeAnd a k left right) st = some (.int r, st₂) ∧ (r ≠ 0 ↔ j ≠ 0)
  or_typed : WellTyped m n (makeOr a k left right) s
  or_left {st st₁ : σ} {i : Int} (h : eval op left st = some (.int i, st₁)) (hi : i ≠ 0) :
    ∃ r ≠ 0, eval op (makeOr a k left right) st = some (.int r, st₁)
  or_right {st st₁ st₂ : σ} {j : Int} (h : eval op left st = some (.int 0, st₁))
    (h' : eval op right st₁ = some (.int j, st₂)) :
    ∃ r, eval op (makeOr a k left right) st = some (.int r, st₂) ∧ (r ≠ 0 ↔ j ≠ 0)

/-- The test of an `if` whose branches do not fit. -/
theorem visit_ifExp {c t e : Ast Addr .exp} {z u v u' v' : TypePtr} (hI : Steady n I) (hs : I s)
    (hc : Gives I a (accept m n) c z) (hz : ∀ s, I s → ComesTo s.heap n z .int)
    (ht : Gives I a (accept m n) t u) (hu : ∀ s, I s → ComesTo s.heap n u u')
    (he : Gives I a (accept m n) e v) (hv : ∀ s, I s → ComesTo s.heap n v v')
    (hf : ¬ Fits u' v') : ∃ r, Outcome a s r True (accept m (n + 1) (.ifExp a c t e) s) := by
  obtain ⟨s₁, h₁, hs₁, ha₁⟩ := hc s hs
  obtain ⟨s₂, h₂, hs₂, ha₂⟩ := ht s₁ hs₁
  obtain ⟨s₃, h₃, hs₃, ha₃⟩ := he s₂ hs₂
  obtain ⟨s₄, h₄, hs₄, -, ha₄⟩ := hI.checkTypes (a := a) hs₃ (hu s₃ hs₃) (hv s₃ hs₃) "then".toList
    "else".toList
  have hz₁ : s₁.heap.actual n z = .ok .int := (hz s₁ hs₁).2 n (by omega)
  have hvisit : accept m (n + 1) (.ifExp a c t e) s = .ok (s₄.typeSet a (s₄.typeGet t)) := by
    have htest : s.checkType n (accept m n) c "expected int".toList .int = .ok s₁ := by
      simp only [TypeChecker.checkType, h₁, ok_bind, hz₁]
      rfl
    have hbranches : s₁.checkTypesOf n (accept m n) a "then".toList t "else".toList e = .ok s₄ := by
      simp only [checkTypesOf, h₂, h₃, ok_bind, h₄]
    simp only [accept, visit, htest, hbranches, ok_bind]
    rfl
  rw [hvisit]
  refine ⟨s₄.typeGet t, typeGet_typeSet .., ?_⟩
  exact (((ha₁.trans ha₂).trans ha₃).trans ha₄).congr (by simp [hf])

theorem IntOperands.string (h : IntOperands m n I a k left right x y) (s : TypeChecker) :
    ComesTo s.heap n .string .string := .of_isActual trivial (by have := h.steady.fuel; omega)

theorem IntOperands.and_ill_typed (h : IntOperands m n I a k left right x y) (hs : I s) :
    ¬ WellTyped m n (makeAnd a k left right) s := by
  obtain ⟨r, hr⟩ := visit_ifExp h.steady hs h.left h.left_int h.right h.right_int
    (h.constant "1 = 2".toList) (fun s _ => h.string s) (by decide)
  exact fun hw => (hw.unique hr).2.mpr trivial

theorem IntOperands.or_ill_typed (h : IntOperands m n I a k left right x y) (hs : I s) :
    ¬ WellTyped m n (makeOr a k left right) s := by
  obtain ⟨r, hr⟩ := visit_ifExp h.steady hs h.left h.left_int
    (h.constant "1 = 1".toList) (fun s _ => h.string s) h.right h.right_int (by decide)
  exact fun hw => (hw.unique hr).2.mpr trivial

/-- **The boolean operators are never what they are meant to be**: whatever the operands, neither
is well typed, an `&` whose first operand is 0 is a string, and so is an `|` whose first operand is
not. -/
theorem not_isShortCircuit (h : IntOperands m n I a k left right x y) (hs : I s) :
    ¬ IsShortCircuit m n a k left right op s ∧
      (¬ WellTyped m n (makeAnd a k left right) s ∧ ¬ WellTyped m n (makeOr a k left right) s) ∧
      ∀ st i st₁, eval op left st = some (.int i, st₁) →
        eval op (makeAnd a k left right) st =
          (if i = 0 then some (.string "1 = 2".toList, st₁) else eval op right st₁) ∧
        eval op (makeOr a k left right) st =
          (if i = 0 then eval op right st₁ else some (.string "1 = 1".toList, st₁)) :=
  ⟨fun hi => h.and_ill_typed hs hi.and_typed, ⟨h.and_ill_typed hs, h.or_ill_typed hs⟩,
    fun _ _ _ he => ⟨eval_makeAnd he, eval_makeOr he⟩⟩

/-- The states in which the operands are typed, and the constant may be. -/
def ConstantsTyped (s : TypeChecker) : Prop :=
  s.types 1 = some .int ∧ s.types 2 = some .int ∧ (s.types 3 = none ∨ s.types 3 = some .string)

theorem constants_operands (i j : Int) :
    IntOperands ⟨fun _ => none, [], []⟩ 3 ConstantsTyped 0 3 (.intExp 1 i) (.intExp 2 j) .int
      .int where
  steady := ⟨Nat.le_refl 3, fun hs _ => hs⟩
  left := Gives.of_typed fun s hs => hs.1
  left_int s _ := .of_isActual trivial (by decide)
  right := Gives.of_typed fun s hs => hs.2.1
  right_int s _ := .of_isActual trivial (by decide)
  constant w s hs := by
    have hconst {o : Option TypePtr} (ho : s.typeGet (.stringExp 3 w) = o) : s.types 3 = o := ho
    cases ht : s.typeGet (.stringExp 3 w) with
    | some t =>
      have hstring : t = .string := by
        rcases hs.2.2 with hnone | hsome
        · rw [hconst ht] at hnone
          cases hnone
        · rw [hconst ht] at hsome
          exact Option.some.inj hsome
      exact ⟨s, typeRef_eq_ok.mpr ⟨by rw [TypeChecker.type, ht]; rfl, hstring ▸ ht⟩, hs, .of_eq rfl⟩
    | none =>
      refine ⟨s.typeSet 3 (some .string), typeRef_eq_ok.mpr ⟨?_, typeGet_typeSet ..⟩, ?_,
        .of_eq rfl⟩
      · rw [TypeChecker.type, ht]
        rfl
      · obtain ⟨h₁, h₂, -⟩ := hs
        exact ⟨h₁, h₂, .inr rfl⟩

/-- The evaluation of constants alone. -/
def constantsOnly : ⦃k : Kind⦄ → Ast Addr k → Unit → Option (Value × Unit) := fun _ _ _ => none

/-- `1 & 1` is rejected. -/
theorem oneAndOne_not_isShortCircuit :
    ¬ IsShortCircuit ⟨fun _ => none, [], []⟩ 3 0 3 (.intExp 1 1) (.intExp 2 1) constantsOnly
      { types := fun a => if a = 1 ∨ a = 2 then some .int else none } :=
  (not_isShortCircuit (constants_operands 1 1) ⟨rfl, rfl, .inl rfl⟩).1

/-- `0 & 1` does not compute the conjunction. -/
theorem not_isShortCircuit_of_intOperands :
    ¬ ∀ (m : Tree) (n : Nat) (I : TypeChecker → Prop) (a k : Addr) (left right : Ast Addr .exp)
      (x y : TypePtr) (op : ⦃k : Kind⦄ → Ast Addr k → Unit → Option (Value × Unit))
      (s : TypeChecker), IntOperands m n I a k left right x y → I s →
        IsShortCircuit m n a k left right op s := by
  intro hall
  have h := hall _ _ _ _ _ _ _ _ _ constantsOnly
    { types := fun a => if a = 1 ∨ a = 2 then some .int else none } (constants_operands 0 1)
    ⟨rfl, rfl, .inl rfl⟩
  have hleft : eval constantsOnly (.intExp 1 0) () = some (.int 0, ()) := rfl
  have hzero := h.and_zero hleft
  rw [eval_makeAnd (i := 0) rfl] at hzero
  simp at hzero

end ShortCircuit

end TigerCompiler
