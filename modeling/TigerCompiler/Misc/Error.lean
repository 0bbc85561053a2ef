import TigerCompiler.Ast.Syntax

/-!
# Errors

`misc::error` as the passes use it: a status and the text put on the stream.  A pass that calls
`error::exit` throws its error object; the other ways in which a run may fail to come to its end
are gathered with it in `Stop`.
-/

namespace TigerCompiler

/-- `misc::error::error_type`. -/
inductive ErrorType
  | success | failure | scan | parse | bind | type
  deriving DecidableEq, Repr

/-- A `misc::error` with its status and its message. -/
structure Error where
  status : ErrorType
  text : Str
  deriving DecidableEq, Repr

/-- Why a run stops before its end. -/
inductive Stop
  /-- `error_.exit()`: the error object is thrown. -/
  | error (e : Error)
  /-- `std::logic_error`, thrown by a container used against its contract. -/
  | logicError
  /-- A null pointer is dereferenced or an index is out of range: no behaviour is defined. -/
  | undefined
  /-- A contract of `misc/contract.hh` is broken: the program is terminated. -/
  | contract
  /-- The number of nested calls the model was given is used up. -/
  | outOfFuel
  deriving DecidableEq, Repr

/-- The error object thrown for a binding error. -/
def bindError (text : Str) : Stop := .error ⟨.bind, text⟩

/-! ## Sequencing -/

variable {ε α β : Type}

/-- A sequence succeeds exactly when its first step does and the rest does from there. -/
@[simp] theorem bind_eq_ok {x : Except ε α} {f : α → Except ε β} {b : β} :
    (x >>= f) = .ok b ↔ ∃ a, x = .ok a ∧ f a = .ok b := by
  cases x with
  | error e => simp [bind, Except.bind]
  | ok a => simp [bind, Except.bind]

@[simp] theorem ok_bind (a : α) (f : α → Except ε β) : (Except.ok a >>= f) = f a := rfl

@[simp] theorem error_bind (e : ε) (f : α → Except ε β) :
    (Except.error e >>= f) = .error e := rfl

/-- A run that leaves something behind is a run that succeeds. -/
theorem exists_eq_ok {x : Except ε α} (h : x.toOption.isSome = true) : ∃ a, x = .ok a := by
  cases x with
  | error e => simp [Except.toOption] at h
  | ok a => exact ⟨a, rfl⟩

/-- A run whose outcome is checked by evaluation. -/
theorem exists_ok_of_any {x : Except ε α} {P : α → Prop} [DecidablePred P]
    (h : x.toOption.any (decide <| P ·) = true) : ∃ a, x = .ok a ∧ P a := by
  cases x with
  | error e => simp [Except.toOption] at h
  | ok a => exact ⟨a, rfl, by simpa [Except.toOption] using h⟩

/-! ## How a run may end -/

/-- A run that satisfies `I` when it succeeds, and stops for a reason in `E` when it does not. -/
def Ends (E : ε → Prop) (I : α → Prop) : Except ε α → Prop
  | .ok a => I a
  | .error e => E e

variable {E : ε → Prop} {I J : α → Prop} {K : β → Prop}

theorem Ends.bind {x : Except ε α} {f : α → Except ε β} (hx : Ends E I x)
    (hf : ∀ a, I a → Ends E K (f a)) : Ends E K (x >>= f) := by
  cases x with
  | error e => exact hx
  | ok a => exact hf a hx

theorem Ends.imp {x : Except ε α} (hx : Ends E I x) (h : ∀ a, I a → J a) : Ends E J x := by
  cases x with
  | error e => exact hx
  | ok a => exact h a hx

theorem Ends.imp₂ {E' : ε → Prop} {x : Except ε α} (hx : Ends E I x) (he : ∀ e, E e → E' e)
    (h : ∀ a, I a → J a) : Ends E' J x := by
  cases x with
  | error e => exact he e hx
  | ok a => exact h a hx

/-- A run that has no reason to stop succeeds. -/
theorem Ends.exists_ok {x : Except ε α} (hx : Ends (fun _ => False) I x) :
    ∃ a, x = .ok a ∧ I a := by
  cases x with
  | error e => exact hx.elim
  | ok a => exact ⟨a, rfl, hx⟩

end TigerCompiler
