import Mathlib.Logic.Function.Basic
import TigerCompiler.Misc.Error

/-!
# `misc::scoped_map`

A stack of dictionaries.  Opening a scope pushes an empty dictionary, closing it pops the
innermost one, and a lookup goes from the innermost dictionary outwards.  The vector of the
source keeps the innermost dictionary at its back; here it is the head of `levels`.

Lookups are those of the overload for pointer data: absence is `nullptr`, modelled by `none`.
-/

namespace TigerCompiler

/-- `std::map<Key, Data>` as its lookup function. -/
abbrev Dict (Key Data : Type) := Key → Option Data

/-- `misc::scoped_map<Key, Data>`. -/
structure ScopedMap (Key Data : Type) where
  levels : List (Dict Key Data)

namespace ScopedMap

variable {Key Data : Type} [DecidableEq Key]

/-- `scope_begin`: open a scope. -/
def scopeBegin (m : ScopedMap Key Data) : ScopedMap Key Data :=
  ⟨(fun _ => none) :: m.levels⟩

/-- The constructor: one scope is open from the start. -/
def init : ScopedMap Key Data := scopeBegin ⟨[]⟩

/-- `scope_end`: close the innermost scope; throws `std::logic_error` when there is none. -/
def scopeEnd : ScopedMap Key Data → Except Stop (ScopedMap Key Data)
  | ⟨[]⟩ => .error .logicError
  | ⟨_ :: ds⟩ => .ok ⟨ds⟩

/-- `put`: map `key` to `value` in the innermost scope; throws `std::logic_error` when there
is none. -/
def put : ScopedMap Key Data → Key → Data → Except Stop (ScopedMap Key Data)
  | ⟨[]⟩, _, _ => .error .logicError
  | ⟨d :: ds⟩, key, value => .ok ⟨Function.update d key (some value) :: ds⟩

/-- The first dictionary from the top that maps `key`. -/
def getLevels : List (Dict Key Data) → Key → Option Data
  | [], _ => none
  | d :: ds, key => (d key).or (getLevels ds key)

/-- `get`, for pointer data. -/
def get (m : ScopedMap Key Data) (key : Key) : Option Data := getLevels m.levels key

/-- `contains`: whether some open scope maps `key`. -/
def contains (m : ScopedMap Key Data) (key : Key) : Bool := m.levels.any fun d => (d key).isSome

/-! ## Lookups after each operation -/

omit [DecidableEq Key] in
@[simp] theorem get_init (key : Key) : (init : ScopedMap Key Data).get key = none := rfl

omit [DecidableEq Key] in
@[simp] theorem get_scopeBegin (m : ScopedMap Key Data) : m.scopeBegin.get = m.get := by
  funext key
  simp [get, scopeBegin, getLevels]

omit [DecidableEq Key] in
@[simp] theorem scopeEnd_scopeBegin (m : ScopedMap Key Data) :
    m.scopeBegin.scopeEnd = .ok m := rfl

theorem get_put {m m' : ScopedMap Key Data} {key : Key} {value : Data}
    (h : m.put key value = .ok m') : m'.get = Function.update m.get key (some value) := by
  obtain ⟨_ | ⟨d, ds⟩⟩ := m
  · simp [put] at h
  · simp only [put, Except.ok.injEq] at h
    subst h
    funext k
    by_cases hk : k = key
    · subst hk
      simp [get, getLevels]
    · simp [get, getLevels, hk]

omit [DecidableEq Key] in
theorem contains_eq (m : ScopedMap Key Data) (key : Key) :
    m.contains key = (m.get key).isSome := by
  obtain ⟨ds⟩ := m
  induction ds with
  | nil => rfl
  | cons d ds ih =>
    simp only [contains, get, getLevels, List.any_cons] at ih ⊢
    rw [ih]
    cases d key <;> simp

/-! ## What is left when a scope closes -/

/-- `put` only touches the innermost scope. -/
theorem tail_put {m m' : ScopedMap Key Data} {key : Key} {value : Data}
    (h : m.put key value = .ok m') : m'.levels.tail = m.levels.tail ∧ m'.levels ≠ [] := by
  obtain ⟨_ | ⟨d, ds⟩⟩ := m
  · simp [put] at h
  · simp only [put, Except.ok.injEq] at h
    subst h
    exact ⟨rfl, List.cons_ne_nil _ _⟩

end ScopedMap

end TigerCompiler
