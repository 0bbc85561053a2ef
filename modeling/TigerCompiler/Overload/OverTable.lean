import TigerCompiler.Misc.Error
import TigerCompiler.Misc.Multimap
import Mathlib.Data.Nat.Basic

/-!
# `overload::OverTable`

The table of the homonyms in sight.  Opening a scope copies the whole multimap, so a declaration
goes to the copy and the multimap below is there again when the scope is closed.  Against the
history of the calls: `get` finds every value put in a scope that is still open, in the order of
the puts.
-/

namespace TigerCompiler

variable {Key V : Type} [LinearOrder Key]

/-- `overload::OverTable<T>`, with `T*` as `V`.  The back of the vector is the head here. -/
structure OverTable (Key V : Type) [LinearOrder Key] where
  oversymtab : List (Multimap Key V)

namespace OverTable

/-- The constructor. -/
def init : OverTable Key V := ⟨[.empty]⟩

/-- `put`. -/
def put : OverTable Key V → Key → V → Except Stop (OverTable Key V)
  | ⟨[]⟩, _, _ => .error .undefined
  | ⟨m :: ms⟩, key, value => .ok ⟨m.emplace key value :: ms⟩

/-- `get`: the values of the range. -/
def get : OverTable Key V → Key → Except Stop (List V)
  | ⟨[]⟩, _ => .error .contract
  | ⟨m :: _⟩, key => .ok (m.equalRange key)

/-- `scope_begin`. -/
def scopeBegin : OverTable Key V → Except Stop (OverTable Key V)
  | ⟨[]⟩ => .error .undefined
  | ⟨m :: ms⟩ => .ok ⟨m :: m :: ms⟩

/-- `scope_end`. -/
def scopeEnd : OverTable Key V → Except Stop (OverTable Key V)
  | ⟨[]⟩ => .error .contract
  | ⟨_ :: ms⟩ => .ok ⟨ms⟩

/-! ## Sequences of calls -/

/-- A call that changes the table. -/
inductive Call (Key V : Type)
  | put (key : Key) (value : V)
  | scopeBegin
  | scopeEnd

/-- What a call makes of the table. -/
def call (t : OverTable Key V) : Call Key V → Except Stop (OverTable Key V)
  | .put key value => t.put key value
  | .scopeBegin => t.scopeBegin
  | .scopeEnd => t.scopeEnd

/-- A table after the calls of a history, the latest of which comes first. -/
def after (t : OverTable Key V) : List (Call Key V) → Except Stop (OverTable Key V)
  | [] => .ok t
  | c :: h => do (← t.after h).call c

/-- A new table after the calls of a history. -/
def run (h : List (Call Key V)) : Except Stop (OverTable Key V) := init.after h

/-- How many scopes have been opened and not closed; `none` when more have been closed than
opened. -/
def opened : List (Call Key V) → Option Nat
  | [] => some 0
  | .put _ _ :: h => opened h
  | .scopeBegin :: h => (opened h).map (· + 1)
  | .scopeEnd :: h =>
    match opened h with
    | some (n + 1) => some n
    | _ => none

/-- The values put for a key in the scopes that are still open once the `n` innermost ones are
closed, in the order of the puts. -/
def visible (key : Key) : Nat → List (Call Key V) → List V
  | _, [] => []
  | n, .scopeEnd :: h => visible key (n + 1) h
  | 0, .scopeBegin :: h => visible key 0 h
  | n + 1, .scopeBegin :: h => visible key n h
  | 0, .put k v :: h => visible key 0 h ++ if k = key then [v] else []
  | n + 1, .put _ _ :: h => visible key (n + 1) h

/-- The table has the visible homonyms of its history, and closing a scope gives back what was
visible when it was opened. -/
structure KeepsHomonyms (h : List (Call Key V)) (t : OverTable Key V) : Prop where
  values : ∀ key, t.get key = .ok (visible key 0 h)
  restores : ∀ h', opened h' = some 0 →
    ∃ t', run (.scopeEnd :: (h' ++ .scopeBegin :: h)) = .ok t' ∧ ∀ key, t'.get key = t.get key

/-! ## The table against the history -/

variable {h h' : List (Call Key V)} {t t' : OverTable Key V} {c : Call Key V} {n : Nat}
  {key : Key}

/-- What a call does to the multimaps. -/
theorem call_cases (hc : t.call c = .ok t') :
    (∃ k v m ms, c = .put k v ∧ t = ⟨m :: ms⟩ ∧ t' = ⟨m.emplace k v :: ms⟩) ∨
    (∃ m ms, c = .scopeBegin ∧ t = ⟨m :: ms⟩ ∧ t' = ⟨m :: m :: ms⟩) ∨
    (∃ m ms, c = .scopeEnd ∧ t = ⟨m :: ms⟩ ∧ t' = ⟨ms⟩) := by
  obtain ⟨ms⟩ := t
  cases ms with
  | nil => cases c <;> cases hc
  | cons m ms =>
    cases c with
    | put k v =>
      cases hc
      exact .inl ⟨k, v, m, ms, rfl, rfl, rfl⟩
    | scopeBegin =>
      cases hc
      exact .inr (.inl ⟨m, ms, rfl, rfl, rfl⟩)
    | scopeEnd =>
      cases hc
      exact .inr (.inr ⟨m, ms, rfl, rfl, rfl⟩)

theorem after_append (t : OverTable Key V) (h h' : List (Call Key V)) :
    t.after (h' ++ h) = t.after h >>= fun t' => t'.after h' := by
  induction h' with
  | nil => exact (bind_pure (t.after h)).symm
  | cons c h' ih => rw [List.cons_append, after, ih, bind_assoc]; rfl

/-- A history that closes no more scopes than it opens runs to its end, has a multimap for each
scope, and leaves those below alone. -/
theorem after_of_opened {m : Multimap Key V} {ms : List (Multimap Key V)}
    (ho : opened h = some n) :
    ∃ ms', (⟨m :: ms⟩ : OverTable Key V).after h = .ok ⟨ms' ++ ms⟩ ∧ ms'.length = n + 1 := by
  induction h generalizing n with
  | nil =>
    cases ho
    exact ⟨[m], rfl, rfl⟩
  | cons c h ih =>
    cases c with
    | put k v =>
      obtain ⟨ms', hm, hl⟩ := ih ho
      cases ms' with
      | nil => cases hl
      | cons m' ms' => exact ⟨m'.emplace k v :: ms', by rw [after, hm]; rfl, hl⟩
    | scopeBegin =>
      rw [opened, Option.map_eq_some_iff] at ho
      obtain ⟨n, ho, rfl⟩ := ho
      obtain ⟨ms', hm, hl⟩ := ih ho
      cases ms' with
      | nil => cases hl
      | cons m' ms' =>
        exact ⟨m' :: m' :: ms', by rw [after, hm]; rfl, by rw [List.length_cons, hl]⟩
    | scopeEnd =>
      rw [opened] at ho
      split at ho
      · rename_i n' ho'
        cases ho
        obtain ⟨ms', hm, hl⟩ := ih ho'
        cases ms' with
        | nil => cases hl
        | cons m' ms' => exact ⟨ms', by rw [after, hm]; rfl, by simpa using hl⟩
      · cases ho

/-- Each multimap holds what is visible once the scopes above it are closed. -/
theorem equalRange_getElem {m : Multimap Key V} (hr : run h = .ok t)
    (hm : t.oversymtab[n]? = some m) : m.equalRange key = visible key n h := by
  induction h generalizing t n m with
  | nil =>
    cases hr
    cases n with
    | zero =>
      cases hm
      rfl
    | succ n => cases hm
  | cons c h ih =>
    simp only [run, after, bind_eq_ok] at hr
    obtain ⟨t₁, h₁, hc⟩ := hr
    obtain ⟨k, v, m₁, ms, rfl, rfl, rfl⟩ | ⟨m₁, ms, rfl, rfl, rfl⟩ | ⟨m₁, ms, rfl, rfl, rfl⟩ :=
      call_cases hc
    · cases n with
      | zero =>
        cases hm
        rw [Multimap.equalRange_emplace, visible, ih h₁ (n := 0) rfl]
      | succ n => exact ih h₁ (n := n + 1) hm
    · cases n with
      | zero => exact ih h₁ (n := 0) hm
      | succ n => exact ih h₁ hm
    · rw [ih h₁ (n := n + 1) hm]
      cases n <;> rfl

/-- **In every sequence of calls that closes no more scopes than it opens, a key is mapped to all
its homonyms in sight, and closing a scope gives back those that were in sight when it was
opened.** -/
theorem keepsHomonyms (Key V : Type) [LinearOrder Key] (h : List (Call Key V)) (n : Nat)
    (ho : opened h = some n) : ∃ t, run h = .ok t ∧ KeepsHomonyms h t := by
  obtain ⟨ms, hr, hl⟩ : ∃ ms, run h = .ok ⟨ms ++ []⟩ ∧ ms.length = n + 1 := after_of_opened ho
  cases ms with
  | nil => cases hl
  | cons m ms =>
    rw [List.append_nil] at hr
    refine ⟨⟨m :: ms⟩, hr, fun key => ?_, fun h' ho' => ?_⟩
    · exact congrArg _ (equalRange_getElem hr (n := 0) rfl)
    · -- The copy is all that the calls inside the scope work on.
      obtain ⟨ms', hr', hl'⟩ := after_of_opened (m := m) ho'
      obtain ⟨m', rfl⟩ := List.length_eq_one_iff.mp hl'
      have hbegin : run (.scopeBegin :: h) = .ok ⟨m :: m :: ms⟩ := by
        rw [run, after, ← run, hr]
        rfl
      refine ⟨⟨m :: ms⟩, ?_, fun _ => rfl⟩
      rw [run, after, after_append, ← run, hbegin, ok_bind, hr']
      rfl

/-- Two homonyms, one of them in an inner scope. -/
theorem keepsHomonyms_two : ∃ t, run [.put 1 'b', .scopeBegin, .put 2 'c', .put 1 'a'] = .ok t ∧
    KeepsHomonyms [.put 1 'b', .scopeBegin, .put 2 'c', .put 1 'a'] t :=
  keepsHomonyms Nat Char [.put 1 'b', .scopeBegin, .put 2 'c', .put 1 'a'] 1 rfl

end OverTable

end TigerCompiler
