import TigerCompiler.Misc.ScopedMap

/-!
# What a `misc::scoped_map` has been through

A `scoped_map` should answer by what has been done to it: a lookup finds the latest `put` of the
key, those of the scopes that have been closed since put aside.  The two overloads of `get` differ:
the one for pointers goes through all the scopes, the other one stops at the innermost.
-/

namespace TigerCompiler

namespace ScopedMap

/-- A call on a `scoped_map`. -/
inductive Call (Key Data : Type)
  | put (key : Key) (value : Data)
  | scopeBegin
  | scopeEnd
  | get (key : Key)
  | contains (key : Key)

variable {Key Data P : Type} [DecidableEq Key]

/-! ## The calls on the map -/

/-- `get`, for data that is no pointer; `none` when it throws `std::range_error`. -/
def getValue (m : ScopedMap Key Data) (key : Key) : Option Data :=
  match m.levels with
  | [] => none
  | d :: _ => d key

/-- `get`, for pointers, `none` being `nullptr`. -/
def getPointer (m : ScopedMap Key (Option P)) (key : Key) : Option P := (m.get key).join

/-- What a call makes of the map. -/
def call (m : ScopedMap Key Data) : Call Key Data → Except Stop (ScopedMap Key Data)
  | .put key value => m.put key value
  | .scopeBegin => .ok m.scopeBegin
  | .scopeEnd => m.scopeEnd
  | .get _ | .contains _ => .ok m

/-- The map after the calls of a history, the latest of which comes first. -/
def run : List (Call Key Data) → Except Stop (ScopedMap Key Data)
  | [] => .ok init
  | c :: h => do (← run h).call c

/-! ## What the history says -/

/-- How many scopes have been opened and not closed; `none` when more have been closed than
opened. -/
def opened : List (Call Key Data) → Option Nat
  | [] => some 0
  | .scopeBegin :: h => (opened h).map (· + 1)
  | .scopeEnd :: h =>
    match opened h with
    | some (n + 1) => some n
    | _ => none
  | _ :: h => opened h

/-- The value of the latest `put` of a key in a scope that is still open, once the `n` innermost
scopes are closed. -/
def latest (key : Key) : Nat → List (Call Key Data) → Option Data
  | _, [] => none
  | n, .scopeEnd :: h => latest key (n + 1) h
  | 0, .scopeBegin :: h => latest key 0 h
  | n + 1, .scopeBegin :: h => latest key n h
  | 0, .put k v :: h => if k = key then some v else latest key 0 h
  | n + 1, .put _ _ :: h => latest key (n + 1) h
  | n, .get _ :: h => latest key n h
  | n, .contains _ :: h => latest key n h

/-- Whether a key has been `put` in the innermost scope, once the `n` innermost ones are closed. -/
def putHere (key : Key) : Nat → List (Call Key Data) → Bool
  | _, [] => false
  | n, .scopeEnd :: h => putHere key (n + 1) h
  | 0, .scopeBegin :: _ => false
  | n + 1, .scopeBegin :: h => putHere key n h
  | 0, .put k _ :: h => k = key || putHere key 0 h
  | n + 1, .put _ _ :: h => putHere key (n + 1) h
  | n, .get _ :: h => putHere key n h
  | n, .contains _ :: h => putHere key n h

/-- A map of pointers answers by its history, and a scope that is opened and closed restores it. -/
structure AnswersPointer (h : List (Call Key (Option P))) (m : ScopedMap Key (Option P)) :
    Prop where
  value : ∀ key p, latest key 0 h = some p → m.getPointer key = p
  absent : ∀ key, m.getPointer key = none ↔ latest key 0 h = none
  contains : ∀ key, m.contains key = true ↔ m.getPointer key ≠ none
  restores : ∀ h', opened h' = some 0 → run (.scopeEnd :: (h' ++ .scopeBegin :: h)) = .ok m

/-- A map of other data answers by its history, and a scope that is opened and closed restores
it. -/
structure AnswersValue (h : List (Call Key Data)) (m : ScopedMap Key Data) : Prop where
  value : ∀ key v, latest key 0 h = some v → m.getValue key = some v
  absent : ∀ key, m.getValue key = none ↔ latest key 0 h = none
  contains : ∀ key, m.contains key = true ↔ m.getValue key ≠ none
  restores : ∀ h', opened h' = some 0 → run (.scopeEnd :: (h' ++ .scopeBegin :: h)) = .ok m

/-! ## The map against the history -/

variable {h h' : List (Call Key Data)} {m m' : ScopedMap Key Data} {c : Call Key Data} {n : Nat}
  {key : Key}

/-- What a call does to the dictionaries. -/
theorem levels_call (hc : m.call c = .ok m') :
    (∃ key v d ds, c = .put key v ∧ m.levels = d :: ds ∧
      m'.levels = Function.update d key (some v) :: ds) ∨
    (c = .scopeBegin ∧ m'.levels = (fun _ => none) :: m.levels) ∨
    (c = .scopeEnd ∧ ∃ d, m.levels = d :: m'.levels) ∨
    ((∃ key, c = .get key ∨ c = .contains key) ∧ m' = m) := by
  obtain ⟨ds⟩ := m
  cases c with
  | put key v =>
    cases ds with
    | nil => cases hc
    | cons d ds =>
      cases hc
      exact .inl ⟨key, v, d, ds, rfl, rfl, rfl⟩
  | scopeBegin =>
    cases hc
    exact .inr (.inl ⟨rfl, rfl⟩)
  | scopeEnd =>
    cases ds with
    | nil => cases hc
    | cons d ds =>
      cases hc
      exact .inr (.inr (.inl ⟨rfl, d, rfl⟩))
  | get key =>
    cases hc
    exact .inr (.inr (.inr ⟨⟨key, .inl rfl⟩, rfl⟩))
  | contains key =>
    cases hc
    exact .inr (.inr (.inr ⟨⟨key, .inr rfl⟩, rfl⟩))

/-- A history that closes no more scopes than it opens runs to its end. -/
theorem run_of_opened (ho : opened h = some n) :
    ∃ m, run h = .ok m ∧ m.levels.length = n + 1 := by
  induction h generalizing n with
  | nil =>
    cases ho
    exact ⟨init, rfl, rfl⟩
  | cons c h ih =>
    cases c with
    | put key v =>
      obtain ⟨⟨ds⟩, hm, hl⟩ := ih ho
      cases ds with
      | nil => simp at hl
      | cons d ds =>
        exact ⟨⟨Function.update d key (some v) :: ds⟩, by rw [run, hm]; rfl, hl⟩
    | scopeBegin =>
      rw [opened, Option.map_eq_some_iff] at ho
      obtain ⟨n, ho, rfl⟩ := ho
      obtain ⟨m, hm, hl⟩ := ih ho
      exact ⟨m.scopeBegin, by rw [run, hm]; rfl, by simp [scopeBegin, hl]⟩
    | scopeEnd =>
      rw [opened] at ho
      split at ho
      · rename_i n' ho'
        cases ho
        obtain ⟨⟨ds⟩, hm, hl⟩ := ih ho'
        cases ds with
        | nil => simp at hl
        | cons d ds => exact ⟨⟨ds⟩, by rw [run, hm]; rfl, by simpa using hl⟩
      · cases ho
    | get key | contains key =>
      obtain ⟨m, hm, hl⟩ := ih ho
      exact ⟨m, by rw [run, hm]; rfl, hl⟩

/-- The dictionaries left when the `n` innermost scopes are closed hold the latest `put`s. -/
theorem getLevels_drop (hr : run h = .ok m) :
    getLevels (m.levels.drop n) key = latest key n h := by
  induction h generalizing m n with
  | nil =>
    cases hr
    cases n <;> simp [init, scopeBegin, latest, getLevels]
  | cons c h ih =>
    simp only [run, bind_eq_ok] at hr
    obtain ⟨m₁, h₁, hc⟩ := hr
    obtain ⟨k, v, d, ds, rfl, hd, hm⟩ | ⟨rfl, hm⟩ | ⟨rfl, d, hd⟩ | ⟨hq, rfl⟩ := levels_call hc
    · rw [hm]
      cases n with
      | zero =>
        have hget := ih h₁ (n := 0)
        rw [hd, List.drop_zero, getLevels] at hget
        rw [List.drop_zero, getLevels, latest]
        by_cases hk : k = key
        · simp [hk]
        · rw [Function.update_of_ne (Ne.symm hk), if_neg hk, hget]
      | succ n =>
        have hget := ih h₁ (n := n + 1)
        rw [hd] at hget
        exact hget
    · rw [hm]
      cases n with
      | zero =>
        have hget := ih h₁ (n := 0)
        exact hget
      | succ n =>
        have hget := ih h₁ (n := n)
        exact hget
    · have hget := ih h₁ (n := n + 1)
      rw [hd, List.drop_succ_cons] at hget
      rw [hget]
      cases n <;> rfl
    · rw [ih h₁]
      obtain ⟨k, rfl | rfl⟩ := hq <;> cases n <;> rfl

/-- The innermost dictionary, once `n` scopes are closed, holds what has been `put` in it. -/
theorem isSome_head_drop (hr : run h = .ok m) :
    ((m.levels.drop n).head?.bind fun d => d key).isSome = putHere key n h := by
  induction h generalizing m n with
  | nil =>
    cases hr
    cases n <;> simp [init, scopeBegin, putHere]
  | cons c h ih =>
    simp only [run, bind_eq_ok] at hr
    obtain ⟨m₁, h₁, hc⟩ := hr
    obtain ⟨k, v, d, ds, rfl, hd, hm⟩ | ⟨rfl, hm⟩ | ⟨rfl, d, hd⟩ | ⟨hq, rfl⟩ := levels_call hc
    · rw [hm]
      cases n with
      | zero =>
        have hhere := ih h₁ (n := 0)
        rw [hd] at hhere
        rw [putHere, ← hhere]
        by_cases hk : k = key
        · simp [hk]
        · simp [hk, Function.update_of_ne (Ne.symm hk)]
      | succ n =>
        have hhere := ih h₁ (n := n + 1)
        rw [hd] at hhere
        exact hhere
    · rw [hm]
      cases n with
      | zero => rfl
      | succ n =>
        have hhere := ih h₁ (n := n)
        exact hhere
    · have hhere := ih h₁ (n := n + 1)
      rw [hd, List.drop_succ_cons] at hhere
      rw [hhere]
      cases n <;> rfl
    · rw [ih h₁]
      obtain ⟨k, rfl | rfl⟩ := hq <;> cases n <;> rfl

theorem get_eq_latest (hr : run h = .ok m) : m.get key = latest key 0 h :=
  getLevels_drop (n := 0) hr

theorem isSome_getValue (hr : run h = .ok m) : (m.getValue key).isSome = putHere key 0 h := by
  rw [← isSome_head_drop hr, List.drop_zero, getValue]
  cases m.levels <;> rfl

omit [DecidableEq Key] in
/-- What the innermost scope holds is what a lookup finds. -/
theorem getValue_eq_get {v : Data} (hv : m.getValue key = some v) : m.get key = some v := by
  obtain ⟨ds⟩ := m
  cases ds with
  | nil => cases hv
  | cons d ds =>
    have hd : d key = some v := hv
    simp [get, getLevels, hd]

/-- A history of its own, after a scope is opened, leaves the dictionaries below alone. -/
theorem run_append (hr : run h = .ok m) (ho : opened h' = some n) :
    ∃ ds, run (h' ++ .scopeBegin :: h) = .ok ⟨ds ++ m.levels⟩ ∧ ds.length = n + 1 := by
  induction h' generalizing n with
  | nil =>
    cases ho
    exact ⟨[fun _ => none], by rw [List.nil_append, run, hr]; rfl, rfl⟩
  | cons c h' ih =>
    rw [List.cons_append]
    cases c with
    | put key v =>
      obtain ⟨ds, hm, hl⟩ := ih ho
      cases ds with
      | nil => cases hl
      | cons d ds =>
        exact ⟨Function.update d key (some v) :: ds, by rw [run, hm]; rfl, hl⟩
    | scopeBegin =>
      rw [opened, Option.map_eq_some_iff] at ho
      obtain ⟨n, ho, rfl⟩ := ho
      obtain ⟨ds, hm, hl⟩ := ih ho
      exact ⟨(fun _ => none) :: ds, by rw [run, hm]; rfl, by rw [List.length_cons, hl]⟩
    | scopeEnd =>
      rw [opened] at ho
      split at ho
      · rename_i n' ho'
        cases ho
        obtain ⟨ds, hm, hl⟩ := ih ho'
        cases ds with
        | nil => cases hl
        | cons d ds => exact ⟨ds, by rw [run, hm]; rfl, by simpa using hl⟩
      · cases ho
    | get key | contains key =>
      obtain ⟨ds, hm, hl⟩ := ih ho
      exact ⟨ds, by rw [run, hm]; rfl, hl⟩

/-- Closing a scope gives back the map it was opened on. -/
theorem run_restores (hr : run h = .ok m) (ho : opened h' = some 0) :
    run (.scopeEnd :: (h' ++ .scopeBegin :: h)) = .ok m := by
  obtain ⟨ds, hm, hl⟩ := run_append hr ho
  obtain ⟨d, rfl⟩ := List.length_eq_one_iff.mp hl
  rw [run, hm]
  rfl

/-! ## The two overloads -/

theorem answersPointer_iff {h : List (Call Key (Option P))} {m : ScopedMap Key (Option P)}
    (hr : run h = .ok m) : AnswersPointer h m ↔ ∀ key, latest key 0 h ≠ some none := by
  have hget (key : Key) : m.getPointer key = (latest key 0 h).join := by
    rw [getPointer, get_eq_latest hr]
  constructor
  · intro ha key hnull
    have hp := ha.value key none hnull
    rw [ha.absent, hnull] at hp
    cases hp
  · intro hnull
    refine ⟨?_, ?_, ?_, fun h' => run_restores hr⟩
    · intro key p hp
      rw [hget, hp]
      rfl
    · intro key
      rw [hget]
      cases hl : latest key 0 h with
      | none => exact iff_of_true rfl rfl
      | some p =>
        have hp : p ≠ none := by
          rintro rfl
          exact hnull key hl
        exact iff_of_false hp nofun
    · intro key
      rw [hget, contains_eq, get_eq_latest hr]
      cases hl : latest key 0 h with
      | none => simp
      | some p =>
        have hp : p ≠ none := by
          rintro rfl
          exact hnull key hl
        exact iff_of_true rfl hp

theorem answersValue_iff (hr : run h = .ok m) :
    AnswersValue h m ↔ ∀ key, latest key 0 h ≠ none → putHere key 0 h = true := by
  constructor
  · intro ha key hl
    rw [← isSome_getValue hr, Option.isSome_iff_ne_none]
    intro hn
    exact hl ((ha.absent key).mp hn)
  · intro hhere
    -- Both lookups find the same.
    have hget (key : Key) : m.getValue key = latest key 0 h := by
      cases hv : m.getValue key with
      | some v => rw [← get_eq_latest hr, getValue_eq_get hv]
      | none =>
        by_contra hne
        have hs := hhere key (Ne.symm hne)
        rw [← isSome_getValue hr, hv] at hs
        cases hs
    refine ⟨?_, ?_, ?_, fun h' => run_restores hr⟩
    · intro key v hv
      rw [hget, hv]
    · intro key
      rw [hget]
    · intro key
      rw [contains_eq, get_eq_latest hr, hget, Option.isSome_iff_ne_none]

/-- **Whatever has been done to it, a `scoped_map` of pointers answers by its history exactly when
no lookup comes to a null pointer, and one of other data exactly when every key that can be found
is in the innermost scope.** -/
theorem answers_iff (Key P Data : Type) [DecidableEq Key] :
    (∀ (h : List (Call Key (Option P))) n, opened h = some n → ∃ m, run h = .ok m ∧
      (AnswersPointer h m ↔ ∀ key, latest key 0 h ≠ some none)) ∧
    (∀ (h : List (Call Key Data)) n, opened h = some n → ∃ m, run h = .ok m ∧
      (AnswersValue h m ↔ ∀ key, latest key 0 h ≠ none → putHere key 0 h = true)) := by
  constructor
  · intro h n ho
    obtain ⟨m, hm, -⟩ := run_of_opened ho
    exact ⟨m, hm, answersPointer_iff hm⟩
  · intro h n ho
    obtain ⟨m, hm, -⟩ := run_of_opened ho
    exact ⟨m, hm, answersValue_iff hm⟩

/-- A pointer is looked up in the scope it is in and in a scope below, other data in the innermost
scope only, where both keys have been put again. -/
theorem answers_toto :
    (∃ m, run [.put 1 (some 1111), .scopeBegin, .put 2 (some 22), .put 1 (some 11), .scopeBegin] =
        .ok m ∧
      AnswersPointer [.put 1 (some 1111), .scopeBegin, .put 2 (some 22), .put 1 (some 11),
        .scopeBegin] m) ∧
    ∃ m, run [.put 2 2222, .put 1 1111, .scopeBegin, .put 2 22, .put 1 11, .scopeBegin] = .ok m ∧
      AnswersValue [.put 2 2222, .put 1 1111, .scopeBegin, .put 2 22, .put 1 11,
        .scopeBegin] m := by
  obtain ⟨hp, hv⟩ := answers_iff Nat Nat Nat
  constructor
  · obtain ⟨m, hm, hiff⟩ := hp [.put 1 (some 1111), .scopeBegin, .put 2 (some 22),
      .put 1 (some 11), .scopeBegin] 2 rfl
    refine ⟨m, hm, hiff.mpr ?_⟩
    intro key
    by_cases h₁ : 1 = key <;> by_cases h₂ : 2 = key <;> simp [latest, h₁, h₂]
  · obtain ⟨m, hm, hiff⟩ := hv [.put 2 2222, .put 1 1111, .scopeBegin, .put 2 22, .put 1 11,
      .scopeBegin] 2 rfl
    refine ⟨m, hm, hiff.mpr ?_⟩
    intro key
    by_cases h₁ : 1 = key <;> by_cases h₂ : 2 = key <;> simp [latest, putHere, h₁, h₂]

/-- An integer that has been put in a scope is not found from a scope opened in it. -/
theorem not_answersValue :
    ¬ ∀ (h : List (Call Str Int)) (n : Nat) (m : ScopedMap Str Int), opened h = some n →
      run h = .ok m → AnswersValue h m := by
  intro hall
  let h : List (Call Str Int) :=
    [.put "toto".toList 1111, .scopeBegin, .put "titi".toList 22, .put "toto".toList 11,
      .scopeBegin]
  obtain ⟨m, hm, hl⟩ := run_of_opened (h := h) (n := 2) rfl
  have hget : m.getValue "titi".toList = none := by
    cases hm
    decide
  have hv := (hall h 2 m rfl hm).value "titi".toList 22 (by decide)
  rw [hget] at hv
  cases hv

end ScopedMap

end TigerCompiler
