import Mathlib.Algebra.Ring.Int.Defs
import Mathlib.Data.List.Infix
import TigerCompiler.Misc.Error

/-!
# Indentation

`misc/indent.hh`: a level that hides in a slot of the stream, and the manipulators that change it
and use it.  What a list of manipulators does to the level is told by two numbers: how much it adds
to it (`rise`) and how far below its start it goes on the way (`lowest`).
-/

namespace TigerCompiler
namespace Indent

/-- An output stream: its indentation level and what was written on it. -/
structure OStream where
  level : Int
  out : Str
  deriving DecidableEq, Repr

/-- What is done to a stream, or to a null pointer while it is printed on. -/
inductive Manip
  | put (t : Str)
  | incindent
  | decindent
  | iendl
  | nullPointer
  deriving DecidableEq, Repr

/-- One manipulator; `decindent` has the precondition that the level is not 0. -/
def step : Manip → OStream → Except Stop OStream
  | .put t, o => .ok { o with out := o.out ++ t }
  | .incindent, o => .ok { o with level := o.level + 2 }
  | .decindent, o => if o.level = 0 then .error .contract else .ok { o with level := o.level - 2 }
  | .iendl, o => .ok { o with out := o.out ++ '\n' :: List.replicate o.level.toNat ' ' }
  | .nullPointer, _ => .error .undefined

/-- Manipulators one after the other. -/
def run : List Manip → OStream → Except Stop OStream
  | [], o => .ok o
  | m :: ms, o => do run ms (← step m o)

/-- `o << s` for a literal. -/
def put (s : String) : List Manip := [.put s.toList]

/-- `o << t` for a text. -/
def text (t : Str) : List Manip := [.put t]

/-- On a stream at a level that is not negative, the level never is, no `decindent` is called at
level 0, and the level is in the end what it was. -/
structure Balanced (ms : List Manip) : Prop where
  ends : ∀ o, 0 ≤ o.level → ∃ o', run ms o = .ok o' ∧ o'.level = o.level
  never : ∀ o, 0 ≤ o.level → ∀ p, p <+: ms → ∃ o', run p o = .ok o' ∧ 0 ≤ o'.level

/-! ## The level -/

/-- What a manipulator adds to the level. -/
def shift : Manip → Int
  | .incindent => 2
  | .decindent => -2
  | .put _ | .iendl | .nullPointer => 0

/-- What manipulators add to the level. -/
def rise (ms : List Manip) : Int := (ms.map shift).sum

/-- The lowest level on the way, from level 0. -/
def lowest : List Manip → Int
  | [] => 0
  | m :: ms => min 0 (shift m + lowest ms)

variable {m : Manip} {ms ms' p : List Manip} {o o' : OStream}

@[simp] theorem rise_nil : rise [] = 0 := rfl

@[simp] theorem rise_cons : rise (m :: ms) = shift m + rise ms := by
  simp [rise]

@[simp] theorem rise_append : rise (ms ++ ms') = rise ms + rise ms' := by
  simp [rise]

@[simp] theorem lowest_nil : lowest [] = 0 := rfl

@[simp] theorem lowest_cons : lowest (m :: ms) = min 0 (shift m + lowest ms) := rfl

theorem lowest_nonpos : lowest ms ≤ 0 := by
  cases ms with
  | nil => exact Int.le_refl 0
  | cons m ms => exact Int.min_le_left _ _

@[simp] theorem lowest_append :
    lowest (ms ++ ms') = min (lowest ms) (rise ms + lowest ms') := by
  induction ms with
  | nil =>
    have h : lowest ms' ≤ 0 := lowest_nonpos
    simp only [List.nil_append, lowest_nil, rise_nil]
    omega
  | cons m ms ih =>
    simp only [List.cons_append, lowest_cons, rise_cons, ih]
    omega

theorem lowest_le_rise : lowest ms ≤ rise ms := by
  induction ms with
  | nil => exact Int.le_refl 0
  | cons m ms ih =>
    simp only [lowest_cons, rise_cons]
    omega

theorem lowest_le_of_prefix (h : p <+: ms) : lowest ms ≤ lowest p := by
  obtain ⟨r, rfl⟩ := h
  rw [lowest_append]
  exact Int.min_le_left _ _

/-- Manipulators that leave the level alone and stop nothing. -/
def Flat (ms : List Manip) : Prop := ∀ m ∈ ms, shift m = 0 ∧ m ≠ .nullPointer

theorem Flat.rise (h : Flat ms) : rise ms = 0 := by
  induction ms with
  | nil => rfl
  | cons m ms ih =>
    obtain ⟨hm, hms⟩ := List.forall_mem_cons.mp h
    rw [rise_cons, hm.1, ih hms]
    rfl

theorem Flat.lowest (h : Flat ms) : lowest ms = 0 := by
  induction ms with
  | nil => rfl
  | cons m ms ih =>
    obtain ⟨hm, hms⟩ := List.forall_mem_cons.mp h
    rw [lowest_cons, hm.1, ih hms]
    rfl

theorem Flat.not_mem (h : Flat ms) : .nullPointer ∉ ms := fun hm => (h _ hm).2 rfl

theorem flat_nil : Flat [] := by
  intro m hm
  exact absurd hm List.not_mem_nil

theorem Flat.append (h : Flat ms) (h' : Flat ms') : Flat (ms ++ ms') := by
  intro m hm
  exact (List.mem_append.mp hm).elim (h m) (h' m)

/-- What is done only under a condition. -/
theorem Flat.ite {c : Prop} [Decidable c] (h : Flat ms) : Flat (if c then ms else []) := by
  split
  · exact h
  · exact flat_nil

theorem flat_put (s : String) : Flat (put s) := by
  simp [Flat, put, shift]

theorem flat_text (t : Str) : Flat (text t) := by
  simp [Flat, text, shift]

theorem flat_iendl : Flat [.iendl] := by
  simp [Flat, shift]

@[simp] theorem rise_put (s : String) : rise (put s) = 0 := (flat_put s).rise

@[simp] theorem rise_text (t : Str) : rise (text t) = 0 := (flat_text t).rise

theorem rise_ite {c : Prop} [Decidable c] :
    rise (if c then ms else ms') = if c then rise ms else rise ms' := apply_ite rise c ms ms'

@[simp] theorem not_mem_put (s : String) : .nullPointer ∉ put s := (flat_put s).not_mem

@[simp] theorem not_mem_text (t : Str) : .nullPointer ∉ text t := (flat_text t).not_mem

/-! ## Never below the start -/

/-- Manipulators that never lead below their start. -/
def Rises (ms : List Manip) : Prop := lowest ms = 0

/-- Manipulators that never do, and leave the level higher. -/
def Above (ms : List Manip) : Prop := lowest ms = 0 ∧ 2 ≤ rise ms

theorem Rises.append (h : Rises ms) (h' : Rises ms') : Rises (ms ++ ms') := by
  have hle : lowest ms ≤ rise ms := lowest_le_rise
  unfold Rises at *
  rw [lowest_append]
  omega

theorem Flat.rises (h : Flat ms) : Rises ms := h.lowest

theorem Rises.flat (h : Rises ms) (h' : Flat ms') : Rises (ms ++ ms') := h.append h'.rises

theorem Rises.put (h : Rises ms) {s : String} : Rises (ms ++ put s) := h.flat (flat_put s)

theorem Rises.iendl (h : Rises ms) : Rises (ms ++ [.iendl]) := h.flat flat_iendl

theorem Rises.incindent (h : Rises ms) : Above (ms ++ [.incindent]) := by
  have hle : lowest ms ≤ rise ms := lowest_le_rise
  unfold Rises at h
  unfold Above
  simp only [lowest_append, rise_append, lowest_cons, rise_cons, lowest_nil, rise_nil, shift]
  omega

theorem Above.append (h : Above ms) (h' : Rises ms') : Above (ms ++ ms') := by
  have hle : lowest ms' ≤ rise ms' := lowest_le_rise
  unfold Rises at h'
  unfold Above at *
  rw [lowest_append, rise_append]
  omega

theorem Above.flat (h : Above ms) (h' : Flat ms') : Above (ms ++ ms') := h.append h'.rises

theorem Above.iendl (h : Above ms) : Above (ms ++ [.iendl]) := h.flat flat_iendl

theorem Above.rises (h : Above ms) : Rises ms := h.1

/-- A `decindent` may follow what leaves the level higher. -/
theorem Above.decindent (h : Above ms) : Rises (ms ++ [.decindent]) := by
  obtain ⟨hl, hr⟩ := h
  unfold Rises
  simp only [lowest_append, lowest_cons, lowest_nil, shift, hl]
  omega

theorem Rises.ite {c : Prop} [Decidable c] (h : Rises ms) (h' : Rises ms') :
    Rises (if c then ms else ms') := by
  split
  · exact h
  · exact h'

/-! ## What a run does to it -/

theorem step_level (h : step m o = .ok o') : m ≠ .nullPointer ∧ o'.level = o.level + shift m := by
  cases m with
  | nullPointer => exact absurd h (by simp [step])
  | decindent =>
    simp only [step] at h
    split at h
    · exact absurd h (by simp)
    · cases h
      exact ⟨by simp, rfl⟩
  | _ =>
    cases h
    exact ⟨by simp, by simp [shift]⟩

/-- A manipulator that does not lead below level 0. -/
theorem step_ok (hm : m ≠ .nullPointer) (hs : 0 ≤ o.level + shift m) :
    ∃ o', step m o = .ok o' ∧ o'.level = o.level + shift m := by
  cases m with
  | nullPointer => exact absurd rfl hm
  | decindent =>
    have hne : o.level ≠ 0 := by
      intro h
      simp [shift, h] at hs
    exact ⟨{ o with level := o.level - 2 }, if_neg hne, rfl⟩
  | _ => exact ⟨_, rfl, by simp [shift]⟩

theorem run_level (h : run ms o = .ok o') :
    .nullPointer ∉ ms ∧ o'.level = o.level + rise ms := by
  induction ms generalizing o with
  | nil =>
    cases h
    simp
  | cons m ms ih =>
    obtain ⟨o₁, hm, hms⟩ := bind_eq_ok.mp h
    obtain ⟨hne, h₁⟩ := step_level hm
    obtain ⟨hno, h₂⟩ := ih hms
    refine ⟨by simp [hno, hne.symm], ?_⟩
    rw [h₂, h₁, rise_cons]
    omega

/-- Manipulators that do not lead below level 0 on the way. -/
theorem run_ok (hno : .nullPointer ∉ ms) (hs : 0 ≤ o.level + lowest ms) :
    ∃ o', run ms o = .ok o' ∧ o'.level = o.level + rise ms := by
  induction ms generalizing o with
  | nil => exact ⟨o, rfl, by simp⟩
  | cons m ms ih =>
    obtain ⟨hm, hms⟩ : m ≠ .nullPointer ∧ .nullPointer ∉ ms := by
      rw [List.mem_cons, not_or] at hno
      exact ⟨Ne.symm hno.1, hno.2⟩
    have hlow : lowest ms ≤ 0 := lowest_nonpos
    rw [lowest_cons] at hs
    obtain ⟨o₁, ho₁, h₁⟩ := step_ok hm (o := o) (by omega)
    obtain ⟨o₂, ho₂, h₂⟩ := ih hms (o := o₁) (by omega)
    refine ⟨o₂, bind_eq_ok.mpr ⟨o₁, ho₁, ho₂⟩, ?_⟩
    rw [h₂, h₁, rise_cons]
    omega

/-- Manipulators that never lead below their start are balanced when they add nothing. -/
theorem balanced_iff (hlow : Rises ms) :
    Balanced ms ↔ .nullPointer ∉ ms ∧ rise ms = 0 := by
  unfold Rises at hlow
  constructor
  · intro hb
    obtain ⟨o', ho', hl⟩ := hb.ends ⟨0, []⟩ (Int.le_refl 0)
    obtain ⟨hno, hr⟩ := run_level ho'
    exact ⟨hno, by omega⟩
  · rintro ⟨hno, hr⟩
    constructor
    · intro o h0
      obtain ⟨o', ho', hl⟩ := run_ok hno (o := o) (by omega)
      exact ⟨o', ho', by omega⟩
    · intro o h0 p hp
      have hle := lowest_le_of_prefix hp
      have hrise : lowest p ≤ rise p := lowest_le_rise
      obtain ⟨o', ho', hl⟩ := run_ok (fun h => hno (hp.subset h)) (o := o) (by omega)
      exact ⟨o', ho', by omega⟩

end Indent
end TigerCompiler
