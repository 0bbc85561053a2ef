import Mathlib.Data.List.Basic
import Mathlib.Order.Basic
import Mathlib.Order.Lattice

/-!
# Multimaps

`std::multimap`: entries in the order of their keys, those of one key in the order in which they
came.  The entries are in order whatever is done, so a `Multimap` carries the proof of it; what a
key is mapped to is then all the entries of that key (`equalRange_eq`), and an entry that comes is
the last of its key (`equalRange_emplace`).
-/

variable {K V : Type} [LinearOrder K]

/-- `std::multimap<K, V>`. -/
structure Multimap (K V : Type) [LinearOrder K] where
  entries : List (K × V)
  sorted : entries.Pairwise fun e e' => e.1 ≤ e'.1

namespace Multimap

/-- The entries with a new one at the upper bound of its key: before the first greater key. -/
def insertUpper (k : K) (v : V) : List (K × V) → List (K × V)
  | [] => [(k, v)]
  | e :: es => if k < e.1 then (k, v) :: e :: es else e :: insertUpper k v es

variable {k k' : K} {v : V} {e : K × V} {es : List (K × V)}

theorem mem_insertUpper {x : K × V} : x ∈ insertUpper k v es ↔ x = (k, v) ∨ x ∈ es := by
  induction es with
  | nil => simp [insertUpper]
  | cons e es ih =>
    rw [insertUpper]
    split
    · simp
    · simp only [List.mem_cons, ih]
      exact or_left_comm

theorem pairwise_insertUpper (h : es.Pairwise fun e e' => e.1 ≤ e'.1) :
    (insertUpper k v es).Pairwise fun e e' => e.1 ≤ e'.1 := by
  induction es with
  | nil => simp [insertUpper]
  | cons e es ih =>
    obtain ⟨he, hes⟩ := List.pairwise_cons.mp h
    rw [insertUpper]
    split
    · rename_i hk
      refine List.pairwise_cons.mpr ⟨fun x hx => ?_, h⟩
      rcases List.mem_cons.mp hx with rfl | hx
      · exact hk.le
      · exact hk.le.trans (he x hx)
    · rename_i hk
      refine List.pairwise_cons.mpr ⟨fun x hx => ?_, ih hes⟩
      rcases mem_insertUpper.mp hx with rfl | hx
      · exact not_lt.mp hk
      · exact he x hx

/-- The multimap without entries. -/
def empty : Multimap K V := ⟨[], .nil⟩

/-- `emplace`. -/
def emplace (m : Multimap K V) (k : K) (v : V) : Multimap K V :=
  ⟨insertUpper k v m.entries, pairwise_insertUpper m.sorted⟩

/-- `equal_range`: the values between the lower and the upper bound of the key. -/
def equalRange (m : Multimap K V) (k : K) : List V :=
  ((m.entries.dropWhile fun e => e.1 < k).takeWhile fun e => ¬ k < e.1).map Prod.snd

/-! ## What a key is mapped to -/

/-- From the lower bound on, the entries of the key come first. -/
theorem takeWhile_eq_filter (h : es.Pairwise fun e e' => e.1 ≤ e'.1) (hk : ∀ e ∈ es, k ≤ e.1) :
    (es.takeWhile fun e => ¬ k < e.1) = es.filter fun e => e.1 = k := by
  induction es with
  | nil => rfl
  | cons e es ih =>
    obtain ⟨he, hes⟩ := List.pairwise_cons.mp h
    rcases (hk e (.head _)).eq_or_lt with rfl | hlt
    · simpa using ih hes he
    · have hnone : ∀ x ∈ es, ¬ x.1 = k := fun x hx => (hlt.trans_le (he x hx)).ne'
      simpa [hlt, hlt.ne'] using hnone

/-- **A key is mapped to all the values that have come with it.** -/
theorem equalRange_eq (m : Multimap K V) (k : K) :
    m.equalRange k = (m.entries.filter fun e => e.1 = k).map Prod.snd := by
  obtain ⟨es, h⟩ := m
  rw [equalRange]
  congr 1
  induction es with
  | nil => rfl
  | cons e es ih =>
    obtain ⟨he, hes⟩ := List.pairwise_cons.mp h
    by_cases hlt : e.1 < k
    · simpa [hlt, hlt.ne] using ih hes
    · rw [List.dropWhile_cons_of_neg (by simpa using hlt)]
      refine takeWhile_eq_filter h fun x hx => ?_
      rcases List.mem_cons.mp hx with rfl | hx
      · exact not_lt.mp hlt
      · exact (not_lt.mp hlt).trans (he x hx)

@[simp] theorem equalRange_empty (k : K) : (empty : Multimap K V).equalRange k = [] := rfl

/-- An entry that comes is the last one of its key. -/
theorem filter_insertUpper (h : es.Pairwise fun e e' => e.1 ≤ e'.1) :
    ((insertUpper k v es).filter fun e => e.1 = k') =
      (es.filter fun e => e.1 = k') ++ if k = k' then [(k, v)] else [] := by
  induction es with
  | nil => by_cases hk : k = k' <;> simp [insertUpper, hk]
  | cons e es ih =>
    obtain ⟨he, hes⟩ := List.pairwise_cons.mp h
    rw [insertUpper]
    split
    · rename_i hlt
      by_cases hk : k = k'
      · subst hk
        have hnone : (e :: es).filter (fun e => e.1 = k) = [] := by
          rw [List.filter_eq_nil_iff]
          intro x hx
          rcases List.mem_cons.mp hx with rfl | hx
          · simpa using hlt.ne'
          · simpa using (hlt.trans_le (he x hx)).ne'
        simp [hnone]
      · simp [hk]
    · by_cases hek : e.1 = k' <;> simp [hek, ih hes]

/-- **`emplace` puts the value after those of its key, and leaves the other keys alone.** -/
theorem equalRange_emplace (m : Multimap K V) (k k' : K) (v : V) :
    (m.emplace k v).equalRange k' = m.equalRange k' ++ if k = k' then [v] else [] := by
  rw [equalRange_eq, equalRange_eq, emplace, filter_insertUpper m.sorted, List.map_append]
  by_cases hk : k = k' <;> simp [hk]

end Multimap
