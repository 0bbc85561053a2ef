import Mathlib.Algebra.Ring.Nat
import Mathlib.Data.List.Basic
import Mathlib.Data.List.Nodup
import Mathlib.Data.List.Perm.Basic

/-!
# Basic blocks

A builder makes basic blocks and fills them: it appends each instruction to the block its cursor
stands in.  Code that leaves a block behind should leave it with one terminator, at its end.  What
is followed here is the list of the blocks that still wait for theirs, and the number of the
terminators against that of the blocks.
-/

/-- A basic block, with what it belongs to. -/
structure BasicBlock (φ ι : Type) where
  parent : φ
  instrs : List ι := []

/-- The blocks made so far, and the one the builder stands in. -/
structure BlockBuilder (φ ι : Type) where
  blocks : List (BasicBlock φ ι) := []
  cursor : Option Nat := none

variable {φ ι : Type}

namespace BasicBlock

variable (ends : ι → Bool)

/-- The block ends with a terminator, and no other instruction of it is one. -/
def WellFormed (x : BasicBlock φ ι) : Prop :=
  ∃ l i, x.instrs = l ++ [i] ∧ ends i = true ∧ ∀ j ∈ l, ends j = false

/-- The block has no terminator yet. -/
def Open (x : BasicBlock φ ι) : Prop := ∀ i ∈ x.instrs, ends i = false

variable {ends} {x : BasicBlock φ ι} {i : ι}

theorem WellFormed.countP_eq_one (h : x.WellFormed ends) : x.instrs.countP ends = 1 := by
  obtain ⟨l, i, hx, hi, hl⟩ := h
  rw [hx, List.countP_append, List.countP_eq_zero.mpr (by simpa using hl)]
  simp [hi]

theorem Open.append (h : x.Open ends) (hi : ends i = false) :
    (⟨x.parent, x.instrs ++ [i]⟩ : BasicBlock φ ι).Open ends := by
  intro j hj
  rcases List.mem_append.mp hj with hj | hj
  · exact h j hj
  · rw [List.mem_singleton.mp hj, hi]

theorem Open.terminate (h : x.Open ends) (hi : ends i = true) :
    (⟨x.parent, x.instrs ++ [i]⟩ : BasicBlock φ ι).WellFormed ends :=
  ⟨x.instrs, i, rfl, hi, h⟩

theorem Open.cons (h : x.Open ends) (hi : ends i = false) :
    (⟨x.parent, i :: x.instrs⟩ : BasicBlock φ ι).Open ends := by
  intro j hj
  rcases List.mem_cons.mp hj with rfl | hj
  · exact hi
  · exact h j hj

theorem WellFormed.cons (h : x.WellFormed ends) (hi : ends i = false) :
    (⟨x.parent, i :: x.instrs⟩ : BasicBlock φ ι).WellFormed ends := by
  obtain ⟨l, t, hx, ht, hl⟩ := h
  refine ⟨i :: l, t, by simp [hx], ht, ?_⟩
  intro j hj
  rcases List.mem_cons.mp hj with rfl | hj
  · exact hi
  · exact hl j hj

end BasicBlock

namespace BlockBuilder

/-! ## The operations -/

/-- The number of the block that is made next. -/
def next (b : BlockBuilder φ ι) : Nat := b.blocks.length

/-- Make a block. -/
def newBlock (b : BlockBuilder φ ι) (parent : φ) : BlockBuilder φ ι :=
  { b with blocks := b.blocks ++ [⟨parent, []⟩] }

/-- Go to the end of a block, or nowhere. -/
def moveTo (b : BlockBuilder φ ι) (c : Option Nat) : BlockBuilder φ ι := { b with cursor := c }

/-- Insert an instruction where the builder stands. -/
def insert (b : BlockBuilder φ ι) (i : ι) : BlockBuilder φ ι :=
  match b.cursor with
  | none => b
  | some c => { b with blocks := b.blocks.modify c fun x => ⟨x.parent, x.instrs ++ [i]⟩ }

/-- Insert an instruction at the beginning of a block. -/
def insertFront (b : BlockBuilder φ ι) (c : Nat) (i : ι) : BlockBuilder φ ι :=
  { b with blocks := b.blocks.modify c fun x => ⟨x.parent, i :: x.instrs⟩ }

/-- The first block made for `f`. -/
def entry [DecidableEq φ] (b : BlockBuilder φ ι) (f : φ) : Option Nat :=
  b.blocks.findIdx? fun x => x.parent = f

variable {b : BlockBuilder φ ι} {c n : Nat} {o : Option Nat} {i : ι} {p : φ} {l l' : List Nat}

@[simp] theorem cursor_newBlock : (b.newBlock p).cursor = b.cursor := rfl

@[simp] theorem cursor_moveTo : (b.moveTo o).cursor = o := rfl

@[simp] theorem cursor_insert : (b.insert i).cursor = b.cursor := by
  unfold insert
  split <;> simp_all

@[simp] theorem cursor_insertFront : (b.insertFront c i).cursor = b.cursor := rfl

@[simp] theorem next_newBlock : (b.newBlock p).next = b.next + 1 := by
  simp [next, newBlock]

@[simp] theorem next_moveTo : (b.moveTo o).next = b.next := rfl

@[simp] theorem next_insert : (b.insert i).next = b.next := by
  unfold insert
  split <;> simp [next]

@[simp] theorem next_insertFront : (b.insertFront c i).next = b.next := by
  simp [next, insertFront]

/-! ## The blocks that wait for their terminator -/

/-- The blocks of `l` have no terminator yet, and every other one is well formed. -/
structure Waits (ends : ι → Bool) (b : BlockBuilder φ ι) (l : List Nat) : Prop where
  nodup : l.Nodup
  lt : ∀ n ∈ l, n < b.next
  isOpen : ∀ n x, b.blocks[n]? = some x → n ∈ l → x.Open ends
  wellFormed : ∀ n x, b.blocks[n]? = some x → n ∉ l → x.WellFormed ends

variable {ends : ι → Bool}

namespace Waits

theorem perm (h : Waits ends b l) (hp : l.Perm l') : Waits ends b l' where
  nodup := hp.nodup h.nodup
  lt n hn := h.lt n (hp.mem_iff.mpr hn)
  isOpen n x hx hn := h.isOpen n x hx (hp.mem_iff.mpr hn)
  wellFormed n x hx hn := h.wellFormed n x hx fun hm => hn (hp.mem_iff.mp hm)

theorem moveTo (h : Waits ends b l) : Waits ends (b.moveTo o) l :=
  ⟨h.nodup, h.lt, h.isOpen, h.wellFormed⟩

/-- A block that is made waits for its terminator. -/
theorem newBlock (h : Waits ends b l) : Waits ends (b.newBlock p) (b.next :: l) where
  nodup := List.nodup_cons.mpr ⟨fun hn => Nat.lt_irrefl _ (h.lt _ hn), h.nodup⟩
  lt n hn := by
    rw [next_newBlock]
    rcases List.mem_cons.mp hn with rfl | hn
    · exact Nat.lt_succ_self _
    · exact Nat.lt_succ_of_lt (h.lt n hn)
  isOpen n x hx hn := by
    simp only [BlockBuilder.newBlock, List.getElem?_append] at hx
    split at hx
    · rename_i hlt
      rcases List.mem_cons.mp hn with rfl | hn
      · exact absurd hlt (Nat.lt_irrefl _)
      · exact h.isOpen n x hx hn
    · obtain rfl := List.mem_singleton.mp (List.mem_of_getElem? hx)
      exact nofun
  wellFormed n x hx hn := by
    rw [List.mem_cons, not_or] at hn
    simp only [BlockBuilder.newBlock, List.getElem?_append] at hx
    split at hx
    · exact h.wellFormed n x hx hn.2
    · rename_i hlt
      obtain ⟨hn', -⟩ := List.getElem?_eq_some_iff.mp hx
      simp only [List.length_singleton] at hn'
      exact absurd (show n = b.next from by unfold next; omega) hn.1

/-- Instructions that are no terminators change nothing. -/
theorem modify {f : BasicBlock φ ι → BasicBlock φ ι} (h : Waits ends b l)
    (ho : ∀ x, x.Open ends → (f x).Open ends)
    (hw : c ∉ l → ∀ x, x.WellFormed ends → (f x).WellFormed ends) :
    Waits ends { b with blocks := b.blocks.modify c f } l where
  nodup := h.nodup
  lt n hn := by simpa [next] using h.lt n hn
  isOpen n x hx hn := by
    rw [List.getElem?_modify, Option.map_eq_map, Option.map_eq_some_iff] at hx
    obtain ⟨y, hy, rfl⟩ := hx
    have hyo := h.isOpen n y hy hn
    split
    · exact ho y hyo
    · exact hyo
  wellFormed n x hx hn := by
    rw [List.getElem?_modify, Option.map_eq_map, Option.map_eq_some_iff] at hx
    obtain ⟨y, hy, rfl⟩ := hx
    have hyw := h.wellFormed n y hy hn
    split
    · rename_i hc
      exact hw (hc ▸ hn) y hyw
    · exact hyw

theorem insert (h : Waits ends b (b.cursor.toList ++ l)) (hi : ends i = false) :
    Waits ends (b.insert i) (b.cursor.toList ++ l) := by
  unfold BlockBuilder.insert
  split
  · exact h
  · rename_i c hc
    apply h.modify fun x hx => hx.append hi
    intro hn
    exact absurd (by simp [hc]) hn

theorem insertFront (h : Waits ends b l) (hi : ends i = false) :
    Waits ends (b.insertFront c i) l :=
  h.modify (fun _ hx => hx.cons hi) fun _ _ hx => hx.cons hi

/-- A terminator closes the block the builder stands in. -/
theorem terminate (h : Waits ends b (b.cursor.toList ++ l)) (hi : ends i = true) :
    Waits ends (b.insert i) l := by
  unfold BlockBuilder.insert
  split
  · rename_i hc
    rwa [hc] at h
  · rename_i c hc
    rw [hc, Option.toList_some, List.singleton_append] at h
    obtain ⟨hn, hl⟩ := List.nodup_cons.mp h.nodup
    refine ⟨hl, ?_, ?_, ?_⟩
    · intro n hm
      simpa [next] using h.lt n (.tail _ hm)
    · intro n x hx hm
      have hne : c ≠ n := by
        rintro rfl
        exact hn hm
      exact h.isOpen n x (by simpa [List.getElem?_modify, hne] using hx) (.tail _ hm)
    · intro n x hx hm
      rw [List.getElem?_modify, Option.map_eq_map, Option.map_eq_some_iff] at hx
      obtain ⟨y, hy, rfl⟩ := hx
      by_cases hcn : c = n
      · subst hcn
        rw [if_pos rfl]
        exact (h.isOpen c y hy List.mem_cons_self).terminate hi
      · rw [if_neg hcn]
        exact h.wellFormed n y hy (by simp [Ne.symm hcn, hm])

/-- Where no block waits, all are well formed. -/
theorem all_wellFormed (h : Waits ends b []) : ∀ x ∈ b.blocks, x.WellFormed ends := by
  intro x hx
  obtain ⟨n, hn⟩ := List.getElem?_of_mem hx
  exact h.wellFormed n x hn List.not_mem_nil

end Waits

/-! ## Terminators against blocks -/

/-- The number of terminators. -/
def terminators (ends : ι → Bool) (b : BlockBuilder φ ι) : Nat :=
  (b.blocks.map fun x => x.instrs.countP ends).sum

/-- How many terminators there are more than blocks. -/
def surplus (ends : ι → Bool) (b : BlockBuilder φ ι) : Int := b.terminators ends - b.next

theorem surplus_eq_zero (h : ∀ x ∈ b.blocks, x.WellFormed ends) : b.surplus ends = 0 := by
  have hone : (b.blocks.map fun x => x.instrs.countP ends) = b.blocks.map fun _ => 1 :=
    List.map_congr_left fun x hx => (h x hx).countP_eq_one
  simp [surplus, terminators, next, hone]

@[simp] theorem surplus_newBlock : (b.newBlock p).surplus ends = b.surplus ends - 1 := by
  have ht : (b.newBlock p).terminators ends = b.terminators ends := by
    simp [terminators, newBlock]
  rw [surplus, ht, next_newBlock, surplus]
  omega

@[simp] theorem surplus_moveTo : (b.moveTo o).surplus ends = b.surplus ends := rfl

/-- What changing one element makes of a sum. -/
theorem sum_modify {α : Type} {g : α → Nat} {f : α → α} {d : Nat}
    (hf : ∀ x, g (f x) = g x + d) {xs : List α} (hc : c < xs.length) :
    ((xs.modify c f).map g).sum = (xs.map g).sum + d := by
  induction xs generalizing c with
  | nil => cases hc
  | cons x xs ih =>
    cases c with
    | zero =>
      simp only [List.modify_zero_cons, List.map_cons, List.sum_cons, hf]
      omega
    | succ c =>
      simp only [List.modify_succ_cons, List.map_cons, List.sum_cons,
        ih (Nat.lt_of_succ_lt_succ hc)]
      omega

/-- A terminator counts where there is a block to hold it. -/
theorem surplus_insert_of_ends (hc : b.cursor = some c) (hlt : c < b.next)
    (hi : ends i = true) : (b.insert i).surplus ends = b.surplus ends + 1 := by
  have ht : (b.insert i).terminators ends = b.terminators ends + 1 := by
    simp only [insert, hc]
    apply sum_modify _ hlt
    intro x
    simp [hi]
  rw [surplus, ht, next_insert, surplus]
  omega

theorem surplus_modify {f : BasicBlock φ ι → BasicBlock φ ι}
    (hf : ∀ x, (f x).instrs.countP ends = x.instrs.countP ends) :
    surplus ends { b with blocks := b.blocks.modify c f } = b.surplus ends := by
  by_cases hc : c < b.blocks.length
  · have ht : terminators ends { b with blocks := b.blocks.modify c f } = b.terminators ends :=
      sum_modify (d := 0) hf hc
    rw [surplus, ht, surplus]
    simp [next]
  · rw [List.modify_eq_self (Nat.le_of_not_lt hc)]

@[simp] theorem surplus_insert (hi : ends i = false) :
    (b.insert i).surplus ends = b.surplus ends := by
  unfold insert
  split
  · rfl
  · exact surplus_modify fun x => by simp [hi]

@[simp] theorem surplus_insertFront (hi : ends i = false) :
    (b.insertFront c i).surplus ends = b.surplus ends :=
  surplus_modify fun x => by simp [hi]

end BlockBuilder
