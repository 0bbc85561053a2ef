import Mathlib.Data.List.Basic

/-!
# Loops gone over until nothing comes of it

Items one after the other, some of them in loops.  A loop is gone over once, and again as long as
one of its items has brought something; what an item of a loop inside it brings does not count.
Whether an item brings something depends on the items gone over before it, so that `GoneOver`
tells in which order, and how often, the items are met.
-/

namespace TigerCompiler

/-- Items and loops. -/
inductive Blocks (α : Type)
  | nil
  | item (a : α) (rest : Blocks α)
  | loop (body rest : Blocks α)

namespace Blocks

variable {α : Type} {a : α} {bs bs' : Blocks α} {P T T' : List α} {b b' : Bool}

/-- One item. -/
def one (a : α) : Blocks α := .item a .nil

/-- Some blocks and then others. -/
def append : Blocks α → Blocks α → Blocks α
  | nil, bs' => bs'
  | item a bs, bs' => item a (bs.append bs')
  | loop body bs, bs' => loop body (bs.append bs')

instance : Append (Blocks α) := ⟨append⟩

@[simp] theorem nil_append (bs : Blocks α) : nil ++ bs = bs := rfl

@[simp] theorem item_append (a : α) (bs bs' : Blocks α) :
    item a bs ++ bs' = item a (bs ++ bs') := rfl

@[simp] theorem loop_append (body bs bs' : Blocks α) :
    loop body bs ++ bs' = loop body (bs ++ bs') := rfl

/-- The items as they are written. -/
def items : Blocks α → List α
  | nil => []
  | item a bs => a :: bs.items
  | loop body bs => body.items ++ bs.items

@[simp] theorem items_nil : (nil : Blocks α).items = [] := rfl

@[simp] theorem items_item (a : α) (bs : Blocks α) : (item a bs).items = a :: bs.items := rfl

@[simp] theorem items_loop (body bs : Blocks α) :
    (loop body bs).items = body.items ++ bs.items := rfl

@[simp] theorem items_one (a : α) : (one a).items = [a] := rfl

@[simp] theorem items_append (bs bs' : Blocks α) : (bs ++ bs').items = bs.items ++ bs'.items := by
  induction bs with
  | nil => rfl
  | item a bs ih => rw [item_append, items_item, items_item, ih, List.cons_append]
  | loop body bs _ ih => rw [loop_append, items_loop, items_loop, ih, List.append_assoc]

/-- After `P` the blocks are gone over as `T`, and `b` tells whether an item outside their loops
has brought something. -/
inductive GoneOver (brings : List α → α → Prop) : List α → Blocks α → List α → Bool → Prop
  | nil (P : List α) : GoneOver brings P .nil [] false
  | bring {P : List α} {a : α} {bs : Blocks α} {T : List α} {b : Bool} (ha : brings P a)
      (hr : GoneOver brings (P ++ [a]) bs T b) : GoneOver brings P (.item a bs) (a :: T) true
  | pass {P : List α} {a : α} {bs : Blocks α} {T : List α} {b : Bool} (ha : ¬ brings P a)
      (hr : GoneOver brings (P ++ [a]) bs T b) : GoneOver brings P (.item a bs) (a :: T) b
  | last {P : List α} {body bs : Blocks α} {T T' : List α} {b : Bool}
      (hb : GoneOver brings P body T false) (hr : GoneOver brings (P ++ T) bs T' b) :
      GoneOver brings P (.loop body bs) (T ++ T') b
  | again {P : List α} {body bs : Blocks α} {T T' : List α} {b : Bool}
      (hb : GoneOver brings P body T true)
      (hr : GoneOver brings (P ++ T) (.loop body bs) T' b) :
      GoneOver brings P (.loop body bs) (T ++ T') b

namespace GoneOver

variable {brings : List α → α → Prop}

theorem append (h : GoneOver brings P bs T b) (h' : GoneOver brings (P ++ T) bs' T' b') :
    GoneOver brings P (bs ++ bs') (T ++ T') (b || b') := by
  induction h with
  | nil P => simpa using h'
  | bring ha _ ih => exact .bring ha (ih (by simpa using h'))
  | pass ha _ ih => exact .pass ha (ih (by simpa using h'))
  | last hb _ _ ih =>
    rw [List.append_assoc]
    exact .last hb (ih (by simpa using h'))
  | again hb _ _ ih =>
    rw [List.append_assoc]
    exact .again hb (ih (by simpa using h'))

/-- The items are gone over in one way only. -/
theorem unique (h : GoneOver brings P bs T b) (h' : GoneOver brings P bs T' b') :
    T = T' ∧ b = b' := by
  induction h generalizing T' b' with
  | nil P =>
    cases h'
    exact ⟨rfl, rfl⟩
  | bring ha _ ih =>
    cases h' with
    | bring _ hr => exact ⟨congrArg _ (ih hr).1, rfl⟩
    | pass hn _ => exact absurd ha hn
  | pass ha _ ih =>
    cases h' with
    | bring hn _ => exact absurd hn ha
    | pass _ hr => exact ⟨congrArg _ (ih hr).1, (ih hr).2⟩
  | last _ _ ihb ih =>
    cases h' with
    | last hb hr =>
      obtain ⟨rfl, -⟩ := ihb hb
      obtain ⟨rfl, rfl⟩ := ih hr
      exact ⟨rfl, rfl⟩
    | again hb _ => cases (ihb hb).2
  | again _ _ ihb ih =>
    cases h' with
    | last hb _ => cases (ihb hb).2
    | again hb hr =>
      obtain ⟨rfl, -⟩ := ihb hb
      obtain ⟨rfl, rfl⟩ := ih hr
      exact ⟨rfl, rfl⟩

theorem subset (h : GoneOver brings P bs T b) : T ⊆ bs.items := by
  induction h with
  | nil P => exact List.Subset.refl _
  | bring _ _ ih | pass _ _ ih => exact List.cons_subset_cons _ ih
  | last _ _ ihb ih =>
    exact List.append_subset.mpr ⟨List.subset_append_of_subset_left _ ihb,
      List.subset_append_of_subset_right _ ih⟩
  | again _ _ ihb ih =>
    exact List.append_subset.mpr ⟨List.subset_append_of_subset_left _ ihb, ih⟩

end GoneOver

end Blocks

end TigerCompiler
