import TigerCompiler.Misc.Error
import Mathlib.Algebra.Ring.Int.Defs
import Mathlib.Algebra.Ring.Nat

/-!
# The arrays of the runtime

`tc_init_array` and `tc_init_ptr_array`, of `tiger-runtime.c` and of the runtime with the garbage
collector.  The size comes as a signed integer and is used as an unsigned one; it is multiplied,
and with the collector a header is added, in the arithmetic of `size_t`.
-/

namespace TigerCompiler

/-- What the C library answers to a request, given in bytes: whether there is memory. -/
structure Allocator where
  malloc : UInt64 → Bool
  /-- The first `calloc` of `tc_malloc`, and the one after a collection. -/
  calloc : Bool → UInt64 → Bool

/-- A block by the number of bytes it was requested with, and what is stored in its words. -/
structure Filled where
  bytes : UInt64
  stores : List (UInt64 × UInt64)
  deriving DecidableEq

namespace Runtime

/-- The loop over the elements, from the `i`-th on: what is stored, and where. -/
def fill (size elt i : UInt64) : List (UInt64 × UInt64) :=
  if i < size then (i, elt) :: fill size elt (i + 1) else []
termination_by size.toNat - i.toNat
decreasing_by
  rename_i h
  have hlt := UInt64.lt_iff_toNat_lt.mp h
  have hsize := size.toNat_lt
  rw [UInt64.toNat_add, UInt64.toNat_one, Nat.mod_eq_of_lt (by omega)]
  omega

/-! ## The runtime without a collector -/

/-- `tc_malloc`: the bytes of the block, `none` when the program exits. -/
def tcMalloc (a : Allocator) (size : UInt64) : Option UInt64 :=
  if a.malloc size then some size else none

/-- `tc_init_array`. -/
def tcInitArray (a : Allocator) (size elt : Int64) : Option Filled := do
  let arr ← tcMalloc a (size.toUInt64 * 8)
  return ⟨arr, fill size.toUInt64 elt.toUInt64 0⟩

/-- `tc_init_ptr_array`. -/
def tcInitPtrArray (a : Allocator) (size elt : Int64) : Option Filled := tcInitArray a size elt

/-! ## The runtime with the collector -/

namespace WithGc

/-- `sizeof(struct gc_md)`. -/
def gcMd : UInt64 := 16

/-- `sizeof(struct list_obj)`. -/
def listObj : UInt64 := 16

/-- `tc_malloc`: the bytes of the block with its header, `none` when the program exits. -/
def tcMalloc (a : Allocator) (size : UInt64) : Option UInt64 :=
  if a.calloc false (gcMd + size) || a.calloc true (gcMd + size) then
    if a.malloc listObj then some (gcMd + size) else none
  else none

/-- `tc_init_array`. -/
def tcInitArray (a : Allocator) (size elt : UInt64) : Option Filled := do
  let tmp ← tcMalloc a (size * 8)
  return ⟨tmp, fill size elt 0⟩

/-- `tc_init_ptr_array`, on the address of a block. -/
def tcInitPtrArray (a : Allocator) (size elt : UInt64) : Option Filled := do
  let res ← tcMalloc a (size * 8)
  return ⟨res, fill size elt 0⟩

end WithGc

/-! ## The size of the block -/

/-- The program exits, or the block has the bytes for all that is stored in it. -/
def LargeEnough : Option Filled → Prop
  | none => True
  | some r => 8 * r.stores.length ≤ r.bytes.toNat

/-- The arrays of a size are large enough, in both runtimes. -/
structure ArraysFit (a : Allocator) (size elt : Int64) : Prop where
  array : LargeEnough (tcInitArray a size elt)
  ptrArray : LargeEnough (tcInitPtrArray a size elt)
  gcArray : LargeEnough (WithGc.tcInitArray a size.toUInt64 elt.toUInt64)
  gcPtrArray : LargeEnough (WithGc.tcInitPtrArray a size.toUInt64 elt.toUInt64)

/-- The header and the elements of an array come to a number of bytes that `size_t` can hold. -/
def Representable (header : Nat) (size : Int64) : Prop :=
  header + 8 * size.toUInt64.toNat < 2 ^ 64

/-- The runtime without a collector gets no memory for what the size wraps to. -/
def Refuses (a : Allocator) (size : Int64) : Prop := a.malloc (size.toUInt64 * 8) = false

/-- Nor does the other one. -/
def GcRefuses (a : Allocator) (size : Int64) : Prop :=
  a.calloc false (16 + size.toUInt64 * 8) = false ∧
      a.calloc true (16 + size.toUInt64 * 8) = false ∨
    a.malloc 16 = false

variable {a : Allocator} {size elt i : UInt64}

/-- The loop stores into every element from the `i`-th on. -/
theorem length_fill : (fill size elt i).length = size.toNat - i.toNat := by
  induction i using fill.induct size with
  | case1 i hlt ih =>
    have hi := UInt64.lt_iff_toNat_lt.mp hlt
    have hsize := size.toNat_lt
    have hnext : (i + 1).toNat = i.toNat + 1 := by
      rw [UInt64.toNat_add, UInt64.toNat_one, Nat.mod_eq_of_lt (by omega)]
    rw [fill, if_pos hlt, List.length_cons, ih, hnext]
    omega
  | case2 i hge =>
    have hi : ¬ i.toNat < size.toNat := fun h => hge (UInt64.lt_iff_toNat_lt.mpr h)
    rw [fill, if_neg hge, List.length_nil]
    omega

theorem length_fill_zero : (fill size elt 0).length = size.toNat := length_fill

/-- The product does not wrap exactly when it is as large as it should be. -/
theorem le_mul_iff : 8 * size.toNat ≤ (size * 8).toNat ↔ 8 * size.toNat < 2 ^ 64 := by
  have hmul : (size * 8).toNat = size.toNat * 8 % 2 ^ 64 := UInt64.toNat_mul size 8
  rw [hmul]
  omega

/-- Nor does the sum with the header. -/
theorem le_add_mul_iff :
    8 * size.toNat ≤ (16 + size * 8).toNat ↔ 16 + 8 * size.toNat < 2 ^ 64 := by
  have hmul : (size * 8).toNat = size.toNat * 8 % 2 ^ 64 := UInt64.toNat_mul size 8
  have hadd : (16 + size * 8).toNat = (16 + (size * 8).toNat) % 2 ^ 64 :=
    UInt64.toNat_add 16 (size * 8)
  rw [hadd, hmul]
  omega

theorem largeEnough_tcInitArray (a : Allocator) (size elt : Int64) :
    LargeEnough (tcInitArray a size elt) ↔ Representable 0 size ∨ Refuses a size := by
  unfold tcInitArray tcMalloc Refuses Representable
  cases hm : a.malloc (size.toUInt64 * 8) with
  | false => exact iff_of_true trivial (.inr rfl)
  | true =>
    show 8 * (fill size.toUInt64 elt.toUInt64 0).length ≤ (size.toUInt64 * 8).toNat ↔ _
    rw [length_fill_zero, le_mul_iff, Nat.zero_add]
    simp

theorem largeEnough_gcInitArray (a : Allocator) (size : Int64) (elt : UInt64) :
    LargeEnough (WithGc.tcInitArray a size.toUInt64 elt) ↔
      Representable 16 size ∨ GcRefuses a size := by
  unfold WithGc.tcInitArray WithGc.tcMalloc GcRefuses Representable WithGc.gcMd WithGc.listObj
  cases hc : a.calloc false (16 + size.toUInt64 * 8) || a.calloc true (16 + size.toUInt64 * 8) with
  | false => exact iff_of_true trivial (.inr (.inl (Bool.or_eq_false_iff.mp hc)))
  | true =>
    cases hm : a.malloc 16 with
    | false => exact iff_of_true trivial (.inr (.inr rfl))
    | true =>
      show 8 * (fill size.toUInt64 elt 0).length ≤ (16 + size.toUInt64 * 8).toNat ↔ _
      rw [length_fill_zero, le_add_mul_iff]
      have hno : ¬ (a.calloc false (16 + size.toUInt64 * 8) = false ∧
          a.calloc true (16 + size.toUInt64 * 8) = false) := by
        rintro ⟨h₁, h₂⟩
        simp [h₁, h₂] at hc
      simp [hno]

/-- **The arrays of a size are large enough exactly when the bytes they need can be represented, or
no memory is found for what they wrap to.** -/
theorem arraysFit_iff (a : Allocator) (size elt : Int64) :
    ArraysFit a size elt ↔
      (Representable 0 size ∨ Refuses a size) ∧ (Representable 16 size ∨ GcRefuses a size) := by
  constructor
  · intro h
    exact ⟨(largeEnough_tcInitArray a size elt).mp h.array,
      (largeEnough_gcInitArray a size elt.toUInt64).mp h.gcArray⟩
  · rintro ⟨hplain, hgc⟩
    have harray := (largeEnough_tcInitArray a size elt).mpr hplain
    have hgcArray := (largeEnough_gcInitArray a size elt.toUInt64).mpr hgc
    -- In both runtimes the two functions are the same.
    exact ⟨harray, harray, hgcArray, hgcArray⟩

/-- A size whose product is 0: with memory for no byte, the loop stores into 2 ^ 61 words. -/
theorem not_arraysFit :
    ¬ ∀ (a : Allocator) (size elt : Int64), ArraysFit a size elt := by
  intro hall
  let a : Allocator := { malloc := fun n => n ≤ 1048576, calloc := fun _ n => n ≤ 1048576 }
  have hfit := (hall a 2305843009213693952 0).array
  rw [largeEnough_tcInitArray] at hfit
  revert hfit
  unfold Representable Refuses
  decide

end Runtime

end TigerCompiler
