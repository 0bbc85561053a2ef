import Mathlib.Algebra.Ring.Int.Defs
import Mathlib.Algebra.Ring.Nat
import Mathlib.Data.List.Basic
import TigerCompiler.Runtime.Arrays

/-!
# The strings of the runtime

`tc_chr`, `tc_concat`, `tc_ord`, `tc_size` and `tc_substring` of `tiger-runtime.c`.  A string is
what is before its null character; `char` is signed.  The strings of one character are kept in a
table, which `tc_substring` indexes by the character itself.
-/

namespace TigerCompiler

/-- Why a primitive does not return: `exit` after a message, or undefined behaviour. -/
inductive Halt
  | memoryExhausted
  | characterOutOfRange
  | argumentsOutOfBounds
  | undefined
  deriving DecidableEq, Repr

namespace Runtime

/-- A string in memory: no null character in it, and an object with the one after it. -/
structure IsString (s : List Int8) : Prop where
  nulFree : 0 ∉ s
  length : s.length + 1 < 2 ^ 63

/-- The string that a block holds. -/
def readString (block : List Int8) : List Int8 := block.takeWhile (· ≠ 0)

/-- `init_consts`: the table it leaves. -/
def consts : List Int8 :=
  (List.range 256).foldl (fun t j => (t.set (2 * j) (.ofNat j)).set (2 * j + 1) 0)
    (List.replicate 512 0)

/-- The string at `consts + offset`. -/
def constsAt (offset : Int) : Except Halt (List Int8) :=
  if 0 ≤ offset ∧ offset < 512 then .ok (readString (consts.drop offset.toNat))
  else .error .undefined

/-- `tc_init_string`: a block of null characters. -/
def tcInitString (a : Allocator) (size : UInt64) : Except Halt (List Int8) :=
  match tcMalloc a size with
  | some n => .ok (List.replicate n.toNat 0)
  | none => .error .memoryExhausted

/-- `strlen`. -/
def strlen (s : List Int8) : UInt64 := .ofNat s.length

/-- `tc_chr`. -/
def tcChr (i : Int64) : Except Halt (List Int8) :=
  if 0 ≤ i ∧ i ≤ 255 then constsAt (i.toInt * 2) else .error .characterOutOfRange

/-- A loop that copies `m` characters of `s` from `first` on, to `at` and after. -/
def copy (s : List Int8) (first start m : Nat) (t : List Int8) : List Int8 :=
  (List.range m).foldl (fun t i => t.set (start + i) (s[first + i]?.getD 0)) t

/-- `tc_concat`. -/
def tcConcat (al : Allocator) (a b : List Int8) : Except Halt (List Int8) :=
  if strlen a = 0 then .ok b
  else if strlen b = 0 then .ok a
  else do
    let n := strlen a + strlen b
    let t ← tcInitString al (n + 1)
    let t := copy a 0 0 (strlen a).toNat t
    let t := copy b 0 (strlen a).toNat (strlen b).toNat t
    return readString (t.set n.toNat 0)

/-- `tc_ord`. -/
def tcOrd : List Int8 → Int64
  | [] => -1
  | c :: _ => c.toInt64

/-- `tc_size`. -/
def tcSize (s : List Int8) : Int64 := (strlen s).toInt64

/-- `tc_substring`. -/
def tcSubstring (al : Allocator) (s : List Int8) (first n : Int64) : Except Halt (List Int8) :=
  if 0 ≤ first ∧ 0 ≤ n then
    -- The addition is one of signed integers.
    if 2 ^ 63 ≤ first.toInt + n.toInt then .error .undefined
    else if (first + n).toUInt64 ≤ strlen s then
      if n = 1 then constsAt ((s[first.toNatClampNeg]?.getD 0).toInt * 2)
      else do
        let t ← tcInitString al (n + 1).toUInt64
        -- The index of the loop is an `int`.
        if 2 ^ 31 ≤ n.toInt then .error .undefined
        else
          let t := copy s first.toNatClampNeg 0 n.toNatClampNeg t
          return readString (t.set n.toNatClampNeg 0)
    else .error .argumentsOutOfBounds
  else .error .argumentsOutOfBounds

/-! ## Blocks and the table -/

section blocks

variable {s t u : List Int8} {first start m : Nat}

theorem readString_append (h : 0 ∉ u) : readString (u ++ 0 :: t) = u := by
  rw [readString, List.takeWhile_append_of_pos]
  · simp
  · intro c hc
    have : c ≠ 0 := fun h' => h (h' ▸ hc)
    simpa using this

/-- The loop writes what it copies over what was there. -/
theorem copy_eq (ht : start + m ≤ t.length) (hs : first + m ≤ s.length) :
    copy s first start m t = t.take start ++ (s.drop first).take m ++ t.drop (start + m) := by
  induction m with
  | zero => simp [copy]
  | succ m ih =>
    have hlt : first + m < s.length := by omega
    have hlen : (t.take start ++ (s.drop first).take m).length = start + m := by
      simp only [List.length_append, List.length_take, List.length_drop]
      omega
    have hstep : copy s first start (m + 1) t =
        (copy s first start m t).set (start + m) (s[first + m]?.getD 0) := by
      simp only [copy, List.range_succ, List.foldl_append, List.foldl_cons, List.foldl_nil]
    have hdrop : t.drop (start + m) = t[start + m] :: t.drop (start + m + 1) :=
      List.drop_eq_getElem_cons (by omega)
    have hget : s[first + m]?.getD 0 = s[first + m] := by
      rw [List.getElem?_eq_getElem hlt, Option.getD_some]
    have htake : (s.drop first).take (m + 1) = (s.drop first).take m ++ [s[first + m]] := by
      rw [List.take_add_one, List.getElem?_drop, List.getElem?_eq_getElem hlt, Option.toList_some]
    rw [hstep, ih (by omega) (by omega), hdrop, hget, htake]
    rw [List.set_append_right _ _ (by omega), hlen, Nat.sub_self, List.set_cons_zero]
    simp only [List.append_assoc, List.singleton_append, Nat.add_assoc]

/-- The table, after some rounds of the loop that fills it. -/
theorem consts_rounds (hm : m ≤ 256) :
    let t := (List.range m).foldl (fun t j => (t.set (2 * j) (.ofNat j)).set (2 * j + 1) 0)
      (List.replicate 512 (0 : Int8))
    t.length = 512 ∧ ∀ j < m, t[2 * j]? = some (.ofNat j) ∧ t[2 * j + 1]? = some 0 := by
  induction m with
  | zero => exact ⟨List.length_replicate, nofun⟩
  | succ m ih =>
    obtain ⟨hlen, hget⟩ := ih (by omega)
    simp only [List.range_succ, List.foldl_append, List.foldl_cons, List.foldl_nil,
      List.length_set]
    refine ⟨hlen, fun j hj => ?_⟩
    by_cases hjm : j = m
    · subst hjm
      constructor
      · rw [List.getElem?_set_ne (by omega), List.getElem?_set_self (by omega)]
      · rw [List.getElem?_set_self (by rw [List.length_set]; omega)]
    · obtain ⟨he, ho⟩ := hget j (by omega)
      constructor
      · rw [List.getElem?_set_ne (by omega), List.getElem?_set_ne (by omega), he]
      · rw [List.getElem?_set_ne (by omega), List.getElem?_set_ne (by omega), ho]

/-- The table has the string of each character that is not negative. -/
theorem constsAt_of_pos {c : Int8} (h : 0 < c.toInt) : constsAt (c.toInt * 2) = .ok [c] := by
  obtain ⟨hlen, hget⟩ := consts_rounds (Nat.le_refl 256)
  have hc := c.toInt_lt
  obtain ⟨j, hj⟩ : ∃ j : Nat, c.toInt = j := ⟨c.toInt.toNat, by omega⟩
  have hcj : c = .ofNat j := by
    rw [← Int8.toInt_inj, Int8.toInt_ofNat_of_lt (by omega), hj]
  obtain ⟨he, ho⟩ := hget j (by omega)
  have hoff : (c.toInt * 2).toNat = 2 * j := by omega
  have hdrop : consts.drop (2 * j) = c :: 0 :: consts.drop (2 * j + 2) := by
    have hl : consts.length = 512 := hlen
    have he' : consts[2 * j]? = some (.ofNat j) := he
    have ho' : consts[2 * j + 1]? = some 0 := ho
    rw [List.getElem?_eq_getElem (by omega), Option.some.injEq] at he' ho'
    rw [List.drop_eq_getElem_cons (by omega), List.drop_eq_getElem_cons (by omega), he', ho', ← hcj]
  have hnul : (0 : Int8) ∉ [c] := by
    intro hmem
    rw [← List.mem_singleton.mp hmem] at h
    cases h
  rw [constsAt, if_pos (by omega), hoff, hdrop]
  exact congrArg Except.ok (readString_append hnul)

theorem constsAt_of_neg {c : Int8} (h : c.toInt < 0) :
    constsAt (c.toInt * 2) = .error .undefined := by
  rw [constsAt, if_neg (by omega)]

end blocks

/-! ## What the primitives give -/

section primitives

variable {al : Allocator} {a b s : List Int8} {first n : Int64}

theorem tcInitString_eq (hal : ∀ size, al.malloc size = true) (size : UInt64) :
    tcInitString al size = .ok (List.replicate size.toNat 0) := by
  rw [tcInitString, tcMalloc, if_pos (hal size)]

theorem strlen_toNat (h : s.length < 2 ^ 63) : (strlen s).toNat = s.length :=
  UInt64.toNat_ofNat_of_lt' (Nat.lt_trans h (by decide))

theorem strlen_eq_zero (h : s.length < 2 ^ 63) : strlen s = 0 ↔ s = [] := by
  rw [← UInt64.toNat_inj, strlen_toNat h]
  exact List.length_eq_zero_iff

theorem tcSize_toInt (h : s.length < 2 ^ 63) : (tcSize s).toInt = s.length := by
  rw [tcSize, strlen, UInt64.toInt64_ofNat']
  exact Int64.toInt_ofNat_of_lt h

/-- `tc_concat` is concatenation. -/
theorem tcConcat_eq (hal : ∀ size, al.malloc size = true) (ha : IsString a) (hb : IsString b)
    (hab : a.length + b.length + 1 < 2 ^ 63) : tcConcat al a b = .ok (a ++ b) := by
  have hla := ha.length
  have hlb := hb.length
  rw [tcConcat]
  split
  · rename_i h
    rw [(strlen_eq_zero (by omega)).mp h]
    rfl
  · split
    · rename_i h
      rw [(strlen_eq_zero (by omega)).mp h, List.append_nil]
    · have hn : (strlen a + strlen b).toNat = a.length + b.length := by
        rw [UInt64.toNat_add, strlen_toNat (by omega), strlen_toNat (by omega),
          Nat.mod_eq_of_lt (by omega)]
      have hn' : (strlen a + strlen b + 1).toNat = a.length + b.length + 1 := by
        rw [UInt64.toNat_add, hn, UInt64.toNat_one, Nat.mod_eq_of_lt (by omega)]
      simp only [tcInitString_eq hal, ok_bind, hn, hn', strlen_toNat (s := a) (by omega),
        strlen_toNat (s := b) (by omega)]
      have hfirst : copy a 0 0 a.length (List.replicate (a.length + b.length + 1) 0) =
          a ++ List.replicate (b.length + 1) 0 := by
        rw [copy_eq (by simp; omega) (by simp), List.drop_replicate]
        simp [Nat.add_assoc]
      have hsecond : copy b 0 a.length b.length (a ++ List.replicate (b.length + 1) 0) =
          a ++ b ++ [0] := by
        rw [copy_eq (by simp) (by simp), List.take_left, ← List.drop_drop, List.drop_left,
          List.drop_replicate]
        simp
      have hset : (a ++ b ++ [0]).set (a.length + b.length) 0 = a ++ b ++ [0] := by
        rw [List.set_append_right _ _ (by simp)]
        simp
      have hnul : (0 : Int8) ∉ a ++ b := by
        rw [List.mem_append]
        exact fun h => h.elim ha.nulFree hb.nulFree
      rw [hfirst, hsecond, hset]
      exact congrArg Except.ok (readString_append hnul)

/-- The sum of the arguments, where it does not overflow. -/
theorem sum_toNat {i m : Nat} (hi : first.toInt = i) (hm : n.toInt = m) (h : i + m < 2 ^ 63) :
    (first + n).toUInt64.toNat = i + m := by
  have hsum : (first + n).toInt = (i + m : Nat) := by
    rw [Int64.toInt_add, hi, hm, Int.bmod_eq_of_le (by omega) (by omega)]
    rfl
  have hnonneg : 0 ≤ first + n := by
    rw [Int64.le_iff_toInt_le, hsum]
    exact Int.natCast_nonneg _
  rw [Int64.toNat_toUInt64_of_le hnonneg, ← Int64.toNat_toInt, hsum]
  rfl

theorem zero_le_iff : 0 ≤ n ↔ 0 ≤ n.toInt := Int64.le_iff_toInt_le

theorem toNatClampNeg_eq {m : Nat} (h : n.toInt = m) : n.toNatClampNeg = m := by
  rw [← Int64.toNat_toInt, h]
  rfl

/-- The test of the bounds, where there is no overflow. -/
theorem sum_le_strlen (hs : IsString s) {i m : Nat} (hi : first.toInt = i) (hm : n.toInt = m)
    (h : i + m < 2 ^ 63) : (first + n).toUInt64 ≤ strlen s ↔ i + m ≤ s.length := by
  have hl := hs.length
  rw [UInt64.le_iff_toNat_le, sum_toNat hi hm h, strlen_toNat (by omega)]

/-- `tc_substring` where the arguments are in bounds. -/
theorem tcSubstring_eq (hal : ∀ size, al.malloc size = true) (hs : IsString s) {i m : Nat}
    (hi : first.toInt = i) (hm : n.toInt = m) (h : i + m ≤ s.length) :
    tcSubstring al s first n =
      if m = 1 then constsAt ((s[i]?.getD 0).toInt * 2)
      else if 2 ^ 31 ≤ m then .error .undefined
      else .ok ((s.drop i).take m) := by
  have hl := hs.length
  have hone : n = 1 ↔ m = 1 := by
    rw [← Int64.toInt_inj, hm]
    exact Int.natCast_inj (m := m) (n := 1)
  have hsize : (n + 1).toUInt64.toNat = m + 1 := sum_toNat hm (m := 1) rfl (by omega)
  have hsum : ¬ (2 ^ 63 : Int) ≤ first.toInt + n.toInt := by omega
  have hint : (2 ^ 31 : Int) ≤ n.toInt ↔ 2 ^ 31 ≤ m := by omega
  rw [tcSubstring, if_pos ⟨zero_le_iff.mpr (by omega), zero_le_iff.mpr (by omega)⟩, if_neg hsum,
    if_pos ((sum_le_strlen hs hi hm (by omega)).mpr h)]
  simp only [hone, toNatClampNeg_eq hi, toNatClampNeg_eq hm, tcInitString_eq hal, ok_bind, hsize,
    hint]
  split
  · rfl
  · split
    · rfl
    · have hcopy : copy s i 0 m (List.replicate (m + 1) 0) = (s.drop i).take m ++ [0] := by
        rw [copy_eq (by simp) h, List.drop_replicate]
        simp
      have hlen : ((s.drop i).take m).length = m := by
        rw [List.length_take, List.length_drop]
        omega
      have hset : ((s.drop i).take m ++ [0]).set m 0 = (s.drop i).take m ++ [0] := by
        rw [List.set_append_right _ _ (by omega), hlen, Nat.sub_self]
        rfl
      have hnul : (0 : Int8) ∉ (s.drop i).take m := fun hmem =>
        hs.nulFree (List.mem_of_mem_drop (List.mem_of_mem_take hmem))
      rw [hcopy, hset]
      exact congrArg Except.ok (readString_append hnul)

/-- And where they are not. -/
theorem tcSubstring_error (hs : IsString s)
    (h : ¬ (0 ≤ first.toInt ∧ 0 ≤ n.toInt ∧ first.toInt + n.toInt ≤ s.length)) :
    tcSubstring al s first n =
      if 0 ≤ first.toInt ∧ 0 ≤ n.toInt ∧ 2 ^ 63 ≤ first.toInt + n.toInt then .error .undefined
      else .error .argumentsOutOfBounds := by
  rw [tcSubstring]
  simp only [zero_le_iff]
  by_cases hpos : 0 ≤ first.toInt ∧ 0 ≤ n.toInt
  · obtain ⟨i, hi⟩ := Int.eq_ofNat_of_zero_le hpos.1
    obtain ⟨m, hm⟩ := Int.eq_ofNat_of_zero_le hpos.2
    rw [if_pos hpos]
    by_cases hsum : (2 ^ 63 : Int) ≤ first.toInt + n.toInt
    · rw [if_pos hsum, if_pos ⟨hpos.1, hpos.2, hsum⟩]
    · have hnot : ¬ (first + n).toUInt64 ≤ strlen s := by
        rw [sum_le_strlen hs hi hm (by omega)]
        exact fun hle => h ⟨hpos.1, hpos.2, by omega⟩
      rw [if_neg hsum, if_neg hnot, if_neg fun h' => hsum h'.2.2]
  · rw [if_neg hpos, if_neg fun h' => hpos ⟨h'.1, h'.2.1⟩]

/-- `tc_chr` undoes `tc_ord` on the strings of one character that is not negative. -/
theorem tcChr_tcOrd {c : Int8} (h : 0 < c.toInt) : tcChr (tcOrd [c]) = .ok [c] := by
  have hc := c.toInt_lt
  have htoInt : c.toInt64.toInt = c.toInt := Int8.toInt_toInt64 c
  have hbound : 0 ≤ c.toInt64 ∧ c.toInt64 ≤ 255 := by
    rw [Int64.le_iff_toInt_le, Int64.le_iff_toInt_le, htoInt]
    exact ⟨Int.le_of_lt h, Int.le_trans (Int.le_of_lt hc) (by decide)⟩
  rw [tcOrd, tcChr, if_pos hbound, htoInt, constsAt_of_pos h]

end primitives

/-! ## The laws -/

/-- The primitives implement strings of bytes, for two strings and the arguments of an
extraction. -/
structure StringLaws (al : Allocator) (a b : List Int8) (first n : Int64) : Prop where
  concat : tcConcat al a b = .ok (a ++ b)
  size : (tcSize (a ++ b)).toInt = (tcSize a).toInt + (tcSize b).toInt
  substring : tcSubstring al a first n =
    if 0 ≤ first.toInt ∧ 0 ≤ n.toInt ∧ first.toInt + n.toInt ≤ a.length then
      .ok ((a.drop first.toInt.toNat).take n.toInt.toNat)
    else .error .argumentsOutOfBounds
  left : (tcConcat al a b >>= fun c => tcSubstring al c 0 (tcSize a)) = .ok a
  right : (tcConcat al a b >>= fun c => tcSubstring al c (tcSize a) (tcSize b)) = .ok b
  chrOrd : ∀ i : Int64, 0 ≤ i.toInt → i.toInt < a.length →
    ∃ s, tcSubstring al a i 1 = .ok s ∧ tcChr (tcOrd s) = .ok s

/-- The characters that index the table are not negative, the lengths are those of an `int`, and
the sum of the arguments is one of an `int64_t`. -/
structure InRange (a b : List Int8) (first n : Int64) : Prop where
  left : ∀ c ∈ a, 0 < c.toInt
  right : ∀ c, b = [c] → 0 < c.toInt
  leftLength : a.length < 2 ^ 31
  rightLength : b.length < 2 ^ 31
  sum : 0 ≤ first.toInt → 0 ≤ n.toInt → first.toInt + n.toInt < 2 ^ 63

section laws

variable {al : Allocator} {a b s : List Int8} {first n : Int64}

/-- An extraction gives the part of the string, where its character can index the table. -/
theorem tcSubstring_ok (hal : ∀ size, al.malloc size = true) (hs : IsString s) {i m : Nat}
    (hi : first.toInt = i) (hm : n.toInt = m) (h : i + m ≤ s.length) :
    tcSubstring al s first n = .ok ((s.drop i).take m) ↔
      m < 2 ^ 31 ∧ ∀ c, (s.drop i).take m = [c] → 0 < c.toInt := by
  rw [tcSubstring_eq hal hs hi hm h]
  by_cases hm1 : m = 1
  · subst hm1
    have hlt : i < s.length := by omega
    have hpart : (s.drop i).take 1 = [s[i]] := by
      rw [List.drop_eq_getElem_cons hlt]
      rfl
    have hne : s[i].toInt ≠ 0 := by
      intro h0
      have hz : s[i] = 0 := Int8.toInt_inj.mp h0
      exact hs.nulFree (hz ▸ List.getElem_mem hlt)
    rw [if_pos rfl, List.getElem?_eq_getElem hlt, Option.getD_some, hpart]
    constructor
    · intro hok
      refine ⟨by decide, fun c hc => ?_⟩
      cases hc
      by_contra hneg
      rw [constsAt_of_neg (by omega)] at hok
      cases hok
    · rintro ⟨-, hpos⟩
      exact constsAt_of_pos (hpos _ rfl)
  · rw [if_neg hm1]
    by_cases hint : 2 ^ 31 ≤ m
    · rw [if_pos hint]
      exact iff_of_false nofun fun h' => Nat.not_le_of_lt h'.1 hint
    · rw [if_neg hint]
      refine iff_of_true rfl ⟨Nat.lt_of_not_le hint, fun c hc => ?_⟩
      have hlen := congrArg List.length hc
      rw [List.length_take, List.length_drop, List.length_singleton] at hlen
      omega

/-- The two parts that a concatenation is made of. -/
theorem parts_iff (hal : ∀ size, al.malloc size = true) (ha : IsString a) (hb : IsString b)
    (hab : a.length + b.length + 1 < 2 ^ 63) :
    (tcSubstring al (a ++ b) 0 (tcSize a) = .ok a ↔
      a.length < 2 ^ 31 ∧ ∀ c, a = [c] → 0 < c.toInt) ∧
    (tcSubstring al (a ++ b) (tcSize a) (tcSize b) = .ok b ↔
      b.length < 2 ^ 31 ∧ ∀ c, b = [c] → 0 < c.toInt) := by
  have hla := ha.length
  have hlb := hb.length
  have hs : IsString (a ++ b) :=
    ⟨fun h => (List.mem_append.mp h).elim ha.nulFree hb.nulFree, by simpa using hab⟩
  have hsa : (tcSize a).toInt = a.length := tcSize_toInt (by omega)
  have hsb : (tcSize b).toInt = b.length := tcSize_toInt (by omega)
  have hzero : (0 : Int64).toInt = (0 : Nat) := rfl
  have hl := tcSubstring_ok hal hs hzero hsa (by simp)
  have hr := tcSubstring_ok hal hs hsa hsb (by simp)
  rw [List.drop_zero, List.take_left] at hl
  rw [List.drop_left, List.take_length] at hr
  exact ⟨hl, hr⟩

theorem InRange.of_laws (hal : ∀ size, al.malloc size = true) (ha : IsString a)
    (hb : IsString b) (hab : a.length + b.length + 1 < 2 ^ 63)
    (h : StringLaws al a b first n) : InRange a b first n := by
  have hla := ha.length
  obtain ⟨hl, hr⟩ := parts_iff hal ha hb hab
  have hleft := h.left
  have hright := h.right
  rw [h.concat, ok_bind] at hleft hright
  obtain ⟨hlb, hone⟩ := hr.mp hright
  refine ⟨fun c hc => ?_, hone, (hl.mp hleft).1, hlb, fun hf hn => ?_⟩
  · obtain ⟨i, hi, rfl⟩ := List.getElem_of_mem hc
    have hint : (Int64.ofNat i).toInt = i := Int64.toInt_ofNat_of_lt (by omega)
    obtain ⟨s, hs, -⟩ := h.chrOrd (.ofNat i) (by omega) (by omega)
    rw [tcSubstring_eq hal ha hint (m := 1) rfl (by omega), if_pos rfl,
      List.getElem?_eq_getElem hi, Option.getD_some] at hs
    have hne : a[i].toInt ≠ 0 := fun h0 =>
      ha.nulFree ((Int8.toInt_inj.mp h0 : a[i] = 0) ▸ hc)
    by_contra hneg
    rw [constsAt_of_neg (by omega)] at hs
    cases hs
  · by_contra hsum
    have hout : ¬ (0 ≤ first.toInt ∧ 0 ≤ n.toInt ∧ first.toInt + n.toInt ≤ a.length) := by omega
    have hsub := h.substring
    rw [tcSubstring_error ha hout, if_pos ⟨hf, hn, by omega⟩, if_neg hout] at hsub
    cases hsub

theorem InRange.laws (hal : ∀ size, al.malloc size = true) (ha : IsString a)
    (hb : IsString b) (hab : a.length + b.length + 1 < 2 ^ 63)
    (h : InRange a b first n) : StringLaws al a b first n := by
  have hla := ha.length
  have hlb := hb.length
  have hconcat := tcConcat_eq hal ha hb hab
  obtain ⟨hl, hr⟩ := parts_iff hal ha hb hab
  refine ⟨hconcat, ?_, ?_, ?_, ?_, fun i hi hlt => ?_⟩
  · rw [tcSize_toInt (by rw [List.length_append]; omega), tcSize_toInt (by omega),
      tcSize_toInt (by omega), List.length_append]
    exact Int.natCast_add _ _
  · split
    · rename_i hin
      obtain ⟨i, hi⟩ := Int.eq_ofNat_of_zero_le hin.1
      obtain ⟨m, hm⟩ := Int.eq_ofNat_of_zero_le hin.2.1
      have hlen := h.leftLength
      rw [hi, hm, Int.toNat_natCast, Int.toNat_natCast,
        tcSubstring_ok hal ha hi hm (by omega)]
      refine ⟨by omega, fun c hc => h.left c ?_⟩
      have hmem : c ∈ (a.drop i).take m := hc ▸ List.mem_singleton_self c
      exact List.mem_of_mem_drop (List.mem_of_mem_take hmem)
    · rename_i hout
      rw [tcSubstring_error ha hout, if_neg]
      rintro ⟨hf, hn, hsum⟩
      have := h.sum hf hn
      omega
  · rw [hconcat, ok_bind, hl]
    exact ⟨h.leftLength, fun c hc => h.left c (hc ▸ List.mem_singleton_self c)⟩
  · rw [hconcat, ok_bind, hr]
    exact ⟨h.rightLength, h.right⟩
  · obtain ⟨j, hj⟩ := Int.eq_ofNat_of_zero_le hi
    have hjlt : j < a.length := by omega
    have hpos : 0 < a[j].toInt := h.left _ (List.getElem_mem hjlt)
    refine ⟨[a[j]], ?_, tcChr_tcOrd hpos⟩
    rw [tcSubstring_eq hal ha hj (m := 1) rfl (by omega), if_pos rfl,
      List.getElem?_eq_getElem hjlt, Option.getD_some, constsAt_of_pos hpos]

/-- The primitives implement strings of bytes exactly where each index of the table, each length
and the sum of the arguments is in the range of its type. -/
theorem stringLaws_iff (hal : ∀ size, al.malloc size = true) (ha : IsString a) (hb : IsString b)
    (hab : a.length + b.length + 1 < 2 ^ 63) (first n : Int64) :
    StringLaws al a b first n ↔ InRange a b first n :=
  ⟨InRange.of_laws hal ha hb hab, InRange.laws hal ha hb hab⟩

end laws

/-- Memory is never exhausted. -/
def plenty : Allocator := ⟨fun _ => true, fun _ _ => true⟩

/-- `a` and `bc`. -/
theorem stringLaws_abc : StringLaws plenty [97] [98, 99] 0 1 := by
  have hrange : InRange [97] [98, 99] 0 1 := by
    refine ⟨fun c hc => ?_, fun c hc => ?_, by decide, by decide, fun _ _ => by decide⟩
    · cases List.mem_singleton.mp hc
      decide
    · cases hc
  exact (stringLaws_iff (fun _ => rfl) ⟨by decide, by decide⟩ ⟨by decide, by decide⟩ (by decide)
    0 1).mpr hrange

/-- The string of the one byte 233, which is -23 as a `char`, cannot be taken from itself. -/
theorem not_stringLaws : ¬ ∀ (al : Allocator) (a b : List Int8) (first n : Int64),
    (∀ size, al.malloc size = true) → IsString a → IsString b →
    a.length + b.length + 1 < 2 ^ 63 → StringLaws al a b first n := by
  intro h
  have hlaws := h plenty [-23] [] 0 0 (fun _ => rfl) ⟨by decide, by decide⟩
    ⟨by decide, by decide⟩ (by decide)
  obtain ⟨s, hs, -⟩ := hlaws.chrOrd 0 (by decide) (by decide)
  have hundefined : tcSubstring plenty [-23] 0 1 = .error .undefined := by decide
  rw [hundefined] at hs
  cases hs

end Runtime

end TigerCompiler
