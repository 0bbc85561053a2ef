import TigerCompiler.Ast.Syntax
import Mathlib.Algebra.Ring.Int.Defs
import Mathlib.Algebra.Ring.Nat
import Mathlib.Data.Char
import Mathlib.Data.List.Lex

/-!
# The comparisons of the runtime

`tc_strcmp` and `tc_streq` of `tiger-runtime.c`, over the `strcmp` of the C library, of which only
the sign of what it returns is known.
-/

namespace TigerCompiler

namespace Runtime

/-- What C takes a string for: it ends at the first null character. -/
def cString (s : Str) : Str := s.takeWhile (· ≠ '\x00')

/-- What the C library promises of `strcmp`. -/
structure IsStrcmp (strcmp : Str → Str → BitVec 32) : Prop where
  zero_iff : ∀ l r, strcmp l r = 0 ↔ cString l = cString r
  neg_iff : ∀ l r, (strcmp l r).slt 0 = true ↔ cString l < cString r

/-- `tc_strcmp`. -/
def tcStrcmp (strcmp : Str → Str → BitVec 32) (lhs rhs : Str) : BitVec 64 :=
  (strcmp lhs rhs).signExtend 64

/-- `tc_streq`. -/
def tcStreq (strcmp : Str → Str → BitVec 32) (lhs rhs : Str) : BitVec 64 :=
  if strcmp lhs rhs = 0 then 1 else 0

/-- A `strcmp` that walks over both strings. -/
def strcmp : Str → Str → BitVec 32
  | [], [] => 0
  | [], d :: _ => if d = '\x00' then 0 else -1
  | c :: _, [] => if c = '\x00' then 0 else 1
  | c :: l, d :: r =>
    if c = d then if c = '\x00' then 0 else strcmp l r
    else if c < d then -1 else 1

variable {f : Str → Str → BitVec 32} {l r : Str}

theorem toInt_tcStrcmp : (tcStrcmp f l r).toInt = (f l r).toInt :=
  BitVec.toInt_signExtend_of_le (by decide)

theorem tcStrcmp_eq_zero (hf : IsStrcmp f) : tcStrcmp f l r = 0 ↔ cString l = cString r := by
  rw [← hf.zero_iff, ← BitVec.toInt_inj, ← BitVec.toInt_inj, toInt_tcStrcmp]
  rfl

theorem tcStrcmp_neg (hf : IsStrcmp f) :
    (tcStrcmp f l r).slt 0 = true ↔ cString l < cString r := by
  rw [← hf.neg_iff, BitVec.slt_iff_toInt_lt, BitVec.slt_iff_toInt_lt, toInt_tcStrcmp]
  rfl

/-- What is neither zero nor negative is positive. -/
theorem tcStrcmp_pos (hf : IsStrcmp f) :
    (0 : BitVec 64).slt (tcStrcmp f l r) = true ↔ cString r < cString l := by
  have hzero : (0 : BitVec 64).toInt = 0 := rfl
  have heq : (tcStrcmp f l r).toInt = 0 ↔ cString l = cString r := by
    rw [← tcStrcmp_eq_zero hf, ← BitVec.toInt_inj, hzero]
  have hlt := tcStrcmp_neg hf (l := l) (r := r)
  rw [BitVec.slt_iff_toInt_lt, hzero] at hlt
  rw [BitVec.slt_iff_toInt_lt, hzero]
  rcases lt_trichotomy (cString l) (cString r) with h | h | h
  · have := hlt.mpr h
    exact iff_of_false (by omega) h.asymm
  · have := heq.mpr h
    exact iff_of_false (by omega) (h ▸ lt_irrefl _)
  · refine iff_of_true ?_ h
    have hne : (tcStrcmp f l r).toInt ≠ 0 := fun h' => h.ne' (heq.mp h')
    have hnot : ¬ (tcStrcmp f l r).toInt < 0 := fun h' => h.asymm (hlt.mp h')
    omega

theorem tcStreq_eq (hf : IsStrcmp f) :
    tcStreq f l r = if cString l = cString r then 1 else 0 :=
  if_congr (hf.zero_iff l r) rfl rfl

/-! ## The walk over both strings -/

theorem cString_cons (c : Char) (s : Str) :
    cString (c :: s) = if c = '\x00' then [] else c :: cString s := by
  by_cases hc : c = '\x00' <;> simp [cString, hc]

theorem nul_lt {c : Char} (h : c ≠ '\x00') : '\x00' < c :=
  Nat.pos_of_ne_zero fun h' => h (Char.toNat_inj.mp h')

theorem strcmp_cons (c d : Char) (l r : Str) :
    strcmp (c :: l) (d :: r) =
      if c = d then if c = '\x00' then 0 else strcmp l r else if c < d then -1 else 1 := rfl

/-- The strings differ where the walk stops. -/
theorem strcmp_sign (l r : Str) : (strcmp l r = 0 ↔ cString l = cString r) ∧
    ((strcmp l r).slt 0 = true ↔ cString l < cString r) := by
  induction l generalizing r with
  | nil =>
    cases r with
    | nil => decide
    | cons d r =>
      rw [strcmp, cString_cons]
      by_cases hd : d = '\x00'
      · rw [if_pos hd, if_pos hd]
        decide
      · rw [if_neg hd, if_neg hd]
        exact ⟨by simp [cString], iff_of_true (by decide) (List.nil_lt_cons ..)⟩
  | cons c l ih =>
    cases r with
    | nil =>
      rw [strcmp, cString_cons]
      by_cases hc : c = '\x00'
      · rw [if_pos hc, if_pos hc]
        decide
      · rw [if_neg hc, if_neg hc]
        exact ⟨by simp [cString], iff_of_false (by decide) (List.not_lt_nil _)⟩
    | cons d r =>
      rw [strcmp_cons, cString_cons, cString_cons]
      by_cases hcd : c = d
      · subst hcd
        rw [if_pos rfl]
        by_cases hc : c = '\x00'
        · simp only [if_pos hc]
          decide
        · simp only [if_neg hc, List.cons.injEq, true_and, List.cons_lt_cons_self]
          exact ih r
      · -- One of the two characters may be the null one.
        have hdiff : (if c = '\x00' then [] else c :: cString l) ≠
              (if d = '\x00' then [] else d :: cString r) ∧
            (c < d ↔ (if c = '\x00' then [] else c :: cString l) <
              (if d = '\x00' then [] else d :: cString r)) := by
          by_cases hc : c = '\x00'
          · have hd : d ≠ '\x00' := fun hd => hcd (hc.trans hd.symm)
            rw [if_pos hc, if_neg hd, hc]
            exact ⟨by simp, iff_of_true (nul_lt hd) (List.nil_lt_cons ..)⟩
          · by_cases hd : d = '\x00'
            · rw [if_neg hc, if_pos hd, hd]
              exact ⟨by simp, iff_of_false (Char.lt_asymm (nul_lt hc)) (List.not_lt_nil _)⟩
            · rw [if_neg hc, if_neg hd, List.cons_lt_cons_iff]
              simp [hcd]
        rw [if_neg hcd, ← hdiff.2]
        by_cases hlt : c < d
        · rw [if_pos hlt]
          exact ⟨iff_of_false (by decide) hdiff.1, iff_of_true (by decide) hlt⟩
        · rw [if_neg hlt]
          exact ⟨iff_of_false (by decide) hdiff.1, iff_of_false (by decide) hlt⟩

theorem isStrcmp_strcmp : IsStrcmp strcmp where
  zero_iff l r := (strcmp_sign l r).1
  neg_iff l r := (strcmp_sign l r).2

end Runtime

end TigerCompiler
