import TigerCompiler.Ast.Syntax

/-!
# Escaping

`misc::escape` (`lib/misc/escape.cc`): how strings are written for the user, for the printer and
for the assembler.
-/

namespace TigerCompiler

/-- The table `escapes`. -/
def escapes : List (Char × Str) :=
  [('\x07', ['\\', '0', '0', '7']), ('\x08', ['\\', 'b']), ('\x0c', ['\\', 'f']),
    ('\n', ['\\', 'n']), ('\r', ['\\', 'r']), ('\t', ['\\', 't']), ('\x0b', ['\\', 'v']),
    ('\\', ['\\', '\\']), ('"', ['\\', '"'])]

/-- `std::isprint` in the C locale. -/
def isPrint (c : Char) : Bool := 32 ≤ c.toNat && c.toNat ≤ 126

/-- A digit in base 8. -/
def octalDigit (n : Nat) : Char := Char.ofNat (48 + n % 8)

/-- A byte in base 8, on three characters filled with zeros. -/
def octal3 (n : Nat) : Str := [octalDigit (n / 64), octalDigit (n / 8), octalDigit n]

/-- What `escape_` puts for a byte. -/
def escapeChar (c : Char) : Str :=
  match escapes.lookup c with
  | some w => w
  | none => if isPrint c then [c] else '\\' :: octal3 c.toNat

/-- `misc::escape`. -/
def escape (s : Str) : Str := s.flatMap escapeChar

@[simp] theorem escape_nil : escape [] = [] := rfl

@[simp] theorem escape_cons (c : Char) (s : Str) : escape (c :: s) = escapeChar c ++ escape s :=
  List.flatMap_cons

theorem escape_append (s t : Str) : escape (s ++ t) = escape s ++ escape t :=
  List.flatMap_append

/-- What is not printed as it is starts with a backslash. -/
theorem escapeChar_eq (c : Char) :
    (escapeChar c = [c] ∧ c ≠ '\\' ∧ c ≠ '"' ∧ c ≠ '\n') ∨ ∃ w, escapeChar c = '\\' :: w := by
  unfold escapeChar
  cases h : escapes.lookup c with
  | some w =>
    right
    rw [List.lookup_eq_some_iff] at h
    obtain ⟨l₁, l₂, heq, -⟩ := h
    have hmem : (c, w) ∈ escapes := by rw [heq]; simp
    have hall : ∀ p ∈ escapes, ∃ v, p.2 = '\\' :: v := by
      simp [escapes]
    exact hall _ hmem
  | none =>
    rw [List.lookup_eq_none_iff] at h
    by_cases hp : isPrint c = true
    · left
      simp only [hp, if_true, true_and]
      simp [escapes] at h
      refine ⟨?_, ?_, ?_⟩ <;> rintro rfl <;> simp_all
    · right
      simp [hp]

end TigerCompiler
