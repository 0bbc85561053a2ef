import TigerCompiler.Parse.Scanner
import TigerCompiler.Misc.Escape
import Mathlib.Tactic.IntervalCases

/-!
# Escaping and scanning strings

The rules of `SC_STRING` read a text in one way only, which `Reads` describes byte by byte: what
follows a backslash decides how much of the text the backslash takes with it.  The scanner has a
rule for one backslash where `misc::escape` writes two, so the two are inverse exactly on the
strings without a backslash.
-/

namespace TigerCompiler

namespace Lexer

/-- The letters that stand for one byte after a backslash. -/
def simpleEscapes : List (Char × Char) :=
  [('n', '\n'), ('a', '\x07'), ('b', '\x08'), ('f', '\x0c'), ('r', '\r'), ('t', '\t'),
    ('v', '\x0b'), ('"', '"')]

/-- The value of a hexadecimal escape, and what follows it. -/
def readHex : Str → Option (Nat × Str)
  | 'x' :: a :: b :: s => if isHex a && isHex b then some (valueOf 16 [a, b], s) else none
  | _ => none

/-- The value of an octal escape, and what follows it. -/
def readOctal : Str → Option (Nat × Str)
  | a :: b :: c :: s =>
    if isOctal a && isOctal b && isOctal c then some (valueOf 8 [a, b, c], s) else none
  | _ => none

/-- The escape that a backslash begins with what follows it: the byte it stands for, if it begins
one, and what is left. -/
def readEscape : Str → Option (Nat × Str)
  | [] => none
  | p :: s =>
    match simpleEscapes.lookup p with
    | some c => some (c.toNat, s)
    | none => (readHex (p :: s)).or (readOctal (p :: s))

/-- Inside a string the text `s` is read up to a quote as `t`, and `r` is what follows it. -/
inductive Reads : Str → Str → Str → Prop
  | quote (r : Str) : Reads ('"' :: r) [] r
  | byte {c : Char} {s t r : Str} : c ≠ '"' → c ≠ '\\' → c ≠ '\n' → Reads s t r →
      Reads (c :: s) (c :: t) r
  | newline {s t r : Str} : Reads s t r → Reads ('\n' :: s) t r
  | escape {n : Nat} {s s' t r : Str} : readEscape s = some (n, s') → n ≤ 255 → Reads s' t r →
      Reads ('\\' :: s) (Char.ofNat n :: t) r
  | backslash {s t r : Str} : readEscape s = none → Reads s t r → Reads ('\\' :: s) ('\\' :: t) r

/-! ## One match of the rules -/

/-- The scanner inside a string. -/
def inString (g : Str) (d : Int) (s : Str) : Lexer :=
  { start := .scString, grownString := g, depth := d, input := s }

section steps

variable {g s : Str} {d : Int}

theorem scan_inString {c : Char} {n : Nat} {a : StringAction}
    (h : Rule.longest stringRules (c :: s) = some (n, a)) :
    (inString g d (c :: s)).scan =
      (inString g d (c :: s)).stringAction ((c :: s).take n) ((c :: s).drop n) a := by
  simp only [scan, inString, h]

theorem scan_quote :
    (inString g d ('"' :: s)).scan =
      .token (.string g) { start := .initial, grownString := g, depth := d, input := s } := by
  have hm : Rule.longest stringRules ('"' :: s) = some (1, .close) := by
    simp [Rule.longest, stringRules, Rule.run, lit, hexLen, octalLen, anyLen, Rule.better]
  rw [scan_inString hm]
  rfl

theorem scan_byte {c : Char} (hq : c ≠ '"') (hb : c ≠ '\\') (hn : c ≠ '\n') :
    (inString g d (c :: s)).scan = .more (inString (g ++ [c]) d s) := by
  have hm : Rule.longest stringRules (c :: s) = some (1, .text) := by
    have hq' := Ne.symm hq
    have hb' := Ne.symm hb
    simp [Rule.longest, stringRules, Rule.run, lit, hexLen, octalLen, anyLen, Rule.better, *]
  rw [scan_inString hm]
  rfl

theorem scan_newline : (inString g d ('\n' :: s)).scan = .more (inString g d s) := by
  have hm : Rule.longest stringRules ('\n' :: s) = none := by
    simp [Rule.longest, stringRules, Rule.run, lit, hexLen, octalLen, anyLen]
  simp only [scan, inString, hm]

theorem hexLen_eq {n : Nat} (h : hexLen s = some n) : n = 4 := by
  unfold hexLen at h
  split at h
  · split at h
    · exact (Option.some.inj h).symm
    · cases h
  · cases h

theorem octalLen_eq {n : Nat} (h : octalLen s = some n) : n = 4 := by
  unfold octalLen at h
  split at h
  · split at h
    · exact (Option.some.inj h).symm
    · cases h
  · cases h

theorem octalLen_eq_none {p : Char} (h : isOctal p = false) :
    octalLen ('\\' :: p :: s) = none := by
  unfold octalLen
  split
  · rename_i a b c t heq
    injection heq with _ heq
    injection heq with hpa _
    simp [← hpa, h]
  · rfl

/-- After a backslash only the rules that begin with one, and `.`, are left. -/
theorem longest_backslash (p : Char) :
    Rule.longest stringRules ('\\' :: p :: s) =
      match simpleEscapes.lookup p with
      | some c => some (2, .char c)
      | none =>
        match hexLen ('\\' :: p :: s), octalLen ('\\' :: p :: s) with
        | some n, _ => some (n, .hex)
        | none, some n => some (n, .octal)
        | none, none => some (1, .char '\\') := by
  cases h : simpleEscapes.lookup p with
  | some c =>
    obtain ⟨l₁, l₂, heq, -⟩ := List.lookup_eq_some_iff.mp h
    have hmem : (p, c) ∈ simpleEscapes := by rw [heq]; simp
    simp only [simpleEscapes, List.mem_cons, Prod.mk.injEq, List.not_mem_nil, or_false] at hmem
    have ho : octalLen ('\\' :: p :: s) = none := by
      apply octalLen_eq_none
      rcases hmem with ⟨rfl, -⟩ | ⟨rfl, -⟩ | ⟨rfl, -⟩ | ⟨rfl, -⟩ | ⟨rfl, -⟩ | ⟨rfl, -⟩ | ⟨rfl, -⟩ |
        ⟨rfl, -⟩ <;> rfl
    rcases hmem with ⟨rfl, rfl⟩ | ⟨rfl, rfl⟩ | ⟨rfl, rfl⟩ | ⟨rfl, rfl⟩ | ⟨rfl, rfl⟩ | ⟨rfl, rfl⟩ |
      ⟨rfl, rfl⟩ | ⟨rfl, rfl⟩ <;>
    simp [Rule.longest, stringRules, Rule.run, lit, hexLen, ho, anyLen, Rule.better]
  | none =>
    simp [simpleEscapes, List.lookup_eq_none_iff] at h
    simp only [@eq_comm Char p] at h
    cases hx : hexLen ('\\' :: p :: s) with
    | some n =>
      have hn := hexLen_eq hx
      cases ho : octalLen ('\\' :: p :: s) with
      | some m =>
        have hm := octalLen_eq ho
        simp [Rule.longest, stringRules, Rule.run, lit, anyLen, Rule.better, *]
      | none => simp [Rule.longest, stringRules, Rule.run, lit, anyLen, Rule.better, *]
    | none =>
      cases ho : octalLen ('\\' :: p :: s) with
      | some m =>
        have hm := octalLen_eq ho
        simp [Rule.longest, stringRules, Rule.run, lit, anyLen, Rule.better, *]
      | none => simp [Rule.longest, stringRules, Rule.run, lit, anyLen, Rule.better, *]

theorem digitValue_le {c : Char} (h : isHex c = true) : digitValue c ≤ 15 := by
  unfold digitValue
  simp only [isHex, isDigit, Bool.or_eq_true, Bool.and_eq_true, decide_eq_true_eq, Char.le_def,
    UInt32.le_iff_toNat_le] at h ⊢
  have h0 : ('0' : Char).val.toNat = 48 := rfl
  have h9 : ('9' : Char).val.toNat = 57 := rfl
  have ha : ('a' : Char).val.toNat = 97 := rfl
  have hf : ('f' : Char).val.toNat = 102 := rfl
  have hA : ('A' : Char).val.toNat = 65 := rfl
  have hF : ('F' : Char).val.toNat = 70 := rfl
  simp only [Char.toNat]
  split
  · omega
  · split <;> omega

/-- `readHex` reads what the rule matches. -/
theorem readHex_cases (s : Str) :
    (hexLen ('\\' :: s) = none ∧ readHex s = none) ∨
      ∃ a b s', s = 'x' :: a :: b :: s' ∧ isHex a = true ∧ isHex b = true ∧
        hexLen ('\\' :: s) = some 4 ∧ readHex s = some (valueOf 16 [a, b], s') := by
  rcases s with _ | ⟨p, _ | ⟨a, _ | ⟨b, s⟩⟩⟩
  · exact .inl ⟨rfl, rfl⟩
  · exact .inl ⟨by simp [hexLen], by simp [readHex]⟩
  · exact .inl ⟨by simp [hexLen], by simp [readHex]⟩
  · by_cases hp : p = 'x'
    · subst hp
      by_cases hab : isHex a = true ∧ isHex b = true
      · exact .inr ⟨a, b, s, rfl, hab.1, hab.2, by simp [hexLen, hab], by simp [readHex, hab]⟩
      · exact .inl ⟨by simp [hexLen, hab], by simp [readHex, hab]⟩
    · exact .inl ⟨by simp [hexLen, hp], by simp [readHex, hp]⟩

/-- `readOctal` reads what the rule matches. -/
theorem readOctal_cases (s : Str) :
    (octalLen ('\\' :: s) = none ∧ readOctal s = none) ∨
      ∃ a b c s', s = a :: b :: c :: s' ∧ isOctal a = true ∧ isOctal b = true ∧
        isOctal c = true ∧ octalLen ('\\' :: s) = some 4 ∧
        readOctal s = some (valueOf 8 [a, b, c], s') := by
  rcases s with _ | ⟨a, _ | ⟨b, _ | ⟨c, s⟩⟩⟩
  · exact .inl ⟨rfl, rfl⟩
  · exact .inl ⟨rfl, rfl⟩
  · exact .inl ⟨rfl, rfl⟩
  · by_cases habc : isOctal a = true ∧ isOctal b = true ∧ isOctal c = true
    · refine .inr ⟨a, b, c, s, rfl, habc.1, habc.2.1, habc.2.2, ?_, ?_⟩ <;>
        simp [octalLen, readOctal, habc]
    · refine .inl ⟨?_, ?_⟩ <;> simp [octalLen, readOctal] <;> grind

/-- Where an escape begins, the scanner takes it whole; elsewhere it takes the backslash. -/
theorem scan_backslash :
    (inString g d ('\\' :: s)).scan =
      match readEscape s with
      | some (n, s') =>
        if n > 255 then .stop (scanError "\n") else .more (inString (g ++ [Char.ofNat n]) d s')
      | none => .more (inString (g ++ ['\\']) d s) := by
  cases s with
  | nil =>
    have hm : Rule.longest stringRules ['\\'] = some (1, .char '\\') := by
      simp [Rule.longest, stringRules, Rule.run, lit, hexLen, octalLen, anyLen, Rule.better]
    rw [scan_inString hm]
    rfl
  | cons p s =>
    have hm := longest_backslash (s := s) p
    cases hp : simpleEscapes.lookup p with
    | some c =>
      rw [hp] at hm
      have hc : readEscape (p :: s) = some (c.toNat, s) := by simp only [readEscape, hp]
      have hle : ¬ c.toNat > 255 := by
        obtain ⟨l₁, l₂, heq, -⟩ := List.lookup_eq_some_iff.mp hp
        have hall : ∀ q ∈ simpleEscapes, ¬ q.2.toNat > 255 := by decide
        exact hall (p, c) (by rw [heq]; simp)
      rw [scan_inString hm, hc]
      simp only [if_neg hle, Char.ofNat_toNat]
      rfl
    | none =>
      rw [hp] at hm
      have hread : readEscape (p :: s) = (readHex (p :: s)).or (readOctal (p :: s)) := by
        simp only [readEscape, hp]
      rw [hread]
      rcases readHex_cases (p :: s) with ⟨hx, hrx⟩ | ⟨a, b, s', heq, ha, hb, hx, hrx⟩
      · rcases readOctal_cases (p :: s) with
          ⟨ho, hro⟩ | ⟨a, b, c, s', heq, ha, hb, hc, ho, hro⟩
        · simp only [hx, ho] at hm
          rw [scan_inString hm, hrx, hro]
          rfl
        · simp only [hx, ho] at hm
          rw [scan_inString hm, hrx, hro, heq]
          rfl
      · have hle : ¬ valueOf 16 [a, b] > 255 := by
          have ha' := digitValue_le ha
          have hb' := digitValue_le hb
          simp only [valueOf, List.foldl_cons, List.foldl_nil]
          omega
        simp only [hx] at hm
        rw [scan_inString hm, hrx, heq]
        simp only [Option.some_or, if_neg hle]
        rfl

theorem readEscape_length {n : Nat} {s' : Str} (h : readEscape s = some (n, s')) :
    s'.length < s.length := by
  cases s with
  | nil => cases h
  | cons p s =>
    rw [readEscape] at h
    cases hp : simpleEscapes.lookup p with
    | some c =>
      rw [hp] at h
      cases h
      simp
    | none =>
      rw [hp] at h
      rcases readHex_cases (p :: s) with ⟨-, hrx⟩ | ⟨a, b, s₁, heq, -, -, -, hrx⟩
      · rcases readOctal_cases (p :: s) with ⟨-, hro⟩ | ⟨a, b, c, s₁, heq, -, -, -, -, hro⟩
        · simp [hrx, hro] at h
        · simp only [hrx, hro, Option.none_or, Option.some.injEq, Prod.mk.injEq] at h
          rw [heq, ← h.2]
          simp only [List.length_cons]
          omega
      · simp only [hrx, Option.some_or, Option.some.injEq, Prod.mk.injEq] at h
        rw [heq, ← h.2]
        simp only [List.length_cons]
        omega

end steps

/-! ## What a string is read as -/

/-- The loop of `lex` inside a string reads it to its quote. -/
theorem lexLoop_inString {n : Nat} {g s : Str} {d : Int} (hn : s.length < n) {t : Token}
    {l : Lexer} :
    lexLoop n (inString g d s) = .ok (t, l) ↔ ∃ v r, Reads s v r ∧ t = .string (g ++ v) ∧
      l = { start := .initial, grownString := g ++ v, depth := d, input := r } := by
  induction n generalizing g s with
  | zero => omega
  | succ n ih =>
    rw [lexLoop]
    cases s with
    | nil =>
      have hscan : (inString g d []).scan = .stop (scanError " unclosed string\n") := rfl
      simp only [hscan, reduceCtorEq, false_iff, not_exists, not_and]
      intro v r h
      cases h
    | cons c s =>
      have hn' : s.length < n := by simpa using hn
      by_cases hq : c = '"'
      · subst hq
        simp only [scan_quote, Except.ok.injEq, Prod.mk.injEq]
        constructor
        · rintro ⟨rfl, rfl⟩
          exact ⟨[], s, .quote s, by simp, by simp⟩
        · rintro ⟨v, r, h, rfl, rfl⟩
          cases h with
          | quote => simp
          | byte h => exact absurd rfl h
      · by_cases hl : c = '\n'
        · subst hl
          simp only [scan_newline]
          rw [ih hn']
          constructor
          · rintro ⟨v, r, h, ht⟩
            exact ⟨v, r, .newline h, ht⟩
          · rintro ⟨v, r, h, ht⟩
            cases h with
            | byte _ _ h => exact absurd rfl h
            | newline h => exact ⟨v, r, h, ht⟩
        · by_cases hb : c = '\\'
          · subst hb
            rw [scan_backslash]
            cases hr : readEscape s with
            | none =>
              simp only
              rw [ih hn']
              constructor
              · rintro ⟨v, r, h, rfl, rfl⟩
                exact ⟨_, r, .backslash hr h, by simp, by simp⟩
              · rintro ⟨v, r, h, rfl, rfl⟩
                cases h with
                | byte _ h => exact absurd rfl h
                | escape h' => rw [hr] at h'; cases h'
                | backslash _ h => exact ⟨_, r, h, by simp, by simp⟩
            | some p =>
              obtain ⟨m, s'⟩ := p
              have hlen := readEscape_length hr
              by_cases hm : m > 255
              · simp only [if_pos hm, reduceCtorEq, false_iff, not_exists, not_and]
                intro v r h
                cases h with
                | byte _ h => exact absurd rfl h
                | escape h' hle =>
                  rw [hr] at h'
                  cases h'
                  omega
                | backslash h' => rw [hr] at h'; cases h'
              · simp only [if_neg hm]
                rw [ih (by omega)]
                constructor
                · rintro ⟨v, r, h, rfl, rfl⟩
                  exact ⟨_, r, .escape hr (by omega) h, by simp, by simp⟩
                · rintro ⟨v, r, h, rfl, rfl⟩
                  cases h with
                  | byte _ h => exact absurd rfl h
                  | escape h' _ h =>
                    rw [hr] at h'
                    cases h'
                    exact ⟨_, r, h, by simp, by simp⟩
                  | backslash h' => rw [hr] at h'; cases h'
          · rw [scan_byte hq hb hl]
            simp only
            rw [ih hn']
            constructor
            · rintro ⟨v, r, h, rfl, rfl⟩
              exact ⟨_, r, .byte hq hb hl h, by simp, by simp⟩
            · rintro ⟨v, r, h, rfl, rfl⟩
              cases h with
              | quote => exact absurd rfl hq
              | byte _ _ _ h => exact ⟨_, r, h, by simp, by simp⟩
              | newline => exact absurd rfl hl
              | escape => exact absurd rfl hb
              | backslash => exact absurd rfl hb

/-! ## Reading what `escape` writes -/

section escaping

variable {s s' t t' r X : Str} {c : Char}

theorem octalDigit_spec (n : Nat) :
    isOctal (octalDigit n) = true ∧ digitValue (octalDigit n) = n % 8 ∧
      simpleEscapes.lookup (octalDigit n) = none ∧ octalDigit n ≠ 'x' := by
  have h : n % 8 < 8 := Nat.mod_lt n (by decide)
  unfold octalDigit
  generalize n % 8 = m at h
  interval_cases m <;> decide

/-- An octal escape stands for its byte. -/
theorem readEscape_octal3 {n : Nat} (hn : n < 256) (X : Str) :
    readEscape (octal3 n ++ X) = some (n, X) := by
  obtain ⟨h₁, hv₁, hl, hx⟩ := octalDigit_spec (n / 64)
  obtain ⟨h₂, hv₂, -, -⟩ := octalDigit_spec (n / 8)
  obtain ⟨h₃, hv₃, -, -⟩ := octalDigit_spec n
  have hvalue : valueOf 8 (octal3 n) = n := by
    simp only [valueOf, octal3, List.foldl_cons, List.foldl_nil, hv₁, hv₂, hv₃]
    omega
  have hhex : readHex (octal3 n ++ X) = none := by
    simp [readHex, octal3, hx]
  have hoctal : readOctal (octal3 n ++ X) = some (valueOf 8 (octal3 n), X) := by
    simp [readOctal, octal3, h₁, h₂, h₃]
  have hread : readEscape (octal3 n ++ X) =
      (readHex (octal3 n ++ X)).or (readOctal (octal3 n ++ X)) := by
    simp only [octal3, List.cons_append, readEscape, hl]
  rw [hread, hhex, hoctal, hvalue]
  rfl

/-- The escapes that `escape` writes stand for their bytes, but for the backslash. -/
theorem readEscape_escapeChar {w : Str} (hc : c.toNat < 256) (hb : c ≠ '\\')
    (hw : escapeChar c = '\\' :: w) (X : Str) : readEscape (w ++ X) = some (c.toNat, X) := by
  unfold escapeChar at hw
  cases h : escapes.lookup c with
  | some v =>
    obtain ⟨l₁, l₂, heq, -⟩ := List.lookup_eq_some_iff.mp h
    have hmem : (c, v) ∈ escapes := by rw [heq]; simp
    rw [h] at hw
    subst hw
    simp only [escapes, List.mem_cons, Prod.mk.injEq, List.cons.injEq, true_and, List.not_mem_nil,
      or_false] at hmem
    rcases hmem with ⟨rfl, rfl⟩ | ⟨rfl, rfl⟩ | ⟨rfl, rfl⟩ | ⟨rfl, rfl⟩ | ⟨rfl, rfl⟩ | ⟨rfl, rfl⟩ |
      ⟨rfl, rfl⟩ | ⟨rfl, rfl⟩ | ⟨rfl, rfl⟩
    · exact readEscape_octal3 (n := 7) (by decide) X
    · rfl
    · rfl
    · rfl
    · rfl
    · rfl
    · rfl
    · exact absurd rfl hb
    · rfl
  | none =>
    rw [h] at hw
    by_cases hp : isPrint c = true
    · simp only [hp, if_true, List.cons.injEq] at hw
      exact absurd hw.1 hb
    · simp only [hp] at hw
      injection hw with _ hw
      rw [← hw]
      exact readEscape_octal3 hc X

/-- What `escape` writes for a byte other than the backslash is read as that byte. -/
theorem reads_escapeChar (hc : c.toNat < 256) (hb : c ≠ '\\') :
    Reads (escapeChar c ++ X) t r ↔ ∃ t', t = c :: t' ∧ Reads X t' r := by
  rcases escapeChar_eq c with ⟨hw, -, hq, hl⟩ | ⟨w, hw⟩
  · rw [hw]
    constructor
    · intro h
      cases h with
      | quote => exact absurd rfl hq
      | byte _ _ _ h => exact ⟨_, rfl, h⟩
      | newline => exact absurd rfl hl
      | escape => exact absurd rfl hb
      | backslash => exact absurd rfl hb
    · rintro ⟨t', rfl, h⟩
      exact .byte hq hb hl h
  · have hread := readEscape_escapeChar hc hb hw X
    rw [hw, List.cons_append]
    constructor
    · intro h
      cases h with
      | byte _ h => exact absurd rfl h
      | escape h' _ h =>
        rw [hread] at h'
        cases h'
        exact ⟨_, by rw [Char.ofNat_toNat], h⟩
      | backslash h' => rw [hread] at h'; cases h'
    · rintro ⟨t', rfl, h⟩
      have hr := Reads.escape hread (by omega) h
      rwa [Char.ofNat_toNat] at hr

/-- The bytes before the first backslash are read as they were. -/
theorem reads_escape (hs : ∀ c ∈ s, c.toNat < 256) (hb : '\\' ∉ s) :
    Reads (escape s ++ X) t r ↔ ∃ t', t = s ++ t' ∧ Reads X t' r := by
  induction s generalizing t with
  | nil => simp
  | cons c s ih =>
    rw [List.forall_mem_cons] at hs
    rw [List.mem_cons, not_or] at hb
    rw [escape_cons, List.append_assoc, reads_escapeChar hs.1 (Ne.symm hb.1)]
    constructor
    · rintro ⟨u, rfl, hu⟩
      obtain ⟨t', rfl, ht⟩ := (ih hs.2 hb.2).mp hu
      exact ⟨t', rfl, ht⟩
    · rintro ⟨t', rfl, ht⟩
      exact ⟨s ++ t', rfl, (ih hs.2 hb.2).mpr ⟨t', rfl, ht⟩⟩

/-! ## The two are inverse without a backslash only -/

/-- The text of a string up to its closing quote. -/
def quoted (s : Str) : Str := escape s ++ ['"']

theorem quoted_append (s t : Str) : quoted (s ++ t) = escape s ++ quoted t := by
  rw [quoted, quoted, escape_append, List.append_assoc]

theorem quoted_cons (c : Char) (s : Str) : quoted (c :: s) = escapeChar c ++ quoted s := by
  rw [quoted, quoted, escape_cons, List.append_assoc]

theorem quoted_backslash (s : Str) : quoted ('\\' :: s) = '\\' :: '\\' :: quoted s :=
  quoted_cons _ _

/-- A byte that is not part of an escape stands for itself. -/
theorem quoted_eq_cons {p : Char} (h : quoted s = p :: X) (hb : p ≠ '\\') (hq : p ≠ '"') :
    ∃ s', s = p :: s' ∧ X = quoted s' := by
  cases s with
  | nil =>
    injection h with hp
    exact absurd hp.symm hq
  | cons c s =>
    rw [quoted_cons] at h
    rcases escapeChar_eq c with ⟨hw, -⟩ | ⟨w, hw⟩
    · rw [hw] at h
      injection h with hp hX
      exact ⟨s, by rw [hp], hX.symm⟩
    · rw [hw] at h
      injection h with hp
      exact absurd hp.symm hb

theorem readOctal_of_not_octal (h : isOctal c = false) : readOctal (c :: s) = none := by
  rcases readOctal_cases (c :: s) with ⟨-, hro⟩ | ⟨a, b, d, s', heq, ha, -⟩
  · exact hro
  · injection heq with hca
    rw [← hca, h] at ha
    cases ha

theorem readEscape_backslash : readEscape ('\\' :: s) = none := by
  have hl : simpleEscapes.lookup '\\' = none := rfl
  simp only [readEscape, hl, readOctal_of_not_octal (c := '\\') rfl, Option.or_none]
  rfl

/-- A backslash before a backslash is read alone. -/
theorem reads_backslash_backslash :
    Reads ('\\' :: '\\' :: X) t r ↔ ∃ t', t = '\\' :: t' ∧ Reads ('\\' :: X) t' r := by
  have hnone := readEscape_backslash (s := X)
  constructor
  · intro h
    cases h with
    | byte _ h => exact absurd rfl h
    | escape h' => rw [hnone] at h'; cases h'
    | backslash _ h => exact ⟨_, rfl, h⟩
  · rintro ⟨t', rfl, h⟩
    exact .backslash hnone h

/-- The text of `s` is not read as `s` with more before it: the first backslash would be too
early. -/
theorem not_reads_append (hs : ∀ c ∈ s, c.toNat < 256) (hX : X ≠ []) (hb : '\\' ∉ X) :
    ¬ Reads (quoted s) (X ++ s) r := by
  intro h
  by_cases hmem : '\\' ∈ s
  · obtain ⟨u, w, rfl, hu⟩ := List.eq_append_cons_of_mem hmem
    rw [List.forall_mem_append] at hs
    rw [quoted_append, quoted_backslash] at h
    obtain ⟨t', heq, h⟩ := (reads_escape hs.1 hu).mp h
    obtain ⟨t'', rfl, -⟩ := reads_backslash_backslash.mp h
    have hXu : '\\' ∉ X ++ u := by simp [hb, hu]
    have hidx := congrArg (List.idxOf '\\') heq
    rw [← List.append_assoc, List.idxOf_append_of_notMem hXu, List.idxOf_append_of_notMem hu]
      at hidx
    exact hX (by simpa using hidx)
  · obtain ⟨t', heq, h⟩ := (reads_escape hs hmem).mp h
    have ht : t' = [] := by
      cases h with
      | quote => rfl
      | byte h => exact absurd rfl h
    have hl := congrArg List.length heq
    exact hX (by simpa [ht] using hl)

/-- Backslashes before the text of `s` are read as backslashes, each time one too many. -/
theorem not_reads_replicate (m : Nat) :
    ¬ Reads (List.replicate (m + 2) '\\' ++ quoted s) s r := by
  induction s generalizing m with
  | nil =>
    intro h
    obtain ⟨t', heq, -⟩ := reads_backslash_backslash.mp h
    cases heq
  | cons c s ih =>
    intro h
    obtain ⟨t', heq, h⟩ := reads_backslash_backslash.mp h
    injection heq with hc hs
    subst hc hs
    have htext : '\\' :: (List.replicate m '\\' ++ quoted ('\\' :: s)) =
        List.replicate (m + 3) '\\' ++ quoted s := by
      rw [quoted_backslash, List.replicate_succ, List.replicate_succ', List.replicate_succ']
      simp
    exact ih (m + 1) (htext ▸ h)

theorem isHex_ne {c : Char} (h : isHex c = true) : c ≠ '\\' ∧ c ≠ '"' := by
  constructor <;> rintro rfl <;> cases h

theorem isOctal_ne {c : Char} (h : isOctal c = true) : c ≠ '\\' ∧ c ≠ '"' := by
  constructor <;> rintro rfl <;> cases h

/-- What a backslash takes of the text of `s`: the closing quote, one byte that it changes, or
three bytes for one. -/
theorem readEscape_quoted {n : Nat} (h : readEscape (quoted s) = some (n, X)) :
    (s = [] ∧ X = []) ∨ (∃ c s', s = c :: s' ∧ X = quoted s' ∧ Char.ofNat n ≠ c) ∨
      ∃ a b c s', s = a :: b :: c :: s' ∧ X = quoted s' ∧ b ≠ '\\' ∧ c ≠ '\\' := by
  cases s with
  | nil =>
    left
    cases h
    exact ⟨rfl, rfl⟩
  | cons p s =>
    right
    rw [quoted_cons] at h
    rcases escapeChar_eq p with ⟨hw, hb, hq, -⟩ | ⟨w, hw⟩
    · rw [hw, List.singleton_append, readEscape] at h
      cases hp : simpleEscapes.lookup p with
      | some c =>
        left
        simp only [hp, Option.some.injEq, Prod.mk.injEq] at h
        obtain ⟨rfl, rfl⟩ := h
        refine ⟨p, s, rfl, rfl, ?_⟩
        rw [Char.ofNat_toNat]
        rintro rfl
        obtain ⟨l₁, l₂, heq, -⟩ := List.lookup_eq_some_iff.mp hp
        have hall : ∀ q ∈ simpleEscapes, q.2 = q.1 → q.1 = '"' := by decide
        exact hq (hall (c, c) (by rw [heq]; simp) rfl)
      | none =>
        right
        rw [hp] at h
        rcases readHex_cases (p :: quoted s) with ⟨-, hrx⟩ | ⟨a, b, X', heq, ha, hb', -, hrx⟩
        · rcases readOctal_cases (p :: quoted s) with
            ⟨-, hro⟩ | ⟨a, b, c, X', heq, -, hb', hc, -, hro⟩
          · simp [hrx, hro] at h
          · simp only [hrx, hro, Option.none_or, Option.some.injEq, Prod.mk.injEq] at h
            obtain ⟨-, rfl⟩ := h
            obtain ⟨s₁, rfl, hX₁⟩ := quoted_eq_cons (List.cons.inj heq).2 (isOctal_ne hb').1
              (isOctal_ne hb').2
            obtain ⟨s₂, rfl, hX₂⟩ := quoted_eq_cons hX₁.symm (isOctal_ne hc).1 (isOctal_ne hc).2
            exact ⟨p, b, c, s₂, rfl, hX₂, (isOctal_ne hb').1, (isOctal_ne hc).1⟩
        · simp only [hrx, Option.some_or, Option.some.injEq, Prod.mk.injEq] at h
          obtain ⟨-, rfl⟩ := h
          obtain ⟨s₁, rfl, hX₁⟩ := quoted_eq_cons (List.cons.inj heq).2 (isHex_ne ha).1
            (isHex_ne ha).2
          obtain ⟨s₂, rfl, hX₂⟩ := quoted_eq_cons hX₁.symm (isHex_ne hb').1 (isHex_ne hb').2
          exact ⟨p, a, b, s₂, rfl, hX₂, (isHex_ne ha).1, (isHex_ne hb').1⟩
    · rw [hw, List.cons_append, readEscape_backslash] at h
      cases h

/-- After a backslash the text of `s` is not read as `s`. -/
theorem not_reads_backslash (hs : ∀ c ∈ s, c.toNat < 256) (h : Reads ('\\' :: quoted s) t r) :
    t ≠ s := by
  intro ht
  cases h with
  | byte _ h => exact absurd rfl h
  | backslash _ h =>
    subst ht
    rw [quoted_backslash] at h
    exact not_reads_replicate 0 h
  | escape hread _ h =>
    rcases readEscape_quoted hread with
      ⟨rfl, -⟩ | ⟨c, s', rfl, rfl, hne⟩ | ⟨a, b, c, s', rfl, rfl, hb, hc⟩
    · cases ht
    · exact hne (List.cons.inj ht).1
    · obtain ⟨-, rfl⟩ := List.cons.inj ht
      have hs' : ∀ e ∈ s', e.toNat < 256 := fun e he => hs e (by simp [he])
      exact not_reads_append (X := [b, c]) hs' (by simp) (by simp [hb.symm, hc.symm]) h

theorem reads_quoted (hs : ∀ c ∈ s, c.toNat < 256) (hb : '\\' ∉ s) : Reads (quoted s) s [] :=
  (reads_escape hs hb).mpr ⟨[], by simp, .quote []⟩

/-- The text of `s` is read as `s` only when `s` has no backslash. -/
theorem notMem_of_reads_quoted (hs : ∀ c ∈ s, c.toNat < 256) (h : Reads (quoted s) s r) :
    '\\' ∉ s := by
  intro hmem
  obtain ⟨u, w, rfl, hu⟩ := List.eq_append_cons_of_mem hmem
  rw [List.forall_mem_append, List.forall_mem_cons] at hs
  rw [quoted_append, quoted_backslash] at h
  obtain ⟨t, heq, h⟩ := (reads_escape hs.1 hu).mp h
  obtain rfl := List.append_cancel_left heq
  obtain ⟨t', heq', h⟩ := reads_backslash_backslash.mp h
  exact not_reads_backslash hs.2.2 h (List.cons.inj heq').2.symm

end escaping

/-- The scanner makes one token of the text. -/
def ScansAs (text : Str) (t : Token) : Prop :=
  tokens 2 { input := text } = [t, .plain .tokEof]

theorem lex_quote (s : Str) :
    lex { input := '"' :: s } = lexLoop (s.length + 1) (inString [] 0 s) := by
  have hm : Rule.longest initialRules ('"' :: s) = some (1, .openString) := rfl
  rw [lex, lexLoop]
  simp only [scan, hm]
  rfl

theorem lex_nil (l : Lexer) (hs : l.start = .initial) (hi : l.input = []) :
    l.lex = .ok (.plain .tokEof, l) := by
  have hscan : l.scan = .token (.plain .tokEof) l := by
    unfold scan
    rw [hi]
    simp only [atEnd, hs]
  rw [lex, lexLoop, hscan]

/-- The first call of `lex` on a string reads it. -/
theorem lex_quote_eq {s : Str} {t : Token} {l : Lexer} :
    lex { input := '"' :: s } = .ok (t, l) ↔ ∃ v r, Reads s v r ∧ t = .string v ∧
      l = { start := .initial, grownString := v, input := r } := by
  rw [lex_quote]
  exact lexLoop_inString (Nat.lt_succ_self _)

/-- A string that is escaped and scanned is found again exactly when it has no backslash. -/
theorem scansAs_escape_iff (s : Str) (hs : ∀ c ∈ s, c.toNat < 256) :
    ScansAs ('"' :: (escape s ++ ['"'])) (.string s) ↔ '\\' ∉ s := by
  show ScansAs ('"' :: quoted s) (.string s) ↔ _
  constructor
  · intro h
    unfold ScansAs tokens at h
    cases hl : lex { input := '"' :: quoted s } with
    | error e => rw [hl] at h; cases h
    | ok p =>
      obtain ⟨t, l⟩ := p
      obtain ⟨v, r, hr, rfl, -⟩ := lex_quote_eq.mp hl
      rw [hl] at h
      injection h with ht
      injection ht with hv
      exact notMem_of_reads_quoted hs (hv ▸ hr)
  · intro hb
    have hl := lex_quote_eq.mpr ⟨s, [], reads_quoted hs hb, rfl, rfl⟩
    have hend := lex_nil { start := .initial, grownString := s, input := [] } rfl rfl
    simp only [ScansAs, tokens, hl, hend]
    rfl

/-- Quotes, control characters and bytes that are not printable come back. -/
theorem scansAs_escape_quote :
    ScansAs ('"' :: (escape ['a', '"', '\n', '\x07', '0', '\xe9'] ++ ['"']))
      (.string ['a', '"', '\n', '\x07', '0', '\xe9']) :=
  (scansAs_escape_iff _ (by simp)).mpr (by simp)

/-- A backslash does not: its escape takes the closing quote with it. -/
theorem not_scansAs_escape :
    ¬ ∀ s : Str, (∀ c ∈ s, 0 < c.toNat ∧ c.toNat < 256) →
      ScansAs ('"' :: (escape s ++ ['"'])) (.string s) := by
  intro h
  have hscan := h ['\\'] (by simp)
  have htokens : tokens 2 { input := '"' :: (escape ['\\'] ++ ['"']) } = [] := rfl
  rw [ScansAs, htokens] at hscan
  cases hscan

end Lexer

end TigerCompiler
