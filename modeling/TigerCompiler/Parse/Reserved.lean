import TigerCompiler.Parse.Strings
import TigerCompiler.Parse.Grammar
import Mathlib.Data.List.TakeWhile

/-!
# The words of the compiler itself

A TWEAST names the trees it holds by words that begin with an underscore.  Whether the scanner
delivers one of them is a matter of the text alone: `reservedWord` reads it byte by byte, keeping
track of the strings and the comments, and `delivers_iff` compares this reading with the rules.
-/

namespace TigerCompiler

/-- The tokens that are kept for the compiler: those of the TWEASTs, and the identifiers that
begin with an underscore, but for `_main`. -/
def Token.isReserved : Token → Bool
  | .id name => name.head? = some '_' && name ≠ "_main".toList
  | .plain t => t ∈ [.tokChunks, .tokExp, .tokLvalue, .tokNamety, .tokCast]
  | .string _ | .int _ => false

namespace Lexer

/-- Where a byte of a source text lies. -/
inductive Place
  /-- Between two words. -/
  | code
  /-- Inside a word, inside a number. -/
  | word | number
  | string
  /-- Inside so many comments. -/
  | comment (depth : Nat)
  /-- On the second byte of a sign, `p` being the place after it. -/
  | second (p : Place)

/-- Whether the octal escape after a backslash, if it is one, is too large for a byte. -/
def overflows (s : Str) : Bool :=
  match readOctal s with
  | some (n, _) => n > 255
  | none => false

/-- What a byte between two words means; `s` are the bytes after it, and `next` the reading of
them from a place. -/
def codeByte (next : Place → Bool) (c : Char) (s : Str) : Bool :=
  if isDigit c then
    valueOf 10 ((c :: s).takeWhile isDigit) ≤ intMax && next .number
  else if isIdChar c then
    (c = '_' && (c :: s).takeWhile isIdChar ≠ "_main".toList) || next .word
  else if c = '"' then next .string
  else if c = '/' && s.head? = some '*' then next (.second (.comment 1))
  else next .code

/-- Whether a reserved word stands in a text, outside the strings and the comments and before
the first lexical error. -/
def reservedWord : Place → Str → Bool
  | _, [] => false
  | .second p, _ :: s => reservedWord p s
  | .string, c :: s =>
    if c = '"' then reservedWord .code s
    else if c = '\\' then
      if s.head? = some '"' then reservedWord (.second .string) s
      else !overflows s && reservedWord .string s
    else reservedWord .string s
  | .comment d, c :: s =>
    if c = '/' && s.head? = some '*' then reservedWord (.second (.comment (d + 1))) s
    else if c = '*' && s.head? = some '/' then
      reservedWord (.second (if d = 1 then .code else .comment (d - 1))) s
    else reservedWord (.comment d) s
  | .code, c :: s => codeByte (reservedWord · s) c s
  | .word, c :: s =>
    if isIdChar c then reservedWord .word s else codeByte (reservedWord · s) c s
  | .number, c :: s =>
    if isDigit c then reservedWord .number s else codeByte (reservedWord · s) c s

/-- The place where the scanner stands. -/
def place (l : Lexer) : Place :=
  match l.start with
  | .initial => .code
  | .scString => .string
  | .scComment => .comment l.depth.toNat

/-- What is left of the text holds a reserved word. -/
def ahead (l : Lexer) : Bool := reservedWord l.place l.input

/-! ## Reading the bytes of one match -/

section reading

variable {c : Char} {s w : Str}

attribute [local simp] reservedWord

/-- A word, and a number, ends where its bytes do. -/
theorem reservedWord_word (h : ∀ c, s.head? = some c → isIdChar c = false) :
    reservedWord .word s = reservedWord .code s := by
  cases s with
  | nil => rfl
  | cons c s => simp [h c rfl]

theorem reservedWord_number (h : ∀ c, s.head? = some c → isDigit c = false) :
    reservedWord .number s = reservedWord .code s := by
  cases s with
  | nil => rfl
  | cons c s => simp [h c rfl]

theorem reservedWord_word_append (hw : ∀ c ∈ w, isIdChar c = true) :
    reservedWord .word (w ++ s) = reservedWord .word s := by
  induction w with
  | nil => rfl
  | cons c w ih =>
    rw [List.forall_mem_cons] at hw
    rw [List.cons_append, reservedWord, if_pos hw.1, ih hw.2]

theorem reservedWord_number_append (hw : ∀ c ∈ w, isDigit c = true) :
    reservedWord .number (w ++ s) = reservedWord .number s := by
  induction w with
  | nil => rfl
  | cons c w ih =>
    rw [List.forall_mem_cons] at hw
    rw [List.cons_append, reservedWord, if_pos hw.1, ih hw.2]

theorem head_dropWhile (p : Char → Bool) (s : Str) :
    ∀ c, (s.dropWhile p).head? = some c → p c = false := by
  intro c hc
  have hp := List.head?_dropWhile_not p s
  rw [hc] at hp
  simpa using hp

/-- Reading a word to its end. -/
theorem reservedWord_run_word (s : Str) :
    reservedWord .word s = reservedWord .code (s.dropWhile isIdChar) := by
  have h : reservedWord .word (s.takeWhile isIdChar ++ s.dropWhile isIdChar) = _ :=
    reservedWord_word_append fun c hc => List.mem_takeWhile_imp hc
  rw [List.takeWhile_append_dropWhile] at h
  rw [h, reservedWord_word (head_dropWhile _ s)]

/-- Reading a number to its end. -/
theorem reservedWord_run_number (s : Str) :
    reservedWord .number s = reservedWord .code (s.dropWhile isDigit) := by
  have h : reservedWord .number (s.takeWhile isDigit ++ s.dropWhile isDigit) = _ :=
    reservedWord_number_append fun c hc => List.mem_takeWhile_imp hc
  rw [List.takeWhile_append_dropWhile] at h
  rw [h, reservedWord_number (head_dropWhile _ s)]

/-- A byte that means nothing of its own. -/
theorem reservedWord_code (hi : isIdChar c = false) (hq : c ≠ '"')
    (hc : ¬ (c = '/' ∧ s.head? = some '*')) :
    reservedWord .code (c :: s) = reservedWord .code s := by
  have hd : isDigit c = false := by
    rw [isIdChar] at hi
    simp only [Bool.or_eq_false_iff] at hi
    exact hi.1.1
  simp [codeByte, hd, hi, hq, hc]

/-- The bytes of a string but the quote and the backslash. -/
theorem reservedWord_string (hq : c ≠ '"') (hb : c ≠ '\\') :
    reservedWord .string (c :: s) = reservedWord .string s := by
  simp [hq, hb]

theorem reservedWord_string_backslash (hq : s.head? ≠ some '"') :
    reservedWord .string ('\\' :: s) = (!overflows s && reservedWord .string s) := by
  rw [reservedWord, if_neg (by decide), if_pos rfl, if_neg hq]

end reading

/-! ## The matches between two words -/

section matches_

variable {c : Char} {s w : Str} {n : Nat}

theorem lit_eq_some : lit w s = some n ↔ w <+: s ∧ w.length = n := by
  simp [lit, List.isPrefixOf_iff_prefix]

/-- A prefix whose bytes satisfy `p` lies in the longest one. -/
theorem prefix_length_le {p : Char → Bool} (h : w <+: s) (hp : ∀ c ∈ w, p c = true) :
    w.length ≤ (s.takeWhile p).length := by
  obtain ⟨t, rfl⟩ := h
  rw [List.takeWhile_append_of_pos hp, List.length_append]
  omega

/-- The words and the signs, with what begins each of them. -/
theorem literals_spec : ∀ p ∈ literals ++ reservedWords,
    (p.1.all isIdChar = true ∧ p.1.head?.all (fun c => !isDigit c) = true) ∨
      ((p.1.head?.all fun c => !isIdChar c && c != '"') = true ∧
        p.1.tail.all (fun c => c = '>' || c = '=') = true ∧ p.1.length ≤ 2) := by
  decide

theorem literals_ne_nil : ∀ p ∈ literals ++ reservedWords, p.1 ≠ [] := by
  decide

theorem mem_initialRules {r : Rule Char InitialAction} :
    r ∈ initialRules ↔ r = ⟨intLen, .int⟩ ∨ (∃ p ∈ literals ++ reservedWords, r = tokenRule p) ∨
      r = ⟨whiteLen, .blank⟩ ∨ r = ⟨lineLen, .blank⟩ ∨ r = ⟨lit ['"'], .openString⟩ ∨
      r = ⟨lit ['/', '*'], .openComment⟩ ∨ r = ⟨idLen, .id⟩ ∨ r = ⟨reservedLen, .id⟩ := by
  simp only [initialRules, List.mem_cons, List.mem_append, List.mem_map, List.not_mem_nil,
    or_false]
  grind

/-- A byte that begins no word, no string and no comment. -/
def neutral (c : Char) : Bool := !isIdChar c && c != '"' && c != '/'

/-- What a rule that matches says of the bytes it matches. -/
inductive Matched (c : Char) (s : Str) (m : Nat) : InitialAction → Prop
  | int : isDigit c = true → m = ((c :: s).takeWhile isDigit).length → Matched c s m .int
  | token (p : Str × Terminal) : p ∈ literals ++ reservedWords → p.1 <+: c :: s → p.1.length = m →
      Matched c s m (.token p.2)
  | blank : neutral c = true → m = 1 ∨ (m = 2 ∧ ∃ d t, s = d :: t ∧ neutral d = true) →
      Matched c s m .blank
  | openString : c = '"' → m = 1 → Matched c s m .openString
  | openComment (t : Str) : c = '/' → s = '*' :: t → m = 2 → Matched c s m .openComment
  | id : isIdChar c = true → isDigit c = false → m ≤ ((c :: s).takeWhile isIdChar).length →
      Matched c s m .id

theorem isLetter_spec (h : isLetter c = true) : isIdChar c = true ∧ isDigit c = false := by
  refine ⟨by simp [isIdChar, h], ?_⟩
  by_contra hd
  simp only [isLetter, isDigit, Bool.or_eq_true, Bool.and_eq_true, decide_eq_true_eq, Char.le_def,
    Bool.not_eq_false, UInt32.le_iff_toNat_le] at h hd
  have h9 : ('9' : Char).val.toNat = 57 := rfl
  have ha : ('a' : Char).val.toNat = 97 := rfl
  have hA : ('A' : Char).val.toNat = 65 := rfl
  omega

theorem matched_id {m : Nat} (h : idLen (c :: s) = some m) : Matched c s m .id := by
  by_cases hl : isLetter c = true
  · simp only [idLen, wordLen, if_pos hl] at h
    exact .id (isLetter_spec hl).1 (isLetter_spec hl).2 (Option.some.inj h).ge
  · simp only [idLen, wordLen, if_neg hl] at h
    obtain ⟨hp, hm⟩ := lit_eq_some.mp h
    have hall : ∀ c ∈ "_main".toList, isIdChar c = true := by
      simp [isIdChar, isDigit, isLetter]
    have hc : '_' = c := by
      obtain ⟨t, ht⟩ := hp
      exact (List.cons.inj ht).1
    subst hc
    exact .id rfl rfl (hm ▸ prefix_length_le hp hall)

theorem matched_of_len {r : Rule Char InitialAction} (hr : r ∈ initialRules) {m : Nat}
    (h : r.len (c :: s) = some m) : Matched c s m r.action := by
  rcases mem_initialRules.mp hr with rfl | ⟨p, hp, rfl⟩ | rfl | rfl | rfl | rfl | rfl | rfl
  · by_cases hc : isDigit c = true
    · exact .int hc (by simpa [intLen, hc] using h.symm)
    · simp [intLen, hc] at h
  · obtain ⟨hpre, hm⟩ := lit_eq_some.mp h
    exact .token p hp hpre hm
  · simp only [whiteLen, Option.ite_none_right_eq_some, Option.some.injEq, Bool.or_eq_true,
      decide_eq_true_eq] at h
    obtain ⟨rfl | rfl, rfl⟩ := h <;> exact .blank rfl (.inl rfl)
  · replace h : lineLen (c :: s) = some m := h
    unfold lineLen at h
    split at h
    · rename_i t heq
      obtain ⟨rfl, rfl⟩ := List.cons.inj heq
      exact .blank rfl (.inr ⟨(Option.some.inj h).symm, _, t, rfl, rfl⟩)
    · rename_i t heq
      obtain ⟨rfl, rfl⟩ := List.cons.inj heq
      exact .blank rfl (.inr ⟨(Option.some.inj h).symm, _, t, rfl, rfl⟩)
    · rename_i d t _ _ heq
      obtain ⟨rfl, rfl⟩ := List.cons.inj heq
      simp only [Option.ite_none_right_eq_some, Option.some.injEq, Bool.or_eq_true,
        decide_eq_true_eq] at h
      obtain ⟨rfl | rfl, rfl⟩ := h <;> exact .blank rfl (.inl rfl)
    · cases h
  · obtain ⟨⟨t, ht⟩, hm⟩ := lit_eq_some.mp h
    exact .openString (List.cons.inj ht).1.symm hm.symm
  · obtain ⟨⟨t, ht⟩, hm⟩ := lit_eq_some.mp h
    obtain ⟨hc, hs⟩ := List.cons.inj ht
    exact .openComment t hc.symm hs.symm hm.symm
  · exact matched_id h
  · by_cases hc : c = '_'
    · subst hc
      replace h : reservedLen ('_' :: s) = some m := h
      rw [reservedLen, if_pos rfl] at h
      exact .id rfl rfl (Option.some.inj h).ge
    · simp [reservedLen, hc] at h

theorem drop_takeWhile (p : Char → Bool) (s : Str) :
    s.drop (s.takeWhile p).length = s.dropWhile p := by
  have h := @List.drop_left _ (s.takeWhile p) (s.dropWhile p)
  rwa [List.takeWhile_append_dropWhile] at h

theorem take_takeWhile (p : Char → Bool) (s : Str) :
    s.take (s.takeWhile p).length = s.takeWhile p := by
  have h := @List.take_left _ (s.takeWhile p) (s.dropWhile p)
  rwa [List.takeWhile_append_dropWhile] at h

theorem head_of_prefix (h : w <+: c :: s) (hw : w ≠ []) : ∃ v, w = c :: v ∧ v <+: s := by
  cases w with
  | nil => exact absurd rfl hw
  | cons d v =>
    obtain ⟨rfl, hv⟩ := List.cons_prefix_cons.mp h
    exact ⟨v, rfl, hv⟩

theorem isIdChar_of_isDigit (h : isDigit c = true) : isIdChar c = true := by
  simp [isIdChar, h]

/-- A word or a sign of the table, as it is met. -/
theorem literal_cases {p : Str × Terminal} (hp : p ∈ literals ++ reservedWords)
    (h : p.1 <+: c :: s) :
    (isIdChar c = true ∧ isDigit c = false ∧ ∀ d ∈ p.1, isIdChar d = true) ∨
      (isIdChar c = false ∧ c ≠ '"' ∧ ∃ v, p.1 = c :: v ∧ v <+: s ∧ v.length ≤ 1 ∧
        ∀ d ∈ v, neutral d = true) := by
  obtain ⟨v, hv, hpre⟩ := head_of_prefix h (literals_ne_nil p hp)
  rcases literals_spec p hp with ⟨hall, hhead⟩ | ⟨hhead, htail, hlen⟩
  · left
    rw [List.all_eq_true] at hall
    refine ⟨hall c (by simp [hv]), ?_, hall⟩
    simpa [hv] using hhead
  · right
    rw [hv] at hhead htail hlen
    simp only [List.head?_cons, Option.all_some, Bool.and_eq_true, Bool.not_eq_true',
      bne_iff_ne] at hhead
    refine ⟨hhead.1, hhead.2, v, hv, hpre, by simpa using hlen, ?_⟩
    intro d hd
    rw [List.tail_cons, List.all_eq_true] at htail
    have hd' := htail d hd
    simp only [Bool.or_eq_true, decide_eq_true_eq] at hd'
    rcases hd' with rfl | rfl <;> rfl

/-- Between two words a digit begins a number. -/
theorem longest_digit (hc : isDigit c = true) :
    Rule.longest initialRules (c :: s) = some (((c :: s).takeWhile isDigit).length, .int) := by
  have hi := isIdChar_of_isDigit hc
  have hmatch : ∀ m a, Matched c s m a → a = .int ∧ m = ((c :: s).takeWhile isDigit).length := by
    intro m a h
    cases h with
    | int _ hm => exact ⟨rfl, hm⟩
    | token p hp hpre =>
      rcases literal_cases hp hpre with ⟨-, hd, -⟩ | ⟨hn, -⟩
      · rw [hc] at hd; cases hd
      · rw [hi] at hn; cases hn
    | blank hn => simp [neutral, hi] at hn
    | openString hq => subst hq; cases hc
    | openComment _ hq => subst hq; cases hc
    | id _ hd => rw [hc] at hd; cases hd
  have hint : intLen (c :: s) = some ((c :: s).takeWhile isDigit).length := by
    rw [intLen, if_pos hc]
  have hmem : ⟨intLen, .int⟩ ∈ initialRules := mem_initialRules.mpr (.inl rfl)
  obtain ⟨r, hr, hlen, hl⟩ := Rule.longest_of_le hmem hint
    (fun r hr m hm => (hmatch m _ (matched_of_len hr hm)).2.le)
  rw [hl, (hmatch _ _ (matched_of_len hr hlen)).1]

/-- Between two words a letter or an underscore begins a word. -/
theorem longest_word (hi : isIdChar c = true) (hd : isDigit c = false) :
    ∃ a, Rule.longest initialRules (c :: s) = some (((c :: s).takeWhile isIdChar).length, a) ∧
      Matched c s ((c :: s).takeWhile isIdChar).length a := by
  have hle : ∀ m a, Matched c s m a → m ≤ ((c :: s).takeWhile isIdChar).length := by
    intro m a h
    cases h with
    | int hc => rw [hd] at hc; cases hc
    | token p hp hpre hm =>
      rcases literal_cases hp hpre with ⟨-, -, hall⟩ | ⟨hn, -⟩
      · exact hm ▸ prefix_length_le hpre hall
      · rw [hi] at hn; cases hn
    | blank hn => simp [neutral, hi] at hn
    | openString hq => subst hq; cases hi
    | openComment _ hq => subst hq; cases hi
    | id _ _ hm => exact hm
  have hrule : ∃ r ∈ initialRules, r.len (c :: s) = some ((c :: s).takeWhile isIdChar).length := by
    by_cases hl : isLetter c = true
    · refine ⟨⟨idLen, .id⟩, mem_initialRules.mpr (by simp), ?_⟩
      simp only [idLen, wordLen, if_pos hl]
    · refine ⟨⟨reservedLen, .id⟩, mem_initialRules.mpr (by simp), ?_⟩
      have hu : c = '_' := by simpa [isIdChar, hd, hl] using hi
      simp only [reservedLen, if_pos hu]
  obtain ⟨r, hr, hlen⟩ := hrule
  obtain ⟨r', hr', hlen', hl⟩ := Rule.longest_of_le hr hlen
    (fun r hr m hm => hle m _ (matched_of_len hr hm))
  exact ⟨r'.action, hl, matched_of_len hr' hlen'⟩

end matches_

/-! ## One step of the scanner -/

/-- Inside a comment the depth is positive. -/
def Good (l : Lexer) : Prop := l.start = .scComment → 0 < l.depth

/-- What one match does to the reserved words ahead: a token that is one is the only thing that
takes one away, and after an error none is ahead. -/
def Follows (l : Lexer) : Scanned → Prop
  | .token t l' => l.ahead = (t.isReserved || l'.ahead) ∧ l'.start = .initial ∧
      ((t = .plain .tokEof ∧ l'.input = []) ∨
        (t ≠ .plain .tokEof ∧ l'.input.length < l.input.length))
  | .more l' => l.ahead = l'.ahead ∧ l'.Good ∧ l'.input.length < l.input.length
  | .stop _ => l.ahead = false

section steps

variable {l : Lexer} {c : Char} {s : Str}

theorem ahead_initial (hs : l.start = .initial) : l.ahead = reservedWord .code l.input := by
  rw [ahead, place, hs]

/-- A run of bytes is shorter than the text it is taken from. -/
theorem length_dropWhile_lt {p : Char → Bool} (hi : l.input = c :: s) (hc : p c = true) :
    ((c :: s).dropWhile p).length < l.input.length := by
  rw [hi, List.dropWhile_cons_of_pos hc, List.length_cons]
  exact Nat.lt_succ_of_le (List.dropWhile_sublist p).length_le

theorem scan_initial {n : Nat} {a : InitialAction} (hs : l.start = .initial) (hi : l.input = c :: s)
    (h : Rule.longest initialRules (c :: s) = some (n, a)) :
    l.scan = l.initialAction ((c :: s).take n) ((c :: s).drop n) a := by
  rw [scan, hi, hs]
  simp only [h]

theorem follows_digit (hs : l.start = .initial) (hi : l.input = c :: s) (hc : isDigit c = true) :
    Follows l l.scan := by
  have hahead : l.ahead = (decide (valueOf 10 ((c :: s).takeWhile isDigit) ≤ intMax) &&
      reservedWord .code ((c :: s).dropWhile isDigit)) := by
    rw [ahead_initial hs, hi]
    simp only [reservedWord, codeByte, hc, if_true, reservedWord_run_number, List.dropWhile_cons]
  rw [scan_initial hs hi (longest_digit hc), take_takeWhile, drop_takeWhile]
  by_cases hv : valueOf 10 ((c :: s).takeWhile isDigit) > intMax
  · have hn : ¬ valueOf 10 ((c :: s).takeWhile isDigit) ≤ intMax := by omega
    rw [initialAction, if_pos hv]
    simp [Follows, hahead, hn]
  · have hn : valueOf 10 ((c :: s).takeWhile isDigit) ≤ intMax := by omega
    rw [initialAction, if_neg hv]
    refine ⟨?_, hs, .inr ⟨nofun, length_dropWhile_lt hi hc⟩⟩
    rw [hahead, decide_eq_true hn, Bool.true_and]
    simp only [Token.isReserved, Bool.false_or]
    exact (ahead_initial (l := { l with input := (c :: s).dropWhile isDigit }) hs).symm

theorem plain_ne_eof : ∀ p ∈ literals ++ reservedWords, Token.plain p.2 ≠ .plain .tokEof := by
  decide

/-- The words that the compiler keeps for itself are those of its table. -/
theorem isReserved_plain : ∀ p ∈ literals ++ reservedWords,
    (Token.plain p.2).isReserved = (p.1.head? = some '_' && p.1 ≠ "_main".toList) := by
  decide

theorem follows_word (hs : l.start = .initial) (hi : l.input = c :: s) (hc : isIdChar c = true)
    (hd : isDigit c = false) : Follows l l.scan := by
  have hahead : l.ahead = ((c = '_' && (c :: s).takeWhile isIdChar ≠ "_main".toList) ||
      reservedWord .code ((c :: s).dropWhile isIdChar)) := by
    rw [ahead_initial hs, hi]
    simp only [reservedWord, codeByte, hc, hd, if_true, reservedWord_run_word, List.dropWhile_cons]
    rfl
  have hhead : ((c :: s).takeWhile isIdChar).head? = some c := by
    rw [List.takeWhile_cons_of_pos hc]
    rfl
  obtain ⟨a, hl, hm⟩ := longest_word (s := s) hc hd
  rw [scan_initial hs hi hl, take_takeWhile, drop_takeWhile]
  have hlen := length_dropWhile_lt (l := l) (p := isIdChar) hi hc
  have hrest : ∀ t : Token, t ≠ .plain .tokEof → t.isReserved =
      (c = '_' && (c :: s).takeWhile isIdChar ≠ "_main".toList) →
      Follows l (.token t { l with input := (c :: s).dropWhile isIdChar }) := by
    intro t hne ht
    refine ⟨?_, hs, .inr ⟨hne, hlen⟩⟩
    rw [hahead, ht]
    congr 1
    exact (ahead_initial (l := { l with input := (c :: s).dropWhile isIdChar }) hs).symm
  cases hm with
  | int h => rw [hd] at h; cases h
  | blank h => simp [neutral, hc] at h
  | openString h => subst h; cases hc
  | openComment _ h => subst h; cases hc
  | id =>
    refine hrest (.id _) nofun ?_
    simp only [Token.isReserved, hhead, Option.some.injEq]
  | token p hp hpre hlen' =>
    apply hrest _ (plain_ne_eof p hp)
    have hw : p.1 = (c :: s).takeWhile isIdChar := by
      have h := List.prefix_iff_eq_take.mp hpre
      rw [hlen', take_takeWhile] at h
      exact h
    rw [isReserved_plain p hp, hw, hhead]
    simp only [Option.some.injEq]

/-- A byte of the code that begins nothing, and the signs. -/
theorem follows_sign (hs : l.start = .initial) (hi : l.input = c :: s) (hc : isIdChar c = false)
    (hq : c ≠ '"') (hcom : ¬ (c = '/' ∧ s.head? = some '*')) : Follows l l.scan := by
  have hahead : l.ahead = reservedWord .code s := by
    rw [ahead_initial hs, hi]
    exact reservedWord_code hc hq hcom
  have hneutral : ∀ d t, neutral d = true → reservedWord .code (d :: t) = reservedWord .code t := by
    intro d t hd
    simp only [neutral, Bool.and_eq_true, Bool.not_eq_true', bne_iff_ne] at hd
    exact reservedWord_code hd.1.1 hd.1.2 fun h => hd.2 h.1
  have hdigit : isDigit c = false := by
    by_contra hd
    rw [isIdChar_of_isDigit (by simpa using hd)] at hc
    cases hc
  -- What is left after a match is read as what is left after its first byte.
  have hrest : ∀ r : Str, reservedWord .code r = reservedWord .code s →
      l.ahead = ahead { l with input := r } := by
    intro r hr
    rw [hahead, ← hr]
    exact (ahead_initial (l := { l with input := r }) hs).symm
  have hshort : ∀ v t : Str, v ++ t = s → t.length < l.input.length := by
    intro v t h
    rw [hi, ← h]
    simp only [List.length_cons, List.length_append]
    omega
  cases hl : Rule.longest initialRules (c :: s) with
  | none =>
    have hscan : l.scan = .more { l with input := s } := by
      rw [scan, hi, hs]
      simp only [hl]
    rw [hscan]
    exact ⟨hrest s rfl, fun h => absurd (hs.symm.trans h) (by decide), hshort [] s rfl⟩
  | some m =>
    obtain ⟨n, a⟩ := m
    obtain ⟨r, hr, hrun⟩ := Rule.mem_of_longest hl
    obtain ⟨k, hk, heq⟩ := Option.map_eq_some_iff.mp hrun
    cases heq
    rw [scan_initial hs hi hl]
    have hmatched := matched_of_len hr hk
    generalize r.action = a at hmatched
    cases hmatched with
    | int h => rw [hdigit] at h; cases h
    | id h => rw [hc] at h; cases h
    | openString h => exact absurd h hq
    | openComment t h h' => exact absurd ⟨h, by rw [h']; rfl⟩ hcom
    | blank _ hn =>
      rcases hn with rfl | ⟨rfl, d, t, rfl, hd⟩
      · exact ⟨hrest s rfl, fun h => absurd (hs.symm.trans h) (by decide), hshort [] s rfl⟩
      · exact ⟨hrest t (hneutral d t hd).symm, fun h => absurd (hs.symm.trans h) (by decide),
          hshort [d] t rfl⟩
    | token p hp hpre hlen =>
      rcases literal_cases hp hpre with ⟨h, -⟩ | ⟨-, -, v, hv, ⟨t, ht⟩, hv1, hvn⟩
      · rw [hc] at h; cases h
      · have hu : c ≠ '_' := by rintro rfl; cases hc
        have hdrop : (c :: s).drop n = t := by
          rw [← hlen, hv, ← ht]
          simp
        have hread : reservedWord .code t = reservedWord .code s := by
          rw [← ht]
          rcases v with _ | ⟨d, _ | ⟨e, v⟩⟩
          · rfl
          · exact (hneutral d t (hvn d (by simp))).symm
          · simp at hv1
        rw [hdrop]
        refine ⟨?_, hs, .inr ⟨plain_ne_eof p hp, hshort v t ht⟩⟩
        rw [isReserved_plain p hp, hv]
        simpa [hu] using hrest t hread

/-- The reading of an escape agrees with the rules. -/
theorem reservedWord_backslash (s : Str) :
    reservedWord .string ('\\' :: s) =
      match readEscape s with
      | some (n, s') => !decide (n > 255) && reservedWord .string s'
      | none => reservedWord .string s := by
  cases s with
  | nil => rfl
  | cons p s =>
    cases hp : simpleEscapes.lookup p with
    | some e =>
      obtain ⟨l₁, l₂, heq, -⟩ := List.lookup_eq_some_iff.mp hp
      have hmem : (p, e) ∈ simpleEscapes := by rw [heq]; simp
      have hread : readEscape (p :: s) = some (e.toNat, s) := by simp only [readEscape, hp]
      have hall : ∀ q ∈ simpleEscapes, q.2.toNat ≤ 255 ∧ q.1 ≠ '\\' ∧ isOctal q.1 = false := by
        decide
      obtain ⟨he, hb, ho⟩ := hall _ hmem
      simp only at he hb ho
      have hle : ¬ e.toNat > 255 := by omega
      rw [hread]
      simp only [decide_eq_false hle, Bool.not_false, Bool.true_and]
      by_cases hq : p = '"'
      · subst hq
        rfl
      · have hov : overflows (p :: s) = false := by
          rw [overflows, readOctal_of_not_octal ho]
        rw [reservedWord_string_backslash (by simpa using hq), hov, reservedWord_string hq hb]
        rfl
    | none =>
      have hq : p ≠ '"' := by rintro rfl; cases hp
      have hread : readEscape (p :: s) = (readHex (p :: s)).or (readOctal (p :: s)) := by
        simp only [readEscape, hp]
      rw [reservedWord_string_backslash (by simpa using hq), hread]
      rcases readHex_cases (p :: s) with ⟨-, hrx⟩ | ⟨a, b, s', heq, ha, hb, -, hrx⟩
      · rcases readOctal_cases (p :: s) with ⟨-, hro⟩ | ⟨a, b, d, s', heq, ha, hb, hd, -, hro⟩
        · simp [hrx, hro, overflows]
        · rw [hrx, hro, overflows, hro, heq,
            reservedWord_string (isOctal_ne ha).2 (isOctal_ne ha).1,
            reservedWord_string (isOctal_ne hb).2 (isOctal_ne hb).1,
            reservedWord_string (isOctal_ne hd).2 (isOctal_ne hd).1]
          rfl
      · have hle : ¬ valueOf 16 [a, b] > 255 := by
          have ha' := digitValue_le ha
          have hb' := digitValue_le hb
          simp only [valueOf, List.foldl_cons, List.foldl_nil]
          omega
        have hov : overflows (p :: s) = false := by
          rw [overflows, heq, readOctal_of_not_octal (by decide)]
        rw [hrx, hov, heq, reservedWord_string (by decide) (by decide),
          reservedWord_string (isHex_ne ha).2 (isHex_ne ha).1,
          reservedWord_string (isHex_ne hb).2 (isHex_ne hb).1]
        simp [hle]

theorem follows_string {g : Str} {d : Int} :
    Follows (inString g d (c :: s)) (inString g d (c :: s)).scan := by
  by_cases hq : c = '"'
  · subst hq
    rw [scan_quote]
    exact ⟨rfl, rfl, .inr ⟨nofun, Nat.lt_succ_self _⟩⟩
  · by_cases hb : c = '\\'
    · subst hb
      rw [scan_backslash]
      have hahead := reservedWord_backslash s
      cases hr : readEscape s with
      | none =>
        rw [hr] at hahead
        exact ⟨hahead, nofun, Nat.lt_succ_self _⟩
      | some p =>
        obtain ⟨n, s'⟩ := p
        have hlen := readEscape_length hr
        rw [hr] at hahead
        by_cases hn : n > 255
        · simp only [hn, decide_true, Bool.not_true, Bool.false_and] at hahead
          simp only [if_pos hn]
          exact hahead
        · simp only [hn, decide_false, Bool.not_false, Bool.true_and] at hahead
          simp only [if_neg hn]
          exact ⟨hahead, nofun, Nat.lt_succ_of_lt hlen⟩
    · have hahead : reservedWord .string (c :: s) = reservedWord .string s :=
        reservedWord_string hq hb
      by_cases hn : c = '\n'
      · subst hn
        rw [scan_newline]
        exact ⟨hahead, nofun, Nat.lt_succ_self _⟩
      · rw [scan_byte hq hb hn]
        exact ⟨hahead, nofun, Nat.lt_succ_self _⟩

theorem lit_two (a b : Char) (h : ¬ (c = a ∧ s.head? = some b)) : lit [a, b] (c :: s) = none := by
  have hn : ¬ [a, b] <+: c :: s := by
    rintro ⟨t, ht⟩
    obtain ⟨hc, hs⟩ := List.cons.inj ht
    exact h ⟨hc.symm, by rw [← hs]; rfl⟩
  rw [lit, if_neg (by simpa [List.isPrefixOf_iff_prefix] using hn)]

/-- The scanner inside comments. -/
def inComment (g : Str) (d : Nat) (s : Str) : Lexer :=
  { start := .scComment, grownString := g, depth := d, input := s }

theorem ahead_comment {g : Str} {d : Nat} :
    ahead (inComment g d s) = reservedWord (.comment d) s := by
  simp [ahead, place, inComment]

theorem scan_nest {g : Str} {d : Nat} :
    (inComment g d ('/' :: '*' :: s)).scan = .more (inComment g (d + 1) s) := by
  have hm : Rule.longest commentRules ('/' :: '*' :: s) = some (2, .nest) := by
    simp [Rule.longest, commentRules, Rule.run, lit, anyLen, Rule.better]
  simp only [scan, inComment, hm]
  rfl

theorem scan_close {g : Str} :
    (inComment g 1 ('*' :: '/' :: s)).scan =
      .more { start := .initial, grownString := g, depth := 0, input := s } := by
  have hm : Rule.longest commentRules ('*' :: '/' :: s) = some (2, .unnest) := by
    simp [Rule.longest, commentRules, Rule.run, lit, anyLen, Rule.better]
  simp only [scan, inComment, hm]
  rfl

theorem scan_unnest {g : Str} {d : Nat} :
    (inComment g (d + 2) ('*' :: '/' :: s)).scan = .more (inComment g (d + 1) s) := by
  have hm : Rule.longest commentRules ('*' :: '/' :: s) = some (2, .unnest) := by
    simp [Rule.longest, commentRules, Rule.run, lit, anyLen, Rule.better]
  have he : ((d + 2 : Nat) : Int) - 1 = (d + 1 : Nat) := by omega
  have he0 : ¬ ((d + 1 : Nat) : Int) = 0 := by omega
  simp only [scan, inComment, hm, commentAction, he, if_neg he0]
  rfl

/-- A newline goes through the default rule, any other byte through the rule for one byte. -/
theorem scan_comment_text {g : Str} {d : Nat} (ho : ¬ (c = '/' ∧ s.head? = some '*'))
    (hc : ¬ (c = '*' ∧ s.head? = some '/')) :
    (inComment g d (c :: s)).scan = .more (inComment g d s) := by
  have hn : Rule.longest commentRules (c :: s) = none ∨
      Rule.longest commentRules (c :: s) = some (1, .text) := by
    have ho' := lit_two '/' '*' ho
    have hc' := lit_two '*' '/' hc
    by_cases hl : c = '\n'
    · subst hl
      simp [Rule.longest, commentRules, Rule.run, anyLen, ho', hc']
    · simp [Rule.longest, commentRules, Rule.run, anyLen, ho', hc', hl]
  rcases hn with hn | hn
  · simp only [scan, inComment, hn]
  · simp only [scan, inComment, hn]
    rfl

theorem follows_comment {g : Str} {d : Nat} (hd : 0 < d) :
    Follows (inComment g d (c :: s)) (inComment g d (c :: s)).scan := by
  by_cases ho : c = '/' ∧ s.head? = some '*'
  · obtain ⟨rfl, t, rfl⟩ : c = '/' ∧ ∃ t, s = '*' :: t := by
      cases s
      · simp at ho
      · simpa using ho
    rw [scan_nest]
    refine ⟨?_, fun _ => by simp only [inComment]; omega,
      by simp only [inComment, List.length_cons]; omega⟩
    rw [ahead_comment, ahead_comment]
    rfl
  · by_cases hc : c = '*' ∧ s.head? = some '/'
    · obtain ⟨rfl, t, rfl⟩ : c = '*' ∧ ∃ t, s = '/' :: t := by
        cases s
        · simp at hc
        · simpa using hc
      have hread : reservedWord (.comment d) ('*' :: '/' :: t) =
          reservedWord (if d = 1 then .code else .comment (d - 1)) t := rfl
      by_cases hd1 : d = 1
      · subst hd1
        rw [scan_close]
        exact ⟨(ahead_comment).trans hread, nofun,
          by simp only [inComment, List.length_cons]; omega⟩
      · obtain ⟨e, rfl⟩ : ∃ e, d = e + 2 := ⟨d - 2, by omega⟩
        rw [scan_unnest]
        refine ⟨?_, fun _ => by simp only [inComment]; omega,
          by simp only [inComment, List.length_cons]; omega⟩
        rw [ahead_comment, ahead_comment]
        exact hread
    · have hread : reservedWord (.comment d) (c :: s) = reservedWord (.comment d) s := by
        simp [reservedWord, ho, hc]
      rw [scan_comment_text ho hc]
      refine ⟨?_, fun _ => by simp only [inComment]; omega, by simp [inComment]⟩
      rw [ahead_comment, ahead_comment]
      exact hread

/-- What each step of the scanner does to the reserved words ahead. -/
theorem follows_scan (l : Lexer) (hl : l.Good) : Follows l l.scan := by
  obtain ⟨start, g, d, input⟩ := l
  cases input with
  | nil =>
    cases start with
    | initial => exact ⟨rfl, rfl, .inl ⟨rfl, rfl⟩⟩
    | scString => rfl
    | scComment => rfl
  | cons c s =>
    cases start with
    | scString => exact follows_string
    | scComment =>
      have hd : 0 < d := hl rfl
      obtain ⟨e, rfl⟩ := Int.eq_ofNat_of_zero_le hd.le
      exact follows_comment (by omega)
    | initial =>
      by_cases hi : isIdChar c = true
      · cases hdigit : isDigit c with
        | true => exact follows_digit rfl rfl hdigit
        | false => exact follows_word rfl rfl hi hdigit
      · have hi' : isIdChar c = false := by simpa using hi
        by_cases hq : c = '"'
        · subst hq
          have hm : Rule.longest initialRules ('"' :: s) = some (1, .openString) := rfl
          rw [scan_initial rfl rfl hm]
          exact ⟨rfl, nofun, Nat.lt_succ_self _⟩
        · by_cases hcom : c = '/' ∧ s.head? = some '*'
          · obtain ⟨rfl, t, rfl⟩ : c = '/' ∧ ∃ t, s = '*' :: t := by
              cases s
              · simp at hcom
              · simpa using hcom
            have hm : Rule.longest initialRules ('/' :: '*' :: t) = some (2, .openComment) := rfl
            rw [scan_initial rfl rfl hm]
            exact ⟨rfl, fun _ => Int.one_pos, Nat.lt_succ_of_lt (Nat.lt_succ_self _)⟩
          · exact follows_sign rfl rfl hi' hq hcom

end steps

/-! ## The tokens of a text -/

variable {l l' : Lexer} {t : Token}

theorem good_initial (h : l.start = .initial) : l.Good := by
  intro hs
  rw [h] at hs
  cases hs

/-- A call of `lex` that returns takes away no reserved word but the one it delivers. -/
theorem lexLoop_ok {n : Nat} (hl : l.Good) (h : lexLoop n l = .ok (t, l')) :
    l.ahead = (t.isReserved || l'.ahead) ∧ l'.start = .initial ∧
      ((t = .plain .tokEof ∧ l'.input = []) ∨
        (t ≠ .plain .tokEof ∧ l'.input.length < l.input.length)) := by
  induction n generalizing l with
  | zero => cases h
  | succ n ih =>
    have hf := follows_scan l hl
    rw [lexLoop] at h
    cases hs : l.scan with
    | token u k =>
      rw [hs] at h hf
      cases h
      exact hf
    | more k =>
      rw [hs] at h hf
      obtain ⟨hahead, hgood, hlen⟩ := hf
      obtain ⟨hk, hstart, hend⟩ := ih hgood h
      exact ⟨hahead.trans hk, hstart, hend.imp_right fun h => ⟨h.1, h.2.trans hlen⟩⟩
    | stop e =>
      rw [hs] at h
      cases h

/-- A call of `lex` that throws leaves no reserved word behind. -/
theorem lexLoop_error {n : Nat} {e : Stop} (hl : l.Good) (hn : l.input.length < n)
    (h : lexLoop n l = .error e) : l.ahead = false := by
  induction n generalizing l with
  | zero => omega
  | succ n ih =>
    have hf := follows_scan l hl
    rw [lexLoop] at h
    cases hs : l.scan with
    | token u k =>
      rw [hs] at h
      cases h
    | more k =>
      rw [hs] at h hf
      obtain ⟨hahead, hgood, hlen⟩ := hf
      exact hahead.trans (ih hgood (by omega) h)
    | stop e =>
      rw [hs] at hf
      exact hf

theorem ahead_of_mem_tokens {n : Nat} (hl : l.Good) (ht : t ∈ tokens n l)
    (hr : t.isReserved = true) : l.ahead = true := by
  induction n generalizing l with
  | zero => simp [tokens] at ht
  | succ n ih =>
    rw [tokens] at ht
    cases h : l.lex with
    | error e => rw [h] at ht; cases ht
    | ok p =>
      obtain ⟨u, k⟩ := p
      obtain ⟨hahead, hstart, -⟩ := lexLoop_ok hl h
      rw [h] at ht
      rw [hahead]
      rcases List.mem_cons.mp ht with rfl | ht
      · simp [hr]
      · by_cases hu : u = .plain .tokEof
        · simp [hu] at ht
        · rw [if_neg hu] at ht
          simp [ih (good_initial hstart) ht]

theorem exists_mem_tokens {n : Nat} (hn : l.input.length < n) (hl : l.Good)
    (ha : l.ahead = true) : ∃ t ∈ tokens n l, t.isReserved = true := by
  induction n generalizing l with
  | zero => omega
  | succ n ih =>
    rw [tokens]
    cases h : l.lex with
    | error e =>
      rw [lexLoop_error hl (Nat.lt_succ_self _) h] at ha
      cases ha
    | ok p =>
      obtain ⟨u, k⟩ := p
      obtain ⟨hahead, hstart, hend⟩ := lexLoop_ok hl h
      by_cases hu : u.isReserved = true
      · exact ⟨u, List.mem_cons_self, hu⟩
      · have hk : k.ahead = true := by simpa [hahead, hu] using ha
        obtain ⟨-, hnil⟩ | ⟨hne, hlen⟩ := hend
        · rw [ahead_initial hstart, hnil] at hk
          cases hk
        · obtain ⟨v, hv, hvr⟩ := ih (by omega) (good_initial hstart) hk
          refine ⟨v, List.mem_cons_of_mem _ ?_, hvr⟩
          rwa [if_neg hne]

end Lexer

/-! ## What a user can reach -/

/-- The alternatives of `input_type`. -/
inductive Input
  | file (name : Str)
  | tweast
  deriving DecidableEq

/-- The members of `TigerDriver` that say what is parsed: the scanner and the actions of the
parser are given it. -/
structure TigerDriver where
  input : Input
  enableExtensions : Bool := false

/-- The syntax of the compiler itself is out of reach of a text: the scanner delivers none of its
tokens, and no run of the parser calls `metavar` unless `input_` holds a TWEAST. -/
def TigerDriver.Closed (d : TigerDriver) (text : Str) : Prop :=
  ∀ n, (∀ t ∈ Lexer.tokens n { input := text }, t.isReserved = false) ∧
    ∀ stack i ps, ParserRun (Lexer.tokens n { input := text }) stack i ps →
      ∀ p ∈ ps, p.metavar = true → d.input = .tweast

/-- The rules that call `metavar` are those of the words that only a TWEAST may hold. -/
theorem metavar_spec : ∀ p ∈ grammar, p.metavar = true →
    ∃ k ∈ [Terminal.tokChunks, .tokExp, .tokLvalue, .tokNamety], GSymbol.t k ∈ p.rhs := by
  decide

theorem isReserved_of_terminal {t : Token}
    (h : t.terminal ∈ [Terminal.tokChunks, .tokExp, .tokLvalue, .tokNamety]) :
    t.isReserved = true := by
  cases t with
  | plain k =>
    revert h
    cases k <;> decide
  | string | id | int => simp [Token.terminal] at h

/-- The syntax of the compiler is out of reach of exactly the texts that hold no reserved word:
the flag that should keep it from the other ones is not consulted. -/
theorem closed_iff (d : TigerDriver) (text : Str) :
    d.Closed text ↔ Lexer.reservedWord .code text = false := by
  have hgood : Lexer.Good { input := text } := Lexer.good_initial rfl
  constructor
  · intro h
    by_contra hr
    have hword : Lexer.reservedWord .code text = true := by simpa using hr
    have hahead : Lexer.ahead { input := text } = true := hword
    obtain ⟨t, ht, htr⟩ := Lexer.exists_mem_tokens (Nat.lt_succ_self _) hgood hahead
    rw [(h _).1 t ht] at htr
    cases htr
  · intro hr n
    have hnone : ∀ t ∈ Lexer.tokens n { input := text }, t.isReserved = false := by
      intro t ht
      by_contra htr
      have hahead := Lexer.ahead_of_mem_tokens hgood ht (by simpa using htr)
      have hr' : Lexer.ahead { input := text } = false := hr
      rw [hr'] at hahead
      cases hahead
    refine ⟨hnone, ?_⟩
    intro stack i ps hrun p hp hm
    obtain ⟨k, hk, hrhs⟩ := metavar_spec p (hrun.mem_grammar hp) hm
    obtain ⟨t, ht, rfl⟩ := hrun.mem_of_mem_rhs hp hrhs
    have htr := isReserved_of_terminal hk
    rw [hnone t ht] at htr
    cases htr

/-- The tokens of `_exp(3)`. -/
def expTokens : List Token := [.plain .tokExp, .plain .tokLparen, .int 3, .plain .tokRparen]

/-- A file that holds `_exp(3)` makes the parser call `metavar` on a file name. -/
theorem not_closed :
    ¬ ∀ (d : TigerDriver) (text : Str), d.enableExtensions = false → d.Closed text := by
  intro h
  have hclosed := h { input := .file "a.tig".toList } "_exp(3)".toList rfl 4
  have htokens : Lexer.tokens 4 { input := "_exp(3)".toList } = expTokens := rfl
  rw [htokens] at hclosed
  have h₁ := ParserRun.shift .start (show expTokens[0]? = some (.plain .tokExp) from rfl)
  have h₂ := ParserRun.shift h₁ (show expTokens[1]? = some (.plain .tokLparen) from rfl)
  have h₃ := ParserRun.shift h₂ (show expTokens[2]? = some (.int 3) from rfl)
  have h₄ := ParserRun.shift h₃ (show expTokens[3]? = some (.plain .tokRparen) from rfl)
  have hmem : ⟨.exp, [.t .tokExp, .t .tokLparen, .t .tokInt, .t .tokRparen], true⟩ ∈ grammar := by
    decide
  have hrun := ParserRun.reduce hmem h₄
  have hinput := hclosed.2 _ _ _ hrun _ List.mem_cons_self rfl
  cases hinput

end TigerCompiler
