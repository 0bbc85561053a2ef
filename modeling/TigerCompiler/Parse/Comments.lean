import TigerCompiler.Parse.Reserved

/-!
# Comments

The rules of `SC_COMMENT` count: the scanner is back where it was after the piece of the text
that balances the opening of the comment, and it is from there on in the state it would be in
had the text begun there.

The depth is an `int` in the source.  It never exceeds half the number of the bytes read.
-/

namespace TigerCompiler

namespace Lexer

/-- What the text of a comment is made of, read from left to right. -/
inductive Piece
  | opening | closing | other (c : Char)
  deriving DecidableEq

/-- The pieces of a text: an opening or a closing is taken where one begins. -/
def pieces : Str → List Piece
  | '/' :: '*' :: s => .opening :: pieces s
  | '*' :: '/' :: s => .closing :: pieces s
  | c :: s => .other c :: pieces s
  | [] => []

def Piece.text : Piece → Str
  | .opening => ['/', '*']
  | .closing => ['*', '/']
  | .other c => [c]

/-- What a piece adds to the depth. -/
def Piece.weight : Piece → Int
  | .opening => 1
  | .closing => -1
  | .other _ => 0

/-- The depth after some pieces. -/
def depthAfter (d : Int) (ps : List Piece) : Int := d + (ps.map Piece.weight).sum

/-- Read at depth `d`, the text `s` begins with what balances the comments that are open, and `r`
is what follows. -/
def Balances (d : Int) (s r : Str) : Prop :=
  ∃ ps, pieces s = ps ++ pieces r ∧ s = ps.flatMap Piece.text ++ r ∧ depthAfter d ps = 0 ∧
    ∀ qs, qs <+: ps → qs ≠ ps → 0 < depthAfter d qs

section balance

variable {d : Int} {s t r : Str} {p : Piece} {ps : List Piece}

@[simp] theorem depthAfter_nil : depthAfter d [] = d := by simp [depthAfter]

@[simp] theorem depthAfter_cons : depthAfter d (p :: ps) = depthAfter (d + p.weight) ps := by
  simp only [depthAfter, List.map_cons, List.sum_cons]
  omega

theorem pieces_other {c : Char} (ho : ¬ (c = '/' ∧ s.head? = some '*'))
    (hc : ¬ (c = '*' ∧ s.head? = some '/')) : pieces (c :: s) = .other c :: pieces s := by
  rw [pieces]
  · rintro t rfl rfl
    exact ho ⟨rfl, rfl⟩
  · rintro t rfl rfl
    exact hc ⟨rfl, rfl⟩

theorem not_head {a b c : Char} (h : ∀ t, c = a → s = b :: t → False) :
    ¬ (c = a ∧ s.head? = some b) := by
  rintro ⟨hc, hs⟩
  exact h s.tail hc (List.cons_head?_tail hs).symm

/-- One piece more. -/
theorem balances_piece (hd : 0 < d) (h : pieces (p.text ++ s) = p :: pieces s) :
    Balances d (p.text ++ s) r ↔
      if d + p.weight = 0 then r = s else Balances (d + p.weight) s r := by
  constructor
  · rintro ⟨qs, hqs, htext, hzero, hpos⟩
    cases qs with
    | nil =>
      rw [depthAfter_nil] at hzero
      omega
    | cons q qs =>
      rw [h, List.cons_append] at hqs
      obtain ⟨rfl, hrest⟩ := List.cons.inj hqs
      rw [List.flatMap_cons, List.append_assoc] at htext
      have hs := List.append_cancel_left htext
      split
      · rename_i hw
        -- The depth is zero after the first piece: it is the last one.
        by_cases hnil : qs = []
        · subst hnil
          exact hs.symm
        · have := hpos [p] ⟨qs, rfl⟩ (by simpa using Ne.symm hnil)
          rw [depthAfter_cons, depthAfter_nil] at this
          omega
      · refine ⟨qs, hrest, hs, by rwa [depthAfter_cons] at hzero, ?_⟩
        intro us hus hne
        have := hpos (p :: us) (List.cons_prefix_cons.mpr ⟨rfl, hus⟩) (by simpa using hne)
        rwa [depthAfter_cons] at this
  · intro hb
    split at hb
    · rename_i hw
      subst hb
      refine ⟨[p], h, by simp, by simpa using hw, ?_⟩
      intro qs hqs hne
      rcases List.prefix_cons_iff.mp hqs with rfl | ⟨us, rfl, hus⟩
      · rwa [depthAfter_nil]
      · rw [List.prefix_nil.mp hus] at hne
        exact absurd rfl hne
    · obtain ⟨qs, hqs, htext, hzero, hpos⟩ := hb
      refine ⟨p :: qs, by rw [h, hqs, List.cons_append], by simpa using htext,
        by rwa [depthAfter_cons], ?_⟩
      intro us hus hne
      rcases List.prefix_cons_iff.mp hus with rfl | ⟨vs, rfl, hvs⟩
      · rwa [depthAfter_nil]
      · rw [depthAfter_cons]
        exact hpos vs hvs (by simpa using hne)

theorem not_balances_nil (hd : 0 < d) : ¬ Balances d [] r := by
  rintro ⟨ps, hps, -, hzero, -⟩
  obtain ⟨rfl, -⟩ := List.append_eq_nil_iff.mp hps.symm
  rw [depthAfter_nil] at hzero
  omega

theorem balances_opening (hd : 0 < d) :
    Balances d ('/' :: '*' :: s) r ↔ Balances (d + 1) s r := by
  have h := balances_piece (s := s) (r := r) (p := .opening) hd (by rw [Piece.text]; rfl)
  rwa [Piece.weight, if_neg (by omega)] at h

theorem balances_closing (hd : 0 < d) :
    Balances d ('*' :: '/' :: s) r ↔ if d = 1 then r = s else Balances (d - 1) s r := by
  have h := balances_piece (s := s) (r := r) (p := .closing) hd (by rw [Piece.text]; rfl)
  rw [Piece.weight] at h
  refine h.trans ?_
  by_cases hd1 : d = 1
  · rw [if_pos hd1, if_pos (by omega)]
  · rw [if_neg hd1, if_neg (by omega), Int.sub_eq_add_neg]

theorem balances_other {c : Char} (hd : 0 < d) (ho : ¬ (c = '/' ∧ s.head? = some '*'))
    (hc : ¬ (c = '*' ∧ s.head? = some '/')) : Balances d (c :: s) r ↔ Balances d s r := by
  have h := balances_piece (s := s) (r := r) (p := .other c) hd (by
    rw [Piece.text]
    exact pieces_other ho hc)
  rw [Piece.weight, if_neg (by omega), Int.add_zero] at h
  exact h

end balance

/-! ## The scanner inside a comment -/

/-- The scanner goes from one state to another inside a comment. -/
inductive Inside : Lexer → Lexer → Prop
  | refl (l : Lexer) : Inside l l
  | step {l k m : Lexer} : l.start = .scComment → l.scan = .more k → Inside k m → Inside l m

/-- The scanner outside strings and comments. -/
def inCode (g : Str) (d : Int) (s : Str) : Lexer :=
  { start := .initial, grownString := g, depth := d, input := s }

/-- The scanner reads on to the end of the input without leaving the comment, and reports it. -/
def Reports (l : Lexer) : Prop :=
  ∃ m, Inside l m ∧ m.start = .scComment ∧ m.input = [] ∧
    m.scan = .stop (scanError " unclosed comment\n")

section inside

variable {l k m : Lexer} {g s t r : Str} {d : Nat}

theorem scan_opening (e : Int) : (inCode g e ('/' :: '*' :: s)).scan = .more (inComment g 1 s) := by
  have hm : Rule.longest initialRules ('/' :: '*' :: s) = some (2, .openComment) := rfl
  rw [scan_initial rfl rfl hm]
  rfl

/-- Inside a comment there is one way on. -/
theorem inside_iff (hs : l.start = .scComment) (h : l.scan = .more k) (hm : l ≠ m) :
    Inside l m ↔ Inside k m := by
  constructor
  · intro hi
    cases hi with
    | refl => exact absurd rfl hm
    | step _ h' hi =>
      rw [h] at h'
      cases h'
      exact hi
  · exact .step hs h

theorem inComment_ne_inCode {e : Int} : inComment g d s ≠ inCode g e r := by
  intro h
  have hs : Start.scComment = .initial := congrArg Lexer.start h
  cases hs

theorem reports_iff (hs : l.start = .scComment) (h : l.scan = .more k) :
    Reports l ↔ Reports k := by
  constructor
  · rintro ⟨m, hi, hm, hnil, hstop⟩
    cases hi with
    | refl =>
      rw [h] at hstop
      cases hstop
    | step _ h' hi =>
      rw [h] at h'
      cases h'
      exact ⟨m, hi, hm, hnil, hstop⟩
  · rintro ⟨m, hi, hm⟩
    exact ⟨m, .step hs h hi, hm⟩

theorem inside_initial (hs : l.start = .initial) : Inside l m ↔ m = l := by
  constructor
  · intro hi
    cases hi with
    | refl => rfl
    | step hs' =>
      rw [hs] at hs'
      cases hs'
  · rintro rfl
    exact .refl _

theorem not_reports_initial (hs : l.start = .initial) : ¬ Reports l := by
  rintro ⟨m, hi, hm, -⟩
  rw [(inside_initial hs).mp hi, hs] at hm
  cases hm

theorem inCode_inj {e : Int} : inCode g e s = inCode g e r ↔ s = r :=
  ⟨congrArg Lexer.input, congrArg _⟩

/-- The scanner comes to the end of a comment exactly where the text is balanced, and it reports
the comment exactly when the text is not. -/
theorem inComment_spec (hd : 0 < d) :
    (∀ r, Inside (inComment g d s) (inCode g 0 r) ↔ Balances d s r) ∧
      (Reports (inComment g d s) ↔ ∀ r, ¬ Balances d s r) := by
  have pos {d : Nat} (hd : 0 < d) : (0 : Int) < d := by omega
  induction s using pieces.induct generalizing d with
  | case1 s ih =>
    obtain ⟨ihr, ihe⟩ := ih (Nat.succ_pos d)
    constructor
    · intro r
      rw [inside_iff rfl scan_nest inComment_ne_inCode, balances_opening (pos hd)]
      exact ihr r
    · rw [reports_iff rfl scan_nest, ihe]
      exact forall_congr' fun r => not_congr (balances_opening (pos hd)).symm
  | case2 s ih =>
    by_cases hd1 : d = 1
    · subst hd1
      constructor
      · intro r
        rw [inside_iff rfl scan_close inComment_ne_inCode, balances_closing (pos hd),
          inside_initial rfl]
        exact inCode_inj
      · rw [reports_iff rfl scan_close]
        refine iff_of_false (not_reports_initial rfl) fun h => h s ?_
        rw [balances_closing (pos hd)]
        rfl
    · obtain ⟨e, rfl⟩ : ∃ e, d = e + 2 := ⟨d - 2, by omega⟩
      obtain ⟨ihr, ihe⟩ := ih (Nat.succ_pos e)
      have hb (r : Str) :
          Balances (e + 2 : Nat) ('*' :: '/' :: s) r ↔ Balances (e + 1 : Nat) s r := by
        rw [balances_closing (pos hd), if_neg (by omega),
          show ((e + 2 : Nat) : Int) - 1 = (e + 1 : Nat) by omega]
      constructor
      · intro r
        rw [inside_iff rfl scan_unnest inComment_ne_inCode, hb]
        exact ihr r
      · rw [reports_iff rfl scan_unnest, ihe]
        exact forall_congr' fun r => not_congr (hb r).symm
  | case3 c s ho hc ih =>
    have ho' := not_head ho
    have hc' := not_head hc
    obtain ⟨ihr, ihe⟩ := ih hd
    have hscan := scan_comment_text (g := g) (d := d) ho' hc'
    constructor
    · intro r
      rw [inside_iff rfl hscan inComment_ne_inCode, balances_other (pos hd) ho' hc']
      exact ihr r
    · rw [reports_iff rfl hscan, ihe]
      exact forall_congr' fun r => not_congr (balances_other (pos hd) ho' hc').symm
  | case4 =>
    constructor
    · intro r
      refine iff_of_false ?_ (not_balances_nil (pos hd))
      intro hi
      cases hi with
      | step _ h => cases h
    · exact iff_of_true ⟨_, .refl _, rfl, rfl, rfl⟩ fun r => not_balances_nil (pos hd)

end inside

/-! ## The scanner after a comment -/

/-- Two states that differ at most in the members their start condition has no use for. -/
structure Agree (l k : Lexer) : Prop where
  start : l.start = k.start
  input : l.input = k.input
  grownString : l.start = .scString → l.grownString = k.grownString
  depth : l.start = .scComment → l.depth = k.depth

/-- Matches that lead to the same token or the same error, in states that agree. -/
def Scanned.Agree : Scanned → Scanned → Prop
  | .token t l, .token u k => t = u ∧ l.Agree k
  | .more l, .more k => l.Agree k
  | .stop e, .stop f => e = f
  | _, _ => False

/-- Calls of `lex` with the same token or the same error, that leave states that agree. -/
def LexAgree : Except Stop (Token × Lexer) → Except Stop (Token × Lexer) → Prop
  | .ok (t, l), .ok (u, k) => t = u ∧ l.Agree k
  | .error e, .error f => e = f
  | _, _ => False

section agree

variable {l k m : Lexer}

theorem Agree.refl (l : Lexer) : Agree l l := ⟨rfl, rfl, fun _ => rfl, fun _ => rfl⟩

theorem agree_initial {g g' : Str} {d d' : Int} {s : Str} :
    Agree ⟨.initial, g, d, s⟩ ⟨.initial, g', d', s⟩ :=
  ⟨rfl, rfl, nofun, nofun⟩

theorem agree_scan (h : Agree l k) : l.scan.Agree k.scan := by
  obtain ⟨start, g, d, input⟩ := l
  obtain ⟨start', g', d', input'⟩ := k
  obtain ⟨rfl : start = start', rfl : input = input', hg, hd⟩ := h
  cases input with
  | nil => cases start <;> simp [scan, atEnd, Scanned.Agree, agree_initial]
  | cons c s =>
    cases start with
    | initial =>
      simp only [scan]
      cases Rule.longest initialRules (c :: s) with
      | none => exact agree_initial
      | some x =>
        obtain ⟨n, a⟩ := x
        cases a with
        | int =>
          simp only [initialAction]
          split
          · rfl
          · exact ⟨rfl, agree_initial⟩
        | token t => exact ⟨rfl, agree_initial⟩
        | blank => exact agree_initial
        | openString => exact ⟨rfl, rfl, fun _ => rfl, by rintro ⟨⟩⟩
        | openComment => exact ⟨rfl, rfl, by rintro ⟨⟩, fun _ => rfl⟩
        | id => exact ⟨rfl, agree_initial⟩
    | scString =>
      obtain rfl : g = g' := hg rfl
      have key (g : Str) (s : Str) : Agree ⟨.scString, g, d, s⟩ ⟨.scString, g, d', s⟩ :=
        ⟨rfl, rfl, fun _ => rfl, by rintro ⟨⟩⟩
      simp only [scan]
      cases Rule.longest stringRules (c :: s) with
      | none => exact key _ _
      | some x =>
        obtain ⟨n, a⟩ := x
        cases a with
        | close => exact ⟨rfl, agree_initial⟩
        | octal =>
          simp only [stringAction]
          split
          · rfl
          · exact key _ _
        | hex | char _ | text => exact key _ _
    | scComment =>
      obtain rfl : d = d' := hd rfl
      simp only [scan]
      cases Rule.longest commentRules (c :: s) with
      | none => exact ⟨rfl, rfl, by rintro ⟨⟩, fun _ => rfl⟩
      | some x =>
        obtain ⟨n, a⟩ := x
        cases a with
        | nest | text => exact ⟨rfl, rfl, by rintro ⟨⟩, fun _ => rfl⟩
        | unnest =>
          refine ⟨rfl, rfl, ?_, fun _ => rfl⟩
          intro hs
          simp only [ite_eq_iff, reduceCtorEq, and_false, or_self] at hs

theorem agree_lexLoop (n : Nat) (h : Agree l k) : LexAgree (lexLoop n l) (lexLoop n k) := by
  induction n generalizing l k with
  | zero => rfl
  | succ n ih =>
    have hs := agree_scan h
    rw [lexLoop, lexLoop]
    cases hl : l.scan with
    | token t l' =>
      cases hk : k.scan with
      | token u k' =>
        rw [hl, hk] at hs
        exact hs
      | more | stop =>
        rw [hl, hk] at hs
        exact hs.elim
    | more l' =>
      cases hk : k.scan with
      | more k' =>
        rw [hl, hk] at hs
        exact ih hs
      | token | stop =>
        rw [hl, hk] at hs
        exact hs.elim
    | stop e =>
      cases hk : k.scan with
      | stop f =>
        rw [hl, hk] at hs
        exact hs
      | token | more =>
        rw [hl, hk] at hs
        exact hs.elim

theorem agree_lex (h : Agree l k) : LexAgree l.lex k.lex := by
  unfold lex
  rw [h.input]
  exact agree_lexLoop _ h

/-- States that agree deliver the same tokens. -/
theorem agree_tokens (n : Nat) (h : Agree l k) : tokens n l = tokens n k := by
  induction n generalizing l k with
  | zero => rfl
  | succ n ih =>
    have hlex := agree_lex h
    rw [tokens, tokens]
    cases hl : l.lex with
    | error e =>
      cases hk : k.lex with
      | error f => rfl
      | ok y =>
        rw [hl, hk] at hlex
        exact hlex.elim
    | ok x =>
      cases hk : k.lex with
      | error f =>
        rw [hl, hk] at hlex
        exact hlex.elim
      | ok y =>
        rw [hl, hk] at hlex
        obtain ⟨ht, hagree⟩ := hlex
        simp only [ht, ih hagree]

/-- The rounds that the loop of `lex` is given do not matter as long as they are enough. -/
theorem lexLoop_congr {n m : Nat} (hl : l.Good) (hn : l.input.length < n)
    (hm : l.input.length < m) : lexLoop n l = lexLoop m l := by
  induction n generalizing l m with
  | zero => omega
  | succ n ih =>
    obtain ⟨m, rfl⟩ : ∃ k, m = k + 1 := ⟨m - 1, by omega⟩
    have hf := follows_scan l hl
    rw [lexLoop, lexLoop]
    cases hs : l.scan with
    | token | stop => rfl
    | more k =>
      rw [hs] at hf
      obtain ⟨-, hgood, hlen⟩ := hf
      exact ih hgood (by omega) (by omega)

theorem lex_more (hl : l.Good) (h : l.scan = .more k) : l.lex = k.lex := by
  have hf := follows_scan l hl
  rw [h] at hf
  obtain ⟨-, hgood, hlen⟩ := hf
  rw [lex, lexLoop, h]
  exact lexLoop_congr hgood hlen (Nat.lt_succ_self _)

theorem lex_inside (hl : l.Good) (h : Inside l m) : l.lex = m.lex := by
  induction h with
  | refl => rfl
  | step _ hs _ ih =>
    have hf := follows_scan _ hl
    rw [hs] at hf
    rw [lex_more hl hs]
    exact ih hf.2.1

theorem tokens_congr (n : Nat) (h : l.lex = k.lex) : tokens n l = tokens n k := by
  cases n with
  | zero => rfl
  | succ n => rw [tokens, tokens, h]

end agree

/-! ## What is proved of comments -/

/-- Any number of comments, one after the other, and what follows them. -/
inductive Comments : Str → Str → Prop
  | nil (s : Str) : Comments s s
  | cons {s t r : Str} : Balances 1 s t → Comments t r → Comments ('/' :: '*' :: s) r

/-- The scanner goes from one state to another without delivering a token. -/
inductive Passes : Lexer → Lexer → Prop
  | refl (l : Lexer) : Passes l l
  | step {l k m : Lexer} : l.scan = .more k → Passes k m → Passes l m

/-- The states of the scanner over the runs on a text. -/
inductive Reached (text : Str) : Lexer → Prop
  | start : Reached text { input := text }
  | more {l k : Lexer} : Reached text l → l.scan = .more k → Reached text k
  | token {l k : Lexer} {t : Token} : Reached text l → l.scan = .token t k → Reached text k

/-- The scanner skips the comment that is opened before `s`, wherever it meets it. -/
structure SkipsComment (g : Str) (d : Int) (s : Str) : Prop where
  /-- It consumes the text up to what balances the opening, and nothing else. -/
  consumes : ∀ r, Inside (inComment g 1 s) (inCode g 0 r) ↔ Balances 1 s r
  /-- It reports the comment when the end of the file comes first, and only then. -/
  reports : Reports (inComment g 1 s) ↔ ∀ r, ¬ Balances 1 s r
  /-- Nothing else is reported then. -/
  stops : (∀ r, ¬ Balances 1 s r) →
    (inCode g d ('/' :: '*' :: s)).lex = .error (scanError " unclosed comment\n")
  /-- It goes on as if the comment were not there. -/
  resumes : ∀ r, Balances 1 s r →
    LexAgree (inCode g d ('/' :: '*' :: s)).lex (inCode g d r).lex ∧
    ∀ n, tokens n (inCode g d ('/' :: '*' :: s)) = tokens n { input := r }

section comments

variable {l k : Lexer} {g s r text : Str} {d : Int}

theorem lex_opening : (inCode g d ('/' :: '*' :: s)).lex = (inComment g 1 s).lex :=
  lex_more (good_initial rfl) (scan_opening d)

theorem good_inComment {e : Nat} (he : 0 < e) : (inComment g e s).Good := by
  intro _
  simp only [inComment]
  omega

theorem skipsComment (g : Str) (d : Int) (s : Str) : SkipsComment g d s where
  consumes := (inComment_spec Nat.one_pos).1
  reports := (inComment_spec Nat.one_pos).2
  stops h := by
    obtain ⟨m, hi, hm, hnil, hstop⟩ := (inComment_spec (g := g) Nat.one_pos).2.mpr h
    rw [lex_opening, lex_inside (good_inComment Nat.one_pos) hi, lex, hnil]
    simp only [lexLoop, hstop]
  resumes r h := by
    have hi := ((inComment_spec (g := g) Nat.one_pos).1 r).mpr h
    have hlex : (inCode g d ('/' :: '*' :: s)).lex = (inCode g 0 r).lex :=
      lex_opening.trans (lex_inside (good_inComment Nat.one_pos) hi)
    constructor
    · rw [hlex]
      exact agree_lex agree_initial
    · intro n
      rw [tokens_congr n hlex]
      exact agree_tokens n agree_initial

theorem Inside.passes (h : Inside l k) : Passes l k := by
  induction h with
  | refl l => exact .refl l
  | step _ hs _ ih => exact .step hs ih

theorem Passes.trans {m : Lexer} (h : Passes l k) (h' : Passes k m) : Passes l m := by
  induction h with
  | refl => exact h'
  | step hs _ ih => exact .step hs (ih h')

/-- After any number of comments the scanner is back in its initial state. -/
theorem Comments.passes (h : Comments s r) (d : Int) :
    ∃ e, Passes (inCode g d s) (inCode g e r) := by
  induction h generalizing d with
  | nil s => exact ⟨d, .refl _⟩
  | cons hb _ ih =>
    obtain ⟨e, he⟩ := ih 0
    have hi := ((inComment_spec (g := g) Nat.one_pos).1 _).mpr hb
    exact ⟨e, (Passes.step (scan_opening d) hi.passes).trans he⟩

theorem Comments.tokens_eq (h : Comments s r) (n : Nat) :
    tokens n { input := s } = tokens n { input := r } := by
  induction h with
  | nil => rfl
  | cons hb _ ih => exact (((skipsComment [] 0 _).resumes _ hb).2 n).trans ih

/-- A comment is open at a depth of at most half the bytes read. -/
def Shallow (text : Str) (l : Lexer) : Prop :=
  l.input.length ≤ text.length ∧
    (l.start = .scComment → 2 * l.depth + l.input.length ≤ text.length)

theorem shallow_comment {e : Nat} (he : 0 < e) (hl : Shallow text (inComment g e s))
    (h : (inComment g e s).scan = .more k) : Shallow text k := by
  obtain ⟨hlen, hdepth⟩ := hl
  have hdepth := hdepth rfl
  simp only [inComment] at hlen hdepth
  induction s using pieces.induct with
  | case1 s =>
    rw [scan_nest] at h
    cases h
    simp only [List.length_cons] at hlen hdepth
    exact ⟨by simp only [inComment]; omega, fun _ => by simp only [inComment]; omega⟩
  | case2 s =>
    simp only [List.length_cons] at hlen hdepth
    by_cases he1 : e = 1
    · subst he1
      rw [scan_close] at h
      cases h
      exact ⟨by simp only; omega, by rintro ⟨⟩⟩
    · obtain ⟨e, rfl⟩ : ∃ f, e = f + 2 := ⟨e - 2, by omega⟩
      rw [scan_unnest] at h
      cases h
      exact ⟨by simp only [inComment]; omega, fun _ => by simp only [inComment]; omega⟩
  | case3 c s ho hc =>
    have ho' := not_head ho
    have hc' := not_head hc
    rw [scan_comment_text ho' hc'] at h
    cases h
    simp only [List.length_cons] at hlen hdepth
    exact ⟨by simp only [inComment]; omega, fun _ => by simp only [inComment]; omega⟩
  | case4 => cases h

theorem shallow_initial (hs : l.start = .initial) (hl : Shallow text l)
    (h : l.scan = .more k) : Shallow text k := by
  obtain ⟨start, g, d, input⟩ := l
  obtain rfl : start = .initial := hs
  obtain ⟨hlen, -⟩ := hl
  cases input with
  | nil => cases h
  | cons c s =>
    simp only [List.length_cons] at hlen
    cases hm : Rule.longest initialRules (c :: s) with
    | none =>
      simp only [scan, hm] at h
      cases h
      exact ⟨by simp only; omega, by rintro ⟨⟩⟩
    | some x =>
      obtain ⟨n, a⟩ := x
      rw [scan_initial rfl rfl hm] at h
      have hdrop : ((c :: s).drop n).length ≤ text.length := by
        rw [List.length_drop, List.length_cons]
        omega
      cases a with
      | int =>
        rw [initialAction] at h
        split at h <;> cases h
      | token | id => cases h
      | blank | openString =>
        cases h
        exact ⟨hdrop, by rintro ⟨⟩⟩
      | openComment =>
        cases h
        refine ⟨hdrop, fun _ => ?_⟩
        -- Only the rule for the opening itself has this action, and it takes two bytes.
        obtain ⟨r, hr, hrun⟩ := Rule.mem_of_longest hm
        obtain ⟨n', hn, hx⟩ := Option.map_eq_some_iff.mp hrun
        obtain ⟨rfl, hact⟩ := Prod.mk.inj hx
        have hmatched := matched_of_len hr hn
        rw [hact] at hmatched
        cases hmatched with
        | openComment t hc hs' hn' =>
          subst hc hs' hn'
          simp only [List.length_cons] at hlen
          simp only [List.drop_succ_cons, List.drop_zero]
          omega

theorem shallow_string (hs : l.start = .scString) (hl : Shallow text l)
    (h : l.scan = .more k) : Shallow text k := by
  obtain ⟨start, g, d, input⟩ := l
  obtain rfl : start = .scString := hs
  obtain ⟨hlen, -⟩ := hl
  cases input with
  | nil => cases h
  | cons c s =>
    simp only [List.length_cons] at hlen
    cases hm : Rule.longest stringRules (c :: s) with
    | none =>
      simp only [scan, hm] at h
      cases h
      exact ⟨by simp only; omega, by rintro ⟨⟩⟩
    | some x =>
      obtain ⟨n, a⟩ := x
      have hdrop : ((c :: s).drop n).length ≤ text.length := by
        rw [List.length_drop, List.length_cons]
        omega
      simp only [scan, hm] at h
      cases a with
      | close => cases h
      | octal =>
        simp only [stringAction] at h
        split at h
        · cases h
        · cases h
          exact ⟨hdrop, by rintro ⟨⟩⟩
      | hex | char _ | text =>
        cases h
        exact ⟨hdrop, by rintro ⟨⟩⟩

theorem Reached.spec (h : Reached text l) : l.Good ∧ Shallow text l := by
  induction h with
  | start => exact ⟨good_initial rfl, Nat.le_refl _, nofun⟩
  | @token l k u _ hs ih =>
    obtain ⟨hgood, hl⟩ := ih
    have hf := follows_scan _ hgood
    rw [hs] at hf
    obtain ⟨-, hstart, hend⟩ := hf
    have hlen : k.input.length ≤ l.input.length := by
      rcases hend with ⟨-, hnil⟩ | ⟨-, hlt⟩
      · rw [hnil]
        exact Nat.zero_le _
      · exact hlt.le
    refine ⟨good_initial hstart, hlen.trans hl.1, ?_⟩
    intro hk
    rw [hstart] at hk
    cases hk
  | @more l k _ hs ih =>
    obtain ⟨hgood, hl⟩ := ih
    have hf := follows_scan _ hgood
    rw [hs] at hf
    refine ⟨hf.2.1, ?_⟩
    cases hstart : l.start with
    | initial => exact shallow_initial hstart hl hs
    | scString => exact shallow_string hstart hl hs
    | scComment =>
      obtain ⟨start, g, d, input⟩ := l
      obtain rfl : start = .scComment := hstart
      have hpos : 0 < d := hgood rfl
      obtain ⟨e, rfl⟩ := Int.eq_ofNat_of_zero_le hpos.le
      exact shallow_comment (g := g) (by omega) hl hs

/-- What holds of the comments of a text, in all the states of the scanner over the text. -/
structure SkipsComments (text : Str) : Prop where
  /-- Where it meets the opening of a comment outside a string, it skips that comment. -/
  comment : ∀ l s, Reached text l → l.start = .initial → l.input = '/' :: '*' :: s →
    SkipsComment l.grownString l.depth s
  /-- It passes any number of comments, and is back in its initial state then. -/
  comments : ∀ l r, Reached text l → l.start = .initial → Comments l.input r →
    (∃ e, Passes l (inCode l.grownString e r)) ∧ ∀ n, tokens n l = tokens n { input := r }
  /-- A call that delivers a token leaves it in its initial state. -/
  initial : ∀ l k t, Reached text l → l.lex = .ok (t, k) → k.start = .initial
  /-- The depth stays between its bounds. -/
  depth : ∀ l, Reached text l → l.start = .scComment →
    0 < l.depth ∧ 2 * l.depth ≤ text.length

/-- Comments are skipped exactly. -/
theorem skipsComments (text : Str) : SkipsComments text where
  comment l s _ _ _ := skipsComment _ _ s
  comments l r _ hs h := by
    obtain ⟨start, g, d, input⟩ := l
    obtain rfl : start = .initial := hs
    refine ⟨h.passes d, fun n => ?_⟩
    exact (agree_tokens n agree_initial).trans (h.tokens_eq n)
  initial l k t hl h := (lexLoop_ok hl.spec.1 h).2.1
  depth l hl hs := by
    obtain ⟨hgood, -, hdepth⟩ := hl.spec
    have := hdepth hs
    exact ⟨hgood hs, by omega⟩

example : tokens 3 { input := "/*/ a /* **/ b */ 0 /**/".toList } =
    [.int 0, .plain .tokEof] := by decide

end comments

end Lexer

end TigerCompiler
