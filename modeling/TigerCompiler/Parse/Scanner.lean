import TigerCompiler.Misc.Error
import TigerCompiler.Misc.Munch

/-!
# The scanner

`parse/scantiger.ll`.  The rules of each start condition are tables in the order of the file, and
the scanner takes the longest match, the first rule when several match as much.  What no rule
matches goes through the default rule, which drops it.

Locations are left out: the texts of the errors are those put on the stream around them.
-/

namespace TigerCompiler

/-- The tokens of `parsetiger.yy` that the scanner makes. -/
inductive Terminal
  | tokString | tokId | tokInt
  | tokAnd | tokArray | tokAssign | tokBreak | tokCast | tokColon | tokComma | tokDivide | tokDo
  | tokDot | tokElse | tokEnd | tokEq | tokFor | tokFunction | tokGe | tokGt | tokIf | tokImport
  | tokIn | tokLbrace | tokLbrack | tokLe | tokLet | tokLparen | tokLt | tokMinus | tokNe | tokNil
  | tokOf | tokOr | tokPlus | tokPrimitive | tokRbrace | tokRbrack | tokRparen | tokSemi | tokThen
  | tokTimes | tokTo | tokType | tokVar | tokWhile
  | tokExp | tokLvalue | tokChunks | tokNamety
  | tokEof
  deriving DecidableEq, Repr

/-- A token with its semantic value. -/
inductive Token
  | string (value : Str)
  | id (name : Symbol)
  | int (value : Nat)
  /-- A token without a value. -/
  | plain (t : Terminal)
  deriving DecidableEq, Repr

/-- The kind of a token. -/
def Token.terminal : Token → Terminal
  | .string _ => .tokString
  | .id _ => .tokId
  | .int _ => .tokInt
  | .plain t => t

/-- The start conditions. -/
inductive Start
  | initial | scString | scComment
  deriving DecidableEq, Repr

/-- `Lexer`: its start condition, its members and what is left of the input. -/
structure Lexer where
  start : Start := .initial
  grownString : Str := []
  depth : Int := 0
  input : Str

namespace Lexer

/-! ## Patterns -/

def isDigit (c : Char) : Bool := '0' ≤ c && c ≤ '9'

def isOctal (c : Char) : Bool := '0' ≤ c && c ≤ '7'

def isLetter (c : Char) : Bool := ('a' ≤ c && c ≤ 'z') || ('A' ≤ c && c ≤ 'Z')

def isHex (c : Char) : Bool := isDigit c || ('a' ≤ c && c ≤ 'f') || ('A' ≤ c && c ≤ 'F')

/-- `[0-9a-zA-Z_]`. -/
def isIdChar (c : Char) : Bool := isDigit c || isLetter c || c = '_'

/-- The text of a quoted pattern. -/
def lit (w s : Str) : Option Nat := if w.isPrefixOf s then some w.length else none

/-- `{int}`. -/
def intLen : Str → Option Nat
  | c :: s => if isDigit c then some ((c :: s).takeWhile isDigit).length else none
  | [] => none

/-- `[a-zA-Z][0-9a-zA-Z_]*`. -/
def wordLen : Str → Option Nat
  | c :: s => if isLetter c then some ((c :: s).takeWhile isIdChar).length else none
  | [] => none

/-- `{id}`. -/
def idLen (s : Str) : Option Nat :=
  match wordLen s with
  | some n => some n
  | none => lit "_main".toList s

/-- `{reserved_id}`. -/
def reservedLen : Str → Option Nat
  | c :: s => if c = '_' then some ((c :: s).takeWhile isIdChar).length else none
  | [] => none

/-- `{whitechar}`. -/
def whiteLen : Str → Option Nat
  | c :: _ => if c = ' ' || c = '\t' then some 1 else none
  | [] => none

/-- `{endofline}`. -/
def lineLen : Str → Option Nat
  | '\n' :: '\r' :: _ => some 2
  | '\r' :: '\n' :: _ => some 2
  | c :: _ => if c = '\n' || c = '\r' then some 1 else none
  | [] => none

/-- `\\x[0-9a-fA-F]{2}`. -/
def hexLen : Str → Option Nat
  | '\\' :: 'x' :: a :: b :: _ => if isHex a && isHex b then some 4 else none
  | _ => none

/-- `\\[0-7]{3}`. -/
def octalLen : Str → Option Nat
  | '\\' :: a :: b :: c :: _ => if isOctal a && isOctal b && isOctal c then some 4 else none
  | _ => none

/-- `.` is every byte but a newline. -/
def anyLen : Str → Option Nat
  | c :: _ => if c = '\n' then none else some 1
  | [] => none

/-! ## Rules -/

/-- What the rules of `SC_STRING` do. -/
inductive StringAction
  | close | hex | octal | char (c : Char) | text

/-- The rules of `SC_STRING`. -/
def stringRules : List (Rule Char StringAction) :=
  [⟨lit ['"'], .close⟩, ⟨hexLen, .hex⟩, ⟨octalLen, .octal⟩,
    ⟨lit ['\\', 'n'], .char '\n'⟩, ⟨lit ['\\', 'a'], .char '\x07'⟩,
    ⟨lit ['\\', 'b'], .char '\x08'⟩, ⟨lit ['\\', 'f'], .char '\x0c'⟩,
    ⟨lit ['\\', 'r'], .char '\r'⟩, ⟨lit ['\\', 't'], .char '\t'⟩,
    ⟨lit ['\\', 'v'], .char '\x0b'⟩, ⟨lit ['\\'], .char '\\'⟩,
    ⟨lit ['\\', '"'], .char '"'⟩, ⟨anyLen, .text⟩]

/-- What the rules of `SC_COMMENT` do. -/
inductive CommentAction
  | nest | unnest | text

/-- The rules of `SC_COMMENT`. -/
def commentRules : List (Rule Char CommentAction) :=
  [⟨lit ['/', '*'], .nest⟩, ⟨lit ['*', '/'], .unnest⟩, ⟨anyLen, .text⟩]

/-- What the rules of `INITIAL` do. -/
inductive InitialAction
  | int | token (t : Terminal) | blank | openString | openComment | id

/-- The words and the signs of the language, before the rules for blanks. -/
def literals : List (Str × Terminal) :=
  [("array".toList, .tokArray), ("if".toList, .tokIf), ("then".toList, .tokThen),
    ("else".toList, .tokElse), ("while".toList, .tokWhile), ("for".toList, .tokFor),
    ("to".toList, .tokTo), ("do".toList, .tokDo), ("let".toList, .tokLet), ("in".toList, .tokIn),
    ("end".toList, .tokEnd), ("of".toList, .tokOf), ("break".toList, .tokBreak),
    ("nil".toList, .tokNil), ("function".toList, .tokFunction), ("var".toList, .tokVar),
    ("type".toList, .tokType), ("import".toList, .tokImport),
    ("primitive".toList, .tokPrimitive),
    (",".toList, .tokComma), (":".toList, .tokColon), (";".toList, .tokSemi),
    ("(".toList, .tokLparen), (")".toList, .tokRparen), ("[".toList, .tokLbrack),
    ("]".toList, .tokRbrack), (['\x7b'], .tokLbrace), (['\x7d'], .tokRbrace),
    (".".toList, .tokDot), ("+".toList, .tokPlus), ("-".toList, .tokMinus),
    ("*".toList, .tokTimes), ("/".toList, .tokDivide), ("=".toList, .tokEq),
    ("<>".toList, .tokNe), ("<".toList, .tokLt), ("<=".toList, .tokLe), (">".toList, .tokGt),
    (">=".toList, .tokGe), ("&".toList, .tokAnd), ("|".toList, .tokOr),
    (":=".toList, .tokAssign)]

/-- The words of the compiler itself. -/
def reservedWords : List (Str × Terminal) :=
  [("_chunks".toList, .tokChunks), ("_exp".toList, .tokExp), ("_lvalue".toList, .tokLvalue),
    ("_namety".toList, .tokNamety), ("_cast".toList, .tokCast)]

/-- The rule for a word or a sign. -/
def tokenRule (p : Str × Terminal) : Rule Char InitialAction := ⟨lit p.1, .token p.2⟩

/-- The rules of `INITIAL`. -/
def initialRules : List (Rule Char InitialAction) :=
  ⟨intLen, .int⟩ :: (literals.map tokenRule ++
    ⟨whiteLen, .blank⟩ :: ⟨lineLen, .blank⟩ :: ⟨lit ['"'], .openString⟩ ::
    ⟨lit ['/', '*'], .openComment⟩ :: (reservedWords.map tokenRule ++
    [⟨idLen, .id⟩, ⟨reservedLen, .id⟩]))

/-! ## Actions -/

/-- The value of a digit in base 16. -/
def digitValue (c : Char) : Nat :=
  if isDigit c then c.toNat - '0'.toNat
  else if 'a' ≤ c && c ≤ 'f' then c.toNat - 'a'.toNat + 10
  else c.toNat - 'A'.toNat + 10

/-- `strtol`, and the decoding of an integer. -/
def valueOf (base : Nat) (s : Str) : Nat :=
  s.foldl (fun n c => base * n + digitValue c) 0

/-- The error that ends the scanning; `why` follows the location. -/
def scanError (why : String) : Stop :=
  .error ⟨.scan, ("Lexing Error was encountered at line" ++ why).toList⟩

/-- What one match leads to. -/
inductive Scanned
  /-- A token is returned to the parser. -/
  | token (t : Token) (l : Lexer)
  /-- The scanner goes on. -/
  | more (l : Lexer)
  /-- The error object is thrown. -/
  | stop (e : Stop)

/-- The actions of `SC_STRING`. -/
def stringAction (l : Lexer) (text rest : Str) : StringAction → Scanned
  | .close => .token (.string l.grownString) { l with start := .initial, input := rest }
  | .hex =>
    .more { l with
      grownString := l.grownString ++ [Char.ofNat (valueOf 16 (text.drop 2))], input := rest }
  | .octal =>
    if valueOf 8 (text.drop 1) > 255 then .stop (scanError "\n")
    else .more { l with
      grownString := l.grownString ++ [Char.ofNat (valueOf 8 (text.drop 1))], input := rest }
  | .char c => .more { l with grownString := l.grownString ++ [c], input := rest }
  | .text => .more { l with grownString := l.grownString ++ text, input := rest }

/-- The actions of `SC_COMMENT`. -/
def commentAction (l : Lexer) (rest : Str) : CommentAction → Scanned
  | .nest => .more { l with depth := l.depth + 1, input := rest }
  | .unnest =>
    .more { l with
      depth := l.depth - 1
      start := if l.depth - 1 = 0 then .initial else l.start
      input := rest }
  | .text => .more { l with input := rest }

/-- `INT_MAX`. -/
def intMax : Nat := 2147483647

/-- The actions of `INITIAL`. -/
def initialAction (l : Lexer) (text rest : Str) : InitialAction → Scanned
  | .int =>
    if valueOf 10 text > intMax then .stop (scanError " INT_MAX value\n")
    else .token (.int (valueOf 10 text)) { l with input := rest }
  | .token t => .token (.plain t) { l with input := rest }
  | .blank => .more { l with input := rest }
  | .openString => .more { l with grownString := [], start := .scString, input := rest }
  | .openComment => .more { l with depth := 1, start := .scComment, input := rest }
  | .id => .token (.id text) { l with input := rest }

/-- The end of the input. -/
def atEnd (l : Lexer) : Scanned :=
  match l.start with
  | .initial => .token (.plain .tokEof) l
  | .scString => .stop (scanError " unclosed string\n")
  | .scComment => .stop (scanError " unclosed comment\n")

/-- What the scanner does where it stands: a match, or the default rule. -/
def scan (l : Lexer) : Scanned :=
  match l.input with
  | [] => l.atEnd
  | _ :: s =>
    match l.start with
    | .initial =>
      match Rule.longest initialRules l.input with
      | some (n, a) => l.initialAction (l.input.take n) (l.input.drop n) a
      | none => .more { l with input := s }
    | .scString =>
      match Rule.longest stringRules l.input with
      | some (n, a) => l.stringAction (l.input.take n) (l.input.drop n) a
      | none => .more { l with input := s }
    | .scComment =>
      match Rule.longest commentRules l.input with
      | some (n, a) => l.commentAction (l.input.drop n) a
      | none => .more { l with input := s }

/-- The loop of `lex`. -/
def lexLoop : Nat → Lexer → Except Stop (Token × Lexer)
  | 0, _ => .error .outOfFuel
  | n + 1, l =>
    match l.scan with
    | .token t l' => .ok (t, l')
    | .more l' => lexLoop n l'
    | .stop e => .error e

/-- `lex`: each round of its loop takes some of the input. -/
def lex (l : Lexer) : Except Stop (Token × Lexer) :=
  lexLoop (l.input.length + 1) l

/-- The tokens that the first `n` calls of `lex` deliver, up to the end of the input. -/
def tokens : Nat → Lexer → List Token
  | 0, _ => []
  | n + 1, l =>
    match l.lex with
    | .ok (t, l') => t :: if t = .plain .tokEof then [] else tokens n l'
    | .error _ => []

end Lexer

end TigerCompiler
