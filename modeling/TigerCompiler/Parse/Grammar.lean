import TigerCompiler.Parse.Scanner

/-!
# The grammar

The rules of `parse/parsetiger.yy`, and the runs of the parsers that Bison makes of them: a stack
of symbols, onto which tokens are shifted and whose top is reduced by a rule, the action of the
rule being executed.  Which of the two is done, and in which order, is left open, so that whatever
holds of every run holds of those of the generated parser.
-/

namespace TigerCompiler

/-- The symbols of the grammar that have rules. -/
inductive Nonterminal
  | program | exps | recordAttr | funcPrms | exp | lvalue | lvalueBig | chunks | functionChunk
  | funcdec | vardec | tychunk | tydec | ty | tyfields | tyfields1 | tyfield | typeid
  deriving DecidableEq, Repr

/-- A symbol of the grammar. -/
inductive GSymbol
  | t (t : Terminal)
  | n (n : Nonterminal)
  deriving DecidableEq, Repr

/-- A rule, and whether its action calls `metavar`. -/
structure Production where
  lhs : Nonterminal
  rhs : List GSymbol
  metavar : Bool := false
  deriving DecidableEq, Repr

open Terminal Nonterminal GSymbol

/-- A rule for an operator. -/
def binary (op : Terminal) : Production := ⟨exp, [n exp, t op, n exp], false⟩

/-- The rules, in the order of the file. -/
def grammar : List Production :=
  [⟨program, [n exp], false⟩,
    ⟨program, [n chunks], false⟩,
    ⟨exps, [], false⟩,
    ⟨exps, [n exp], false⟩,
    ⟨exps, [n exp, t tokSemi, n exps], false⟩,
    ⟨recordAttr, [t tokId, t tokEq, n exp, t tokComma, n recordAttr], false⟩,
    ⟨recordAttr, [t tokId, t tokEq, n exp], false⟩,
    ⟨funcPrms, [n exp, t tokComma, n funcPrms], false⟩,
    ⟨funcPrms, [n exp], false⟩,
    ⟨exp, [t tokInt], false⟩,
    ⟨exp, [t tokString], false⟩,
    ⟨exp, [t tokNil], false⟩,
    ⟨exp, [t tokId, t tokLbrack, n exp, t tokRbrack, t tokOf, n exp], false⟩,
    ⟨exp, [t tokId, t tokLbrace, n recordAttr, t tokRbrace], false⟩,
    ⟨exp, [t tokId, t tokLbrace, t tokRbrace], false⟩,
    ⟨exp, [n lvalue], false⟩,
    ⟨exp, [t tokId, t tokLparen, n funcPrms, t tokRparen], false⟩,
    ⟨exp, [t tokId, t tokLparen, t tokRparen], false⟩,
    ⟨exp, [t tokMinus, n exp], false⟩,
    binary tokTimes, binary tokDivide, binary tokPlus, binary tokMinus, binary tokGe,
    binary tokLe, binary tokNe, binary tokEq, binary tokLt, binary tokGt, binary tokAnd,
    binary tokOr,
    ⟨exp, [t tokLparen, n exps, t tokRparen], false⟩,
    ⟨exp, [n lvalue, t tokAssign, n exp], false⟩,
    ⟨exp, [t tokIf, n exp, t tokThen, n exp, t tokElse, n exp], false⟩,
    ⟨exp, [t tokIf, n exp, t tokThen, n exp], false⟩,
    ⟨exp, [t tokWhile, n exp, t tokDo, n exp], false⟩,
    ⟨exp, [t tokFor, t tokId, t tokAssign, n exp, t tokTo, n exp, t tokDo, n exp], false⟩,
    ⟨exp, [t tokBreak], false⟩,
    ⟨exp, [t tokLet, n chunks, t tokIn, n exps, t tokEnd], false⟩,
    ⟨exp, [t tokExp, t tokLparen, t tokInt, t tokRparen], true⟩,
    ⟨lvalue, [t tokId], false⟩,
    ⟨lvalue, [n lvalueBig], false⟩,
    ⟨lvalue, [t tokLvalue, t tokLparen, t tokInt, t tokRparen], true⟩,
    ⟨lvalueBig, [t tokId, t tokDot, t tokId], false⟩,
    ⟨lvalueBig, [t tokId, t tokLbrack, n exp, t tokRbrack], false⟩,
    ⟨lvalueBig, [n lvalueBig, t tokDot, t tokId], false⟩,
    ⟨lvalueBig, [n lvalueBig, t tokLbrack, n exp, t tokRbrack], false⟩,
    ⟨chunks, [], false⟩,
    ⟨chunks, [n tychunk, n chunks], false⟩,
    ⟨chunks, [n functionChunk, n chunks], false⟩,
    ⟨chunks, [n vardec, n chunks], false⟩,
    ⟨chunks, [t tokImport, t tokString], false⟩,
    ⟨chunks, [t tokChunks, t tokLparen, t tokInt, t tokRparen, n chunks], true⟩,
    ⟨functionChunk, [n funcdec], false⟩,
    ⟨functionChunk, [n funcdec, n functionChunk], false⟩,
    ⟨funcdec, [t tokFunction, t tokId, t tokLparen, n tyfields, t tokRparen, t tokColon, n typeid,
      t tokEq, n exp], false⟩,
    ⟨funcdec, [t tokFunction, t tokId, t tokLparen, n tyfields, t tokRparen, t tokEq, n exp],
      false⟩,
    ⟨funcdec, [t tokPrimitive, t tokId, t tokLparen, n tyfields, t tokRparen, t tokColon,
      n typeid], false⟩,
    ⟨funcdec, [t tokPrimitive, t tokId, t tokLparen, n tyfields, t tokRparen], false⟩,
    ⟨vardec, [t tokVar, t tokId, t tokColon, n typeid, t tokAssign, n exp], false⟩,
    ⟨vardec, [t tokVar, t tokId, t tokAssign, n exp], false⟩,
    ⟨vardec, [t tokVar, t tokId, t tokColon, n typeid], false⟩,
    ⟨vardec, [t tokVar, t tokId], false⟩,
    ⟨tychunk, [n tydec], false⟩,
    ⟨tychunk, [n tydec, n tychunk], false⟩,
    ⟨tydec, [t tokType, t tokId, t tokEq, n ty], false⟩,
    ⟨ty, [n typeid], false⟩,
    ⟨ty, [t tokLbrace, n tyfields, t tokRbrace], false⟩,
    ⟨ty, [t tokArray, t tokOf, n typeid], false⟩,
    ⟨tyfields, [], false⟩,
    ⟨tyfields, [n tyfields1], false⟩,
    ⟨tyfields1, [n tyfields1, t tokComma, n tyfield], false⟩,
    ⟨tyfields1, [n tyfield], false⟩,
    ⟨tyfield, [t tokId, t tokColon, n typeid], false⟩,
    ⟨typeid, [t tokId], false⟩,
    ⟨typeid, [t tokNamety, t tokLparen, t tokInt, t tokRparen], true⟩]

/-- A run of the parser on the tokens `ts`: the stack, the number of tokens shifted, and the rules
whose actions were executed. -/
inductive ParserRun (ts : List Token) : List GSymbol → Nat → List Production → Prop
  | start : ParserRun ts [] 0 []
  | shift {stack : List GSymbol} {i : Nat} {ps : List Production} {tok : Token} :
      ParserRun ts stack i ps → ts[i]? = some tok →
      ParserRun ts (t tok.terminal :: stack) (i + 1) ps
  | reduce {stack : List GSymbol} {i : Nat} {ps : List Production} {p : Production} :
      p ∈ grammar → ParserRun ts (p.rhs.reverse ++ stack) i ps →
      ParserRun ts (n p.lhs :: stack) i (p :: ps)

namespace ParserRun

variable {ts : List Token} {stack : List GSymbol} {i : Nat} {ps : List Production}

/-- The terminals on the stack were delivered. -/
theorem mem_of_mem_stack (h : ParserRun ts stack i ps) {k : Terminal} (hk : t k ∈ stack) :
    ∃ tok ∈ ts, tok.terminal = k := by
  induction h with
  | start => cases hk
  | shift _ htok ih =>
    rcases List.mem_cons.mp hk with heq | hk
    · cases heq
      exact ⟨_, List.mem_of_getElem? htok, rfl⟩
    · exact ih hk
  | reduce _ _ ih =>
    rcases List.mem_cons.mp hk with heq | hk
    · cases heq
    · exact ih (List.mem_append_right _ hk)

/-- A rule whose action was executed had its right-hand side on the stack. -/
theorem mem_of_mem_rhs (h : ParserRun ts stack i ps) {p : Production} (hp : p ∈ ps)
    {k : Terminal} (hk : t k ∈ p.rhs) : ∃ tok ∈ ts, tok.terminal = k := by
  induction h with
  | start => cases hp
  | shift _ _ ih => exact ih hp
  | reduce _ hrun ih =>
    rcases List.mem_cons.mp hp with rfl | hp
    · exact hrun.mem_of_mem_stack (List.mem_append_left _ (List.mem_reverse.mpr hk))
    · exact ih hp

theorem mem_grammar (h : ParserRun ts stack i ps) {p : Production} (hp : p ∈ ps) :
    p ∈ grammar := by
  induction h with
  | start => cases hp
  | shift _ _ ih => exact ih hp
  | reduce hmem _ ih =>
    rcases List.mem_cons.mp hp with rfl | hp
    · exact hmem
    · exact ih hp

end ParserRun

end TigerCompiler
