import AnonCompiler.Lib.FirstTokens

/-!
# The grammar of statements

The tokens and productions of the frontend that a statement can reach, with the
grammar's own words.  A repetition `X*` and an option `X?` are nonterminals of their
own, and `Comma` is one for each kind of item.  The reference grammar has the same
productions but for the statements, where it has one `Stmt` that makes no difference
between matched and open ones.
-/

set_option autoImplicit false

namespace AnonCompiler.Frontend

open AnonCompiler.Lib

/-- A token, without the text of identifiers and constants; a constant's regular expression is
kept. -/
inductive Terminal where
  | commaTok | semi | assign | lparen | rparen | lbracket | rbracket | lbrace | rbrace
  | kwConst | kwInt | kwFloat | kwReturn | kwWhile | kwBreak | kwContinue | kwIf | kwElse
  | identTok | intDec | intOct | intHex | floatDec | floatHex
  | plus | minus | bang | star | slash | percent
  | eqEq | notEq | lt | gt | le | ge | andAnd | orOr
deriving DecidableEq, Repr

/-- The items of the lists that `Comma` is used for. -/
inductive Item where
  | constDef | constInitVal | varDef | initVal | exp
deriving DecidableEq, Repr

inductive Nonterminal where
  | decl | bType | constDecl | constDef | constInitVal | varDecl | varDef | initVal
  | block | blockItem | stmt | assignStmt | returnStmt | whileStmt | breakStmt | continueStmt
  | matchedStmt | openStmt | lVal | number | ident | intConst | floatConst
  | exp | primaryExp | unaryOp | unaryExp | funcCall
  | addExpOnlyOp | addExp | mulExpOnlyOp | mulExp | lOrExp | lAndExp
  | eqExpOnlyOp | eqExp | relExpOnlyOp | relExp | constExp
  /-- `BlockItem*` -/
  | blockItems
  /-- `Exp?` -/
  | optExp
  /-- `("[" ConstExp "]")*` -/
  | constDims
  /-- `("[" Exp "]")*` -/
  | indices
  /-- `("=" InitVal)?` -/
  | init
  | comma (item : Item)
  /-- `(T ",")*` -/
  | commaItems (item : Item)
  /-- `T?` -/
  | commaLast (item : Item)
deriving DecidableEq, Repr

def Item.nonterminal : Item → Nonterminal
  | .constDef => .constDef
  | .constInitVal => .constInitVal
  | .varDef => .varDef
  | .initVal => .initVal
  | .exp => .exp

def Terminal.all : List Terminal :=
  [.commaTok, .semi, .assign, .lparen, .rparen, .lbracket, .rbracket, .lbrace, .rbrace,
    .kwConst, .kwInt, .kwFloat, .kwReturn, .kwWhile, .kwBreak, .kwContinue, .kwIf, .kwElse,
    .identTok, .intDec, .intOct, .intHex, .floatDec, .floatHex,
    .plus, .minus, .bang, .star, .slash, .percent,
    .eqEq, .notEq, .lt, .gt, .le, .ge, .andAnd, .orOr]

def Item.all : List Item := [.constDef, .constInitVal, .varDef, .initVal, .exp]

def Nonterminal.plain : List Nonterminal :=
  [.decl, .bType, .constDecl, .constDef, .constInitVal, .varDecl, .varDef, .initVal,
    .block, .blockItem, .stmt, .assignStmt, .returnStmt, .whileStmt, .breakStmt, .continueStmt,
    .matchedStmt, .openStmt, .lVal, .number, .ident, .intConst, .floatConst,
    .exp, .primaryExp, .unaryOp, .unaryExp, .funcCall,
    .addExpOnlyOp, .addExp, .mulExpOnlyOp, .mulExp, .lOrExp, .lAndExp,
    .eqExpOnlyOp, .eqExp, .relExpOnlyOp, .relExp, .constExp,
    .blockItems, .optExp, .constDims, .indices, .init]

def Nonterminal.all : List Nonterminal :=
  Nonterminal.plain ++ Item.all.flatMap fun item =>
    [Nonterminal.comma item, Nonterminal.commaItems item, Nonterminal.commaLast item]

theorem Terminal.all_nodup : Terminal.all.Nodup := by decide

theorem Terminal.mem_all (t : Terminal) : t ∈ Terminal.all := by
  cases t <;> decide

theorem Nonterminal.all_nodup : Nonterminal.all.Nodup := by decide

theorem Nonterminal.mem_all (n : Nonterminal) : n ∈ Nonterminal.all := by
  rcases n with _ | _ | _ | _ | _ | _ | _ | _ | _ | _ | _ | _ | _ | _ | _ | _ | _ | _ | _ | _ | _ |
    _ | _ | _ | _ | _ | _ | _ | _ | _ | _ | _ | _ | _ | _ | _ | _ | _ | _ | _ | _ | _ | _ | _ |
    item | item | item
  all_goals first | decide | (cases item <;> decide)

instance : Fintype Terminal := ⟨⟨Terminal.all, Terminal.all_nodup⟩, Terminal.mem_all⟩

instance : Fintype Nonterminal := ⟨⟨Nonterminal.all, Nonterminal.all_nodup⟩, Nonterminal.mem_all⟩

instance : Coe Terminal (Symbol Terminal Nonterminal) := ⟨.terminal⟩
instance : Coe Nonterminal (Symbol Terminal Nonterminal) := ⟨.nonterminal⟩

open Terminal Nonterminal

abbrev Rules := List (List (Symbol Terminal Nonterminal))

/-- The productions of everything but statements, which both grammars share. -/
def commonRules : Nonterminal → Rules
  | .decl => [[constDecl], [varDecl]]
  | .bType => [[kwInt], [kwFloat]]
  | .constDecl => [[kwConst, bType, comma .constDef, semi]]
  | .constDef => [[ident, constDims, assign, constInitVal]]
  | .constInitVal => [[constExp], [lbrace, comma .constInitVal, rbrace]]
  | .varDecl => [[bType, comma .varDef, semi]]
  | .varDef => [[ident, constDims, init]]
  | .initVal => [[exp], [lbrace, comma .initVal, rbrace]]
  | .block => [[lbrace, blockItems, rbrace]]
  | .blockItem => [[decl], [stmt]]
  | .assignStmt => [[lVal, assign, exp, semi]]
  | .returnStmt => [[kwReturn, optExp, semi]]
  | .breakStmt => [[kwBreak, semi]]
  | .continueStmt => [[kwContinue, semi]]
  | .lVal => [[ident, indices]]
  | .number => [[intConst], [floatConst]]
  | .ident => [[identTok]]
  | .intConst => [[intDec], [intOct], [intHex]]
  | .floatConst => [[floatDec], [floatHex]]
  | .exp => [[lOrExp]]
  | .primaryExp => [[lparen, exp, rparen], [lVal], [number]]
  | .unaryOp => [[plus], [minus], [bang]]
  | .unaryExp => [[primaryExp], [unaryOp, unaryExp], [funcCall]]
  | .funcCall => [[ident, lparen, comma .exp, rparen]]
  | .addExpOnlyOp => [[plus], [minus]]
  | .addExp => [[mulExp], [addExp, addExpOnlyOp, mulExp]]
  | .mulExpOnlyOp => [[star], [slash], [percent]]
  | .mulExp => [[unaryExp], [mulExp, mulExpOnlyOp, unaryExp]]
  | .lOrExp => [[lAndExp], [lOrExp, orOr, lAndExp]]
  | .lAndExp => [[eqExp], [lAndExp, andAnd, eqExp]]
  | .eqExpOnlyOp => [[eqEq], [notEq]]
  | .eqExp => [[relExp], [eqExp, eqExpOnlyOp, relExp]]
  | .relExpOnlyOp => [[lt], [gt], [le], [ge]]
  | .relExp => [[addExp], [relExp, relExpOnlyOp, addExp]]
  | .constExp => [[exp]]
  | .blockItems => [[], [blockItem, blockItems]]
  | .optExp => [[], [exp]]
  | .constDims => [[], [lbracket, constExp, rbracket, constDims]]
  | .indices => [[], [lbracket, exp, rbracket, indices]]
  | .init => [[], [assign, initVal]]
  | .comma item => [[commaItems item, commaLast item]]
  | .commaItems item => [[], [item.nonterminal, commaTok, commaItems item]]
  | .commaLast item => [[], [item.nonterminal]]
  | .stmt | .whileStmt | .matchedStmt | .openStmt => []

/-- The productions of `Stmt`, `WhileStmt`, `MatchedStmt` and `OpenStmt`. -/
def stmtRules : Nonterminal → Rules
  | .stmt => [[matchedStmt], [openStmt]]
  | .whileStmt => [[kwWhile, lparen, exp, rparen, matchedStmt]]
  | .matchedStmt =>
    [[assignStmt], [block], [optExp, semi], [breakStmt], [continueStmt], [whileStmt],
      [kwIf, lparen, exp, rparen, matchedStmt, kwElse, matchedStmt], [returnStmt]]
  | .openStmt =>
    [[kwIf, lparen, exp, rparen, stmt], [kwIf, lparen, exp, rparen, matchedStmt, kwElse, openStmt]]
  | n => commonRules n

/-- The statements of the reference grammar. -/
def refStmtRules : Nonterminal → Rules
  | .stmt =>
    [[assignStmt], [block], [optExp, semi], [kwIf, lparen, exp, rparen, stmt],
      [kwIf, lparen, exp, rparen, stmt, kwElse, stmt], [kwWhile, lparen, exp, rparen, stmt],
      [breakStmt], [continueStmt], [returnStmt]]
  | n => commonRules n

/-- The grammar that the parser is generated from. -/
def sysy : Grammar Terminal Nonterminal where
  rules := stmtRules

/-- The reference grammar. -/
def reference : Grammar Terminal Nonterminal where
  rules := refStmtRules

/-! ## What a nonterminal starts with and what may follow it -/

/-- How tightly an operator binds; the brackets that continue an identifier bind closest. -/
def Terminal.level : Terminal → ℕ
  | .orOr => 1
  | .andAnd => 2
  | .eqEq | .notEq => 3
  | .lt | .gt | .le | .ge => 4
  | .plus | .minus => 5
  | .star | .slash | .percent => 6
  | .lparen | .lbracket => 7
  | _ => 0

def startsNumber : List Terminal := [intDec, intOct, intHex, floatDec, floatHex]

def startsExp : List Terminal := identTok :: lparen :: plus :: minus :: bang :: startsNumber

def startsStmt : List Terminal :=
  semi :: lbrace :: kwReturn :: kwWhile :: kwBreak :: kwContinue :: kwIf :: startsExp

def startsDecl : List Terminal := [kwConst, kwInt, kwFloat]

def Item.first : Item → List Terminal
  | .constDef | .varDef => [identTok]
  | .constInitVal | .initVal => lbrace :: startsExp
  | .exp => startsExp

def nullable : Nonterminal → Bool
  | .blockItems | .optExp | .constDims | .indices | .init
  | .comma _ | .commaItems _ | .commaLast _ => true
  | _ => false

def first : Nonterminal → List Terminal
  | .decl => startsDecl
  | .bType | .varDecl => [kwInt, kwFloat]
  | .constDecl => [kwConst]
  | .constDef | .varDef | .lVal | .ident | .funcCall | .assignStmt => [identTok]
  | .constInitVal | .initVal => lbrace :: startsExp
  | .block => [lbrace]
  | .blockItem | .blockItems => startsDecl ++ startsStmt
  | .stmt | .matchedStmt => startsStmt
  | .returnStmt => [kwReturn]
  | .whileStmt => [kwWhile]
  | .breakStmt => [kwBreak]
  | .continueStmt => [kwContinue]
  | .openStmt => [kwIf]
  | .number => startsNumber
  | .intConst => [intDec, intOct, intHex]
  | .floatConst => [floatDec, floatHex]
  | .primaryExp => identTok :: lparen :: startsNumber
  | .unaryOp => [plus, minus, bang]
  | .exp | .unaryExp | .addExp | .mulExp | .lOrExp | .lAndExp | .eqExp | .relExp | .constExp
  | .optExp => startsExp
  | .addExpOnlyOp => [plus, minus]
  | .mulExpOnlyOp => [star, slash, percent]
  | .eqExpOnlyOp => [eqEq, notEq]
  | .relExpOnlyOp => [lt, gt, le, ge]
  | .constDims | .indices => [lbracket]
  | .init => [assign]
  | .comma item | .commaItems item | .commaLast item => item.first

def follow : Nonterminal → Terminal → Bool
  | .exp | .constExp | .lOrExp => fun t => t.level < 1
  | .lAndExp => fun t => t.level < 2
  | .eqExp => fun t => t.level < 3
  | .relExp => fun t => t.level < 4
  | .addExp => fun t => t.level < 5
  | .mulExp => fun t => t.level < 6
  | .unaryExp | .primaryExp | .lVal | .indices => fun t => t.level < 7
  | .constDims => fun t => t != lbracket
  | .init | .varDef | .constDef | .initVal | .constInitVal =>
    fun t => t ∈ [commaTok, rparen, rbrace, semi]
  | .comma _ | .commaItems _ | .commaLast _ => fun t => t ∈ [rparen, rbrace, semi]
  | .blockItems => (· == rbrace)
  | .optExp => (· == semi)
  | .stmt | .openStmt | .blockItem => (· != kwElse)
  | _ => fun _ => true

/-- A nonterminal that another one starts with has a lower rank, left recursion apart. -/
def rank : Nonterminal → ℕ
  | .number | .lVal | .funcCall | .constDef | .varDef | .varDecl => 1
  | .primaryExp | .decl | .assignStmt => 2
  | .unaryExp => 3
  | .mulExp => 4
  | .addExp => 5
  | .relExp => 6
  | .eqExp => 7
  | .lAndExp => 8
  | .lOrExp => 9
  | .exp => 10
  | .constExp | .optExp | .initVal => 11
  | .constInitVal | .matchedStmt => 12
  | .stmt | .comma _ | .commaItems _ | .commaLast _ => 13
  | .blockItem => 14
  | .blockItems => 15
  | _ => 0

/-! ## The choices that one token makes -/

def isChain : Nonterminal → Bool
  | .lOrExp | .lAndExp | .eqExp | .relExp | .addExp | .mulExp => true
  | _ => false

def isComma : Nonterminal → Bool
  | .comma _ => true
  | _ => false

/-- `if (Exp)` with its branch. -/
abbrev ifForm (body : Nonterminal) : List (Symbol Terminal Nonterminal) :=
  [kwIf, lparen, exp, rparen, body]

abbrev ifElseForm (thenBranch elseBranch : Nonterminal) : List (Symbol Terminal Nonterminal) :=
  [kwIf, lparen, exp, rparen, thenBranch, kwElse, elseBranch]

/-- The alternatives that the next token does not decide between. -/
def conflicts : List (List (Symbol Terminal Nonterminal) × List (Symbol Terminal Nonterminal)) :=
  [([primaryExp], [funcCall]), ([assignStmt], [optExp, semi]), ([matchedStmt], [openStmt]),
    (ifForm stmt, ifElseForm matchedStmt openStmt)]

def lookahead : Lookahead Terminal Nonterminal where
  nullable := nullable
  first := first
  follow := follow
  rank := rank

def tables : Tables sysy where
  toLookahead := lookahead
  special n := isChain n || isComma n
  conflicts := conflicts
  nullable_closed := by decide +kernel
  first_closed := by decide +kernel
  ranked := by decide +kernel
  distinct := by decide +kernel

end AnonCompiler.Frontend
