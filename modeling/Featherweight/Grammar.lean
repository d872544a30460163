import Featherweight.Op

/-!
# Featherweight.Grammar

The grammar of programs: terminals, nonterminals and productions.

* `Terminal` and `Nonterminal` are the two kinds of `Symbol`.
* `Production.lhs` and `Production.rhs` are the rules; `Production.all` lists them.

Only the empty program derives the empty text, so every other nonterminal starts with a token.
The grammar is ambiguous in one place, a branch with two possible owners for its `else`.
-/

namespace Featherweight

inductive Keyword where
  | ifWord | elseWord | whileWord | functionWord | varWord | trueWord | falseWord | nullWord
  | printWord
deriving DecidableEq, Repr

namespace Keyword

def all : List Keyword :=
  [ifWord, elseWord, whileWord, functionWord, varWord, trueWord, falseWord, nullWord, printWord]

def text : Keyword → String
  | ifWord => "if"
  | elseWord => "else"
  | whileWord => "while"
  | functionWord => "function"
  | varWord => "var"
  | trueWord => "true"
  | falseWord => "false"
  | nullWord => "null"
  | printWord => "print"

/-- The keyword spelt by a word, if there is one. -/
def ofText? (word : String) : Option Keyword := all.find? fun k => k.text = word

theorem ofText?_text (k : Keyword) : ofText? k.text = some k := by cases k <;> decide

end Keyword

inductive Terminal where
  | eof
  | int
  | name
  | op (o : Op)
  | equal
  | comma
  | semicolon
  | lpar
  | rpar
  | lbrace
  | rbrace
  | keyword (k : Keyword)
deriving DecidableEq, Repr

namespace Terminal

/-- The name under which error messages list a terminal. -/
def label : Terminal → String
  | eof => "$END"
  | int => "INT"
  | name => "NAME"
  | op .add => "PLUS"
  | op .sub => "MINUS"
  | op .mul => "STAR"
  | op .div => "SLASH"
  | op .mod => "PERCENT"
  | op .gt => "GT"
  | op .ge => "GE"
  | op .lt => "LT"
  | op .le => "LE"
  | op .eq => "EQEQ"
  | equal => "EQUAL"
  | comma => "COMMA"
  | semicolon => "SEMICOLON"
  | lpar => "LPAR"
  | rpar => "RPAR"
  | lbrace => "LBRACE"
  | rbrace => "RBRACE"
  | keyword .ifWord => "IF"
  | keyword .elseWord => "ELSE"
  | keyword .whileWord => "WHILE"
  | keyword .functionWord => "FUNCTION"
  | keyword .varWord => "VAR"
  | keyword .trueWord => "TRUE"
  | keyword .falseWord => "FALSE"
  | keyword .nullWord => "NULL"
  | keyword .printWord => "PRINT"

/-- Every terminal, in the order of the labels: a list cut out of this one is sorted. -/
def all : List Terminal :=
  [eof, comma, keyword .elseWord, op .eq, equal, keyword .falseWord, keyword .functionWord,
   op .ge, op .gt, keyword .ifWord, int, lbrace, op .le, lpar, op .lt, op .sub, name,
   keyword .nullWord, op .mod, op .add, keyword .printWord, rbrace, rpar, semicolon, op .div,
   op .mul, keyword .trueWord, keyword .varWord, keyword .whileWord]

theorem mem_all (t : Terminal) : t ∈ all := by
  cases t with
  | op o => cases o <;> decide
  | keyword k => cases k <;> decide
  | _ => decide

end Terminal

/-- The binding levels of expressions, loosest first. -/
inductive Level where
  | expr | comparison | sum | product | unary | call | atom
deriving DecidableEq, Repr

inductive Nonterminal where
  | program
  /-- One statement or more. -/
  | stmts
  | stmt
  | body
  | params
  /-- The parameters after the first one, each with the comma in front of it. -/
  | moreParams
  | args
  /-- The arguments after the first one, each with the comma in front of it. -/
  | moreArgs
  | exp (l : Level)
deriving DecidableEq, Repr

namespace Nonterminal

def all : List Nonterminal :=
  [program, stmts, stmt, body, params, moreParams, args, moreArgs, exp .expr, exp .comparison,
   exp .sum, exp .product, exp .unary, exp .call, exp .atom]

theorem mem_all (A : Nonterminal) : A ∈ all := by
  cases A with
  | exp l => cases l <;> decide
  | _ => decide

end Nonterminal

inductive Symbol where
  | term (t : Terminal)
  | non (A : Nonterminal)
deriving DecidableEq, Repr

/-- The level an operator's expression has: comparisons do not chain, sums and products do. -/
def Op.level : Op → Level
  | .gt | .ge | .lt | .le | .eq => .comparison
  | .add | .sub => .sum
  | .mul | .div | .mod => .product

/-- The level of an operator's left operand. -/
def Op.leftLevel : Op → Level
  | .gt | .ge | .lt | .le | .eq => .sum
  | .add | .sub => .sum
  | .mul | .div | .mod => .product

/-- The level of an operator's right operand. -/
def Op.rightLevel : Op → Level
  | .gt | .ge | .lt | .le | .eq => .sum
  | .add | .sub => .product
  | .mul | .div | .mod => .unary

inductive Production where
  | programEmpty | programStmts
  | stmtsOne | stmtsMore
  | stmtExpr | stmtIfElse | stmtIf | stmtWhile | stmtFunction | stmtBlock | stmtEmpty
  | bodyStmts | bodyEmpty
  | paramsMore | paramsOne | paramsNone
  | moreParamsOne | moreParamsMore
  | argsMore | argsOne
  | moreArgsOne | moreArgsMore
  | exprVar | exprAssign | exprComparison
  | comparisonSum | sumProduct | productUnary | unaryCall | callAtom
  | binary (o : Op)
  | negation
  | callArgs | callEmpty
  | atomInt | atomTrue | atomFalse | atomNull | atomPrint | atomName | atomFunction | atomParen
deriving DecidableEq, Repr

namespace Production

def all : List Production :=
  [programEmpty, programStmts, stmtsOne, stmtsMore, stmtExpr, stmtIfElse, stmtIf, stmtWhile,
   stmtFunction, stmtBlock, stmtEmpty, bodyStmts, bodyEmpty, paramsMore, paramsOne, paramsNone,
   moreParamsOne, moreParamsMore, argsMore, argsOne, moreArgsOne, moreArgsMore, exprVar,
   exprAssign, exprComparison, comparisonSum, sumProduct, productUnary, unaryCall, callAtom]
  ++ Op.all.map binary
  ++ [negation, callArgs, callEmpty, atomInt, atomTrue, atomFalse, atomNull, atomPrint, atomName,
   atomFunction, atomParen]

theorem mem_all (p : Production) : p ∈ all := by
  cases p with
  | binary o => cases o <;> decide
  | _ => decide

def lhs : Production → Nonterminal
  | programEmpty | programStmts => .program
  | stmtsOne | stmtsMore => .stmts
  | stmtExpr | stmtIfElse | stmtIf | stmtWhile | stmtFunction | stmtBlock | stmtEmpty => .stmt
  | bodyStmts | bodyEmpty => .body
  | paramsMore | paramsOne | paramsNone => .params
  | moreParamsOne | moreParamsMore => .moreParams
  | argsMore | argsOne => .args
  | moreArgsOne | moreArgsMore => .moreArgs
  | exprVar | exprAssign | exprComparison => .exp .expr
  | comparisonSum => .exp .comparison
  | sumProduct => .exp .sum
  | productUnary => .exp .product
  | unaryCall | negation => .exp .unary
  | callAtom | callArgs | callEmpty => .exp .call
  | binary o => .exp o.level
  | atomInt | atomTrue | atomFalse | atomNull | atomPrint | atomName | atomFunction
  | atomParen => .exp .atom

def rhs : Production → List Symbol
  | programEmpty => []
  | programStmts => [.non .stmts]
  | stmtsOne => [.non .stmt]
  | stmtsMore => [.non .stmts, .non .stmt]
  | stmtExpr => [.non (.exp .expr), .term .semicolon]
  | stmtIfElse => [.term (.keyword .ifWord), .term .lpar, .non (.exp .expr), .term .rpar,
      .non .stmt, .term (.keyword .elseWord), .non .stmt]
  | stmtIf => [.term (.keyword .ifWord), .term .lpar, .non (.exp .expr), .term .rpar, .non .stmt]
  | stmtWhile => [.term (.keyword .whileWord), .term .lpar, .non (.exp .expr), .term .rpar,
      .non .stmt]
  | stmtFunction => [.term (.keyword .functionWord), .term .name, .non .params, .non .body]
  | stmtBlock => [.non .body]
  | stmtEmpty => [.term .semicolon]
  | bodyStmts => [.term .lbrace, .non .stmts, .term .rbrace]
  | bodyEmpty => [.term .lbrace, .term .rbrace]
  | paramsMore => [.term .lpar, .term .name, .non .moreParams, .term .rpar]
  | paramsOne => [.term .lpar, .term .name, .term .rpar]
  | paramsNone => [.term .lpar, .term .rpar]
  | moreParamsOne => [.term .comma, .term .name]
  | moreParamsMore => [.non .moreParams, .term .comma, .term .name]
  | argsMore => [.non (.exp .expr), .non .moreArgs]
  | argsOne => [.non (.exp .expr)]
  | moreArgsOne => [.term .comma, .non (.exp .expr)]
  | moreArgsMore => [.non .moreArgs, .term .comma, .non (.exp .expr)]
  | exprVar => [.term (.keyword .varWord), .term .name, .term .equal, .non (.exp .expr)]
  | exprAssign => [.term .name, .term .equal, .non (.exp .expr)]
  | exprComparison => [.non (.exp .comparison)]
  | comparisonSum => [.non (.exp .sum)]
  | sumProduct => [.non (.exp .product)]
  | productUnary => [.non (.exp .unary)]
  | unaryCall => [.non (.exp .call)]
  | callAtom => [.non (.exp .atom)]
  | binary o => [.non (.exp o.leftLevel), .term (.op o), .non (.exp o.rightLevel)]
  | negation => [.term (.op .sub), .non (.exp .unary)]
  | callArgs => [.non (.exp .call), .term .lpar, .non .args, .term .rpar]
  | callEmpty => [.non (.exp .call), .term .lpar, .term .rpar]
  | atomInt => [.term .int]
  | atomTrue => [.term (.keyword .trueWord)]
  | atomFalse => [.term (.keyword .falseWord)]
  | atomNull => [.term (.keyword .nullWord)]
  | atomPrint => [.term (.keyword .printWord), .term .lpar, .non (.exp .expr), .term .rpar]
  | atomName => [.term .name]
  | atomFunction => [.term (.keyword .functionWord), .non .params, .non .body]
  | atomParen => [.term .lpar, .non (.exp .expr), .term .rpar]

/-- Whether a production adds a level of its own to the structure of a program. The productions
that only pass a part on, the parentheses and the steps of a list do not. -/
def isLevel : Production → Bool
  | stmtsOne | stmtsMore | moreParamsOne | moreParamsMore | moreArgsOne | moreArgsMore
  | exprComparison | comparisonSum | sumProduct | productUnary | unaryCall | callAtom
  | atomParen => false
  | _ => true

theorem rhs_ne_nil {p : Production} (h : p ≠ programEmpty) : p.rhs ≠ [] := by
  cases p <;> simp_all [rhs]

end Production

end Featherweight
