import Featherweight.Grammar

/-!
# Featherweight.Grammar.State

The states of the shift-reduce parser.

* A `State` says how much has been read of the productions in progress; its comment shows them,
  with a point after the part that is behind.
* `State.moves` are the symbols that may come next and where each leads.
* `State.done?` is the production that is complete, and `follow` the terminals before which a
  complete production of a nonterminal may be taken.
* `State.action?` puts them together. Reading on wins over completing, so an `else` belongs to the
  nearest branch that lacks one.
-/

namespace Featherweight

inductive State where
  /-- `program : · stmts` -/
  | start
  /-- `program : stmts ·` and `stmts : stmts · stmt` -/
  | stmts
  /-- `stmts : stmt ·` -/
  | stmt
  /-- `stmts : stmts stmt ·` -/
  | stmtsStmt
  /-- `stmt : expr · ;` -/
  | expr
  /-- `stmt : expr ; ·` -/
  | exprSemicolon
  /-- `stmt : if · ( expr ) stmt` with or without `else stmt` -/
  | ifWord
  /-- `stmt : if ( · expr ) stmt` with or without `else stmt` -/
  | ifOpen
  /-- `stmt : if ( expr · ) stmt` with or without `else stmt` -/
  | ifTest
  /-- `stmt : if ( expr ) · stmt` with or without `else stmt` -/
  | ifClose
  /-- `stmt : if ( expr ) stmt ·` and `stmt : if ( expr ) stmt · else stmt` -/
  | ifThen
  /-- `stmt : if ( expr ) stmt else · stmt` -/
  | ifElse
  /-- `stmt : if ( expr ) stmt else stmt ·` -/
  | ifElseStmt
  /-- `stmt : while · ( expr ) stmt` -/
  | whileWord
  /-- `stmt : while ( · expr ) stmt` -/
  | whileOpen
  /-- `stmt : while ( expr · ) stmt` -/
  | whileTest
  /-- `stmt : while ( expr ) · stmt` -/
  | whileClose
  /-- `stmt : while ( expr ) stmt ·` -/
  | whileStmt
  /-- `stmt : function · name params body` and `atom : function · params body` -/
  | functionWord
  /-- `stmt : function name · params body` -/
  | functionName
  /-- `stmt : function name params · body` -/
  | functionNameParams
  /-- `stmt : function name params body ·` -/
  | functionNameBody
  /-- `stmt : body ·` -/
  | body
  /-- `stmt : ; ·` -/
  | semicolon
  /-- `body : { · stmts }` and `body : { · }` -/
  | lbrace
  /-- `body : { stmts · }` and `stmts : stmts · stmt` -/
  | lbraceStmts
  /-- `body : { stmts } ·` -/
  | rbraceStmts
  /-- `body : { } ·` -/
  | rbrace
  /-- `params : ( · )` and `params : ( · name )`, also with more parameters -/
  | paramsOpen
  /-- `params : ( ) ·` -/
  | paramsNone
  /-- `params : ( name · )` and `params : ( name · moreParams )` -/
  | paramsName
  /-- `params : ( name ) ·` -/
  | paramsOne
  /-- `params : ( name moreParams · )` and `moreParams : moreParams · , name` -/
  | paramsMore
  /-- `params : ( name moreParams ) ·` -/
  | paramsClose
  /-- `moreParams : , · name` -/
  | secondComma
  /-- `moreParams : , name ·` -/
  | secondName
  /-- `moreParams : moreParams , · name` -/
  | laterComma
  /-- `moreParams : moreParams , name ·` -/
  | laterName
  /-- `expr : var · name = expr` -/
  | varWord
  /-- `expr : var name · = expr` -/
  | varName
  /-- `expr : var name = · expr` -/
  | varEqual
  /-- `expr : var name = expr ·` -/
  | varValue
  /-- `expr : name · = expr` and `atom : name ·` -/
  | name
  /-- `expr : name = · expr` -/
  | nameEqual
  /-- `expr : name = expr ·` -/
  | nameValue
  /-- `expr : comparison ·` -/
  | comparison
  /-- `comparison : sum ·` and the comparisons and sums that have it on the left -/
  | sum
  /-- `sum : product ·` and the products that have it on the left -/
  | product
  /-- `product : unary ·` -/
  | unary
  /-- `unary : call ·`, `call : call · ( args )` and `call : call · ( )` -/
  | call
  /-- `call : atom ·` -/
  | atom
  /-- The left operand and the operator have been read. -/
  | operator (o : Op)
  /-- Both operands have been read; the right one may go on at a tighter level. -/
  | operand (o : Op)
  /-- `unary : - · unary` -/
  | minus
  /-- `unary : - unary ·` -/
  | negated
  /-- `call : call ( · args )` and `call : call ( · )` -/
  | callOpen
  /-- `call : call ( ) ·` -/
  | callEmpty
  /-- `call : call ( args · )` -/
  | callArgs
  /-- `call : call ( args ) ·` -/
  | callClose
  /-- `args : expr ·` and `args : expr · moreArgs` -/
  | argsExpr
  /-- `args : expr moreArgs ·` and `moreArgs : moreArgs · , expr` -/
  | argsMore
  /-- `moreArgs : , · expr` -/
  | nextComma
  /-- `moreArgs : , expr ·` -/
  | nextExpr
  /-- `moreArgs : moreArgs , · expr` -/
  | furtherComma
  /-- `moreArgs : moreArgs , expr ·` -/
  | furtherExpr
  /-- `atom : int ·` -/
  | int
  /-- `atom : true ·` -/
  | trueWord
  /-- `atom : false ·` -/
  | falseWord
  /-- `atom : null ·` -/
  | nullWord
  /-- `atom : print · ( expr )` -/
  | printWord
  /-- `atom : print ( · expr )` -/
  | printOpen
  /-- `atom : print ( expr · )` -/
  | printExpr
  /-- `atom : print ( expr ) ·` -/
  | printClose
  /-- `atom : name ·`, where no assignment can start -/
  | operandName
  /-- `atom : function · params body`, where no statement can start -/
  | functionAtom
  /-- `atom : function params · body` -/
  | functionParams
  /-- `atom : function params body ·` -/
  | functionBody
  /-- `atom : ( · expr )` -/
  | lpar
  /-- `atom : ( expr · )` -/
  | lparExpr
  /-- `atom : ( expr ) ·` -/
  | rpar
deriving DecidableEq, Repr

/-- The levels that bind tighter. -/
def Level.tighter : Level → List Level
  | .expr => [.comparison, .sum, .product, .unary, .call, .atom]
  | .comparison => [.sum, .product, .unary, .call, .atom]
  | .sum => [.product, .unary, .call, .atom]
  | .product => [.unary, .call, .atom]
  | .unary => [.call, .atom]
  | .call => [.atom]
  | .atom => []

/-- The state after an expression of a level that no production in progress waited for. -/
def Level.state : Level → State
  | .expr => .expr
  | .comparison => .comparison
  | .sum => .sum
  | .product => .product
  | .unary => .unary
  | .call => .call
  | .atom => .atom

namespace State

/-- The tokens that start an operand. A function and a name lead to `fn` and `nm`, since a
statement or an assignment may start with them as well. -/
def operandTokens (fn nm : State) : List (Symbol × State) :=
  [(.term (.keyword .falseWord), falseWord), (.term (.keyword .functionWord), fn),
   (.term .int, int), (.term .lpar, lpar), (.term (.op .sub), minus), (.term .name, nm),
   (.term (.keyword .nullWord), nullWord), (.term (.keyword .printWord), printWord),
   (.term (.keyword .trueWord), trueWord)]

/-- An expression of level `l` leads to `s`, those that bind tighter to their own states. -/
def levels (l : Level) (s : State) : List (Symbol × State) :=
  (.non (.exp l), s) :: l.tighter.map fun k => (.non (.exp k), k.state)

/-- Moves where an operand of level `l` must come, which leads to `s`. -/
def operandMoves (l : Level) (s : State) : List (Symbol × State) :=
  operandTokens functionAtom operandName ++ levels l s

/-- Moves where an expression must come, which leads to `s`. -/
def exprMoves (s : State) : List (Symbol × State) :=
  operandTokens functionAtom name ++ [(.term (.keyword .varWord), varWord)] ++ levels .expr s

/-- Moves where a statement may come, which leads to `s`. -/
def stmtMoves (s : State) : List (Symbol × State) :=
  operandTokens functionWord name ++
  [(.term (.keyword .ifWord), ifWord), (.term .lbrace, lbrace), (.term .semicolon, semicolon),
   (.term (.keyword .varWord), varWord), (.term (.keyword .whileWord), whileWord),
   (.non .stmt, s), (.non .body, body)] ++
  levels .expr expr

/-- Moves over the operators with property `q`. -/
def operatorMoves (q : Op → Bool) : List (Symbol × State) :=
  (Op.all.filter q).map fun o => (.term (.op o), operator o)

/-- The symbols that may come next and the state each leads to. -/
def moves : State → List (Symbol × State)
  | start => (.non .stmts, stmts) :: stmtMoves stmt
  | stmts => stmtMoves stmtsStmt
  | expr => [(.term .semicolon, exprSemicolon)]
  | ifWord => [(.term .lpar, ifOpen)]
  | ifOpen => exprMoves ifTest
  | ifTest => [(.term .rpar, ifClose)]
  | ifClose => stmtMoves ifThen
  | ifThen => [(.term (.keyword .elseWord), ifElse)]
  | ifElse => stmtMoves ifElseStmt
  | whileWord => [(.term .lpar, whileOpen)]
  | whileOpen => exprMoves whileTest
  | whileTest => [(.term .rpar, whileClose)]
  | whileClose => stmtMoves whileStmt
  | functionWord =>
    [(.term .name, functionName), (.term .lpar, paramsOpen), (.non .params, functionParams)]
  | functionName => [(.term .lpar, paramsOpen), (.non .params, functionNameParams)]
  | functionNameParams => [(.term .lbrace, lbrace), (.non .body, functionNameBody)]
  | lbrace => (.term .rbrace, rbrace) :: (.non .stmts, lbraceStmts) :: stmtMoves stmt
  | lbraceStmts => (.term .rbrace, rbraceStmts) :: stmtMoves stmtsStmt
  | paramsOpen => [(.term .name, paramsName), (.term .rpar, paramsNone)]
  | paramsName =>
    [(.term .comma, secondComma), (.term .rpar, paramsOne), (.non .moreParams, paramsMore)]
  | paramsMore => [(.term .comma, laterComma), (.term .rpar, paramsClose)]
  | secondComma => [(.term .name, secondName)]
  | laterComma => [(.term .name, laterName)]
  | varWord => [(.term .name, varName)]
  | varName => [(.term .equal, varEqual)]
  | varEqual => exprMoves varValue
  | name => [(.term .equal, nameEqual)]
  | nameEqual => exprMoves nameValue
  | sum => operatorMoves fun o => o.leftLevel = .sum
  | product => operatorMoves fun o => o.leftLevel = .product
  | call => [(.term .lpar, callOpen)]
  | operator o => operandMoves o.rightLevel (operand o)
  | operand o => operatorMoves fun o' => o'.level = o.rightLevel
  | minus => operandMoves .unary negated
  | callOpen => (.term .rpar, callEmpty) :: (.non .args, callArgs) :: exprMoves argsExpr
  | callArgs => [(.term .rpar, callClose)]
  | argsExpr => [(.term .comma, nextComma), (.non .moreArgs, argsMore)]
  | argsMore => [(.term .comma, furtherComma)]
  | nextComma => exprMoves nextExpr
  | furtherComma => exprMoves furtherExpr
  | printWord => [(.term .lpar, printOpen)]
  | printOpen => exprMoves printExpr
  | printExpr => [(.term .rpar, printClose)]
  | functionAtom => [(.term .lpar, paramsOpen), (.non .params, functionParams)]
  | functionParams => [(.term .lbrace, lbrace), (.non .body, functionBody)]
  | lpar => exprMoves lparExpr
  | lparExpr => [(.term .rpar, rpar)]
  | stmt | stmtsStmt | exprSemicolon | ifElseStmt | whileStmt | functionNameBody | body
  | semicolon | rbraceStmts | rbrace | paramsNone | paramsOne | paramsClose | secondName
  | laterName | varValue | nameValue | comparison | unary | atom | negated | callEmpty
  | callClose | nextExpr | furtherExpr | int | trueWord | falseWord | nullWord | printClose
  | operandName | functionBody | rpar => []

/-- The production that is complete. -/
def done? : State → Option Production
  | start => some .programEmpty
  | stmts => some .programStmts
  | stmt => some .stmtsOne
  | stmtsStmt => some .stmtsMore
  | exprSemicolon => some .stmtExpr
  | ifThen => some .stmtIf
  | ifElseStmt => some .stmtIfElse
  | whileStmt => some .stmtWhile
  | functionNameBody => some .stmtFunction
  | body => some .stmtBlock
  | semicolon => some .stmtEmpty
  | rbraceStmts => some .bodyStmts
  | rbrace => some .bodyEmpty
  | paramsNone => some .paramsNone
  | paramsOne => some .paramsOne
  | paramsClose => some .paramsMore
  | secondName => some .moreParamsOne
  | laterName => some .moreParamsMore
  | varValue => some .exprVar
  | nameValue => some .exprAssign
  | comparison => some .exprComparison
  | sum => some .comparisonSum
  | product => some .sumProduct
  | unary => some .productUnary
  | call => some .unaryCall
  | atom => some .callAtom
  | operand o => some (.binary o)
  | negated => some .negation
  | callEmpty => some .callEmpty
  | callClose => some .callArgs
  | argsExpr => some .argsOne
  | argsMore => some .argsMore
  | nextExpr => some .moreArgsOne
  | furtherExpr => some .moreArgsMore
  | int => some .atomInt
  | trueWord => some .atomTrue
  | falseWord => some .atomFalse
  | nullWord => some .atomNull
  | printClose => some .atomPrint
  | name | operandName => some .atomName
  | functionBody => some .atomFunction
  | rpar => some .atomParen
  | expr | ifWord | ifOpen | ifTest | ifClose | ifElse | whileWord | whileOpen | whileTest
  | whileClose | functionWord | functionName | functionNameParams | lbrace | lbraceStmts
  | paramsOpen | paramsName | paramsMore | secondComma | laterComma | varWord | varName
  | varEqual | nameEqual | operator _ | minus | callOpen | callArgs | nextComma | furtherComma
  | printWord | printOpen | printExpr | functionAtom | functionParams | lpar | lparExpr => none

/-- Where a symbol leads. -/
def move? (s : State) (X : Symbol) : Option State := s.moves.lookup X

end State

/-- The tokens that start a statement. -/
def stmtTokens : List Terminal :=
  [.keyword .falseWord, .keyword .functionWord, .keyword .ifWord, .int, .lbrace, .lpar, .op .sub,
   .name, .keyword .nullWord, .keyword .printWord, .semicolon, .keyword .trueWord,
   .keyword .varWord, .keyword .whileWord]

/-- The terminals that can stand after an expression of a level. -/
def Level.follow : Level → List Terminal
  | .expr | .comparison => [.comma, .rpar, .semicolon]
  | .sum => [.comma, .rpar, .semicolon, .op .eq, .op .ge, .op .gt, .op .le, .op .lt, .op .add,
      .op .sub]
  | .product | .unary => [.comma, .rpar, .semicolon, .op .eq, .op .ge, .op .gt, .op .le, .op .lt,
      .op .add, .op .sub, .op .mul, .op .div, .op .mod]
  | .call | .atom => [.comma, .rpar, .semicolon, .op .eq, .op .ge, .op .gt, .op .le, .op .lt,
      .op .add, .op .sub, .op .mul, .op .div, .op .mod, .lpar]

/-- The terminals that can stand after a nonterminal. -/
def Nonterminal.follow : Nonterminal → List Terminal
  | .program => [.eof]
  | .stmts => [.eof, .rbrace] ++ stmtTokens
  | .stmt => [.eof, .rbrace, .keyword .elseWord] ++ stmtTokens
  | .body => [.eof, .rbrace, .keyword .elseWord] ++ stmtTokens ++ Level.atom.follow
  | .params => [.lbrace]
  | .moreParams | .moreArgs => [.comma, .rpar]
  | .args => [.rpar]
  | .exp l => l.follow

inductive Action where
  /-- Read the terminal and go on in the state. -/
  | shift (s : State)
  /-- Take the right side of a production together. -/
  | reduce (p : Production)
deriving DecidableEq, Repr

namespace State

/-- What to do in a state before a terminal; nothing if the terminal cannot stand there. -/
def action? (s : State) (t : Terminal) : Option Action :=
  match s.move? (.term t) with
  | some s' => some (.shift s')
  | none =>
    match s.done? with
    | some p => if t ∈ p.lhs.follow then some (.reduce p) else none
    | none => none

/-- Whether a terminal has an action. -/
def admits (s : State) (t : Terminal) : Bool := (s.action? t).isSome

end State

end Featherweight
