import Featherweight.Parser.Lower
import Featherweight.Proofs.Bare

/-!
# Featherweight.Proofs.Derivation

Derivations of the grammar as trees, and what they mean.

* `Tree X` is a derivation of the symbol `X`, and `Forest word` one of each symbol of a word.
* `Tree.yield` are the tokens at its leaves, without places, in order.
* `Tree.sense` is the program that a derivation stands for, without positions.
* `Tree.height` counts levels of structure.
* `growing` is the algebra under which the parser builds the derivation itself.
-/

namespace Featherweight

/-- A token without its place. -/
structure Lexeme where
  kind : Terminal
  text : String
deriving DecidableEq

def Token.lexeme (t : Token) : Lexeme := ⟨t.kind, t.text⟩

mutual

inductive Tree : Symbol → Type where
  | leaf (kind : Terminal) (text : String) : Tree (.term kind)
  | node (p : Production) (parts : Forest p.rhs) : Tree (.non p.lhs)

inductive Forest : List Symbol → Type where
  | nil : Forest []
  | cons {X : Symbol} {word : List Symbol} (head : Tree X) (tail : Forest word) :
      Forest (X :: word)

end

mutual

def Tree.yield : {X : Symbol} → Tree X → List Lexeme
  | _, .leaf kind text => [⟨kind, text⟩]
  | _, .node _ parts => parts.yield

def Forest.yield : {word : List Symbol} → Forest word → List Lexeme
  | _, .nil => []
  | _, .cons head tail => head.yield ++ tail.yield

end

mutual

def Tree.height : {X : Symbol} → Tree X → Nat
  | _, .leaf _ _ => 0
  | _, .node p parts => parts.height + if p.isLevel then 1 else 0

def Forest.height : {word : List Symbol} → Forest word → Nat
  | _, .nil => 0
  | _, .cons head tail => max head.height tail.height

end

/-! ## Meaning -/

/-- What a symbol stands for; lists are in the order of the text. -/
def Sense : Symbol → Type
  | .term _ => String
  | .non .program | .non .stmt | .non .body | .non (.exp _) => Expr
  | .non .stmts | .non .args | .non .moreArgs => List Expr
  | .non .params | .non .moreParams => List String

/-- A minus sign is taken into an integer literal and else subtracts from zero. -/
def negative : Expr → Expr
  | .literal (.int n) _ => .literal (.int (-n)) none
  | e => .binary .sub (.literal (.int 0) none) e none

def sense : (p : Production) → Values Sense p.rhs → Sense (.non p.lhs)
  | .programEmpty, _ => Expr.chain []
  | .programStmts, (stmts, _) => Expr.chain stmts
  | .stmtsOne, (s, _) => [s]
  | .stmtsMore, (stmts, s, _) => List.append stmts [s]
  | .stmtExpr, (e, _) => e
  | .stmtIfElse, (_, _, test, _, yes, _, no, _) => Expr.branch test yes no none
  | .stmtIf, (_, _, test, _, yes, _) => Expr.branch test yes (.literal .null none) none
  | .stmtWhile, (_, _, test, _, body, _) => Expr.loop test body none
  | .stmtFunction, (_, name, params, body, _) =>
    Expr.declare name (.function params body none) none
  | .stmtBlock, (body, _) => body
  | .stmtEmpty, _ => Expr.literal .null none
  | .bodyStmts, (_, stmts, _) => Expr.chain stmts
  | .bodyEmpty, _ => Expr.chain []
  | .paramsMore, (_, name, more, _) => List.cons name more
  | .paramsOne, (_, name, _) => List.cons name []
  | .paramsNone, _ => ([] : List String)
  | .moreParamsOne, (_, name, _) => List.cons name []
  | .moreParamsMore, (more, _, name, _) => List.append more [name]
  | .argsMore, (e, more, _) => List.cons e more
  | .argsOne, (e, _) => [e]
  | .moreArgsOne, (_, e, _) => [e]
  | .moreArgsMore, (more, _, e, _) => List.append more [e]
  | .exprVar, (_, name, _, e, _) => Expr.declare name e none
  | .exprAssign, (name, _, e, _) => Expr.assign name e none
  | .exprComparison, (e, _) => e
  | .comparisonSum, (e, _) => e
  | .sumProduct, (e, _) => e
  | .productUnary, (e, _) => e
  | .unaryCall, (e, _) => e
  | .callAtom, (e, _) => e
  | .binary o, (a, _, b, _) => Expr.binary o a b none
  | .negation, (_, e, _) => negative e
  | .callArgs, (f, _, args, _) => Expr.call f args none
  | .callEmpty, (f, _) => Expr.call f [] none
  | .atomInt, (digits, _) => Expr.literal (.int (Token.digitsValue digits)) none
  | .atomTrue, _ => Expr.literal (.bool true) none
  | .atomFalse, _ => Expr.literal (.bool false) none
  | .atomNull, _ => Expr.literal .null none
  | .atomPrint, (_, _, e, _) => Expr.print e none
  | .atomName, (name, _) => Expr.var name none
  | .atomFunction, (_, params, body, _) => Expr.function params body none
  | .atomParen, (_, e, _) => e

mutual

def Tree.sense : {X : Symbol} → Tree X → Sense X
  | _, .leaf _ text => text
  | _, .node p parts => Featherweight.sense p parts.senses

def Forest.senses : {word : List Symbol} → Forest word → Values Sense word
  | _, .nil => ()
  | _, .cons head tail => (head.sense, tail.senses)

end

/-! ## Growing a derivation -/

def Forest.ofValues : (word : List Symbol) → Values Tree word → Forest word
  | [], _ => .nil
  | _ :: word, (t, ts) => .cons t (ofValues word ts)

def growing : Algebra Tree where
  leaf t := .leaf t.kind t.text
  node p parts := .node p (.ofValues p.rhs parts)

/-- The meaning of a part with lists in the order of the text and without positions. -/
def Meaning.plain : (X : Symbol) → Meaning X → Sense X
  | .term _, (t : Token) => t.text
  | .non .program, (e : Expr) => e.bare
  | .non .stmt, (e : Expr) => e.bare
  | .non .body, (e : Expr) => e.bare
  | .non (.exp _), (e : Expr) => e.bare
  | .non .stmts, (es : List Expr) => es.reverse.map Expr.bare
  | .non .args, (es : List Expr) => es.map Expr.bare
  | .non .moreArgs, (es : List Expr) => es.reverse.map Expr.bare
  | .non .params, (xs : List String) => xs
  | .non .moreParams, (xs : List String) => xs.reverse

end Featherweight
