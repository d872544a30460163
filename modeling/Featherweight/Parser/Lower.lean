import Featherweight.Expr.Sequence
import Featherweight.Parser.Refusal

/-!
# Featherweight.Parser.Lower

From the grammar to expression trees.

* `Meaning` is what a symbol stands for.
* `lower` gives the meaning of a production from those of its parts.
* `lowering` is the algebra: besides the meaning of a part it keeps the stretch of text and what is
  found wrong when the part is gone through.

Going through a program, each production comes before its parts and the parts come from left to
right. What is found first is an integer literal that is wrong or a level of structure that is one
too many.

A node's position is the stretch of its production, except that an operator and a minus sign are
where the sign is. Parentheses belong to the stretch of the expression in them and not to its node.
-/

namespace Featherweight

/-- Statements, further parameters and further arguments come latest first. -/
def Meaning : Symbol → Type
  | .term _ => Token
  | .non .program | .non .stmt | .non .body | .non (.exp _) => Expr
  | .non .stmts | .non .args | .non .moreArgs => List Expr
  | .non .params | .non .moreParams => List String

structure Part (X : Symbol) where
  meaning : Meaning X
  span : Option Span
  /-- What is found wrong first, if the part stands below a number of levels. -/
  flaw? : Nat → Option ParseError

/-- The stretch from the start of one part to the end of another. -/
def Span.join? : Option Span → Option Span → Option Span
  | some a, some b => some ⟨a.start, b.stop⟩
  | some a, none => some a
  | none, b => b

namespace Parser

def span? : (word : List Symbol) → Values Part word → Option Span
  | [], _ => none
  | _ :: word, (part, parts) => Span.join? part.span (span? word parts)

def flawIn? (levels : Nat) : (word : List Symbol) → Values Part word → Option ParseError
  | [], _ => none
  | _ :: word, (part, parts) => part.flaw? levels <|> flawIn? levels word parts

/-- What is found wrong in a production below a number of levels. -/
def flawOf? (p : Production) (parts : Values Part p.rhs) (levels : Nat) : Option ParseError :=
  if p.isLevel then
    if levels < maxLevels then flawIn? (levels + 1) p.rhs parts else some .tooDeep
  else flawIn? levels p.rhs parts

def tokenPos (t : Token) : Option Pos := some (.ofSpan t.span)

/-- A minus sign in front of an integer literal makes one literal. -/
def negate (minus : Token) : Expr → Expr
  | .literal (.int n) _ => .literal (.int (-n)) (tokenPos minus)
  | e => .binary .sub (.literal (.int 0) none) e (tokenPos minus)

/-- The meaning of a production, given the position of its stretch and the parts. -/
def lower : (p : Production) → Option Pos → Values Part p.rhs → Meaning (.non p.lhs)
  | .programEmpty, _, _ => Expr.sequence [] none
  | .programStmts, pos, (stmts, _) => Expr.sequence (List.reverse stmts.meaning) pos
  | .stmtsOne, _, (s, _) => [s.meaning]
  | .stmtsMore, _, (stmts, s, _) => List.cons s.meaning stmts.meaning
  | .stmtExpr, _, (e, _) => e.meaning
  | .stmtIfElse, pos, (_, _, test, _, yes, _, no, _) =>
    Expr.branch test.meaning yes.meaning no.meaning pos
  | .stmtIf, pos, (_, _, test, _, yes, _) =>
    Expr.branch test.meaning yes.meaning (.literal .null none) pos
  | .stmtWhile, pos, (_, _, test, _, body, _) => Expr.loop test.meaning body.meaning pos
  | .stmtFunction, pos, (_, name, params, body, _) =>
    Expr.declare (Token.text name.meaning) (.function params.meaning body.meaning pos) pos
  | .stmtBlock, _, (body, _) => body.meaning
  | .stmtEmpty, pos, _ => Expr.literal .null pos
  | .bodyStmts, pos, (_, stmts, _) => Expr.sequence (List.reverse stmts.meaning) pos
  | .bodyEmpty, pos, _ => Expr.sequence [] pos
  | .paramsMore, _, (_, name, more, _) =>
    List.cons (Token.text name.meaning) (List.reverse more.meaning)
  | .paramsOne, _, (_, name, _) => [Token.text name.meaning]
  | .paramsNone, _, _ => ([] : List String)
  | .moreParamsOne, _, (_, name, _) => [Token.text name.meaning]
  | .moreParamsMore, _, (more, _, name, _) => List.cons (Token.text name.meaning) more.meaning
  | .argsMore, _, (e, more, _) => List.cons e.meaning (List.reverse more.meaning)
  | .argsOne, _, (e, _) => [e.meaning]
  | .moreArgsOne, _, (_, e, _) => [e.meaning]
  | .moreArgsMore, _, (more, _, e, _) => List.cons e.meaning more.meaning
  | .exprVar, pos, (_, name, _, e, _) => Expr.declare (Token.text name.meaning) e.meaning pos
  | .exprAssign, pos, (name, _, e, _) => Expr.assign (Token.text name.meaning) e.meaning pos
  | .exprComparison, _, (e, _) => e.meaning
  | .comparisonSum, _, (e, _) => e.meaning
  | .sumProduct, _, (e, _) => e.meaning
  | .productUnary, _, (e, _) => e.meaning
  | .unaryCall, _, (e, _) => e.meaning
  | .callAtom, _, (e, _) => e.meaning
  | .binary o, _, (a, sign, b, _) => Expr.binary o a.meaning b.meaning (tokenPos sign.meaning)
  | .negation, _, (minus, e, _) => negate minus.meaning e.meaning
  | .callArgs, pos, (f, _, args, _) => Expr.call f.meaning args.meaning pos
  | .callEmpty, pos, (f, _) => Expr.call f.meaning [] pos
  | .atomInt, _, (t, _) =>
    Expr.literal (.int (Token.digitsValue (Token.text t.meaning))) (tokenPos t.meaning)
  | .atomTrue, pos, _ => Expr.literal (.bool true) pos
  | .atomFalse, pos, _ => Expr.literal (.bool false) pos
  | .atomNull, pos, _ => Expr.literal .null pos
  | .atomPrint, pos, (_, _, e, _) => Expr.print e.meaning pos
  | .atomName, _, (t, _) => Expr.var (Token.text t.meaning) (tokenPos t.meaning)
  | .atomFunction, pos, (_, params, body, _) => Expr.function params.meaning body.meaning pos
  | .atomParen, _, (_, e, _) => e.meaning

def lowering : Algebra Part where
  leaf t := ⟨t, some t.span, fun _ => literalError? t⟩
  node p parts :=
    let span := span? p.rhs parts
    ⟨lower p (span.map .ofSpan) parts, span, flawOf? p parts⟩

end Parser

end Featherweight
