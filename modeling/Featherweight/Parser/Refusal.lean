import Featherweight.Parser.Scan
import Featherweight.Pos
import Featherweight.Settings
import Featherweight.Text.Quoted

/-!
# Featherweight.Parser.Refusal

What can be wrong with a text.

* `Refusal` says what is wrong and where; `Refusal.text` words it.
* `literalError?` looks at one token: an integer literal has to be in range, and one of more than
  `maxDigits` digits is not even read.
-/

namespace Featherweight

/-- What is wrong with a text, and where. -/
inductive Refusal where
  | misread (mistake : Mistake) (point : Point) (excerpt : String)
  | literalRange (digits : String) (point : Point)
deriving DecidableEq, Repr

namespace Refusal

def message : Refusal → String
  | misread (.character c) _ _ => "Unexpected character " ++ Text.quoted (String.singleton c)
  | misread (.token t []) _ _ => "Unexpected token " ++ Text.quoted t.text
  | misread (.token t expected) _ _ =>
    "Unexpected token " ++ Text.quoted t.text ++ "; expected one of: " ++
      ", ".intercalate (expected.map Terminal.label)
  | misread .endOfText _ _ => "Unexpected end of input"
  | literalRange digits _ => "Integer literal " ++ digits ++ " out of range"

def point : Refusal → Point
  | misread _ p _ => p
  | literalRange _ p => p

def context? : Refusal → Option String
  | misread _ _ excerpt => some excerpt
  | literalRange .. => none

/-- The message with its place. -/
def text (r : Refusal) : String := located r.message (some r.point.line) (some r.point.column)

end Refusal

inductive ParseError where
  | refused (r : Refusal)
  /-- An integer literal has more digits than can be read. -/
  | longLiteral (digits : Nat)
  /-- The program is nested too deeply. -/
  | tooDeep
deriving DecidableEq, Repr

namespace Parser

def maxDigits : Nat := 4300

/-- The largest integer a literal can stand for. -/
def maxLiteral : Nat := 0x7fffffffffffffff

/-- The levels of structure that a program can have: each takes two frames of the host's stack. -/
def maxLevels : Nat := Settings.hostFrames / 2

theorem maxLevels_eq : maxLevels = 4990 := rfl

/-- What is wrong with a token as an integer literal. -/
def literalError? (t : Token) : Option ParseError :=
  if t.kind = .int then
    if t.text.length > maxDigits then some (.longLiteral t.text.length)
    else if Token.digitsValue t.text > maxLiteral then
      some (.refused (.literalRange t.text t.span.start))
    else none
  else none

end Parser

end Featherweight
