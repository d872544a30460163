import Featherweight.Text.Unicode
import Featherweight.Token

/-!
# Featherweight.Highlight

Colouring of program text. A text is cut into pieces, each of a `Group`; nothing is left out, and
every character belongs to some group. A block comment ends at the end of its line at the latest, or
else its first sign counts as an operator.
-/

namespace Featherweight.Highlight

inductive Group where
  | keyword | boolean | constant | number | identifier | function | operator | punctuation
  | comment | error | space
deriving DecidableEq, Repr

namespace Group

def name : Group → String
  | keyword => "keyword"
  | boolean => "boolean"
  | constant => "constant"
  | number => "number"
  | identifier => "identifier"
  | function => "function"
  | operator => "operator"
  | punctuation => "punctuation"
  | comment => "comment"
  | error => "error"
  | space => ""

def style : Group → String
  | keyword => "bold ansicyan"
  | boolean | constant => "ansicyan"
  | number => "ansimagenta"
  | function => "bold ansiyellow"
  | comment => "italic ansigray"
  | error => "bold ansired"
  | identifier | operator | punctuation | space => ""

end Group

/-- The group of a word; a name in front of a parenthesis is a function. -/
def wordGroup (word rest : List Char) : Group :=
  match Keyword.ofText? (String.ofList word) with
  | some .trueWord | some .falseWord => .boolean
  | some .nullWord => .constant
  | some _ => .keyword
  | none => if (Text.trimLeft rest).head? = some '(' then .function else .identifier

/-- The length of a block comment on one line, counted on from `n`. Without a closing sign it goes up
to the end of the text, a line end there left out. -/
def blockLength? (n : Nat) : List Char → Option Nat
  | '*' :: '/' :: _ => some (n + 2)
  | [] => some n
  | ['\n'] => some n
  | '\n' :: _ => none
  | _ :: rest => blockLength? (n + 1) rest

def commentLength? : List Char → Option Nat
  | '/' :: '/' :: rest => some (2 + (rest.takeWhile (· ≠ '\n')).length)
  | '/' :: '*' :: rest => blockLength? 2 rest
  | _ => none

def operatorLength? : List Char → Option Nat
  | '<' :: '=' :: _ | '>' :: '=' :: _ | '=' :: '=' :: _ => some 2
  | c :: _ => if ['-', '+', '*', '/', '%', '<', '>', '='].contains c then some 1 else none
  | [] => none

/-- The group and the length of the first piece of a text that starts with `c`. -/
def piece (c : Char) (rest : List Char) : Group × Nat :=
  let text := c :: rest
  match commentLength? text with
  | some n => (.comment, n)
  | none =>
    if c.isDigit then (.number, (text.takeWhile Char.isDigit).length)
    else if Token.isNameStart c then
      (wordGroup (text.takeWhile Token.isNamePart) (text.dropWhile Token.isNamePart),
        (text.takeWhile Token.isNamePart).length)
    else
      match operatorLength? text with
      | some n => (.operator, n)
      | none =>
        if ['(', ')', '{', '}', ';', ','].contains c then (.punctuation, 1)
        else if Text.isSpace c then (.space, (text.takeWhile Text.isSpace).length)
        else (.error, 1)

/-- The pieces of a text of at most `fuel` characters. -/
def piecesFrom : Nat → List Char → List (Group × List Char)
  | _, [] => []
  | 0, _ :: _ => []
  | fuel + 1, c :: rest =>
    let (group, n) := piece c rest
    (group, (c :: rest).take n) :: piecesFrom fuel ((c :: rest).drop n)

def pieces (text : List Char) : List (Group × List Char) := piecesFrom text.length text

/-- The lines of a text, split at line feeds. -/
def lines (text : List Char) : List (List Char) := text.splitOn '\n'

/-- The styled pieces of one line of a text; beyond the last line there are none. -/
def styledLine (text : List Char) (i : Nat) : List (String × List Char) :=
  match (lines text)[i]? with
  | some line => (pieces line).map fun (group, piece) => (group.style, piece)
  | none => []

end Featherweight.Highlight
