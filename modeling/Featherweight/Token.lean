import Featherweight.Grammar
import Featherweight.Text.Point

/-!
# Featherweight.Token

Reading tokens from the text ahead.

* `ignored` is the length of the white space or comment ahead.
* `readings` lists the ways to read a token, preferred ones first.
* `Cursor.token?` takes the first reading whose kind passes a given test, so that a word is a keyword
  only where that keyword can stand, and `==` is two signs where a comparison cannot stand.
-/

namespace Featherweight

structure Token where
  kind : Terminal
  text : String
  span : Span
deriving DecidableEq, Repr

namespace Token

def isBlank (c : Char) : Bool := c = ' ' || c = '\t' || c = '\x0c' || c = '\r' || c = '\n'

def isNameStart (c : Char) : Bool := c.isAlpha || c = '_' || c = '$'

def isNamePart (c : Char) : Bool := isNameStart c || c.isDigit

/-- The number of characters up to the end of the first `*/`, counted on from `n`. -/
def commentEnd? (n : Nat) : List Char → Option Nat
  | '*' :: '/' :: _ => some (n + 2)
  | _ :: rest => commentEnd? (n + 1) rest
  | [] => none

/-- The length of the white space or comment ahead, zero if there is none. A block comment that is
not closed is none. -/
def ignored : List Char → Nat
  | '/' :: '/' :: rest => 2 + (rest.takeWhile (· ≠ '\n')).length
  | '/' :: '*' :: rest => (commentEnd? 2 rest).getD 0
  | text => (text.takeWhile isBlank).length

/-- The ways to read a token from the text ahead, each with the number of characters it takes. -/
def readings : List Char → List (Terminal × Nat)
  | '<' :: '=' :: _ => [(.op .le, 2), (.op .lt, 1)]
  | '>' :: '=' :: _ => [(.op .ge, 2), (.op .gt, 1)]
  | '=' :: '=' :: _ => [(.op .eq, 2), (.equal, 1)]
  | '<' :: _ => [(.op .lt, 1)]
  | '>' :: _ => [(.op .gt, 1)]
  | '=' :: _ => [(.equal, 1)]
  | '+' :: _ => [(.op .add, 1)]
  | '-' :: _ => [(.op .sub, 1)]
  | '*' :: _ => [(.op .mul, 1)]
  | '/' :: _ => [(.op .div, 1)]
  | '%' :: _ => [(.op .mod, 1)]
  | ';' :: _ => [(.semicolon, 1)]
  | ',' :: _ => [(.comma, 1)]
  | '(' :: _ => [(.lpar, 1)]
  | ')' :: _ => [(.rpar, 1)]
  | '{' :: _ => [(.lbrace, 1)]
  | '}' :: _ => [(.rbrace, 1)]
  | c :: rest =>
    if c.isDigit then
      [(.int, ((c :: rest).takeWhile Char.isDigit).length)]
    else if isNameStart c then
      let word := (c :: rest).takeWhile isNamePart
      match Keyword.ofText? (String.ofList word) with
      | some k => [(.keyword k, word.length), (.name, word.length)]
      | none => [(.name, word.length)]
    else []
  | [] => []

/-- The value of a text of digits. -/
def digitsValue (text : String) : Nat :=
  text.toList.foldl (fun n c => 10 * n + (c.toNat - '0'.toNat)) 0

end Token

/-- The token ahead and the cursor behind it, if there is a reading of a kind that `admits` allows. -/
def Cursor.token? (admits : Terminal → Bool) (c : Cursor) : Option (Token × Cursor) :=
  ((Token.readings c.rest).find? fun r => admits r.1).map fun (kind, n) =>
    (⟨kind, String.ofList (c.rest.take n), ⟨c.point, (c.advance n).point⟩⟩, c.advance n)

end Featherweight
