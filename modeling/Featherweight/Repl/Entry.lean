import Featherweight.Text.Unicode
import Featherweight.Token

/-!
# Featherweight.Repl.Entry

The text of an entry at the prompt: cleaning it, telling whether it is complete, and indenting its next
line.
-/

namespace Featherweight.Repl

/-- Characters that do not show: zero-width ones, the byte order mark, the no-break space, and
returns. -/
def isInvisible (c : Char) : Bool :=
  ['\u200b', '\u200c', '\u200d', '\ufeff', '\u00a0', '\r'].contains c

def normalize (text : List Char) : List Char := text.filter fun c => !isInvisible c

/-- A text of at most `fuel` characters without its line comments and closed block comments. -/
def stripFrom : Nat → List Char → List Char
  | 0, text => text
  | fuel + 1, '/' :: '/' :: rest => stripFrom fuel (rest.dropWhile (· ≠ '\n'))
  | fuel + 1, '/' :: '*' :: rest =>
    match Token.commentEnd? 0 rest with
    | some n => stripFrom fuel (rest.drop n)
    | none => '/' :: stripFrom fuel ('*' :: rest)
  | fuel + 1, c :: rest => c :: stripFrom fuel rest
  | _ + 1, [] => []

def stripComments (text : List Char) : List Char := stripFrom text.length text

def opensComment : List Char → Bool
  | '/' :: '*' :: _ => true
  | _ :: rest => opensComment rest
  | [] => false

/-- How many brackets are open after one more character; a closing one too many does not count. -/
def countBracket (depth : Nat) (c : Char) : Nat :=
  if c = '(' || c = '{' then depth + 1
  else if c = ')' || c = '}' then depth - 1
  else depth

/-- How many brackets are open at the end of a text. An open comment counts as one bracket. -/
def bracketDepth (text : List Char) : Nat :=
  let code := stripComments text
  if opensComment code then 1 else code.foldl countBracket 0

def needsMore (text : List Char) : Bool := bracketDepth text > 0

def indent (text : List Char) : List Char := List.replicate (4 * bracketDepth text) ' '

end Featherweight.Repl
