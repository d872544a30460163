import Featherweight.Grammar.Machine
import Featherweight.Token

/-!
# Featherweight.Parser.Scan

Reading a whole text. Tokens are read one at a time, each in the light of the state that the machine
is in, and fed to the machine.

* `Algebra` gives the values that are built for tokens and productions.
* `scan` gives the value of the whole program with its tokens, or a `Rejection`.
-/

namespace Featherweight

structure Algebra (V : Symbol → Type) where
  leaf : (t : Token) → V (.term t.kind)
  node : Build V

inductive Mistake where
  /-- No token starts with the character. -/
  | character (c : Char)
  /-- The token cannot stand here; one of the `expected` kinds could. -/
  | token (found : Token) (expected : List Terminal)
  | endOfText
deriving DecidableEq, Repr

/-- Why and where a text is no program, and the tokens that were read before. -/
structure Rejection where
  mistake : Mistake
  point : Point
  tokens : List Token
deriving DecidableEq, Repr

/-- The end of the text, which takes the place of the last token. -/
def Token.ending (latest : Option Token) : Token :=
  ⟨.eof, "", (latest.map Token.span).getD ⟨.start, .start⟩⟩

namespace Parser

variable {V : Symbol → Type}

/-- What is wrong where no token can be read that the state admits: the token that stands there all
the same, or else the character `c` that stands there. -/
def unreadable (bound : Nat) (cursor : Cursor) (c : Char) (stack : Stack V) : Mistake :=
  match cursor.token? fun _ => true with
  | some (t, _) => .token t (stack.expected bound)
  | none => .character c

/-- Feed the end of the text. -/
def finish (A : Algebra V) (bound : Nat) (stack : Stack V) (tokens : List Token) :
    Except Rejection (V (.non .program) × List Token) :=
  let t := Token.ending tokens.head?
  match feed A.node bound stack .eof (A.leaf t) with
  | .finished value => .ok (value, tokens.reverse)
  | _ => .error ⟨.endOfText, t.span.start, tokens.reverse⟩

/-- Read on from a cursor. The tokens come latest first; `bound` is the fuel for each token. -/
def scanFrom (A : Algebra V) (bound : Nat) :
    Nat → Cursor → Stack V → List Token → Except Rejection (V (.non .program) × List Token)
  | 0, _, stack, tokens => finish A bound stack tokens
  | fuel + 1, cursor, stack, tokens =>
    match Token.ignored cursor.rest, cursor.rest with
    | n + 1, _ => scanFrom A bound fuel (cursor.advance (n + 1)) stack tokens
    | 0, [] => finish A bound stack tokens
    | 0, c :: _ =>
      match cursor.token? stack.state.admits with
      | none => .error ⟨unreadable bound cursor c stack, cursor.point, tokens.reverse⟩
      | some (t, behind) =>
        match feed A.node bound stack t.kind (A.leaf t) with
        | .read stack' => scanFrom A bound fuel behind stack' (t :: tokens)
        | .refused stack' =>
          .error ⟨.token t (stack'.expected bound), cursor.point, tokens.reverse⟩
        | .finished _ =>
          .error ⟨.token t (stack.expected bound), cursor.point, tokens.reverse⟩

/-- Read a whole text. Every step takes a character or more, and there are never more than a dozen
productions to take together for each token that has been read. -/
def scan (A : Algebra V) (text : List Char) :
    Except Rejection (V (.non .program) × List Token) :=
  scanFrom A (16 * (text.length + 2)) (text.length + 1) (.ofText text) [] []

end Parser

end Featherweight
