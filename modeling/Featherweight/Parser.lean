import Featherweight.Parser.Lower
import Featherweight.Path

/-!
# Featherweight.Parser

From a program's text to its tree.

`parse` reads a text with the `lowering` of the grammar. A text that is read to its end has a tree
unless something wrong is found in going through it. There is only the built-in grammar: a path asks
for a grammar that is not found.
-/

namespace Featherweight

namespace Parser

/-- Read a text into a tree together with its tokens. -/
def parseTokens (text : List Char) : Except ParseError (Expr × List Token) :=
  match scan lowering text with
  | .error r => .error (.refused (.misread r.mistake r.point (Text.excerpt text r.point.offset)))
  | .ok (part, tokens) =>
    match part.flaw? 0 with
    | some e => .error e
    | none => .ok (part.meaning, tokens)

end Parser

/-- The tree of a program. -/
def parse (text : String) : Except ParseError Expr :=
  (Parser.parseTokens text.toList).map (·.1)

/-- Nothing, or what is said of the grammar that is asked for. -/
def grammarError? : Option String → Option String
  | none | some "" => none
  | some path => some ("grammar not found: " ++ (Path.ofText path).text)

end Featherweight
