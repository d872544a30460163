/-!
# Featherweight.Text.Point

Places in a text: `Point` counts characters, lines and columns, `Cursor` is a point with the text
that is still ahead of it. Only a line feed ends a line; lines and columns count from one.

`Text.excerpt` is the line around a place, with a mark under the place. At most forty characters are
shown on either side, and tabs before the place count up to the next multiple of eight columns.
-/

namespace Featherweight

structure Point where
  offset : Nat
  line : Nat
  column : Nat
deriving DecidableEq, Repr

namespace Point

def start : Point := ⟨0, 1, 1⟩

/-- The point behind one character. -/
def next (p : Point) (c : Char) : Point :=
  if c = '\n' then ⟨p.offset + 1, p.line + 1, 1⟩ else ⟨p.offset + 1, p.line, p.column + 1⟩

/-- The point behind a stretch of text. -/
def past (p : Point) (text : List Char) : Point := text.foldl next p

theorem past_append (p : Point) (a b : List Char) : p.past (a ++ b) = (p.past a).past b := by
  simp [past]

end Point

/-- A stretch of text; the end is the point behind its last character. -/
structure Span where
  start : Point
  stop : Point
deriving DecidableEq, Repr

structure Cursor where
  point : Point
  rest : List Char
deriving DecidableEq, Repr

namespace Cursor

def ofText (text : List Char) : Cursor := ⟨.start, text⟩

/-- Go past the next `n` characters. -/
def advance (n : Nat) (c : Cursor) : Cursor := ⟨c.point.past (c.rest.take n), c.rest.drop n⟩

theorem take_append_rest_advance (n : Nat) (c : Cursor) :
    c.rest.take n ++ (c.advance n).rest = c.rest :=
  List.take_append_drop n c.rest

end Cursor

namespace Text

/-- The width of a line with tab stops every eight columns; a return starts the columns anew. -/
def expandedWidth (text : List Char) : Nat :=
  (text.foldl (fun (width, column) c =>
    if c = '\t' then (width + (8 - column % 8), column + (8 - column % 8))
    else if c = '\n' || c = '\r' then (width + 1, 0)
    else (width + 1, column + 1)) (0, 0)).1

def lastLine (text : List Char) : List Char := (text.reverse.takeWhile (· ≠ '\n')).reverse

def firstLine (text : List Char) : List Char := text.takeWhile (· ≠ '\n')

def excerpt (text : List Char) (offset : Nat) : String :=
  let before := lastLine ((text.take offset).drop (offset - 40))
  let after := firstLine ((text.drop offset).take 40)
  String.ofList (before ++ after ++ '\n' :: List.replicate (expandedWidth before) ' ' ++ ['^', '\n'])

end Text

end Featherweight
