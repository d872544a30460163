import Featherweight.Text.Point

/-!
# Featherweight.Pos

The place of a node in the program text, as far as it is known. The reader of programs knows all
four numbers; trees made by hand may leave any of them out.
-/

namespace Featherweight

structure Pos where
  line : Option Int
  column : Option Int
  endLine : Option Int
  endColumn : Option Int
deriving DecidableEq, Repr

namespace Pos

def ofSpan (s : Span) : Pos :=
  ⟨some s.start.line, some s.start.column, some s.stop.line, some s.stop.column⟩

end Pos

/-- A message with the place it is about, as far as that is known. -/
def located (message : String) : Option Int → Option Int → String
  | none, _ => message
  | some line, none => message ++ " (line " ++ toString line ++ ")"
  | some line, some column =>
    message ++ " (line " ++ toString line ++ ", col " ++ toString column ++ ")"

end Featherweight
