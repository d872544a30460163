import Featherweight.Expr
import Featherweight.Settings

/-!
# Featherweight.Expr.Dump

Trees as text, one node a line, each indented by its depth; and comparing trees without their
positions. Both go down the trees on the host's stack, and give nothing if it has no room for that.
-/

namespace Featherweight.Expr

/-- The line that describes a node without its children. -/
def heading : Expr → String
  | literal v _ => "literal " ++ v.inspect
  | var x _ => "var " ++ x
  | print .. => "print"
  | binary op .. => "binop " ++ op.symbol
  | branch .. => "if"
  | loop .. => "while"
  | seq .. => "sequence"
  | declare x _ _ => "vardecl " ++ x
  | assign x _ _ => "assign " ++ x
  | function params _ _ => "function (" ++ ", ".intercalate params ++ ")"
  | call .. => "functionapp"
  | blank => "expression"
  | host h => h.typeName.toLower

mutual

/-- The lines of a tree, put in front of a list; `pad` is the indentation of its first line. -/
def linesBefore (indent pad : String) : Expr → List String → List String
  | e@(literal _ _), rest => (pad ++ e.heading) :: rest
  | e@(var _ _), rest => (pad ++ e.heading) :: rest
  | e@(print a _), rest => (pad ++ e.heading) :: linesBefore indent (pad ++ indent) a rest
  | e@(binary _ a b _), rest =>
    (pad ++ e.heading) :: linesBefore indent (pad ++ indent) a
      (linesBefore indent (pad ++ indent) b rest)
  | e@(branch a b c _), rest =>
    (pad ++ e.heading) :: linesBefore indent (pad ++ indent) a
      (linesBefore indent (pad ++ indent) b (linesBefore indent (pad ++ indent) c rest))
  | e@(loop a b _), rest =>
    (pad ++ e.heading) :: linesBefore indent (pad ++ indent) a
      (linesBefore indent (pad ++ indent) b rest)
  | e@(seq a b _), rest =>
    (pad ++ e.heading) :: linesBefore indent (pad ++ indent) a
      (linesBefore indent (pad ++ indent) b rest)
  | e@(declare _ a _), rest => (pad ++ e.heading) :: linesBefore indent (pad ++ indent) a rest
  | e@(assign _ a _), rest => (pad ++ e.heading) :: linesBefore indent (pad ++ indent) a rest
  | e@(function _ a _), rest => (pad ++ e.heading) :: linesBefore indent (pad ++ indent) a rest
  | e@(call f args _), rest =>
    (pad ++ e.heading) :: linesBefore indent (pad ++ indent) f
      (listLinesBefore indent (pad ++ indent) args rest)
  | e@blank, rest => (pad ++ e.heading) :: rest
  | e@(host _), rest => (pad ++ e.heading) :: rest

def listLinesBefore (indent pad : String) : List Expr → List String → List String
  | [], rest => rest
  | e :: es, rest => linesBefore indent pad e (listLinesBefore indent pad es rest)

end

mutual

/-- How deeply the nodes of a tree nest. -/
def levels : Expr → Nat
  | literal .. | var .. | blank | host _ => 1
  | print a _ | declare _ a _ | assign _ a _ | function _ a _ => levels a + 1
  | binary _ a b _ | loop a b _ | seq a b _ => max (levels a) (levels b) + 1
  | branch a b c _ => max (levels a) (max (levels b) (levels c)) + 1
  | call f args _ => max (levels f) (listLevels args) + 1

def listLevels : List Expr → Nat
  | [] => 0
  | e :: es => max (levels e) (listLevels es)

end

def text (e : Expr) (indent : String) : String := "\n".intercalate (linesBefore indent "" e [])

/-- The text of a tree. Going down a level takes a frame of the host's stack. -/
def dump (e : Expr) (indent : String) : Option String :=
  if e.levels ≤ Settings.hostFrames then some (e.text indent) else none

/-- The parts of a node that are no arguments. -/
def parts : Expr → List Expr
  | literal .. | var .. | blank | host _ => []
  | print a _ | declare _ a _ | assign _ a _ | function _ a _ => [a]
  | binary _ a b _ | loop a b _ | seq a b _ => [a, b]
  | branch a b c _ => [a, b, c]
  | call f _ _ => [f]

def args : Expr → List Expr
  | call _ args _ => args
  | _ => []

/-- The outcome of comparisons that are made one after the other up to the first difference. -/
def allAgree : List (Option Bool) → Option Bool
  | [] => some true
  | answer :: answers => do if ← answer then allAgree answers else some false

end Featherweight.Expr
