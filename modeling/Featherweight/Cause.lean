import Featherweight.Expr

/-!
# Featherweight.Cause

Why an evaluation fails, and the wording of each cause.
-/

namespace Featherweight

/-- The two places that ask for a truth value. -/
inductive Test where
  | branch
  | loop
deriving DecidableEq, Repr

inductive Cause where
  /-- An operator met a value of type `got`. -/
  | intExpected (op : Op) (got : String)
  | boolExpected (test : Test) (got : String)
  | functionExpected (got : String)
  | divisionByZero (op : Op)
  /-- The frame binds the name already. -/
  | duplicate (name : String)
  | arity (expected got : Nat)
  /-- The node has no meaning. -/
  | blankNode
  /-- There is a host value where a node belongs. -/
  | hostNode (h : Host)
  /-- The evaluation is nested too deeply. -/
  | tooDeep
deriving DecidableEq, Repr

namespace Cause

def message : Cause → String
  | intExpected op got => "operator '" ++ op.symbol ++ "' expects an int; got " ++ got
  | boolExpected .branch got => "if condition expects a bool; got " ++ got
  | boolExpected .loop got => "while condition expects a bool; got " ++ got
  | functionExpected got => "function call expects a function; got " ++ got
  | divisionByZero op => "Division by zero in '" ++ op.symbol ++ "'"
  | duplicate name => "Variable '" ++ name ++ "' has already been declared in this scope"
  | arity expected got =>
    "Function expects " ++ toString expected ++ " args; got " ++ toString got
  | blankNode => "Unknown node: Expression"
  | hostNode h => "Not an expression node: " ++ h.display
  | tooDeep => "Maximum recursion depth exceeded"

end Cause

end Featherweight
