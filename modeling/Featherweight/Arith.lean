import Featherweight.Cause

/-!
# Featherweight.Arith

Arithmetic on signed 64-bit integers: results wrap around, division goes toward zero. A remainder
needs no wrapping, and operands outside the range, which only an embedding program can bring in, are
taken as they are.
-/

namespace Featherweight

/-- The signed 64-bit integer that is equal to `n` modulo `2 ^ 64`. -/
def wrap (n : Int) : Int := Int.bmod n 0x10000000000000000

/-- The quotient toward zero and the remainder, which has the sign of `x`. -/
def quotRem? (x y : Int) : Option (Int × Int) :=
  if y = 0 then none else some (x.tdiv y, x.tmod y)

/-- What is said of a division by zero outside of the language. -/
def zeroDivisorMessage : String := "integer division or modulo by zero"

namespace Op

def onInts (op : Op) (x y : Int) : Except Cause Value :=
  match op with
  | .add => .ok (.int (wrap (x + y)))
  | .sub => .ok (.int (wrap (x - y)))
  | .mul => .ok (.int (wrap (x * y)))
  | .div =>
    match quotRem? x y with
    | some (q, _) => .ok (.int (wrap q))
    | none => .error (.divisionByZero op)
  | .mod =>
    match quotRem? x y with
    | some (_, r) => .ok (.int r)
    | none => .error (.divisionByZero op)
  | .gt => .ok (.bool (x > y))
  | .ge => .ok (.bool (x ≥ y))
  | .lt => .ok (.bool (x < y))
  | .le => .ok (.bool (x ≤ y))
  | .eq => .ok (.bool (x = y))

/-- Apply an operator; the left operand is checked first. -/
def apply (op : Op) : Value → Value → Except Cause Value
  | .int x, .int y => op.onInts x y
  | .int _, b => .error (.intExpected op b.typeName)
  | a, _ => .error (.intExpected op a.typeName)

end Op

end Featherweight
