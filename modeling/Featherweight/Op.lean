/-!
# Featherweight.Op

The binary operators of the language and the spelling of each.
-/

namespace Featherweight

inductive Op where
  | add | sub | mul | div | mod
  | gt | ge | lt | le | eq
deriving DecidableEq, Repr

namespace Op

def all : List Op := [add, sub, mul, div, mod, gt, ge, lt, le, eq]

def symbol : Op → String
  | add => "+"
  | sub => "-"
  | mul => "*"
  | div => "/"
  | mod => "%"
  | gt => ">"
  | ge => ">="
  | lt => "<"
  | le => "<="
  | eq => "=="

theorem mem_all (o : Op) : o ∈ all := by cases o <;> decide

end Op

end Featherweight
