import Featherweight.Decimal
import Featherweight.Op
import Featherweight.Pos
import Featherweight.Text.Quoted

/-!
# Featherweight.Expr

Values and expression trees.

* `Host` is a value that an embedding program hands in: it can be stored, passed and printed, and no
  operator takes it.
* A closure holds the frame in which it was made by its number, and its serial number among the
  closures made in that frame, which tells it from the others.
* Every node of an `Expr` but the last two kinds has a place for its position. A `blank` node has no
  meaning, and a `host` node is a host value where a node belongs: both can be built and shown, and
  evaluating them is an error.
-/

namespace Featherweight

/-- Frames are numbered in the order of their creation. -/
abbrev FrameId : Type := Nat

/-- What is said of a symbol that is no operator. -/
def Op.unknownMessage (symbol : String) : String := "Unknown operator " ++ Text.quoted symbol

inductive Host where
  | text (s : String)
  | whole (n : Int)
  | real (d : Decimal)
  | truth (b : Bool)
  | absent
deriving DecidableEq, Repr

namespace Host

def typeName : Host → String
  | text _ => "str"
  | whole _ => "int"
  | real _ => "float"
  | truth _ => "bool"
  | absent => "NoneType"

def display : Host → String
  | text s => Text.quoted s
  | whole n => toString n
  | real d => d.text
  | truth true => "True"
  | truth false => "False"
  | absent => "None"

/-- The integer that a host value stands for, truth values counting as zero and one. -/
def integer? : Host → Option Int
  | whole n => some n
  | real d => d.toInt?
  | truth b => some b.toInt
  | text _ | absent => none

/-- Whether two host values are the same: numbers of different kinds are compared by what they stand
for. -/
def same : Host → Host → Bool
  | real x, real y => x.same y
  | a, b =>
    match a.integer?, b.integer? with
    | some m, some n => m = n
    | none, none => a = b
    | _, _ => false

end Host

mutual

inductive Value where
  | null
  | bool (b : Bool)
  | int (n : Int)
  | closure (params : List String) (body : Expr) (frame : FrameId) (serial : Nat)
  | host (h : Host)

inductive Expr where
  | literal (value : Value) (pos : Option Pos)
  | var (name : String) (pos : Option Pos)
  | print (inner : Expr) (pos : Option Pos)
  | binary (op : Op) (left right : Expr) (pos : Option Pos)
  | branch (test yes no : Expr) (pos : Option Pos)
  | loop (test body : Expr) (pos : Option Pos)
  | seq (first second : Expr) (pos : Option Pos)
  | declare (name : String) (init : Expr) (pos : Option Pos)
  | assign (name : String) (value : Expr) (pos : Option Pos)
  | function (params : List String) (body : Expr) (pos : Option Pos)
  | call (callee : Expr) (args : List Expr) (pos : Option Pos)
  | blank
  | host (h : Host)

end

namespace Value

def typeName : Value → String
  | null => "null"
  | bool _ => "bool"
  | int _ => "int"
  | closure .. => "function"
  | host h => h.typeName

/-- The text that printing a value writes. -/
def display : Value → String
  | null => "null"
  | bool true => "true"
  | bool false => "false"
  | int n => toString n
  | closure params .. => "function(" ++ ", ".intercalate params ++ ") \x7b...\x7d"
  | host h => h.display

/-- The text of a value in a dump of a tree. -/
def inspect : Value → String
  | closure [] .. => "<fn params=nullary>"
  | closure params .. => "<fn params=" ++ ", ".intercalate params ++ ">"
  | v => v.display

/-- Whether two values are the same: closures are the same only as themselves. -/
def same : Value → Value → Bool
  | null, null => true
  | bool a, bool b => a = b
  | int m, int n => m = n
  | closure _ _ f i, closure _ _ g j => f = g && i = j
  | host a, host b => a.same b
  | _, _ => false

end Value

namespace Expr

def pos? : Expr → Option Pos
  | literal _ p | var _ p | print _ p | binary _ _ _ p | branch _ _ _ p | loop _ _ p | seq _ _ p
  | declare _ _ p | assign _ _ p | function _ _ p | call _ _ p => p
  | blank | host _ => none

end Expr

end Featherweight
