import Featherweight.Text.Unicode

/-!
# Featherweight.Settings

Settings that come as texts: the recursion limit and the switch for showing the host's call stack.
`hostFrames` is what the default limit leaves to a computation.
-/

namespace Featherweight.Settings

/-- The recursion limit that a setting asks for: a positive integer, or nothing. -/
def limit? (raw : Option String) : Option Int := do
  let n ← Text.integer? (← raw).toList
  if n > 0 then some n else none

/-- The frames that the host's stack can hold if no setting asks for more. -/
def defaultLimit : Nat := 10000

/-- The frames of the host's stack that a computation can use under the default limit. Twenty are set
aside, for what is called before it begins and for what its innermost step calls. Going down one level
takes two frames in reading a text, one in dumping a tree, and three in comparing or evaluating trees,
with a fourth for a list of arguments or the body of a function. -/
def hostFrames : Nat := defaultLimit - 20

/-- The largest limit that can be set. -/
def largestLimit : Int := 0x7fffffff

/-- What is said of a limit that cannot be set. -/
def limitMessage : String := "Python int too large to convert to C int"

/-- The limit in force after a setting is applied, or nothing if it cannot be set. A setting never
lowers the limit. -/
def applyLimit (raw : Option String) (current : Int) : Option Int :=
  let wanted := (limit? raw).getD (defaultLimit : Int)
  if wanted ≤ current then some current
  else if wanted ≤ largestLimit then some wanted
  else none

/-- A text in lower case, as far as its letters are those of English. -/
def lower (text : List Char) : List Char := text.map Char.toLower

/-- Whether a setting switches the call stack on. -/
def traced (raw : Option String) : Bool :=
  match raw with
  | none => false
  | some text => ["1", "true", "yes", "on"].contains (String.ofList (lower (Text.trim text.toList)))

/-- The setting's value after the switch is set. -/
def setTraced : Bool → Option String
  | true => some "1"
  | false => none

end Featherweight.Settings
