import Featherweight.Eval
import Featherweight.Parser
import Featherweight.Text.Unicode

/-!
# Featherweight.Session

Running program texts in a world.

* `evalProgram` evaluates a tree as a whole program: running out of frames becomes an error of the
  language.
* `run` reads and evaluates a text; `enter` does the same for an entry at the prompt, where the last
  expression may lack its semicolon.
-/

namespace Featherweight

/-- The frames of the host's stack for an evaluation. -/
def maxDepth : Nat := Settings.hostFrames

/-- How often a loop may go round, which is more than any run can reach. -/
def maxRounds : Nat := 0x4000000000000000

inductive Failure where
  | parse (e : ParseError)
  | fault (f : Fault)
deriving DecidableEq, Repr

namespace Session

def evalIn (f : FrameId) (e : Expr) : Eval Value := eval maxRounds maxDepth e f

def call (f : Value) (args : List Value) : Eval Value :=
  Eval.callWith (eval maxRounds maxDepth) f args

/-- Set the sink and the source text of a frame, where given. -/
def equip (f : FrameId) (sink : Option SinkId) (source : Option String) (w : World) : World :=
  { w with
    store := w.store.modify f fun frame =>
      { frame with sink := sink <|> frame.sink, source := source <|> frame.source } }

/-- Evaluate a tree as a program in a frame. -/
def evalProgram (e : Expr) (f : FrameId) (sink : Option SinkId) (source : Option String) :
    Eval Value := fun w =>
  match evalIn f e (equip f sink source w) with
  | (.error .limit, w') => (.error (.error .tooDeep none), w')
  | r => r

/-- Evaluate a tree that may have been refused. -/
def evalParsed (parsed : Except ParseError Expr) (f : FrameId) (sink : Option SinkId)
    (source : String) (w : World) : Except Failure Value × World :=
  match parsed with
  | .error e => (.error (.parse e), w)
  | .ok e =>
    match evalProgram e f sink (some source) w with
    | (.ok v, w') => (.ok v, w')
    | (.error fault, w') => (.error (.fault fault), w')

/-- Read and evaluate a program in a frame. -/
def run (text : String) (f : FrameId) (sink : Option SinkId) (w : World) :
    Except Failure Value × World :=
  evalParsed (parse text) f sink text w

/-- A text with a semicolon on a line of its own behind it. -/
def completed (text : String) : String :=
  String.ofList (Text.trimRight text.toList ++ ['\n', ';'])

/-- Read an entry. A text that is refused is tried again with a semicolon behind it; if that is
refused too, the first refusal stands. -/
def parseEntry (text : String) : Except ParseError Expr :=
  match parse text with
  | .error (.refused r) =>
    match parse (completed text) with
    | .error (.refused _) => .error (.refused r)
    | other => other
  | other => other

/-- Read and evaluate an entry at the prompt. -/
def enter (text : String) (f : FrameId) (w : World) : Except Failure Value × World :=
  evalParsed (parseEntry text) f none text w

end Session

end Featherweight
