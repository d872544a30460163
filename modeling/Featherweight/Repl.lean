import Featherweight.Repl.Command
import Featherweight.Repl.Entry
import Featherweight.Report

/-!
# Featherweight.Repl

The interactive loop, as a machine on events.

* `State` is what the loop keeps between events: the pending text, the world with the current global
  frame, and the call stack switch.
* `State.handle` gives the new state and the `Shown` texts for one event.
* `accept` treats a whole entry: a command, or a program whose value is shown unless it is null.
-/

namespace Featherweight.Repl

inductive Event where
  /-- Text, then the enter key: the entry is accepted if it is complete, and goes on otherwise. -/
  | enter (text : String)
  /-- Text, then the entry is accepted as it is. -/
  | submit (text : String)
  /-- The pending text is given up. -/
  | interrupt
  | endOfInput
deriving DecidableEq, Repr

structure State where
  buffer : List Char
  world : World
  globals : FrameId
  traced : Bool

/-- What one event shows. -/
structure Shown where
  out : String
  err : String
  cleared : Bool
deriving DecidableEq, Repr

namespace Shown

def nothing : Shown := ⟨"", "", false⟩

def output (text : String) : Shown := ⟨text, "", false⟩

def message (text : String) : Shown := ⟨"", text, false⟩

end Shown

def banner : String := Report.line "fwjs repl (Ctrl-D to exit, / for commands)"

/-- A global frame with an empty source text. -/
def freshFrame : Frame := .fresh none none (some "")

namespace State

/-- The loop as it starts. -/
def initial (traced : Bool) : State :=
  let (globals, world) := World.empty.push freshFrame
  ⟨[], world, globals, traced⟩

/-- The names bound in the global frame, with the text of their values, in the order of the names. -/
def bindings (s : State) : List String :=
  let names := ((s.world.store[s.globals]?).map (·.names)).getD []
  (names.mergeSort fun a b => a ≤ b).map fun x =>
    x ++ " = " ++ (s.world.store.resolve s.globals x).display

def setTraced (s : State) (on : Bool) : State × Shown :=
  ({ s with traced := on },
    .output (Report.line ("Python traceback: " ++ if on then "on" else "off")))

def command (s : State) : Command → State × Shown
  | .clear => (s, ⟨"", "", true⟩)
  | .env =>
    match s.bindings with
    | [] => (s, .output (Report.line "(no bindings)"))
    | lines => (s, .output (String.join (lines.map Report.line)))
  | .trace none => s.setTraced !s.traced
  | .trace (some on) => s.setTraced on
  | .traceUsage => (s, .message (Report.line "Usage: /py-traceback [on|off]"))
  | .reset =>
    let (globals, world) := s.world.push freshFrame
    ({ s with world := world, globals := globals }, .output (Report.line "Environment reset."))
  | .unknown name => (s, .message (Report.line ("Unknown command: " ++ name)))

/-- The report of a failed entry. A literal that cannot be read ends the loop. -/
def failure (traced : Bool) : Failure → Except ParseError String
  | .parse (.refused r) => .ok (Report.render r.text r.context? traced)
  | .parse .tooDeep => .ok (Report.render ParseError.tooDeep.text none false)
  | .parse (.longLiteral n) => .error (.longLiteral n)
  | .fault f => .ok (Report.render f.text none traced)

/-- Evaluate a program text in the global frame and show what it prints and its value. -/
def program (s : State) (text : String) : Except ParseError (State × Shown) :=
  match Session.enter text s.globals { s.world with log := [] } with
  | (.ok v, w) =>
    let shown := match v with
      | .null => ""
      | v => Report.line v.display
    .ok ({ s with world := w }, .output (Report.printed w.log ++ shown))
  | (.error e, w) => do
    let report ← failure s.traced e
    .ok ({ s with world := w }, ⟨Report.printed w.log, report, false⟩)

/-- Treat a whole entry. -/
def accept (s : State) (entry : List Char) : Except ParseError (State × Shown) :=
  let s := { s with buffer := [] }
  let text := normalize entry
  if (Text.trim text).isEmpty then .ok (s, .nothing)
  else
    match Command.ofText? text with
    | some c => .ok (s.command c)
    | none => s.program (String.ofList text)

/-- Whether the enter key accepts a text. -/
def accepts (text : List Char) : Bool :=
  (Text.trimLeft text).head? = some '/' || !needsMore text

def handle (s : State) : Event → Except ParseError (State × Shown)
  | .enter t =>
    let text := s.buffer ++ t.toList
    if accepts text then s.accept text
    else .ok ({ s with buffer := text ++ '\n' :: indent text }, .nothing)
  | .submit t => s.accept (s.buffer ++ t.toList)
  | .interrupt => .ok ({ s with buffer := [] }, .output (Report.line "KeyboardInterrupt"))
  | .endOfInput => .ok (s, .output (Report.line ""))

/-- Run the loop on a list of events until the input ends, giving the state and the texts after each.
The second part is the error that left the loop, if one did. -/
def play (s : State) : List Event → List (State × Shown) × Option ParseError
  | [] => ([], none)
  | e :: events =>
    match s.handle e with
    | .error err => ([], some err)
    | .ok (s', shown) =>
      if e = .endOfInput then ([(s', shown)], none)
      else
        let (rest, crash) := play s' events
        ((s', shown) :: rest, crash)

end State

end Featherweight.Repl
