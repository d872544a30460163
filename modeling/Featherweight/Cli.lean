import Featherweight.Expr.Dump
import Featherweight.Path
import Featherweight.Report
import Featherweight.Settings
import Featherweight.Text.Utf8

/-!
# Featherweight.Cli

The command line, as a function from the arguments and the inputs to what is written and how it ends.

* `Request.ofArgs` reads the arguments.
* `load` gets the program from where it comes: standard input, a file, or the argument itself.
* `answer` runs the program or shows its tree.
-/

namespace Featherweight.Cli

structure Options where
  printResult : Bool
  dumpTree : Bool
  source : Option String
deriving DecidableEq, Repr

inductive Request where
  | help
  | refuse (message : String)
  | perform (options : Options)
deriving DecidableEq, Repr

def usage : String := "usage: fwjs [--print-result] [--dump-ast] [PATH | - | SOURCE]"

namespace Request

/-- Read the arguments from left to right. -/
def ofArgs (options : Options) : List String → Request
  | [] => perform options
  | arg :: args =>
    if arg = "--print-result" then ofArgs { options with printResult := true } args
    else if arg = "--dump-ast" then ofArgs { options with dumpTree := true } args
    else if arg = "-h" || arg = "--help" then help
    else if "--".toList.isPrefixOf arg.toList then refuse ("Unknown flag: " ++ arg)
    else
      match options.source with
      | none => ofArgs { options with source := some arg } args
      | some _ => refuse ("Unexpected argument: " ++ arg)

def parse (args : List String) : Request := ofArgs ⟨false, false, none⟩ args

end Request

namespace Options

/-- The path to look up, if the program does not come from standard input. -/
def path? (o : Options) : Option String :=
  match o.source with
  | none => none
  | some name => if name = "" || name = "-" then none else some name

/-- What stands at the path to look up. -/
def found (o : Options) (find : Path → Found) : Found :=
  (o.path?.map fun name => find (Path.ofText name)).getD .nothing

end Options

/-- How a run ends. -/
inductive Exit where
  | status (n : Nat)
  /-- The run is given up with a message. -/
  | quit (message : String)
  | crash (e : ParseError)
deriving DecidableEq, Repr

structure Answer where
  out : String
  err : String
  exit : Exit
deriving DecidableEq, Repr

namespace Answer

def success (out : String) : Answer := ⟨out, "", .status 0⟩

def failure (out err : String) : Answer := ⟨out, err, .status 1⟩

def quit (message : String) : Answer := ⟨"", "", .quit message⟩

end Answer

/-- The program text, or the answer that there is none. -/
def loadStdin (bytes : List Nat) (traced : Bool) : Except Answer String :=
  match Text.Utf8.readText bytes with
  | .error f => .error (.failure "" (Report.render f.text none traced))
  | .ok "" => .error (.quit "No input provided on stdin")
  | .ok text => .ok text

/-- The program text at a path. Where nothing is found, the argument is the program. -/
def loadPath (name : String) (found : Found) (traced : Bool) : Except Answer String :=
  match found with
  | .nothing => .ok name
  | .directory =>
    .error (.failure "" (Report.render
      ("[Errno 21] Is a directory: " ++ Text.quoted (Path.ofText name).text) none traced))
  | .file bytes =>
    match Text.Utf8.readText bytes with
    | .error f => .error (.failure "" (Report.render f.text none traced))
    | .ok text => .ok text

/-- The program text that the options ask for. -/
def load (o : Options) (stdin : List Nat) (found : Found) (traced : Bool) : Except Answer String :=
  match o.path? with
  | none => loadStdin stdin traced
  | some name => loadPath name found traced

/-- The answer to a program that fails, after the given output. -/
def failed (out : String) (traced : Bool) : Failure → Answer
  | .parse (.refused r) => .failure out (Report.render r.text r.context? traced)
  | .parse .tooDeep => .failure out (Report.render (ParseError.tooDeep.text ++ " (...)") none false)
  | .parse (.longLiteral n) => ⟨out, "", .crash (.longLiteral n)⟩
  | .fault f => .failure out (Report.render f.text none traced)

/-- Run a program in a fresh global frame. -/
def execute (text : String) (printResult traced : Bool) : Answer :=
  let (globals, world) := World.empty.push (.fresh none none none)
  match Session.run text globals none world with
  | (.ok v, w) =>
    .success (Report.printed w.log ++ if printResult then Report.line v.display else "")
  | (.error e, w) => failed (Report.printed w.log) traced e

/-- Show the tree of a program. A tree that is too deep to be gone through is reported as a text that
is too deep to be read. -/
def dump (text : String) (traced : Bool) : Answer :=
  match parse text with
  | .ok e =>
    match e.dump "  " with
    | some lines => .success (Report.line lines)
    | none => failed "" traced (.parse .tooDeep)
  | .error e => failed "" traced (.parse e)

/-- Perform a request; `found` is what stands at the path of the options. -/
def perform (o : Options) (stdin : List Nat) (found : Found) (traced : Bool) : Answer :=
  match load o stdin found traced with
  | .error answer => answer
  | .ok text => if o.dumpTree then dump text traced else execute text o.printResult traced

/-- The whole command line, with a function that looks up paths. -/
def answer (args : List String) (stdin : List Nat) (find : Path → Found) (trace : Option String) :
    Answer :=
  match Request.parse args with
  | .help => .success (Report.line usage)
  | .refuse message => .quit message
  | .perform o => perform o stdin (o.found find) (Settings.traced trace)

end Featherweight.Cli
