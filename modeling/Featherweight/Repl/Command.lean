import Featherweight.Settings
import Featherweight.Text.Unicode

/-!
# Featherweight.Repl.Command

The commands of the prompt, which start with a slash: reading them, and completing their names.
-/

namespace Featherweight.Repl

inductive Command where
  | clear
  | env
  /-- Switch the host's call stack on or off, or over if nothing is said. -/
  | trace (on : Option Bool)
  | traceUsage
  | reset
  | unknown (name : String)
deriving DecidableEq, Repr

/-- The names of the commands and what they do. -/
def commandNames : List (String × String) :=
  [("/clear", "Clear the terminal screen"),
   ("/env", "List global bindings"),
   ("/py-traceback", "Toggle Python traceback on errors"),
   ("/reset", "Reset the REPL environment")]

/-- The switch that a word asks for. -/
def switch? (word : String) : Option Bool :=
  if ["on", "1", "true", "yes"].contains word then some true
  else if ["off", "0", "false", "no"].contains word then some false
  else none

namespace Command

/-- The command in an entry, if it starts with a slash. -/
def ofText? (text : List Char) : Option Command :=
  match Text.trim text with
  | '/' :: rest =>
    let words := '/' :: rest
    let name := String.ofList (words.takeWhile fun c => !Text.isSpace c)
    let arg := Text.trimLeft (words.dropWhile fun c => !Text.isSpace c)
    some <|
      if name = "/clear" then clear
      else if name = "/env" then env
      else if name = "/py-traceback" then
        if arg.isEmpty then trace none
        else
          match switch? (String.ofList (Settings.lower arg)) with
          | some on => trace (some on)
          | none => traceUsage
      else if name = "/reset" then reset
      else unknown name
  | _ => none

end Command

/-- The commands that a text in front of the cursor can become, with what they do. -/
def completions (text : List Char) : List (String × String) :=
  if text.head? = some '/' then
    commandNames.filter fun (name, _) => text.isPrefixOf name.toList
  else []

end Featherweight.Repl
