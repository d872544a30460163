import Featherweight.Session

/-!
# Featherweight.Report

Errors as they are shown to the user: a line with the message and its place, the line of the program
with a mark where it was misread, and the heading of the host's call stack if that is asked for.
-/

namespace Featherweight

namespace Fault

def text : Fault → String
  | error c none => c.message
  | error c (some pos) => located c.message pos.line pos.column
  | limit => Cause.tooDeep.message

end Fault

namespace ParseError

def text : ParseError → String
  | refused r => r.text
  | longLiteral digits =>
    "Error trying to process rule \"int_lit\":\n\nExceeds the limit (" ++
      toString Parser.maxDigits ++ " digits) for integer string conversion: value has " ++
      toString digits ++
      " digits; use sys.set_int_max_str_digits() to increase the limit"
  | tooDeep => Cause.tooDeep.message

end ParseError

namespace Report

/-- A text as lines of its own. -/
def line (text : String) : String := text ++ "\n"

/-- The excerpt that goes with an error, as lines of its own. -/
def contextLines : Option String → String
  | none => ""
  | some context =>
    if context = "" then ""
    else if context.toList.getLast? = some '\n' then context
    else line context

/-- The heading that stands above the host's call stack. -/
def traceHeading : String := "\nPython traceback:\n"

def render (text : String) (context : Option String) (traced : Bool) : String :=
  line ("Error: " ++ text) ++ contextLines context ++ if traced then traceHeading else ""

/-- The printed lines of the values that went to standard output, in order. -/
def printed (log : List (Option SinkId × Value)) : String :=
  String.join (log.reverse.filterMap fun (sink, v) =>
    if sink.isNone then some (line v.display) else none)

end Report

end Featherweight
