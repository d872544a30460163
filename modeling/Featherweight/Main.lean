import Featherweight.Cli

/-!
# Featherweight.Main

The command line program: it fetches what the arguments ask for, and writes the answer.
-/

namespace Featherweight.Cli

/-- What stands at a path of the file system. -/
def lookUp (p : Path) : IO Found := do
  let path := (← IO.currentDir) / p.text
  if ← path.isDir then return .directory
  else if ← path.pathExists then
    return .file ((← IO.FS.readBinFile path).toList.map UInt8.toNat)
  else return .nothing

partial def readAll (stream : IO.FS.Stream) (bytes : ByteArray) : IO ByteArray := do
  let more ← stream.read 65536
  if more.isEmpty then return bytes else readAll stream (bytes ++ more)

/-- The bytes of standard input and what stands at the path, each only where it is asked for. -/
def fetch : Request → IO (List Nat × Found)
  | .help | .refuse _ => return ([], .nothing)
  | .perform o =>
    match o.path? with
    | none => do
      let bytes ← readAll (← IO.getStdin) .empty
      return (bytes.toList.map UInt8.toNat, .nothing)
    | some name => do return ([], ← lookUp (Path.ofText name))

def finish : Exit → IO UInt32
  | .status n => return n.toUInt32
  | .quit message => do IO.eprintln message; return 1
  | .crash e => do IO.eprintln e.text; return 1

end Featherweight.Cli

open Featherweight in
def main (args : List String) : IO UInt32 := do
  let (stdin, found) ← Cli.fetch (Cli.Request.parse args)
  let a := Cli.answer args stdin (fun _ => found) (← IO.getEnv "FWJS_DEBUG_PY_TRACE")
  IO.print a.out
  IO.eprint a.err
  Cli.finish a.exit
