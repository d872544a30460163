/-!
# Featherweight.Path

Path names, and finding them in a tree of files below a working directory. Doubled slashes and single
points in a path name mean nothing; two slashes at its front, and only two, are kept apart from one.
-/

namespace Featherweight

structure Path where
  /-- The slashes in front. -/
  root : String
  parts : List String
deriving DecidableEq, Repr

namespace Path

def ofText (text : String) : Path :=
  let chars := text.toList
  let slashes := (chars.takeWhile (· = '/')).length
  let root := if slashes = 0 then "" else if slashes = 2 then "//" else "/"
  ⟨root, ((chars.splitOn '/').map String.ofList).filter fun part => part ≠ "" && part ≠ "."⟩

def text (p : Path) : String :=
  if p.root = "" && p.parts.isEmpty then "." else p.root ++ "/".intercalate p.parts

end Path

/-- What stands at a path. -/
inductive Found where
  | file (bytes : List Nat)
  | directory
  | nothing
deriving DecidableEq, Repr

/-- The files and directories below a working directory, each by the parts of its path. Nothing is known
of what lies outside. -/
structure FileTree where
  files : List (List String × List Nat)
  directories : List (List String)

/-- The number of bytes that the text of a path can have to be looked up. -/
def Path.maxBytes : Nat := 4095

namespace FileTree

/-- The tree of the given directories, with those around them, and files. -/
def ofNames (directories : List String) (files : List (String × List Nat)) : FileTree where
  files := files.map fun (name, bytes) => ((Path.ofText name).parts, bytes)
  directories := directories.flatMap fun name =>
    let parts := (Path.ofText name).parts
    (List.range (parts.length + 1)).map fun n => parts.take n

def at? (t : FileTree) (place : List String) : Found :=
  if place.isEmpty || t.directories.contains place then .directory
  else
    match t.files.lookup place with
    | some bytes => .file bytes
    | none => .nothing

/-- Follow the parts of a path from a place in the tree, or from outside of it. -/
def follow (t : FileTree) : Option (List String) → List String → Found
  | some place, [] => t.at? place
  | none, [] => .directory
  | some place, part :: parts =>
    match t.at? place with
    | .directory =>
      if part = ".." then
        if place.isEmpty then t.follow none parts else t.follow (some place.dropLast) parts
      else t.follow (some (place ++ [part])) parts
    | _ => .nothing
  | none, part :: parts => if part = ".." then t.follow none parts else .nothing

/-- What stands at a path. At a path that is too long there is nothing. -/
def find (t : FileTree) (p : Path) : Found :=
  if p.text.utf8ByteSize > Path.maxBytes then .nothing
  else t.follow (if p.root = "" then some [] else none) p.parts

end FileTree

end Featherweight
