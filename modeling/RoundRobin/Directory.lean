import RoundRobin.InputError

/-!
# Directories

A directory of files that is held in memory. Paths into it start with `@`, which stands for the
directory itself; every other path leads nowhere. A path is walked part by part: an empty part and
`.` stay in a directory, `..` leaves it, and nothing lies within a file.
-/

namespace RoundRobin

/-- A directory without subdirectories. Of two files with one name, the later one counts. -/
structure Directory where
  files : List (String × List UInt8)
  deriving Inhabited

namespace Directory

/-- Where a path has led so far. -/
inductive Place where
  | inside
  /-- In some directory that the directory lies in. -/
  | outside
  | file (content : List UInt8)

/-- The content of the file with a name. -/
def content? (d : Directory) (name : String) : Option (List UInt8) :=
  (d.files.reverse.find? (·.1 = name)).map (·.2)

/-- Follows one part of a path. -/
def enter (d : Directory) (place : Place) (part : String) : Except ReadFailure Place :=
  match place with
  | .file _ => .error .notDirectory
  | .inside =>
    if part = "" ∨ part = "." then
      .ok .inside
    else if part = ".." then
      .ok .outside
    else
      match d.content? part with
      | some content => .ok (.file content)
      | none => .error .notFound
  | .outside =>
    if part = "" ∨ part = "." ∨ part = ".." then .ok .outside else .error .notFound

/-- The content of the file that a path leads to. -/
def read (d : Directory) (path : String) : Except ReadFailure (List UInt8) :=
  match path.splitOn "/" with
  | "@" :: parts => do
    match ← parts.foldlM d.enter .inside with
    | .file content => return content
    | .inside | .outside => .error .isDirectory
  | _ => .error .notFound

end Directory

end RoundRobin
