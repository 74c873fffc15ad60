import FlatStack.Command.Path

/-!
# Disks

A disk holds text files and directories, each under the parts of its path.
The working directory itself is always there.
-/

set_option autoImplicit false

namespace FlatStack

inductive FileError where
  | notFound
  | exists_
  | notDirectory
  | isDirectory
  | invalidText
  | other (text : String)
  deriving DecidableEq, Repr

def FileError.message : FileError → String
  | .notFound => "No such file or directory (os error 2)"
  | .exists_ => "File exists (os error 17)"
  | .notDirectory => "Not a directory (os error 20)"
  | .isDirectory => "Is a directory (os error 21)"
  | .invalidText => "stream did not contain valid UTF-8"
  | .other text => text

/-- What is found under a path. -/
inductive Node where
  | file (text : String)
  | directory
  deriving DecidableEq, Repr

structure Disk where
  files : List (List String × String) := []
  directories : List (List String) := []
  deriving DecidableEq, Repr

namespace Disk

def node? (d : Disk) (path : List String) : Option Node :=
  match d.files.lookup path with
  | some text => some (.file text)
  | none => if path.isEmpty || path ∈ d.directories then some .directory else none

/-- All directories on the way to a path, the outermost first. -/
def ancestors (path : List String) : List (List String) :=
  (List.range path.length).map fun n => path.take n

/-- Why a path cannot be reached: the first part of the way that is no
directory decides. -/
def obstacle? (d : Disk) (path : List String) : Option FileError :=
  (ancestors path).findSome? fun a =>
    match d.node? a with
    | some .directory => none
    | some (.file _) => some .notDirectory
    | none => some .notFound

/-- What is found by following the path of a text. -/
def find (d : Disk) (path : String) : Except FileError Node := do
  let parts := Path.parts path
  if path.isEmpty then throw .notFound
  if let some e := d.obstacle? parts then throw e
  match d.node? parts with
  | none => throw .notFound
  | some .directory => pure .directory
  | some (.file text) =>
    if Path.namesDirectory path then throw .notDirectory else pure (.file text)

def read (d : Disk) (path : String) : Except FileError String := do
  match ← d.find path with
  | .file text => pure text
  | .directory => throw .isDirectory

/-- Puts a text in place of what the path held. -/
def put (d : Disk) (path : List String) (text : String) : Disk :=
  { d with files := (path, text) :: d.files.filter fun f => f.1 != path }

/-- Writes a file, which need not be there before. -/
def write (d : Disk) (path : String) (text : String) : Except FileError Disk :=
  match d.find path with
  | .ok .directory => .error .isDirectory
  | .ok (.file _) => .ok (d.put (Path.parts path) text)
  | .error .notFound =>
    if path.isEmpty || (d.obstacle? (Path.parts path)).isSome then .error .notFound
    else if Path.namesDirectory path then .error .isDirectory
    else .ok (d.put (Path.parts path) text)
  | .error e => .error e

def remove (d : Disk) (path : String) : Except FileError Disk := do
  match ← d.find path with
  | .file _ => pure { d with files := d.files.filter fun f => f.1 != Path.parts path }
  | .directory => throw .isDirectory

/-- Makes the directories that are not there yet, the outermost first. -/
def makeDirectories (d : Disk) : List (List String) → Except FileError Disk
  | [] => pure d
  | path :: paths =>
    match d.node? path with
    | some .directory => d.makeDirectories paths
    | some (.file _) => .error (if paths.isEmpty then .exists_ else .notDirectory)
    | none => makeDirectories { d with directories := path :: d.directories } paths

/-- Makes a directory and all directories on the way to it. -/
def createDirectories (d : Disk) (path : String) : Except FileError Disk :=
  let parts := Path.parts path
  d.makeDirectories (ancestors parts ++ [parts])

/-- A disk with the given files and the directories that they need. -/
def ofFiles (files : List (String × String)) : Disk :=
  let files := files.map fun (path, text) => (Path.parts path, text)
  { files, directories := files.flatMap fun f => ancestors f.1 }

/-- All files with their paths. -/
def toFiles (d : Disk) : List (String × String) :=
  d.files.map fun (path, text) => ("/".intercalate path, text)

end Disk

end FlatStack
