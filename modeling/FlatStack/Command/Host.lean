import FlatStack.Command.Disk
import FlatStack.Machine.Run

/-!
# Hosts

What the commands ask of the system they run on. A workspace answers them
without a system: files are on a disk, input and output are a console.
-/

set_option autoImplicit false

namespace FlatStack

class Host (m : Type → Type) where
  readFile : String → m (Except FileError String)
  writeFile : String → String → m (Except FileError Unit)
  removeFile : String → m (Except FileError Unit)
  createDirectories : String → m (Except FileError Unit)
  print : String → m Unit
  printError : String → m Unit
  /-- The next line of the input with its newline; `none` at the end. -/
  readLine : m (Option (Except ConsoleError String))
  /-- Runs a program on the same input and output. -/
  execute : Bytecode → m Machine.Outcome

structure Workspace where
  disk : Disk
  console : Console
  /-- What went to the error output, the latest text first. -/
  errors : List String := []
  /-- How many instructions a single run may take. -/
  fuel : Nat

namespace Workspace

def errorText (w : Workspace) : String := String.join w.errors.reverse

/-- Changes the disk by an operation that may fail. -/
def change (w : Workspace) (result : Except FileError Disk) : Except FileError Unit × Workspace :=
  match result with
  | .ok disk => (.ok (), { w with disk })
  | .error e => (.error e, w)

instance : Host (StateM Workspace) where
  readFile path := fun w => (w.disk.read path, w)
  writeFile path text := fun w => w.change (w.disk.write path text)
  removeFile path := fun w => w.change (w.disk.remove path)
  createDirectories path := fun w => w.change (w.disk.createDirectories path)
  print text := fun w => ((), { w with console := (w.console.write text).1 })
  printError text := fun w => ((), { w with errors := text :: w.errors })
  readLine := fun w =>
    let (line, console) := w.console.readLine
    (line, { w with console })
  execute program := fun w =>
    let (outcome, machine) := Machine.run program w.fuel w.console
    (outcome, { w with console := machine.console })

end Workspace

end FlatStack
