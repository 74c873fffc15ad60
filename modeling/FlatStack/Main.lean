import FlatStack.Command.Actions

/-!
# The command line program

The commands run on the file system and the standard streams. While a program
runs, each input line is fetched when it is first needed, and output is
written as it comes.
-/

set_option autoImplicit false

namespace FlatStack

def FileError.ofSystem : IO.Error → FileError
  | .noFileOrDirectory .. => .notFound
  | .alreadyExists .. => .exists_
  | .inappropriateType _ 20 _ => .notDirectory
  | .inappropriateType _ 21 _ => .isDirectory
  | e => .other (toString e)

/-- A request to the file system, with its error as a value. -/
def request {α : Type} (action : IO α) : IO (Except FileError α) := do
  match ← action.toBaseIO with
  | .ok a => pure (.ok a)
  | .error e => pure (.error (.ofSystem e))

def readText (path : String) : IO (Except FileError String) := do
  match ← request (IO.FS.readBinFile path) with
  | .error e => pure (.error e)
  | .ok bytes =>
    match String.fromUTF8? bytes with
    | some text => pure (.ok text)
    | none => pure (.error .invalidText)

def printText (text : String) : IO Unit := do
  let output ← IO.getStdout
  output.putStr text
  output.flush

/-- The next line of the input; `none` at its end. -/
def nextLine : IO (Option (Except ConsoleError String)) := do
  let input ← IO.getStdin
  match ← input.getLine.toBaseIO with
  | .ok "" => pure none
  | .ok line => pure (some (.ok line))
  | .error _ => pure (some (.error .invalidText))

/-- Fetches a line if the next instruction reads one and none is there. -/
def supply (program : Bytecode) (m : Machine) : IO Machine := do
  match program.instructions[m.pc]? with
  | some ⟨.read, _, _⟩ =>
    if m.console.input.isEmpty then
      match ← nextLine with
      | some (.ok line) => pure { m with console.input := bytesOf line }
      | some (.error _) => pure { m with console.input := [0xFF, Console.newline] }
      | none => pure m
    else pure m
  | _ => pure m

/-- Writes out what a machine has printed. -/
def release (m : Machine) : IO Machine := do
  if m.console.output.isEmpty then pure m
  else
    printText (textOfCut m.console.written)
    pure { m with console.output := [] }

/-- Runs a machine one instruction at a time. -/
partial def drive (program : Bytecode) (steps : Nat) (m : Machine) : IO Machine.Outcome := do
  let m ← supply program m
  let (outcome, m) := Machine.runFrom program steps 1 m
  let m ← release m
  match outcome with
  | .unfinished => drive program (steps + 1) m
  | outcome => pure outcome

instance : Host IO where
  readFile := readText
  writeFile path text := request (IO.FS.writeFile path text)
  removeFile path := request (IO.FS.removeFile path)
  createDirectories path := request (IO.FS.createDirAll path)
  print := printText
  printError := IO.eprint
  readLine := nextLine
  execute program := drive program 0 (Machine.start { input := [] })

end FlatStack

def main (words : List String) : IO UInt32 :=
  FlatStack.Invocation.performWords (Nat.pow 2 60) words
