import FlatStack.Command.Invocation
import FlatStack.Command.Session
import FlatStack.Command.Settings
import FlatStack.Program.Outline
import FlatStack.Token.Listing

/-!
# Actions

Each action either succeeds or fails with one message, which names what was
attempted and then the causes, the outermost first.
-/

set_option autoImplicit false

namespace FlatStack

namespace Error

/-- What lies behind an error, in the words of its cause and of that one's. -/
def causes : Error → List String
  | .emission e => [e.message]
  | .fault (.console e) => [(Fault.console e).message, e.message]
  | .fault f => [f.message]
  | _ => []

/-- The error of a stage with all that lies behind it. -/
def report (e : Error) : String :=
  ": ".intercalate ((e.stage ++ " stage failed") :: e.message :: e.causes)

end Error

namespace Action

section

variable {m : Type → Type} [Monad m] [Host m]

/-- An action that can fail with a message. -/
abbrev Attempt (m : Type → Type) := ExceptT String m

/-- Asks the host for something, and says what for if that fails. -/
def attempt {α : Type} (purpose : String) (request : m (Except FileError α)) : Attempt m α := do
  match ← (request : m (Except FileError α)) with
  | .ok a => pure a
  | .error e => throw (purpose ++ ": " ++ e.message)

def readFile (purpose path : String) : Attempt m String :=
  attempt ("failed to read " ++ purpose ++ " " ++ path) (Host.readFile path)

def writeFile (path text : String) : Attempt m Unit :=
  attempt ("failed to write " ++ path) (Host.writeFile path text)

/-- Settings from a named file, or from the default file if there is one. -/
def loadSettings (config : Option String) : Attempt m Settings := do
  let parse (path text : String) : Attempt m Settings :=
    match Settings.ofText text with
    | .ok s => pure s
    | .error e => throw ("invalid config file " ++ path ++ ": " ++ e)
  match config with
  | some path =>
    let text ← readFile "config file" path
    parse path text
  | none =>
    match ← (Host.readFile Settings.defaultFile : m (Except FileError String)) with
    | .ok text => parse Settings.defaultFile text
    | .error .notFound => pure {}
    | .error e =>
      throw ("failed to read config file " ++ Settings.defaultFile ++ ": " ++ e.message)

/-! ## Compiling -/

/-- The stages of compilation, each of which may leave an error file. -/
def compileStages : List String := ["lexer", "parser", "semantic", "codegen"]

/-- The file in which a failing stage leaves its message. -/
def errorFile (directory stage : String) : String :=
  Path.join directory (stage ++ "_errors.txt")

/-- Removes the error file of a stage if there is one. -/
def removeStale (directory stage : String) : Attempt m Unit := do
  let path := errorFile directory stage
  match ← (Host.removeFile path : m (Except FileError Unit)) with
  | .ok _ | .error .notFound => pure ()
  | .error e => throw ("failed to remove " ++ path ++ ": " ++ e.message)

/-- The listings of the stages, by file name. -/
def artifacts (source : String) (c : Compilation) : List (String × String) :=
  [("tokens.txt", Token.listing source.toList c.tokens),
    ("ast.txt", (Outline.ofProgram c.program).text ++ "\n"),
    ("symbols.txt", c.analysis.listing)]

/-- The directory of a file, as the files beside it name it. -/
def directoryOf (path : String) : String :=
  let parent := Path.parent path
  if parent.isEmpty then "." else parent

/-- Compiles a file. Error files of earlier attempts go first, and nothing
else changes before the program has compiled. -/
def compileFile (settings : Settings) (sourcePath : String) (output : Option String) :
    Attempt m Unit := do
  let output := output.getD settings.bytecodePath
  let directory := directoryOf output
  attempt ("failed to create output directory " ++ directory) (Host.createDirectories directory)
  compileStages.forM (removeStale directory)
  let source ← readFile "source file" sourcePath
  match Compilation.ofSource source with
  | .error e =>
    writeFile (errorFile directory e.stage) (e.message ++ "\n")
    throw e.report
  | .ok c =>
    attempt ("failed to write bytecode to " ++ output) (Host.writeFile output c.bytecode.text)
    if settings.artifacts then
      (artifacts source c).forM fun (name, text) => writeFile (Path.join directory name) text
    (Host.print (Style.bold (Style.green "Compiled") ++ " " ++ toString c.bytecode.size
      ++ " instructions to " ++ Style.cyan output ++ "\n") : m Unit)

/-! ## Running -/

def execute (program : Bytecode) : Attempt m Unit := do
  match ← (Host.execute program : m Machine.Outcome) with
  | .faulted f => throw (Error.fault f).report
  | .finished .. | .unfinished => pure ()

def runFile (path : String) : Attempt m Unit := do
  let text ← readFile "bytecode file" path
  execute (Bytecode.parse text)

def execFile (path : String) : Attempt m Unit := do
  match ← (Host.readFile path : m (Except FileError String)) with
  | .error e =>
    throw (": ".intercalate ["io stage failed", "I/O error: " ++ e.message, e.message])
  | .ok source =>
    match Compilation.ofSource source with
    | .error e => throw e.report
    | .ok c => execute c.bytecode

def dumpFile (path : String) : Attempt m Unit := do
  let text ← readFile "bytecode file" path
  (Host.print (Bytecode.parse text).listing : m Unit)

/-- Carries out an action. A session reads at most `lines` lines. -/
def perform (lines : Nat) (settings : Settings) : Action → Attempt m Unit
  | .compile source output => compileFile settings source output
  | .run path => runFile path
  | .exec path => execFile path
  | .dump path => dumpFile path
  | .session => (Session.run lines : m Unit)

end

end Action

namespace Invocation

variable {m : Type → Type} [Monad m] [Host m]

/-- Carries out an invocation and yields the exit code. -/
def perform (lines : Nat) : Invocation → m UInt32
  | .version subcommand => do
    let name := match subcommand with
      | some s => "hipo-" ++ s
      | none => "hipo"
    Host.print (name ++ " " ++ FlatStack.version ++ "\n")
    pure 0
  | .action config wanted => do
    let attempt : Action.Attempt m Unit := do
      let settings ← Action.loadSettings config
      wanted.perform lines settings
    match ← attempt.run with
    | .ok _ => pure 0
    | .error e =>
      Host.printError (Style.errorLabel ++ ": " ++ e ++ "\n")
      pure 1

/-- Carries out a command line. One that makes no sense has exit code two. -/
def performWords (lines : Nat) (words : List String) : m UInt32 :=
  match ofWords? words with
  | some invocation => invocation.perform lines
  | none => do
    Host.printError "error: unrecognized command line\n"
    pure 2

end Invocation

end FlatStack
