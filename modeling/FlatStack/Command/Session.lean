import FlatStack.Command.Host
import FlatStack.Command.Style
import FlatStack.Pipeline

/-!
# Sessions

A session reads entries line by line and runs each as a program of its own.
An entry goes on over further lines as long as a bracket is open. The
programs read their numbers from the lines that follow.
-/

set_option autoImplicit false

namespace FlatStack

/-- The version of the command line program. -/
def version : String := "0.1.0"

namespace Session

/-! ## Entries -/

/-- Where a character of an entry stands. -/
inductive Place where
  | code
  | lineComment
  /-- In a comment that ends at a star and a slash. -/
  | blockComment (afterStar : Bool)
  deriving DecidableEq, Repr

/-- `closers` are the brackets that are still to come, the innermost first. A
closing bracket that does not fit ends the search, since no further line can
mend it. -/
def balancedFrom : Place → List Char → List Char → Bool
  | _, closers, [] => closers.isEmpty
  | .code, closers, '/' :: '/' :: cs => balancedFrom .lineComment closers cs
  | .code, closers, '/' :: '*' :: cs => balancedFrom (.blockComment false) closers cs
  | .code, closers, '(' :: cs => balancedFrom .code (')' :: closers) cs
  | .code, closers, '{' :: cs => balancedFrom .code ('}' :: closers) cs
  | .code, closers, c :: cs =>
    if c = ')' ∨ c = '}' then
      match closers with
      | expected :: closers => if c = expected then balancedFrom .code closers cs else true
      | [] => true
    else balancedFrom .code closers cs
  | .lineComment, closers, c :: cs =>
    balancedFrom (if c = '\n' then .code else .lineComment) closers cs
  | .blockComment true, closers, '/' :: cs => balancedFrom .code closers cs
  | .blockComment _, closers, c :: cs => balancedFrom (.blockComment (c == '*')) closers cs

/-- Whether an entry is complete as far as its brackets tell. -/
def balanced (entry : List Char) : Bool := balancedFrom .code [] entry

/-- Takes the line end off a text, whose last character comes first. -/
def dropLineEnd : List Char → List Char
  | '\n' :: '\r' :: cs => cs
  | '\n' :: cs => cs
  | cs => cs

def withoutLineEnd (text : List Char) : List Char := (dropLineEnd text.reverse).reverse

/-- The program of an entry, which may leave out the tags. -/
def wrapped (entry : List Char) : String :=
  let text := String.ofList (Text.trim entry)
  if "<?php".toList.isPrefixOf text.toList then text else "<?php\n" ++ text ++ "\n?>"

/-! ## Dot commands -/

inductive DotCommand where
  | help
  | exit
  | clear
  | version
  | load (path : Option String)
  | bytecode
  deriving DecidableEq, Repr

/-- A dot command is a dot, its name in any case, and perhaps an argument. -/
def DotCommand.ofEntry? (entry : List Char) : Option DotCommand :=
  match Text.trim entry with
  | '.' :: cs =>
    let (name, rest) := Text.splitWord cs
    let argument := match rest with
      | [] => none
      | _ :: cs => some (String.ofList (Text.trim cs))
    match String.ofList (name.map Char.toLower) with
    | "help" | "h" | "?" => some .help
    | "exit" | "quit" | "q" => some .exit
    | "clear" | "cls" => some .clear
    | "version" | "v" => some .version
    | "load" | "l" => some (.load argument)
    | "bytecode" | "bc" => some .bytecode
    | _ => none
  | _ => none

def descriptions : List (String × String) :=
  [(".help", "Show this help message"),
    (".exit", "Exit the REPL"),
    (".clear", "Clear the screen"),
    (".version", "Show version information"),
    (".load <file>", "Compile and run a source file"),
    (".bytecode", "Toggle printing the generated program")]

def logo : List String :=
  ["   _     _             ",
    "  | |__ (_)_ __   ___  ",
    "  | '_ \\| | '_ \\ / _ \\ ",
    "  | | | | | |_) | (_) |",
    "  |_| |_|_| .__/ \\___/ ",
    "          |_|          "]

def linesText (lines : List String) : String := String.join (lines.map (· ++ "\n"))

def banner : String :=
  linesText ([""] ++ logo.map (fun l => Style.bold (Style.brightCyan l)) ++
    ["",
      "  " ++ Style.bold (Style.white "hipo") ++ " " ++ Style.dimmed "v" ++ " "
        ++ Style.brightYellow FlatStack.version,
      "  " ++ Style.dimmed "Type" ++ " " ++ Style.cyan ".help" ++ " "
        ++ Style.dimmed "for available commands",
      ""])

/-- A text in a field of the given width, to the left. -/
def leftAligned (width : Nat) (text : String) : String :=
  text ++ String.ofList (List.replicate (width - text.length) ' ')

def helpLine (command : String × String) : String :=
  "  " ++ Style.cyan (leftAligned 16 command.1) ++ " " ++ Style.dimmed command.2

def help : String :=
  linesText (["", Style.bold (Style.white "REPL Commands:"), ""] ++ descriptions.map helpLine ++
    ["", "  " ++ Style.dimmed "Entries are program bodies; <?php ?> is added when missing.", ""])

/-! ## The loop -/

structure State where
  /-- Lines of an entry that is not complete yet. -/
  entry : List Char := []
  /-- Whether the code of each program is shown. -/
  listing : Bool := false
  deriving DecidableEq, Repr

section

variable {m : Type → Type} [Monad m] [Host m]

def reportError (e : Error) : m Unit :=
  Host.printError (Style.bold (Style.red ("[" ++ e.stage ++ "]")) ++ " " ++ e.message ++ "\n")

/-- Compiles a program and runs it. Errors are reported and end only this
program. -/
def evaluate (listing : Bool) (source : String) : m Unit := do
  match Compilation.ofSource source with
  | .error e => reportError e
  | .ok c =>
    if listing then
      Host.print (linesText (c.bytecode.listingLines.map Style.dimmed))
    match ← Host.execute c.bytecode with
    | .faulted f => reportError (.fault f)
    | _ => pure ()

/-- Obeys a dot command; `none` when it ends the session. -/
def obey (s : State) : DotCommand → m (Option State)
  | .help => do
    Host.print help
    pure (some s)
  | .exit => pure none
  | .clear => do
    Host.print "\x1b[2J\x1b[H"
    pure (some s)
  | .version => do
    Host.print (Style.bold (Style.brightCyan "hipo") ++ ": " ++ Style.yellow FlatStack.version
      ++ "\n")
    pure (some s)
  | .load none => do
    Host.printError (Style.errorLabel ++ ": " ++ Style.cyan ".load" ++ " "
      ++ Style.dimmed "requires a file path" ++ "\n")
    pure (some s)
  | .load (some path) => do
    match ← Host.readFile path with
    | .ok source => evaluate s.listing source
    | .error e => Host.printError (Style.errorLabel ++ ": " ++ path ++ ": " ++ e.message ++ "\n")
    pure (some s)
  | .bytecode => do
    let listing := !s.listing
    Host.print (Style.dimmed "bytecode listing" ++ " "
      ++ Style.yellow (if listing then "on" else "off") ++ "\n")
    pure (some { s with listing })

/-- Takes a complete entry; `none` when it ends the session. -/
def take (s : State) (entry : List Char) : m (Option State) := do
  if entry.all Text.isBlank then pure (some s)
  else
    match DotCommand.ofEntry? entry with
    | some command => obey s command
    | none =>
      evaluate s.listing (wrapped entry)
      pure (some s)

/-- Takes one more line; `none` when it ends the session. -/
def takeLine (s : State) (line : List Char) : m (Option State) :=
  let text := s.entry ++ line
  let entry := withoutLineEnd text
  if balanced entry then take { s with entry := [] } entry
  else pure (some { s with entry := text })

/-- Reads at most `n` lines. An entry that the input leaves open is dropped. -/
def loop : Nat → State → m Unit
  | 0, _ => pure ()
  | n + 1, s => do
    match ← Host.readLine with
    | none => Host.print (Style.dimmed "^D" ++ "\n")
    | some (.error e) => Host.printError (Style.errorLabel ++ ": " ++ e.message ++ "\n")
    | some (.ok line) =>
      match ← takeLine s line.toList with
      | some s => loop n s
      | none => pure ()

/-- A session of at most `n` lines. -/
def run (n : Nat) : m Unit := do
  Host.print banner
  loop n {}
  Host.print "\n"

end

end Session

end FlatStack
