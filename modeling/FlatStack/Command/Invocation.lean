/-!
# Invocations

What the words of a command line ask for.
-/

set_option autoImplicit false

namespace FlatStack

inductive Action where
  | compile (source : String) (output : Option String)
  | run (bytecode : String)
  | exec (source : String)
  | dump (bytecode : String)
  /-- Entries are read from the input. -/
  | session
  deriving DecidableEq, Repr

inductive Invocation where
  | action (config : Option String) (action : Action)
  /-- Asks for the version, of a subcommand if one is named. -/
  | version (subcommand : Option String)
  deriving DecidableEq, Repr

namespace Invocation

/-- The subcommand that a word names, by its full name. -/
def subcommand? : String → Option String
  | "compile" | "c" => some "compile"
  | "run" => some "run"
  | "exec" | "x" => some "exec"
  | "dump" => some "dump"
  | _ => none

/-- What is known after the first words. -/
structure Words where
  subcommand : Option String := none
  config : Option String := none
  output : Option String := none
  operands : List String := []
  versionAsked : Bool := false
  deriving DecidableEq, Repr

/-- An option with its value in the same word, such as `--config=file`. -/
def attached? (option word : String) : Option String :=
  let rest := word.toList.drop option.length
  if option.toList.isPrefixOf word.toList then
    match rest with
    | [] => none
    | '=' :: cs => some (String.ofList cs)
    | cs => if option.length = 2 then some (String.ofList cs) else none
  else none

/-- A word that is no option: the subcommand first, then its operands. -/
def Words.operand (known : Words) (word : String) : Option Words :=
  match known.subcommand with
  | some _ => some { known with operands := known.operands ++ [word] }
  | none => (subcommand? word).map fun s => { known with subcommand := some s }

/-- A word that is an option with its value, or one without. -/
def Words.option (known : Words) (word : String) : Option Words :=
  if word == "--verbose" || (word.toList.drop 1).all (· == 'v') then some known
  else if let some value := attached? "--config" word then some { known with config := some value }
  else if (attached? "--debug" word).isSome then some known
  else if let some value := attached? "--output" word <|> attached? "-o" word then
    some { known with output := some value }
  else none

/-- Goes through the words. What follows the version option is not looked at,
and behind two dashes no word is an option. -/
def readWords (known : Words) : List String → Option Words
  | [] => some known
  | "--version" :: _ | "-V" :: _ => some { known with versionAsked := true }
  | "--" :: words => words.foldlM Words.operand known
  | "--config" :: value :: words => readWords { known with config := some value } words
  | "--debug" :: _ :: words => readWords known words
  | "--output" :: value :: words | "-o" :: value :: words =>
    readWords { known with output := some value } words
  | word :: words => do
    let known ← if word.startsWith "-" && word != "-" then known.option word else known.operand word
    readWords known words

def Words.action? (w : Words) : Option Action :=
  match w.subcommand, w.operands with
  | none, [] => some .session
  | some "compile", [source] => some (.compile source w.output)
  | some "run", [bytecode] => some (.run bytecode)
  | some "exec", [source] => some (.exec source)
  | some "dump", [bytecode] => some (.dump bytecode)
  | _, _ => none

/-- Reads the words of a command line; `none` if they make no sense. -/
def ofWords? (words : List String) : Option Invocation := do
  let known ← readWords {} words
  if known.versionAsked then pure (.version known.subcommand)
  else pure (.action known.config (← known.action?))

end Invocation

end FlatStack
