import FlatStack.Command.Path
import FlatStack.Command.Toml

/-!
# Settings

Where compiled programs go, and whether the listings of the stages are
written beside them. Settings that are missing keep their defaults, and
unknown ones are not looked at.
-/

set_option autoImplicit false

namespace FlatStack

/-- The stages that can be traced. -/
def tracedStages : List String := ["lexer", "parser", "semantic", "codegen", "vm", "all"]

structure Settings where
  outputDirectory : String := "out"
  bytecodeFile : String := "program.hvm"
  artifacts : Bool := true
  deriving DecidableEq, Repr

namespace Settings

/-- The file that is read when no other is named. -/
def defaultFile : String := "hipo.toml"

/-- Where code goes when no other file is named. -/
def bytecodePath (s : Settings) : String := Path.join s.outputDirectory s.bytecodeFile

def asString (name : String) : Toml.Value → Except String String
  | .string text => .ok text
  | _ => .error ("invalid type for '" ++ name ++ "': expected a string")

def asBoolean (name : String) : Toml.Value → Except String Bool
  | .boolean value => .ok value
  | _ => .error ("invalid type for '" ++ name ++ "': expected a boolean")

def asStrings (name : String) : Toml.Value → Except String (List String)
  | .array items => items.mapM (asString name)
  | _ => .error ("invalid type for '" ++ name ++ "': expected an array of strings")

/-- Applies one setting and collects the stages to trace. -/
def apply (known : Settings × List String) : Toml.Entry → Except String (Settings × List String)
  | (["output_dir"], v) => do
    pure ({ known.1 with outputDirectory := ← asString "output_dir" v }, known.2)
  | (["bytecode_file"], v) => do
    pure ({ known.1 with bytecodeFile := ← asString "bytecode_file" v }, known.2)
  | (["artifacts"], v) => do
    pure ({ known.1 with artifacts := ← asBoolean "artifacts" v }, known.2)
  | (["debug"], v) => do pure (known.1, ← asStrings "debug" v)
  | _ => .ok known

/-- Reads settings. The stages to trace must be known ones. -/
def ofText (text : String) : Except String Settings :=
  match Toml.read? text with
  | none => .error "TOML parse error"
  | some entries => do
    let (settings, stages) ← entries.foldlM apply ({}, [])
    match stages.find? fun s => !tracedStages.contains s with
    | none => pure settings
    | some stage =>
      throw ("unknown debug stage '" ++ stage ++ "' (expected one of: "
        ++ ", ".intercalate tracedStages ++ ")")

end Settings

end FlatStack
