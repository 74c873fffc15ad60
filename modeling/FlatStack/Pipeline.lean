import FlatStack.Code.Generator
import FlatStack.Machine.Run
import FlatStack.Program.Grammar
import FlatStack.Scope.Check

/-!
# From source text to a run

Each stage has its own kind of error. An error message of the pipeline names
the kind, and `stage` names the stage.
-/

set_option autoImplicit false

namespace FlatStack

inductive Error where
  | lexical (character : Token.Unrecognized)
  | grammar (expectation : Expectation) (found : Token.Kind) (location : Location)
  | scopes (errors : List ScopeError)
  | emission (error : EmissionError)
  | fault (f : Fault)
  deriving DecidableEq, Repr

namespace Error

def ofParse : ParseError → Error
  | .unrecognized u => .lexical u
  | .unexpected e found location => .grammar e found location

def stage : Error → String
  | .lexical _ => "lexer"
  | .grammar .. => "parser"
  | .scopes _ => "semantic"
  | .emission _ => "codegen"
  | .fault _ => "vm"

def message : Error → String
  | .lexical u =>
    "lexical error at " ++ u.location.text ++ ": " ++ Token.Kind.unexpectedCharacter u.character
  | .grammar e found location =>
    "syntax error at " ++ location.text ++ ": " ++ e.message found
  | .scopes errors => ScopeError.report errors
  | .emission e => "code generation error: " ++ e.message
  | .fault f => "runtime fault: " ++ f.message

end Error

/-- All that comes of a source text on its way to machine code. -/
structure Compilation where
  tokens : List Token
  program : Program
  /-- The tables, with the entries of all functions. -/
  analysis : Analysis
  bytecode : Bytecode

/-- Compiles a source text. Unknown characters are found before anything else. -/
def Compilation.ofSource (source : String) : Except Error Compilation := do
  let tokens ← (Token.scanAll source).mapError .lexical
  let program ← (Program.ofTokens source.toList tokens).mapError .ofParse
  let analysis ← program.analyze.mapError .scopes
  let (result, generator) := (Generator.ofAnalysis analysis).generate program
  let bytecode ← result.mapError .emission
  pure { tokens, program, analysis := generator.analysis, bytecode }

end FlatStack
