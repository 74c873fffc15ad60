import FlatStack.Code.Basic
import FlatStack.Decimal.Notation
import FlatStack.Decimal.Reader
import FlatStack.Text.Blank

/-!
# Machine code as text

One line for each instruction: the mnemonic, the operand if there is one, and
the comment behind a `#` if there is one. Reading is lenient. Blank lines are
skipped, an operand that is no number is dropped, and so is an empty comment.
-/

set_option autoImplicit false

namespace FlatStack

namespace Instruction

def text (i : Instruction) : String :=
  let operand := match i.operand with
    | some x => " " ++ Decimal.operand x
    | none => ""
  let comment := match i.comment with
    | some c => " #" ++ c
    | none => ""
  i.opcode.mnemonic ++ operand ++ comment

/-- The comment behind the first `#`. -/
def readComment? : List Char → Option String
  | '#' :: cs =>
    match Text.trim cs with
    | [] => none
    | c :: cs => some (String.ofList (c :: cs))
  | _ => none

/-- Reads one line. Only the first word between mnemonic and comment counts. -/
def ofLine (line : List Char) : Instruction :=
  let (mnemonic, rest) := Text.splitWord (Text.trim line)
  let (argument, comment) := rest.span (· != '#')
  { opcode := Opcode.ofMnemonic (String.ofList mnemonic)
    operand := (Text.firstWord? argument).bind Decimal.read?
    comment := readComment? comment }

end Instruction

namespace Bytecode

/-- Reads a program, one instruction from each line that is not blank. -/
def parse (text : String) : Bytecode :=
  let lines := (Text.lines text.toList).filter fun line => !line.all Text.isBlank
  ofList (lines.map Instruction.ofLine)

def text (b : Bytecode) : String :=
  String.join (b.instructions.toList.map fun i => i.text ++ "\n")

/-- A number in a field of the given width, to the right. -/
def rightAligned (width n : Nat) : String :=
  let digits := toString n
  String.ofList (List.replicate (width - digits.length) ' ') ++ digits

def listingLine (address : Nat) (i : Instruction) : String :=
  rightAligned 4 address ++ "  " ++ i.text

/-- The lines of the program, each behind its address. -/
def listingLines (b : Bytecode) : List String :=
  b.instructions.toList.zipIdx.map fun (i, address) => listingLine address i

def listing (b : Bytecode) : String :=
  String.join (b.listingLines.map (· ++ "\n"))

end Bytecode

end FlatStack
