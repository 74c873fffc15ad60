import FlatStack.Operator

/-!
# Machine code

An instruction has an optional numeric operand and an optional comment. The
comment of a reading instruction names what is read. Mnemonics that the
machine does not know stay in the code.
-/

set_option autoImplicit false

namespace FlatStack

inductive Opcode where
  | start
  | halt
  | alloc
  | dealloc
  | store
  | load
  | const
  | unary (op : UnaryOp)
  | binary (op : BinaryOp)
  | jump
  | jumpIfZero
  | read
  | print
  | pushReturn
  | pushParameter
  | call
  | return_
  | unknown (mnemonic : String)
  deriving DecidableEq, Repr

namespace Opcode

def mnemonic : Opcode → String
  | .start => "INPP"
  | .halt => "PARA"
  | .alloc => "ALME"
  | .dealloc => "DESM"
  | .store => "ARMZ"
  | .load => "CRVL"
  | .const => "CRCT"
  | .binary .add => "SOMA"
  | .binary .sub => "SUBT"
  | .binary .mul => "MULT"
  | .binary .div => "DIVI"
  | .unary .neg => "INVE"
  | .unary .not => "NEGA"
  | .binary .and => "CONJ"
  | .binary .or => "DISJ"
  | .binary (.compare .eq) => "CPIG"
  | .binary (.compare .ne) => "CDES"
  | .binary (.compare .ge) => "CMAI"
  | .binary (.compare .le) => "CPMI"
  | .binary (.compare .gt) => "CPMA"
  | .binary (.compare .lt) => "CPME"
  | .jump => "DSVI"
  | .jumpIfZero => "DSVF"
  | .read => "LEIT"
  | .print => "IMPR"
  | .pushReturn => "PUSHER"
  | .pushParameter => "PARAM"
  | .call => "CHPR"
  | .return_ => "RTPR"
  | .unknown mnemonic => mnemonic

/-- All opcodes that the machine knows. -/
def known : List Opcode :=
  [.start, .halt, .alloc, .dealloc, .store, .load, .const,
    .binary .add, .binary .sub, .binary .mul, .binary .div, .unary .neg,
    .unary .not, .binary .and, .binary .or,
    .binary (.compare .eq), .binary (.compare .ne), .binary (.compare .ge),
    .binary (.compare .le), .binary (.compare .gt), .binary (.compare .lt),
    .jump, .jumpIfZero, .read, .print, .pushReturn, .pushParameter, .call, .return_]

def ofMnemonic (mnemonic : String) : Opcode :=
  (known.find? fun o => o.mnemonic == mnemonic).getD (.unknown mnemonic)

def isUnknown : Opcode → Bool
  | .unknown _ => true
  | _ => false

end Opcode

structure Instruction where
  opcode : Opcode
  operand : Option Float := none
  comment : Option String := none
  deriving DecidableEq, Repr

namespace Instruction

/-- An instruction without operand. -/
def bare (opcode : Opcode) : Instruction := { opcode }

def withNumber (opcode : Opcode) (operand : Float) : Instruction :=
  { opcode, operand := some operand }

/-- An instruction whose operand is an address or a count. -/
def withNat (opcode : Opcode) (operand : Nat) : Instruction :=
  withNumber opcode (Float.ofNat operand)

def commented (i : Instruction) (comment : String) : Instruction :=
  { i with comment := some comment }

@[simp] theorem opcode_bare (o : Opcode) : (bare o).opcode = o := rfl

@[simp] theorem opcode_withNumber (o : Opcode) (x : Float) : (withNumber o x).opcode = o := rfl

@[simp] theorem opcode_withNat (o : Opcode) (n : Nat) : (withNat o n).opcode = o := rfl

@[simp] theorem opcode_commented (i : Instruction) (text : String) :
    (i.commented text).opcode = i.opcode := rfl

/-- Equality up to what tells equal numbers apart: both zeros agree, and
numbers that are none agree with nothing. -/
def agrees (a b : Instruction) : Bool :=
  a.opcode == b.opcode && a.comment == b.comment &&
    match a.operand, b.operand with
    | some x, some y => x == y
    | none, none => true
    | _, _ => false

end Instruction

structure Bytecode where
  instructions : Array Instruction
  deriving DecidableEq, Repr

namespace Bytecode

def empty : Bytecode := ⟨#[]⟩

def ofList (is : List Instruction) : Bytecode := ⟨is.toArray⟩

def size (b : Bytecode) : Nat := b.instructions.size

/-- Appends an instruction, whose address is the size so far. -/
def emit (b : Bytecode) (i : Instruction) : Bytecode := ⟨b.instructions.push i⟩

/-- Whether two programs agree instruction by instruction. -/
def agrees (a b : Bytecode) : Bool :=
  a.size == b.size &&
    (a.instructions.toList.zip b.instructions.toList).all fun (x, y) => x.agrees y

end Bytecode

end FlatStack
