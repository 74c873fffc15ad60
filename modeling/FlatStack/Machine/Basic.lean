import FlatStack.Code.Basic
import FlatStack.Decimal.Notation
import FlatStack.Decimal.Reader
import FlatStack.Machine.Console
import FlatStack.Text.Blank

/-!
# The machine

One stack of numbers holds the variables of the top level, the slots of the
running function and the values of expressions. A second stack holds return
addresses. There are no frames: every operand that denotes a slot counts from
the bottom of the stack.

The machine is forgiving. An empty stack yields zeros, a slot past the top
reads as zero, and a return without an address goes on with the next
instruction. What it does not forgive is a fault, which ends the run and
leaves the state as the faulting instruction made it.
-/

set_option autoImplicit false

namespace FlatStack

inductive Fault where
  | divisionByZero (pc : Nat)
  | endOfInput (pc : Nat)
  | unknownInstruction (mnemonic : String) (pc : Nat)
  | stackLimit (pc : Nat)
  | console (error : ConsoleError)
  deriving DecidableEq, Repr

namespace Fault

def message : Fault → String
  | .divisionByZero pc => "division by zero at instruction " ++ toString pc
  | .endOfInput pc => "end of input at instruction " ++ toString pc
  | .unknownInstruction mnemonic pc =>
    "unknown instruction '" ++ mnemonic ++ "' at " ++ toString pc
  | .stackLimit pc => "stack limit exceeded at instruction " ++ toString pc
  | .console e => "console I/O failed: " ++ e.message

end Fault

structure Machine where
  stack : Array Float := #[]
  /-- Return addresses, the latest first. -/
  returns : List Nat := []
  pc : Nat := 0
  halted : Bool := false
  console : Console
  deriving DecidableEq, Repr

/-- What an instruction leads to. -/
inductive Step where
  | next (m : Machine)
  | fault (f : Fault) (m : Machine)
  deriving DecidableEq, Repr

namespace Machine

/-- A machine at the first instruction. -/
def start (console : Console) : Machine := { console }

/-- Allocations and stores reach no further than this. -/
def maxSlots : Nat := Nat.pow 2 20

/-- Addresses that an operand denotes are below this. -/
def addressBound : Nat := Nat.pow 2 63

/-- The address that an operand denotes. It is cut to an integer of 64 bits,
and a negative `-n` stands for `n - 1`. A missing operand is zero, and so is
one that is no number. -/
def address (operand : Option Float) : Nat :=
  let x := operand.getD 0
  if x < 0 then min (-x).toUInt64.toNat addressBound - 1
  else min x.toUInt64.toNat (addressBound - 1)

/-- The count that an operand denotes: what is below zero counts as zero. -/
def count (operand : Option Float) : Nat := (operand.getD 0).toUInt64.toNat

def push (m : Machine) (v : Float) : Machine := { m with stack := m.stack.push v }

/-- The value on top of the stack. -/
def top (m : Machine) : Float := m.stack.back?.getD 0

def drop (m : Machine) (n : Nat) : Machine :=
  { m with stack := m.stack.shrink (m.stack.size - n) }

/-- The stack without its top value. -/
def pop (m : Machine) : Machine := { m with stack := m.stack.pop }

/-- A stack with `n` more zeros on top. -/
def padded (stack : Array Float) (n : Nat) : Array Float := stack ++ Array.replicate n 0

/-- Puts zeros on the stack. -/
def grow (m : Machine) (n : Nat) : Machine := { m with stack := padded m.stack n }

/-- The value in a slot. -/
def slot (m : Machine) (a : Nat) : Float := m.stack[a]?.getD 0

/-- Writes to a slot. Slots between the top and a slot above it become zero. -/
def setSlot (m : Machine) (a : Nat) (v : Float) : Machine :=
  { m with stack := (padded m.stack (a + 1 - m.stack.size)).setIfInBounds a v }

def goto (m : Machine) (pc : Nat) : Machine := { m with pc }

def advance (m : Machine) : Machine := { m with pc := m.pc + 1 }

/-- Writes to the console and goes on from `after` if there was room. -/
def write (m : Machine) (text : String) (after : Machine → Step) : Step :=
  match m.console.write text with
  | (console, true) => after { m with console }
  | (console, false) => .fault (.console .full) { m with console }

/-- How a reading instruction asks for a number. -/
def prompt : Option String → String
  | some name =>
    if name.toList.all Text.isBlank then "[Entrada] " else "[Entrada " ++ name ++ "] "
  | none => "[Entrada] "

/-- The number on an input line; zero if there is none. -/
def lineValue (line : String) : Float := (Decimal.read? (Text.trim line.toList)).getD 0

/-- Asks for a number and pushes it. -/
def readNumber (m : Machine) (name : Option String) : Step :=
  m.write (prompt name) fun m =>
    match m.console.readLine with
    | (none, _) => .fault (.endOfInput m.pc) m
    | (some (.error e), console) => .fault (.console e) { m with console }
    | (some (.ok line), console) => .next ({ m with console }.push (lineValue line)).advance

/-- How a number is printed. -/
def printed (v : Float) : String := "[Saida] " ++ Decimal.operand v ++ "\n"

/-- Applies an operator to the two topmost values, the upper one on its right. -/
def binary (m : Machine) (op : BinaryOp) : Step :=
  let b := m.top
  let m := m.pop
  let a := m.top
  let m := m.pop
  if op = .div ∧ b == 0 then .fault (.divisionByZero m.pc) m
  else .next (m.push (op.apply a b)).advance

/-- Executes one instruction. -/
def step (m : Machine) (i : Instruction) : Step :=
  match i.opcode with
  | .start => .next m.advance
  | .halt => .next { m with halted := true }
  | .alloc =>
    let n := count i.operand
    if m.stack.size + n ≤ maxSlots then .next (m.grow n).advance
    else .fault (.stackLimit m.pc) m
  | .dealloc => .next (m.drop (count i.operand)).advance
  | .store =>
    let a := address i.operand
    if a < maxSlots then
      let v := m.top
      .next (m.pop.setSlot a v).advance
    else .fault (.stackLimit m.pc) m
  | .load | .pushParameter =>
    let v := m.slot (address i.operand)
    .next (m.push v).advance
  | .const => .next (m.push (i.operand.getD 0)).advance
  | .unary op =>
    let v := m.top
    .next (m.pop.push (op.apply v)).advance
  | .binary op => m.binary op
  | .jump | .call => .next (m.goto (address i.operand))
  | .jumpIfZero =>
    let v := m.top
    let m := m.pop
    if v == 0 then .next (m.goto (address i.operand)) else .next m.advance
  | .read => m.readNumber i.comment
  | .print =>
    let v := m.top
    m.pop.write (printed v) fun m => .next m.advance
  | .pushReturn => .next { m with returns := address i.operand :: m.returns }.advance
  | .return_ =>
    match m.returns with
    | [] => .next m.advance
    | pc :: returns => .next { m with pc, returns }
  | .unknown mnemonic => .fault (.unknownInstruction mnemonic m.pc) m

end Machine

end FlatStack
