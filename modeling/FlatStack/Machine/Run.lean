import FlatStack.Code.Text
import FlatStack.Machine.Basic

/-!
# Runs

A run takes one instruction after another until one of them halts the
machine or faults, or until there is none at the next address. A run that
goes on for ever has no outcome, so outcomes are asked for within a number of
steps.
-/

set_option autoImplicit false

namespace FlatStack

namespace Machine

/-- Why a run stopped without a fault. -/
inductive Ending where
  | halted
  | endOfProgram
  deriving DecidableEq, Repr

inductive Outcome where
  | finished (ending : Ending) (steps : Nat)
  | faulted (f : Fault)
  /-- The allowed steps are used up. -/
  | unfinished
  deriving DecidableEq, Repr

/-- Runs for at most `fuel` instructions; `steps` of them are done already. -/
def runFrom (program : Bytecode) (steps : Nat) : Nat → Machine → Outcome × Machine
  | 0, m => (.unfinished, m)
  | fuel + 1, m =>
    if m.halted then (.finished .halted steps, m)
    else
      match program.instructions[m.pc]? with
      | none => (.finished .endOfProgram steps, m)
      | some i =>
        match m.step i with
        | .next m => runFrom program (steps + 1) fuel m
        | .fault f m => (.faulted f, m)

/-- Runs a program from its first instruction. -/
def run (program : Bytecode) (fuel : Nat) (console : Console) : Outcome × Machine :=
  runFrom program 0 fuel (start console)

/-- An instruction about to be executed. -/
structure Moment where
  pc : Nat
  instruction : Instruction
  stack : Array Float

/-- The first `n` instructions of a run. -/
def traceFrom (program : Bytecode) : Nat → Machine → List Moment
  | 0, _ => []
  | n + 1, m =>
    if m.halted then []
    else
      match program.instructions[m.pc]? with
      | none => []
      | some i =>
        ⟨m.pc, i, m.stack⟩ :: match m.step i with
          | .next m => traceFrom program n m
          | .fault _ _ => []

def trace (program : Bytecode) (n : Nat) (console : Console) : List Moment :=
  traceFrom program n (start console)

/-- The stack as traces show it. -/
def stackText (stack : Array Float) : String :=
  "[" ++ ", ".intercalate (stack.toList.map Decimal.marked) ++ "]"

end Machine

end FlatStack
