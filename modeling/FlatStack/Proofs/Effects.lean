import FlatStack.Proofs.Exact
import FlatStack.Proofs.Faulting
import FlatStack.Proofs.Runs

/-!
# Effects of instructions

How each operation of the machine changes the height of the stack, and what
the instructions lead to that may also fault.
-/

set_option autoImplicit false

namespace FlatStack

namespace Machine

variable {m m' : Machine} {i : Instruction}

/-! ## Heights -/

section Heights

variable (m) (v : Float) (n a : Nat)

@[simp] theorem size_push : (m.push v).stack.size = m.stack.size + 1 := by simp [push]

@[simp] theorem size_pop : m.pop.stack.size = m.stack.size - 1 := by simp [pop]

@[simp] theorem size_drop : (m.drop n).stack.size = m.stack.size - n := by
  simp [drop]

@[simp] theorem size_grow : (m.grow n).stack.size = m.stack.size + n := by
  simp [grow, padded]

/-- A store inside the stack keeps its height. -/
theorem size_setSlot (h : a < m.stack.size) : (m.setSlot a v).stack.size = m.stack.size := by
  simp [setSlot, padded]
  omega

@[simp] theorem stack_advance : m.advance.stack = m.stack := rfl

@[simp] theorem stack_goto : (m.goto n).stack = m.stack := rfl

end Heights

/-! ## Instructions that may fault -/

theorem step_alloc (h : i.opcode = .alloc) (hs : m.step i = .next m') :
    m.stack.size + count i.operand ≤ maxSlots ∧ m' = (m.grow (count i.operand)).advance := by
  simp only [step, h] at hs
  split at hs
  · exact ⟨‹_›, by simpa using hs.symm⟩
  · simp at hs

theorem step_store (h : i.opcode = .store) (hs : m.step i = .next m') :
    address i.operand < maxSlots ∧ m' = (m.pop.setSlot (address i.operand) m.top).advance := by
  simp only [step, h] at hs
  split at hs
  · exact ⟨‹_›, by simpa using hs.symm⟩
  · simp at hs

theorem step_binary {op : BinaryOp} (h : i.opcode = .binary op) (hs : m.step i = .next m') :
    m' = (m.pop.pop.push (op.apply m.pop.top m.top)).advance := by
  simp only [step, h, binary] at hs
  split at hs
  · simp at hs
  · simpa using hs.symm

theorem step_jumpIfZero (h : i.opcode = .jumpIfZero) (hs : m.step i = .next m') :
    m' = m.pop.goto (address i.operand) ∨ m' = m.pop.advance := by
  simp only [step, h] at hs
  split at hs
  · exact .inl (by simpa using hs.symm)
  · exact .inr (by simpa using hs.symm)

theorem step_print (h : i.opcode = .print) (hs : m.step i = .next m') :
    ∃ console, m' = { m.pop with console }.advance := by
  simp only [step, h, write] at hs
  split at hs
  · rename_i console _
    exact ⟨console, by simpa using hs.symm⟩
  · simp at hs

theorem step_read (h : i.opcode = .read) (hs : m.step i = .next m') :
    ∃ console v, m' = ({ m with console }.push v).advance := by
  simp only [step, h, readNumber, write] at hs
  split at hs
  · split at hs
    · simp at hs
    · simp at hs
    · rename_i line console _
      exact ⟨console, lineValue line, by simpa using hs.symm⟩
  · simp at hs

/-- What an instruction makes of the counter, of the return addresses and of the flag. -/
theorem step_control (hs : m.step i = .next m') :
    (match i.opcode with
      | .halt => m'.pc = m.pc
      | .jump | .call => m'.pc = address i.operand
      | .jumpIfZero => m'.pc = address i.operand ∨ m'.pc = m.pc + 1
      | .return_ => m'.pc = m.returns.headD (m.pc + 1)
      | _ => m'.pc = m.pc + 1) ∧
    (m'.returns = match i.opcode with
      | .pushReturn => address i.operand :: m.returns
      | .return_ => m.returns.tail
      | _ => m.returns) ∧
    (i.opcode ≠ .halt → m'.halted = m.halted) := by
  cases h : i.opcode with
  | alloc =>
    obtain ⟨_, rfl⟩ := step_alloc h hs
    exact ⟨rfl, rfl, fun _ => rfl⟩
  | store =>
    obtain ⟨_, rfl⟩ := step_store h hs
    exact ⟨rfl, rfl, fun _ => rfl⟩
  | binary op =>
    obtain rfl := step_binary h hs
    exact ⟨rfl, rfl, fun _ => rfl⟩
  | jumpIfZero =>
    rcases step_jumpIfZero h hs with rfl | rfl
    · exact ⟨.inl rfl, rfl, fun _ => rfl⟩
    · exact ⟨.inr rfl, rfl, fun _ => rfl⟩
  | print =>
    obtain ⟨console, rfl⟩ := step_print h hs
    exact ⟨rfl, rfl, fun _ => rfl⟩
  | read =>
    obtain ⟨console, v, rfl⟩ := step_read h hs
    exact ⟨rfl, rfl, fun _ => rfl⟩
  | return_ =>
    simp only [step, h] at hs
    split at hs
    all_goals
      rename_i hr
      rw [← Step.next.inj hs]
      exact ⟨by simp [hr, advance], by simp [hr, advance], fun _ => rfl⟩
  | unknown mnemonic => simp [step, h] at hs
  | halt =>
    simp only [step, h, Step.next.injEq] at hs
    rw [← hs]
    exact ⟨rfl, rfl, fun other => absurd rfl other⟩
  | _ =>
    simp only [step, h, Step.next.injEq] at hs
    rw [← hs]
    exact ⟨rfl, rfl, fun _ => rfl⟩

/-- Where an instruction leads. -/
theorem step_pc (hs : m.step i = .next m') :
    match i.opcode with
    | .halt => m'.pc = m.pc
    | .jump | .call => m'.pc = address i.operand
    | .jumpIfZero => m'.pc = address i.operand ∨ m'.pc = m.pc + 1
    | .return_ => m'.pc = m.returns.headD (m.pc + 1)
    | _ => m'.pc = m.pc + 1 := (step_control hs).1

theorem step_returns (hs : m.step i = .next m') :
    m'.returns = match i.opcode with
      | .pushReturn => address i.operand :: m.returns
      | .return_ => m.returns.tail
      | _ => m.returns := (step_control hs).2.1

/-- Only the halting instruction halts. -/
theorem step_halted (hs : m.step i = .next m') (h : i.opcode ≠ .halt) :
    m'.halted = m.halted := (step_control hs).2.2 h

/-- Only an unknown instruction faults as such. -/
theorem step_unknown {mnemonic : String} {pc : Nat}
    (hs : m.step i = .fault (.unknownInstruction mnemonic pc) m') : i.opcode.isUnknown = true := by
  obtain ⟨failure, rest, c, faulting, named, -⟩ := step_fault.mp hs
  cases faulting with
  | unknown hop => rw [hop, Opcode.isUnknown]
  | _ => cases named

end Machine

/-! ## Consoles -/

namespace Console

variable {c c' c'' : Console}

/-- More may be written and read. The output has its latest byte first. -/
def Extends (c c' : Console) : Prop := c.output <:+ c'.output ∧ c'.input <:+ c.input

theorem Extends.refl : c.Extends c := ⟨List.suffix_rfl, List.suffix_rfl⟩

theorem Extends.trans (h : c.Extends c') (h' : c'.Extends c'') : c.Extends c'' :=
  ⟨h.1.trans h'.1, h'.2.trans h.2⟩

theorem extends_write (text : String) : c.Extends (c.write text).1 := by
  unfold write
  split
  all_goals exact ⟨by simp [List.reverseAux_eq], List.suffix_rfl⟩

theorem splitLine_suffix (bytes : List UInt8) : (splitLine bytes).2 <:+ bytes := by
  have parts := List.span_eq_takeWhile_dropWhile (· != newline) bytes
  unfold splitLine
  rw [parts]
  split
  · exact List.nil_suffix
  · rename_i b rest heq
    rw [Prod.mk.injEq] at heq
    have dropped : rest <:+ bytes.dropWhile (· != newline) := by
      rw [heq.2]
      exact List.suffix_cons b rest
    exact dropped.trans (List.dropWhile_suffix _)

theorem extends_readLine : c.Extends c.readLine.2 := by
  unfold readLine
  split
  · exact .refl
  · exact ⟨List.suffix_rfl, splitLine_suffix c.input⟩

end Console

/-- The machine that a step leads to or faults in. -/
def Step.machine : Step → Machine
  | .next m | .fault _ m => m

namespace Machine

variable {m : Machine} {i : Instruction}

/-- What an instruction writes. -/
def utterance? (m : Machine) (i : Instruction) : Option String :=
  match i.opcode with
  | .print => some (printed m.top)
  | .read => some (prompt i.comment)
  | _ => none

/-- A text may be written, and if it asks for a line and there is room for it, a line is read. -/
theorem step_console : (m.step i).machine.console =
    match m.utterance? i with
    | none => m.console
    | some text =>
      if i.opcode = .read ∧ (m.console.write text).2 = true then (m.console.write text).1.readLine.2
      else (m.console.write text).1 := by
  unfold step utterance?
  cases i.opcode with
  | print =>
    simp only [write, show m.pop.console = m.console from rfl]
    rcases m.console.write (printed m.top) with ⟨console, _ | _⟩ <;> rfl
  | read =>
    simp only [readNumber, write]
    rcases m.console.write (prompt i.comment) with ⟨console, _ | _⟩
    · rfl
    · simp only [and_self, if_true, Console.readLine]
      by_cases empty : console.input.isEmpty = true
      · simp only [if_pos empty]
        rfl
      · simp only [if_neg empty]
        cases textOf? (Console.splitLine console.input).1 <;> rfl
  | binary op =>
    simp only [binary]
    split <;> rfl
  | return_ => cases hr : m.returns <;> rfl
  | jumpIfZero | alloc | store =>
    simp only []
    split <;> rfl
  | _ => rfl

/-- Instructions only write and read further. -/
theorem extends_step : m.console.Extends (m.step i).machine.console := by
  rw [step_console]
  cases m.utterance? i with
  | none => exact .refl
  | some text =>
    have written := Console.extends_write (c := m.console) text
    simp only
    split
    · exact written.trans Console.extends_readLine
    · exact written

theorem extends_runFrom {b : Bytecode} {steps k : Nat} :
    m.console.Extends (runFrom b steps k m).2.console := by
  induction k generalizing steps m with
  | zero => exact .refl
  | succ k ih =>
    rcases next_cases b m with halted | ⟨live, past⟩ | ⟨f, m', faults⟩ | ⟨m', advances⟩
    · rw [runFrom_halted halted]
      exact .refl
    · rw [runFrom_past live past]
      exact .refl
    · rw [runFrom_faults faults]
      obtain ⟨-, i, -, stepped⟩ := faults
      have after := extends_step (m := m) (i := i)
      rwa [stepped] at after
    · rw [runFrom_advances advances]
      obtain ⟨-, i, -, stepped⟩ := advances
      have after := extends_step (m := m) (i := i)
      rw [stepped] at after
      exact after.trans ih

end Machine

end FlatStack
