import FlatStack.Proofs.Effects
import FlatStack.Proofs.Runs

/-!
# The limit of the stack

Allocations and stores stay below the limit: one that asks for more faults and
changes nothing. Instructions that push a single value do not look at it. So
the stack of a run is above the limit by at most the number of values that
were pushed onto a full stack, and it is above the limit as soon as there is
one.
-/

set_option autoImplicit false

namespace FlatStack

open Machine

namespace Opcode

/-- Puts one value on the stack and takes none from it. -/
def pushes : Opcode → Bool
  | .load | .const | .read | .pushParameter => true
  | _ => false

end Opcode

/-- Asks for slots beyond the limit, on a stack of the given height. -/
def Instruction.Exceeds (i : Instruction) (height : Nat) : Prop :=
  match i.opcode with
  | .alloc => maxSlots < height + count i.operand
  | .store => maxSlots ≤ address i.operand
  | _ => False

namespace Machine

/-- A push onto a stack that holds all it may hold. -/
def Moment.overflows (now : Moment) : Bool :=
  now.instruction.opcode.pushes && decide (maxSlots ≤ now.stack.size)

variable {m m' : Machine} {i : Instruction} {pc : Nat}

/-! ## Faults -/

/-- The limit is what a fault is about exactly if the instruction asks for more. -/
theorem step_stackLimit :
    m.step i = .fault (.stackLimit pc) m' ↔ i.Exceeds m.stack.size ∧ pc = m.pc ∧ m' = m := by
  unfold Instruction.Exceeds
  constructor
  · intro h
    obtain ⟨failure, rest, c, faulting, named, left⟩ := step_fault.mp h
    cases faulting with
    | alloc hop most | store hop most =>
      exact ⟨by simpa [hop] using most, (Fault.stackLimit.inj named).symm, left.symm⟩
    | _ => cases named
  · rintro ⟨most, rfl, rfl⟩
    cases hop : i.opcode with
    | alloc => exact step_fault.mpr ⟨_, _, _, .alloc hop (by simpa [hop] using most), rfl, rfl⟩
    | store => exact step_fault.mpr ⟨_, _, _, .store hop (by simpa [hop] using most), rfl, rfl⟩
    | _ => simp [hop] at most

/-! ## Heights -/

theorem step_pushes (h : i.opcode.pushes = true) (hs : m.step i = .next m') :
    m'.stack.size = m.stack.size + 1 := by
  cases hop : i.opcode with
  | read =>
    obtain ⟨console, v, rfl⟩ := step_read hop hs
    rw [stack_advance, size_push]
  | load | const | pushParameter =>
    simp only [step, hop, Step.next.injEq] at hs
    rw [← hs, stack_advance, size_push]
  | _ => simp [hop, Opcode.pushes] at h

theorem size_setSlot_le {a : Nat} (v : Float) (h : a < maxSlots) :
    (m.setSlot a v).stack.size ≤ max maxSlots m.stack.size := by
  simp [setSlot, padded]
  omega

/-- An operator on an empty stack leaves its result there. -/
theorem size_pop_push (v : Float) :
    (m.pop.push v).stack.size ≤ max maxSlots m.stack.size := by
  have one : 1 ≤ maxSlots := by decide
  rw [size_push, size_pop]
  omega

theorem step_keeps (h : i.opcode.pushes = false) (hs : m.step i = .next m') :
    m'.stack.size ≤ max maxSlots m.stack.size := by
  cases hop : i.opcode with
  | load | const | read | pushParameter => simp [hop, Opcode.pushes] at h
  | alloc =>
    obtain ⟨fits, rfl⟩ := step_alloc hop hs
    rw [stack_advance, size_grow]
    omega
  | store =>
    obtain ⟨fits, rfl⟩ := step_store hop hs
    have stored := size_setSlot_le (m := m.pop) m.top fits
    rw [size_pop] at stored
    rw [stack_advance]
    omega
  | binary op =>
    obtain rfl := step_binary hop hs
    have pushed := size_pop_push (m := m.pop) (op.apply m.pop.top m.top)
    rw [size_pop] at pushed
    rw [stack_advance]
    omega
  | jumpIfZero =>
    rcases step_jumpIfZero hop hs with rfl | rfl
    · rw [stack_goto, size_pop]
      omega
    · rw [stack_advance, size_pop]
      omega
  | print =>
    obtain ⟨console, rfl⟩ := step_print hop hs
    rw [stack_advance, size_pop]
    omega
  | unary op =>
    simp only [step, hop, Step.next.injEq] at hs
    rw [← hs, stack_advance]
    exact size_pop_push _
  | dealloc =>
    simp only [step, hop, Step.next.injEq] at hs
    rw [← hs, stack_advance, size_drop]
    omega
  | return_ =>
    simp only [step, hop] at hs
    split at hs
    all_goals
      rw [← Step.next.inj hs]
      exact Nat.le_max_right _ _
  | unknown name => simp [step, hop] at hs
  | start | halt | jump | call | pushReturn =>
    simp only [step, hop, Step.next.injEq] at hs
    rw [← hs]
    exact Nat.le_max_right _ _

/-- Only a push goes above the limit, and only from a full stack. -/
theorem step_above (hs : m.step i = .next m') (below : m.stack.size ≤ maxSlots) :
    maxSlots < m'.stack.size ↔ i.opcode.pushes = true ∧ m.stack.size = maxSlots := by
  cases h : i.opcode.pushes with
  | true =>
    rw [step_pushes h hs]
    simp only [true_and]
    omega
  | false =>
    have kept := step_keeps h hs
    simp only [Bool.false_eq_true, false_and, iff_false]
    omega

theorem step_overflow (hs : m.step i = .next m') :
    m'.stack.size ≤ max maxSlots m.stack.size
      + if (Moment.mk m.pc i m.stack).overflows = true then 1 else 0 := by
  cases h : i.opcode.pushes with
  | false => exact Nat.le_add_right_of_le (step_keeps h hs)
  | true =>
    rw [step_pushes h hs]
    by_cases full : maxSlots ≤ m.stack.size
    · simp [Moment.overflows, h, full]
    · simp only [Moment.overflows, h, full, decide_false, Bool.and_false]
      omega

theorem Runs.size_le {b : Bytecode} {n : Nat} (run : Runs b n m m') :
    m'.stack.size ≤ max maxSlots m.stack.size
      + (traceFrom b n m).countP Moment.overflows := by
  induction run with
  | refl m => exact Nat.le_add_right_of_le (Nat.le_max_right _ _)
  | @step k m m' m'' first _ ih =>
    obtain ⟨live, i, fetched, stepped⟩ := first
    have grown := step_overflow stepped
    have trace : traceFrom b (k + 1) m = ⟨m.pc, i, m.stack⟩ :: traceFrom b k m' := by
      simp [traceFrom, live, fetched, stepped]
    rw [trace, List.countP_cons]
    omega

end Machine

/-- The stack of a run is above the limit by at most the number of pushes onto a full stack. At
each instruction, one that asks for slots beyond the limit faults and leaves everything as it was.
From below, the limit is passed by a push onto a full stack and by nothing else. -/
theorem stack_above_limit (text : String) (console : Console) {n : Nat} {m : Machine}
    (run : Runs (Bytecode.parse text) n (start console) m) :
    m.stack.size ≤ maxSlots + (trace (Bytecode.parse text) n console).countP Moment.overflows ∧
      ∀ i, (Bytecode.parse text).instructions[m.pc]? = some i →
        (∀ pc m', m.step i = .fault (.stackLimit pc) m' ↔
          i.Exceeds m.stack.size ∧ pc = m.pc ∧ m' = m) ∧
        ∀ m', m.step i = .next m' → m.stack.size ≤ maxSlots →
          (maxSlots < m'.stack.size ↔ i.opcode.pushes = true ∧ m.stack.size = maxSlots) := by
  refine ⟨run.size_le, fun i _ => ⟨fun pc m' => step_stackLimit, fun m' => step_above⟩⟩

/-- Fills the stack and pushes one more value. -/
def fullPush : String := "ALME 1048576\nCRCT 1\nPARA\n"

theorem parse_fullPush : Bytecode.parse fullPush
    = Bytecode.ofList [.withNat .alloc 1048576, .withNat .const 1, .bare .halt] := by
  decide +kernel

def silent : Console := { input := [] }

/-- A machine that holds as many zeros as it may, at the second instruction. -/
def full : Machine := ((start silent).grow maxSlots).advance

theorem fullPush_full : Runs (Bytecode.parse fullPush) 1 (start silent) full := by
  have all : count (some (Float.ofNat 1048576)) = maxSlots := by decide +kernel
  rw [parse_fullPush]
  refine .single ⟨rfl, .withNat .alloc 1048576, rfl, ?_⟩
  simp [step, Instruction.withNat, Instruction.withNumber, all, start, full]

theorem stack_above_limit_fullPush : Runs (Bytecode.parse fullPush) 1 (start silent) full ∧
    full.stack.size ≤
      maxSlots + (trace (Bytecode.parse fullPush) 1 silent).countP Moment.overflows ∧
    ∀ i, (Bytecode.parse fullPush).instructions[full.pc]? = some i →
      (∀ pc m', full.step i = .fault (.stackLimit pc) m' ↔
        i.Exceeds full.stack.size ∧ pc = full.pc ∧ m' = full) ∧
      ∀ m', full.step i = .next m' → full.stack.size ≤ maxSlots →
        (maxSlots < m'.stack.size ↔ i.opcode.pushes = true ∧ full.stack.size = maxSlots) :=
  ⟨fullPush_full, stack_above_limit fullPush silent fullPush_full⟩

/-- The limit does not hold in all states of all runs. -/
theorem fullPush_above : ¬ ∀ (text : String) (console : Console) (n : Nat) (m : Machine),
    Runs (Bytecode.parse text) n (start console) m → m.stack.size ≤ maxSlots := by
  intro bounded
  have pushed : Runs (Bytecode.parse fullPush) 1 full (full.push 1).advance := by
    rw [parse_fullPush]
    exact .single ⟨rfl, .withNat .const 1, rfl, rfl⟩
  have size := bounded fullPush silent 2 _ (fullPush_full.trans pushed)
  rw [stack_advance, size_push, full, stack_advance, size_grow] at size
  omega

end FlatStack
