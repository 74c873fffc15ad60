import FlatStack.Machine.Run
import Mathlib

/-!
# Runs step by step

A run within a number of steps is a chain of single steps, and the states it
goes through are those that an unfinished run leaves behind. Beside each state
stands the list of the calls that are active in it: a call becomes active when
its return address is pushed and ends with the return that pops it.
-/

set_option autoImplicit false

namespace FlatStack.Machine

/-! ## Chains of steps -/

/-- One instruction is executed without a fault. -/
def Advances (b : Bytecode) (m m' : Machine) : Prop :=
  m.halted = false ∧ ∃ i, b.instructions[m.pc]? = some i ∧ m.step i = .next m'

inductive Runs (b : Bytecode) : Nat → Machine → Machine → Prop where
  | refl (m : Machine) : Runs b 0 m m
  | step {k : Nat} {m m' m'' : Machine} :
    Advances b m m' → Runs b k m' m'' → Runs b (k + 1) m m''

/-- The next instruction faults. -/
def Faults (b : Bytecode) (m : Machine) (f : Fault) (m' : Machine) : Prop :=
  m.halted = false ∧ ∃ i, b.instructions[m.pc]? = some i ∧ m.step i = .fault f m'

variable {b : Bytecode} {k j : Nat} {m m' m'' : Machine}

theorem Runs.single (h : Advances b m m') : Runs b 1 m m' := .step h (.refl m')

theorem Runs.trans (h : Runs b k m m') (h' : Runs b j m' m'') : Runs b (k + j) m m'' := by
  induction h with
  | refl m => simpa using h'
  | step first _ ih =>
    rw [Nat.add_right_comm]
    exact .step first (ih h')

theorem runFrom_halted (h : m.halted = true) (steps fuel : Nat) :
    runFrom b steps (fuel + 1) m = (.finished .halted steps, m) := by
  simp [runFrom, h]

theorem runFrom_advances (h : Advances b m m') (steps fuel : Nat) :
    runFrom b steps (fuel + 1) m = runFrom b (steps + 1) fuel m' := by
  obtain ⟨live, i, fetched, stepped⟩ := h
  simp [runFrom, live, fetched, stepped]

theorem runFrom_faults {f : Fault} (h : Faults b m f m') (steps fuel : Nat) :
    runFrom b steps (fuel + 1) m = (.faulted f, m') := by
  obtain ⟨live, i, fetched, stepped⟩ := h
  simp [runFrom, live, fetched, stepped]

theorem runFrom_past (live : m.halted = false) (past : b.instructions[m.pc]? = none)
    (steps fuel : Nat) : runFrom b steps (fuel + 1) m = (.finished .endOfProgram steps, m) := by
  simp [runFrom, live, past]

/-- A machine has halted, is past its program, faults or goes on. -/
theorem next_cases (b : Bytecode) (m : Machine) : m.halted = true ∨
    (m.halted = false ∧ b.instructions[m.pc]? = none) ∨
    (∃ f m', Faults b m f m') ∨ ∃ m', Advances b m m' := by
  cases live : m.halted with
  | true => exact .inl rfl
  | false =>
    cases fetched : b.instructions[m.pc]? with
    | none => exact .inr (.inl ⟨rfl, rfl⟩)
    | some i =>
      cases stepped : m.step i with
      | fault f m' => exact .inr (.inr (.inl ⟨f, m', live, i, fetched, stepped⟩))
      | next m' => exact .inr (.inr (.inr ⟨m', live, i, fetched, stepped⟩))

theorem runFrom_runs (h : Runs b k m m') (steps fuel : Nat) :
    runFrom b steps (k + fuel) m = runFrom b (steps + k) fuel m' := by
  induction h generalizing steps with
  | refl m => simp
  | step first _ ih =>
    rw [Nat.add_right_comm, runFrom_advances first, ih]
    congr 1
    omega

theorem runFrom_unfinished (steps : Nat) :
    runFrom b steps k m = (.unfinished, m') ↔ Runs b k m m' := by
  constructor
  · intro h
    induction k generalizing m steps with
    | zero =>
      obtain rfl : m = m' := by simpa [runFrom] using h
      exact .refl m
    | succ k ih =>
      rcases next_cases b m with halted | ⟨live, past⟩ | ⟨f, next, faults⟩ | ⟨next, advances⟩
      · simp [runFrom_halted halted] at h
      · simp [runFrom_past live past] at h
      · simp [runFrom_faults faults] at h
      · rw [runFrom_advances advances] at h
        exact .step advances (ih _ h)
  · intro h
    have := runFrom_runs h steps 0
    simpa [runFrom] using this

theorem run_unfinished {console : Console} :
    run b k console = (.unfinished, m) ↔ Runs b k (start console) m :=
  runFrom_unfinished 0

/-- How a run can end: halted, past the last instruction, or by a fault. -/
theorem runFrom_ended {steps : Nat} {o : Outcome} (h : runFrom b steps k m = (o, m'))
    (ended : o ≠ .unfinished) : ∃ n < k, ∃ last, Runs b n m last ∧
      (o = .finished .halted (steps + n) ∧ last.halted = true ∧ m' = last ∨
        o = .finished .endOfProgram (steps + n) ∧ last.halted = false ∧
          b.instructions[last.pc]? = none ∧ m' = last ∨
        ∃ f, o = .faulted f ∧ Faults b last f m') := by
  induction k generalizing m steps with
  | zero =>
    simp only [runFrom, Prod.mk.injEq] at h
    exact absurd h.1.symm ended
  | succ k ih =>
    rcases next_cases b m with halted | ⟨live, past⟩ | ⟨f, next, faults⟩ | ⟨next, advances⟩
    · rw [runFrom_halted halted, Prod.mk.injEq] at h
      exact ⟨0, by omega, m, .refl m, .inl ⟨h.1.symm, halted, h.2.symm⟩⟩
    · rw [runFrom_past live past, Prod.mk.injEq] at h
      exact ⟨0, by omega, m, .refl m, .inr (.inl ⟨h.1.symm, live, past, h.2.symm⟩)⟩
    · rw [runFrom_faults faults, Prod.mk.injEq] at h
      obtain ⟨rfl, rfl⟩ := h
      exact ⟨0, by omega, m, .refl m, .inr (.inr ⟨f, rfl, faults⟩)⟩
    · rw [runFrom_advances advances] at h
      obtain ⟨n, hn, last, runs, how⟩ := ih h
      refine ⟨n + 1, by omega, last, .step advances runs, ?_⟩
      rw [show steps + (n + 1) = steps + 1 + n by omega]
      exact how

/-! ## Active calls -/

/-- A call that is active: the address of the instruction that began it, and
how many values the stack held then. -/
structure Call where
  site : Nat
  height : Nat
  deriving DecidableEq, Repr

/-- The calls that are active after an instruction, the latest one first. -/
def track (m : Machine) (i : Instruction) (calls : List Call) : List Call :=
  match i.opcode with
  | .pushReturn => ⟨m.pc, m.stack.size⟩ :: calls
  | .return_ => calls.tail
  | _ => calls

/-- The states of a run before each instruction and at its end, each with the
calls that are active in it. -/
inductive Reaches (b : Bytecode) (console : Console) : Machine → List Call → Prop where
  | start : Reaches b console (Machine.start console) []
  | step {m m' : Machine} {calls : List Call} {i : Instruction} :
    Reaches b console m calls → m.halted = false → b.instructions[m.pc]? = some i →
      m.step i = .next m' → Reaches b console m' (track m i calls)

variable {console : Console}

theorem Reaches.runs {calls : List Call} (h : Reaches b console m calls)
    (r : Runs b k m m') : ∃ calls', Reaches b console m' calls' := by
  induction r generalizing calls with
  | refl m => exact ⟨calls, h⟩
  | step first _ ih =>
    obtain ⟨live, i, fetched, stepped⟩ := first
    exact ih (h.step live fetched stepped)

/-- Every chain of steps from the start is reached. -/
theorem Runs.reaches (r : Runs b k (start console) m) : ∃ calls, Reaches b console m calls :=
  Reaches.runs .start r

/-- The states reached are exactly those that unfinished runs stop in. -/
theorem reaches_iff_run :
    (∃ calls, Reaches b console m calls) ↔ ∃ k, run b k console = (.unfinished, m) := by
  constructor
  · rintro ⟨calls, h⟩
    simp only [run_unfinished]
    induction h with
    | start => exact ⟨0, .refl _⟩
    | step _ live fetched stepped ih =>
      obtain ⟨k, runs⟩ := ih
      exact ⟨k + 1, runs.trans (.single ⟨live, _, fetched, stepped⟩)⟩
  · rintro ⟨k, h⟩
    exact Reaches.runs .start (run_unfinished.mp h)

/-- The state and the active calls after `n` more instructions, if none faults. -/
def follow (b : Bytecode) : Nat → Machine → List Call → Option (Machine × List Call)
  | 0, m, calls => some (m, calls)
  | n + 1, m, calls =>
    match b.instructions[m.pc]? with
    | none => none
    | some i =>
      match m.halted, m.step i with
      | false, .next m' => follow b n m' (track m i calls)
      | _, _ => none

theorem Reaches.follow {n : Nat} {calls calls' : List Call} (h : Reaches b console m calls)
    (hf : follow b n m calls = some (m', calls')) : Reaches b console m' calls' := by
  induction n generalizing m calls with
  | zero =>
    obtain ⟨rfl, rfl⟩ : m = m' ∧ calls = calls' := by simpa [Machine.follow] using hf
    exact h
  | succ n ih =>
    rw [Machine.follow] at hf
    split at hf
    · simp at hf
    · rename_i i fetched
      split at hf
      · rename_i next live stepped
        exact ih (h.step live fetched stepped) hf
      · simp at hf

end Machine

/-! ## Resumption points -/

namespace Bytecode

/-- Where the call that begins at `pc` resumes: right after the first calling
instruction from there on. -/
def resumption (b : Bytecode) (pc : Nat) : Nat :=
  pc + ((b.instructions.toList.drop pc).findIdx fun i => i.opcode == .call) + 1

end Bytecode

end FlatStack
