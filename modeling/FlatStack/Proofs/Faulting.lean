import FlatStack.Machine.Basic
import FlatStack.Proofs.Stateful

/-!
# Faults

Which instructions fault, and what they leave. A full console is only one of
the things that may not take what is written. So the output goes to a sink
here, which may fail at each text and each time it is to pass on what it has.
-/

set_option autoImplicit false

namespace FlatStack

open Machine Stateful

/-- Something to write to. Both operations may fail. -/
structure Sink (σ ε : Type) where
  write : String → EStateM ε σ Unit
  flush : EStateM ε σ Unit

/-- Why an instruction stops that writes to a sink. -/
inductive Failure (ε : Type) where
  | machine (f : Fault)
  | sink (e : ε)

/-- The instruction that a fault names. -/
def Fault.pc? : Fault → Option Nat
  | .divisionByZero pc | .endOfInput pc | .unknownInstruction _ pc | .stackLimit pc => some pc
  | .console _ => none

def Failure.pc? {ε : Type} : Failure ε → Option Nat
  | .machine f => f.pc?
  | .sink _ => none

namespace Sink

variable {σ ε : Type}

/-- Asks for a number, so that whoever is asked can see it. -/
def ask (sink : Sink σ ε) (name : Option String) : EStateM ε σ Unit := do
  sink.write (prompt name)
  sink.flush

/-- Executes one instruction that writes to the sink. What it reads is on the console. -/
def step (sink : Sink σ ε) (i : Instruction) : EStateM (Failure ε) (Machine × σ) Unit :=
  fun (m, s) =>
    match i.opcode with
    | .print =>
      match sink.write (printed m.top) s with
      | .error e s => .error (.sink e) (m.pop, s)
      | .ok _ s => .ok () (m.pop.advance, s)
    | .read =>
      match sink.ask i.comment s with
      | .error e s => .error (.sink e) (m, s)
      | .ok _ s =>
        match m.console.readLine with
        | (none, _) => .error (.machine (.endOfInput m.pc)) (m, s)
        | (some (.error e), console) => .error (.machine (.console e)) ({ m with console }, s)
        | (some (.ok line), console) =>
          .ok () (({ m with console }.push (lineValue line)).advance, s)
    | _ =>
      match m.step i with
      | .fault f m => .error (.machine f) (m, s)
      | .next m => .ok () (m, s)

/-- What makes an instruction fault. -/
def Fails (sink : Sink σ ε) (i : Instruction) (m : Machine) (s : σ) : Prop :=
  match i.opcode with
  | .unknown _ => True
  | .alloc => maxSlots < m.stack.size + count i.operand
  | .store => maxSlots ≤ address i.operand
  | .binary .div => (m.top == 0) = true
  | .print => ∃ e s', sink.write (printed m.top) s = .error e s'
  | .read => (∃ e s', sink.ask i.comment s = .error e s') ∨ m.console.input = [] ∨
      textOf? (Console.splitLine m.console.input).1 = none
  | _ => False

/-- The faults of an instruction, each with the machine and the sink that it leaves. -/
inductive Faulting (sink : Sink σ ε) (i : Instruction) (m : Machine) (s : σ) :
    Failure ε → Machine → σ → Prop where
  | unknown {name : String} : i.opcode = .unknown name →
    Faulting sink i m s (.machine (.unknownInstruction name m.pc)) m s
  | alloc : i.opcode = .alloc → maxSlots < m.stack.size + count i.operand →
    Faulting sink i m s (.machine (.stackLimit m.pc)) m s
  | store : i.opcode = .store → maxSlots ≤ address i.operand →
    Faulting sink i m s (.machine (.stackLimit m.pc)) m s
  | division : i.opcode = .binary .div → (m.top == 0) = true →
    Faulting sink i m s (.machine (.divisionByZero m.pc)) m.pop.pop s
  | printing {e : ε} {s' : σ} : i.opcode = .print → sink.write (printed m.top) s = .error e s' →
    Faulting sink i m s (.sink e) m.pop s'
  | asking {e : ε} {s' : σ} : i.opcode = .read → sink.ask i.comment s = .error e s' →
    Faulting sink i m s (.sink e) m s'
  | exhausted {s' : σ} : i.opcode = .read → sink.ask i.comment s = .ok () s' →
    m.console.input = [] → Faulting sink i m s (.machine (.endOfInput m.pc)) m s'
  | unreadable {s' : σ} : i.opcode = .read → sink.ask i.comment s = .ok () s' →
    m.console.input ≠ [] → textOf? (Console.splitLine m.console.input).1 = none →
    Faulting sink i m s (.machine (.console .invalidText))
      { m with console := { m.console with input := (Console.splitLine m.console.input).2 } } s'

end Sink

/-- What a fault leaves of the machine. A division drops its operands and a printing instruction
its value. Only a line that is no text is taken off the input. -/
structure Machine.Leaves {ε : Type} (m : Machine) (i : Instruction) (f : Failure ε)
    (m' : Machine) : Prop where
  pc : m'.pc = m.pc
  returns : m'.returns = m.returns
  halted : m'.halted = m.halted
  named : ∀ pc, f.pc? = some pc → pc = m.pc
  stack : m'.stack = match i.opcode with
    | .binary .div => m.stack.pop.pop
    | .print => m.stack.pop
    | _ => m.stack
  input : m'.console.input = m.console.input ∨
    f = .machine (.console .invalidText) ∧ i.opcode = .read ∧
      textOf? (Console.splitLine m.console.input).1 = none ∧
      m'.console.input = (Console.splitLine m.console.input).2

namespace Sink

variable {σ ε : Type} {sink : Sink σ ε} {i : Instruction} {m m' : Machine} {s s' : σ}
  {f : Failure ε}

theorem faulting_of_step (h : sink.step i (m, s) = .error f (m', s')) :
    sink.Faulting i m s f m' s' := by
  cases hop : i.opcode with
  | print =>
    simp only [step, hop] at h
    cases hw : sink.write (printed m.top) s with
    | ok _ t => simp [hw] at h
    | error e t =>
      simp only [hw, EStateM.Result.error.injEq, Prod.mk.injEq] at h
      obtain ⟨rfl, rfl, rfl⟩ := h
      exact .printing hop hw
  | read =>
    simp only [step, hop] at h
    cases ha : sink.ask i.comment s with
    | error e t =>
      simp only [ha, EStateM.Result.error.injEq, Prod.mk.injEq] at h
      obtain ⟨rfl, rfl, rfl⟩ := h
      exact .asking hop ha
    | ok _ t =>
      simp only [ha, Console.readLine] at h
      by_cases empty : m.console.input = []
      · simp only [empty, List.isEmpty_nil, if_true, EStateM.Result.error.injEq,
          Prod.mk.injEq] at h
        obtain ⟨rfl, rfl, rfl⟩ := h
        exact .exhausted hop ha empty
      · rw [if_neg (by simpa using empty)] at h
        cases line : textOf? (Console.splitLine m.console.input).1 with
        | some text => simp [line] at h
        | none =>
          simp only [line, EStateM.Result.error.injEq, Prod.mk.injEq] at h
          obtain ⟨rfl, rfl, rfl⟩ := h
          exact .unreadable hop ha empty line
  | alloc =>
    simp only [step, hop, Machine.step] at h
    by_cases fits : m.stack.size + count i.operand ≤ maxSlots
    · simp [fits] at h
    · simp only [if_neg fits, EStateM.Result.error.injEq, Prod.mk.injEq] at h
      obtain ⟨rfl, rfl, rfl⟩ := h
      exact .alloc hop (Nat.not_le.mp fits)
  | store =>
    simp only [step, hop, Machine.step] at h
    by_cases fits : address i.operand < maxSlots
    · simp [fits] at h
    · simp only [if_neg fits, EStateM.Result.error.injEq, Prod.mk.injEq] at h
      obtain ⟨rfl, rfl, rfl⟩ := h
      exact .store hop (Nat.not_lt.mp fits)
  | binary op =>
    simp only [step, hop, Machine.step, binary] at h
    by_cases zero : op = .div ∧ (m.top == 0) = true
    · simp only [if_pos zero, EStateM.Result.error.injEq, Prod.mk.injEq] at h
      obtain ⟨rfl, rfl, rfl⟩ := h
      obtain ⟨rfl, zero⟩ := zero
      exact .division hop zero
    · simp [if_neg zero] at h
  | unknown name =>
    simp only [step, hop, Machine.step, EStateM.Result.error.injEq, Prod.mk.injEq] at h
    obtain ⟨rfl, rfl, rfl⟩ := h
    exact .unknown hop
  | jumpIfZero =>
    simp only [step, hop, Machine.step] at h
    by_cases zero : (m.top == 0) = true <;> simp [zero] at h
  | return_ =>
    simp only [step, hop, Machine.step] at h
    cases hr : m.returns <;> simp [hr] at h
  | _ =>
    -- The other instructions go on from any state.
    simp [step, hop, Machine.step] at h

theorem Faulting.step (h : sink.Faulting i m s f m' s') :
    sink.step i (m, s) = .error f (m', s') := by
  cases h with
  | unknown hop => simp only [Sink.step, hop, Machine.step]
  | alloc hop most => simp only [Sink.step, hop, Machine.step, if_neg (Nat.not_le.mpr most)]
  | store hop most => simp only [Sink.step, hop, Machine.step, if_neg (Nat.not_lt.mpr most)]
  | division hop zero =>
    simp only [Sink.step, hop, Machine.step, binary, zero, and_self, if_true]
    rfl
  | printing hop refused | asking hop refused => simp only [Sink.step, hop, refused]
  | exhausted hop asked empty =>
    simp only [Sink.step, hop, asked, Console.readLine, empty, List.isEmpty_nil, if_true]
  | unreadable hop asked more line =>
    simp only [Sink.step, hop, asked, Console.readLine]
    rw [if_neg (by simpa using more)]
    simp only [line]

theorem step_error :
    sink.step i (m, s) = .error f (m', s') ↔ sink.Faulting i m s f m' s' :=
  ⟨faulting_of_step, Faulting.step⟩

theorem Faulting.leaves (h : sink.Faulting i m s f m' s') : m.Leaves i f m' := by
  cases h with
  | unknown hop | alloc hop _ | store hop _ | exhausted hop _ _ =>
    exact ⟨rfl, rfl, rfl, fun pc named => (Option.some.inj named).symm, by simp [hop], .inl rfl⟩
  | division hop _ =>
    exact ⟨rfl, rfl, rfl, fun pc named => (Option.some.inj named).symm, by simp [hop, pop],
      .inl rfl⟩
  | printing hop _ =>
    exact ⟨rfl, rfl, rfl, fun _ named => (by cases named), by simp [hop, pop], .inl rfl⟩
  | asking hop _ =>
    exact ⟨rfl, rfl, rfl, fun _ named => (by cases named), by simp [hop], .inl rfl⟩
  | unreadable hop _ _ line =>
    exact ⟨rfl, rfl, rfl, fun _ named => (by cases named), by simp [hop],
      .inr ⟨rfl, hop, line, rfl⟩⟩

theorem fails_iff : sink.Fails i m s ↔ ∃ f m' s', sink.Faulting i m s f m' s' := by
  constructor
  · intro h
    unfold Fails at h
    cases hop : i.opcode with
    | unknown name => exact ⟨_, _, _, .unknown hop⟩
    | alloc => exact ⟨_, _, _, .alloc hop (by simpa [hop] using h)⟩
    | store => exact ⟨_, _, _, .store hop (by simpa [hop] using h)⟩
    | binary op =>
      cases op with
      | div => exact ⟨_, _, _, .division hop (by simpa [hop] using h)⟩
      | _ => simp [hop] at h
    | print =>
      simp only [hop] at h
      obtain ⟨e, t, refused⟩ := h
      exact ⟨_, _, _, .printing hop refused⟩
    | read =>
      simp only [hop] at h
      cases asked : sink.ask i.comment s with
      | error e t => exact ⟨_, _, _, .asking hop asked⟩
      | ok _ t =>
        by_cases empty : m.console.input = []
        · exact ⟨_, _, _, .exhausted hop asked empty⟩
        · have line : textOf? (Console.splitLine m.console.input).1 = none := by
            simpa [asked, empty] using h
          exact ⟨_, _, _, .unreadable hop asked empty line⟩
    | _ => simp [hop] at h
  · rintro ⟨f, m', s', faulting⟩
    unfold Fails
    cases faulting with
    | unknown hop => simp [hop]
    | alloc hop most | store hop most => simpa [hop] using most
    | division hop zero => simpa [hop] using zero
    | printing hop refused | asking hop refused => simp [hop, refused]
    | exhausted hop _ empty => simp [hop, empty]
    | unreadable hop _ _ line => simp [hop, line]

end Sink

/-! ## The console of a machine -/

namespace Console

/-- A console takes what it has room for, and keeps nothing back. -/
def sink : Sink Console ConsoleError where
  write text c :=
    match c.write text with
    | (c, true) => .ok () c
    | (c, false) => .error .full c
  flush := pure ()

theorem input_write (c : Console) (text : String) : (c.write text).1.input = c.input := by
  unfold write
  split <;> rfl

/-- Either way the input stays. -/
theorem sink_write (c : Console) (text : String) : ∃ c', c'.input = c.input ∧
    (c.write text = (c', true) ∧ sink.write text c = .ok () c' ∨
      c.write text = (c', false) ∧ sink.write text c = .error .full c') := by
  have kept := c.input_write text
  cases written : c.write text with
  | mk c' fitted =>
    rw [written] at kept
    refine ⟨c', kept, ?_⟩
    cases fitted <;> simp [sink, written]

theorem sink_ask (c : Console) (name : Option String) :
    sink.ask name c = sink.write (prompt name) c := by
  rw [Sink.ask, bind_apply]
  cases sink.write (prompt name) c <;> rfl

end Console

def Failure.fault : Failure ConsoleError → Fault
  | .machine f => f
  | .sink e => .console e

/-- The machine reads its input, but its output is what the console `c` took. -/
def Machine.writtenTo (m : Machine) (c : Console) : Machine :=
  { m with console := { c with input := m.console.input } }

/-- What a step leads to that writes to a console. -/
def Sink.outcome : EStateM.Result (Failure ConsoleError) (Machine × Console) Unit → Step
  | .ok _ (m, c) => .next (m.writtenTo c)
  | .error f (m, c) => .fault f.fault (m.writtenTo c)

namespace Machine

variable {m m' : Machine} {i : Instruction} {f : Fault}

theorem writtenTo_eq {c : Console} (h : c.input = m.console.input) :
    m.writtenTo c = { m with console := c } := by
  rw [writtenTo, ← h]

/-- The steps of a machine write to its own console. -/
theorem step_outcome (m : Machine) (i : Instruction) :
    m.step i = Sink.outcome (Console.sink.step i (m, m.console)) := by
  cases hop : i.opcode with
  | print =>
    obtain ⟨c, kept, ⟨fits, taken⟩ | ⟨fits, taken⟩⟩ := m.console.sink_write (printed m.top)
    · simp only [step, Sink.step, hop, taken, Sink.outcome]
      rw [writtenTo_eq (m := m.pop.advance) kept, write, show m.pop.console = m.console from rfl,
        fits]
      rfl
    · simp only [step, Sink.step, hop, taken, Sink.outcome]
      rw [writtenTo_eq (m := m.pop) kept, write, show m.pop.console = m.console from rfl, fits]
      rfl
  | read =>
    obtain ⟨c, kept, ⟨fits, taken⟩ | ⟨fits, taken⟩⟩ := m.console.sink_write (prompt i.comment)
    · -- The prompt leaves the input alone, so both ways read the same line.
      simp only [step, Sink.step, hop, readNumber, write, Console.sink_ask, fits, taken,
        Console.readLine, kept]
      by_cases empty : m.console.input.isEmpty = true
      · simp only [if_pos empty, Sink.outcome, Failure.fault, writtenTo_eq kept]
      · simp only [if_neg empty]
        cases textOf? (Console.splitLine m.console.input).1 <;> rfl
    · simp only [step, Sink.step, hop, readNumber, write, Console.sink_ask, fits, taken,
        Sink.outcome, Failure.fault, writtenTo_eq kept]
  | jumpIfZero | alloc | store =>
    simp only [step, Sink.step, hop]
    split <;> rfl
  | binary op =>
    simp only [step, Sink.step, hop, binary]
    split <;> rfl
  | return_ =>
    simp only [step, Sink.step, hop]
    cases m.returns <;> rfl
  | _ =>
    simp only [step, Sink.step, hop]
    rfl

theorem step_fault : m.step i = .fault f m' ↔ ∃ failure rest c,
    Console.sink.Faulting i m m.console failure rest c ∧ failure.fault = f ∧
      rest.writtenTo c = m' := by
  rw [step_outcome]
  cases ran : Console.sink.step i (m, m.console) with
  | ok _ after =>
    constructor
    · intro h
      cases h
    · rintro ⟨failure, rest, c, faulting, -⟩
      rw [faulting.step] at ran
      cases ran
  | error failure after =>
    obtain ⟨rest, c⟩ := after
    have faulting := Sink.step_error.mp ran
    constructor
    · intro h
      obtain ⟨rfl, rfl⟩ := Step.fault.inj h
      exact ⟨failure, rest, c, faulting, rfl, rfl⟩
    · rintro ⟨failure', rest', c', faulting', rfl, rfl⟩
      obtain ⟨rfl, same⟩ := EStateM.Result.error.inj (ran.symm.trans faulting'.step)
      obtain ⟨rfl, rfl⟩ := Prod.mk.inj same
      rfl

/-- What became of the output makes no difference. -/
theorem Leaves.writtenTo {failure : Failure ConsoleError} (h : m.Leaves i failure m')
    (c : Console) :
    m.Leaves i (.machine failure.fault : Failure ConsoleError) (m'.writtenTo c) where
  pc := h.pc
  returns := h.returns
  halted := h.halted
  named := by
    cases failure with
    | machine f => exact h.named
    | sink e => exact fun _ named => by cases named
  stack := h.stack
  input := by
    rcases h.input with kept | ⟨rfl, line⟩
    · exact .inl kept
    · exact .inr ⟨rfl, line⟩

end Machine

/-- An instruction faults exactly if it is unknown, reaches beyond the slots or divides by zero, or
if what it writes is refused or what it reads is no line of text. A fault leaves the machine as it
was but for the operands of a division, the value to be printed and a line that is no text. All of
that holds whatever the output goes to; that of a machine goes to its console. -/
theorem step_faults_iff (m : Machine) (i : Instruction) :
    (∀ (σ ε : Type) (sink : Sink σ ε) (s : σ),
      ((∃ f m' s', sink.step i (m, s) = .error f (m', s')) ↔ sink.Fails i m s) ∧
      ∀ f m' s', sink.step i (m, s) = .error f (m', s') → m.Leaves i f m') ∧
    m.step i = Sink.outcome (Console.sink.step i (m, m.console)) ∧
    ((∃ f m', m.step i = .fault f m') ↔ Console.sink.Fails i m m.console) ∧
    ∀ f m', m.step i = .fault f m' → m.Leaves i (.machine f : Failure ConsoleError) m' := by
  refine ⟨fun σ ε sink s => ⟨?_, fun f m' s' h => (Sink.step_error.mp h).leaves⟩,
    m.step_outcome i, ?_, fun f m' h => ?_⟩
  · simp only [Sink.step_error, Sink.fails_iff]
  · simp only [step_fault, Sink.fails_iff]
    constructor
    · rintro ⟨-, -, failure, rest, c, faulting, -, -⟩
      exact ⟨failure, rest, c, faulting⟩
    · rintro ⟨failure, rest, c, faulting⟩
      exact ⟨_, _, failure, rest, c, faulting, rfl, rfl⟩
  · obtain ⟨failure, rest, c, faulting, rfl, rfl⟩ := step_fault.mp h
    exact faulting.leaves.writtenTo c

/-- The line is gone, and the letter behind it is still there. -/
theorem step_faults_iff_unreadableLine :
    let m : Machine := { stack := #[1], console := ⟨[255, 10, 65], [], none⟩ }
    ∃ m', m.step (.bare .read) = .fault (.console .invalidText) m' ∧
      Console.sink.Fails (.bare .read) m m.console ∧
      m.Leaves (.bare .read) (.machine (.console .invalidText) : Failure ConsoleError) m' ∧
      m'.console.input = [65] := by
  intro m
  obtain ⟨-, -, faults, leaves⟩ := step_faults_iff m (.bare .read)
  obtain ⟨m', stepped, input⟩ : ∃ m', m.step (.bare .read) = .fault (.console .invalidText) m' ∧
      m'.console.input = [65] := ⟨_, by rfl, by decide⟩
  exact ⟨m', stepped, faults.mp ⟨_, _, stepped⟩, leaves _ _ stepped, input⟩

end FlatStack
