import FlatStack.Proofs.Effects

/-!
# Machines on other consoles

Only an instruction that prints or reads looks at the console. So a run goes
the same way on a changed console, for as long as what it writes is taken
alike and the lines that it reads are the same.
-/

set_option autoImplicit false

namespace FlatStack

namespace Console

variable (change : Console → Console) (c : Console)

/-- It makes no difference whether the text is written before the change or after it. -/
def WritesAlike (text : String) : Prop :=
  (change c).write text = (change (c.write text).1, (c.write text).2)

/-- It makes no difference whether a line is read before the change or after it. -/
def ReadsAlike : Prop := (change c).readLine = (c.readLine.1, change c.readLine.2)

end Console

def Step.map (f : Machine → Machine) : Step → Step
  | .next m => .next (f m)
  | .fault e m => .fault e (f m)

namespace Machine

/-- The machine with its console changed. -/
def onConsole (change : Console → Console) (m : Machine) : Machine :=
  { m with console := change m.console }

variable {change : Console → Console} {m : Machine} {i : Instruction} {b : Bytecode}

@[simp] theorem pc_onConsole : (m.onConsole change).pc = m.pc := rfl

@[simp] theorem halted_onConsole : (m.onConsole change).halted = m.halted := rfl

@[simp] theorem console_onConsole : (m.onConsole change).console = change m.console := rfl

theorem write_onConsole {text : String} {after after' : Machine → Step}
    (alike : m.console.WritesAlike change text)
    (behind : (m.console.write text).2 = true →
      after' { m with console := change (m.console.write text).1 } =
        (after { m with console := (m.console.write text).1 }).map (onConsole change)) :
    (m.onConsole change).write text after' = (m.write text after).map (onConsole change) := by
  unfold write
  rw [console_onConsole, alike]
  rcases written : m.console.write text with ⟨console, _ | _⟩
  · rfl
  · rw [written] at behind
    exact behind rfl

/-- An instruction does the same on a changed console if its text is taken alike there and,
where it reads, the same line comes next. -/
theorem step_onConsole
    (writes : ∀ text, m.utterance? i = some text → m.console.WritesAlike change text)
    (reads : i.opcode = .read → (m.console.write (prompt i.comment)).2 = true →
      (m.console.write (prompt i.comment)).1.ReadsAlike change) :
    (m.onConsole change).step i = (m.step i).map (onConsole change) := by
  cases hop : i.opcode with
  | print =>
    have alike := writes (printed m.top) (by rw [utterance?, hop])
    simp only [step, hop]
    exact write_onConsole (m := m.pop) alike fun _ => rfl
  | read =>
    have alike := writes (prompt i.comment) (by rw [utterance?, hop])
    simp only [step, hop, readNumber]
    refine write_onConsole alike fun room => ?_
    have line := reads hop room
    unfold Console.ReadsAlike at line
    simp only [line]
    rcases (m.console.write (prompt i.comment)).1.readLine with ⟨_ | _ | _, console⟩ <;> rfl
  | jumpIfZero =>
    simp only [step, hop]
    change (if (m.top == 0) = true then _ else _) = _
    split <;> rfl
  | alloc =>
    simp only [step, hop]
    change (if m.stack.size + count i.operand ≤ maxSlots then _ else _) = _
    split <;> rfl
  | store =>
    simp only [step, hop]
    split <;> rfl
  | binary op =>
    simp only [step, hop, binary]
    change (if op = .div ∧ (m.top == 0) = true then _ else _) = _
    split <;> rfl
  | return_ =>
    simp only [step, hop]
    cases hr : m.returns <;> simp [hr, onConsole, Step.map, advance]
  | _ =>
    simp only [step, hop]
    rfl

/-- A run goes the same way if each of its instructions does. -/
theorem runFrom_onConsole {k : Nat} (alike : ∀ j < k, ∀ u, Runs b j m u → u.halted = false →
      ∀ i, b.instructions[u.pc]? = some i →
        (u.onConsole change).step i = (u.step i).map (onConsole change)) (steps : Nat) :
    runFrom b steps k (m.onConsole change) =
      ((runFrom b steps k m).1, (runFrom b steps k m).2.onConsole change) := by
  induction k generalizing m steps with
  | zero => rfl
  | succ k ih =>
    have first := alike 0 (by omega) m (.refl m)
    rcases next_cases b m with halted | ⟨live, past⟩ | ⟨f, m', faults⟩ | ⟨m', advances⟩
    · rw [runFrom_halted halted, runFrom_halted (m := m.onConsole change) halted]
    · rw [runFrom_past live past, runFrom_past (m := m.onConsole change) live past]
    · obtain ⟨live, i, fetched, stepped⟩ := faults
      have same := first live i fetched
      rw [stepped] at same
      rw [runFrom_faults ⟨live, i, fetched, stepped⟩,
        runFrom_faults (m := m.onConsole change) ⟨live, i, fetched, same⟩]
    · obtain ⟨live, i, fetched, stepped⟩ := advances
      have same := first live i fetched
      rw [stepped] at same
      rw [runFrom_advances ⟨live, i, fetched, stepped⟩,
        runFrom_advances (m := m.onConsole change) ⟨live, i, fetched, same⟩]
      refine ih (fun j hj u runs => ?_) (steps + 1)
      exact alike (j + 1) (by omega) u (.step ⟨live, i, fetched, stepped⟩ runs)

/-- What an instruction of a run has written and read is no more than in the end. -/
theorem Runs.extends {j k : Nat} {u : Machine} (runs : Runs b j m u) (hj : j < k)
    (live : u.halted = false) (fetched : b.instructions[u.pc]? = some i) (steps : Nat) :
    (u.step i).machine.console.Extends (runFrom b steps k m).2.console := by
  obtain ⟨n, rfl⟩ : ∃ n, k = j + (n + 1) := ⟨k - j - 1, by omega⟩
  rw [runFrom_runs runs]
  cases stepped : u.step i with
  | next m' =>
    rw [runFrom_advances ⟨live, i, fetched, stepped⟩]
    exact extends_runFrom
  | fault f m' =>
    rw [runFrom_faults ⟨live, i, fetched, stepped⟩]
    exact .refl

end Machine

end FlatStack
