import FlatStack.Proofs.Setting

/-!
# Simulation

A stretch of code simulates an evaluation if it leads to the machine that
holds the result, to the same fault, or on for as many steps as asked when the
evaluation is unfinished. Evaluations in sequence are simulated in sequence.
-/

set_option autoImplicit false

namespace FlatStack

open Machine Evaluation Stateful

/-- What a run from `m` has to do with the result of an evaluation. The machine
that holds a value and a situation is `target`. -/
def Simulates {α : Type} (b : Bytecode) (n : Nat) (m : Machine)
    (target : α → Situation → Machine) : EStateM.Result Stop Situation α → Prop
  | .ok a s => ∃ k, Runs b k m (target a s)
  | .error (.fault kind) s => ∃ k m' f m'',
      Runs b k m m' ∧ Faults b m' f m'' ∧ f.kind = kind ∧ m''.console = s.console
  | .error .unfinished s => ∃ k m', n ≤ k ∧ Runs b k m m' ∧ m'.console = s.console

namespace Simulates

variable {α β : Type} {b : Bytecode} {n j k : Nat} {m m' : Machine}
  {target : α → Situation → Machine} {next : β → Situation → Machine}
  {r : EStateM.Result Stop Situation α} {s : Situation}

theorem of_advances {a : α} (h : Advances b m (target a s)) :
    Simulates b n m target (.ok a s) := ⟨1, .single h⟩

theorem of_faults {f : Fault} (h : Faults b m f m') (hc : m'.console = s.console) :
    Simulates b n m target (.error (.fault f.kind) s) :=
  ⟨0, m, f, m', .refl m, h, rfl, hc⟩

theorem done {a : α} (h : m = target a s) : Simulates b n m target (.ok a s) := by
  rw [h]
  exact ⟨0, .refl _⟩

/-- Steps before a simulation count. -/
theorem after (first : Runs b k m m') (h : Simulates b n m' target r) :
    Simulates b (k + n) m target r := by
  match r with
  | .ok a s =>
    obtain ⟨i, runs⟩ := h
    exact ⟨k + i, first.trans runs⟩
  | .error (.fault kind) s =>
    obtain ⟨i, last, f, stopped, runs, faults, same, hc⟩ := h
    exact ⟨k + i, last, f, stopped, first.trans runs, faults, same, hc⟩
  | .error .unfinished s =>
    obtain ⟨i, last, most, runs, hc⟩ := h
    exact ⟨k + i, last, by omega, first.trans runs, hc⟩

theorem mono (h : Simulates b n m target r) (hj : j ≤ n) : Simulates b j m target r := by
  match r with
  | .ok _ _ | .error (.fault _) _ => exact h
  | .error .unfinished s =>
    obtain ⟨i, last, most, runs, hc⟩ := h
    exact ⟨i, last, hj.trans most, runs, hc⟩

theorem step (first : Advances b m m') (h : Simulates b n m' target r) :
    Simulates b n m target r := (after (.single first) h).mono (by omega)

theorem bind {x : Evaluation α} {f : α → Evaluation β}
    (hx : Simulates b n m target (x s))
    (hf : ∀ a s', x s = .ok a s' → Simulates b n (target a s') next (f a s')) :
    Simulates b n m next ((x >>= f) s) := by
  rw [bind_apply]
  cases hr : x s with
  | ok a s' =>
    rw [hr] at hx
    obtain ⟨k, runs⟩ := hx
    exact (after runs (hf a s' hr)).mono (by omega)
  | error e s' =>
    rw [hr] at hx
    cases e <;> exact hx

/-- The machine may go on after a result. -/
theorem onward {after : α → Situation → Machine} (h : Simulates b n m target r)
    (more : ∀ a s, Advances b (target a s) (after a s)) : Simulates b n m after r := by
  match r with
  | .ok a s =>
    obtain ⟨k, runs⟩ := h
    exact ⟨k + 1, runs.trans (.single (more a s))⟩
  | .error (.fault _) _ | .error .unfinished _ => exact h

theorem congr {other : α → Situation → Machine} (h : Simulates b n m target r)
    (same : ∀ a s, target a s = other a s) : Simulates b n m other r := by
  have : target = other := funext fun a => funext fun s => same a s
  exact this ▸ h

end Simulates

/-! ## Single instructions -/

namespace Setting

variable {g : Setting} {b : Bytecode} {n pc a : Nat} {s : Situation} {ts : List Float}
  {v w : Float} {x : String}

theorem advances_const (h : b.instructions[pc]? = some (.withNumber .const v)) :
    Advances b (g.machine pc s ts) (g.machine (pc + 1) s (ts ++ [v])) := by
  refine ⟨rfl, _, h, ?_⟩
  simp [Machine.step, Instruction.withNumber]

theorem advances_load {i : Instruction} (h : b.instructions[pc]? = some i)
    (hop : i.opcode = .load ∨ i.opcode = .pushParameter) (ha : address i.operand = a)
    (hs : g.slot? x = some a) :
    Advances b (g.machine pc s ts) (g.machine (pc + 1) s (ts ++ [s.read g.own x])) := by
  refine ⟨rfl, _, h, ?_⟩
  rcases hop with hop | hop
  all_goals simp [Machine.step, hop, ha, slot_machine hs]

theorem advances_unary {op : UnaryOp} (h : b.instructions[pc]? = some (.bare (.unary op))) :
    Advances b (g.machine pc s (ts ++ [v])) (g.machine (pc + 1) s (ts ++ [op.apply v])) := by
  refine ⟨rfl, _, h, ?_⟩
  simp [Machine.step, Instruction.bare]

theorem simulates_binary {op : BinaryOp} (h : b.instructions[pc]? = some (.bare (.binary op))) :
    Simulates b n (g.machine pc s (ts ++ [v] ++ [w]))
      (fun u s' => g.machine (pc + 1) s' (ts ++ [u]))
      ((if op = .div ∧ w == 0 then throw (.fault .divisionByZero) else pure (op.apply v w) :
        Evaluation Float) s) := by
  by_cases zero : op = .div ∧ (w == 0) = true
  · rw [if_pos zero]
    have faults : Faults b (g.machine pc s (ts ++ [v] ++ [w])) (.divisionByZero pc)
        (g.machine pc s ts) := by
      refine ⟨rfl, _, h, ?_⟩
      simp only [Machine.step, Instruction.bare, Machine.binary, top_machine, pop_machine]
      rw [if_pos zero]
      rfl
    exact Simulates.of_faults faults rfl
  · rw [if_neg zero]
    apply Simulates.of_advances
    refine ⟨rfl, _, h, ?_⟩
    simp only [Machine.step, Instruction.bare, Machine.binary, top_machine, pop_machine]
    rw [if_neg zero, push_machine, advance_machine]

theorem advances_store (ht : g.tops.Nodup) (ho : g.own.Nodup) {i : Instruction}
    (h : b.instructions[pc]? = some i) (hop : i.opcode = .store) (ha : address i.operand = a)
    (hs : g.slot? x = some a) (room : a < maxSlots) :
    Advances b (g.machine pc s (ts ++ [v])) (g.machine (pc + 1) (s.write g.own x v) ts) := by
  refine ⟨rfl, _, h, ?_⟩
  simp [Machine.step, hop, ha, room, setSlot_machine ht ho hs]

theorem advances_jump {i : Instruction} (h : b.instructions[pc]? = some i)
    (hop : i.opcode = .jump ∨ i.opcode = .call) (ha : address i.operand = a) :
    Advances b (g.machine pc s ts) (g.machine a s ts) := by
  refine ⟨rfl, _, h, ?_⟩
  rcases hop with hop | hop
  all_goals simp [Machine.step, hop, ha]

theorem advances_jumpIfZero {i : Instruction} (h : b.instructions[pc]? = some i)
    (hop : i.opcode = .jumpIfZero) (ha : address i.operand = a) :
    Advances b (g.machine pc s (ts ++ [v]))
      (g.machine (if v == 0 then a else pc + 1) s ts) := by
  refine ⟨rfl, _, h, ?_⟩
  by_cases zero : (v == 0) = true
  · simp [Machine.step, hop, ha, zero]
  · simp [Machine.step, hop, zero]

theorem simulates_print (h : b.instructions[pc]? = some (.bare .print)) :
    Simulates b n (g.machine pc s (ts ++ [v])) (fun _ s' => g.machine (pc + 1) s' ts)
      (say (printed v) s) := by
  unfold say
  have hstep : (g.machine pc s (ts ++ [v])).step (.bare .print)
      = (g.machine pc s ts).write (printed v) fun m => .next m.advance := by
    simp [Machine.step, Instruction.bare]
  unfold Machine.write at hstep
  rw [console_machine] at hstep
  split
  all_goals
    rename_i console hw
    rw [hw] at hstep
  · exact Simulates.of_advances ⟨rfl, _, h, hstep⟩
  · exact Simulates.of_faults (f := .console .full) ⟨rfl, _, h, hstep⟩ rfl

theorem simulates_read {i : Instruction} (h : b.instructions[pc]? = some i)
    (hop : i.opcode = .read) :
    Simulates b n (g.machine pc s ts) (fun v s' => g.machine (pc + 1) s' (ts ++ [v]))
      (ask i.comment s) := by
  have hstep : (g.machine pc s ts).step i = (g.machine pc s ts).readNumber i.comment := by
    simp [Machine.step, hop]
  unfold Machine.readNumber Machine.write at hstep
  rw [console_machine] at hstep
  unfold ask
  rw [bind_apply]
  unfold say
  cases hw : s.console.write (prompt i.comment) with
  | mk console fitted =>
    rw [hw] at hstep
    cases fitted with
    | false => exact Simulates.of_faults (f := .console .full) ⟨rfl, _, h, hstep⟩ rfl
    | true =>
      simp only [withConsole_machine] at hstep
      simp only [hear]
      split
      all_goals
        rename_i hr
        rw [hr] at hstep
      · exact Simulates.of_faults (f := .endOfInput pc) ⟨rfl, _, h, hstep⟩ rfl
      · exact Simulates.of_faults (f := .console _) ⟨rfl, _, h, hstep⟩ rfl
      · apply Simulates.of_advances
        refine ⟨rfl, _, h, hstep.trans ?_⟩
        simp only [push_machine, advance_machine]

end Setting

end FlatStack
