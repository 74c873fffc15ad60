import FlatStack.Proofs.OtherConsoles

/-!
# Full consoles

A console with room for `n` bytes is like one without a limit until an
instruction writes more. Then it has taken the first `n` bytes, and the run
ends there. So a limit cuts the output of a run short and changes nothing else.
-/

set_option autoImplicit false

namespace FlatStack

open Machine

namespace Console

variable {c c' : Console} {n : Nat} {text : String}

/-- The console as it is if it has room for `n` bytes in all. -/
def limited (n : Nat) (c : Console) : Console := { c with room := some (n - c.written.length) }

theorem Extends.written (h : c.Extends c') : c.written <+: c'.written :=
  List.reverse_prefix.mpr h.1

theorem write_free (free : c.room = none) (text : String) :
    c.write text = ({ c with output := (bytesOf text).reverse ++ c.output }, true) := by
  rw [write, free]
  simp only [List.reverseAux_eq]

theorem written_free (free : c.room = none) (text : String) :
    (c.write text).1.written = c.written ++ bytesOf text := by
  simp [write_free free, written]

theorem write_limited (text : String) : (c.limited n).write text =
    ({ c with
        output := ((bytesOf text).take (n - c.written.length)).reverse ++ c.output
        room := some (n - c.written.length - (bytesOf text).length) },
      decide ((bytesOf text).length ≤ n - c.written.length)) := by
  simp only [write, limited, List.reverseAux_eq]

/-- A text for which there is room is taken whole. -/
theorem limited_writes (free : c.room = none) (fits : (c.written ++ bytesOf text).length ≤ n) :
    c.WritesAlike (limited n) text := by
  rw [List.length_append] at fits
  have most : (bytesOf text).length ≤ n - c.written.length := by omega
  rw [WritesAlike, write_limited, write_free free, List.take_of_length_le most,
    decide_eq_true most]
  simp [limited, written, Nat.sub_sub]

theorem limited_reads : c.ReadsAlike (limited n) := by
  unfold ReadsAlike readLine limited
  split <;> rfl

/-- Of a text that is too long for the room that is left, the first bytes are taken. -/
theorem limited_full (before : c.written.length ≤ n)
    (exceeds : n < (c.written ++ bytesOf text).length) :
    ((c.limited n).write text).2 = false ∧
      ((c.limited n).write text).1.written = (c.written ++ bytesOf text).take n ∧
      ((c.limited n).write text).1.input = c.input := by
  rw [List.length_append] at exceeds
  rw [write_limited]
  refine ⟨decide_eq_false (by omega), ?_, rfl⟩
  rw [List.take_append, List.take_of_length_le before]
  simp [written]

end Console

namespace Machine

variable {b : Bytecode} {m u : Machine} {i : Instruction} {n k : Nat}

/-- The bytes that an instruction writes. -/
def said (m : Machine) (i : Instruction) : List UInt8 := ((m.utterance? i).map bytesOf).getD []

/-! ## Without a limit -/

theorem step_room (free : m.console.room = none) : (m.step i).machine.console.room = none := by
  rw [step_console]
  cases m.utterance? i with
  | none => exact free
  | some text =>
    simp only [Console.write_free free, Console.readLine]
    split
    · split <;> exact free
    · exact free

theorem step_written (free : m.console.room = none) :
    (m.step i).machine.console.written = m.console.written ++ m.said i := by
  rw [step_console, said]
  cases m.utterance? i with
  | none => simp
  | some text =>
    have line : ∀ c : Console, c.readLine.2.written = c.written := by
      intro c
      unfold Console.readLine
      split <;> rfl
    have taken := Console.written_free free text
    simp only [Option.map_some, Option.getD_some]
    split
    · rw [line, taken]
    · exact taken

theorem Runs.room (runs : Runs b k m u) (free : m.console.room = none) : u.console.room = none := by
  induction runs with
  | refl m => exact free
  | step first _ ih =>
    obtain ⟨_, i, _, stepped⟩ := first
    have after := step_room (i := i) free
    rw [stepped] at after
    exact ih after

/-! ## One instruction -/

/-- As long as all that is written fits, the limit makes no difference. -/
theorem step_fits (free : m.console.room = none)
    (fits : (m.step i).machine.console.written.length ≤ n) :
    (m.onConsole (.limited n)).step i = (m.step i).map (onConsole (.limited n)) := by
  refine step_onConsole (fun text speaks => ?_) fun _ _ => Console.limited_reads
  refine Console.limited_writes free ?_
  rwa [step_written free, said, speaks] at fits

/-- What the console refuses ends the run at the instruction that writes it. -/
theorem step_refused {text : String} (speaks : m.utterance? i = some text)
    (refused : (m.console.write text).2 = false) :
    m.step i = .fault (.console .full)
      { if i.opcode = .print then m.pop else m with console := (m.console.write text).1 } := by
  unfold utterance? at speaks
  split at speaks
  · rename_i hop
    obtain rfl := Option.some.inj speaks
    simp only [step, hop, write, show m.pop.console = m.console from rfl, if_true]
    split
    · simp_all
    · simp_all
  · rename_i hop
    obtain rfl := Option.some.inj speaks
    simp only [step, hop, readNumber, write]
    split
    · simp_all
    · simp_all
  · cases speaks

theorem step_overflows (free : m.console.room = none) (before : m.console.written.length ≤ n)
    (exceeds : n < (m.step i).machine.console.written.length) :
    ∃ m', (m.onConsole (.limited n)).step i = .fault (.console .full) m' ∧ m'.pc = m.pc ∧
      m'.console.written = (m.step i).machine.console.written.take n := by
  rw [step_written free] at exceeds ⊢
  cases speaks : m.utterance? i with
  | none =>
    simp [said, speaks] at exceeds
    omega
  | some text =>
    have bytes : m.said i = bytesOf text := by rw [said, speaks]; rfl
    rw [bytes] at exceeds ⊢
    obtain ⟨refused, taken, -⟩ := Console.limited_full before exceeds
    refine ⟨_, step_refused (m := m.onConsole (.limited n)) speaks refused, ?_, taken⟩
    split <;> rfl

/-! ## Runs -/

/-- A run that writes more than `n` bytes does so first at one of its instructions. -/
theorem first_over {steps : Nat} (before : m.console.written.length ≤ n)
    (exceeds : n < (runFrom b steps k m).2.console.written.length) :
    ∃ j < k, ∃ u i, Runs b j m u ∧ u.halted = false ∧ b.instructions[u.pc]? = some i ∧
      u.console.written.length ≤ n ∧ n < (u.step i).machine.console.written.length := by
  induction k generalizing m steps with
  | zero => exact absurd exceeds before.not_gt
  | succ k ih =>
    rcases next_cases b m with halted | ⟨live, past⟩ | ⟨f, m', faults⟩ | ⟨m', advances⟩
    · rw [runFrom_halted halted] at exceeds
      exact absurd exceeds before.not_gt
    · rw [runFrom_past live past] at exceeds
      exact absurd exceeds before.not_gt
    · rw [runFrom_faults faults] at exceeds
      obtain ⟨live, i, fetched, stepped⟩ := faults
      exact ⟨0, by omega, m, i, .refl m, live, fetched, before, by rwa [stepped]⟩
    · rw [runFrom_advances advances] at exceeds
      obtain ⟨live, i, fetched, stepped⟩ := id advances
      by_cases here : m'.console.written.length ≤ n
      · obtain ⟨j, hj, u, i', runs, rest⟩ := ih here exceeds
        exact ⟨j + 1, by omega, u, i', .step advances runs, rest⟩
      · exact ⟨0, by omega, m, i, .refl m, live, fetched, before, by
          rw [stepped]
          exact Nat.not_le.mp here⟩

theorem runFrom_fits (free : m.console.room = none) {steps : Nat}
    (fits : (runFrom b steps k m).2.console.written.length ≤ n) :
    runFrom b steps k (m.onConsole (.limited n)) =
      ((runFrom b steps k m).1, (runFrom b steps k m).2.onConsole (.limited n)) := by
  refine runFrom_onConsole (fun j hj u runs live i fetched => ?_) steps
  have part := (runs.extends hj live fetched steps).written.length_le
  exact step_fits (runs.room free) (part.trans fits)

theorem Runs.limited (runs : Runs b k m u) (free : m.console.room = none)
    (fits : u.console.written.length ≤ n) :
    Runs b k (m.onConsole (.limited n)) (u.onConsole (.limited n)) := by
  have unlimited := (runFrom_unfinished 0).mpr runs
  have short : (runFrom b 0 k m).2.console.written.length ≤ n := by rwa [unlimited]
  have same := runFrom_fits free short
  rw [unlimited] at same
  exact (runFrom_unfinished 0).mp same

end Machine

/-- A run on a console with room for `n` bytes goes the way of the run without a limit, up to the
instruction that writes byte `n + 1`. If there is one, the run ends in it with the first `n` bytes
of the output, and otherwise both runs come to the same result. -/
theorem full_console_truncates (b : Bytecode) (input : List UInt8) (n k : Nat) :
    let free := run b k { input }
    let tight := run b k { input, room := some n }
    (free.2.console.written.length ≤ n →
      tight = (free.1, free.2.onConsole (Console.limited n))) ∧
    (n < free.2.console.written.length →
      tight.1 = .faulted (.console .full) ∧
      tight.2.console.written = free.2.console.written.take n ∧
      ∃ j < k, ∃ u i, Runs b j (start { input }) u ∧
        Runs b j (start { input, room := some n }) (u.onConsole (Console.limited n)) ∧
        b.instructions[u.pc]? = some i ∧ u.console.written.length ≤ n ∧
        n < (u.step i).machine.console.written.length ∧
        Faults b (u.onConsole (Console.limited n)) (.console .full) tight.2 ∧
        tight.2.pc = u.pc) := by
  intro free tight
  have begin : start { input, room := some n } =
      (start { input }).onConsole (Console.limited n) := rfl
  refine ⟨fun fits => ?_, fun exceeds => ?_⟩
  · exact runFrom_fits rfl fits
  · obtain ⟨j, hj, u, i, runs, live, fetched, before, here⟩ :=
      first_over (m := start { input }) (Nat.zero_le n) exceeds
    obtain ⟨m', stepped, pc, taken⟩ := step_overflows (runs.room rfl) before here
    have tightRuns := runs.limited rfl before
    have faults : Faults b (u.onConsole (Console.limited n)) (.console .full) m' :=
      ⟨live, i, fetched, stepped⟩
    have ended : tight = (.faulted (.console .full), m') := by
      obtain ⟨d, rfl⟩ : ∃ d, k = j + (d + 1) := ⟨k - j - 1, by omega⟩
      exact (runFrom_runs tightRuns 0 (d + 1)).trans (runFrom_faults faults _ _)
    have part := (runs.extends hj live fetched 0).written
    have cut : (u.step i).machine.console.written.take n = free.2.console.written.take n := by
      obtain ⟨more, whole⟩ := part
      rw [show free.2.console.written = _ from whole.symm, List.take_append_of_le_length here.le]
    rw [ended]
    exact ⟨rfl, taken.trans cut, j, hj, u, i, runs, tightRuns, fetched, before, here, faults, pc⟩

/-- Reads a number and prints it. -/
def echoing : Bytecode := .ofList [.bare .read, .bare .print, .bare .halt]

/-- The question fits, and of the answer four bytes do. -/
theorem full_console_truncates_echoing :
    run echoing 1 { input := [55, 10], room := some 14 } =
      ((run echoing 1 { input := [55, 10] }).1,
        (run echoing 1 { input := [55, 10] }).2.onConsole (Console.limited 14)) ∧
    (run echoing 9 { input := [55, 10] }).1 = .finished .halted 3 ∧
    (run echoing 9 { input := [55, 10], room := some 14 }).1 = .faulted (.console .full) ∧
    (run echoing 9 { input := [55, 10], room := some 14 }).2.console.written =
      bytesOf "[Entrada] [Sai" ∧
    (run echoing 9 { input := [55, 10], room := some 14 }).2.pc = 1 := by
  have asked : (run echoing 1 { input := [55, 10] }).2.console.written.length ≤ 14 := by
    decide +kernel
  have answered : (run echoing 9 { input := [55, 10] }).2.console.written =
      bytesOf "[Entrada] [Saida] 7\n" := by decide +kernel
  have exceeds : 14 < (run echoing 9 { input := [55, 10] }).2.console.written.length := by
    rw [answered]
    decide +kernel
  obtain ⟨ended, taken, -⟩ := (full_console_truncates echoing [55, 10] 14 9).2 exceeds
  refine ⟨(full_console_truncates echoing [55, 10] 14 1).1 asked, by decide +kernel, ended, ?_,
    by decide +kernel⟩
  rw [taken, answered]
  decide +kernel

end FlatStack
