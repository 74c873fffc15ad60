import FlatStack.Proofs.OtherConsoles

/-!
# Unread input

A run takes its input line by line. Of the text behind the lines that it has
taken it knows nothing, as long as the last of them has come to its newline.
So another text may follow there, and the run leaves it behind unread.
-/

set_option autoImplicit false

namespace FlatStack

open Machine

namespace Console

variable {c : Console} {bytes more : List UInt8} {text : String}

/-! ## Lines -/

/-- The lines of an input, each with its newline. Only the last one may lack it. -/
def lines : List UInt8 → List (List UInt8)
  | [] => []
  | b :: bytes =>
    if b = newline then [b] :: lines bytes
    else
      match lines bytes with
      | [] => [[b]]
      | line :: rest => (b :: line) :: rest

theorem splitLine_cons (b : UInt8) (bytes : List UInt8) : splitLine (b :: bytes) =
    if b = newline then ([b], bytes) else (b :: (splitLine bytes).1, (splitLine bytes).2) := by
  unfold splitLine
  rw [List.span_eq_takeWhile_dropWhile, List.span_eq_takeWhile_dropWhile]
  by_cases last : b = newline
  · rw [if_pos last, List.takeWhile_cons_of_neg (by simp [last]),
      List.dropWhile_cons_of_neg (by simp [last])]
    rfl
  · rw [if_neg last, List.takeWhile_cons_of_pos (by simpa using last),
      List.dropWhile_cons_of_pos (by simpa using last)]
    cases bytes.dropWhile (· != newline) <;> rfl

theorem lines_splitLine (some : bytes ≠ []) :
    lines bytes = (splitLine bytes).1 :: lines (splitLine bytes).2 := by
  induction bytes with
  | nil => exact absurd rfl some
  | cons b bytes ih =>
    rw [lines, splitLine_cons]
    by_cases last : b = newline
    · rw [if_pos last, if_pos last]
    · rw [if_neg last, if_neg last]
      cases bytes with
      | nil => rfl
      | cons b' bytes => rw [ih (by simp)]

theorem flatten_lines (bytes : List UInt8) : (lines bytes).flatten = bytes := by
  induction bytes with
  | nil => rfl
  | cons b bytes ih =>
    rw [lines]
    split
    · rw [List.flatten_cons, ih]
      rfl
    · split
      · rename_i none
        rw [none] at ih
        simp [← ih]
      · rename_i line rest found
        rw [found] at ih
        simpa using ih

/-! ## Input that goes on -/

/-- The console with more input behind what it has. -/
def followedBy (more : List UInt8) (c : Console) : Console := { c with input := c.input ++ more }

theorem splitLine_append (closed : newline ∈ bytes) :
    splitLine (bytes ++ more) = ((splitLine bytes).1, (splitLine bytes).2 ++ more) := by
  induction bytes with
  | nil => cases closed
  | cons b bytes ih =>
    rw [List.cons_append, splitLine_cons, splitLine_cons]
    by_cases last : b = newline
    · rw [if_pos last, if_pos last]
    · have later := (List.mem_cons.mp closed).resolve_left (Ne.symm last)
      rw [if_neg last, if_neg last, ih later]

/-- A line that never comes to its newline takes all there is. -/
theorem splitLine_open (unclosed : newline ∉ bytes) : (splitLine bytes).2 = [] := by
  induction bytes with
  | nil => rfl
  | cons b bytes ih =>
    obtain ⟨other, later⟩ := not_or.mp (mt List.mem_cons.mpr unclosed)
    rw [splitLine_cons, if_neg (Ne.symm other)]
    exact ih later

theorem followedBy_writes : c.WritesAlike (followedBy more) text := by
  unfold WritesAlike write followedBy
  cases c.room <;> rfl

theorem followedBy_reads (closed : newline ∈ c.input) : c.ReadsAlike (followedBy more) := by
  have some : c.input.isEmpty = false := by
    cases here : c.input with
    | nil => simp [here] at closed
    | cons => rfl
  have still : (c.input ++ more).isEmpty = false := by simp_all
  unfold ReadsAlike readLine
  simp only [followedBy, some, still, splitLine_append closed]
  rfl

theorem input_readLine : c.readLine.2.input = (splitLine c.input).2 := by
  unfold readLine
  split
  · rename_i empty
    rw [List.isEmpty_iff.mp empty]
    rfl
  · rfl

end Console

namespace Machine

variable {b : Bytecode} {m u : Machine} {i : Instruction} {n k : Nat}

/-! ## Lines of a run -/

/-- The instruction reads, there is room for its question, and a line is left. -/
def takesLine (m : Machine) (i : Instruction) : Bool :=
  i.opcode == .read && (m.console.write (prompt i.comment)).2 && !m.console.input.isEmpty

/-- How many of the first `n` instructions of a run take a line. -/
def linesTaken (b : Bytecode) : Nat → Machine → Nat
  | 0, _ => 0
  | n + 1, m =>
    if m.halted then 0
    else
      match b.instructions[m.pc]? with
      | none => 0
      | some i =>
        (m.takesLine i).toNat +
          match m.step i with
          | .next m' => linesTaken b n m'
          | .fault _ _ => 0

theorem linesTaken_past (live : m.halted = false) (past : b.instructions[m.pc]? = none) :
    linesTaken b (n + 1) m = 0 := by
  simp [linesTaken, live, past]

theorem linesTaken_next (live : m.halted = false) (fetched : b.instructions[m.pc]? = some i) :
    linesTaken b (n + 1) m = (m.takesLine i).toNat +
      match m.step i with
      | .next m' => linesTaken b n m'
      | .fault _ _ => 0 := by
  simp only [linesTaken, live, fetched]
  rfl

/-- An instruction takes the first line or leaves the input alone. -/
theorem step_input : (m.step i).machine.console.input =
    if m.takesLine i then (Console.splitLine m.console.input).2 else m.console.input := by
  rw [step_console]
  unfold takesLine utterance?
  cases hop : i.opcode with
  | print => simp [Console.input_write]
  | read =>
    simp only [true_and, beq_self_eq_true, Bool.true_and]
    cases room : (m.console.write (prompt i.comment)).2 with
    | false => simp [Console.input_write]
    | true =>
      simp only [if_true, Console.input_readLine, Console.input_write, Bool.true_and]
      cases m.console.input <;> rfl
  | _ => simp

theorem step_lines : (m.takesLine i).toNat ≤ (Console.lines m.console.input).length ∧
    Console.lines (m.step i).machine.console.input =
      (Console.lines m.console.input).drop (m.takesLine i).toNat := by
  rw [step_input]
  cases taken : m.takesLine i with
  | false => simp
  | true =>
    have some : m.console.input ≠ [] := by
      intro empty
      simp [takesLine, empty] at taken
    rw [Console.lines_splitLine some]
    simp

theorem runFrom_lines (steps : Nat) : linesTaken b n m ≤ (Console.lines m.console.input).length ∧
    Console.lines (runFrom b steps n m).2.console.input =
      (Console.lines m.console.input).drop (linesTaken b n m) := by
  induction n generalizing m steps with
  | zero => exact ⟨Nat.zero_le _, rfl⟩
  | succ n ih =>
    rcases next_cases b m with halted | ⟨live, past⟩ | ⟨f, m', faults⟩ | ⟨m', advances⟩
    · rw [runFrom_halted halted, linesTaken, if_pos halted]
      exact ⟨Nat.zero_le _, rfl⟩
    · rw [runFrom_past live past, linesTaken_past live past]
      exact ⟨Nat.zero_le _, rfl⟩
    · rw [runFrom_faults faults]
      obtain ⟨live, i, fetched, stepped⟩ := faults
      have first := step_lines (m := m) (i := i)
      rw [stepped] at first
      rw [linesTaken_next live fetched, stepped]
      exact first
    · rw [runFrom_advances advances]
      obtain ⟨live, i, fetched, stepped⟩ := advances
      obtain ⟨most, first⟩ := step_lines (m := m) (i := i)
      rw [stepped] at first
      rw [linesTaken_next live fetched, stepped]
      obtain ⟨later, rest⟩ := ih (m := m') (steps + 1)
      have left : Console.lines m'.console.input =
          (Console.lines m.console.input).drop (m.takesLine i).toNat := first
      rw [rest, left, List.drop_drop]
      rw [left, List.length_drop] at later
      exact ⟨by simp only; omega, rfl⟩

/-! ## More input -/

theorem step_exhausted (hop : i.opcode = .read)
    (room : (m.console.write (prompt i.comment)).2 = true) (empty : m.console.input = []) :
    ∃ m', m.step i = .fault (.endOfInput m.pc) m' := by
  have left : (m.console.write (prompt i.comment)).1.input = [] :=
    (Console.input_write _ _).trans empty
  simp only [step, hop, readNumber, write]
  split
  · rename_i console written
    have left : console.input = [] := by rwa [written] at left
    exact ⟨{ m with console }, by simp [Console.readLine, left]⟩
  · rename_i console written
    rw [written] at room
    cases room

theorem Runs.start_extends {c : Console} (runs : Runs b k (start c) u) : c.Extends u.console := by
  have ended := (runFrom_unfinished 0).mpr runs
  have further : c.Extends (runFrom b 0 k (start c)).2.console :=
    extends_runFrom (m := start c)
  rwa [ended] at further

/-- Every line that the run reads has a newline if what it takes ends in one. -/
theorem line_closed {c : Console} {taken : List UInt8} {j : Nat}
    (whole : c.input = taken ++ (run b n c).2.console.input)
    (closed : taken = [] ∨ taken.getLast? = some Console.newline)
    (enough : ∀ pc, (run b n c).1 ≠ .faulted (.endOfInput pc))
    (runs : Runs b j (start c) u) (hj : j < n) (live : u.halted = false)
    (fetched : b.instructions[u.pc]? = some i) (hop : i.opcode = .read)
    (room : (u.console.write (prompt i.comment)).2 = true) :
    Console.newline ∈ u.console.input := by
  by_contra unclosed
  by_cases empty : u.console.input = []
  · obtain ⟨m', stepped⟩ := step_exhausted hop room empty
    obtain ⟨d, rfl⟩ : ∃ d, n = j + (d + 1) := ⟨n - j - 1, by omega⟩
    have ended : run b (j + (d + 1)) c = (.faulted (.endOfInput u.pc), m') :=
      (runFrom_runs runs 0 (d + 1)).trans (runFrom_faults ⟨live, i, fetched, stepped⟩ _ _)
    exact enough u.pc (by rw [ended])
  · -- The line that is read now takes the whole rest, so the last byte taken is its last byte.
    have takes : u.takesLine i = true := by simp [takesLine, hop, room, empty]
    have nothing : (u.step i).machine.console.input = [] := by
      rw [step_input, if_pos takes, Console.splitLine_open unclosed]
    have rest : (run b n c).2.console.input = [] := by
      have behind := (runs.extends hj live fetched 0).2
      rw [nothing] at behind
      exact List.suffix_nil.mp behind
    obtain ⟨front, split⟩ := runs.start_extends.2
    rw [rest, List.append_nil, ← split] at whole
    rcases closed with none | last
    · rw [none] at whole
      exact empty (List.append_eq_nil_iff.mp whole).2
    · rw [← whole, List.getLast?_append_of_ne_nil _ empty] at last
      exact unclosed (List.mem_of_getLast? last)

end Machine

/-- What a run takes off its input are the first lines of it, one for each instruction that reads
a line. If they come to the newline of the last one, and no line was asked for in vain, then the
run goes the same way with more input behind, and leaves that too. -/
theorem unread_input_kept (b : Bytecode) (c : Console) (n : Nat) :
    let taken := ((Console.lines c.input).take (linesTaken b n (start c))).flatten
    linesTaken b n (start c) ≤ (Console.lines c.input).length ∧
    c.input = taken ++ (run b n c).2.console.input ∧
    ((taken = [] ∨ taken.getLast? = some Console.newline) →
      (∀ pc, (run b n c).1 ≠ .faulted (.endOfInput pc)) →
      ∀ more, ∀ k ≤ n, run b k (c.followedBy more) =
        ((run b k c).1, (run b k c).2.onConsole (Console.followedBy more))) := by
  intro taken
  obtain ⟨most, left⟩ := runFrom_lines (b := b) (m := start c) (n := n) 0
  have whole : c.input = taken ++ (run b n c).2.console.input := by
    conv_lhs => rw [← Console.flatten_lines c.input,
      ← List.take_append_drop (linesTaken b n (start c)) (Console.lines c.input),
      List.flatten_append]
    rw [show ((Console.lines c.input).drop _) = _ from left.symm, Console.flatten_lines]
    rfl
  refine ⟨most, whole, fun closed enough more k hk => ?_⟩
  refine runFrom_onConsole (m := start c) (fun j hj u runs live i fetched => ?_) 0
  refine step_onConsole (fun _ _ => Console.followedBy_writes) fun hop room => ?_
  refine Console.followedBy_reads ?_
  rw [Console.input_write]
  exact line_closed whole closed enough runs (by omega) live fetched hop room

/-- Reads two numbers. -/
def twoReads : Bytecode := .ofList [.bare .read, .bare .read, .bare .halt]

/-- The second line is no text, and what stands behind it is left. -/
theorem unread_input_kept_unreadableLine :
    let c : Console := { input := [55, 10, 255, 10, 56] }
    linesTaken twoReads 5 (start c) = 2 ∧
    (run twoReads 5 c).1 = .faulted (.console .invalidText) ∧
    run twoReads 5 { input := [55, 10, 255, 10, 56, 57] } =
      ((run twoReads 5 c).1, (run twoReads 5 c).2.onConsole (Console.followedBy [57])) ∧
    (run twoReads 5 c).2.console.input = [56] := by
  intro c
  have faulted : (run twoReads 5 c).1 = .faulted (.console .invalidText) := by decide +kernel
  have enough : ∀ pc, (run twoReads 5 c).1 ≠ .faulted (.endOfInput pc) := by
    intro pc
    rw [faulted]
    nofun
  obtain ⟨-, -, goesOn⟩ := unread_input_kept twoReads c 5
  have closed : ((Console.lines c.input).take (linesTaken twoReads 5 (start c))).flatten.getLast? =
      some Console.newline := by decide +kernel
  exact ⟨by decide +kernel, faulted, goesOn (.inr closed) enough [57] 5 le_rfl,
    by decide +kernel⟩

end FlatStack
