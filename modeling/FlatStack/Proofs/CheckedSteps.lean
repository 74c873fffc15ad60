import FlatStack.Proofs.Casts
import FlatStack.Proofs.Effects

/-!
# Words

The machine of a computer counts in words of 64 bits. Here each step is done
once more in words: a sum, a difference or a negation has a value only if it
fits, and a slot is only written if there is one. The steps that a run takes
never lack a value.
-/

set_option autoImplicit false

namespace FlatStack

open Decimal (Binary64)

/-! ## Checked operations -/

/-- A word without a sign. -/
def unsigned? (n : Int) : Option Nat := if 0 ≤ n ∧ n < 2 ^ 64 then some n.toNat else none

/-- A word with a sign. -/
def signed? (n : Int) : Option Int := if -2 ^ 63 ≤ n ∧ n < 2 ^ 63 then some n else none

/-- The difference of two words without a sign. -/
def difference? (n k : Nat) : Option Nat := if k ≤ n then some (n - k) else none

theorem unsigned?_natCast {n : Nat} (h : n < 2 ^ 64) : unsigned? n = some n := by
  rw [unsigned?, if_pos (by omega), Int.toNat_natCast]

theorem signed?_eq_some {n : Int} (low : -2 ^ 63 ≤ n) (high : n < 2 ^ 63) :
    signed? n = some n :=
  if_pos ⟨low, high⟩

/-- Makes a stack `length` values high. What is new is zero. -/
def resized (stack : Array Float) (length : Nat) : Array Float :=
  Machine.padded (stack.shrink length) (length - stack.size)

theorem resized_up {stack : Array Float} {length : Nat} (h : stack.size ≤ length) :
    resized stack length = Machine.padded stack (length - stack.size) := by
  rw [resized, Array.shrink_eq_take, Array.take_eq_extract, Array.extract_eq_self_of_le h]

/-- Writes to a slot that there is. -/
def set? (stack : Array Float) (a : Nat) (v : Float) : Option (Array Float) :=
  if h : a < stack.size then some (stack.set a v) else none

theorem set?_eq_some {stack : Array Float} {a : Nat} (h : a < stack.size) (v : Float) :
    set? stack a v = some (stack.setIfInBounds a v) := by
  rw [set?, dif_pos h, Array.setIfInBounds, dif_pos h]

namespace Machine

variable {b : Bytecode} {k : Nat} {m m' : Machine} {i : Instruction}

/-- The address that an operand denotes, decoded in words. -/
def address? (operand : Option Float) : Option Nat :=
  let n := encoded operand
  if n < 0 then do
    let next ← signed? (n + 1)
    let opposite ← signed? (-next)
    return (unsigned? opposite).getD (2 ^ 64 - 1)
  else some ((unsigned? n).getD (2 ^ 64 - 1))

/-- Also the least integer has an address. -/
theorem address?_eq (operand : Option Float) : address? operand = some (address operand) := by
  have decoded := address_encoded operand
  obtain ⟨low, high⟩ := encoded_bounds operand
  have bound := address_lt operand
  have words : addressBound = 2 ^ 63 := rfl
  have word := unsigned?_natCast (n := address operand) (by omega)
  unfold address?
  generalize encoded operand = n at *
  by_cases below : n < 0
  · rw [if_neg (by omega)] at decoded
    simp only [if_pos below, signed?_eq_some (n := n + 1) (by omega) (by omega),
      Option.bind_eq_bind, Option.bind_some,
      signed?_eq_some (n := -(n + 1)) (by omega) (by omega)]
    rw [show -(n + 1) = address operand by omega, word]
    rfl
  · rw [if_pos (by omega)] at decoded
    simp only [if_neg below]
    rw [← decoded, word]
    rfl

/-- Writes to a slot of a stack that is made high enough first. -/
def store? (stack : Array Float) (a : Nat) (v : Float) : Option (Array Float) :=
  if stack.size ≤ a then (unsigned? (a + 1)).bind fun length => set? (resized stack length) a v
  else set? stack a v

/-- Goes on with the next instruction. -/
def advance? (m : Machine) : Option Step :=
  (unsigned? (m.pc + 1)).map fun pc => .next { m with pc }

/-- A step in words. -/
def step? (m : Machine) (i : Instruction) : Option Step :=
  match i.opcode with
  | .halt => some (.next { m with halted := true })
  | .alloc =>
    ((unsigned? (m.stack.size + count i.operand)).filter (· ≤ maxSlots)).elim
      (some (.fault (.stackLimit m.pc) m))
      fun length => advance? { m with stack := resized m.stack length }
  | .dealloc => do
    let length ← difference? m.stack.size (min (count i.operand) m.stack.size)
    advance? { m with stack := m.stack.shrink length }
  | .store => do
    let a ← address? i.operand
    if maxSlots ≤ a then some (.fault (.stackLimit m.pc) m)
    else
      let stack ← store? m.pop.stack a m.top
      advance? { m.pop with stack }
  | .load | .pushParameter => do
    let a ← address? i.operand
    advance? (m.push (m.slot a))
  | .jump | .call => (address? i.operand).map fun a => .next (m.goto a)
  | .jumpIfZero =>
    if m.top == 0 then (address? i.operand).map fun a => .next (m.pop.goto a) else advance? m.pop
  | .pushReturn => do
    let a ← address? i.operand
    advance? { m with returns := a :: m.returns }
  | .return_ =>
    match m.returns with
    | [] => advance? m
    | pc :: returns => some (.next { m with pc, returns })
  | .start | .const | .unary _ | .binary _ | .read | .print | .unknown _ =>
    -- The program counter is the only word that these count with.
    match m.step i with
    | .next m' => (unsigned? (m.pc + 1)).map fun pc => .next { m' with pc }
    | .fault f m' => some (.fault f m')

theorem advance?_eq (room : m.pc + 1 < 2 ^ 64) : m.advance? = some (.next m.advance) := by
  rw [advance?, ← Nat.cast_succ, unsigned?_natCast room]
  rfl

/-- The sum is compared with the limit only if it is a word. -/
theorem filter_sum (n k : Nat) : (unsigned? (n + k)).filter (· ≤ maxSlots)
    = if n + k ≤ maxSlots then some (n + k) else none := by
  have word : maxSlots < 2 ^ 64 := by decide
  by_cases room : n + k < 2 ^ 64
  · rw [← Nat.cast_add, unsigned?_natCast room, Option.filter_some]
    simp
  · rw [unsigned?, if_neg (by omega), if_neg (by omega), Option.filter_none]

theorem resized_alloc (n : Nat) : resized m.stack (m.stack.size + n) = (m.grow n).stack := by
  rw [resized_up (Nat.le_add_right _ _), Nat.add_sub_cancel_left]
  rfl

theorem store?_eq {a : Nat} (inside : a < maxSlots) (v : Float) :
    store? m.stack a v = some (m.setSlot a v).stack := by
  have word : maxSlots < 2 ^ 64 := by decide
  unfold store?
  split
  · have size : a < (padded m.stack (a + 1 - m.stack.size)).size := by
      simp [padded]
      omega
    rw [← Nat.cast_succ, unsigned?_natCast (by omega), Option.bind_some, resized_up (by omega),
      set?_eq_some size]
    rfl
  · have inside : a + 1 - m.stack.size = 0 := by omega
    rw [set?_eq_some (by omega), setSlot, inside]
    simp [padded]

theorem step?_eq (room : m.pc + 1 < 2 ^ 64) : m.step? i = some (m.step i) := by
  have next (m' : Machine) (same : m'.pc = m.pc) : m'.advance? = some (.next m'.advance) :=
    advance?_eq (same ▸ room)
  cases hop : i.opcode with
  | halt => simp only [step?, step, hop]
  | alloc =>
    simp only [step?, step, hop]
    rw [filter_sum]
    by_cases fits : m.stack.size + count i.operand ≤ maxSlots
    · rw [if_pos fits, if_pos fits, Option.elim_some, resized_alloc]
      exact next (m.grow _) rfl
    · rw [if_neg fits, if_neg fits, Option.elim_none]
  | dealloc =>
    have length : m.stack.size - min (count i.operand) m.stack.size
        = m.stack.size - count i.operand := by omega
    simp only [step?, step, hop, difference?]
    rw [if_pos (Nat.min_le_right _ _), length, Option.bind_eq_bind, Option.bind_some]
    exact next (m.drop _) rfl
  | store =>
    simp only [step?, step, hop]
    rw [address?_eq, Option.bind_eq_bind, Option.bind_some]
    by_cases inside : address i.operand < maxSlots
    · rw [if_neg (by omega), if_pos inside]
      rw [store?_eq inside, Option.bind_eq_bind, Option.bind_some]
      exact next (m.pop.setSlot _ _) rfl
    · rw [if_pos (by omega), if_neg inside]
  | load | pushParameter =>
    simp only [step?, step, hop]
    rw [address?_eq, Option.bind_eq_bind, Option.bind_some]
    exact next (m.push _) rfl
  | jump | call => simp only [step?, step, hop, address?_eq, Option.map_some]
  | jumpIfZero =>
    simp only [step?, step, hop, address?_eq, Option.map_some]
    by_cases zero : (m.top == 0) = true
    · simp only [if_pos zero]
    · simp only [if_neg zero]
      exact next m.pop rfl
  | pushReturn =>
    simp only [step?, step, hop]
    rw [address?_eq, Option.bind_eq_bind, Option.bind_some]
    exact next { m with returns := _ } rfl
  | return_ =>
    simp only [step?, step, hop]
    cases m.returns with
    | nil => exact next m rfl
    | cons pc returns => rfl
  | start | const | unary | binary | read | print | unknown =>
    simp only [step?, hop]
    cases stepped : m.step i with
    | fault f m' => rfl
    | next m' =>
      have counted := step_pc stepped
      simp only [hop] at counted
      simp only [← Nat.cast_succ, unsigned?_natCast room, Option.map_some, ← counted]

/-! ## Reachable states -/

/-- The counter and the return addresses are addresses, but for a counter behind the last
instruction. -/
structure Addressed (b : Bytecode) (m : Machine) : Prop where
  pc : m.pc < addressBound ∨ m.pc ≤ b.instructions.size
  returns : ∀ a ∈ m.returns, a < addressBound

theorem addressed_start (b : Bytecode) (console : Console) : Addressed b (start console) where
  pc := .inr (Nat.zero_le _)
  returns := by simp [start]

theorem Addressed.step (h : Addressed b m) (inside : m.pc < b.instructions.size)
    (hs : m.step i = .next m') : Addressed b m' where
  pc := by
    have jumps := address_lt i.operand
    have counted := step_pc hs
    cases hop : i.opcode with
    | halt =>
      simp only [hop] at counted
      exact counted ▸ h.pc
    | jump | call =>
      simp only [hop] at counted
      omega
    | jumpIfZero =>
      simp only [hop] at counted
      omega
    | return_ =>
      simp only [hop] at counted
      cases back : m.returns with
      | nil =>
        simp only [back, List.headD_nil] at counted
        omega
      | cons a rest =>
        simp only [back, List.headD_cons] at counted
        exact .inl (counted ▸ h.returns a (by simp [back]))
    | _ =>
      simp only [hop] at counted
      omega
  returns := by
    have left := step_returns hs
    intro a ha
    cases hop : i.opcode with
    | pushReturn =>
      simp only [hop] at left
      rw [left, List.mem_cons] at ha
      rcases ha with rfl | ha
      · exact address_lt i.operand
      · exact h.returns a ha
    | return_ =>
      simp only [hop] at left
      exact h.returns a (List.mem_of_mem_tail (left ▸ ha))
    | _ =>
      simp only [hop] at left
      exact h.returns a (left ▸ ha)

theorem Addressed.runs (h : Addressed b m) (run : Runs b k m m') : Addressed b m' := by
  induction run with
  | refl => exact h
  | step first _ ih =>
    obtain ⟨-, i, fetched, stepped⟩ := first
    obtain ⟨inside, -⟩ := Array.getElem?_eq_some_iff.mp fetched
    exact ih (h.step inside stepped)

/-- A slot that was written is a slot of the stack. -/
theorem lt_size_setSlot (a : Nat) (v : Float) : a < (m.setSlot a v).stack.size := by
  simp [setSlot, padded]
  omega

end Machine

open Machine

/-- Words of 64 bits suffice. Whatever an operand is, it is cut to an integer and denotes an address
below `2 ^ 63`; the counters and return addresses that a run comes by are such, and each of its
steps has the same result in words. For the counter that is so because the length of a program is a
word. -/
theorem words_suffice (b : Bytecode) (console : Console) {k : Nat} {m : Machine}
    (run : Runs b k (start console) m) :
    (∀ operand : Option Float, address? operand = some (address operand) ∧
      address operand ≤ 2 ^ 63 - 1 ∧
      (address operand : Int)
        = (if 0 ≤ encoded operand then encoded operand else -encoded operand - 1) ∧
      (count operand : Int) = (Binary64.ofFloat (operand.getD 0)).saturated 0 (2 ^ 64 - 1)) ∧
    Addressed b m ∧
    ∀ i, m.halted = false → b.instructions[m.pc]? = some i →
      m.pc < b.instructions.size ∧
      (∀ m', i.opcode = .store → m.step i = .next m' →
        address i.operand + 1 ≤ maxSlots ∧ address i.operand < m'.stack.size) ∧
      (b.instructions.size < 2 ^ 64 → m.step? i = some (m.step i)) := by
  refine ⟨fun operand => ⟨address?_eq operand, Nat.le_sub_one_of_lt (address_lt operand),
    address_encoded operand, count_saturated operand⟩, (addressed_start b console).runs run, ?_⟩
  intro i _ fetched
  obtain ⟨inside, -⟩ := Array.getElem?_eq_some_iff.mp fetched
  refine ⟨inside, ?_, fun word => step?_eq (by omega)⟩
  intro m' hop stepped
  obtain ⟨fits, rfl⟩ := step_store hop stepped
  exact ⟨fits, lt_size_setSlot _ _⟩

/-- Stores to the slot that minus three stands for. -/
def storeBelowZero : Bytecode := .ofList [.withNumber .const 7, .withNumber .store (-3)]

/-- The stack grows to the slot, and a number far below zero is the greatest address. -/
theorem words_suffice_storeBelowZero :
    let m : Machine := { stack := #[7], pc := 1, console := ⟨[], [], none⟩ }
    Runs storeBelowZero 1 (start ⟨[], [], none⟩) m ∧ Addressed storeBelowZero m ∧
      m.step? (.withNumber .store (-3))
        = some (.next { m with stack := #[0, 0, 7], pc := 2 }) ∧
      address (some (-3)) + 1 ≤ maxSlots ∧ address? (some (-1e30)) = some (2 ^ 63 - 1) := by
  intro m
  have run : Runs storeBelowZero 1 (start ⟨[], [], none⟩) m :=
    .single ⟨rfl, .withNumber .const 7, rfl, rfl⟩
  obtain ⟨operands, addressed, steps⟩ := words_suffice storeBelowZero ⟨[], [], none⟩ run
  obtain ⟨-, stores, words⟩ := steps (.withNumber .store (-3)) rfl rfl
  have stored : m.step (.withNumber .store (-3))
      = .next { m with stack := #[0, 0, 7], pc := 2 } := by decide +kernel
  have far : address (some (-1e30)) = 2 ^ 63 - 1 := by decide +kernel
  obtain ⟨decoded, -⟩ := operands (some (-1e30))
  exact ⟨run, addressed, stored ▸ words (by decide), (stores _ rfl stored).1, far ▸ decoded⟩

end FlatStack
