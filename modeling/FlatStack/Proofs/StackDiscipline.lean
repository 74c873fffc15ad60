import FlatStack.Proofs.Discipline

/-!
# The stack of a run

Whatever a program calls, and however often, an initializer or a statement
begins with exactly the slots of its region on top of what the calls found. So
no instruction ever looks below or above what is there, although the machine
would let it.
-/

set_option autoImplicit false

namespace FlatStack

open Machine (Call Reaches)

/-- How many values an instruction takes off the stack. -/
def Opcode.pops : Opcode → Nat
  | .store | .unary _ | .jumpIfZero | .print => 1
  | .binary _ => 2
  | _ => 0

/-- What an instruction takes off the stack is there, and so is every slot that
it reads or writes. -/
structure Instruction.Covered (i : Instruction) (m : Machine) : Prop where
  pops : i.opcode.pops ≤ m.stack.size
  drops : i.opcode = .dealloc → Machine.count i.operand ≤ m.stack.size
  reads : i.opcode = .load ∨ i.opcode = .pushParameter →
    Machine.address i.operand < m.stack.size
  /-- The value to be stored lies above the slot. -/
  writes : i.opcode = .store → Machine.address i.operand < m.stack.size - 1

namespace Program

variable {p : Program} {b : Bytecode} {m : Machine} {calls : List Call} {i : Instruction}
  {s : Site}

theorem Addresses.lt {r : Region} {d depth : Nat} {k : Option Nat} {o : Bool}
    (h : p.Addresses ⟨r, d, k, o⟩ i depth) (chain : p.Chain b r calls) :
    Machine.address i.operand < floor r calls + depth := by
  obtain ⟨a, ha, inReach, exact, full⟩ := h
  rw [ha, Machine.address_ofNat a exact]
  exact inReach.trans_le (chain.reach_le full)

theorem Orderly.covered (h : p.Orderly b m calls) (hs : p.sites[m.pc]? = some s)
    (flow : p.Flow b m.pc i s) : i.Covered m := by
  unfold Flow at flow
  cases h with
  | rest hat _ chain size =>
    obtain ⟨o, rfl⟩ := hat.unique hs
    cases hop : i.opcode with
    | dealloc =>
      simp only [hop] at flow
      refine ⟨by simp [hop, Opcode.pops], ?_, by simp [hop], by simp [hop]⟩
      intro _
      rw [flow.2.1, Machine.count_ofNat _ flow.2.2.1]
      omega
    | load =>
      simp only [hop] at flow
      refine ⟨by simp [hop, Opcode.pops], by simp [hop], ?_, by simp [hop]⟩
      intro _
      rw [size]
      exact flow.2.1.lt chain
    | store =>
      simp only [hop] at flow
      obtain ⟨_, d', hd, addresses, _⟩ := flow
      have := addresses.lt chain
      refine ⟨?_, by simp [hop], by simp [hop], ?_⟩
      · simp only [hop, Opcode.pops]
        omega
      · intro _
        omega
    | unary op | print =>
      simp only [hop] at flow
      obtain ⟨_, d', hd, _⟩ := flow
      refine ⟨?_, by simp [hop], by simp [hop], by simp [hop]⟩
      simp only [hop, Opcode.pops]
      omega
    | binary op =>
      simp only [hop] at flow
      obtain ⟨_, d', hd, _⟩ := flow
      refine ⟨?_, by simp [hop], by simp [hop], by simp [hop]⟩
      simp only [hop, Opcode.pops]
      omega
    | jumpIfZero =>
      simp only [hop] at flow
      obtain ⟨_, d', t, hd, _⟩ := flow
      refine ⟨?_, by simp [hop], by simp [hop], by simp [hop]⟩
      simp only [hop, Opcode.pops]
      omega
    | pushParameter => simp [hop] at flow
    | _ => exact ⟨by simp [hop, Opcode.pops], by simp [hop], by simp [hop], by simp [hop]⟩
  | passing hat _ made chain size =>
    obtain ⟨o, rfl⟩ := hat.unique hs
    cases hop : i.opcode with
    | pushParameter =>
      simp only [hop] at flow
      obtain ⟨k', hk, addresses, _⟩ := flow
      refine ⟨by simp [hop, Opcode.pops], by simp [hop], ?_, by simp [hop]⟩
      intro _
      have := addresses.lt chain
      rw [size, made.height]
      omega
    | call => exact ⟨by simp [hop, Opcode.pops], by simp [hop], by simp [hop], by simp [hop]⟩
    | _ => simp [hop] at flow

/-- Between calls the stack holds what the site tells. -/
theorem Orderly.size_eq (h : p.Orderly b m calls) (hs : p.sites[m.pc]? = some s)
    (plain : s.passed = none) :
    p.Chain b s.region calls ∧ m.stack.size = floor s.region calls + s.depth := by
  cases h with
  | rest hat _ chain size =>
    obtain ⟨o, rfl⟩ := hat.unique hs
    exact ⟨chain, size⟩
  | passing hat =>
    obtain ⟨o, rfl⟩ := hat.unique hs
    simp at plain

end Program

variable {p : Program} {b : Bytecode} {m : Machine} {calls : List Call} {console : Console}

/-- Every state of a run of a compiled program has a site, and where an
initializer or a statement opens, the stack holds the slots of its region above
the height at which the call of the region began. A call returns at that
height, and no instruction goes beyond the stack. -/
theorem stack_discipline (compiled : Compiled p b) (wide : p.Addressable b)
    (h : Reaches b console m calls) :
    p.sites.length = b.size ∧
    ∃ s i, p.sites[m.pc]? = some s ∧ b.instructions[m.pc]? = some i ∧
      (s.opens = true → s.region = .top → m.stack.size = p.globals) ∧
      (∀ q ∈ p.routines, s.opens = true → s.region = .function q.name →
        ∃ c rest, calls = c :: rest ∧
          m.stack.size = c.height + q.parameters.length + q.vars.length) ∧
      (i.opcode = .return_ → ∃ c rest, calls = c :: rest ∧ m.stack.size = c.height) ∧
      i.Covered m ∧
      (i.opcode = .halt → m.stack.size = p.globals) := by
  obtain ⟨im⟩ := compiled.image
  have flowing := flowing_program wide im
  have orderly := Program.Orderly.of_reaches flowing h
  obtain ⟨i, s, fetched, found, flow⟩ := orderly.fetched flowing (length_sites im)
  have covered := orderly.covered found flow
  refine ⟨length_sites im, s, i, found, fetched, ?_, ?_, ?_, covered, ?_⟩
  · intro opens top
    obtain ⟨full, plain⟩ := opening_full im (List.mem_of_getElem? found) opens
    obtain ⟨chain, size⟩ := orderly.size_eq found plain
    rw [full, top] at size
    simpa [Program.floor, Program.slotsOf] using size
  · intro q hq opens region
    obtain ⟨full, plain⟩ := opening_full im (List.mem_of_getElem? found) opens
    obtain ⟨chain, size⟩ := orderly.size_eq found plain
    rw [full, region, im.accepted.slotsOf hq] at size
    rw [region] at chain
    obtain ⟨c, rest, _, _, rfl, _, _⟩ := chain.calls_eq
    exact ⟨c, rest, rfl, by rw [size, Routine.slots, ← Nat.add_assoc]; rfl⟩
  · intro returning
    simp only [Program.Flow, returning] at flow
    obtain ⟨plain, zero, f, region⟩ := flow
    obtain ⟨chain, size⟩ := orderly.size_eq found plain
    rw [zero, region] at size
    rw [region] at chain
    obtain ⟨c, rest, _, _, rfl, _, _⟩ := chain.calls_eq
    exact ⟨c, rest, rfl, size⟩
  · intro halting
    simp only [Program.Flow, halting] at flow
    obtain ⟨plain, region, full⟩ := flow
    obtain ⟨chain, size⟩ := orderly.size_eq found plain
    rw [full, region] at size
    simpa [Program.floor] using size

/-! ## A run with nested calls -/

/-- A function that calls itself. -/
def countdown : Program :=
  ⟨[.function "down" ["n"] [.variable "m" (some (.binary .sub (.var "n") (.number 1)))]
      [.ifThen (.var "m") [.call "down" [.var "m"]]],
    .variable "n" (some (.number 2))], [.call "down" [.var "n"]]⟩

def countdownCode : Bytecode := countdown.code?.getD .empty

/-- In the second call, where its initializer begins. -/
def countdownInside : Machine :=
  { stack := #[2, 2, 1, 1, 0], returns := [13, 20], pc := 4, console := ⟨[], [], none⟩ }

def countdownCalls : List Call := [⟨10, 3⟩, ⟨17, 1⟩]

theorem countdown_compiled : Compiled countdown countdownCode :=
  compiled_iff.mpr (by decide +kernel)

theorem countdown_addressable : countdown.Addressable countdownCode := by
  have size : countdownCode.size = 21 := by decide +kernel
  exact ⟨by rw [size]; norm_num, by decide⟩

theorem countdown_reaches :
    Reaches countdownCode ⟨[], [], none⟩ countdownInside countdownCalls :=
  Reaches.start.follow (n := 19) (by decide +kernel)

theorem stack_discipline_countdown :
    Compiled countdown countdownCode ∧ countdown.Addressable countdownCode ∧
      Reaches countdownCode ⟨[], [], none⟩ countdownInside countdownCalls ∧
        ∃ c rest, countdownCalls = c :: rest ∧
          countdownInside.stack.size = c.height + 1 + 1 := by
  refine ⟨countdown_compiled, countdown_addressable, countdown_reaches, ?_⟩
  obtain ⟨_, s, i, found, _, _, inside, _⟩ :=
    stack_discipline countdown_compiled countdown_addressable countdown_reaches
  have site : countdown.sites[countdownInside.pc]? = some ⟨.function "down", 2, none, true⟩ := by
    decide +kernel
  rw [site, Option.some.injEq] at found
  subst found
  exact inside _ List.mem_cons_self rfl rfl

end FlatStack
