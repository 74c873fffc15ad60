import FlatStack.Proofs.Callers
import FlatStack.Proofs.ControlIntegrity

/-!
# Calls between operands

Arguments are pushed on top of everything the stack holds, but a function looks
for its parameters right above the variables of the top level. The two agree
if nothing else is there. Operands that wait for the result of a call are read
as its first parameters instead, and the function stores into them.
-/

set_option autoImplicit false

namespace FlatStack

open Generator
open Machine (Call Reaches Runs Advances track)

/-! ## What instructions leave as it was -/

/-- How many values an instruction takes off the stack, slots included. -/
def Instruction.taken (i : Instruction) : Nat :=
  match i.opcode with
  | .dealloc => Machine.count i.operand
  | o => o.pops

namespace Machine

variable {m m' m'' : Machine} {i : Instruction} {a k j : Nat} {v : Float} {b : Bytecode}

theorem stack_push (h : a < m.stack.size) : (m.push v).stack[a]? = m.stack[a]? := by
  rw [push, Array.getElem?_push_lt h, Array.getElem?_eq_getElem h]

theorem stack_pop (h : a + 1 < m.stack.size) : m.pop.stack[a]? = m.stack[a]? := by
  rw [pop, Array.getElem?_pop, if_pos (by omega)]

theorem stack_grow (n : Nat) (h : a < m.stack.size) : (m.grow n).stack[a]? = m.stack[a]? := by
  rw [grow, padded, Array.getElem?_append_left h]

/-- A step leaves what lies below the values it takes, except for the slot it stores into. -/
theorem step_below (hs : m.step i = .next m') (below : a + i.taken < m.stack.size)
    (other : i.opcode = .store → address i.operand ≠ a) : m'.stack[a]? = m.stack[a]? := by
  unfold Instruction.taken at below
  cases hop : i.opcode with
  | alloc =>
    obtain ⟨_, rfl⟩ := step_alloc hop hs
    exact stack_grow _ (by simpa [hop, Opcode.pops] using below)
  | dealloc =>
    simp only [hop] at below
    obtain rfl : (m.drop (count i.operand)).advance = m' := by simpa [step, hop] using hs
    have bound : a < (m.stack.shrink (m.stack.size - count i.operand)).size := by
      rw [Array.size_shrink]
      omega
    rw [stack_advance, drop, Array.getElem?_eq_getElem bound, Array.getElem_shrink,
      Array.getElem?_eq_getElem]
  | store =>
    simp only [hop, Opcode.pops] at below
    obtain ⟨_, rfl⟩ := step_store hop hs
    rw [stack_advance, setSlot, Array.getElem?_setIfInBounds_ne (other hop), padded,
      Array.getElem?_append_left (by rw [size_pop]; omega), stack_pop below]
  | load | pushParameter | const =>
    simp only [hop, Opcode.pops, Nat.add_zero] at below
    simp only [step, hop, Step.next.injEq] at hs
    rw [← hs, stack_advance, stack_push below]
  | unary op =>
    simp only [hop, Opcode.pops] at below
    simp only [step, hop, Step.next.injEq] at hs
    rw [← hs, stack_advance, stack_push (by rw [size_pop]; omega), stack_pop below]
  | binary op =>
    simp only [hop, Opcode.pops] at below
    obtain rfl := step_binary hop hs
    rw [stack_advance, stack_push (by rw [size_pop, size_pop]; omega),
      stack_pop (by rw [size_pop]; omega), stack_pop (by omega)]
  | jumpIfZero =>
    simp only [hop, Opcode.pops] at below
    rcases step_jumpIfZero hop hs with rfl | rfl
    all_goals exact stack_pop below
  | print =>
    simp only [hop, Opcode.pops] at below
    obtain ⟨console, rfl⟩ := step_print hop hs
    exact stack_pop below
  | read =>
    simp only [hop, Opcode.pops] at below
    obtain ⟨console, v, rfl⟩ := step_read hop hs
    rw [stack_advance, stack_push (by simpa using below)]
  | return_ =>
    simp only [step, hop] at hs
    split at hs
    all_goals
      simp only [Step.next.injEq] at hs
      simp [← hs]
  | unknown mnemonic => simp [step, hop] at hs
  | _ =>
    simp only [step, hop, Step.next.injEq] at hs
    simp [← hs]

/-! ## Runs have one course -/

theorem Runs.unique (h : Runs b k m m') (h' : Runs b k m m'') : m' = m'' := by
  have first := (runFrom_unfinished 0).mpr h
  rw [(runFrom_unfinished 0).mpr h'] at first
  simpa using first.symm

theorem Runs.rest (h : Runs b k m m') (h' : Runs b (k + j) m m'') : Runs b j m' m'' := by
  have whole := (runFrom_unfinished 0).mpr h'
  rw [runFrom_runs h] at whole
  exact (runFrom_unfinished _).mp whole

/-- Slots that lie on the stack are pushed as arguments. -/
theorem runs_parameters {slots : List Nat} {m : Machine} (live : m.halted = false)
    (hb : b.Holds m.pc (slots.map (.withNat .pushParameter)))
    (bounds : ∀ a ∈ slots, a < m.stack.size ∧ a < 2 ^ 53) :
    Runs b slots.length m { m with
      stack := m.stack ++ (slots.map m.slot).toArray, pc := m.pc + slots.length } := by
  induction slots generalizing m with
  | nil => simpa using Runs.refl m
  | cons a slots ih =>
    obtain ⟨fetched, hb⟩ := Bytecode.holds_cons.mp hb
    obtain ⟨⟨_, exact⟩, bounds⟩ := List.forall_mem_cons.mp bounds
    let next : Machine := (m.push (m.slot a)).advance
    have first : Advances b m next := by
      refine ⟨live, _, fetched, ?_⟩
      simp [step, Instruction.withNat, Instruction.withNumber, address_ofNat a exact, next]
    have same : slots.map next.slot = slots.map m.slot := by
      refine List.map_congr_left fun a ha => ?_
      rw [slot, slot, stack_advance, stack_push (bounds a ha).1]
    have others := ih (m := next) live hb fun a ha =>
      ⟨by have := (bounds a ha).1; simp [next]; omega, (bounds a ha).2⟩
    rw [same] at others
    have last : ({ next with
        stack := next.stack ++ (slots.map m.slot).toArray, pc := next.pc + slots.length } : Machine)
      = { m with
        stack := m.stack ++ ((a :: slots).map m.slot).toArray
        pc := m.pc + (slots.length + 1) } := by
      simp [next, advance, push, Nat.add_assoc, Nat.add_comm 1]
    rw [last] at others
    exact .step first others

/-- Allocations leave what the stack holds. -/
theorem runs_allocations {vs : Variables} (hb : b.Holds m.pc (allocations vs))
    (h : Runs b vs.length m m') : m'.pc = m.pc + vs.length ∧
      ∀ a < m.stack.size, m'.stack[a]? = m.stack[a]? := by
  induction vs generalizing m with
  | nil =>
    cases h
    simp
  | cons v vs ih =>
    obtain ⟨fetched, hb⟩ := Bytecode.holds_cons.mp hb
    obtain _ | ⟨⟨_, i, fetched', stepped⟩, h⟩ := h
    rw [fetched, Option.some.injEq] at fetched'
    subst fetched'
    obtain ⟨_, rfl⟩ := step_alloc rfl stepped
    obtain ⟨hpc, kept⟩ := ih hb h
    refine ⟨hpc.trans (by simp [advance, grow]; omega), fun a ha => ?_⟩
    rw [kept a (by simp; omega), stack_advance, stack_grow _ ha]

end Machine

/-! ## Heights -/

namespace Program

variable {p : Program} {b : Bytecode} {m : Machine} {calls rest : List Call} {c : Call}
  {i : Instruction} {s : Site} {pc : Nat}

/-- No instruction takes more than its region has on the stack. -/
theorem Flow.taken_le (h : p.Flow b pc i s) : i.taken ≤ s.depth := by
  unfold Flow at h
  unfold Instruction.taken
  cases hop : i.opcode with
  | dealloc =>
    simp only [hop] at h ⊢
    obtain ⟨_, all, exact, _⟩ := h
    rw [all, Machine.count_ofNat _ exact]
  | store | unary op | binary op | print | jumpIfZero =>
    simp only [hop, Opcode.pops] at h ⊢
    obtain ⟨_, d, hd, _⟩ := h
    omega
  | _ => simp [Opcode.pops]

theorem Flow.taken_passing {k : Nat} (h : p.Flow b pc i s) (passing : s.passed = some k) :
    i.taken = 0 := by
  unfold Flow at h
  unfold Instruction.taken
  cases hop : i.opcode with
  | pushParameter | call => rfl
  | _ => simp [hop, passing] at h

/-- During a call, nothing is taken that was there when it began. -/
theorem Orderly.above (h : p.Orderly b m (c :: rest)) (hs : p.sites[m.pc]? = some s)
    (flow : p.Flow b m.pc i s) : c.height + i.taken ≤ m.stack.size := by
  cases h with
  | rest hat _ chain size =>
    obtain ⟨o, rfl⟩ := hat.unique hs
    have taken := flow.taken_le
    cases chain with
    | function => rw [size, floor]; exact Nat.add_le_add_left taken _
  | passing hat _ _ _ size =>
    obtain ⟨o, rfl⟩ := hat.unique hs
    rw [flow.taken_passing rfl, size]
    omega

end Program

/-! ## The course of a call -/

namespace Program

/-- The value of a variable of the top level. -/
def value (p : Program) (m : Machine) (x : String) : Float := m.slot (p.topSlot x)

theorem topSlot_lt (p : Program) {x : String} (h : x ∈ p.vars.names) :
    p.topSlot x < p.globals := by
  obtain ⟨n, hn⟩ := Option.isSome_iff_exists.mp (List.isSome_idxOf?.mpr h)
  obtain ⟨bound, _⟩ := List.idxOf?_eq_some_iff.mp hn
  rw [Variables.length_names] at bound
  rw [topSlot, hn]
  exact bound

theorem IsEntry.unique {p : Program} {f : String} {n k : Nat} (h : p.IsEntry f n)
    (h' : p.IsEntry f k) : n = k := by
  obtain ⟨⟨s, found, region⟩, least⟩ := h
  obtain ⟨⟨s', found', region'⟩, least'⟩ := h'
  exact le_antisymm (least k s' found' region') (least' n s found region)

/-- The operands that wait above the variables of the top level. -/
def pending (p : Program) (m : Machine) : List Float := m.stack.toList.drop p.globals

end Program

/-- The states of the call that `m` begins while `calls` are active, up to the one that the call
returns to. -/
inductive During (b : Bytecode) (m : Machine) (calls : List Call) : Machine → List Call → Prop where
  | begun {m' : Machine} :
    Advances b m m' → During b m calls m' (⟨m.pc, m.stack.size⟩ :: calls)
  | step {m' m'' : Machine} {calls' : List Call} {i : Instruction} :
    During b m calls m' calls' → calls' ≠ calls → m'.halted = false →
      b.instructions[m'.pc]? = some i → m'.step i = .next m'' →
        During b m calls m'' (track m' i calls')

variable {p : Program} {b : Bytecode} {console : Console} {m m' m'' : Machine}
  {calls calls' : List Call} {i : Instruction} {s : Site} {q : Routine} {xs : List String}
  {slot : String → Nat} {a : Nat}

/-! ## What a function stores -/

/-- A function stores into slots of names that it assigns. -/
theorem Placed.store {bottom : Nat} (placed : Placed p b q bottom slot) {pc : Nat}
    (fetched : b.instructions[pc]? = some i) (found : p.sites[pc]? = some s)
    (region : s.region = .function q.name) (stores : i.opcode = .store) :
    ∃ y, ⟨.store, y⟩ ∈ q.accesses ∧ i = .withNat .store (slot y) := by
  have inside : i ∈ (p.codeOf b (.function q.name)).filter Instruction.isAccess := by
    have both : (i, s) ∈ b.instructions.toList.zip p.sites := by
      refine List.mem_of_getElem? (i := pc) ?_
      rw [← Array.getElem?_toList] at fetched
      simp [List.getElem?_zip_eq_some, fetched, found]
    refine List.mem_filter.mpr ⟨List.mem_map.mpr ⟨(i, s), ?_, rfl⟩, ?_⟩
    · simp [both, region]
    · simp [Instruction.isAccess, stores]
  rw [placed.accesses, List.mem_map] at inside
  obtain ⟨⟨o, y⟩, accessed, rfl⟩ := inside
  obtain rfl : o = .store := stores
  exact ⟨y, accessed, rfl⟩

/-- The names of a function have slots that are exact. -/
theorem Placed.exact (placed : Placed p b q p.globals slot) (wide : p.Addressable b)
    (hq : q ∈ p.routines) {a : Access} (ha : a ∈ q.accesses) : slot a.name < 2 ^ 53 := by
  have bound := wide.slots q hq
  by_cases own : a.name ∈ q.names
  · have := (placed.own _ own).2
    omega
  · have top := placed.tops _ ((placed.named a ha).resolve_left own) own
    have := (List.getElem?_eq_some_iff.mp top).1
    rw [Variables.length_names] at this
    unfold Program.globals at bound
    omega

/-! ## Stages of a call -/

theorem During.reaches (h : Reaches b console m calls) (fetched : b.instructions[m.pc]? = some i)
    (begins : i.opcode = .pushReturn) (during : During b m calls m' calls') :
    Reaches b console m' calls' := by
  induction during with
  | begun first =>
    obtain ⟨live, j, found, stepped⟩ := first
    rw [fetched, Option.some.injEq] at found
    subst found
    have reached := h.step live fetched stepped
    rwa [track, begins] at reached
  | step _ _ live found stepped ih => exact ih.step live found stepped

/-- What stands behind a pushed return address. -/
theorem CallAt.passing {pc j : Nat} (call : CallAt p b pc q xs) (most : j ≤ xs.length)
    (fetched : b.instructions[pc + 1 + j]? = some i) :
    j < xs.length ∧ i.opcode = .pushParameter ∨
      j = xs.length ∧ ∃ entry, p.IsEntry q.name entry ∧ i = .withNat .call entry := by
  obtain ⟨entry, entered, holds⟩ := call.code
  rw [List.cons_append, Bytecode.holds_cons, Bytecode.holds_append, List.length_map] at holds
  obtain ⟨_, parameters, last⟩ := holds
  by_cases more : j < xs.length
  · have passes := parameters.get (k := j)
      (by rw [List.getElem?_map, List.getElem?_eq_getElem more]; rfl)
    rw [fetched, Option.some.injEq] at passes
    exact .inl ⟨more, by rw [passes]; rfl⟩
  · obtain rfl : j = xs.length := by omega
    exact .inr ⟨rfl, entry, entered, by simpa using fetched.symm.trans last.fetch⟩

/-- How far the call that `m` begins has got: arguments are passed, or its function runs, or it
has returned. -/
inductive Stage (p : Program) (b : Bytecode) (m : Machine) (q : Routine) (n : Nat) :
    Machine → List Call → Prop where
  | passing {m' : Machine} {j : Nat} :
    j ≤ n → m'.pc = m.pc + 1 + j → Stage p b m q n m' [⟨m.pc, m.stack.size⟩]
  | inside {m' : Machine} {s : Site} : p.sites[m'.pc]? = some s → s.region = .function q.name →
    Stage p b m q n m' [⟨m.pc, m.stack.size⟩]
  | returned {m' : Machine} :
    m'.pc = b.resumption m.pc → m'.stack.size = m.stack.size → Stage p b m q n m' []

section Course

variable (im : Image p b) (silent : ∀ q ∈ p.routines, q.calls = [])

include im silent

theorem region_call {pc : Nat} (fetched : b.instructions[pc]? = some i)
    (begins : i.opcode = .pushReturn) (found : p.sites[pc]? = some s) : s.region = .top := by
  obtain ⟨k, rfl, hk⟩ := im.call_in_actions silent fetched begins
  have bound := (List.getElem?_eq_some_iff.mp hk).1
  rw [length_actionCode (r := .top) (d := p.globals) im.emitted] at bound
  have here := (image_stands im).2.2.2.1.get (List.getElem?_eq_getElem bound)
  rw [found, Option.some.injEq] at here
  exact region_actions s (here ▸ List.getElem_mem bound)

/-- A call begins where no other call is active. -/
theorem alone (orderly : p.Orderly b m calls) (flowing : p.Flowing b 0 b.size)
    (fetched : b.instructions[m.pc]? = some i) (begins : i.opcode = .pushReturn) :
    calls = [] ∧ p.globals ≤ m.stack.size := by
  obtain ⟨s, found, flow⟩ := flowing.at_pc fetched
  have top := region_call im silent fetched begins found
  simp only [Program.Flow, begins] at flow
  obtain ⟨resting, full, _⟩ := flow
  obtain ⟨chain, size⟩ := orderly.size_eq found resting
  rw [top] at chain full size
  cases chain
  exact ⟨rfl, by simpa [size, Program.floor, Program.slotsOf] using full⟩

/-- A function runs between its entry and its return without further calls. -/
theorem resting_inside (orderly : p.Orderly b m' [⟨m.pc, m.stack.size⟩])
    (begun : b.instructions[m.pc]? = some i) (begins : i.opcode = .pushReturn)
    (found : p.sites[m'.pc]? = some s) (region : s.region = .function q.name) :
    s.passed = none := by
  cases orderly with
  | rest hat =>
    obtain ⟨o, rfl⟩ := hat.unique found
    rfl
  | passing hat _ made =>
    obtain ⟨o, rfl⟩ := hat.unique found
    obtain ⟨o', site⟩ := made.site
    have top := region_call im silent begun begins site
    simp only at top region
    simp [region] at top

/-- What a step of a call leads to. -/
theorem Stage.step (wide : p.Addressable b) (flowing : p.Flowing b 0 b.size)
    (call : CallAt p b m.pc q xs) {first : Instruction}
    (begun : b.instructions[m.pc]? = some first) (begins : first.opcode = .pushReturn)
    (h : Stage p b m q xs.length m' calls') (active : calls' ≠ [])
    (orderly : p.Orderly b m' calls') (fetched : b.instructions[m'.pc]? = some i)
    (stepped : m'.step i = .next m'') : Stage p b m q xs.length m'' (track m' i calls') := by
  have hpc := Machine.step_pc stepped
  cases h with
  | returned => exact absurd rfl active
  | @passing j most here =>
    rw [here] at fetched
    rcases call.passing most fetched with ⟨more, passes⟩ | ⟨rfl, entry, entered, rfl⟩
    · rw [passes] at hpc
      rw [Program.track_other (by simp [passes]) (by simp [passes])]
      exact .passing (j := j + 1) more (by rw [hpc, here]; rfl)
    · obtain ⟨⟨t, found, inside⟩, _⟩ := entered
      have bound := (List.getElem?_eq_some_iff.mp found).1
      rw [length_sites im] at bound
      have arrived : m''.pc = entry :=
        hpc.trans (Machine.address_ofNat entry (bound.trans wide.code))
      exact .inside (arrived ▸ found) inside
  | @inside s found region =>
    have resting := resting_inside im silent orderly begun begins found region
    obtain ⟨s', found', flow⟩ := flowing.at_pc fetched
    rw [found, Option.some.injEq] at found'
    subst found'
    have top : i.opcode ≠ .pushReturn := fun begins => by
      have := region_call im silent fetched begins found
      simp [region] at this
    by_cases returning : i.opcode = .return_
    · obtain ⟨_, size⟩ := orderly.size_eq found resting
      have zero : s.depth = 0 := by
        simp only [Program.Flow, returning] at flow
        exact flow.2.1
      rw [region, zero] at size
      simp only [Machine.step, returning, orderly.returns_eq, List.map_cons, List.map_nil,
        Step.next.injEq] at stepped
      rw [track, returning, ← stepped]
      exact .returned rfl size
    · obtain ⟨s', found', leads⟩ := orderly.leads found flow stepped
      rw [Program.track_other top returning]
      split at leads
      · rename_i calling
        simp only [Program.Flow, calling, resting] at flow
        obtain ⟨k, _, _, passing, _⟩ := flow
        simp at passing
      · contradiction
      · exact .inside found' (leads.trans region)

/-- Every state of a call is at one of its stages. -/
theorem During.stage (wide : p.Addressable b) (flowing : p.Flowing b 0 b.size)
    (reached : Reaches b console m []) (call : CallAt p b m.pc q xs)
    (begun : b.instructions[m.pc]? = some i) (begins : i.opcode = .pushReturn)
    (during : During b m [] m' calls') : Stage p b m q xs.length m' calls' := by
  induction during with
  | begun first =>
    obtain ⟨_, j, found, stepped⟩ := first
    rw [begun, Option.some.injEq] at found
    subst found
    have hpc := Machine.step_pc stepped
    rw [begins] at hpc
    exact .passing (Nat.zero_le _) hpc
  | step before active live fetched stepped ih =>
    have orderly := Program.Orderly.of_reaches flowing (before.reaches reached begun begins)
    exact ih.step im silent wide flowing call begun begins active orderly fetched stepped

/-- What lies above the variables of the top level stays, unless the function stores there. -/
theorem During.kept (wide : p.Addressable b) (flowing : p.Flowing b 0 b.size)
    (reached : Reaches b console m []) (call : CallAt p b m.pc q xs)
    (begun : b.instructions[m.pc]? = some i) (begins : i.opcode = .pushReturn)
    (placed : Placed p b q p.globals slot) (high : a < m.stack.size)
    (unstored : ∀ y, ⟨.store, y⟩ ∈ q.accesses → slot y ≠ a)
    (during : During b m [] m' calls') : m'.stack[a]? = m.stack[a]? := by
  induction during with
  | begun first =>
    obtain ⟨_, j, found, stepped⟩ := first
    rw [begun, Option.some.injEq] at found
    subst found
    exact Machine.step_below stepped (by simpa [Instruction.taken, begins, Opcode.pops])
      (by simp [begins])
  | @step m' m'' calls' i' before active live fetched stepped ih =>
    have orderly := Program.Orderly.of_reaches flowing (before.reaches reached begun begins)
    have stage := before.stage im silent wide flowing reached call begun begins
    obtain ⟨s, found, flow⟩ := flowing.at_pc fetched
    rw [← ih]
    cases stage with
    | returned => exact absurd rfl active
    | passing most here =>
      refine Machine.step_below stepped ?_ fun stores => ?_
      · have := orderly.above found flow
        simp only at this
        omega
      · rw [here] at fetched
        rcases call.passing most fetched with ⟨_, passes⟩ | ⟨_, entry, _, rfl⟩
        · simp [passes] at stores
        · simp at stores
    | inside found' region =>
      rw [found, Option.some.injEq] at found'
      subst found'
      refine Machine.step_below stepped ?_ fun stores => ?_
      · have := orderly.above found flow
        simp only at this
        omega
      · obtain ⟨y, accessed, rfl⟩ := placed.store fetched found region stores
        have exact := placed.exact wide call.routine accessed
        change Machine.address (some (Float.ofNat (slot y))) ≠ a
        rw [Machine.address_ofNat _ exact]
        exact unstored y accessed

omit silent

omit im in
/-- What slots in a row read, given what the stack begins with. -/
theorem slots_in_row {base n : Nat} {values : List Float} (full : base + n ≤ values.length)
    (h : ∀ a < base + n, m.stack[a]? = values[a]?) :
    (List.range' base n).map m.slot = (values.drop base).take n := by
  refine List.ext_getElem (by simp; omega) fun k hk _ => ?_
  rw [List.length_map, List.length_range'] at hk
  rw [List.getElem_map, List.getElem_range', Machine.slot, Nat.one_mul, h _ (by omega),
    List.getElem?_eq_getElem (by omega), Option.getD_some, List.getElem_take, List.getElem_drop]

/-- The callee is entered with the arguments on top of what was there. -/
theorem CallAt.enters (wide : p.Addressable b) (call : CallAt p b m.pc q xs)
    (globals : p.globals ≤ m.stack.size) (live : m.halted = false) :
    ∃ entry entered, p.IsEntry q.name entry ∧ entered.pc = entry ∧
      entered.stack = m.stack ++ (xs.map (p.value m)).toArray ∧
        Runs b (xs.length + 2) m entered := by
  obtain ⟨entry, isEntry, holds⟩ := call.code
  rw [List.cons_append, Bytecode.holds_cons, Bytecode.holds_append, List.length_map] at holds
  obtain ⟨first, parameters, last⟩ := holds
  let begun : Machine :=
    { m with returns := Machine.address (some (Float.ofNat (m.pc + xs.length + 2))) :: m.returns }
      |>.advance
  have begins : Advances b m begun := ⟨live, _, first, rfl⟩
  have slots : ∀ n ∈ xs.map p.topSlot, n < m.stack.size ∧ n < 2 ^ 53 := by
    intro n hn
    obtain ⟨x, hx, rfl⟩ := List.mem_map.mp hn
    have inside := p.topSlot_lt (call.declared x hx)
    have bound := wide.slots q call.routine
    exact ⟨inside.trans_le globals, by omega⟩
  have passed : b.Holds begun.pc ((xs.map p.topSlot).map (.withNat .pushParameter)) := by
    rw [List.map_map]
    exact parameters
  have passes := Machine.runs_parameters (m := begun) live passed slots
  rw [List.length_map, List.map_map] at passes
  let full : Machine := { begun with
    stack := begun.stack ++ (xs.map (begun.slot ∘ p.topSlot)).toArray, pc := begun.pc + xs.length }
  have enters : Advances b full (full.goto (Machine.address (some (Float.ofNat entry)))) :=
    ⟨live, _, last.fetch, rfl⟩
  have runs := (Runs.single begins).trans (passes.trans (.single enters))
  rw [show 1 + (xs.length + 1) = xs.length + 2 by omega] at runs
  obtain ⟨s, found, _⟩ := isEntry.1
  have bound := (List.getElem?_eq_some_iff.mp found).1
  rw [length_sites im] at bound
  exact ⟨entry, _, isEntry, Machine.address_ofNat entry (bound.trans wide.code), rfl, runs⟩

/-- Where the body of the callee begins, the arguments lie on top of what was there. -/
theorem CallAt.body (wide : p.Addressable b) (call : CallAt p b m.pc q xs)
    (globals : p.globals ≤ m.stack.size)
    (runs : Runs b (xs.length + 2 + q.vars.length) m m') :
    (∃ entry, p.IsEntry q.name entry ∧ m'.pc = entry + q.vars.length) ∧
      ∀ a < m.stack.size + xs.length,
        m'.stack[a]? = (m.stack ++ (xs.map (p.value m)).toArray)[a]? := by
  have live : m.halted = false := by
    rw [Nat.add_right_comm, Nat.add_succ] at runs
    cases runs with
    | step begun => exact begun.1
  obtain ⟨entry, entered, isEntry, hpc, stack, enters⟩ := call.enters im wide globals live
  have hq := call.routine
  rw [im.routines_eq] at hq
  obtain ⟨piece, hp, rfl⟩ := List.mem_map.mp hq
  have code := im.laid.holds (image_holds im).2.2.1 hp
  rw [(im.isEntry hp).1.unique isEntry, ← hpc, Piece.code, List.append_assoc,
    Bytecode.holds_append] at code
  obtain ⟨there, kept⟩ := Machine.runs_allocations code.1 (enters.rest runs)
  rw [stack] at kept
  exact ⟨⟨entry, isEntry, by rw [there, hpc]⟩, fun a ha => kept a (by simpa using ha)⟩

/-- The parameters of a function lie right above the top level, one after another. -/
theorem parameter_slots {piece : Piece} (hp : piece ∈ im.pieces)
    (named : piece.routine.name ≠ globalScope) : piece.routine.parameters.map (fun y =>
      (slotIn p.vars.names piece.routine.name piece.routine.names y).getD 0)
        = List.range' p.globals piece.routine.parameters.length := by
  refine List.ext_getElem (by simp) fun k hk _ => ?_
  rw [List.length_map] at hk
  have inside : k < piece.routine.names.length := by
    rw [Routine.names, List.length_append]
    omega
  have here : piece.routine.names[k] = piece.routine.parameters[k] :=
    List.getElem_append_left hk
  obtain ⟨i, bound, same, place⟩ := slotIn_own p.vars.names piece.routine.name
    (here ▸ List.getElem_mem inside : piece.routine.parameters[k] ∈ piece.routine.names)
  rw [← here, (im.accepted.routine_names (im.routine_mem hp)).getElem_inj_iff] at same
  rw [List.getElem_map, place, Option.getD_some, localSlot_eq, if_neg named,
    Variables.length_names, same, List.getElem_range']
  rw [Program.globals]
  omega

end Course

/-! ## What calls do -/

/-- A call from `m` of `q`, whose names lie in the slots `slot`, gives the values of the variables
`xs` to its parameters and changes no operand that waits. -/
structure Transparent (p : Program) (b : Bytecode) (m : Machine) (calls : List Call) (q : Routine)
    (xs : List String) (slot : String → Nat) : Prop where
  /-- Passing, entering and allocating take one instruction each, before the body begins. -/
  reads : ∀ m', Runs b (xs.length + 2 + q.vars.length) m m' →
    q.parameters.map (fun y => m'.slot (slot y)) = xs.map (p.value m)
  keeps : ∀ m', During b m calls m' calls → p.pending m' = p.pending m

/-- What a call does wherever it stands: the operands that wait come before the arguments. -/
structure Layered (p : Program) (b : Bytecode) (m : Machine) (calls : List Call) (q : Routine)
    (xs : List String) (slot : String → Nat) : Prop where
  enters : ∀ m', Runs b (xs.length + 2 + q.vars.length) m m' →
    ∃ entry, p.IsEntry q.name entry ∧ m'.pc = entry + q.vars.length
  reads : ∀ m', Runs b (xs.length + 2 + q.vars.length) m m' →
    q.parameters.map (fun y => m'.slot (slot y))
      = (p.pending m ++ xs.map (p.value m)).take xs.length
  returns : ∀ m', During b m calls m' calls →
    m'.pc = b.resumption m.pc ∧ m'.stack.size = m.stack.size
  /-- An operand stays unless it lies in the slot of a name that the function assigns. -/
  keeps : ∀ m', During b m calls m' calls → ∀ k,
    (∀ y, ⟨.store, y⟩ ∈ q.accesses → slot y ≠ p.globals + k) →
      (p.pending m')[k]? = (p.pending m)[k]?

/-- Where no operand waits, the arguments come first and there is nothing to change. -/
theorem Layered.transparent (h : Layered p b m calls q xs slot) (none : p.pending m = []) :
    Transparent p b m calls q xs slot := by
  refine ⟨fun m' runs => ?_, fun m' during => ?_⟩
  · have reads := h.reads m' runs
    rwa [none, List.nil_append, List.take_of_length_le (by rw [List.length_map])] at reads
  · have size := (h.returns m' during).2
    rw [none]
    rw [Program.pending, List.drop_eq_nil_iff, Array.length_toList] at none ⊢
    omega

/-- In a program whose functions call nothing, a call is transparent where no operand waits.
Elsewhere its function finds the operands in the slots of its parameters and variables. -/
theorem calls_layered (compiled : Compiled p b) (wide : p.Addressable b)
    (silent : ∀ q ∈ p.routines, q.calls = []) (named : ∀ q ∈ p.routines, q.name ≠ globalScope)
    (reached : Reaches b console m calls) (begun : b.instructions[m.pc]? = some i)
    (begins : i.opcode = .pushReturn) : ∃ q xs slot, CallAt p b m.pc q xs ∧
      Placed p b q p.globals slot ∧ Layered p b m calls q xs slot ∧
        (p.pending m = [] → Transparent p b m calls q xs slot) := by
  obtain ⟨im⟩ := compiled.image
  have flowing := flowing_program wide im
  obtain ⟨rfl, globals⟩ :=
    alone im silent (Program.Orderly.of_reaches flowing reached) flowing begun begins
  obtain ⟨q, xs, call⟩ := im.callAt silent begun begins
  have hq := call.routine
  rw [im.routines_eq] at hq
  obtain ⟨piece, hp, rfl⟩ := List.mem_map.mp hq
  have unlike := named _ call.routine
  obtain ⟨slot, placed, row⟩ : ∃ slot, Placed p b piece.routine p.globals slot ∧
      piece.routine.parameters.map slot = List.range' p.globals xs.length := by
    have placed := placed_image hp
    rw [if_neg unlike] at placed
    exact ⟨_, placed, by rw [parameter_slots im hp unlike, call.fits]⟩
  have layered : Layered p b m [] piece.routine xs slot := by
    refine ⟨fun m' runs => (call.body im wide globals runs).1, fun m' runs => ?_,
      fun m' during => ?_, fun m' during k unstored => ?_⟩
    · have body := (call.body im wide globals runs).2
      have row_full : p.globals + xs.length ≤ (m.stack.toList ++ xs.map (p.value m)).length := by
        simpa using globals
      have read := slots_in_row row_full fun a ha => by
        rw [body a (by omega), ← Array.getElem?_toList, Array.toList_append]
      rwa [← row, List.map_map, List.drop_append_of_le_length (by simpa using globals)] at read
    · cases during.stage im silent wide flowing reached call begun begins with
      | returned there size => exact ⟨there, size⟩
    · have height := during.stage im silent wide flowing reached call begun begins
      rw [Program.pending, Program.pending, List.getElem?_drop, List.getElem?_drop,
        Array.getElem?_toList, Array.getElem?_toList]
      by_cases high : p.globals + k < m.stack.size
      · exact during.kept im silent wide flowing reached call begun begins placed high unstored
      · cases height with
        | returned _ size =>
          rw [Array.getElem?_eq_none (by omega), Array.getElem?_eq_none (by omega)]
  exact ⟨piece.routine, xs, slot, call, placed, layered, layered.transparent⟩

/-! ## A sum that waits -/

/-- The first operand of the sum waits while the function runs. -/
def waitingSum : Program :=
  ⟨[.variable "$v" (some (.number 4)),
    .function "f" ["$a"] [] [.echo (.var "$a"), .assign "$a" (.number 9)]],
    [.echo (.binary .add (.number 1) (.call "f" [.var "$v"]))]⟩

def waitingSumCode : Bytecode := waitingSum.code?.getD .empty

/-- Where the call begins. -/
def waitingSumCall : Machine :=
  { stack := #[4, 1], pc := 12, console := ⟨[], [], none⟩ }

theorem waitingSum_compiled : Compiled waitingSum waitingSumCode :=
  compiled_iff.mpr (by decide +kernel)

theorem waitingSum_addressable : waitingSum.Addressable waitingSumCode := by
  have size : waitingSumCode.size = 19 := by decide +kernel
  exact ⟨by rw [size]; norm_num, by decide⟩

theorem waitingSum_reaches : Reaches waitingSumCode ⟨[], [], none⟩ waitingSumCall [] :=
  Reaches.start.follow (n := 6) (by decide +kernel)

theorem waitingSum_begins : waitingSumCode.instructions[waitingSumCall.pc]?
    = some (.withNat .pushReturn 15) := by decide +kernel

theorem waitingSum_silent : ∀ q ∈ waitingSum.routines, q.calls = [] := by
  intro q hq
  obtain rfl := List.mem_singleton.mp hq
  rfl

theorem waitingSum_named : ∀ q ∈ waitingSum.routines, q.name ≠ globalScope := by
  intro q hq
  obtain rfl := List.mem_singleton.mp hq
  decide

theorem calls_layered_waitingSum :
    Compiled waitingSum waitingSumCode ∧ waitingSum.Addressable waitingSumCode ∧
      (∀ q ∈ waitingSum.routines, q.calls = []) ∧
        (∀ q ∈ waitingSum.routines, q.name ≠ globalScope) ∧
          Reaches waitingSumCode ⟨[], [], none⟩ waitingSumCall [] ∧
            waitingSumCode.instructions[waitingSumCall.pc]? = some (.withNat .pushReturn 15) ∧
              ∃ q xs slot, CallAt waitingSum waitingSumCode waitingSumCall.pc q xs ∧
                Placed waitingSum waitingSumCode q waitingSum.globals slot ∧
                  Layered waitingSum waitingSumCode waitingSumCall [] q xs slot := by
  refine ⟨waitingSum_compiled, waitingSum_addressable, waitingSum_silent, waitingSum_named,
    waitingSum_reaches, waitingSum_begins, ?_⟩
  obtain ⟨q, xs, slot, call, placed, layered, _⟩ := calls_layered waitingSum_compiled
    waitingSum_addressable waitingSum_silent waitingSum_named waitingSum_reaches
    waitingSum_begins rfl
  exact ⟨q, xs, slot, call, placed, layered⟩

/-- The parameter reads the operand that waits, and the operand becomes what the function stores. -/
theorem waitingSum_not_transparent : Compiled waitingSum waitingSumCode ∧
    (∀ q ∈ waitingSum.routines, q.calls = [] ∧ q.name ≠ globalScope) ∧
      Reaches waitingSumCode ⟨[], [], none⟩ waitingSumCall [] ∧
        waitingSumCode.instructions[waitingSumCall.pc]? = some (.withNat .pushReturn 15) ∧
          ∀ q xs slot, CallAt waitingSum waitingSumCode waitingSumCall.pc q xs →
            Placed waitingSum waitingSumCode q waitingSum.globals slot →
              ¬ Transparent waitingSum waitingSumCode waitingSumCall [] q xs slot := by
  refine ⟨waitingSum_compiled, fun q hq => ⟨waitingSum_silent q hq, waitingSum_named q hq⟩,
    waitingSum_reaches, waitingSum_begins, fun q xs slot call placed transparent => ?_⟩
  obtain rfl := List.mem_singleton.mp call.routine
  obtain ⟨x, rfl⟩ := List.length_eq_one_iff.mp call.fits
  obtain rfl := List.mem_singleton.mp (call.declared x (List.mem_singleton_self x))
  have own := placed.own "$a" List.mem_cons_self
  have one : slot "$a" = 1 := by
    change 1 ≤ slot "$a" ∧ slot "$a" < 1 + 1 at own
    omega
  have runs : Runs waitingSumCode 3 waitingSumCall
      { stack := #[4, 1, 4], returns := [15], pc := 3, console := ⟨[], [], none⟩ } :=
    (Machine.runFrom_unfinished 0).mp (by decide +kernel)
  have reads := transparent.reads _ runs
  simp only [List.map_cons, List.map_nil, one] at reads
  exact absurd reads (by decide +kernel)

end FlatStack
