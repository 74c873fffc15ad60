import FlatStack.Proofs.StackDiscipline

/-!
# The control of a run

Control enters a function by a call to its first instruction and leaves it by
a return or by a call that it makes. Nothing that the stack holds can change
this: jumps stay in their region, and return addresses are those of the calls
that are active. So a run that ends without a fault is halted.
-/

set_option autoImplicit false

namespace FlatStack

open Machine (Call Reaches track)

namespace Program

variable {p : Program} {b : Bytecode} {m m' : Machine} {calls : List Call} {i : Instruction}
  {s : Site}

/-- Where a step from the site `s` may lead while `calls` are active. -/
def Leads (p : Program) (b : Bytecode) (calls : List Call) (i : Instruction) (s : Site)
    (m' : Machine) : Prop :=
  ∃ s', p.sites[m'.pc]? = some s' ∧
    match i.opcode with
    | .call => ∃ f, s'.region = .function f ∧ p.IsEntry f m'.pc
    | .return_ => ∃ c rest, calls = c :: rest ∧ m'.pc = b.resumption c.site ∧
        ∃ o, p.sites[c.site]? = some o ∧ o.region = s'.region
    | _ => s'.region = s.region

theorem Orderly.returns_eq (h : p.Orderly b m calls) :
    m.returns = calls.map fun c => b.resumption c.site := by
  cases h with
  | rest _ returns => exact returns
  | passing _ returns => exact returns

theorem Orderly.leads (h : p.Orderly b m calls) (hs : p.sites[m.pc]? = some s)
    (flow : p.Flow b m.pc i s) (stepped : m.step i = .next m') : p.Leads b calls i s m' := by
  have hpc := Machine.step_pc stepped
  have stay : ∀ {r d k}, p.At m'.pc r d k → ∃ s', p.sites[m'.pc]? = some s' ∧ s'.region = r := by
    rintro r d k ⟨o, found⟩
    exact ⟨_, found, rfl⟩
  unfold Flow at flow
  unfold Leads
  cases hop : i.opcode with
  | halt =>
    simp only [hop] at hpc
    rw [hpc]
    exact ⟨s, hs, rfl⟩
  | jump =>
    simp only [hop] at hpc flow
    obtain ⟨_, t, ht, exact, next⟩ := flow
    rw [ht, Machine.address_ofNat t exact] at hpc
    exact stay (hpc ▸ next)
  | jumpIfZero =>
    simp only [hop] at hpc flow
    obtain ⟨_, d, t, _, ⟨ht, exact, target⟩, next⟩ := flow
    rw [ht, Machine.address_ofNat t exact] at hpc
    rcases hpc with hpc | hpc
    · exact stay (hpc ▸ target)
    · exact stay (hpc ▸ next)
  | call =>
    simp only [hop] at hpc flow
    obtain ⟨k, f, t, _, entry, ht, exact, next⟩ := flow
    rw [ht, Machine.address_ofNat t exact] at hpc
    obtain ⟨s', found, region⟩ := stay (hpc ▸ next)
    exact ⟨s', found, f, region, hpc ▸ entry⟩
  | return_ =>
    simp only [hop] at hpc flow
    obtain ⟨plain, _, f, region⟩ := flow
    obtain ⟨chain, _⟩ := h.size_eq hs plain
    rw [region] at chain
    obtain ⟨c, rest, r, d, rfl, made, _⟩ := chain.calls_eq
    rw [h.returns_eq, List.map_cons, List.headD_cons] at hpc
    obtain ⟨s', found, region'⟩ := stay (hpc ▸ made.back)
    obtain ⟨o, site⟩ := made.site
    exact ⟨s', found, c, rest, rfl, hpc, _, site, region'.symm⟩
  | start =>
    simp only [hop] at hpc flow
    exact stay (hpc ▸ flow.2)
  | alloc | load =>
    simp only [hop] at hpc flow
    exact stay (hpc ▸ flow.2.2)
  | dealloc | pushReturn =>
    simp only [hop] at hpc flow
    exact stay (hpc ▸ flow.2.2.2)
  | const | read =>
    simp only [hop] at hpc flow
    exact stay (hpc ▸ flow.2)
  | store =>
    simp only [hop] at hpc flow
    obtain ⟨_, d, _, _, next⟩ := flow
    exact stay (hpc ▸ next)
  | unary op | binary op | print =>
    simp only [hop] at hpc flow
    obtain ⟨_, d, _, next⟩ := flow
    exact stay (hpc ▸ next)
  | pushParameter =>
    simp only [hop] at hpc flow
    obtain ⟨k, _, _, next⟩ := flow
    exact stay (hpc ▸ next)
  | unknown mnemonic => simp [hop] at flow

end Program

variable {p : Program} {b : Bytecode}

/-- The control of the runs of `b` on a console. -/
structure Controlled (p : Program) (b : Bytecode) (console : Console) : Prop where
  /-- The return addresses are where the active calls resume. -/
  returns : ∀ {m calls}, Reaches b console m calls →
    m.returns = calls.map fun c => b.resumption c.site
  /-- No call is active where an initializer or a statement of the top level begins. -/
  opening : ∀ {m calls s}, Reaches b console m calls → p.sites[m.pc]? = some s →
    s.opens = true → s.region = .top → m.returns = []
  /-- Every step leads to where it may lead. -/
  steps : ∀ {m m' calls}, Reaches b console m calls → ∃ s i, p.sites[m.pc]? = some s ∧
    b.instructions[m.pc]? = some i ∧ (m.step i = .next m' → p.Leads b calls i s m')
  /-- A return has an address to return to. -/
  returning : ∀ {m calls i}, Reaches b console m calls → b.instructions[m.pc]? = some i →
    i.opcode = .return_ → m.returns ≠ []
  /-- No run meets an unknown instruction. -/
  known : ∀ fuel mnemonic pc m,
    Machine.run b fuel console ≠ (.faulted (.unknownInstruction mnemonic pc), m)
  /-- A run that ends without a fault is halted, and no call is active then. -/
  ending : ∀ {fuel e n m}, Machine.run b fuel console = (.finished e n, m) →
    e = .halted ∧ m.returns = []

/-- A halted machine still stands at the instruction that halted it. -/
theorem halted_at_halt {console : Console} {m : Machine} {calls : List Call} {i : Instruction}
    (h : Reaches b console m calls) (halted : m.halted = true)
    (fetched : b.instructions[m.pc]? = some i) : i.opcode = .halt := by
  cases h with
  | start => simp [Machine.start] at halted
  | step _ live fetched' stepped =>
    rename_i m₀ calls₀ i₀ _
    by_cases halting : i₀.opcode = .halt
    · have hpc := Machine.step_pc stepped
      simp only [halting] at hpc
      rw [hpc, fetched', Option.some.injEq] at fetched
      exact fetched ▸ halting
    · rw [Machine.step_halted stepped halting, live] at halted
      exact absurd halted (by simp)

theorem control_integrity (compiled : Compiled p b) (wide : p.Addressable b)
    (console : Console) : Controlled p b console := by
  obtain ⟨im⟩ := compiled.image
  have flowing := flowing_program wide im
  have hlen := length_sites im
  refine ⟨?_, ?_, ?_, ?_, ?_, ?_⟩
  · intro m calls h
    exact (Program.Orderly.of_reaches flowing h).returns_eq
  · intro m calls s h found opens top
    have orderly := Program.Orderly.of_reaches flowing h
    obtain ⟨_, plain⟩ := opening_full im (List.mem_of_getElem? found) opens
    obtain ⟨chain, _⟩ := orderly.size_eq found plain
    rw [orderly.returns_eq]
    rw [top] at chain
    cases chain with
    | top => rfl
  · intro m m' calls h
    have orderly := Program.Orderly.of_reaches flowing h
    obtain ⟨i, s, fetched, found, flow⟩ := orderly.fetched flowing hlen
    exact ⟨s, i, found, fetched, fun stepped => orderly.leads found flow stepped⟩
  · intro m calls i h fetched returning
    have orderly := Program.Orderly.of_reaches flowing h
    obtain ⟨s, found, flow⟩ := flowing.at_pc fetched
    simp only [Program.Flow, returning] at flow
    obtain ⟨plain, _, f, region⟩ := flow
    obtain ⟨chain, _⟩ := orderly.size_eq found plain
    rw [region] at chain
    obtain ⟨c, rest, _, _, rfl, _, _⟩ := chain.calls_eq
    simp [orderly.returns_eq]
  · intro fuel mnemonic pc m h
    obtain ⟨n, _, last, runs, how⟩ := Machine.runFrom_ended h (by simp)
    rcases how with ⟨h, _⟩ | ⟨h, _⟩ | ⟨f, h, _, i, fetched, stepped⟩
    · simp at h
    · simp at h
    · rw [Machine.Outcome.faulted.injEq] at h
      subst h
      obtain ⟨s, found, flow⟩ := flowing.at_pc fetched
      have unknown := Machine.step_unknown stepped
      unfold Program.Flow at flow
      cases hop : i.opcode with
      | unknown name => simp [hop] at flow
      | _ => simp [hop, Opcode.isUnknown] at unknown
  · intro fuel e n m h
    obtain ⟨n', _, last, runs, how⟩ := Machine.runFrom_ended h (by simp)
    obtain ⟨calls, reached⟩ := Machine.Runs.reaches runs
    have orderly := Program.Orderly.of_reaches flowing reached
    obtain ⟨i, s, fetched, found, flow⟩ := orderly.fetched flowing hlen
    rcases how with ⟨h, halted, rfl⟩ | ⟨_, _, past, _⟩ | ⟨f, h, _⟩
    · have halting := halted_at_halt reached halted fetched
      simp only [Program.Flow, halting] at flow
      obtain ⟨plain, top, _⟩ := flow
      obtain ⟨chain, _⟩ := orderly.size_eq found plain
      rw [top] at chain
      have none : calls = [] := by
        cases chain
        rfl
      simp only [Machine.Outcome.finished.injEq] at h
      exact ⟨h.1, by rw [orderly.returns_eq, none, List.map_nil]⟩
    · rw [past] at fetched
      simp at fetched
    · simp at h

theorem control_integrity_countdown :
    Compiled countdown countdownCode ∧ countdown.Addressable countdownCode ∧
      Reaches countdownCode ⟨[], [], none⟩ countdownInside countdownCalls ∧
        countdownInside.returns = countdownCalls.map fun c => countdownCode.resumption c.site := by
  have controlled := control_integrity countdown_compiled countdown_addressable ⟨[], [], none⟩
  exact ⟨countdown_compiled, countdown_addressable, countdown_reaches,
    controlled.returns countdown_reaches⟩

end FlatStack
