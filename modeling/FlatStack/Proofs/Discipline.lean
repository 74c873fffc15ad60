import FlatStack.Proofs.Effects
import FlatStack.Proofs.ProgramFlow

/-!
# Discipline of runs

The invariant of a run relates the stack and the return addresses to the site
of the next instruction and to the calls that are active. Every call was made
where its region had all slots, and what its region has on the stack lies
right above what was there when the region was entered.
-/

set_option autoImplicit false

namespace FlatStack

open Machine (Call Reaches track)

namespace Program

/-! ## Active calls -/

/-- The height of the stack below the values of a region. -/
def floor : Region → List Call → Nat
  | .top, _ => 0
  | .function _, [] => 0
  | .function _, c :: _ => c.height

/-- A call was made from a region with `d` values on the stack. -/
structure Made (p : Program) (b : Bytecode) (r : Region) (d : Nat) (c : Call)
    (rest : List Call) : Prop where
  site : p.At c.site r d none
  back : p.At (b.resumption c.site) r d none
  full : p.slotsOf r ≤ d
  height : c.height = floor r rest + d

/-- The calls that lead to a region. -/
inductive Chain (p : Program) (b : Bytecode) : Region → List Call → Prop where
  | top : Chain p b .top []
  | function {f : String} {r : Region} {d : Nat} {c : Call} {rest : List Call} :
    p.Made b r d c rest → Chain p b r rest → Chain p b (.function f) (c :: rest)

/-- The invariant of runs. -/
inductive Orderly (p : Program) (b : Bytecode) (m : Machine) : List Call → Prop where
  | rest {r : Region} {d : Nat} {calls : List Call} :
    p.At m.pc r d none → m.returns = calls.map (fun c => b.resumption c.site) →
      p.Chain b r calls → m.stack.size = floor r calls + d → Orderly p b m calls
  | passing {r : Region} {d k : Nat} {c : Call} {rest : List Call} :
    p.At m.pc r (d + k) (some k) →
      m.returns = (c :: rest).map (fun c => b.resumption c.site) → p.Made b r d c rest →
        p.Chain b r rest → m.stack.size = c.height + k → Orderly p b m (c :: rest)

variable {p : Program} {b : Bytecode} {m m' : Machine} {calls : List Call} {i : Instruction}

/-- The stack reaches up to where the slots of the top level end. -/
theorem Chain.globals_le {r : Region} (h : p.Chain b r calls) {d : Nat}
    (hd : p.slotsOf r ≤ d) : p.globals ≤ floor r calls + d := by
  induction h generalizing d with
  | top => simpa [floor, slotsOf] using hd
  | function made _ ih =>
    have := ih made.full
    rw [← made.height] at this
    simp only [floor]
    omega

theorem Chain.reach_le {r : Region} (h : p.Chain b r calls) {d : Nat}
    (hd : p.slotsOf r ≤ d) : p.reach r ≤ floor r calls + d := by
  cases h with
  | top => simpa [floor, reach, slotsOf] using hd
  | function made chain =>
    have := chain.globals_le made.full
    rw [← made.height] at this
    simp only [floor, reach]
    omega

theorem Chain.calls_eq {f : String} (h : p.Chain b (.function f) calls) :
    ∃ c rest r d, calls = c :: rest ∧ p.Made b r d c rest ∧ p.Chain b r rest := by
  cases h with
  | function made chain => exact ⟨_, _, _, _, rfl, made, chain⟩

theorem At.unique {pc : Nat} {r : Region} {d : Nat} {k : Option Nat} {s : Site}
    (h : p.At pc r d k) (hs : p.sites[pc]? = some s) : ∃ o, s = ⟨r, d, k, o⟩ := by
  obtain ⟨o, found⟩ := h
  rw [hs, Option.some.injEq] at found
  exact ⟨o, found⟩

/-! ## One step -/

/-- The calls stay as they are unless an instruction begins or ends one. -/
theorem track_other (h : i.opcode ≠ .pushReturn) (h' : i.opcode ≠ .return_) :
    track m i calls = calls := by
  unfold track
  split <;> simp_all

/-- A step from rest. -/
theorem Orderly.step_rest {r : Region} {d : Nat} (here : p.At m.pc r d none)
    (returns : m.returns = calls.map fun c => b.resumption c.site) (chain : p.Chain b r calls)
    (size : m.stack.size = floor r calls + d) (flow : p.Flow b m.pc i ⟨r, d, none, false⟩)
    (stepped : m.step i = .next m') : p.Orderly b m' (track m i calls) := by
  have stay : i.opcode ≠ .pushReturn → i.opcode ≠ .return_ → ∀ {d'}, m'.returns = m.returns →
      p.At m'.pc r d' none → m'.stack.size = floor r calls + d' →
        p.Orderly b m' (track m i calls) := by
    intro h h' d' hr hat hsize
    rw [track_other h h']
    exact .rest hat (hr.trans returns) chain hsize
  unfold Flow at flow
  cases hop : i.opcode with
  | start =>
    simp only [hop] at flow
    obtain rfl : m.advance = m' := by simpa [Machine.step, hop] using stepped
    exact stay (by simp [hop]) (by simp [hop]) rfl flow.2 size
  | halt =>
    obtain rfl : { m with halted := true } = m' := by simpa [Machine.step, hop] using stepped
    exact stay (by simp [hop]) (by simp [hop]) rfl here size
  | alloc =>
    simp only [hop] at flow
    obtain ⟨_, rfl⟩ := Machine.step_alloc hop stepped
    have one : Machine.count i.operand = 1 := by
      rw [flow.2.1]
      exact Machine.count_ofNat 1 (by norm_num)
    refine stay (by simp [hop]) (by simp [hop]) rfl flow.2.2 ?_
    rw [Machine.stack_advance, Machine.size_grow, one, size]
    rfl
  | dealloc =>
    simp only [hop] at flow
    obtain rfl : (m.drop (Machine.count i.operand)).advance = m' := by
      simpa [Machine.step, hop] using stepped
    have all : Machine.count i.operand = d := by
      rw [flow.2.1]
      exact Machine.count_ofNat d flow.2.2.1
    refine stay (by simp [hop]) (by simp [hop]) rfl flow.2.2.2 ?_
    rw [Machine.stack_advance, Machine.size_drop, all, size]
    omega
  | store =>
    simp only [hop, Addresses] at flow
    obtain ⟨_, d', hd, ⟨a, ha, inReach, exact, full⟩, next⟩ := flow
    obtain ⟨_, rfl⟩ := Machine.step_store hop stepped
    have address : Machine.address i.operand = a := by
      rw [ha]
      exact Machine.address_ofNat a exact
    have := chain.reach_le full
    refine stay (by simp [hop]) (by simp [hop]) rfl next ?_
    rw [Machine.stack_advance, address, Machine.size_setSlot, Machine.size_pop, size, hd]
    · omega
    · rw [Machine.size_pop, size, hd]
      omega
  | load =>
    simp only [hop] at flow
    obtain rfl : (m.push (m.slot (Machine.address i.operand))).advance = m' := by
      simpa [Machine.step, hop] using stepped
    refine stay (by simp [hop]) (by simp [hop]) rfl flow.2.2 ?_
    rw [Machine.stack_advance, Machine.size_push, size]
    rfl
  | const =>
    simp only [hop] at flow
    obtain rfl : (m.push (i.operand.getD 0)).advance = m' := by
      simpa [Machine.step, hop] using stepped
    refine stay (by simp [hop]) (by simp [hop]) rfl flow.2 ?_
    rw [Machine.stack_advance, Machine.size_push, size]
    rfl
  | unary op =>
    simp only [hop] at flow
    obtain ⟨_, d', hd, next⟩ := flow
    obtain rfl : (m.pop.push (op.apply m.top)).advance = m' := by
      simpa [Machine.step, hop] using stepped
    refine stay (by simp [hop]) (by simp [hop]) rfl next ?_
    rw [Machine.stack_advance, Machine.size_push, Machine.size_pop, size, hd]
    omega
  | binary op =>
    simp only [hop] at flow
    obtain ⟨_, d', hd, next⟩ := flow
    obtain rfl := Machine.step_binary hop stepped
    refine stay (by simp [hop]) (by simp [hop]) rfl next ?_
    rw [Machine.stack_advance, Machine.size_push, Machine.size_pop, Machine.size_pop, size, hd]
    omega
  | jump =>
    simp only [hop] at flow
    obtain ⟨_, t, ht, exact, next⟩ := flow
    obtain rfl : m.goto (Machine.address i.operand) = m' := by
      simpa [Machine.step, hop] using stepped
    rw [ht, Machine.address_ofNat t exact] at stay ⊢
    exact stay (by simp [hop]) (by simp [hop]) rfl next size
  | jumpIfZero =>
    simp only [hop] at flow
    obtain ⟨_, d', t, hd, ⟨ht, exact, target⟩, next⟩ := flow
    have popped : m.pop.stack.size = floor r calls + d' := by
      rw [Machine.size_pop, size, hd]
      omega
    rcases Machine.step_jumpIfZero hop stepped with rfl | rfl
    · rw [ht, Machine.address_ofNat t exact] at stay ⊢
      exact stay (by simp [hop]) (by simp [hop]) rfl target popped
    · exact stay (by simp [hop]) (by simp [hop]) rfl next popped
  | read =>
    simp only [hop] at flow
    obtain ⟨console, v, rfl⟩ := Machine.step_read hop stepped
    refine stay (by simp [hop]) (by simp [hop]) rfl flow.2 ?_
    rw [Machine.stack_advance, Machine.size_push, size]
    rfl
  | print =>
    simp only [hop] at flow
    obtain ⟨_, d', hd, next⟩ := flow
    obtain ⟨console, rfl⟩ := Machine.step_print hop stepped
    refine stay (by simp [hop]) (by simp [hop]) rfl next ?_
    rw [Machine.stack_advance, Machine.size_pop, size, hd]
    omega
  | pushReturn =>
    simp only [hop] at flow
    obtain ⟨_, full, ⟨hback, exact, back⟩, next⟩ := flow
    obtain rfl : { m with returns := Machine.address i.operand :: m.returns }.advance = m' := by
      simpa [Machine.step, hop] using stepped
    have made : p.Made b r d ⟨m.pc, m.stack.size⟩ calls := ⟨here, back, full, size⟩
    have tracked : track m i calls = ⟨m.pc, m.stack.size⟩ :: calls := by simp [track, hop]
    rw [tracked, hback, Machine.address_ofNat _ exact]
    exact .passing (d := d) (k := 0) next (by rw [List.map_cons, ← returns]; rfl) made chain rfl
  | return_ =>
    simp only [hop] at flow
    obtain ⟨_, hd, f, hf⟩ := flow
    subst hf hd
    obtain ⟨c, rest, r, d, rfl, made, chain⟩ := chain.calls_eq
    have hr : m.returns = b.resumption c.site :: rest.map fun c => b.resumption c.site := returns
    obtain rfl : { m with
        pc := b.resumption c.site, returns := rest.map fun c => b.resumption c.site } = m' := by
      simpa [Machine.step, hop, hr] using stepped
    have tracked : track m i (c :: rest) = rest := by simp [track, hop]
    rw [tracked]
    exact .rest made.back rfl chain (size.trans made.height)
  | pushParameter =>
    simp [hop] at flow
  | call =>
    simp [hop] at flow
  | unknown mnemonic =>
    simp [hop] at flow

/-- A step while arguments are passed. -/
theorem Orderly.step_passing {r : Region} {d k : Nat} {c : Call} {rest : List Call}
    (returns : m.returns = (c :: rest).map fun c => b.resumption c.site)
    (made : p.Made b r d c rest) (chain : p.Chain b r rest) (size : m.stack.size = c.height + k)
    (flow : p.Flow b m.pc i ⟨r, d + k, some k, false⟩) (stepped : m.step i = .next m') :
    p.Orderly b m' (track m i (c :: rest)) := by
  unfold Flow at flow
  cases hop : i.opcode with
  | pushParameter =>
    simp only [hop] at flow
    obtain ⟨k', hk, _, next⟩ := flow
    obtain rfl : k = k' := by simpa using hk
    obtain rfl : (m.push (m.slot (Machine.address i.operand))).advance = m' := by
      simpa [Machine.step, hop] using stepped
    rw [track_other (by simp [hop]) (by simp [hop])]
    refine .passing (d := d) (k := k + 1) next returns made chain ?_
    rw [Machine.stack_advance, Machine.size_push, size, Nat.add_assoc]
  | call =>
    simp only [hop] at flow
    obtain ⟨k', f, t, hk, _, ht, exact, next⟩ := flow
    obtain rfl : k = k' := by simpa using hk
    obtain rfl : m.goto (Machine.address i.operand) = m' := by
      simpa [Machine.step, hop] using stepped
    rw [track_other (by simp [hop]) (by simp [hop]), ht, Machine.address_ofNat t exact]
    exact .rest next returns (.function made chain) size
  | _ => simp [hop] at flow

variable {console : Console}

theorem Flowing.at_pc (flow : p.Flowing b 0 b.size) (fetched : b.instructions[m.pc]? = some i) :
    ∃ s, p.sites[m.pc]? = some s ∧ p.Flow b m.pc i s := by
  obtain ⟨i', s, hi, hs, h⟩ := flow m.pc (Nat.zero_le _) (Array.getElem?_eq_some_iff.mp fetched).1
  rw [fetched, Option.some.injEq] at hi
  exact ⟨s, hs, hi ▸ h⟩

theorem Orderly.step (flow : p.Flowing b 0 b.size) (h : p.Orderly b m calls)
    (fetched : b.instructions[m.pc]? = some i) (stepped : m.step i = .next m') :
    p.Orderly b m' (track m i calls) := by
  obtain ⟨s, hs, here⟩ := flow.at_pc fetched
  cases h with
  | rest hat returns chain size =>
    obtain ⟨o, rfl⟩ := hat.unique hs
    exact step_rest hat returns chain size here stepped
  | passing hat returns made chain size =>
    obtain ⟨o, rfl⟩ := hat.unique hs
    exact step_passing returns made chain size here stepped

/-- Every state that a run reaches is in order. -/
theorem Orderly.of_reaches (flow : p.Flowing b 0 b.size) (h : Reaches b console m calls) :
    p.Orderly b m calls := by
  induction h with
  | start => exact .rest ⟨false, rfl⟩ rfl .top rfl
  | step _ _ fetched stepped ih => exact ih.step flow fetched stepped

/-- There is an instruction wherever a run gets to. -/
theorem Orderly.fetched (flow : p.Flowing b 0 b.size) (hlen : p.sites.length = b.size)
    (h : p.Orderly b m calls) : ∃ i s, b.instructions[m.pc]? = some i ∧
      p.sites[m.pc]? = some s ∧ p.Flow b m.pc i s := by
  have bound : m.pc < b.size := by
    rw [← hlen]
    cases h with
    | rest hat | passing hat =>
      obtain ⟨o, found⟩ := hat
      exact (List.getElem?_eq_some_iff.mp found).1
  exact flow m.pc (Nat.zero_le _) bound

end Program

end FlatStack
