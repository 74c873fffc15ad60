import FlatStack.Proofs.Exact
import FlatStack.Proofs.Runs
import FlatStack.Proofs.Sites

/-!
# Flow of control

`p.Flow b pc i s` says what the instruction `i` at the address `pc` with the
site `s` needs and which sites it leads to. All code of a program flows: this
is shown part by part, given the site that follows the part.
-/

set_option autoImplicit false

namespace FlatStack

open Generator

namespace Program

variable (p : Program) (b : Bytecode)

/-- Every slot that a region addresses is below its reach. -/
def reach : Region → Nat
  | .top => p.globals
  | .function f => p.globals + p.slotsOf (.function f)

/-- The site at an address, apart from what opens there. -/
def At (pc : Nat) (r : Region) (d : Nat) (k : Option Nat) : Prop :=
  ∃ o, p.sites[pc]? = some ⟨r, d, k, o⟩

/-- The first address of the code of a function. -/
def IsEntry (f : String) (pc : Nat) : Prop :=
  (∃ s, p.sites[pc]? = some s ∧ s.region = .function f) ∧
    ∀ pc' s, p.sites[pc']? = some s → s.region = .function f → pc ≤ pc'

/-- Operands are exact: no address is as large as `2 ^ 53`. -/
structure Addressable : Prop where
  code : b.size < 2 ^ 53
  slots : ∀ q ∈ p.routines, p.globals + q.slots < 2 ^ 53

/-- The operand is an address that the region has a slot for. -/
def Addresses (s : Site) (i : Instruction) (depth : Nat) : Prop :=
  ∃ a, i.operand = some (Float.ofNat a) ∧ a < p.reach s.region ∧ a < 2 ^ 53 ∧
    p.slotsOf s.region ≤ depth

/-- The operand is an address of the code that has the given site. -/
def Targets (i : Instruction) (t : Nat) (r : Region) (d : Nat) : Prop :=
  i.operand = some (Float.ofNat t) ∧ t < 2 ^ 53 ∧ p.At t r d none

def Flow (pc : Nat) (i : Instruction) (s : Site) : Prop :=
  match i.opcode with
  | .start => s.passed = none ∧ p.At (pc + 1) s.region s.depth none
  | .halt => s.passed = none ∧ s.region = .top ∧ s.depth = p.globals
  | .alloc =>
    s.passed = none ∧ i.operand = some (Float.ofNat 1) ∧ p.At (pc + 1) s.region (s.depth + 1) none
  | .dealloc =>
    s.passed = none ∧ i.operand = some (Float.ofNat s.depth) ∧ s.depth < 2 ^ 53 ∧
      p.At (pc + 1) s.region 0 none
  | .store =>
    s.passed = none ∧ ∃ d, s.depth = d + 1 ∧ p.Addresses s i d ∧ p.At (pc + 1) s.region d none
  | .load =>
    s.passed = none ∧ p.Addresses s i s.depth ∧ p.At (pc + 1) s.region (s.depth + 1) none
  | .const | .read => s.passed = none ∧ p.At (pc + 1) s.region (s.depth + 1) none
  | .unary _ => s.passed = none ∧ ∃ d, s.depth = d + 1 ∧ p.At (pc + 1) s.region (d + 1) none
  | .binary _ => s.passed = none ∧ ∃ d, s.depth = d + 2 ∧ p.At (pc + 1) s.region (d + 1) none
  | .print => s.passed = none ∧ ∃ d, s.depth = d + 1 ∧ p.At (pc + 1) s.region d none
  | .jump => s.passed = none ∧ ∃ t, p.Targets i t s.region s.depth
  | .jumpIfZero =>
    s.passed = none ∧ ∃ d t, s.depth = d + 1 ∧ p.Targets i t s.region d ∧
      p.At (pc + 1) s.region d none
  | .pushReturn =>
    s.passed = none ∧ p.slotsOf s.region ≤ s.depth ∧
      p.Targets i (b.resumption pc) s.region s.depth ∧ p.At (pc + 1) s.region s.depth (some 0)
  | .pushParameter =>
    ∃ k, s.passed = some k ∧ p.Addresses s i s.depth ∧
      p.At (pc + 1) s.region (s.depth + 1) (some (k + 1))
  | .call =>
    ∃ k f t, s.passed = some k ∧ p.IsEntry f t ∧ p.Targets i t (.function f) k
  | .return_ => s.passed = none ∧ s.depth = 0 ∧ ∃ f, s.region = .function f
  | .unknown _ => False

/-- Each address from `lo` to below `hi` has an instruction and a site that flow. -/
def Flowing (lo hi : Nat) : Prop :=
  ∀ pc, lo ≤ pc → pc < hi → ∃ i s, b.instructions[pc]? = some i ∧ p.sites[pc]? = some s ∧
    p.Flow b pc i s

variable {p b}

section Flowing

variable {lo mid hi : Nat}

theorem Flowing.none : p.Flowing b lo lo := fun pc low high => absurd high (by omega)

theorem Flowing.append (h : p.Flowing b lo mid) (h' : p.Flowing b mid hi) :
    p.Flowing b lo hi := by
  intro pc low high
  by_cases hm : pc < mid
  · exact h pc low hm
  · exact h' pc (by omega) high

theorem Flowing.one {i : Instruction} {s : Site} (fetched : b.instructions[lo]? = some i)
    (found : p.At lo s.region s.depth s.passed) (flow : p.Flow b lo i s) :
    p.Flowing b lo (lo + 1) := by
  intro pc low high
  obtain rfl : pc = lo := by omega
  obtain ⟨o, found⟩ := found
  exact ⟨i, _, fetched, found, flow⟩

end Flowing

/-! ## Sites in a row -/

variable (p) in
/-- The sites from `base` on, apart from what opens there. -/
def Lies (base : Nat) (ss : List Site) : Prop :=
  ∀ k s, ss[k]? = some s → p.At (base + k) s.region s.depth s.passed

section Lies

variable {base : Nat} {ss ts : List Site} {s : Site} {r : Region} {d : Nat}

theorem lies_along :
    p.Lies base ss ↔ Along (fun pc s => p.At pc s.region s.depth s.passed) base ss := Iff.rfl

theorem lies_nil : p.Lies base [] := lies_along.mpr along_nil

theorem lies_cons :
    p.Lies base (s :: ss) ↔ p.At base s.region s.depth s.passed ∧ p.Lies (base + 1) ss := by
  rw [lies_along, along_cons, lies_along]

theorem Lies.head (h : p.Lies base (s :: ss)) : p.At base s.region s.depth s.passed :=
  (lies_cons.mp h).1

theorem lies_append :
    p.Lies base (ss ++ ts) ↔ p.Lies base ss ∧ p.Lies (base + ss.length) ts := by
  rw [lies_along, along_append, lies_along, lies_along]

theorem lies_opening : p.Lies base (opening ss) ↔ p.Lies base ss := by
  cases ss with
  | nil => rfl
  | cons s ss => rw [opening, lies_cons, lies_cons]

theorem Lies.of_stands (h : Stands p.sites base ss) : p.Lies base ss :=
  fun _ s hs => ⟨s.opens, h.get hs⟩

/-- Where a part begins, given the site that follows it. -/
theorem Lies.first (hs : p.Lies base ss) (h : Starts r d ss)
    (next : p.At (base + ss.length) r d none) : p.At base r d none := by
  rcases h with rfl | ⟨o, rest, rfl⟩
  · simpa using next
  · exact hs.head

end Lies

/-! ## Calls and expressions -/

section Parts

variable {c : Context} {r : Region} {d base : Nat} {code : List Instruction}

/-- Names in the scope of a context have slots within the reach of a region. -/
def Suits (p : Program) (c : Context) (r : Region) : Prop :=
  ∀ x a, c.scope.slot? c.globals x = some a → a < p.reach r ∧ a < 2 ^ 53

/-- A callee has an entry that waits for as many arguments as it is given. -/
def Reached (p : Program) (c : Context) (u : Use) : Prop :=
  p.IsEntry u.1 (c.entry u.1) ∧ p.At (c.entry u.1) (.function u.1) u.2 none

theorem resumption_eq {first last : Instruction} {between : List Instruction}
    (hb : b.Holds base (first :: between ++ [last])) (hf : first.opcode ≠ .call)
    (hm : ∀ i ∈ between, i.opcode ≠ .call) (hl : last.opcode = .call) :
    b.resumption base = base + between.length + 2 := by
  obtain ⟨others, h⟩ := hb
  have none : ¬ ∃ i, i ∈ first :: between ∧ (i.opcode == Opcode.call) = true := by
    rintro ⟨i, hi, hc⟩
    rcases List.mem_cons.mp hi with rfl | hi
    · exact hf (by simpa using hc)
    · exact hm i hi (by simpa using hc)
  unfold Bytecode.resumption
  rw [← h, List.append_assoc, List.findIdx_append, if_neg (by rwa [List.findIdx_lt_length])]
  simp [List.findIdx_cons, hl]
  omega

theorem flowing_parameters {slots : List Nat} {n : Nat}
    (hb : b.Holds (base + 1) (slots.map (.withNat .pushParameter)))
    (hs : p.Lies base (callSites r d n)) (hn : slots.length = n) (hd : p.slotsOf r ≤ d)
    (hslots : ∀ a ∈ slots, a < p.reach r ∧ a < 2 ^ 53) :
    p.Flowing b (base + 1) (base + 1 + n) := by
  intro pc low high
  obtain ⟨k, rfl⟩ : ∃ k, pc = base + (k + 1) := ⟨pc - (base + 1), by omega⟩
  have hk : k < slots.length := by omega
  obtain ⟨o, found⟩ := hs _ _ (callSites_get (r := r) (d := d) (n := n) (k := k) (by omega))
  have next := hs _ _ (callSites_get (r := r) (d := d) (n := n) (k := k + 1) (by omega))
  have fetched : b.instructions[base + (k + 1)]? = some (.withNat .pushParameter slots[k]) := by
    rw [show base + (k + 1) = base + 1 + k by omega]
    exact hb.get (by simp [hk])
  obtain ⟨inReach, exact⟩ := hslots slots[k] (List.getElem_mem hk)
  refine ⟨_, _, fetched, found, ?_⟩
  exact ⟨k, rfl, ⟨slots[k], rfl, inReach, exact, by simp only []; omega⟩, next⟩

variable (wide : p.sites.length < 2 ^ 53)
include wide

theorem At.targets {op : Opcode} {t : Nat} (h : p.At t r d none) :
    p.Targets (.withNat op t) t r d := by
  obtain ⟨o, found⟩ := h
  have := (List.getElem?_eq_some_iff.mp found).1
  exact ⟨rfl, by omega, o, found⟩

theorem flowing_call {callee : String} {arguments : List Expr}
    (hc : c.callCode base callee arguments = .ok code) (hb : b.Holds base code)
    (hs : p.Lies base (callSites r d arguments.length)) (hd : p.slotsOf r ≤ d)
    (suits : p.Suits c r) (reached : p.Reached c (callee, arguments.length))
    (next : p.At (base + code.length) r d none) :
    p.Flowing b base (base + code.length) := by
  have hlen := length_callCode hc
  obtain ⟨parameters, hp, rfl⟩ := Context.callCode_ok.mp hc
  obtain ⟨names, slots, rfl, hns, rfl⟩ := Context.parameterCode_ok.mp hp
  have hn : slots.length = (names.map Expr.var).length := by
    rw [List.length_map, hns.length_eq]
  rw [← hn] at hlen hs reached
  have hslots : ∀ a ∈ slots, a < p.reach r ∧ a < 2 ^ 53 := by
    intro a ha
    obtain ⟨k, hk, rfl⟩ := List.getElem_of_mem ha
    have hk' : k < names.length := by rwa [hns.length_eq]
    exact suits _ _ (hns.get hk' hk)
  have back : b.resumption base = base + slots.length + 2 := by
    rw [resumption_eq hb (by simp [Instruction.withNat, Instruction.withNumber]) ?_ rfl,
      List.length_map]
    intro i hi
    obtain ⟨a, _, rfl⟩ := List.mem_map.mp hi
    simp [Instruction.withNat, Instruction.withNumber]
  rw [List.cons_append, Bytecode.holds_cons, Bytecode.holds_append] at hb
  obtain ⟨first, middle, last⟩ := hb
  rw [List.length_map] at first last
  rw [hlen, ← Nat.add_assoc] at next ⊢
  have begun : p.Flow b base (.withNat .pushReturn (base + slots.length + 2))
      ⟨r, d, none, false⟩ := by
    refine ⟨rfl, hd, ?_, hs _ _ (callSites_get (Nat.zero_le _))⟩
    rw [back]
    exact next.targets wide
  have called : p.Flow b (base + 1 + slots.length) (.withNat .call (c.entry callee))
      ⟨r, d + slots.length, some slots.length, false⟩ :=
    ⟨slots.length, callee, c.entry callee, rfl, reached.1, reached.2.targets wide⟩
  have lastSite := hs _ _ (callSites_get (r := r) (d := d) le_rfl)
  rw [show base + (slots.length + 1) = base + 1 + slots.length by omega] at lastSite
  rw [show base + slots.length + 2 = base + 1 + slots.length + 1 by omega]
  exact ((Flowing.one first hs.head begun).append
    (flowing_parameters middle hs rfl hd hslots)).append
      (Flowing.one last.fetch lastSite called)

theorem flowing_expr (suits : p.Suits c r) : ∀ (e : Expr) {d base : Nat} {code : List Instruction},
    c.exprCode base e = .ok code → b.Holds base code → p.Lies base (e.sites r d) →
      p.slotsOf r ≤ d → (∀ u ∈ e.calls, p.Reached c u) →
        p.At (base + code.length) r (d + 1) none → p.Flowing b base (base + code.length)
  | .number n, d, base, code, h, hb, hs, hd, hu, next => by
    rw [Context.exprCode, Emission.pure_ok] at h
    subst h
    exact Flowing.one hb.fetch hs.head ⟨rfl, next⟩
  | .var name, d, base, code, h, hb, hs, hd, hu, next => by
    obtain ⟨slot, hslot, rfl⟩ := Context.exprCode_var.mp h
    obtain ⟨inReach, exact⟩ := suits name slot hslot
    exact Flowing.one hb.fetch hs.head ⟨rfl, ⟨slot, rfl, inReach, exact, hd⟩, next⟩
  | .read, d, base, code, h, hb, hs, hd, hu, next => by
    rw [Context.exprCode, Emission.pure_ok] at h
    subst h
    exact Flowing.one hb.fetch hs.head ⟨rfl, next⟩
  | .unary op e, d, base, code, h, hb, hs, hd, hu, next => by
    obtain ⟨operand, ho, rfl⟩ := Context.exprCode_unary.mp h
    rw [Bytecode.holds_append] at hb
    rw [Expr.sites, lies_append, ← length_exprCode e ho] at hs
    rw [List.length_append, ← Nat.add_assoc] at next ⊢
    have inner := flowing_expr suits e ho hb.1 hs.1 hd hu hs.2.head
    exact inner.append (Flowing.one hb.2.fetch hs.2.head ⟨rfl, d, rfl, next⟩)
  | .binary op l e, d, base, code, h, hb, hs, hd, hu, next => by
    obtain ⟨left, hl, right, hr, rfl⟩ := Context.exprCode_binary.mp h
    rw [Bytecode.holds_append, Bytecode.holds_append] at hb
    obtain ⟨⟨hbl, hbr⟩, hbo⟩ := hb
    rw [Expr.sites, lies_append, lies_append, List.length_append, ← length_exprCode l hl,
      ← length_exprCode e hr] at hs
    obtain ⟨⟨hsl, hsr⟩, hso⟩ := hs
    simp only [List.length_append, ← Nat.add_assoc] at hbo hso next ⊢
    obtain ⟨rest, hfirst⟩ := e.sites_cons (r := r) (d := d + 1)
    have middle : p.At (base + left.length) r (d + 1) none := by
      rw [hfirst] at hsr
      exact hsr.head
    have flowl := flowing_expr suits l hl hbl hsl hd
      (fun u h => hu u (List.mem_append_left _ h)) middle
    have flowr := flowing_expr suits e hr hbr hsr (by omega)
      (fun u h => hu u (List.mem_append_right _ h)) hso.head
    exact (flowl.append flowr).append (Flowing.one hbo.fetch hso.head ⟨rfl, d, rfl, next⟩)
  | .call callee arguments, d, base, code, h, hb, hs, hd, hu, next => by
    obtain ⟨call, hc, rfl⟩ := Context.exprCode_call.mp h
    rw [Bytecode.holds_append] at hb
    rw [Expr.sites, lies_append, length_callSites, ← length_callCode hc] at hs
    rw [List.length_append, ← Nat.add_assoc] at next ⊢
    have inner := flowing_call wide hc hb.1 hs.1 hd suits (hu _ (List.mem_singleton_self _))
      hs.2.head
    exact inner.append (Flowing.one hb.2.fetch hs.2.head ⟨rfl, next⟩)

theorem flowing_value (suits : p.Suits c r) {name : String} {e : Expr}
    (h : c.valueCode base name e = .ok code) (hb : b.Holds base code)
    (hs : p.Lies base (e.sites r d)) (hd : p.slotsOf r ≤ d) (hu : ∀ u ∈ e.calls, p.Reached c u)
    (next : p.At (base + code.length) r (d + 1) none) :
    p.Flowing b base (base + code.length) := by
  by_cases he : e = .read
  · subst he
    rw [Context.valueCode_read, Except.ok.injEq] at h
    subst h
    exact Flowing.one hb.fetch hs.head ⟨rfl, next⟩
  · rw [Context.valueCode_other he] at h
    exact flowing_expr wide suits e h hb hs hd hu next

omit wide in
theorem lies_taken {e : Expr} {value : List Instruction}
    (hlen : value.length = (e.sites r d).length) :
    p.Lies base (e.takenSites r d) ↔
      p.Lies base (e.sites r d) ∧ p.At (base + value.length) r (d + 1) none := by
  rw [Expr.takenSites, lies_opening, lies_append, lies_cons, hlen]
  simp [lies_nil]

theorem flowing_assignment (suits : p.Suits c r) {name : String} {e : Expr}
    (h : c.assignmentCode base name e = .ok code) (hb : b.Holds base code)
    (hs : p.Lies base (e.takenSites r d)) (hd : p.slotsOf r ≤ d)
    (hu : ∀ u ∈ e.calls, p.Reached c u) (next : p.At (base + code.length) r d none) :
    p.Flowing b base (base + code.length) := by
  obtain ⟨value, hv, slot, hslot, rfl⟩ := Context.assignmentCode_ok.mp h
  obtain ⟨inReach, exact⟩ := suits name slot hslot
  rw [lies_taken (length_valueCode hv)] at hs
  rw [Bytecode.holds_append] at hb
  rw [List.length_append, ← Nat.add_assoc] at next ⊢
  have inner := flowing_value wide suits hv hb.1 hs.1 hd hu hs.2
  exact inner.append (Flowing.one hb.2.fetch (s := ⟨r, d + 1, none, false⟩) hs.2
    ⟨rfl, d, rfl, ⟨slot, rfl, inReach, exact, hd⟩, next⟩)

/-- A condition and the jump that it decides. -/
theorem flowing_condition (suits : p.Suits c r) {e : Expr} {t : Nat}
    (h : c.exprCode base e = .ok code)
    (hb : b.Holds base (code ++ [.withNat .jumpIfZero t]))
    (hs : p.Lies base (e.takenSites r d)) (hd : p.slotsOf r ≤ d)
    (hu : ∀ u ∈ e.calls, p.Reached c u) (target : p.At t r d none)
    (next : p.At (base + code.length + 1) r d none) :
    p.Flowing b base (base + code.length + 1) := by
  rw [lies_taken (length_exprCode e h)] at hs
  rw [Bytecode.holds_append] at hb
  have inner := flowing_expr wide suits e h hb.1 hs.1 hd hu hs.2
  exact inner.append (Flowing.one hb.2.fetch (s := ⟨r, d + 1, none, false⟩) hs.2
    ⟨rfl, d, t, rfl, target.targets wide, next⟩)

end Parts

/-! ## Statements and initializers -/

section Statements

variable {c : Context} {r : Region} {d : Nat}

mutual

theorem flowing_statement (wide : p.sites.length < 2 ^ 53) (suits : p.Suits c r)
    (hd : p.slotsOf r ≤ d) :
    ∀ (s : Statement) {base : Nat} {code : List Instruction}, c.statementCode base s = .ok code →
      b.Holds base code → p.Lies base (s.sites r d) → (∀ u ∈ s.calls, p.Reached c u) →
        p.At (base + code.length) r d none → p.Flowing b base (base + code.length)
  | .echo e, base, code, h, hb, hs, hu, next => by
    obtain ⟨value, hv, rfl⟩ := Context.statementCode_echo.mp h
    rw [Statement.sites, lies_taken (length_exprCode e hv)] at hs
    rw [Bytecode.holds_append] at hb
    rw [List.length_append, ← Nat.add_assoc] at next ⊢
    have inner := flowing_expr wide suits e hv hb.1 hs.1 hd hu hs.2
    exact inner.append (Flowing.one hb.2.fetch (s := ⟨r, d + 1, none, false⟩) hs.2
      ⟨rfl, d, rfl, next⟩)
  | .assign name e, base, code, h, hb, hs, hu, next => by
    rw [Context.statementCode] at h
    exact flowing_assignment wide suits h hb hs hd hu next
  | .ifThen e body, base, code, h, hb, hs, hu, next => by
    obtain ⟨condition, hc, inner, hi, rfl⟩ := Context.statementCode_ifThen.mp h
    rw [List.append_cons, Bytecode.holds_append] at hb
    rw [Statement.sites, lies_append, Expr.length_takenSites, ← length_exprCode e hc] at hs
    rw [List.append_cons] at next ⊢
    simp only [List.length_append, List.length_singleton, ← Nat.add_assoc] at hb hs next ⊢
    have body_first :=
      hs.2.first (starts_statements body) (by rwa [← length_statementsCode body hi])
    have flowc := flowing_condition wide suits hc hb.1 hs.1 hd
      (fun u h => hu u (List.mem_append_left _ h)) next body_first
    exact flowc.append (flowing_statements wide suits hd body hi hb.2 hs.2
      (fun u h => hu u (List.mem_append_right _ h)) next)
  | .ifElse e body otherwise, base, code, h, hb, hs, hu, next => by
    obtain ⟨condition, hc, inner, hi, other, ho, rfl⟩ := Context.statementCode_ifElse.mp h
    rw [List.append_cons, Bytecode.holds_append, Bytecode.holds_append, List.append_cons,
      Bytecode.holds_append] at hb
    rw [Statement.sites, lies_append, lies_append, lies_cons, List.length_append,
      Expr.length_takenSites, ← length_exprCode e hc, ← length_statementsCode body hi] at hs
    rw [List.append_cons, List.append_cons condition] at next ⊢
    simp only [List.length_append, List.length_singleton, ← Nat.add_assoc] at hb hs next ⊢
    obtain ⟨⟨⟨hbc, hbi⟩, hbj⟩, hbo⟩ := hb
    obtain ⟨⟨hsc, hsi⟩, hsj, hso⟩ := hs
    rw [Statement.calls] at hu
    have body_first := hsi.first (starts_statements body) (by rwa [← length_statementsCode body hi])
    have other_first := hso.first (starts_statements otherwise)
      (by rwa [← length_statementsCode otherwise ho])
    have flowc := flowing_condition wide suits hc hbc hsc hd
      (fun u h => hu u (List.mem_append_left _ (List.mem_append_left _ h))) other_first body_first
    have flowi := flowing_statements wide suits hd body hi hbi hsi
      (fun u h => hu u (List.mem_append_left _ (List.mem_append_right _ h))) hsj
    have flowj := Flowing.one hbj.fetch (s := ⟨r, d, none, false⟩) hsj
      ⟨rfl, _, next.targets wide⟩
    have flowo := flowing_statements wide suits hd otherwise ho hbo hso
      (fun u h => hu u (List.mem_append_right _ h)) next
    exact ((flowc.append flowi).append flowj).append flowo
  | .loop e body, base, code, h, hb, hs, hu, next => by
    obtain ⟨condition, hc, inner, hi, rfl⟩ := Context.statementCode_loop.mp h
    rw [Bytecode.holds_append, List.append_cons, Bytecode.holds_append] at hb
    rw [Statement.sites, lies_append, lies_append, List.length_append, Expr.length_takenSites,
      ← length_exprCode e hc, ← length_statementsCode body hi] at hs
    rw [List.append_cons condition] at next ⊢
    simp only [List.length_append, List.length_singleton, ← Nat.add_assoc] at hb hs next ⊢
    obtain ⟨⟨hbc, hbi⟩, hbj⟩ := hb
    obtain ⟨⟨hsc, hsi⟩, hsj⟩ := hs
    obtain ⟨rest, hfirst⟩ := e.takenSites_cons (r := r) (d := d)
    have loop_first : p.At base r d none := by
      rw [hfirst] at hsc
      exact hsc.head
    have body_first := hsi.first (starts_statements body)
      (by rw [← length_statementsCode body hi]; exact hsj.head)
    have flowc := flowing_condition wide suits hc hbc hsc hd
      (fun u h => hu u (List.mem_append_left _ h)) next body_first
    have flowi := flowing_statements wide suits hd body hi hbi hsi
      (fun u h => hu u (List.mem_append_right _ h)) hsj.head
    exact (flowc.append flowi).append (Flowing.one hbj.fetch (s := ⟨r, d, none, false⟩) hsj.head
      ⟨rfl, _, loop_first.targets wide⟩)
  | .call callee arguments, base, code, h, hb, hs, hu, next => by
    rw [Context.statementCode] at h
    rw [Statement.sites, lies_opening] at hs
    exact flowing_call wide h hb hs hd suits (hu _ (List.mem_singleton_self _)) next

theorem flowing_statements (wide : p.sites.length < 2 ^ 53) (suits : p.Suits c r)
    (hd : p.slotsOf r ≤ d) :
    ∀ (ss : List Statement) {base : Nat} {code : List Instruction},
      c.statementsCode base ss = .ok code → b.Holds base code →
        p.Lies base (Statement.sitesAll r d ss) → (∀ u ∈ Statement.callsAll ss, p.Reached c u) →
          p.At (base + code.length) r d none → p.Flowing b base (base + code.length)
  | [], base, code, h, hb, hs, hu, next => by
    rw [Context.statementsCode, Emission.pure_ok] at h
    subst h
    exact .none
  | s :: ss, base, code, h, hb, hs, hu, next => by
    obtain ⟨first, hf, others, ho, rfl⟩ := Context.statementsCode_cons.mp h
    rw [Bytecode.holds_append] at hb
    rw [Statement.sitesAll, lies_append, ← length_statementCode s hf] at hs
    rw [List.length_append, ← Nat.add_assoc] at next ⊢
    have middle := hs.2.first (starts_statements ss)
      (by rwa [← length_statementsCode ss ho])
    have flowf := flowing_statement wide suits hd s hf hb.1 hs.1
      (fun u h => hu u (List.mem_append_left _ h)) middle
    exact flowf.append (flowing_statements wide suits hd ss ho hb.2 hs.2
      (fun u h => hu u (List.mem_append_right _ h)) next)

end

theorem flowing_initializers (wide : p.sites.length < 2 ^ 53) (suits : p.Suits c r)
    (hd : p.slotsOf r ≤ d) {vs : Variables} {base : Nat} {code : List Instruction}
    (h : c.initializersCode base vs = .ok code) (hb : b.Holds base code)
    (hs : p.Lies base (vs.sites r d)) (hu : ∀ u ∈ vs.calls, p.Reached c u)
    (next : p.At (base + code.length) r d none) : p.Flowing b base (base + code.length) := by
  induction vs generalizing base code with
  | nil =>
    rw [Context.initializersCode, Emission.pure_ok] at h
    subst h
    exact .none
  | cons v vs ih =>
    obtain ⟨name, _ | e⟩ := v
    · rw [Context.initializersCode_none] at h
      exact ih h hb hs hu next
    · have further : ∀ u ∈ Variables.calls vs, p.Reached c u :=
        fun u h => hu u (by rw [Variables.calls_some]; exact List.mem_append_right _ h)
      rw [Variables.sites] at hs
      by_cases hz : Context.isZero e = true
      · rw [Context.initializersCode_zero hz] at h
        rw [if_pos hz, List.nil_append] at hs
        exact ih h hb hs further next
      · obtain ⟨first, hf, others, ho, rfl⟩ := (Context.initializersCode_some hz).mp h
        rw [Bytecode.holds_append] at hb
        rw [if_neg hz, lies_append, ← length_assignmentCode hf] at hs
        rw [List.length_append, ← Nat.add_assoc] at next ⊢
        have middle := hs.2.first (starts_variables vs) (by rwa [← length_initializersCode ho])
        have flowf := flowing_assignment wide suits hf hb.1 hs.1 hd
          (fun u h => hu u (by rw [Variables.calls_some]; exact List.mem_append_left _ h)) middle
        exact flowf.append (ih ho hb.2 hs.2 further next)

theorem flowing_actions (wide : p.sites.length < 2 ^ 53) (suits : p.Suits c r)
    (hd : p.slotsOf r ≤ d) {vs : Variables} {ss : List Statement} {base : Nat}
    {code : List Instruction} (h : c.actionCode base vs ss = .ok code) (hb : b.Holds base code)
    (hs : p.Lies base (vs.sites r d ++ Statement.sitesAll r d ss))
    (hu : ∀ u ∈ vs.calls ++ Statement.callsAll ss, p.Reached c u)
    (next : p.At (base + code.length) r d none) : p.Flowing b base (base + code.length) := by
  obtain ⟨first, hf, others, ho, rfl⟩ := Context.actionCode_ok.mp h
  rw [Bytecode.holds_append] at hb
  rw [lies_append, ← length_initializersCode hf] at hs
  rw [List.length_append, ← Nat.add_assoc] at next ⊢
  have middle := hs.2.first (starts_statements ss) (by rwa [← length_statementsCode ss ho])
  have flowf := flowing_initializers wide suits hd hf hb.1 hs.1
    (fun u h => hu u (List.mem_append_left _ h)) middle
  exact flowf.append (flowing_statements wide suits hd ss ho hb.2 hs.2
    (fun u h => hu u (List.mem_append_right _ h)) next)

theorem lies_allocations {base n : Nat} (hs : p.Lies base (allocationSites r d n))
    (next : p.At (base + n) r (d + n) none) {k : Nat} (hk : k ≤ n) :
    p.At (base + k) r (d + k) none := by
  rcases hk.eq_or_lt with rfl | hk
  · exact next
  · exact hs k ⟨r, d + k, none, false⟩ (by simp [allocationSites, List.getElem?_range hk])

theorem flowing_allocations {vs : Variables} {base : Nat} (hb : b.Holds base (allocations vs))
    (hs : p.Lies base (allocationSites r d vs.length))
    (next : p.At (base + vs.length) r (d + vs.length) none) :
    p.Flowing b base (base + vs.length) := by
  intro pc low high
  obtain ⟨k, rfl⟩ : ∃ k, pc = base + k := ⟨pc - base, by omega⟩
  have hk : k < vs.length := by omega
  obtain ⟨o, here⟩ := lies_allocations hs next hk.le
  have fetched : b.instructions[base + k]? = some (.withNat .alloc 1) :=
    hb.get (by simp [allocations, hk])
  exact ⟨_, _, fetched, here, rfl, rfl, lies_allocations hs next hk⟩

end Statements

end Program

end FlatStack
