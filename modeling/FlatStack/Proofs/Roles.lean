import FlatStack.Proofs.Sites

/-!
# Roles

What an instruction does for the control of a program follows from the program
alone: it belongs to a call, it leaves a condition or leads back to one, it
leads over a function or ends one, or it hands on to the instruction behind it.
The roles are listed in the order of the code, and the code of every part
fits them: each operand is the address that the role tells.
-/

set_option autoImplicit false

namespace FlatStack

open Generator (Piece Plan)

inductive Role where
  /-- Hands on to the next instruction. -/
  | plain
  /-- Leads over the function `f`. -/
  | skip (f : String)
  /-- Leaves a condition that does not hold for what comes `n` instructions further on. -/
  | branch (n : Nat)
  /-- Ends the first part of an alternative, the second part of which has `n` instructions. -/
  | join (n : Nat)
  /-- Ends the body of a loop and leads back to its condition. -/
  | back (condition : Expr)
  /-- Begins a call of `f` with `n` arguments. -/
  | begin (f : String) (n : Nat)
  /-- Passes an argument. -/
  | pass
  /-- Enters the function `f`. -/
  | enter (f : String)
  /-- Ends a function. -/
  | leave

/-! ## Roles of each part -/

def callRoles (f : String) (n : Nat) : List Role :=
  .begin f n :: List.replicate n .pass ++ [.enter f]

def Expr.roles : Expr → List Role
  | .number _ | .var _ | .read => [.plain]
  | .unary _ e => e.roles ++ [.plain]
  | .binary _ l e => l.roles ++ e.roles ++ [.plain]
  | .call f arguments => callRoles f arguments.length ++ [.plain]

namespace Statement

mutual

def roles : Statement → List Role
  | .echo e | .assign _ e => e.roles ++ [.plain]
  | .ifThen c body => c.roles ++ .branch (rolesAll body).length :: rolesAll body
  | .ifElse c body otherwise =>
    c.roles ++ .branch ((rolesAll body).length + 1) :: rolesAll body
      ++ .join (rolesAll otherwise).length :: rolesAll otherwise
  | .loop c body => c.roles ++ .branch ((rolesAll body).length + 1) :: rolesAll body ++ [.back c]
  | .call f arguments => callRoles f arguments.length

def rolesAll : List Statement → List Role
  | [] => []
  | s :: ss => s.roles ++ rolesAll ss

end

end Statement

/-- Initializers that leave the slot as it is have no code. -/
def Variables.roles : Variables → List Role
  | [] => []
  | (_, none) :: vs => Variables.roles vs
  | (_, some e) :: vs =>
    (if Context.isZero e then [] else e.roles ++ [.plain]) ++ Variables.roles vs

def Routine.roles (q : Routine) : List Role :=
  List.replicate q.vars.length .plain ++ (q.vars.roles ++ Statement.rolesAll q.statements)
    ++ ((if q.slots = 0 then [] else [.plain]) ++ [.leave])

/-- The roles of routines one after another, each behind a jump over it. -/
def linkedRoles (qs : List Routine) : List Role :=
  qs.flatMap fun q => .skip q.name :: q.roles

def Program.roles (p : Program) : List Role :=
  .plain :: (List.replicate p.globals .plain ++ linkedRoles p.routines
    ++ (p.vars.roles ++ Statement.rolesAll p.statements)) ++ [.plain]

/-! ## As many roles as instructions -/

section Lengths

variable {r : Region} {d : Nat}

@[simp] theorem length_callRoles (f : String) (n : Nat) : (callRoles f n).length = n + 2 := by
  simp [callRoles]

theorem Expr.length_roles : ∀ (e : Expr) {d : Nat}, e.roles.length = (e.sites r d).length
  | .number _, _ | .var _, _ | .read, _ => rfl
  | .unary _ e, d => by simp [Expr.roles, Expr.sites, e.length_roles (d := d)]
  | .binary _ l e, d => by
    simp [Expr.roles, Expr.sites, l.length_roles (d := d), e.length_roles (d := d + 1)]
  | .call f arguments, d => by simp [Expr.roles, Expr.sites]

mutual

theorem Statement.length_roles : ∀ s : Statement, s.roles.length = (s.sites r d).length
  | .echo e | .assign _ e => by
    simp [Statement.roles, Statement.sites, Expr.length_takenSites,
      e.length_roles (r := r) (d := d)]
  | .ifThen c body => by
    simp [Statement.roles, Statement.sites, Expr.length_takenSites,
      c.length_roles (r := r) (d := d), Statement.length_rolesAll body]
    omega
  | .ifElse c body otherwise => by
    simp [Statement.roles, Statement.sites, Expr.length_takenSites,
      c.length_roles (r := r) (d := d), Statement.length_rolesAll body,
      Statement.length_rolesAll otherwise]
    omega
  | .loop c body => by
    simp [Statement.roles, Statement.sites, Expr.length_takenSites,
      c.length_roles (r := r) (d := d), Statement.length_rolesAll body]
    omega
  | .call f arguments => by simp [Statement.roles, Statement.sites]

theorem Statement.length_rolesAll : ∀ ss : List Statement,
    (Statement.rolesAll ss).length = (Statement.sitesAll r d ss).length
  | [] => rfl
  | s :: ss => by
    simp [Statement.rolesAll, Statement.sitesAll, s.length_roles, Statement.length_rolesAll ss]

end

theorem Variables.length_roles (vs : Variables) : vs.roles.length = (vs.sites r d).length := by
  induction vs with
  | nil => rfl
  | cons v vs ih =>
    obtain ⟨name, _ | e⟩ := v
    · exact ih
    · by_cases hz : Context.isZero e = true
      · simpa [Variables.roles, Variables.sites, hz] using ih
      · simp [Variables.roles, Variables.sites, hz, ih, Expr.length_takenSites,
          e.length_roles (r := r) (d := d)]
        omega

theorem Routine.length_roles (q : Routine) : q.roles.length = q.sites.length := by
  simp only [Routine.roles, Routine.sites, List.length_append, List.length_replicate,
    length_allocationSites, Variables.length_roles (r := .function q.name) (d := q.slots),
    Statement.length_rolesAll (r := .function q.name) (d := q.slots)]
  split <;> rfl

theorem length_linkedRoles (qs : List Routine) :
    (linkedRoles qs).length = (linkedSites d qs).length := by
  induction qs with
  | nil => rfl
  | cons q qs ih =>
    simp only [linkedRoles, linkedSites, List.flatMap_cons, List.length_append, List.length_cons,
      q.length_roles] at ih ⊢
    rw [ih]

variable {c : Context} {base : Nat} {code : List Instruction}

theorem length_exprRoles {e : Expr} (h : c.exprCode base e = .ok code) :
    e.roles.length = code.length := by
  rw [length_exprCode (r := .top) (d := 0) e h, Expr.length_roles]

theorem length_statementRoles {s : Statement} (h : c.statementCode base s = .ok code) :
    s.roles.length = code.length := by
  rw [length_statementCode (r := .top) (d := 0) s h, Statement.length_roles]

theorem length_statementsRoles {ss : List Statement} (h : c.statementsCode base ss = .ok code) :
    (Statement.rolesAll ss).length = code.length := by
  rw [length_statementsCode (r := .top) (d := 0) ss h, Statement.length_rolesAll]

theorem length_variablesRoles {vs : Variables} (h : c.initializersCode base vs = .ok code) :
    vs.roles.length = code.length := by
  rw [length_initializersCode (r := .top) (d := 0) h, Variables.length_roles]

theorem length_actionRoles {vs : Variables} {ss : List Statement}
    (h : c.actionCode base vs ss = .ok code) :
    (vs.roles ++ Statement.rolesAll ss).length = code.length := by
  rw [length_actionCode (r := .top) (d := 0) h, List.length_append, List.length_append,
    Variables.length_roles, Statement.length_rolesAll]

end Lengths

/-! ## What fits a role -/

/-- The opcodes that take part in the control of a program. -/
def Opcode.controls : List Opcode :=
  [.jump, .jumpIfZero, .pushReturn, .pushParameter, .call, .return_]

/-- The opcode that a role is for. -/
def Role.opcode? : Role → Option Opcode
  | .plain => none
  | .skip _ | .join _ | .back _ => some .jump
  | .branch _ => some .jumpIfZero
  | .begin .. => some .pushReturn
  | .pass => some .pushParameter
  | .enter _ => some .call
  | .leave => some .return_

/-- Where the functions of a program are. -/
structure Places where
  enters : String → Nat → Prop
  leaves : Nat → Prop
  /-- What comes behind all functions. -/
  after : Nat

section Fits

variable (b : Bytecode) (places : Places) (lowest highest : Nat)

/-- What stands at an address fits a role. Branches stay between `lowest` and
`highest`, the addresses that a region begins and ends with. -/
def Fits (pc : Nat) : Role → Prop
  | .plain => ∃ i, b.instructions[pc]? = some i ∧ i.opcode ∉ Opcode.controls
  | .skip f => b.instructions[pc]? = some (Generator.skip places.after f)
  | .branch n =>
    b.instructions[pc]? = some (.withNat .jumpIfZero (pc + 1 + n)) ∧ pc + 1 + n ≤ highest
  | .join n => b.instructions[pc]? = some (.withNat .jump (pc + 1 + n)) ∧ pc + 1 + n ≤ highest
  | .back condition => ∃ (t : Nat) (c : Context) (code : List Instruction),
    b.instructions[pc]? = some (.withNat .jump t) ∧ lowest ≤ t ∧ t + code.length < pc ∧
      c.exprCode t condition = .ok code ∧ b.Holds t code ∧
        b.instructions[t + code.length]? = some (.withNat .jumpIfZero (pc + 1)) ∧ pc + 1 ≤ highest
  | .begin f n =>
    b.instructions[pc]? = some (.withNat .pushReturn (pc + n + 2)) ∧ pc + n + 2 ≤ highest ∧
      (∀ k < n, ∃ a, b.instructions[pc + 1 + k]? = some (.withNat .pushParameter a)) ∧
        ∃ t, places.enters f t ∧ b.instructions[pc + 1 + n]? = some (.withNat .call t)
  | .pass => ∃ a, b.instructions[pc]? = some (.withNat .pushParameter a)
  | .enter f => ∃ t, places.enters f t ∧ b.instructions[pc]? = some (.withNat .call t)
  | .leave => b.instructions[pc]? = some (.bare .return_) ∧ places.leaves pc

variable {b places lowest highest}

/-- A role tells whether an instruction takes part in control, and how. -/
theorem Fits.opcode {pc : Nat} {r : Role} (h : Fits b places lowest highest pc r) :
    ∃ i, b.instructions[pc]? = some i ∧
      ∀ o ∈ Opcode.controls, i.opcode = o ↔ r.opcode? = some o := by
  have told : ∀ {i : Instruction} {o : Opcode}, b.instructions[pc]? = some i →
      i.opcode = o → r.opcode? = some o → ∃ i, b.instructions[pc]? = some i ∧
        ∀ o ∈ Opcode.controls, i.opcode = o ↔ r.opcode? = some o := by
    rintro i o found rfl role
    exact ⟨i, found, fun o _ => by rw [role, Option.some.injEq]⟩
  cases r with
  | plain =>
    obtain ⟨i, found, none⟩ := h
    refine ⟨i, found, fun o ho => ⟨?_, by simp [Role.opcode?]⟩⟩
    rintro rfl
    exact absurd ho none
  | skip f => exact told h rfl rfl
  | branch n | join n | begin f n | leave => exact told h.1 rfl rfl
  | back e =>
    obtain ⟨_, _, _, found, _⟩ := h
    exact told found rfl rfl
  | pass =>
    obtain ⟨_, found⟩ := h
    exact told found rfl rfl
  | enter f =>
    obtain ⟨_, _, found⟩ := h
    exact told found rfl rfl

/-! ## Code of each part -/

section Parts

variable {c : Context} {base : Nat} {code : List Instruction}

theorem plain_fits {i : Instruction} (hb : b.instructions[base]? = some i)
    (ho : i.opcode ∉ Opcode.controls) : Fits b places lowest highest base .plain :=
  ⟨i, hb, ho⟩

theorem call_fits {f : String} {arguments : List Expr}
    (h : c.callCode base f arguments = .ok code) (hb : b.Holds base code)
    (he : places.enters f (c.entry f)) (high : base + code.length ≤ highest) :
    Along (Fits b places lowest highest) base (callRoles f arguments.length) := by
  have hlen := length_callCode h
  obtain ⟨parameters, hp, rfl⟩ := Context.callCode_ok.mp h
  obtain ⟨names, slots, rfl, hns, rfl⟩ := Context.parameterCode_ok.mp hp
  have hn : (names.map Expr.var).length = slots.length := by
    rw [List.length_map, hns.length_eq]
  rw [hlen, hn] at high
  rw [hn]
  rw [List.cons_append, Bytecode.holds_cons, Bytecode.holds_append, List.length_map] at hb
  obtain ⟨first, middle, last⟩ := hb
  have passed : ∀ k < slots.length,
      ∃ a, b.instructions[base + 1 + k]? = some (.withNat .pushParameter a) :=
    fun k hk => ⟨slots[k], middle.get (by simp [hk])⟩
  rw [callRoles, List.cons_append, along_cons, along_append, List.length_replicate]
  exact ⟨⟨first, by omega, passed, _, he, last.fetch⟩, along_replicate passed,
    along_one ⟨_, he, last.fetch⟩⟩

theorem expr_fits : ∀ (e : Expr) {base : Nat} {code : List Instruction},
    c.exprCode base e = .ok code → b.Holds base code →
      (∀ u ∈ e.calls, places.enters u.1 (c.entry u.1)) → base + code.length ≤ highest →
        Along (Fits b places lowest highest) base e.roles
  | .number n, base, code, h, hb, hu, high | .read, base, code, h, hb, hu, high => by
    rw [Context.exprCode, Emission.pure_ok] at h
    subst h
    exact along_one (plain_fits hb.fetch (by simp [Opcode.controls]))
  | .var name, base, code, h, hb, hu, high => by
    obtain ⟨slot, _, rfl⟩ := Context.exprCode_var.mp h
    exact along_one (plain_fits hb.fetch (by simp [Opcode.controls]))
  | .unary op e, base, code, h, hb, hu, high => by
    obtain ⟨operand, ho, rfl⟩ := Context.exprCode_unary.mp h
    rw [Bytecode.holds_append] at hb
    rw [List.length_append] at high
    rw [Expr.roles, along_append, length_exprRoles ho]
    exact ⟨expr_fits e ho hb.1 hu (by omega),
      along_one (plain_fits hb.2.fetch (by simp [Opcode.controls]))⟩
  | .binary op l e, base, code, h, hb, hu, high => by
    obtain ⟨left, hl, right, hr, rfl⟩ := Context.exprCode_binary.mp h
    rw [Bytecode.holds_append, Bytecode.holds_append, List.length_append, ← Nat.add_assoc] at hb
    obtain ⟨⟨hbl, hbr⟩, hbo⟩ := hb
    rw [List.length_append, List.length_append] at high
    rw [Expr.roles, along_append, along_append, List.length_append, length_exprRoles hl,
      length_exprRoles hr, ← Nat.add_assoc]
    refine ⟨⟨expr_fits l hl hbl (fun u h => hu u (List.mem_append_left _ h)) (by omega),
      expr_fits e hr hbr (fun u h => hu u (List.mem_append_right _ h)) (by omega)⟩, ?_⟩
    exact along_one (plain_fits hbo.fetch (by simp [Opcode.controls]))
  | .call f arguments, base, code, h, hb, hu, high => by
    obtain ⟨call, hc, rfl⟩ := Context.exprCode_call.mp h
    rw [Bytecode.holds_append] at hb
    rw [List.length_append] at high
    rw [Expr.roles, along_append, length_callRoles, ← length_callCode hc]
    exact ⟨call_fits hc hb.1 (hu _ (List.mem_singleton_self _)) (by omega),
      along_one (plain_fits hb.2.fetch (by simp [Opcode.controls]))⟩

theorem assignment_fits {name : String} {e : Expr} (h : c.assignmentCode base name e = .ok code)
    (hb : b.Holds base code) (hu : ∀ u ∈ e.calls, places.enters u.1 (c.entry u.1))
    (high : base + code.length ≤ highest) :
    Along (Fits b places lowest highest) base (e.roles ++ [.plain]) := by
  obtain ⟨value, hv, slot, _, rfl⟩ := Context.assignmentCode_ok.mp h
  rw [Bytecode.holds_append] at hb
  rw [List.length_append] at high
  have stored : ∀ {pc}, b.Holds pc [.withNat .store slot] →
      Along (Fits b places lowest highest) pc [.plain] :=
    fun h => along_one (plain_fits h.fetch (by simp [Opcode.controls]))
  by_cases he : e = .read
  · subst he
    rw [Context.valueCode_read, Except.ok.injEq] at hv
    subst hv
    exact along_append.mpr
      ⟨along_one (plain_fits hb.1.fetch (by simp [Opcode.controls])), stored hb.2⟩
  · rw [Context.valueCode_other he] at hv
    rw [along_append, length_exprRoles hv]
    exact ⟨expr_fits e hv hb.1 hu (by omega), stored hb.2⟩

mutual

theorem statement_fits : ∀ (s : Statement) {base : Nat} {code : List Instruction},
    c.statementCode base s = .ok code → b.Holds base code →
      (∀ u ∈ s.calls, places.enters u.1 (c.entry u.1)) → lowest ≤ base →
        base + code.length ≤ highest →
          Along (Fits b places lowest highest) base s.roles
  | .echo e, base, code, h, hb, hu, low, high => by
    obtain ⟨value, hv, rfl⟩ := Context.statementCode_echo.mp h
    rw [Bytecode.holds_append] at hb
    rw [List.length_append] at high
    rw [Statement.roles, along_append, length_exprRoles hv]
    exact ⟨expr_fits e hv hb.1 hu (by omega),
      along_one (plain_fits hb.2.fetch (by simp [Opcode.controls]))⟩
  | .assign name e, base, code, h, hb, hu, low, high => by
    rw [Context.statementCode] at h
    exact assignment_fits h hb hu high
  | .ifThen e body, base, code, h, hb, hu, low, high => by
    obtain ⟨condition, hc, inner, hi, rfl⟩ := Context.statementCode_ifThen.mp h
    rw [Bytecode.holds_append, Bytecode.holds_cons] at hb
    rw [List.length_append, List.length_cons] at high
    rw [Statement.roles, along_append, along_cons, length_exprRoles hc, length_statementsRoles hi]
    refine ⟨expr_fits e hc hb.1 (fun u h => hu u (List.mem_append_left _ h)) (by omega),
      ⟨hb.2.1, by omega⟩, ?_⟩
    exact statements_fit body hi hb.2.2 (fun u h => hu u (List.mem_append_right _ h))
      (by omega) (by omega)
  | .ifElse e body otherwise, base, code, h, hb, hu, low, high => by
    obtain ⟨condition, hc, inner, hi, other, ho, rfl⟩ := Context.statementCode_ifElse.mp h
    simp only [Bytecode.holds_append, Bytecode.holds_cons, List.length_append,
      List.length_cons] at hb
    obtain ⟨⟨hbc, hbj, hbi⟩, hbt, hbo⟩ := hb
    simp only [List.length_append, List.length_cons] at high
    simp only [Statement.roles, along_append, along_cons, List.length_append, List.length_cons,
      length_exprRoles hc, length_statementsRoles hi, length_statementsRoles ho]
    have second : base + (condition.length + (inner.length + 1)) + 1
        = base + condition.length + 1 + inner.length + 1 := by omega
    rw [second] at hbo ⊢
    refine ⟨⟨?_, ⟨hbj, by omega⟩, ?_⟩, ⟨?_, by omega⟩, ?_⟩
    · exact expr_fits e hc hbc
        (fun u h => hu u (List.mem_append_left _ (List.mem_append_left _ h))) (by omega)
    · exact statements_fit body hi hbi
        (fun u h => hu u (List.mem_append_left _ (List.mem_append_right _ h))) (by omega) (by omega)
    · rw [second]
      exact hbt
    · exact statements_fit otherwise ho hbo
        (fun u h => hu u (List.mem_append_right _ h)) (by omega) (by omega)
  | .loop e body, base, code, h, hb, hu, low, high => by
    obtain ⟨condition, hc, inner, hi, rfl⟩ := Context.statementCode_loop.mp h
    simp only [Bytecode.holds_append, Bytecode.holds_cons, List.length_append,
      List.length_cons] at hb
    obtain ⟨⟨hbc, hbj, hbi⟩, hbt⟩ := hb
    simp only [List.length_append, List.length_cons] at high
    simp only [Statement.roles, along_append, along_cons, List.length_append, List.length_cons,
      length_exprRoles hc, length_statementsRoles hi]
    refine ⟨⟨?_, ⟨hbj, by omega⟩, ?_⟩, ?_, along_nil⟩
    · exact expr_fits e hc hbc (fun u h => hu u (List.mem_append_left _ h)) (by omega)
    · exact statements_fit body hi hbi
        (fun u h => hu u (List.mem_append_right _ h)) (by omega) (by omega)
    -- The loop begins with the code of its condition, so this is where the last jump leads.
    · refine ⟨base, c, condition, hbt.1, low, by omega, hc, hbc, ?_⟩
      rw [hbj]
      exact ⟨by congr 2; omega, by omega⟩
  | .call f arguments, base, code, h, hb, hu, low, high => by
    rw [Context.statementCode] at h
    exact call_fits h hb (hu _ (List.mem_singleton_self _)) high

theorem statements_fit : ∀ (ss : List Statement) {base : Nat} {code : List Instruction},
    c.statementsCode base ss = .ok code → b.Holds base code →
      (∀ u ∈ Statement.callsAll ss, places.enters u.1 (c.entry u.1)) → lowest ≤ base →
        base + code.length ≤ highest →
          Along (Fits b places lowest highest) base (Statement.rolesAll ss)
  | [], _, _, _, _, _, _, _ => along_nil
  | s :: ss, base, code, h, hb, hu, low, high => by
    obtain ⟨first, hf, others, ho, rfl⟩ := Context.statementsCode_cons.mp h
    rw [Bytecode.holds_append] at hb
    rw [List.length_append] at high
    rw [Statement.rolesAll, along_append, length_statementRoles hf]
    exact ⟨statement_fits s hf hb.1 (fun u h => hu u (List.mem_append_left _ h)) low (by omega),
      statements_fit ss ho hb.2 (fun u h => hu u (List.mem_append_right _ h)) (by omega)
        (by omega)⟩

end

theorem initializers_fit {vs : Variables} (h : c.initializersCode base vs = .ok code)
    (hb : b.Holds base code) (hu : ∀ u ∈ vs.calls, places.enters u.1 (c.entry u.1))
    (high : base + code.length ≤ highest) :
    Along (Fits b places lowest highest) base vs.roles := by
  induction vs generalizing base code with
  | nil => exact along_nil
  | cons v vs ih =>
    obtain ⟨name, _ | e⟩ := v
    · rw [Context.initializersCode_none] at h
      exact ih h hb hu high
    · have rest : ∀ u ∈ Variables.calls vs, places.enters u.1 (c.entry u.1) :=
        fun u h => hu u (List.mem_append_right _ h)
      by_cases hz : Context.isZero e = true
      · rw [Context.initializersCode_zero hz] at h
        rw [Variables.roles, if_pos hz]
        exact ih h hb rest high
      · obtain ⟨first, hf, others, ho, rfl⟩ := (Context.initializersCode_some hz).mp h
        rw [Bytecode.holds_append] at hb
        rw [List.length_append] at high
        have length : (e.roles ++ [Role.plain]).length = first.length := by
          rw [length_assignmentCode (r := .top) (d := 0) hf, Expr.length_takenSites,
            List.length_append, Expr.length_roles, List.length_singleton]
        rw [Variables.roles, if_neg hz, along_append, length]
        exact ⟨assignment_fits hf hb.1 (fun u h => hu u (List.mem_append_left _ h)) (by omega),
          ih ho hb.2 rest (by omega)⟩

theorem actions_fit {vs : Variables} {ss : List Statement} (h : c.actionCode base vs ss = .ok code)
    (hb : b.Holds base code)
    (hu : ∀ u ∈ vs.calls ++ Statement.callsAll ss, places.enters u.1 (c.entry u.1))
    (low : lowest ≤ base) (high : base + code.length ≤ highest) :
    Along (Fits b places lowest highest) base (vs.roles ++ Statement.rolesAll ss) := by
  obtain ⟨first, hf, others, ho, rfl⟩ := Context.actionCode_ok.mp h
  rw [Bytecode.holds_append] at hb
  rw [List.length_append] at high
  rw [along_append, length_variablesRoles hf]
  exact ⟨initializers_fit hf hb.1 (fun u h => hu u (List.mem_append_left _ h)) (by omega),
    statements_fit ss ho hb.2 (fun u h => hu u (List.mem_append_right _ h)) (by omega) (by omega)⟩

theorem allocation_at {vs : Variables} (hb : b.Holds base (Generator.allocations vs)) {k : Nat}
    (hk : k < vs.length) : b.instructions[base + k]? = some (.withNat .alloc 1) :=
  hb.get (by simp [Generator.allocations, hk])

theorem allocations_fit {vs : Variables} (hb : b.Holds base (Generator.allocations vs)) :
    Along (Fits b places lowest highest) base (List.replicate vs.length .plain) :=
  along_replicate fun _ hk => plain_fits (allocation_at hb hk) (by simp [Opcode.controls])

theorem epilogue_fits {slots : Nat} (hb : b.Holds base (Plan.epilogue slots))
    (left : ∀ pc, pc + 1 = base + (Plan.epilogue slots).length → places.leaves pc) :
    Along (Fits b places lowest highest) base
      ((if slots = 0 then [] else [.plain]) ++ [.leave]) := by
  unfold Plan.epilogue at hb left
  by_cases none : slots = 0
  · rw [if_pos none] at hb left ⊢
    exact along_one ⟨hb.fetch, left _ rfl⟩
  · rw [if_neg none] at hb left ⊢
    obtain ⟨dropped, returned⟩ := Bytecode.holds_cons.mp hb
    refine along_cons.mpr ⟨plain_fits dropped (by simp [Opcode.controls]), ?_⟩
    exact along_one ⟨returned.fetch, left _ rfl⟩

end Parts

end Fits

end FlatStack
