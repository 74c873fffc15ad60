import FlatStack.Proofs.Image

/-!
# Sites

To each address of the code of a program belongs a site: the routine that the
instruction there is part of, and how many values this routine has on the
stack when the instruction comes up. The sites follow from the program alone.
They are listed here in the order of the code, part by part.
-/

set_option autoImplicit false

namespace FlatStack

open Generator

inductive Region where
  | top
  | function (name : String)
  deriving DecidableEq, Repr

structure Site where
  region : Region
  depth : Nat
  /-- How many arguments are passed already to the call that has begun, if one has. -/
  passed : Option Nat := none
  /-- An initializer or a statement begins here. -/
  opens : Bool := false
  deriving DecidableEq, Repr

/-! ## Sites of each part -/

/-- Marks the first address of an initializer or a statement. -/
def opening : List Site → List Site
  | [] => []
  | s :: ss => { s with opens := true } :: ss

/-- The sites of a call with `n` arguments. -/
def callSites (r : Region) (d n : Nat) : List Site :=
  ⟨r, d, none, false⟩ :: (List.range (n + 1)).map fun k => ⟨r, d + k, some k, false⟩

def Expr.sites (r : Region) (d : Nat) : Expr → List Site
  | .number _ | .var _ | .read => [⟨r, d, none, false⟩]
  | .unary _ e => e.sites r d ++ [⟨r, d + 1, none, false⟩]
  | .binary _ l e => l.sites r d ++ e.sites r (d + 1) ++ [⟨r, d + 2, none, false⟩]
  | .call _ arguments => callSites r d arguments.length ++ [⟨r, d, none, false⟩]

/-- An expression whose value the next instruction takes. -/
def Expr.takenSites (r : Region) (d : Nat) (e : Expr) : List Site :=
  opening (e.sites r d ++ [⟨r, d + 1, none, false⟩])

namespace Statement

mutual

def sites (r : Region) (d : Nat) : Statement → List Site
  | .echo e | .assign _ e => e.takenSites r d
  | .ifThen c body => c.takenSites r d ++ sitesAll r d body
  | .ifElse c body otherwise =>
    c.takenSites r d ++ sitesAll r d body ++ ⟨r, d, none, false⟩ :: sitesAll r d otherwise
  | .loop c body => c.takenSites r d ++ sitesAll r d body ++ [⟨r, d, none, false⟩]
  | .call _ arguments => opening (callSites r d arguments.length)

def sitesAll (r : Region) (d : Nat) : List Statement → List Site
  | [] => []
  | s :: ss => s.sites r d ++ sitesAll r d ss

end

end Statement

/-- Initializers that leave the slot as it is have no code. -/
def Variables.sites (r : Region) (d : Nat) : Variables → List Site
  | [] => []
  | (_, none) :: vs => Variables.sites r d vs
  | (_, some e) :: vs =>
    (if Context.isZero e then [] else e.takenSites r d) ++ Variables.sites r d vs

/-- The sites of `n` allocations. -/
def allocationSites (r : Region) (d n : Nat) : List Site :=
  (List.range n).map fun k => ⟨r, d + k, none, false⟩

def Routine.sites (q : Routine) : List Site :=
  let r := Region.function q.name
  allocationSites r q.parameters.length q.vars.length
    ++ (Variables.sites r q.slots q.vars ++ Statement.sitesAll r q.slots q.statements)
    ++ ((if q.slots = 0 then [] else [⟨r, q.slots, none, false⟩]) ++ [⟨r, 0, none, false⟩])

/-- The sites of routines one after another, each behind a jump over it. -/
def linkedSites (d : Nat) (qs : List Routine) : List Site :=
  qs.flatMap fun q => ⟨.top, d, none, false⟩ :: q.sites

namespace Program

def globals (p : Program) : Nat := p.vars.length

def sites (p : Program) : List Site :=
  ⟨.top, 0, none, false⟩ :: (allocationSites .top 0 p.globals ++ linkedSites p.globals p.routines
    ++ (Variables.sites .top p.globals p.vars ++ Statement.sitesAll .top p.globals p.statements))
    ++ [⟨.top, p.globals, none, false⟩]

/-- How many slots a region has. -/
def slotsOf (p : Program) : Region → Nat
  | .top => p.globals
  | .function f => ((p.routine? f).map Routine.slots).getD 0

end Program

/-! ## As many sites as instructions -/

section Lengths

variable {r : Region} {d : Nat}

@[simp] theorem length_opening (ss : List Site) : (opening ss).length = ss.length := by
  cases ss <;> rfl

@[simp] theorem length_callSites (n : Nat) : (callSites r d n).length = n + 2 := by
  simp [callSites]

@[simp] theorem length_allocationSites (n : Nat) : (allocationSites r d n).length = n := by
  simp [allocationSites]

theorem Expr.length_takenSites (e : Expr) :
    (e.takenSites r d).length = (e.sites r d).length + 1 := by
  simp [Expr.takenSites]

variable {c : Context} {base : Nat} {code : List Instruction}

open Context

theorem length_callCode {callee : String} {arguments : List Expr}
    (h : c.callCode base callee arguments = .ok code) : code.length = arguments.length + 2 := by
  obtain ⟨parameters, hp, rfl⟩ := callCode_ok.mp h
  obtain ⟨names, slots, rfl, hns, rfl⟩ := parameterCode_ok.mp hp
  simp [hns.length_eq]

theorem length_exprCode : ∀ (e : Expr) {d base : Nat} {code : List Instruction},
    c.exprCode base e = .ok code → code.length = (e.sites r d).length
  | .number n, d, base, code, h => by
    rw [exprCode, Emission.pure_ok] at h
    rw [← h]
    rfl
  | .var name, d, base, code, h => by
    obtain ⟨slot, _, rfl⟩ := exprCode_var.mp h
    rfl
  | .read, d, base, code, h => by
    rw [exprCode, Emission.pure_ok] at h
    rw [← h]
    rfl
  | .unary op e, d, base, code, h => by
    obtain ⟨operand, ho, rfl⟩ := exprCode_unary.mp h
    simp [Expr.sites, ← length_exprCode e (d := d) ho]
  | .binary op l e, d, base, code, h => by
    obtain ⟨left, hl, right, hr, rfl⟩ := exprCode_binary.mp h
    simp [Expr.sites, ← length_exprCode l (d := d) hl, ← length_exprCode e (d := d + 1) hr]
  | .call callee arguments, d, base, code, h => by
    obtain ⟨call, hc, rfl⟩ := exprCode_call.mp h
    simp [Expr.sites, length_callCode hc]

theorem length_valueCode {name : String} {e : Expr} (h : c.valueCode base name e = .ok code) :
    code.length = (e.sites r d).length := by
  by_cases he : e = .read
  · subst he
    rw [valueCode_read, Except.ok.injEq] at h
    rw [← h]
    rfl
  · rw [valueCode_other he] at h
    exact length_exprCode e h

theorem length_assignmentCode {name : String} {e : Expr}
    (h : c.assignmentCode base name e = .ok code) :
    code.length = (e.takenSites r d).length := by
  obtain ⟨value, hv, slot, _, rfl⟩ := assignmentCode_ok.mp h
  simp [Expr.length_takenSites, length_valueCode (r := r) (d := d) hv]

mutual

theorem length_statementCode : ∀ (s : Statement) {base : Nat} {code : List Instruction},
    c.statementCode base s = .ok code → code.length = (s.sites r d).length
  | .echo e, base, code, h => by
    obtain ⟨value, hv, rfl⟩ := statementCode_echo.mp h
    simp [Statement.sites, Expr.length_takenSites, length_exprCode (r := r) (d := d) e hv]
  | .assign name e, base, code, h => by
    rw [statementCode] at h
    exact length_assignmentCode h
  | .ifThen e body, base, code, h => by
    obtain ⟨condition, hc, inner, hi, rfl⟩ := statementCode_ifThen.mp h
    simp [Statement.sites, Expr.length_takenSites, length_exprCode (r := r) (d := d) e hc,
      length_statementsCode body hi]
    omega
  | .ifElse e body otherwise, base, code, h => by
    obtain ⟨condition, hc, inner, hi, other, ho, rfl⟩ := statementCode_ifElse.mp h
    simp [Statement.sites, Expr.length_takenSites, length_exprCode (r := r) (d := d) e hc,
      length_statementsCode body hi, length_statementsCode otherwise ho]
    omega
  | .loop e body, base, code, h => by
    obtain ⟨condition, hc, inner, hi, rfl⟩ := statementCode_loop.mp h
    simp [Statement.sites, Expr.length_takenSites, length_exprCode (r := r) (d := d) e hc,
      length_statementsCode body hi]
    omega
  | .call callee arguments, base, code, h => by
    rw [statementCode] at h
    simp [Statement.sites, length_callCode h]

theorem length_statementsCode : ∀ (ss : List Statement) {base : Nat} {code : List Instruction},
    c.statementsCode base ss = .ok code → code.length = (Statement.sitesAll r d ss).length
  | [], base, code, h => by
    rw [statementsCode, Emission.pure_ok] at h
    rw [← h]
    rfl
  | s :: ss, base, code, h => by
    obtain ⟨first, hf, others, ho, rfl⟩ := statementsCode_cons.mp h
    simp [Statement.sitesAll, length_statementCode s hf, length_statementsCode ss ho]

end

theorem length_initializersCode {vs : Variables} (h : c.initializersCode base vs = .ok code) :
    code.length = (vs.sites r d).length := by
  induction vs generalizing base code with
  | nil =>
    rw [initializersCode, Emission.pure_ok] at h
    rw [← h]
    rfl
  | cons v vs ih =>
    obtain ⟨name, _ | e⟩ := v
    · rw [initializersCode_none] at h
      exact ih h
    · by_cases hz : isZero e = true
      · rw [initializersCode_zero hz] at h
        simpa [Variables.sites, hz] using ih h
      · obtain ⟨first, hf, others, ho, rfl⟩ := (initializersCode_some hz).mp h
        simp [Variables.sites, hz, length_assignmentCode (r := r) (d := d) hf, ih ho]

theorem length_actionCode {vs : Variables} {ss : List Statement}
    (h : c.actionCode base vs ss = .ok code) :
    code.length = (vs.sites r d ++ Statement.sitesAll r d ss).length := by
  obtain ⟨first, hf, others, ho, rfl⟩ := actionCode_ok.mp h
  simp [length_initializersCode (r := r) (d := d) hf, length_statementsCode (r := r) (d := d) ss ho]

end Lengths

theorem callSites_get {r : Region} {d n k : Nat} (hk : k ≤ n) :
    (callSites r d n)[k + 1]? = some ⟨r, d + k, some k, false⟩ := by
  simp [callSites, List.getElem?_range (show k < n + 1 by omega)]

/-! ## First sites -/

section Starts

variable {r : Region} {d : Nat}

theorem Expr.sites_cons : ∀ (e : Expr) {d : Nat}, ∃ rest,
    e.sites r d = ⟨r, d, none, false⟩ :: rest
  | .number _, _ | .var _, _ | .read, _ => ⟨[], rfl⟩
  | .unary _ e, d => by
    obtain ⟨rest, h⟩ := Expr.sites_cons e (d := d)
    exact ⟨_, by rw [Expr.sites, h, List.cons_append]⟩
  | .binary _ l e, d => by
    obtain ⟨rest, h⟩ := Expr.sites_cons l (d := d)
    exact ⟨_, by rw [Expr.sites, h, List.cons_append, List.cons_append]⟩
  | .call _ arguments, d => ⟨_, rfl⟩

theorem Expr.takenSites_cons (e : Expr) : ∃ rest,
    e.takenSites r d = ⟨r, d, none, true⟩ :: rest := by
  obtain ⟨rest, h⟩ := Expr.sites_cons e (r := r) (d := d)
  exact ⟨_, by rw [Expr.takenSites, h, List.cons_append, opening]⟩

theorem Statement.sites_cons (s : Statement) : ∃ rest,
    s.sites r d = ⟨r, d, none, true⟩ :: rest := by
  cases s with
  | echo e | assign name e => exact e.takenSites_cons
  | ifThen c body =>
    obtain ⟨rest, h⟩ := c.takenSites_cons (r := r) (d := d)
    exact ⟨_, by rw [Statement.sites, h, List.cons_append]⟩
  | ifElse c body otherwise =>
    obtain ⟨rest, h⟩ := c.takenSites_cons (r := r) (d := d)
    exact ⟨_, by rw [Statement.sites, h, List.cons_append, List.cons_append]⟩
  | loop c body =>
    obtain ⟨rest, h⟩ := c.takenSites_cons (r := r) (d := d)
    exact ⟨_, by rw [Statement.sites, h, List.cons_append, List.cons_append]⟩
  | call callee arguments => exact ⟨_, rfl⟩

/-- Sites, if there are any, begin at rest in a region at a depth. -/
def Starts (r : Region) (d : Nat) (ss : List Site) : Prop :=
  ss = [] ∨ ∃ o rest, ss = ⟨r, d, none, o⟩ :: rest

theorem Starts.append {ss ts : List Site} (h : Starts r d ss) (h' : Starts r d ts) :
    Starts r d (ss ++ ts) := by
  rcases h with rfl | ⟨o, rest, rfl⟩
  · exact h'
  · exact .inr ⟨o, _, List.cons_append⟩

theorem starts_statements (ss : List Statement) : Starts r d (Statement.sitesAll r d ss) := by
  cases ss with
  | nil => exact .inl rfl
  | cons s ss =>
    obtain ⟨rest, h⟩ := s.sites_cons (r := r) (d := d)
    exact .inr ⟨true, _, by rw [Statement.sitesAll, h, List.cons_append]⟩

theorem starts_variables (vs : Variables) : Starts r d (vs.sites r d) := by
  induction vs with
  | nil => exact .inl rfl
  | cons v vs ih =>
    obtain ⟨name, _ | e⟩ := v
    · exact ih
    · rw [Variables.sites]
      by_cases hz : Context.isZero e = true
      · simpa [hz] using ih
      · obtain ⟨rest, h⟩ := e.takenSites_cons (r := r) (d := d)
        exact .inr ⟨true, _, by rw [if_neg hz, h, List.cons_append]⟩

theorem starts_linked (qs : List Routine) : Starts .top d (linkedSites d qs) := by
  cases qs with
  | nil => exact .inl rfl
  | cons q qs => exact .inr ⟨false, _, rfl⟩

/-- A routine begins with its arguments on the stack. -/
theorem Routine.sites_cons (q : Routine) : ∃ o rest,
    q.sites = ⟨.function q.name, q.parameters.length, none, o⟩ :: rest := by
  simp only [Routine.sites]
  rcases hl : q.vars.length with _ | n
  · have hs : q.slots = q.parameters.length := by simp [Routine.slots, hl]
    rw [hs]
    have hstart := ((starts_variables q.vars).append (starts_statements q.statements)
      (r := .function q.name) (d := q.parameters.length))
    rcases hstart with h | ⟨o, rest, h⟩
    · rw [h]
      by_cases hp : q.parameters.length = 0
      · exact ⟨false, [], by simp [allocationSites, hp]⟩
      · exact ⟨false, _, by simp [allocationSites, hp]; rfl⟩
    · rw [h]
      exact ⟨o, _, by simp [allocationSites]; rfl⟩
  · have first : ∃ rest, allocationSites (.function q.name) q.parameters.length (n + 1)
        = ⟨.function q.name, q.parameters.length, none, false⟩ :: rest :=
      ⟨_, by rw [allocationSites, List.range_succ_eq_map, List.map_cons]; rfl⟩
    obtain ⟨rest, h⟩ := first
    exact ⟨false, _, by rw [h, List.cons_append, List.cons_append]⟩

end Starts

/-! ## Regions and openings -/

/-- A site of the region `r`, which has `d` values on the stack wherever an
initializer or a statement begins. -/
def Site.Belongs (r : Region) (d : Nat) (s : Site) : Prop :=
  s.region = r ∧ (s.opens = true → s.depth = d ∧ s.passed = none)

section Belongs

variable {r : Region} {d : Nat}

theorem belongs_callSites {n k : Nat} : ∀ s ∈ callSites r k n, s.Belongs r d := by
  intro s hs
  rcases List.mem_cons.mp hs with rfl | hs
  · exact ⟨rfl, by simp⟩
  · obtain ⟨j, _, rfl⟩ := List.mem_map.mp hs
    exact ⟨rfl, by simp⟩

theorem belongs_plain {k : Nat} : Site.Belongs r d ⟨r, k, none, false⟩ := ⟨rfl, by simp⟩

theorem Expr.belongs : ∀ (e : Expr) {k : Nat}, ∀ s ∈ e.sites r k, s.Belongs r d
  | .number _, k, s, hs | .var _, k, s, hs | .read, k, s, hs => by
    obtain rfl := List.mem_singleton.mp hs
    exact belongs_plain
  | .unary _ e, k, s, hs => by
    rcases List.mem_append.mp hs with hs | hs
    · exact Expr.belongs e s hs
    · obtain rfl := List.mem_singleton.mp hs
      exact belongs_plain
  | .binary _ l e, k, s, hs => by
    rw [Expr.sites, List.mem_append, List.mem_append] at hs
    rcases hs with (hs | hs) | hs
    · exact Expr.belongs l s hs
    · exact Expr.belongs e s hs
    · obtain rfl := List.mem_singleton.mp hs
      exact belongs_plain
  | .call _ arguments, k, s, hs => by
    rcases List.mem_append.mp hs with hs | hs
    · exact belongs_callSites s hs
    · obtain rfl := List.mem_singleton.mp hs
      exact belongs_plain

/-- Only the first of these sites is marked. -/
theorem belongs_opening {ss : List Site} {o : Bool} (h : ∀ s ∈ ss, s.Belongs r d)
    (first : ∃ rest, ss = ⟨r, d, none, o⟩ :: rest) : ∀ s ∈ opening ss, s.Belongs r d := by
  obtain ⟨rest, rfl⟩ := first
  intro s hs
  rcases List.mem_cons.mp hs with rfl | hs
  · exact ⟨rfl, fun _ => ⟨rfl, rfl⟩⟩
  · exact h s (List.mem_cons_of_mem _ hs)

theorem Expr.taken_belongs (e : Expr) : ∀ s ∈ e.takenSites r d, s.Belongs r d := by
  obtain ⟨rest, hfirst⟩ := e.sites_cons (r := r) (d := d)
  refine belongs_opening ?_ ⟨_, by rw [hfirst, List.cons_append]⟩
  intro s hs
  rcases List.mem_append.mp hs with hs | hs
  · exact e.belongs s hs
  · obtain rfl := List.mem_singleton.mp hs
    exact belongs_plain

mutual

theorem Statement.belongs : ∀ (t : Statement), ∀ s ∈ t.sites r d, s.Belongs r d
  | .echo e, s, hs | .assign _ e, s, hs => e.taken_belongs s hs
  | .ifThen c body, s, hs => by
    rcases List.mem_append.mp hs with hs | hs
    · exact c.taken_belongs s hs
    · exact Statement.belongsAll body s hs
  | .ifElse c body otherwise, s, hs => by
    rw [Statement.sites, List.mem_append, List.mem_append, List.mem_cons] at hs
    rcases hs with (hs | hs) | rfl | hs
    · exact c.taken_belongs s hs
    · exact Statement.belongsAll body s hs
    · exact belongs_plain
    · exact Statement.belongsAll otherwise s hs
  | .loop c body, s, hs => by
    rw [Statement.sites, List.mem_append, List.mem_append, List.mem_singleton] at hs
    rcases hs with (hs | hs) | rfl
    · exact c.taken_belongs s hs
    · exact Statement.belongsAll body s hs
    · exact belongs_plain
  | .call _ arguments, s, hs => belongs_opening belongs_callSites ⟨_, rfl⟩ s hs

theorem Statement.belongsAll : ∀ (ts : List Statement), ∀ s ∈ Statement.sitesAll r d ts,
    s.Belongs r d
  | [], s, hs => by simp [Statement.sitesAll] at hs
  | t :: ts, s, hs => by
    rcases List.mem_append.mp hs with hs | hs
    · exact Statement.belongs t s hs
    · exact Statement.belongsAll ts s hs

end

theorem Variables.belongs (vs : Variables) : ∀ s ∈ vs.sites r d, s.Belongs r d := by
  induction vs with
  | nil => simp [Variables.sites]
  | cons v vs ih =>
    obtain ⟨name, _ | e⟩ := v
    · exact ih
    · intro s hs
      rcases List.mem_append.mp hs with hs | hs
      · by_cases hz : Context.isZero e = true
        · simp [hz] at hs
        · rw [if_neg hz] at hs
          exact e.taken_belongs s hs
      · exact ih s hs

theorem belongs_allocations {n k : Nat} : ∀ s ∈ allocationSites r k n, s.Belongs r d := by
  intro s hs
  obtain ⟨j, _, rfl⟩ := List.mem_map.mp hs
  exact belongs_plain

theorem Routine.belongs (q : Routine) :
    ∀ s ∈ q.sites, s.Belongs (.function q.name) q.slots := by
  intro s hs
  simp only [Routine.sites, List.mem_append, List.mem_singleton] at hs
  rcases hs with (hs | hs | hs) | hs | rfl
  · exact belongs_allocations s hs
  · exact Variables.belongs q.vars s hs
  · exact Statement.belongsAll q.statements s hs
  · split at hs
    · simp at hs
    · obtain rfl := List.mem_singleton.mp hs
      exact belongs_plain
  · exact belongs_plain

end Belongs

section Images

variable {p : Program} {b : Bytecode}

theorem length_piece (im : Image p b) {q : Piece} (hq : q ∈ im.pieces) :
    q.code.length = q.routine.sites.length := by
  have hlen := length_actionCode (r := .function q.routine.name) (d := q.routine.slots)
    (im.laid.emitted hq)
  simp only [Piece.code, Routine.sites, Plan.epilogue, List.length_append, hlen,
    Image.length_allocations, length_allocationSites]
  split <;> rfl

theorem length_linkedSites (im : Image p b) {qs : List Piece} (h : ∀ q ∈ qs, q ∈ im.pieces)
    (d : Nat) :
    (linkedSites d (qs.map Piece.routine)).length = Generator.sizeOf (qs.map Piece.block) := by
  induction qs with
  | nil => rfl
  | cons q qs ih =>
    have hq := length_piece im (h q List.mem_cons_self)
    have hqs := ih fun q' hq' => h q' (List.mem_cons_of_mem q hq')
    rw [List.map_cons, List.map_cons, Plan.sizeOf_cons, ← hqs]
    simp only [linkedSites, Piece.block, List.flatMap_cons, List.length_append, List.length_cons]
    omega

theorem length_routineSites (im : Image p b) (d : Nat) :
    (linkedSites d p.routines).length = Generator.sizeOf (im.pieces.map Piece.block) := by
  rw [im.routines_eq]
  exact length_linkedSites im (fun _ hq => hq) d

/-- The code of the whole program at its places. -/
theorem image_holds (im : Image p b) : b.instructions[0]? = some (Instruction.bare .start) ∧
    b.Holds 1 (allocations p.vars) ∧
    b.Holds (1 + p.vars.length) (linked im.start (im.pieces.map Piece.block)) ∧
    b.Holds im.start im.actions ∧
    b.instructions[im.start + im.actions.length]? = some (Instruction.bare .halt) := by
  have whole := im.holds_whole
  rw [List.cons_append, Bytecode.holds_cons, Bytecode.holds_append, Bytecode.holds_append,
    Bytecode.holds_append] at whole
  obtain ⟨first, ⟨⟨allocs, functions⟩, actions⟩, last⟩ := whole
  simp only [List.length_append, Image.length_allocations, Image.length_linked]
    at functions actions last
  have hstart :
      im.start = 0 + 1 + (p.vars.length + Generator.sizeOf (im.pieces.map Piece.block)) := by
    rw [im.start_eq]
    omega
  refine ⟨first, allocs, by simpa using functions, by rw [hstart]; exact actions, ?_⟩
  rw [hstart, Nat.add_assoc (0 + 1)]
  exact last.fetch

/-- The sites of the whole program at the same places. -/
theorem image_stands (im : Image p b) : p.sites[0]? = some ⟨.top, 0, none, false⟩ ∧
    Stands p.sites 1 (allocationSites .top 0 p.globals) ∧
    Stands p.sites (1 + p.vars.length) (linkedSites p.globals p.routines) ∧
    Stands p.sites im.start
      (p.vars.sites .top p.globals ++ Statement.sitesAll .top p.globals p.statements) ∧
    p.sites[im.start + im.actions.length]? = some ⟨.top, p.globals, none, false⟩ := by
  have whole : Stands p.sites 0 (⟨.top, 0, none, false⟩ :: (allocationSites .top 0 p.globals
      ++ linkedSites p.globals p.routines
      ++ (p.vars.sites .top p.globals ++ Statement.sitesAll .top p.globals p.statements))
      ++ [⟨.top, p.globals, none, false⟩]) := stands_all
  have hlinked := length_routineSites im p.globals
  have hactions := length_actionCode (r := .top) (d := p.globals) im.emitted
  rw [List.cons_append, stands_cons, stands_append, stands_append, stands_append] at whole
  obtain ⟨first, ⟨⟨allocs, functions⟩, actions⟩, last⟩ := whole
  rw [List.length_append, length_allocationSites, hlinked] at actions
  rw [List.length_append, List.length_append, length_allocationSites, hlinked, ← hactions] at last
  rw [length_allocationSites] at functions
  have hstart :
      im.start = 0 + 1 + (p.vars.length + Generator.sizeOf (im.pieces.map Piece.block)) := by
    rw [im.start_eq]
    omega
  refine ⟨first, allocs, by simpa [Program.globals] using functions,
    by rw [hstart]; exact actions, ?_⟩
  rw [hstart, Nat.add_assoc (0 + 1)]
  exact last.head

theorem length_sites (im : Image p b) : p.sites.length = b.size := by
  have hlinked := length_routineSites im p.globals
  have hactions := length_actionCode (r := .top) (d := p.globals) im.emitted
  rw [im.size_eq, im.start_eq, hactions]
  simp only [Program.sites, List.length_cons, List.length_append, List.length_nil, hlinked,
    length_allocationSites]
  unfold Program.globals
  omega

end Images

end FlatStack
