import FlatStack.Proofs.Actions
import FlatStack.Proofs.Layout

/-!
# Addresses counted up

The scope check and the generator count addresses on their own, and both count
up from zero without a gap: the variables of the top level in one table, the
parameters and then the variables of a function in another. So the tables of an
accepted program can be written down, and a function allocates and drops as many
slots as its table has addresses.
-/

set_option autoImplicit false

namespace FlatStack

open Declaration (vars routines)

/-! ## Tables written down -/

/-- A symbol to which no generator has added anything. -/
def Symbol.ofMeaning (m : String × Meaning) : Symbol := { name := m.1, meaning := m.2 }

/-- The symbols at top level after some declarations, the first variable of which has the
address `n`. -/
def globalSymbols : Nat → List Declaration → List Symbol
  | _, [] => []
  | n, .variable x _ :: ds => .ofMeaning (x, .variable globalScope n) :: globalSymbols (n + 1) ds
  | n, .function f ps inner _ :: ds =>
    { name := f, meaning := .function ps, slotCount := ps.length + (vars inner).length }
      :: globalSymbols n ds

def Routine.table (r : Routine) : Table := ⟨r.name, r.frame.map .ofMeaning, r.slots⟩

def Program.tables (p : Program) : Analysis where
  globals := ⟨globalScope, globalSymbols 0 p.declarations, p.vars.length⟩
  functions := p.routines.map Routine.table

theorem globalSymbols_append (n : Nat) (ds es : List Declaration) :
    globalSymbols n (ds ++ es) = globalSymbols n ds ++ globalSymbols (n + (vars ds).length) es := by
  induction ds generalizing n with
  | nil => rfl
  | cons d ds ih => cases d <;> simp [globalSymbols, vars, ih, Nat.add_assoc, Nat.add_comm 1]

namespace Table

/-- No symbol has anything besides its meaning. -/
def Untouched (t : Table) : Prop := t.symbols = t.meanings.map .ofMeaning

variable {t : Table} {s : Symbol} {x name : String} {ms : List (String × Meaning)} {next : Nat}

theorem register_fresh (fresh : t.has s.name = false) :
    t.register s = { t with symbols := t.symbols ++ [s] } := by
  simp [register, register?, fresh]

theorem untouched_empty : (empty name).Untouched := rfl

theorem Untouched.allocate (h : t.Untouched) : t.allocate.2.Untouched := h

theorem Untouched.reserveThrough (h : t.Untouched) (a : Nat) : (t.reserveThrough a).Untouched := h

theorem Untouched.register (h : t.Untouched) (m : String × Meaning) :
    (t.register (.ofMeaning m)).Untouched := by
  cases taken : t.has m.1 with
  | true => simpa [Table.register, register?, Symbol.ofMeaning, taken] using h
  | false =>
    rw [register_fresh (s := .ofMeaning m) taken]
    unfold Untouched meanings at h ⊢
    simp only [List.map_append, ← h]
    rfl

theorem Untouched.materialize (h : t.Untouched) (fixed : Option Table) :
    (t.materialize fixed x).Untouched := by
  unfold Table.materialize
  split
  · exact h
  · split
    · exact (h.reserveThrough _).register (x, _)
    · exact h.allocate.register (x, _)

theorem Untouched.allocateParameter (h : t.Untouched) : (t.allocateParameter x).Untouched :=
  h.allocate.register (x, _)

/-- A table is known by what describes it. -/
theorem Untouched.eq (h : t.Untouched) (described : t.Describes name ms next) :
    t = ⟨name, ms.map .ofMeaning, next⟩ := by
  obtain ⟨rfl, rfl, rfl, -⟩ := described
  cases t
  exact congrArg (Table.mk _ · _) h

end Table

/-! ## Tables of the scope check -/

namespace Scope

variable {s : Scope} {t : Table}

theorem declareVariable_untouched (h : s.table.Untouched) (x : String) (e : Option Expr) :
    (declareVariable s x e).1.table.Untouched := by
  unfold declareVariable
  split
  · exact h
  · exact h.allocate.register (x, _)

theorem declareParameters_untouched (h : t.Untouched) (qs : List String) :
    (declareParameters t qs).1.Untouched := by
  induction qs generalizing t with
  | nil => exact h
  | cons q qs ih =>
    by_cases taken : t.has q = true
    · rw [declareParameters_taken qs taken]
      exact ih h.allocate
    · rw [declareParameters_fresh qs (by simpa using taken)]
      exact ih (h.allocate.register (q, _))

theorem declareLocals_untouched (h : s.table.Untouched) (ds : List Declaration) :
    (declareAll declareLocal s ds).1.table.Untouched := by
  induction ds generalizing s with
  | nil => exact h
  | cons d ds ih =>
    cases d with
    | «variable» x e => exact ih (declareVariable_untouched h x e)
    | function f ps inner ss => exact ih h

theorem functionTable_untouched (globals : Table) (f : String) (ps : List String)
    (ds : List Declaration) (ss : List Statement) :
    (functionTable globals f ps ds ss).1.Untouched :=
  declareLocals_untouched (declareParameters_untouched Table.untouched_empty ps) ds

/-- Among symbols with other names, a slot count goes to the one that was added last. -/
theorem setSlotCount_register {f : String} {m : Meaning} {n : Nat} (fresh : t.has f = false) :
    (t.register ⟨f, m, 0, none⟩).setSlotCount f n
      = { t with symbols := t.symbols ++ [⟨f, m, n, none⟩] } := by
  have others : ∀ s ∈ t.symbols, (s.name == f) = false := by
    simpa [Table.has, Table.find?] using fresh
  have kept : t.symbols.map (fun s => if s.name == f then { s with slotCount := n } else s)
      = t.symbols := by
    rw [List.map_congr_left fun s hs => if_neg (by simp [others s hs]), List.map_id']
  rw [Table.register_fresh fresh, Table.setSlotCount, Table.modify, List.map_append, kept]
  simp

/-- What a further variable adds to the tables. -/
theorem declareGlobal_variable_eq {a : Analysis} {x : String} {e : Option Expr}
    (clean : (declareGlobal a (.variable x e)).2 = []) :
    (declareGlobal a (.variable x e)).1 = { a with
      globals := ⟨a.globals.name, a.globals.symbols
        ++ [.ofMeaning (x, .variable a.globals.name a.globals.nextAddress)],
          a.globals.nextAddress + 1⟩ } := by
  by_cases taken : a.globals.has x = true
  · simp [declareGlobal, declareVariable, ofTable, taken] at clean
  · have fresh : a.globals.allocate.2.has x = false := by
      simpa [Table.allocate_has] using taken
    simp only [declareGlobal, declareVariable, ofTable, taken, Bool.false_eq_true, if_false]
    exact congrArg (Analysis.mk · _) (Table.register_fresh fresh)

/-- What a further function adds to the tables. -/
theorem declareGlobal_function_eq {a : Analysis} {f : String} {ps : List String}
    {inner : List Declaration} {ss : List Statement}
    (clean : (declareGlobal a (.function f ps inner ss)).2 = []) :
    (declareGlobal a (.function f ps inner ss)).1 =
      ⟨{ a.globals with
          symbols := a.globals.symbols
            ++ [⟨f, .function ps, ps.length + (vars inner).length, none⟩] },
        a.functions ++ [Routine.table ⟨f, ps, vars inner, ss⟩]⟩ := by
  by_cases taken : a.globals.has f = true
  · simp [declareGlobal, declareFunction, taken] at clean
  · simp only [declareGlobal, declareFunction, taken, Bool.false_eq_true, if_false] at clean ⊢
    have described := (functionTable_clean clean).1
    have table := (functionTable_untouched _ f ps inner ss).eq described
    rw [described.next, setSlotCount_register (by simpa using taken), table]
    rfl

/-- The tables after declarations without errors. -/
theorem known_tables {ds : List Declaration} (clean : Clean ds) :
    known ds = ⟨⟨globalScope, globalSymbols 0 ds, (vars ds).length⟩,
      (routines ds).map Routine.table⟩ := by
  induction ds using List.reverseRecOn with
  | nil => rfl
  | append_singleton ds d ih =>
    have before := ih (clean_append clean)
    have errors := clean_snoc clean
    rw [known_snoc, globalSymbols_append, Declaration.vars_append, Declaration.routines_append,
      Nat.zero_add, List.length_append, List.map_append]
    rw [before] at errors ⊢
    cases d with
    | «variable» x e =>
      rw [declareGlobal_variable_eq errors]
      simp [globalSymbols, vars, routines]
    | function f ps inner ss =>
      rw [declareGlobal_function_eq errors]
      simp [globalSymbols, vars, routines]

end Scope

/-- The analysis of an accepted program. -/
theorem analyze_tables {p : Program} {a : Analysis} (h : p.analyze = .ok a) : a = p.tables := by
  obtain ⟨clean, -, rfl⟩ := analyze_eq_ok_iff.mp h
  exact Scope.known_tables clean

/-! ## Tables of the generator -/

namespace Generator

theorem functionScope_untouched (plan : Plan) (around : Scope) (f : String) (ps : List String)
    (vs : Variables) : (plan.functionScope around f ps vs).table.Untouched := by
  have parameters : (ps.foldl Table.allocateParameter (Table.empty f)).Untouched := by
    refine List.foldlRecOn ps _ Table.untouched_empty fun t ht q _ => ?_
    exact ht.allocateParameter
  exact List.foldlRecOn (vs.map (·.1)) _ parameters fun t ht x _ => ht.materialize _

end Generator

/-- The generator makes the table of a function again. -/
theorem Accepted.scopeOf_table {p : Program} {a : Analysis} (h : Accepted p a) {r : Routine}
    (hr : r ∈ p.routines) (globals : Nat) : (scopeOf a globals r).table = r.table := by
  have described : (scopeOf a globals r).table.Describes r.name r.frame
      (r.parameters.length + r.vars.names.length) :=
    functionScope_describes (h.routine_names hr) fun _ hs => h.settled hr hs
  have table := (Generator.functionScope_untouched _ _ _ _ _).eq described
  rwa [Variables.length_names] at table

/-! ## Lookups -/

theorem Table.find?_of_mem {t : Table} (distinct : (t.symbols.map Symbol.name).Nodup) {s : Symbol}
    (hs : s ∈ t.symbols) : t.find? s.name = some s :=
  find?_named Symbol.name distinct hs

theorem variable_mem_globalSymbols {ds : List Declaration} {n i : Nat} {x : String}
    (h : (vars ds).names[i]? = some x) :
    .ofMeaning (x, .variable globalScope (n + i)) ∈ globalSymbols n ds := by
  induction ds generalizing n i with
  | nil => simp [vars] at h
  | cons d ds ih =>
    cases d with
    | function f ps inner ss => exact List.mem_cons_of_mem _ (ih h)
    | «variable» y e =>
      cases i with
      | zero =>
        obtain rfl : y = x := by simpa [vars] using h
        exact List.mem_cons_self
      | succ i =>
        have rest := ih (n := n + 1) (i := i) (by simpa [vars] using h)
        rw [Nat.add_right_comm, Nat.add_assoc] at rest
        exact List.mem_cons_of_mem _ rest

theorem function_mem_globalSymbols {ds : List Declaration} {n : Nat} {r : Routine}
    (h : r ∈ routines ds) :
    ⟨r.name, .function r.parameters, r.slots, none⟩ ∈ globalSymbols n ds := by
  induction ds generalizing n with
  | nil => simp [routines] at h
  | cons d ds ih =>
    cases d with
    | «variable» y e => exact List.mem_cons_of_mem _ (ih h)
    | function f ps inner ss =>
      rcases List.mem_cons.mp h with rfl | h
      · exact List.mem_cons_self
      · exact List.mem_cons_of_mem _ (ih h)

/-- The addresses in a table of a function: first its parameters, then its variables. -/
structure Table.Dense (t : Table) (r : Routine) : Prop where
  name : t.name = r.name
  names : t.symbols.map Symbol.name = r.names
  parameters : ∀ i x, r.parameters[i]? = some x →
    t.find? x = some { name := x, meaning := .parameter r.name i }
  locals : ∀ i x, r.vars.names[i]? = some x →
    t.find? x = some { name := x, meaning := .variable r.name (r.parameters.length + i) }
  next : t.nextAddress = r.slots

theorem Routine.table_dense {r : Routine} (distinct : r.names.Nodup) : r.table.Dense r := by
  have names : r.table.symbols.map Symbol.name = r.names := by
    rw [Routine.table, List.map_map]
    exact frame_names r.name r.parameters r.vars.names
  have found : ∀ x m, (x, m) ∈ r.frame → r.table.find? x = some (.ofMeaning (x, m)) := by
    intro x m hm
    exact Table.find?_of_mem (s := .ofMeaning (x, m)) (names ▸ distinct) (List.mem_map_of_mem hm)
  refine ⟨rfl, names, fun i x hx => found x _ ?_, fun i x hx => found x _ ?_, rfl⟩
  · refine List.mem_append_left _ (List.mem_of_getElem? (i := i) ?_)
    rw [getElem?_numbered, hx, Option.map_some, Nat.zero_add]
  · refine List.mem_append_right _ (List.mem_of_getElem? (i := i) ?_)
    rw [getElem?_numbered, hx, Option.map_some]

/-- How the scope check hands out the addresses of a program. -/
structure DenselyAddressed (p : Program) (a : Analysis) : Prop where
  globals : ∀ i x, p.vars.names[i]? = some x →
    a.globals.find? x = some { name := x, meaning := .variable globalScope i }
  next : a.globals.nextAddress = p.vars.length
  functions : ∀ r ∈ p.routines, ∃ t, a.function? r.name = some t ∧ t.Dense r
  slots : ∀ r ∈ p.routines,
    a.globals.find? r.name = some ⟨r.name, .function r.parameters, r.slots, none⟩

/-- How a generator keeps to these addresses in the code of `r`, the entries of functions being
`entries` afterwards. -/
structure KeepsAddresses (p : Program) (a : Analysis) (b : Bytecode) (entries : Entries)
    (r : Routine) : Prop where
  /-- The table that the code is generated from is the one of the scope check. -/
  table : a.function? r.name = some (scopeOf a p.vars.length r).table
  /-- One slot is made for each variable, and all slots are dropped before the return. -/
  code : ∃ entry known actions, entries.find? r.name = some entry ∧
    Context.actionCode ⟨scopeOf a p.vars.length r, p.vars.length, known⟩ (entry + r.vars.length)
      r.vars r.statements = .ok actions ∧
    (∀ i ∈ actions, i.opcode ≠ .alloc ∧ i.opcode ≠ .dealloc ∧ i.opcode ≠ .return_) ∧
    b.Holds entry (List.replicate r.vars.length (.withNat .alloc 1) ++ actions
      ++ (if r.slots = 0 then [] else [.withNat .dealloc r.slots]) ++ [.bare .return_])

section Accepted

variable {p : Program} {a : Analysis}

theorem Accepted.function?_eq (h : Accepted p a) (tables : a = p.tables) {r : Routine}
    (hr : r ∈ p.routines) : a.function? r.name = some r.table := by
  rw [tables, Analysis.function?, Program.tables, List.find?_map]
  exact congrArg (Option.map Routine.table) (find?_named Routine.name h.routines_nodup hr)

theorem Accepted.globals_nodup (h : Accepted p a) :
    (a.globals.symbols.map Symbol.name).Nodup := by
  have distinct := h.known.globals.distinct
  rw [← h.known.globals.meanings, Table.meanings, List.map_map] at distinct
  exact distinct

theorem Accepted.denselyAddressed (h : Accepted p a) (tables : a = p.tables) :
    DenselyAddressed p a := by
  have names := h.globals_nodup
  have symbols : a.globals.symbols = globalSymbols 0 p.declarations := by rw [tables]; rfl
  refine ⟨fun i x hx => ?_, h.known.globals.next, fun r hr => ?_, fun r hr => ?_⟩
  · have member := variable_mem_globalSymbols (n := 0) hx
    rw [← symbols, Nat.zero_add] at member
    exact Table.find?_of_mem names member
  · exact ⟨r.table, h.function?_eq tables hr, Routine.table_dense (h.routine_names hr)⟩
  · have member := function_mem_globalSymbols (n := 0) hr
    rw [← symbols] at member
    exact Table.find?_of_mem names member

theorem addresses_dense (h : p.analyze = .ok a) :
    DenselyAddressed p a ∧
      ∀ b g, (Generator.ofAnalysis a).generate p = (.ok b, g) →
        ∀ r ∈ p.routines, KeepsAddresses p a b g.entries r := by
  have accepted := Accepted.of_analyze h
  have tables := analyze_tables h
  refine ⟨accepted.denselyAddressed tables, fun b g generated r hr => ⟨?_, ?_⟩⟩
  · rw [accepted.scopeOf_table hr, accepted.function?_eq tables hr]
  · obtain ⟨im, entries, rfl, -⟩ := Image.of_generate h generated
    rw [im.routines_eq] at hr
    obtain ⟨q, hq, rfl⟩ := List.mem_map.mp hr
    have found := im.laid.find?_entry im.accepted.routines_nodup hq
    have emitted := im.laid.emitted hq
    have acts : ∀ i ∈ q.actions, i.Acts := by
      have all := Context.actionCode_acts (q.context im.analysis p.vars.length)
        (q.entry + q.routine.vars.length) q.routine.vars q.routine.statements
      rwa [emitted] at all
    refine ⟨q.entry, q.entries, q.actions, entries ▸ found, emitted, fun i hi => ?_, ?_⟩
    · have kind := (acts i hi).opcode
      simp only [List.mem_cons, List.not_mem_nil, or_false, not_or] at kind
      exact ⟨kind.2.2.1, kind.2.2.2.1, kind.2.2.2.2⟩
    · have holds := Image.piece_holds hq
      have allocated : Generator.allocations q.routine.vars
          = List.replicate q.routine.vars.length (Instruction.withNat .alloc 1) := List.map_const'
      rwa [Generator.Piece.code, allocated, Generator.Plan.epilogue, ← List.append_assoc] at holds

end Accepted

/-- Two variables around a function with parameters and a variable of its own, and a function
without any slot. -/
def difference : Program :=
  ⟨[.variable "a" (some (.number 7)),
    .function "show" ["x", "y"] [.variable "d" none]
      [.assign "d" (.binary .sub (.var "x") (.var "y")), .echo (.var "d")],
    .variable "b" (some (.number 2)), .function "idle" [] [] []],
    [.call "show" [.var "a", .var "b"], .call "idle" []]⟩

theorem addresses_dense_difference : ∃ a b g, difference.analyze = .ok a ∧
    (Generator.ofAnalysis a).generate difference = (.ok b, g) ∧ DenselyAddressed difference a ∧
      ∀ r ∈ difference.routines, KeepsAddresses difference a b g.entries r := by
  obtain ⟨a, analyzed, generated⟩ : Compiled difference (difference.code?.getD .empty) :=
    compiled_iff.mpr (by decide +kernel)
  have whole : (Generator.ofAnalysis a).generate difference = (.ok (difference.code?.getD .empty),
      ((Generator.ofAnalysis a).generate difference).2) := Prod.ext generated rfl
  obtain ⟨dense, keeps⟩ := addresses_dense analyzed
  exact ⟨a, _, _, analyzed, whole, dense, keeps _ _ whole⟩

end FlatStack
