import FlatStack.Proofs.Tables

/-!
# What the scope check accepts

Without errors, every declaration was checked against the tables of the
declarations before it. So each call fits a function that is declared by
then, a function assigns only its own variables and those of the top level
declared before it, and no name is declared twice in a scope.
-/

set_option autoImplicit false

namespace FlatStack

open Declaration (vars routines Declares)

namespace Scope

/-! ## Uses -/

def Callable (s : Scope) (u : Use) : Prop :=
  ∃ ps, s.meaning? u.1 = some (.function ps) ∧ ps.length = u.2

/-- A name stands for a variable or a parameter. -/
def Denotes (s : Scope) (x : String) : Prop :=
  ∃ m, s.meaning? x = some m ∧ m.isFunction = false

variable {s : Scope}

theorem callable_of_clean {callee : String} {n : Nat} {inner : List ScopeError}
    (h : s.callErrors callee n inner = []) : s.Callable (callee, n) := by
  unfold callErrors at h
  split at h
  · simp at h
  · rename_i symbol found
    split at h
    · rename_i ps hm
      have fits : ps.length = n := by
        by_contra hne
        simp [hne] at h
      exact ⟨ps, by simp [meaning?, found, hm], fits⟩
    · simp at h

theorem denotes_of_clean {x : String} (h : s.variableErrors x = []) : s.Denotes x := by
  unfold variableErrors at h
  split at h
  · simp at h
  · rename_i symbol found
    by_cases hf : symbol.meaning.isFunction = true
    · simp [hf] at h
    · exact ⟨symbol.meaning, by simp [meaning?, found], by simpa using hf⟩

theorem callable_of_exprErrors : ∀ e : Expr, s.exprErrors e = [] → ∀ u ∈ e.calls, s.Callable u
  | .number _, _, _, hu | .var _, _, _, hu | .read, _, _, hu => by simp [Expr.calls] at hu
  | .unary _ e, h, u, hu => by
    rw [exprErrors] at h
    exact callable_of_exprErrors e h u hu
  | .binary _ l r, h, u, hu => by
    rw [exprErrors, List.append_eq_nil_iff] at h
    rcases List.mem_append.mp hu with hu | hu
    · exact callable_of_exprErrors l h.1 u hu
    · exact callable_of_exprErrors r h.2 u hu
  | .call callee arguments, h, u, hu => by
    rw [exprErrors] at h
    obtain rfl := List.mem_singleton.mp hu
    exact callable_of_clean h

mutual

theorem callable_of_statementErrors : ∀ t : Statement, s.statementErrors t = [] →
    (∀ u ∈ t.calls, s.Callable u) ∧ ∀ x ∈ t.assigned, s.Denotes x
  | .echo e, h => by
    rw [statementErrors] at h
    exact ⟨callable_of_exprErrors e h, by simp [Statement.assigned]⟩
  | .assign name e, h => by
    rw [statementErrors, List.append_eq_nil_iff] at h
    refine ⟨callable_of_exprErrors e h.2, ?_⟩
    intro x hx
    obtain rfl := List.mem_singleton.mp hx
    exact denotes_of_clean h.1
  | .ifThen c body, h | .loop c body, h => by
    rw [statementErrors, List.append_eq_nil_iff] at h
    have hb := callable_of_statementsErrors body h.2
    refine ⟨?_, hb.2⟩
    intro u hu
    rcases List.mem_append.mp hu with hu | hu
    · exact callable_of_exprErrors c h.1 u hu
    · exact hb.1 u hu
  | .ifElse c body otherwise, h => by
    rw [statementErrors, List.append_eq_nil_iff, List.append_eq_nil_iff] at h
    have hb := callable_of_statementsErrors body h.1.2
    have ho := callable_of_statementsErrors otherwise h.2
    constructor
    · intro u hu
      rw [Statement.calls, List.mem_append, List.mem_append] at hu
      rcases hu with (hu | hu) | hu
      · exact callable_of_exprErrors c h.1.1 u hu
      · exact hb.1 u hu
      · exact ho.1 u hu
    · intro x hx
      rcases List.mem_append.mp hx with hx | hx
      · exact hb.2 x hx
      · exact ho.2 x hx
  | .call callee arguments, h => by
    rw [statementErrors] at h
    refine ⟨?_, by simp [Statement.assigned]⟩
    intro u hu
    obtain rfl := List.mem_singleton.mp hu
    exact callable_of_clean h

theorem callable_of_statementsErrors : ∀ ts : List Statement, s.statementsErrors ts = [] →
    (∀ u ∈ Statement.callsAll ts, s.Callable u) ∧ ∀ x ∈ Statement.assignedAll ts, s.Denotes x
  | [], _ => by simp [Statement.callsAll, Statement.assignedAll]
  | t :: ts, h => by
    rw [statementsErrors, List.append_eq_nil_iff] at h
    have ht := callable_of_statementErrors t h.1
    have hts := callable_of_statementsErrors ts h.2
    constructor
    · intro u hu
      rcases List.mem_append.mp hu with hu | hu
      · exact ht.1 u hu
      · exact hts.1 u hu
    · intro x hx
      rcases List.mem_append.mp hx with hx | hx
      · exact ht.2 x hx
      · exact hts.2 x hx

end

/-! ## Declarations one by one -/

section DeclareAll

variable {κ : Type} {declare : κ → Declaration → κ × List ScopeError}

theorem declareAll_append (k : κ) (ds es : List Declaration) :
    declareAll declare k (ds ++ es) =
      ((declareAll declare (declareAll declare k ds).1 es).1,
        (declareAll declare k ds).2 ++ (declareAll declare (declareAll declare k ds).1 es).2) := by
  induction ds generalizing k with
  | nil => rfl
  | cons d ds ih => simp [declareAll, ih]

theorem declareAll_one (k : κ) (d : Declaration) : declareAll declare k [d] = declare k d := by
  simp [declareAll]

end DeclareAll

theorem declareVariable_fresh {x name : String} {e : Option Expr} {ms : List (String × Meaning)}
    {n : Nat} (ht : s.table.Describes name ms n) (fresh : x ∉ ms.map (·.1)) :
    (declareVariable s x e).1.table.Describes name (ms ++ [(x, .variable name n)]) (n + 1) ∧
      (declareVariable s x e).1.outer = s.outer ∧
        (declareVariable s x e).2 = (e.map (declareVariable s x e).1.exprErrors).getD [] := by
  have free : s.table.has x = false := by
    rw [← Bool.not_eq_true, Table.has_iff, ht.meanings]
    exact fresh
  have ha : s.table.allocate.1 = n := ht.next
  have hn : s.table.allocate.2.name = name := ht.name
  have hr := ht.allocate.register (s := ⟨x, .variable name n, 0, none⟩)
    (by rw [Table.allocate_has]; exact free)
  simp only [declareVariable, free, Bool.false_eq_true, if_false, ha, hn]
  exact ⟨hr, trivial, trivial⟩

theorem declareVariable_clean {x : String} {e : Option Expr} {name : String}
    {ms : List (String × Meaning)} {n : Nat} (ht : s.table.Describes name ms n)
    (h : (declareVariable s x e).2 = []) :
    (declareVariable s x e).1.table.Describes name (ms ++ [(x, .variable name n)]) (n + 1) ∧
      (declareVariable s x e).1.outer = s.outer ∧
        ∀ i, e = some i → ∀ u ∈ i.calls, (declareVariable s x e).1.Callable u := by
  have fresh : x ∉ ms.map (·.1) := by
    intro taken
    rw [← ht.meanings, ← Table.has_iff] at taken
    simp [declareVariable, taken] at h
  obtain ⟨described, outer, errors⟩ := declareVariable_fresh (e := e) ht fresh
  refine ⟨described, outer, ?_⟩
  rintro i rfl
  exact callable_of_exprErrors i (errors.symm.trans h)

theorem declareParameters_fresh {t : Table} {q : String} (qs : List String)
    (fresh : t.has q = false) :
    declareParameters t (q :: qs)
      = declareParameters (t.allocate.2.register ⟨q, .parameter t.name t.nextAddress, 0, none⟩)
        qs := by
  have hf : t.allocate.2.has q = false := fresh
  have hr : t.allocate.2.register? ⟨q, .parameter t.name t.nextAddress, 0, none⟩
      = some (t.allocate.2.register ⟨q, .parameter t.name t.nextAddress, 0, none⟩) := by
    simp [Table.register, Table.register?, hf]
  rw [declareParameters]
  simp only [Table.allocate] at hr ⊢
  simp [hr]

theorem declareParameters_taken {t : Table} {q : String} (qs : List String)
    (taken : t.has q = true) :
    declareParameters t (q :: qs) = ((declareParameters t.allocate.2 qs).1,
      .duplicateSymbol q t.name :: (declareParameters t.allocate.2 qs).2) := by
  have has : t.allocate.2.has q = true := taken
  simp [declareParameters, Table.register?, has]

theorem declareParameters_clean {t : Table} {name : String} (ps : List String)
    {qs : List String} (ht : t.Describes name (numbered (.parameter name) 0 ps) ps.length)
    (h : (declareParameters t qs).2 = []) :
    (declareParameters t qs).1.Describes name (numbered (.parameter name) 0 (ps ++ qs))
      (ps ++ qs).length := by
  induction qs generalizing t ps with
  | nil => simpa [declareParameters] using ht
  | cons q qs ih =>
    by_cases taken : t.has q = true
    · simp [declareParameters_taken qs taken] at h
    · have fresh : t.has q = false := by simpa using taken
      rw [declareParameters_fresh qs fresh] at h ⊢
      rw [List.append_cons]
      exact ih (ps ++ [q]) (ht.parameter fresh) h

/-- A callee is never found among the names of a function. -/
theorem Callable.outside {globals : Table} {u : Use} {name : String} {ps locals : List String}
    (ht : s.table.meanings = frame name ps locals) (ho : s.outer = [globals])
    (h : s.Callable u) : (ofTable globals).Callable u := by
  obtain ⟨qs, hq, fits⟩ := h
  refine ⟨qs, ?_, fits⟩
  rw [meaning?_inside ho, ht, Option.or_eq_some_iff] at hq
  rcases hq with hq | hq
  · have := frame_not_function (mem_of_lookup hq)
    simp [Meaning.isFunction] at this
  · rw [meaning?_top]
    exact hq.2

/-- The scope of a function after its declarations, none of which is a function. -/
theorem declareLocals_clean {name : String} {ps : List String} {globals : Table}
    (hs : s.table.Describes name (numbered (.parameter name) 0 ps) ps.length)
    (ho : s.outer = [globals]) {ds : List Declaration}
    (h : (declareAll declareLocal s ds).2 = []) :
    (declareAll declareLocal s ds).1.table.Describes name (frame name ps (vars ds).names)
        (ps.length + (vars ds).length) ∧
      (declareAll declareLocal s ds).1.outer = [globals] ∧ routines ds = [] ∧
        ∀ u ∈ (vars ds).calls, (ofTable globals).Callable u := by
  induction ds using List.reverseRecOn with
  | nil => exact ⟨by simpa [frame, numbered, vars, declareAll] using hs, ho, rfl, by simp [vars]⟩
  | append_singleton ds d ih =>
    rw [declareAll_append, declareAll_one] at h ⊢
    obtain ⟨hd, ho', hr, hc⟩ := ih (List.append_eq_nil_iff.mp h).1
    cases d with
    | function f qs inner ss => simp [declareLocal] at h
    | «variable» x e =>
      obtain ⟨hv, hvo, hvc⟩ := declareVariable_clean hd (List.append_eq_nil_iff.mp h).2
      have hone : vars [.variable x e] = [(x, e)] := rfl
      have hframe := frame_snoc name x ps (vars ds).names
      rw [Variables.length_names] at hframe
      rw [← hframe] at hv
      simp only [Declaration.vars_append, Declaration.routines_append, hone,
        Variables.names_append, Variables.names_cons, Variables.names_nil,
        List.length_append, List.length_singleton, ← Nat.add_assoc]
      refine ⟨hv, hvo.trans ho', by simp [hr, routines], ?_⟩
      intro u hu
      rw [Variables.calls_append, List.mem_append] at hu
      rcases hu with hu | hu
      · exact hc u hu
      · cases e with
        | none => simp at hu
        | some i =>
          exact (hvc i rfl u (by simpa using hu)).outside hv.meanings (hvo.trans ho')

theorem Denotes.outside {globals : Table} {x : String} {name : String} {ps locals : List String}
    (ht : s.table.meanings = frame name ps locals) (ho : s.outer = [globals])
    (h : s.Denotes x) : x ∈ ps ++ locals ∨ (ofTable globals).Denotes x := by
  obtain ⟨m, hm, plain⟩ := h
  rw [meaning?_inside ho, ht, Option.or_eq_some_iff] at hm
  rcases hm with hm | hm
  · left
    rw [← frame_names name ps locals]
    exact List.mem_map_of_mem (mem_of_lookup hm)
  · right
    exact ⟨m, by rw [meaning?_top]; exact hm.2, plain⟩

/-- The table of a function, and what its body uses. -/
theorem functionTable_clean {globals : Table} {name : String} {ps : List String}
    {ds : List Declaration} {ss : List Statement}
    (h : (functionTable globals name ps ds ss).2 = []) :
    (functionTable globals name ps ds ss).1.Describes name (frame name ps (vars ds).names)
        (ps.length + (vars ds).length) ∧
      routines ds = [] ∧
      (∀ u ∈ (vars ds).calls ++ Statement.callsAll ss, (ofTable globals).Callable u) ∧
      ∀ x ∈ Statement.assignedAll ss,
        x ∈ ps ++ (vars ds).names ∨ (ofTable globals).Denotes x := by
  simp only [functionTable, List.append_eq_nil_iff] at h ⊢
  have hp := declareParameters_clean (t := Table.empty name) [] Table.describes_empty h.1.1
  obtain ⟨hd, ho, hr, hc⟩ := declareLocals_clean hp rfl h.1.2
  have hs := callable_of_statementsErrors ss h.2
  refine ⟨hd, hr, ?_, ?_⟩
  · intro u hu
    rcases List.mem_append.mp hu with hu | hu
    · exact hc u hu
    · exact (hs.1 u hu).outside hd.meanings ho
  · intro x hx
    exact (hs.2 x hx).outside hd.meanings ho

/-! ## Programs -/

/-- What the declarations so far make of an analysis. -/
structure Known (ds : List Declaration) (a : Analysis) : Prop where
  globals : a.globals.Describes globalScope (globalMeanings 0 ds) (vars ds).length
  functions : List.Forall₂ (fun r t => t.Describes r.name r.frame r.slots) (routines ds)
    a.functions

variable {ds : List Declaration} {globals : Table}

theorem Callable.declares {n : Nat} {u : Use}
    (hg : globals.Describes globalScope (globalMeanings 0 ds) n)
    (h : (ofTable globals).Callable u) : Declares ds u := by
  obtain ⟨ps, hps, fits⟩ := h
  rw [meaning?_top, hg.meanings] at hps
  have := global_function (mem_of_lookup hps)
  rwa [fits] at this

theorem Denotes.declared {n : Nat} {x : String}
    (hg : globals.Describes globalScope (globalMeanings 0 ds) n)
    (h : (ofTable globals).Denotes x) : x ∈ (vars ds).names := by
  obtain ⟨m, hm, plain⟩ := h
  rw [meaning?_top, hg.meanings] at hm
  exact global_variable (mem_of_lookup hm) plain

theorem globalMeanings_snoc (ds : List Declaration) (d : Declaration) :
    globalMeanings 0 (ds ++ [d])
      = globalMeanings 0 ds ++ globalMeanings (vars ds).length [d] := by
  rw [globalMeanings_append, Nat.zero_add]

/-- What a further variable adds, and what its initializer calls. -/
theorem declareGlobal_variable {a : Analysis} (hk : Known ds a) {x : String} {e : Option Expr}
    (h : (declareGlobal a (.variable x e)).2 = []) :
    Known (ds ++ [.variable x e]) (declareGlobal a (.variable x e)).1 ∧
      ∀ i, e = some i → ∀ u ∈ i.calls, Declares ds u := by
  obtain ⟨hv, ho, hc⟩ := declareVariable_clean (s := ofTable a.globals) hk.globals h
  have hone : globalMeanings (vars ds).length [.variable x e]
      = [(x, .variable globalScope (vars ds).length)] := rfl
  rw [← hone, ← globalMeanings_snoc] at hv
  have hlen : (vars (ds ++ [.variable x e])).length = (vars ds).length + 1 := by
    simp [Declaration.vars_append, vars]
  have hsame : routines (ds ++ [.variable x e]) = routines ds := by
    simp [Declaration.routines_append, routines]
  refine ⟨⟨by rw [hlen]; exact hv, by rw [hsame]; exact hk.functions⟩, ?_⟩
  intro i hi u hu
  have whole : (declareVariable (ofTable a.globals) x e).1
      = ofTable (declareVariable (ofTable a.globals) x e).1.table :=
    congrArg (Scope.mk _) ho
  have hd := hc i hi u hu
  rw [whole] at hd
  unfold Declares
  rw [← hsame]
  exact Callable.declares hv hd

/-- The table that the body of a further function is checked with. -/
theorem Known.register {a : Analysis} (hk : Known ds a) (f : String) (ps : List String)
    (inner : List Declaration) (ss : List Statement) (fresh : a.globals.has f = false) :
    (a.globals.register { name := f, meaning := .function ps }).Describes globalScope
      (globalMeanings 0 (ds ++ [.function f ps inner ss])) (vars ds).length := by
  have one : globalMeanings (vars ds).length [.function f ps inner ss]
      = [(f, .function ps)] := rfl
  rw [globalMeanings_snoc, one]
  exact hk.globals.register fresh

/-- What a further function adds, and what its body uses. -/
theorem declareGlobal_function {a : Analysis} (hk : Known ds a) {f : String} {ps : List String}
    {inner : List Declaration} {ss : List Statement}
    (h : (declareGlobal a (.function f ps inner ss)).2 = []) :
    Known (ds ++ [.function f ps inner ss]) (declareGlobal a (.function f ps inner ss)).1 ∧
      routines inner = [] ∧
      (ps ++ (vars inner).names).Nodup ∧
      (∀ u ∈ (vars inner).calls ++ Statement.callsAll ss,
        Declares (ds ++ [.function f ps inner ss]) u) ∧
      ∀ x ∈ Statement.assignedAll ss, x ∈ ps ++ (vars inner).names ∨ x ∈ (vars ds).names := by
  unfold declareGlobal declareFunction at h ⊢
  by_cases taken : a.globals.has f = true
  · simp [taken] at h
  · simp only [taken, Bool.false_eq_true, if_false] at h ⊢
    have hg := hk.register f ps inner ss (by simpa using taken)
    have hsame : vars (ds ++ [.function f ps inner ss]) = vars ds := by
      simp [Declaration.vars_append, vars]
    obtain ⟨ht, hr, hc, ha⟩ := functionTable_clean h
    refine ⟨⟨?_, ?_⟩, hr, ?_, ?_, ?_⟩
    · rw [hsame]
      exact hg.setSlotCount f _
    · rw [Declaration.routines_append]
      exact List.rel_append hk.functions (.cons ht .nil)
    · rw [← frame_names f]
      exact ht.distinct
    · intro u hu
      exact Callable.declares hg (hc u hu)
    · intro x hx
      refine (ha x hx).imp_right fun hx => ?_
      rw [← hsame]
      exact Denotes.declared hg hx

/-- The analysis after the declarations `ds`. -/
def known (ds : List Declaration) : Analysis := (declareAll declareGlobal {} ds).1

def Clean (ds : List Declaration) : Prop := (declareAll declareGlobal {} ds).2 = []

theorem known_snoc (ds : List Declaration) (d : Declaration) :
    known (ds ++ [d]) = (declareGlobal (known ds) d).1 := by
  rw [known, declareAll_append, declareAll_one]
  rfl

theorem clean_append {es : List Declaration} (h : Clean (ds ++ es)) : Clean ds := by
  rw [Clean, declareAll_append] at h
  exact (List.append_eq_nil_iff.mp h).1

theorem clean_snoc {d : Declaration} (h : Clean (ds ++ [d])) :
    (declareGlobal (known ds) d).2 = [] := by
  rw [Clean, declareAll_append, declareAll_one] at h
  exact (List.append_eq_nil_iff.mp h).2

theorem known_of_clean (h : Clean ds) : Known ds (known ds) := by
  induction ds using List.reverseRecOn with
  | nil => exact ⟨Table.describes_empty, .nil⟩
  | append_singleton ds d ih =>
    have hk := ih (clean_append h)
    rw [known_snoc]
    cases d with
    | «variable» x e => exact (declareGlobal_variable hk (clean_snoc h)).1
    | function f ps inner ss => exact (declareGlobal_function hk (clean_snoc h)).1

end Scope

open Scope

/-- What is known of a program that passed the scope check with the analysis `a`. -/
structure Accepted (p : Program) (a : Analysis) : Prop where
  known : Known p.declarations a
  /-- A function sees the declarations before it and itself. -/
  function : ∀ {pre f ps inner ss post},
    p.declarations = pre ++ .function f ps inner ss :: post →
      routines inner = [] ∧ (ps ++ (vars inner).names).Nodup ∧
        (∀ u ∈ (vars inner).calls ++ Statement.callsAll ss,
          Declares (pre ++ [.function f ps inner ss]) u) ∧
        ∀ x ∈ Statement.assignedAll ss, x ∈ ps ++ (vars inner).names ∨ x ∈ (vars pre).names
  /-- An initializer calls functions before it only. -/
  initializer : ∀ {pre x e post},
    p.declarations = pre ++ .variable x (some e) :: post → ∀ u ∈ e.calls, Declares pre u
  statements : ∀ u ∈ Statement.callsAll p.statements, Declares p.declarations u

/-- The check accepts a program if it finds nothing in the declarations and in the statements. -/
theorem analyze_eq_ok_iff {p : Program} {a : Analysis} :
    p.analyze = .ok a ↔ Clean p.declarations ∧
      statementsErrors (ofTable (Scope.known p.declarations).globals) p.statements = [] ∧
        Scope.known p.declarations = a := by
  unfold Program.analyze Clean Scope.known
  simp only [List.isEmpty_iff, List.append_eq_nil_iff]
  split
  · rename_i none
    simp [none]
  · rename_i some
    simp only [reduceCtorEq, false_iff]
    exact fun h => some ⟨h.1, h.2.1⟩

theorem Scope.clean_of_analyze {p : Program} {a : Analysis} (h : p.analyze = .ok a)
    {pre post : List Declaration} {d : Declaration} (hp : p.declarations = pre ++ d :: post) :
    Clean (pre ++ [d]) := by
  have clean := (analyze_eq_ok_iff.mp h).1
  rw [hp, List.append_cons] at clean
  exact clean_append clean

theorem Accepted.of_analyze {p : Program} {a : Analysis} (h : p.analyze = .ok a) :
    Accepted p a := by
  obtain ⟨clean, hs, rfl⟩ := analyze_eq_ok_iff.mp h
  refine ⟨known_of_clean clean, ?_, ?_, ?_⟩
  · intro pre f ps inner ss post hp
    have hd := clean_of_analyze h hp
    exact (declareGlobal_function (known_of_clean (clean_append hd)) (clean_snoc hd)).2
  · intro pre x e post hp
    have hd := clean_of_analyze h hp
    exact (declareGlobal_variable (known_of_clean (clean_append hd)) (clean_snoc hd)).2 e rfl
  · intro u hu
    exact Callable.declares (known_of_clean clean).globals
      ((callable_of_statementsErrors _ hs).1 u hu)

end FlatStack
