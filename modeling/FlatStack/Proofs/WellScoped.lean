import FlatStack.Proofs.Acceptance
import FlatStack.Proofs.Occurrences

/-!
# Well-scoped programs

A program is well scoped if no scope declares a name twice, no function holds
another one, and each occurrence finds what it names among the declarations
before it. The scope check accepts these programs and no others.
-/

set_option autoImplicit false

namespace FlatStack

open Declaration (vars routines Declares)

/-! ## What is visible -/

/-- What is visible at a place: the parameters and variables of the function it
lies in, and the declarations of the top level so far. -/
structure View where
  own : List String
  tops : List Declaration

namespace View

/-- A function is hidden behind an own name of the function at hand. -/
def Allows (v : View) : Occurrence → Prop
  | .variable x => x ∈ v.own ∨ x ∈ (vars v.tops).names
  | .call f arguments => f ∉ v.own ∧ Declares v.tops (f, arguments.length)

end View

namespace Declaration

def name : Declaration → String
  | .variable x _ => x
  | .function f _ _ _ => f

/-- Each initializer sees the variables up to its own. -/
def InitializersScoped (view : List Declaration → View) (ds : List Declaration) : Prop :=
  ∀ pre x e post, ds = pre ++ .variable x (some e) :: post →
    ∀ o ∈ e.occurrences, (view (pre ++ [.variable x (some e)])).Allows o

end Declaration

open Declaration (InitializersScoped)

/-- A function among whose names and below whose declarations of the top level, itself included,
all occurrences are found. -/
structure FunctionScoped (tops : List Declaration) (parameters : List String)
    (declarations : List Declaration) (statements : List Statement) : Prop where
  flat : routines declarations = []
  distinct : (parameters ++ (vars declarations).names).Nodup
  initializers : InitializersScoped (fun ds => ⟨parameters ++ (vars ds).names, tops⟩) declarations
  statements : ∀ o ∈ Statement.occurrencesAll statements,
    View.Allows ⟨parameters ++ (vars declarations).names, tops⟩ o

/-- The declarations at top level, each of which sees those up to itself. -/
structure DeclarationsScoped (ds : List Declaration) : Prop where
  distinct : (ds.map Declaration.name).Nodup
  initializers : InitializersScoped (fun ds => ⟨[], ds⟩) ds
  functions : ∀ pre f ps inner ss post, ds = pre ++ .function f ps inner ss :: post →
    FunctionScoped (pre ++ [.function f ps inner ss]) ps inner ss

structure WellScoped (p : Program) : Prop extends DeclarationsScoped p.declarations where
  statements : ∀ o ∈ Statement.occurrencesAll p.statements, View.Allows ⟨[], p.declarations⟩ o

/-! ## Uses without errors -/

namespace Scope

variable {s : Scope}

/-- An occurrence finds what it names. -/
def Permits (s : Scope) : Occurrence → Prop
  | .variable x => s.Denotes x
  | .call f arguments => s.Callable (f, arguments.length)

theorem variableErrors_nil {x : String} : s.variableErrors x = [] ↔ s.Denotes x := by
  refine ⟨denotes_of_clean, ?_⟩
  rintro ⟨m, hm, plain⟩
  obtain ⟨symbol, found, rfl⟩ := Option.map_eq_some_iff.mp hm
  simp [variableErrors, found, plain]

theorem callErrors_nil {callee : String} {n : Nat} {inner : List ScopeError} :
    s.callErrors callee n inner = [] ↔ s.Callable (callee, n) ∧ inner = [] := by
  constructor
  · intro h
    refine ⟨callable_of_clean h, ?_⟩
    unfold callErrors at h
    split at h
    · simp at h
    · split at h
      · exact (List.append_eq_nil_iff.mp h).2
      · simp at h
  · rintro ⟨⟨ps, hm, rfl⟩, rfl⟩
    obtain ⟨symbol, found, hm⟩ := Option.map_eq_some_iff.mp hm
    simp [callErrors, found, hm]

mutual

theorem exprErrors_nil : ∀ e : Expr, s.exprErrors e = [] ↔ ∀ o ∈ e.occurrences, s.Permits o
  | .number _ | .read => by simp [exprErrors, Expr.occurrences]
  | .var x => by simp [exprErrors, Expr.occurrences, Permits, variableErrors_nil]
  | .unary _ e => by
    rw [exprErrors, Expr.occurrences]
    exact exprErrors_nil e
  | .binary _ l r => by
    rw [exprErrors, Expr.occurrences, List.append_eq_nil_iff, List.forall_mem_append,
      exprErrors_nil l, exprErrors_nil r]
  | .call callee arguments => by
    rw [exprErrors, Expr.occurrences, callErrors_nil, List.forall_mem_cons,
      exprsErrors_nil arguments]
    rfl

theorem exprsErrors_nil : ∀ es : List Expr,
    s.exprsErrors es = [] ↔ ∀ o ∈ Expr.occurrencesAll es, s.Permits o
  | [] => by simp [exprsErrors, Expr.occurrencesAll]
  | e :: es => by
    rw [exprsErrors, Expr.occurrencesAll, List.append_eq_nil_iff, List.forall_mem_append,
      exprErrors_nil e, exprsErrors_nil es]

end

mutual

theorem statementErrors_nil : ∀ t : Statement,
    s.statementErrors t = [] ↔ ∀ o ∈ t.occurrences, s.Permits o
  | .echo e => by
    rw [statementErrors, Statement.occurrences, exprErrors_nil e]
  | .assign x e => by
    rw [statementErrors, Statement.occurrences, List.append_eq_nil_iff, List.forall_mem_cons,
      variableErrors_nil, exprErrors_nil e]
    rfl
  | .ifThen c body | .loop c body => by
    rw [statementErrors, Statement.occurrences, List.append_eq_nil_iff, List.forall_mem_append,
      exprErrors_nil c, statementsErrors_nil body]
  | .ifElse c body otherwise => by
    rw [statementErrors, Statement.occurrences, List.append_eq_nil_iff, List.append_eq_nil_iff,
      List.forall_mem_append, List.forall_mem_append, exprErrors_nil c, statementsErrors_nil body,
      statementsErrors_nil otherwise]
  | .call callee arguments => by
    rw [statementErrors, Statement.occurrences, callErrors_nil, List.forall_mem_cons,
      exprsErrors_nil arguments]
    rfl

theorem statementsErrors_nil : ∀ ts : List Statement,
    s.statementsErrors ts = [] ↔ ∀ o ∈ Statement.occurrencesAll ts, s.Permits o
  | [] => by simp [statementsErrors, Statement.occurrencesAll]
  | t :: ts => by
    rw [statementsErrors, Statement.occurrencesAll, List.append_eq_nil_iff, List.forall_mem_append,
      statementErrors_nil t, statementsErrors_nil ts]

end

/-! ## Tables and views -/

theorem variable_meaning {n : Nat} {ds : List Declaration} {x : String}
    (h : x ∈ (vars ds).names) : ∃ m, (x, m) ∈ globalMeanings n ds ∧ m.isFunction = false := by
  induction ds generalizing n with
  | nil => simp [vars] at h
  | cons d ds ih =>
    cases d with
    | «variable» y e =>
      rcases List.mem_cons.mp h with rfl | h
      · exact ⟨_, List.mem_cons_self, rfl⟩
      · obtain ⟨m, hm, plain⟩ := ih h
        exact ⟨m, List.mem_cons_of_mem _ hm, plain⟩
    | function g ps inner ss =>
      obtain ⟨m, hm, plain⟩ := ih h
      exact ⟨m, List.mem_cons_of_mem _ hm, plain⟩

theorem routine_meaning {n : Nat} {ds : List Declaration} {r : Routine} (h : r ∈ routines ds) :
    (r.name, Meaning.function r.parameters) ∈ globalMeanings n ds := by
  induction ds generalizing n with
  | nil => simp [routines] at h
  | cons d ds ih =>
    cases d with
    | «variable» y e => exact List.mem_cons_of_mem _ (ih h)
    | function g ps inner ss =>
      rcases List.mem_cons.mp h with rfl | h
      · exact List.mem_cons_self
      · exact List.mem_cons_of_mem _ (ih h)

section Views

variable {globals : Table} {tops : List Declaration} {n : Nat}

theorem denotes_top (hg : globals.Describes globalScope (globalMeanings 0 tops) n) {x : String} :
    (ofTable globals).Denotes x ↔ x ∈ (vars tops).names := by
  refine ⟨Denotes.declared hg, fun h => ?_⟩
  obtain ⟨m, hm, plain⟩ := variable_meaning h
  exact ⟨m, by rw [meaning?_top, hg.meanings]; exact lookup_of_mem hg.distinct hm, plain⟩

theorem callable_top (hg : globals.Describes globalScope (globalMeanings 0 tops) n) {u : Use} :
    (ofTable globals).Callable u ↔ Declares tops u := by
  refine ⟨Callable.declares hg, ?_⟩
  rintro ⟨r, hr, hname, fits⟩
  refine ⟨r.parameters, ?_, fits⟩
  rw [meaning?_top, hg.meanings, ← hname]
  exact lookup_of_mem hg.distinct (routine_meaning hr)

theorem permits_top (hg : globals.Describes globalScope (globalMeanings 0 tops) n)
    (o : Occurrence) : (ofTable globals).Permits o ↔ View.Allows ⟨[], tops⟩ o := by
  cases o with
  | «variable» x => simp [Permits, View.Allows, denotes_top hg]
  | call f arguments => simp [Permits, View.Allows, callable_top hg]

/-- Own names are no functions, so they hide functions and nothing that could be used instead. -/
theorem permits_inside (hg : globals.Describes globalScope (globalMeanings 0 tops) n)
    (ho : s.outer = [globals]) (plain : ∀ m ∈ s.table.meanings, m.2.isFunction = false)
    (o : Occurrence) :
    s.Permits o ↔ View.Allows ⟨s.table.meanings.map (·.1), tops⟩ o := by
  cases o with
  | «variable» x =>
    change s.Denotes x ↔ x ∈ s.table.meanings.map (·.1) ∨ x ∈ (vars tops).names
    rw [← denotes_top hg]
    by_cases own : x ∈ s.table.meanings.map (·.1)
    · obtain ⟨m, hm, found⟩ := mem_lookup own
      exact iff_of_true ⟨m, by rw [meaning?_inside ho, found]; rfl, plain _ hm⟩ (.inl own)
    · unfold Denotes
      simp [meaning?_inside ho, lookup_not_mem own, own, meaning?_top]
  | call f arguments =>
    change s.Callable (f, arguments.length) ↔
      f ∉ s.table.meanings.map (·.1) ∧ Declares tops (f, arguments.length)
    rw [← callable_top hg]
    by_cases own : f ∈ s.table.meanings.map (·.1)
    · obtain ⟨m, hm, found⟩ := mem_lookup own
      refine iff_of_false ?_ fun h => h.1 own
      rintro ⟨ps, hps, _⟩
      rw [meaning?_inside ho, found, Option.some_or, Option.some.injEq] at hps
      simpa [hps, Meaning.isFunction] using plain _ hm
    · unfold Callable
      simp [meaning?_inside ho, lookup_not_mem own, own, meaning?_top]

end Views

/-! ## Declarations without errors -/

theorem declareVariable_nil {x name : String} {e : Option Expr} {ms : List (String × Meaning)}
    {n : Nat} (ht : s.table.Describes name ms n) :
    (declareVariable s x e).2 = [] ↔ x ∉ ms.map (·.1) ∧
      ∀ i, e = some i → ∀ o ∈ i.occurrences, (declareVariable s x e).1.Permits o := by
  by_cases taken : x ∈ ms.map (·.1)
  · have has : s.table.has x = true := by rw [Table.has_iff, ht.meanings]; exact taken
    simp [declareVariable, has, taken]
  · rw [(declareVariable_fresh ht taken).2.2]
    cases e with
    | none => simp [taken]
    | some i => simp [taken, exprErrors_nil]

theorem declareParameters_nil {t : Table} {name : String} (ps : List String) {qs : List String}
    (ht : t.Describes name (numbered (.parameter name) 0 ps) ps.length) :
    (declareParameters t qs).2 = [] ↔ (ps ++ qs).Nodup := by
  induction qs generalizing t ps with
  | nil =>
    have := ht.distinct
    rw [numbered_names] at this
    simpa [declareParameters] using this
  | cons q qs ih =>
    have taken_iff : t.has q = true ↔ q ∈ ps := by
      rw [Table.has_iff, ht.meanings, numbered_names]
    by_cases taken : t.has q = true
    · have has : t.allocate.2.has q = true := taken
      refine iff_of_false (by simp [declareParameters, Table.register?, has]) fun distinct => ?_
      exact List.disjoint_of_nodup_append distinct (taken_iff.mp taken) List.mem_cons_self
    · have fresh : t.has q = false := by simpa using taken
      rw [declareParameters_fresh qs fresh, List.append_cons]
      exact ih (ps ++ [q]) (ht.parameter fresh)

end Scope

/-! ## Declarations one after another -/

namespace Declaration

variable {ds : List Declaration} {d : Declaration}

theorem vars_snoc (x : String) (e : Option Expr) :
    (vars (ds ++ [.variable x e])).names = (vars ds).names ++ [x] := by
  simp [vars_append, vars]

theorem names_eq (n : Nat) : ds.map name = (globalMeanings n ds).map (·.1) := by
  induction ds generalizing n with
  | nil => rfl
  | cons d ds ih =>
    cases d with
    | «variable» x e => rw [globalMeanings, List.map_cons, List.map_cons, ih (n + 1)]; rfl
    | function f ps inner ss => rw [globalMeanings, List.map_cons, List.map_cons, ih n]; rfl

/-- What holds of each declaration after those before it, for one more declaration. -/
theorem forall_split_snoc {P : List Declaration → Declaration → Prop} :
    (∀ pre c post, ds ++ [d] = pre ++ c :: post → P pre c) ↔
      (∀ pre c post, ds = pre ++ c :: post → P pre c) ∧ P ds d := by
  constructor
  · intro h
    refine ⟨fun pre c post hds => h pre c (post ++ [d]) ?_, h ds d [] rfl⟩
    rw [hds, List.append_assoc, List.cons_append]
  · rintro ⟨before, last⟩ pre c post hds
    rcases List.eq_nil_or_concat post with rfl | ⟨post, b, rfl⟩
    · obtain ⟨rfl, heq⟩ := List.append_inj' hds rfl
      obtain rfl := (List.cons.inj heq).1
      exact last
    · rw [List.concat_eq_append, ← List.cons_append, ← List.append_assoc] at hds
      obtain ⟨rfl, _⟩ := List.append_inj' hds rfl
      exact before pre c post rfl

theorem initializersScoped_snoc {view : List Declaration → View} :
    InitializersScoped view (ds ++ [d]) ↔ InitializersScoped view ds ∧
      ∀ x e, d = .variable x (some e) → ∀ o ∈ e.occurrences, (view (ds ++ [d])).Allows o := by
  have each : ∀ es, InitializersScoped view es ↔ ∀ pre c post, es = pre ++ c :: post →
      ∀ x e, c = .variable x (some e) → ∀ o ∈ e.occurrences, (view (pre ++ [c])).Allows o := by
    intro es
    constructor
    · rintro h pre c post hes x e rfl
      exact h pre x e post hes
    · intro h pre x e post hes
      exact h pre _ post hes x e rfl
  rw [each, each, forall_split_snoc]

end Declaration

namespace Scope

variable {s : Scope} {globals : Table} {tops : List Declaration} {n : Nat}

section Locals

variable {name : String} {ps : List String}

theorem permits_frame (hg : globals.Describes globalScope (globalMeanings 0 tops) n)
    {locals : List String} (ht : s.table.meanings = frame name ps locals)
    (ho : s.outer = [globals]) (o : Occurrence) :
    s.Permits o ↔ View.Allows ⟨ps ++ locals, tops⟩ o := by
  have plain : ∀ m ∈ s.table.meanings, m.2.isFunction = false := by
    rw [ht]
    exact fun m => frame_not_function
  rw [permits_inside hg ho plain, ht, frame_names]

theorem declareLocal_nil (hg : globals.Describes globalScope (globalMeanings 0 tops) n)
    {ds : List Declaration} (ht : s.table.Describes name (frame name ps (vars ds).names)
      (ps.length + (vars ds).length)) (ho : s.outer = [globals]) {x : String} {e : Option Expr} :
    (declareVariable s x e).2 = [] ↔ x ∉ ps ++ (vars ds).names ∧
      ∀ i, e = some i → ∀ o ∈ i.occurrences,
        View.Allows ⟨ps ++ (vars (ds ++ [.variable x e])).names, tops⟩ o := by
  rw [declareVariable_nil ht, frame_names]
  refine and_congr_right fun fresh => ?_
  obtain ⟨hv, hvo, _⟩ := declareVariable_fresh (e := e) ht (by rwa [frame_names])
  rw [← Variables.length_names, ← frame_snoc, ← Declaration.vars_snoc (e := e)] at hv
  simp only [permits_frame hg hv.meanings (hvo.trans ho)]

theorem nodup_snoc {xs : List String} {x : String} :
    (xs ++ [x]).Nodup ↔ xs.Nodup ∧ x ∉ xs := by
  rw [← List.concat_eq_append, List.nodup_concat, and_comm]

theorem declareLocals_nil (hg : globals.Describes globalScope (globalMeanings 0 tops) n)
    (hs : s.table.Describes name (numbered (.parameter name) 0 ps) ps.length)
    (ho : s.outer = [globals]) {ds : List Declaration} :
    (declareAll declareLocal s ds).2 = [] ↔ routines ds = [] ∧ (ps ++ (vars ds).names).Nodup ∧
      InitializersScoped (fun ds => ⟨ps ++ (vars ds).names, tops⟩) ds := by
  induction ds using List.reverseRecOn with
  | nil =>
    have distinct := hs.distinct
    rw [numbered_names] at distinct
    simp [declareAll, routines, vars, distinct, InitializersScoped]
  | append_singleton ds d ih =>
    rw [declareAll_append, declareAll_one, List.append_eq_nil_iff,
      Declaration.initializersScoped_snoc, Declaration.routines_append]
    cases d with
    | function f qs inner ss => simp [declareLocal, routines]
    | «variable» x e =>
      have described := fun clean : (declareAll declareLocal s ds).2 = [] =>
        declareLocals_clean hs ho clean
      have distinct : (ps ++ (vars (ds ++ [.variable x e])).names).Nodup ↔
          (ps ++ (vars ds).names).Nodup ∧ x ∉ ps ++ (vars ds).names := by
        rw [Declaration.vars_snoc, ← List.append_assoc, nodup_snoc]
      have flat : routines ds ++ routines [.variable x e] = [] ↔ routines ds = [] := by
        simp [routines]
      rw [declareLocal, and_congr_right fun clean =>
        declareLocal_nil hg (described clean).1 (described clean).2.1, ih, distinct, flat]
      constructor
      · rintro ⟨⟨hr, hn, hi⟩, fresh, he⟩
        refine ⟨hr, ⟨hn, fresh⟩, hi, ?_⟩
        rintro _ i heq
        obtain ⟨rfl, rfl⟩ := Declaration.variable.inj heq
        exact he i rfl
      · rintro ⟨hr, ⟨hn, fresh⟩, hi, he⟩
        refine ⟨⟨hr, hn, hi⟩, fresh, ?_⟩
        rintro i rfl
        exact he x i rfl

end Locals

/-- A function without errors is well scoped. -/
theorem functionTable_nil (hg : globals.Describes globalScope (globalMeanings 0 tops) n)
    {f : String} {ps : List String} {ds : List Declaration} {ss : List Statement} :
    (functionTable globals f ps ds ss).2 = [] ↔ FunctionScoped tops ps ds ss := by
  have parameters : (declareParameters (Table.empty f) ps).2 = [] ↔ ps.Nodup :=
    declareParameters_nil [] Table.describes_empty
  simp only [functionTable, List.append_eq_nil_iff]
  constructor
  · rintro ⟨⟨hp, hd⟩, hs⟩
    have ht := declareParameters_clean (t := Table.empty f) [] Table.describes_empty hp
    obtain ⟨flat, distinct, initializers⟩ := (declareLocals_nil hg ht rfl).mp hd
    obtain ⟨hm, ho, _⟩ := declareLocals_clean ht rfl hd
    refine ⟨flat, distinct, initializers, fun o hmem => ?_⟩
    exact (permits_frame hg hm.meanings ho o).mp ((statementsErrors_nil ss).mp hs o hmem)
  · rintro ⟨flat, distinct, initializers, statements⟩
    have hp := parameters.mpr (List.Nodup.of_append_left distinct)
    have ht := declareParameters_clean (t := Table.empty f) [] Table.describes_empty hp
    have hd := (declareLocals_nil (s := ⟨_, [globals]⟩) hg ht rfl).mpr
      ⟨flat, distinct, initializers⟩
    obtain ⟨hm, ho, _⟩ := declareLocals_clean ht rfl hd
    refine ⟨⟨hp, hd⟩, (statementsErrors_nil ss).mpr fun o hmem => ?_⟩
    exact (permits_frame hg hm.meanings ho o).mpr (statements o hmem)

/-! ## Programs without errors -/

section Globals

variable {ds : List Declaration} {a : Analysis}

theorem declareGlobal_variable_nil (hk : Known ds a) {x : String} {e : Option Expr} :
    (declareGlobal a (.variable x e)).2 = [] ↔ x ∉ ds.map Declaration.name ∧
      ∀ i, e = some i → ∀ o ∈ i.occurrences, View.Allows ⟨[], ds ++ [.variable x e]⟩ o := by
  have hg : (ofTable a.globals).table.Describes globalScope (globalMeanings 0 ds)
      (vars ds).length := hk.globals
  rw [declareGlobal, declareVariable_nil hg, Declaration.names_eq 0]
  refine and_congr_right fun fresh => ?_
  obtain ⟨hv, ho, _⟩ := declareVariable_fresh (e := e) hg fresh
  have whole : (declareVariable (ofTable a.globals) x e).1
      = ofTable (declareVariable (ofTable a.globals) x e).1.table :=
    congrArg (Scope.mk _) ho
  have one : globalMeanings (vars ds).length [.variable x e]
      = [(x, .variable globalScope (vars ds).length)] := rfl
  rw [← one, ← globalMeanings_snoc] at hv
  rw [whole]
  simp only [permits_top hv]

theorem declareGlobal_function_nil (hk : Known ds a) {f : String} {ps : List String}
    {inner : List Declaration} {ss : List Statement} :
    (declareGlobal a (.function f ps inner ss)).2 = [] ↔ f ∉ ds.map Declaration.name ∧
      FunctionScoped (ds ++ [.function f ps inner ss]) ps inner ss := by
  have taken_iff : a.globals.has f = true ↔ f ∈ ds.map Declaration.name := by
    rw [Table.has_iff, hk.globals.meanings, ← Declaration.names_eq]
  unfold declareGlobal declareFunction
  by_cases taken : f ∈ ds.map Declaration.name
  · simp [taken_iff.mpr taken, taken]
  · have free : a.globals.has f = false := by
      rw [← Bool.not_eq_true, taken_iff]
      exact taken
    simp only [free, Bool.false_eq_true, if_false, taken, not_false_eq_true, true_and]
    exact functionTable_nil (hk.register f ps inner ss free)

theorem declareGlobal_nil (hk : Known ds a) (d : Declaration) :
    (declareGlobal a d).2 = [] ↔ d.name ∉ ds.map Declaration.name ∧
      (∀ x e, d = .variable x (some e) → ∀ o ∈ e.occurrences, View.Allows ⟨[], ds ++ [d]⟩ o) ∧
        ∀ f ps inner ss, d = .function f ps inner ss → FunctionScoped (ds ++ [d]) ps inner ss := by
  cases d with
  | «variable» x e =>
    rw [declareGlobal_variable_nil hk]
    refine and_congr_right fun _ => ⟨fun h => ⟨?_, by simp⟩, fun h => ?_⟩
    · rintro _ i heq
      obtain ⟨rfl, rfl⟩ := Declaration.variable.inj heq
      exact h i rfl
    · rintro i rfl
      exact h.1 x i rfl
  | function f ps inner ss =>
    rw [declareGlobal_function_nil hk]
    refine and_congr_right fun _ => ⟨fun h => ⟨by simp, ?_⟩, fun h => h.2 f ps inner ss rfl⟩
    rintro g qs inner' ss' heq
    obtain ⟨rfl, rfl, rfl, rfl⟩ := Declaration.function.inj heq
    exact h

theorem declarationsScoped_snoc {d : Declaration} :
    DeclarationsScoped (ds ++ [d]) ↔ DeclarationsScoped ds ∧ d.name ∉ ds.map Declaration.name ∧
      (∀ x e, d = .variable x (some e) → ∀ o ∈ e.occurrences, View.Allows ⟨[], ds ++ [d]⟩ o) ∧
        ∀ f ps inner ss, d = .function f ps inner ss → FunctionScoped (ds ++ [d]) ps inner ss := by
  have functions : ∀ es : List Declaration,
      (∀ pre f ps inner ss post, es = pre ++ .function f ps inner ss :: post →
        FunctionScoped (pre ++ [.function f ps inner ss]) ps inner ss) ↔
      ∀ pre c post, es = pre ++ c :: post → ∀ f ps inner ss, c = .function f ps inner ss →
        FunctionScoped (pre ++ [c]) ps inner ss := by
    intro es
    constructor
    · rintro h pre c post hes f ps inner ss rfl
      exact h pre f ps inner ss post hes
    · intro h pre f ps inner ss post hes
      exact h pre _ post hes f ps inner ss rfl
  have distinct : ((ds ++ [d]).map Declaration.name).Nodup ↔
      (ds.map Declaration.name).Nodup ∧ d.name ∉ ds.map Declaration.name := by
    rw [List.map_append, List.map_singleton, nodup_snoc]
  constructor
  · rintro ⟨hd, hi, hf⟩
    obtain ⟨hd, fresh⟩ := distinct.mp hd
    obtain ⟨hi, initializer⟩ := Declaration.initializersScoped_snoc.mp hi
    obtain ⟨hf, function⟩ := Declaration.forall_split_snoc.mp ((functions _).mp hf)
    exact ⟨⟨hd, hi, (functions _).mpr hf⟩, fresh, initializer, function⟩
  · rintro ⟨⟨hd, hi, hf⟩, fresh, initializer, function⟩
    exact ⟨distinct.mpr ⟨hd, fresh⟩, Declaration.initializersScoped_snoc.mpr ⟨hi, initializer⟩,
      (functions _).mpr (Declaration.forall_split_snoc.mpr ⟨(functions _).mp hf, function⟩)⟩

theorem clean_snoc_iff {d : Declaration} :
    Clean (ds ++ [d]) ↔ Clean ds ∧ (declareGlobal (known ds) d).2 = [] := by
  unfold Clean
  rw [declareAll_append, declareAll_one, List.append_eq_nil_iff]
  rfl

theorem clean_iff : Clean ds ↔ DeclarationsScoped ds := by
  induction ds using List.reverseRecOn with
  | nil => exact iff_of_true rfl ⟨.nil, by simp [InitializersScoped], by simp⟩
  | append_singleton ds d ih =>
    rw [clean_snoc_iff, declarationsScoped_snoc, ← ih]
    exact and_congr_right fun clean => declareGlobal_nil (known_of_clean clean) d

end Globals

end Scope

theorem wellScoped_iff {p : Program} : WellScoped p ↔ Scope.Clean p.declarations ∧
    (Scope.ofTable (Scope.known p.declarations).globals).statementsErrors p.statements = [] := by
  rw [Scope.clean_iff, Scope.statementsErrors_nil]
  constructor
  · rintro ⟨declarations, statements⟩
    have hg := (Scope.known_of_clean (Scope.clean_iff.mpr declarations)).globals
    exact ⟨declarations, fun o hmem => (Scope.permits_top hg o).mpr (statements o hmem)⟩
  · rintro ⟨declarations, statements⟩
    have hg := (Scope.known_of_clean (Scope.clean_iff.mpr declarations)).globals
    exact ⟨declarations, fun o hmem => (Scope.permits_top hg o).mp (statements o hmem)⟩

theorem WellScoped.of_analyze {p : Program} {a : Analysis} (h : p.analyze = .ok a) :
    WellScoped p := by
  obtain ⟨declarations, statements, _⟩ := analyze_eq_ok_iff.mp h
  exact wellScoped_iff.mpr ⟨declarations, statements⟩

/-- The scope check accepts exactly the well-scoped programs. -/
theorem analyze_ok_iff_wellScoped (p : Program) :
    (∃ a, p.analyze = .ok a) ↔ WellScoped p := by
  rw [wellScoped_iff]
  constructor
  · rintro ⟨a, h⟩
    obtain ⟨declarations, statements, _⟩ := analyze_eq_ok_iff.mp h
    exact ⟨declarations, statements⟩
  · rintro ⟨declarations, statements⟩
    exact ⟨_, analyze_eq_ok_iff.mpr ⟨declarations, statements, rfl⟩⟩

end FlatStack
