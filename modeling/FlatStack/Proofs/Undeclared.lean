import FlatStack.Proofs.WellScoped

/-!
# Undeclared variables

The scope check does not look at everything. It passes over the arguments of a
call of what is no function, the initializer of a variable that its scope has
already, and functions that repeat a name or stand in another function. A
variable that is declared nowhere is reported exactly if it occurs elsewhere,
and whatever is passed over is passed over because of an error that is
reported itself.
-/

set_option autoImplicit false

namespace FlatStack

open Declaration (vars)

/-! ## What is declared and what is looked at -/

namespace Declaration

mutual

/-- All names that a declaration declares, those inside it included. -/
def declared : Declaration → List String
  | .variable x _ => [x]
  | .function f ps inner _ => f :: (ps ++ declaredAll inner)

def declaredAll : List Declaration → List String
  | [] => []
  | d :: ds => declared d ++ declaredAll ds

end

def isFunction : Declaration → Bool
  | .variable .. => false
  | .function .. => true

end Declaration

namespace View

/-- Whether a name stands for a function, if it stands for anything. Own names hide the top level,
and of several declarations there the first one counts. -/
def isFunction? (v : View) (f : String) : Option Bool :=
  if f ∈ v.own then some false
  else (v.tops.find? fun d => d.name == f).map Declaration.isFunction

end View

namespace Expr

mutual

/-- The variables that occur outside the arguments of calls of what is no function. -/
def exposed (v : View) : Expr → List String
  | .number _ | .read => []
  | .var x => [x]
  | .unary _ e => exposed v e
  | .binary _ l r => exposed v l ++ exposed v r
  | .call f es => if v.isFunction? f = some true then exposedAll v es else []

def exposedAll (v : View) : List Expr → List String
  | [] => []
  | e :: es => exposed v e ++ exposedAll v es

end

end Expr

namespace Statement

mutual

def exposed (v : View) : Statement → List String
  | .echo e => e.exposed v
  | .assign x e => x :: e.exposed v
  | .ifThen c body | .loop c body => c.exposed v ++ exposedAll v body
  | .ifElse c body otherwise => c.exposed v ++ exposedAll v body ++ exposedAll v otherwise
  | .call f es => if v.isFunction? f = some true then Expr.exposedAll v es else []

def exposedAll (v : View) : List Statement → List String
  | [] => []
  | s :: ss => exposed v s ++ exposedAll v ss

end

end Statement

namespace Declaration

/-- A property of one of the declarations and of those before it. -/
def Somewhere (P : List Declaration → Declaration → Prop) (ds : List Declaration) : Prop :=
  ∃ pre d post, ds = pre ++ d :: post ∧ P pre d

/-- The variable is new to its function, and `x` occurs in its initializer. -/
def ExposesInside (x : String) (tops : List Declaration) (ps : List String)
    (before : List Declaration) : Declaration → Prop
  | .variable y e => y ∉ ps ++ (vars before).names ∧
      ∃ i, e = some i ∧ x ∈ i.exposed ⟨ps ++ (vars before).names ++ [y], tops⟩
  | .function .. => False

/-- The declaration is new at top level, and `x` occurs in its initializer or in its body. -/
def Exposes (x : String) (before : List Declaration) : Declaration → Prop
  | .variable y e => y ∉ before.map name ∧
      ∃ i, e = some i ∧ x ∈ i.exposed ⟨[], before ++ [.variable y e]⟩
  | .function f ps inner ss => f ∉ before.map name ∧
      (Somewhere (ExposesInside x (before ++ [.function f ps inner ss]) ps) inner ∨
        x ∈ Statement.exposedAll
          ⟨ps ++ (vars inner).names, before ++ [.function f ps inner ss]⟩ ss)

end Declaration

open Declaration (Somewhere declaredAll)

/-- `x` occurs where the scope check looks. -/
def Program.Exposes (p : Program) (x : String) : Prop :=
  Somewhere (Declaration.Exposes x) p.declarations ∨
    x ∈ Statement.exposedAll ⟨[], p.declarations⟩ p.statements

/-- Errors because of which the check passes over something. -/
def ScopeError.hides : ScopeError → Bool
  | .duplicateVariable .. | .duplicateFunction _ | .nestedFunction _ | .undeclaredFunction _
  | .notFunction _ => true
  | _ => false

/-! ## Names of views and tables -/

namespace Declaration

variable {ds : List Declaration} {d : Declaration} {x : String}
  {P Q : List Declaration → Declaration → Prop}

theorem somewhere_snoc : Somewhere P (ds ++ [d]) ↔ Somewhere P ds ∨ P ds d := by
  have split := @forall_split_snoc ds d fun pre c => ¬ P pre c
  constructor
  · intro h
    by_contra none
    obtain ⟨before, last⟩ := not_or.mp none
    obtain ⟨pre, c, post, hds, hc⟩ := h
    exact split.mpr ⟨fun pre c post hds hc => before ⟨pre, c, post, hds, hc⟩, last⟩
      pre c post hds hc
  · rintro (⟨pre, c, post, rfl, hc⟩ | last)
    · exact ⟨pre, c, post ++ [d], by simp, hc⟩
    · exact ⟨ds, d, [], rfl, last⟩

theorem declaredAll_append (ds es : List Declaration) :
    declaredAll (ds ++ es) = declaredAll ds ++ declaredAll es := by
  induction ds with
  | nil => rfl
  | cons d ds ih => simp [declaredAll, ih]

theorem name_mem_declared (d : Declaration) : d.name ∈ declared d := by
  cases d <;> simp [name, declared]

theorem names_subset : ds.map name ⊆ declaredAll ds := by
  induction ds with
  | nil => simp
  | cons d ds ih =>
    refine List.cons_subset.mpr ⟨List.mem_append_left _ d.name_mem_declared, fun y hy => ?_⟩
    exact List.mem_append_right _ (ih hy)

theorem vars_subset : (vars ds).names ⊆ declaredAll ds := by
  intro y hy
  apply names_subset
  rw [names_eq 0]
  exact (variables_sublist 0 ds).subset hy

end Declaration

namespace View

variable {own : List String} {tops : List Declaration}

theorem isFunction?_none {v : View} {x : String} :
    v.isFunction? x = none ↔ x ∉ v.own ∧ x ∉ v.tops.map Declaration.name := by
  unfold isFunction?
  by_cases h : x ∈ v.own
  · simp [h]
  · simp [h, Option.map_eq_none_iff, List.find?_eq_none]

/-- Own names come before those of the top level. -/
theorem isFunction?_inside (f : String) :
    isFunction? ⟨own, tops⟩ f = (isFunction? ⟨own, []⟩ f).or (isFunction? ⟨[], tops⟩ f) := by
  unfold isFunction?
  by_cases h : f ∈ own <;> simp [h]

end View

/-- One more name, which counts unless it is among them already. -/
def withName (names : String → Option Bool) (y : String) (b : Bool) (f : String) : Option Bool :=
  (names f).or (if f = y then some b else none)

namespace View

variable {own : List String} {tops : List Declaration}

theorem isFunction?_declare (d : Declaration) :
    isFunction? ⟨[], tops ++ [d]⟩ = withName (isFunction? ⟨[], tops⟩) d.name d.isFunction := by
  funext f
  by_cases h : d.name = f
  · simp [isFunction?, withName, List.find?_append, h]
  · have other : ¬ f = d.name := fun same => h same.symm
    simp [isFunction?, withName, List.find?_append, h, other]

theorem isFunction?_own (y : String) :
    isFunction? ⟨own ++ [y], []⟩ = withName (isFunction? ⟨own, []⟩) y false := by
  funext f
  by_cases h : f ∈ own
  · simp [isFunction?, withName, h]
  · simp [isFunction?, withName, h]

end View

namespace Table

variable {t : Table} {names : String → Option Bool}

/-- Which names a table has, and which of them are functions. -/
def Reads (t : Table) (names : String → Option Bool) : Prop :=
  ∀ f, (t.meanings.lookup f).map Meaning.isFunction = names f

theorem Reads.has (h : t.Reads names) (f : String) : t.has f = (names f).isSome := by
  rw [← h f, Option.isSome_map, ← find?_meaning, Option.isSome_map]
  rfl

theorem Reads.taken (h : t.Reads names) {y : String} (has : t.has y = true) (b : Bool) :
    t.Reads (withName names y b) := by
  intro f
  rw [h f, withName]
  split
  · rename_i same
    rw [same, Option.or_of_isSome]
    rw [← h.has, has]
  · rw [Option.or_none]

theorem Reads.register (h : t.Reads names) (s : Symbol) :
    (t.register s).Reads (withName names s.name s.meaning.isFunction) := by
  by_cases taken : t.has s.name = true
  · have same : t.register s = t := by simp [Table.register, register?, taken]
    rw [same]
    exact h.taken taken _
  · have added : (t.register s).meanings = t.meanings ++ [(s.name, s.meaning)] := by
      simp [Table.register, register?, taken, meanings]
    intro f
    rw [added, List.lookup_append, Option.map_or, h f, withName]
    by_cases same : f = s.name
    · simp [same]
    · have other : (f == s.name) = false := by simpa using same
      simp [List.lookup_cons, other, same]

theorem Reads.setSlotCount (h : t.Reads names) (f : String) (n : Nat) :
    (t.setSlotCount f n).Reads names := by
  intro y
  rw [Table.setSlotCount, modify_meanings (by simp) (by simp)]
  exact h y

end Table

namespace Scope

variable {s : Scope} {v : View} {x : String} {own : List String} {tops : List Declaration}
  {g t : Table}

/-- A scope finds what is visible. -/
def Sees (s : Scope) (v : View) : Prop :=
  ∀ f, (s.meaning? f).map Meaning.isFunction = v.isFunction? f

theorem sees_top (h : t.Reads (View.isFunction? ⟨[], tops⟩)) : (ofTable t).Sees ⟨[], tops⟩ := by
  intro f
  rw [meaning?_top, h f]

theorem sees_inside (ht : s.table.Reads (View.isFunction? ⟨own, []⟩)) (ho : s.outer = [g])
    (hg : g.Reads (View.isFunction? ⟨[], tops⟩)) : s.Sees ⟨own, tops⟩ := by
  intro f
  rw [meaning?_inside ho, Option.map_or, ht f, hg f, ← View.isFunction?_inside]

theorem Sees.lookup_none (h : s.Sees v) (unknown : v.isFunction? x = none) :
    s.lookup? x = none := by
  have none := h x
  rw [unknown, Option.map_eq_none_iff, meaning?, Option.map_eq_none_iff] at none
  exact none

end Scope

/-! ## Reports -/

/-- The errors of a part of the program report `x` exactly if it is exposed there. If it occurs
there, then it is reported or passed over because of one of the errors. -/
structure Reports (x : String) (es : List ScopeError) (exposed occurs : Prop) : Prop where
  reported : .undeclaredVariable x ∈ es ↔ exposed
  accounted : occurs → .undeclaredVariable x ∈ es ∨ ∃ e ∈ es, e.hides = true

namespace Reports

variable {x : String} {es es' : List ScopeError} {P P' O O' : Prop}

theorem nothing : Reports x [] False False := ⟨by simp, False.elim⟩

theorem append (h : Reports x es P O) (h' : Reports x es' P' O') :
    Reports x (es ++ es') (P ∨ P') (O ∨ O') := by
  refine ⟨by rw [List.mem_append, h.reported, h'.reported], fun occurs => ?_⟩
  rcases occurs with here | there
  · rcases h.accounted here with reported | ⟨e, he, hides⟩
    · exact .inl (List.mem_append_left _ reported)
    · exact .inr ⟨e, List.mem_append_left _ he, hides⟩
  · rcases h'.accounted there with reported | ⟨e, he, hides⟩
    · exact .inl (List.mem_append_right _ reported)
    · exact .inr ⟨e, List.mem_append_right _ he, hides⟩

theorem congr (h : Reports x es P O) (hP : P' ↔ P) (hO : O' → O) : Reports x es P' O' :=
  ⟨h.reported.trans hP.symm, fun occurs => h.accounted (hO occurs)⟩

/-- Whatever an error hides counts as accounted for. -/
theorem hidden {e : ScopeError} (hides : e.hides = true) (hP : ¬ P) : Reports x [e] P O := by
  refine ⟨iff_of_false ?_ hP, fun _ => .inr ⟨e, List.mem_singleton_self e, hides⟩⟩
  rw [List.mem_singleton]
  rintro rfl
  simp [ScopeError.hides] at hides

/-- Errors of other kinds make no difference. -/
theorem beside (h : Reports x es P O) (others : .undeclaredVariable x ∉ es') :
    Reports x (es' ++ es) P O := by
  have none : Reports x es' False False := ⟨iff_of_false others id, False.elim⟩
  exact (none.append h).congr (by simp) .inr

end Reports

namespace Scope

variable {s : Scope} {v : View} {x : String} {own : List String} {tops : List Declaration}
  {g t : Table}

theorem variable_reports (missing : s.lookup? x = none) (y : String) :
    Reports x (s.variableErrors y) (x = y) (Occurrence.variable x = .variable y) := by
  have reported : .undeclaredVariable x ∈ s.variableErrors y ↔ x = y := by
    by_cases same : x = y
    · subst same
      simp [variableErrors, missing]
    · unfold variableErrors
      split
      · simp [same]
      · split <;> simp [same]
  refine ⟨reported, fun same => .inl (reported.mpr ?_)⟩
  exact Occurrence.variable.inj same

/-- The arguments are looked at if the callee is a function, whether or not they fit it. -/
theorem call_reports (sees : s.Sees v) {f : String} {n : Nat} {inner : List ScopeError}
    {exposed : List String} {O : Prop} (h : Reports x inner (x ∈ exposed) O) :
    Reports x (s.callErrors f n inner)
      (x ∈ if v.isFunction? f = some true then exposed else []) O := by
  rw [← sees f, meaning?]
  unfold callErrors
  cases found : s.lookup? f with
  | none => exact Reports.hidden rfl (by simp)
  | some symbol =>
    cases hm : symbol.meaning with
    | function ps =>
      simp only [hm, Option.map_some, Meaning.isFunction, if_true]
      have others : .undeclaredVariable x ∉
          if ps.length = n then [] else [ScopeError.argumentCount f ps.length n] := by
        by_cases fits : ps.length = n <;> simp [fits]
      exact h.beside others
    | «variable» _ _ | parameter _ _ =>
      simp only [hm, Option.map_some]
      exact Reports.hidden rfl (by simp [Meaning.isFunction])

mutual

theorem expr_reports (sees : s.Sees v) (unknown : v.isFunction? x = none) : ∀ e : Expr,
    Reports x (s.exprErrors e) (x ∈ e.exposed v) (.variable x ∈ e.occurrences)
  | .number _ | .read => by
    rw [exprErrors, Expr.exposed, Expr.occurrences]
    exact Reports.nothing.congr (by simp) (by simp)
  | .var y => by
    rw [exprErrors, Expr.exposed, Expr.occurrences]
    exact (variable_reports (sees.lookup_none unknown) y).congr List.mem_singleton
      List.mem_singleton.mp
  | .unary _ e => by
    rw [exprErrors, Expr.exposed, Expr.occurrences]
    exact expr_reports sees unknown e
  | .binary _ l r => by
    rw [exprErrors, Expr.exposed, Expr.occurrences]
    exact ((expr_reports sees unknown l).append (expr_reports sees unknown r)).congr
      List.mem_append List.mem_append.mp
  | .call f es => by
    rw [exprErrors, Expr.exposed, Expr.occurrences]
    exact (call_reports sees (exprs_reports sees unknown es)).congr Iff.rfl (by simp)

theorem exprs_reports (sees : s.Sees v) (unknown : v.isFunction? x = none) : ∀ es : List Expr,
    Reports x (s.exprsErrors es) (x ∈ Expr.exposedAll v es)
      (.variable x ∈ Expr.occurrencesAll es)
  | [] => by
    rw [exprsErrors, Expr.exposedAll, Expr.occurrencesAll]
    exact Reports.nothing.congr (by simp) (by simp)
  | e :: es => by
    rw [exprsErrors, Expr.exposedAll, Expr.occurrencesAll]
    exact ((expr_reports sees unknown e).append (exprs_reports sees unknown es)).congr
      List.mem_append List.mem_append.mp

end

mutual

theorem statement_reports (sees : s.Sees v) (unknown : v.isFunction? x = none) :
    ∀ t : Statement, Reports x (s.statementErrors t) (x ∈ t.exposed v)
      (.variable x ∈ t.occurrences)
  | .echo e => by
    rw [statementErrors, Statement.exposed, Statement.occurrences]
    exact expr_reports sees unknown e
  | .assign y e => by
    rw [statementErrors, Statement.exposed, Statement.occurrences]
    exact ((variable_reports (sees.lookup_none unknown) y).append
      (expr_reports sees unknown e)).congr List.mem_cons List.mem_cons.mp
  | .ifThen c body | .loop c body => by
    rw [statementErrors, Statement.exposed, Statement.occurrences]
    exact ((expr_reports sees unknown c).append (statements_reports sees unknown body)).congr
      List.mem_append List.mem_append.mp
  | .ifElse c body otherwise => by
    rw [statementErrors, Statement.exposed, Statement.occurrences]
    have both := (expr_reports sees unknown c).append (statements_reports sees unknown body)
    exact (both.append (statements_reports sees unknown otherwise)).congr
      (by simp only [List.mem_append]) (by simp only [List.mem_append, imp_self])
  | .call f es => by
    rw [statementErrors, Statement.exposed, Statement.occurrences]
    exact (call_reports sees (exprs_reports sees unknown es)).congr Iff.rfl (by simp)

theorem statements_reports (sees : s.Sees v) (unknown : v.isFunction? x = none) :
    ∀ ts : List Statement, Reports x (s.statementsErrors ts) (x ∈ Statement.exposedAll v ts)
      (.variable x ∈ Statement.occurrencesAll ts)
  | [] => by
    rw [statementsErrors, Statement.exposedAll, Statement.occurrencesAll]
    exact Reports.nothing.congr (by simp) (by simp)
  | t :: ts => by
    rw [statementsErrors, Statement.exposedAll, Statement.occurrencesAll]
    exact ((statement_reports sees unknown t).append (statements_reports sees unknown ts)).congr
      List.mem_append List.mem_append.mp

end

end Scope

/-! ## Declarations one after another -/

/-- The occurrences in a declaration, be it a variable or a function. -/
def Declaration.mentions (d : Declaration) : List Occurrence :=
  d.occurrences ++ (vars [d]).occurrences

theorem Declaration.mem_mentions {ds : List Declaration} {o : Occurrence} :
    o ∈ occurrencesAll ds ++ (vars ds).occurrences ↔ ∃ d ∈ ds, o ∈ d.mentions := by
  induction ds with
  | nil => simp [occurrencesAll, vars, Variables.occurrences]
  | cons d ds ih =>
    have whole : (vars (d :: ds)).occurrences
        = (vars [d]).occurrences ++ (vars ds).occurrences := by
      rw [Variables.occurrences, Variables.occurrences, Variables.occurrences,
        ← List.flatMap_append, ← vars_append, List.singleton_append]
    rw [List.exists_mem_cons_iff, ← ih, mentions, occurrencesAll, whole]
    simp only [List.mem_append]
    tauto

namespace Scope

variable {s : Scope} {v : View} {x : String} {own : List String} {tops : List Declaration}
  {g t : Table} {names : String → Option Bool}

section DeclareAll

variable {κ : Type} {declare : κ → Declaration → κ × List ScopeError} {k : κ}
  {ds : List Declaration} {P : List Declaration → Declaration → Prop}

/-- Each declaration is checked with what those before it make known. -/
theorem declareAll_reports
    (h : ∀ pre d post, ds = pre ++ d :: post →
      Reports x (declare (declareAll declare k pre).1 d).2 (P pre d) (.variable x ∈ d.mentions)) :
    Reports x (declareAll declare k ds).2 (Somewhere P ds)
      (∃ d ∈ ds, .variable x ∈ d.mentions) := by
  induction ds using List.reverseRecOn with
  | nil => exact Reports.nothing.congr (by simp [Somewhere]) (by simp)
  | append_singleton ds d ih =>
    obtain ⟨before, last⟩ := Declaration.forall_split_snoc.mp h
    rw [declareAll_append, declareAll_one]
    refine ((ih before).append last).congr Declaration.somewhere_snoc ?_
    simp [or_and_right, exists_or]

end DeclareAll

theorem declareVariable_reads (h : s.table.Reads names) (y : String) (e : Option Expr) :
    (declareVariable s y e).1.table.Reads (withName names y false) ∧
      (declareVariable s y e).1.outer = s.outer := by
  unfold declareVariable
  by_cases taken : s.table.has y = true
  · simp only [taken, if_true]
    exact ⟨h.taken taken _, trivial⟩
  · simp only [taken, Bool.false_eq_true, if_false]
    exact ⟨Table.Reads.register (t := s.table.allocate.2) h _, trivial⟩

/-- The initializer of a variable is looked at unless its name is taken. -/
theorem declareVariable_reports (h : s.table.Reads names) {y : String} {e : Option Expr}
    (sees : (declareVariable s y e).1.Sees v) (unknown : v.isFunction? x = none) :
    Reports x (declareVariable s y e).2 (names y = none ∧ ∃ i, e = some i ∧ x ∈ i.exposed v)
      (.variable x ∈ (Declaration.variable y e).mentions) := by
  by_cases taken : s.table.has y = true
  · have errors : (declareVariable s y e).2 = [.duplicateVariable y s.table.name] := by
      simp [declareVariable, taken]
    have some : names y ≠ none := by rw [← Option.isSome_iff_ne_none, ← h.has, taken]
    rw [errors]
    exact Reports.hidden rfl (by simp [some])
  · have errors : (declareVariable s y e).2
        = (e.map (declareVariable s y e).1.exprErrors).getD [] := by
      simp [declareVariable, taken]
    have free : names y = none := by
      rw [← Option.not_isSome_iff_eq_none, ← h.has]
      exact taken
    rw [errors]
    cases e with
    | none =>
      have mentions : (Declaration.variable y none).mentions = [] := rfl
      exact Reports.nothing.congr (by simp) (by simp [mentions])
    | some i =>
      have mentions : (Declaration.variable y (some i)).mentions = i.occurrences :=
        List.append_nil _
      rw [mentions]
      exact (expr_reports sees unknown i).congr (by simp [free]) id

theorem declareParameters_reads (qs own : List String)
    (h : t.Reads (View.isFunction? ⟨own, []⟩)) :
    (declareParameters t qs).1.Reads (View.isFunction? ⟨own ++ qs, []⟩) := by
  induction qs generalizing t own with
  | nil => simpa [declareParameters] using h
  | cons q qs ih =>
    rw [List.append_cons]
    by_cases taken : t.has q = true
    · rw [declareParameters_taken qs taken]
      apply ih
      rw [View.isFunction?_own]
      exact h.taken taken false
    · rw [declareParameters_fresh qs (by simpa using taken)]
      apply ih
      rw [View.isFunction?_own]
      exact Table.Reads.register (t := t.allocate.2) h _

theorem declareParameters_other {qs : List String} :
    .undeclaredVariable x ∉ (declareParameters t qs).2 := by
  induction qs generalizing t with
  | nil => simp [declareParameters]
  | cons q qs ih =>
    by_cases taken : t.has q = true
    · simp [declareParameters_taken qs taken, ih]
    · rw [declareParameters_fresh qs (by simpa using taken)]
      exact ih

theorem declareLocals_reads (ds : List Declaration)
    (h : s.table.Reads (View.isFunction? ⟨own, []⟩)) :
    (declareAll declareLocal s ds).1.table.Reads (View.isFunction? ⟨own ++ (vars ds).names, []⟩) ∧
      (declareAll declareLocal s ds).1.outer = s.outer := by
  induction ds using List.reverseRecOn with
  | nil => simpa [declareAll, vars] using h
  | append_singleton ds d ih =>
    rw [declareAll_append, declareAll_one]
    cases d with
    | function f qs inner ss => simpa [declareLocal, Declaration.vars_append, vars] using ih
    | «variable» y e =>
      obtain ⟨reads, outer⟩ := declareVariable_reads ih.1 y e
      rw [Declaration.vars_snoc, ← List.append_assoc, View.isFunction?_own]
      exact ⟨reads, outer.trans ih.2⟩

theorem declareLocals_reports {ps : List String} {ds : List Declaration}
    (h : s.table.Reads (View.isFunction? ⟨ps, []⟩)) (ho : s.outer = [g])
    (hg : g.Reads (View.isFunction? ⟨[], tops⟩)) (own : x ∉ ps ++ declaredAll ds)
    (top : x ∉ tops.map Declaration.name) :
    Reports x (declareAll declareLocal s ds).2
      (Somewhere (Declaration.ExposesInside x tops ps) ds)
      (∃ d ∈ ds, .variable x ∈ d.mentions) := by
  refine declareAll_reports fun pre d post hds => ?_
  obtain ⟨reads, outer⟩ := declareLocals_reads pre h
  cases d with
  | function f qs inner ss => exact Reports.hidden rfl id
  | «variable» y e =>
    obtain ⟨further, outer'⟩ := declareVariable_reads reads y e
    rw [← View.isFunction?_own] at further
    have sees := sees_inside further (outer'.trans (outer.trans ho)) hg
    have unknown : View.isFunction? ⟨ps ++ (vars pre).names ++ [y], tops⟩ x = none := by
      refine View.isFunction?_none.mpr ⟨fun known => own ?_, top⟩
      rw [List.append_assoc, ← Declaration.vars_snoc (e := e)] at known
      rw [hds, List.append_cons, Declaration.declaredAll_append, ← List.append_assoc]
      apply List.mem_append_left
      exact List.mem_append.mpr ((List.mem_append.mp known).imp_right (Declaration.vars_subset ·))
    refine (declareVariable_reports reads sees unknown).congr ?_ id
    rw [View.isFunction?_none]
    simp [Declaration.ExposesInside]

theorem functionTable_reports {f : String} {ps : List String} {ds : List Declaration}
    {ss : List Statement} (hg : g.Reads (View.isFunction? ⟨[], tops⟩))
    (own : x ∉ ps ++ declaredAll ds) (top : x ∉ tops.map Declaration.name) :
    Reports x (functionTable g f ps ds ss).2
      (Somewhere (Declaration.ExposesInside x tops ps) ds ∨
        x ∈ Statement.exposedAll ⟨ps ++ (vars ds).names, tops⟩ ss)
      ((∃ d ∈ ds, .variable x ∈ d.mentions) ∨ .variable x ∈ Statement.occurrencesAll ss) := by
  have parameters : (declareParameters (Table.empty f) ps).1.Reads
      (View.isFunction? ⟨ps, []⟩) := declareParameters_reads ps [] fun y => rfl
  have declarations := declareLocals_reports (s := ⟨_, [g]⟩) parameters rfl hg own top
  obtain ⟨reads, outer⟩ := declareLocals_reads (s := ⟨_, [g]⟩) ds parameters
  have unknown : View.isFunction? ⟨ps ++ (vars ds).names, tops⟩ x = none := by
    refine View.isFunction?_none.mpr ⟨fun known => own ?_, top⟩
    exact List.mem_append.mpr ((List.mem_append.mp known).imp_right (Declaration.vars_subset ·))
  have statements := statements_reports (sees_inside reads outer hg) unknown ss
  simp only [functionTable, List.append_assoc]
  exact (declarations.append statements).beside declareParameters_other

theorem known_reads (ds : List Declaration) :
    (known ds).globals.Reads (View.isFunction? ⟨[], ds⟩) := by
  induction ds using List.reverseRecOn with
  | nil => exact fun f => rfl
  | append_singleton ds d ih =>
    rw [known_snoc, View.isFunction?_declare]
    cases d with
    | «variable» y e => exact (declareVariable_reads (s := ofTable _) ih y e).1
    | function f ps inner ss =>
      unfold declareGlobal declareFunction
      by_cases taken : (known ds).globals.has f = true
      · simp only [taken, if_true]
        exact ih.taken taken true
      · simp only [taken, Bool.false_eq_true, if_false]
        exact (ih.register { name := f, meaning := .function ps }).setSlotCount f _

theorem declareGlobal_reports {ds : List Declaration} {d : Declaration}
    (nowhere : x ∉ declaredAll (ds ++ [d])) :
    Reports x (declareGlobal (known ds) d).2 (Declaration.Exposes x ds d)
      (.variable x ∈ d.mentions) := by
  have reads := known_reads ds
  have top : x ∉ (ds ++ [d]).map Declaration.name := fun h => nowhere (Declaration.names_subset h)
  cases d with
  | «variable» y e =>
    obtain ⟨further, outer⟩ := declareVariable_reads (s := ofTable _) reads y e
    have whole : (declareVariable (ofTable (known ds).globals) y e).1
        = ofTable (declareVariable (ofTable (known ds).globals) y e).1.table :=
      congrArg (Scope.mk _) outer
    have sees : (declareVariable (ofTable (known ds).globals) y e).1.Sees
        ⟨[], ds ++ [.variable y e]⟩ := by
      rw [whole]
      apply sees_top
      rw [View.isFunction?_declare]
      exact further
    have unknown : View.isFunction? ⟨[], ds ++ [.variable y e]⟩ x = none :=
      View.isFunction?_none.mpr ⟨List.not_mem_nil, top⟩
    refine (declareVariable_reports (s := ofTable _) reads sees unknown).congr ?_ id
    rw [View.isFunction?_none]
    simp [Declaration.Exposes]
  | function f ps inner ss =>
    have own : x ∉ ps ++ declaredAll inner := by
      intro h
      apply nowhere
      rw [Declaration.declaredAll_append]
      simp [declaredAll, Declaration.declared, List.mem_append.mp h]
    have taken_iff : (known ds).globals.has f = true ↔ f ∈ ds.map Declaration.name := by
      rw [reads.has, Option.isSome_iff_ne_none, ne_eq, View.isFunction?_none]
      simp
    unfold declareGlobal declareFunction
    by_cases taken : f ∈ ds.map Declaration.name
    · simp only [taken_iff.mpr taken, if_true]
      exact Reports.hidden rfl (by simp [Declaration.Exposes, taken])
    · have free : (known ds).globals.has f = false := by
        rw [← Bool.not_eq_true, taken_iff]
        exact taken
      simp only [free, Bool.false_eq_true, if_false]
      have further := reads.register { name := f, meaning := .function ps }
      have declared := @View.isFunction?_declare ds (.function f ps inner ss)
      refine (functionTable_reports (declared ▸ further) own top).congr
        (by simp [Declaration.Exposes, taken]) fun h => ?_
      rw [← Declaration.mem_mentions]
      simpa [Declaration.mentions, Declaration.occurrences, vars, Variables.occurrences,
        or_assoc] using h

end Scope

/-! ## Programs -/

theorem Program.analyze_errors {p : Program} {es : List ScopeError}
    (failed : p.analyze = .error es) :
    es = (Scope.declareAll Scope.declareGlobal {} p.declarations).2
      ++ (Scope.ofTable (Scope.known p.declarations).globals).statementsErrors p.statements := by
  unfold Program.analyze at failed
  dsimp only at failed
  split at failed
  · cases failed
  · exact (Except.error.inj failed).symm

theorem Program.reports {p : Program} {es : List ScopeError} (failed : p.analyze = .error es)
    {x : String} (nowhere : x ∉ declaredAll p.declarations) :
    Reports x es (p.Exposes x) (.variable x ∈ p.occurrences) := by
  have declarations : Reports x (Scope.declareAll Scope.declareGlobal {} p.declarations).2
      (Somewhere (Declaration.Exposes x) p.declarations)
      (∃ d ∈ p.declarations, .variable x ∈ d.mentions) := by
    refine Scope.declareAll_reports fun pre d post hp => Scope.declareGlobal_reports ?_
    rw [hp, List.append_cons, Declaration.declaredAll_append] at nowhere
    exact fun h => nowhere (List.mem_append_left _ h)
  have unknown : View.isFunction? ⟨[], p.declarations⟩ x = none :=
    View.isFunction?_none.mpr
      ⟨List.not_mem_nil, fun h => nowhere (Declaration.names_subset h)⟩
  have statements := Scope.statements_reports (Scope.sees_top (Scope.known_reads _)) unknown
    p.statements
  rw [analyze_errors failed]
  refine (declarations.append statements).congr Iff.rfl fun h => ?_
  rw [← Declaration.mem_mentions, ← List.mem_append, List.append_assoc]
  exact h

/-- A variable that is declared nowhere is reported exactly if it occurs where the check looks.
Occurrences elsewhere come with an error that hides them. -/
theorem undeclared_reported {p : Program} {es : List ScopeError} (failed : p.analyze = .error es)
    {x : String} (nowhere : x ∉ declaredAll p.declarations) :
    (.undeclaredVariable x ∈ es ↔ p.Exposes x) ∧
      (.variable x ∈ p.occurrences → .undeclaredVariable x ∈ es ∨ ∃ e ∈ es, e.hides = true) :=
  have reports := Program.reports failed nowhere
  ⟨reports.reported, reports.accounted⟩

/-- Passes a variable to what is declared nowhere, and prints another one. -/
def strayNames : Program := ⟨[], [.call "g" [.var "$w"], .echo (.var "$u")]⟩

theorem strayNames_printed : strayNames.analyze
      = .error [.undeclaredFunction "g", .undeclaredVariable "$u"] ∧
    "$u" ∉ declaredAll strayNames.declarations ∧
    (.undeclaredVariable "$u" ∈ [.undeclaredFunction "g", ScopeError.undeclaredVariable "$u"] ↔
      strayNames.Exposes "$u") ∧
    (.variable "$u" ∈ strayNames.occurrences →
      .undeclaredVariable "$u" ∈ [.undeclaredFunction "g", ScopeError.undeclaredVariable "$u"] ∨
        ∃ e ∈ [.undeclaredFunction "g", ScopeError.undeclaredVariable "$u"], e.hides = true) :=
  ⟨rfl, by decide, undeclared_reported rfl (by decide)⟩

/-- Not every variable that is declared nowhere is reported. -/
theorem strayNames_passed : ¬ ∀ (p : Program) (es : List ScopeError) (x : String),
    p.analyze = .error es → x ∉ declaredAll p.declarations → .variable x ∈ p.occurrences →
      .undeclaredVariable x ∈ es := by
  intro reported
  have occurs : .variable "$w" ∈ strayNames.occurrences :=
    List.mem_cons_of_mem _ List.mem_cons_self
  have both := reported strayNames [.undeclaredFunction "g", .undeclaredVariable "$u"] "$w" rfl
    (by decide) occurs
  exact absurd both (by decide)

end FlatStack
