import FlatStack.Program.Basic
import Mathlib

/-!
# Parts of programs

A routine is a function without the functions inside it. What a program calls
and what it assigns is collected from its expressions and statements. The
arguments of a call are left aside, since only variables can be passed.
-/

set_option autoImplicit false

namespace FlatStack

structure Routine where
  name : String
  parameters : List String
  vars : Variables
  statements : List Statement

/-- A callee with the number of arguments it is given. -/
abbrev Use := String × Nat

namespace Expr

def calls : Expr → List Use
  | .number _ | .var _ | .read => []
  | .unary _ e => e.calls
  | .binary _ l r => l.calls ++ r.calls
  | .call callee arguments => [(callee, arguments.length)]

end Expr

namespace Statement

mutual

def calls : Statement → List Use
  | .echo e | .assign _ e => e.calls
  | .ifThen c body | .loop c body => c.calls ++ callsAll body
  | .ifElse c body otherwise => c.calls ++ callsAll body ++ callsAll otherwise
  | .call callee arguments => [(callee, arguments.length)]

def callsAll : List Statement → List Use
  | [] => []
  | s :: ss => s.calls ++ callsAll ss

end

mutual

/-- The names of the variables that a statement may assign. -/
def assigned : Statement → List String
  | .echo _ | .call .. => []
  | .assign name _ => [name]
  | .ifThen _ body | .loop _ body => assignedAll body
  | .ifElse _ body otherwise => assignedAll body ++ assignedAll otherwise

def assignedAll : List Statement → List String
  | [] => []
  | s :: ss => s.assigned ++ assignedAll ss

end

end Statement

namespace Variables

def names (vars : Variables) : List String := vars.map (·.1)

/-- The calls in initializers. -/
def calls (vars : Variables) : List Use :=
  vars.flatMap fun v => (v.2.map Expr.calls).getD []

variable {vars more : Variables} {name : String} {e : Expr}

@[simp] theorem names_nil : names [] = [] := rfl

@[simp] theorem names_cons (v : String × Option Expr) :
    names (v :: vars) = v.1 :: names vars := rfl

@[simp] theorem names_append : names (vars ++ more) = names vars ++ names more := by
  simp [names]

@[simp] theorem length_names : (names vars).length = vars.length := by simp [names]

@[simp] theorem calls_nil : calls [] = [] := rfl

@[simp] theorem calls_none : calls ((name, none) :: vars) = calls vars := rfl

@[simp] theorem calls_some : calls ((name, some e) :: vars) = e.calls ++ calls vars := rfl

@[simp] theorem calls_append : calls (vars ++ more) = calls vars ++ calls more := by
  simp [calls]

theorem mem_initializers {α : Type} {collect : Expr → List α} {u : α} :
    u ∈ vars.flatMap (fun v => (v.2.map collect).getD []) ↔
      ∃ x e, (x, some e) ∈ vars ∧ u ∈ collect e := by
  rw [List.mem_flatMap]
  constructor
  · rintro ⟨⟨x, _ | e⟩, hv, hu⟩
    · simp at hu
    · exact ⟨x, e, hv, hu⟩
  · rintro ⟨x, e, hv, hu⟩
    exact ⟨(x, some e), hv, hu⟩

end Variables

namespace Routine

/-- The names that the slots of a routine have, in their order. -/
def names (r : Routine) : List String := r.parameters ++ r.vars.names

/-- How many slots a routine has. -/
def slots (r : Routine) : Nat := r.parameters.length + r.vars.length

theorem length_names (r : Routine) : r.names.length = r.slots := by simp [names, slots]

def calls (r : Routine) : List Use := r.vars.calls ++ Statement.callsAll r.statements

end Routine

namespace Declaration

/-- The functions among declarations. -/
def routines : List Declaration → List Routine
  | [] => []
  | .variable .. :: ds => routines ds
  | .function name parameters declarations statements :: ds =>
    ⟨name, parameters, vars declarations, statements⟩ :: routines ds

variable {ds es : List Declaration}

theorem vars_append : vars (ds ++ es) = vars ds ++ vars es := by
  induction ds with
  | nil => rfl
  | cons d ds ih => cases d <;> simp [vars, ih]

theorem routines_append : routines (ds ++ es) = routines ds ++ routines es := by
  induction ds with
  | nil => rfl
  | cons d ds ih => cases d <;> simp [routines, ih]

/-- A call fits one of the functions among declarations. -/
def Declares (ds : List Declaration) (u : Use) : Prop :=
  ∃ r ∈ routines ds, r.name = u.1 ∧ r.parameters.length = u.2

theorem Declares.append {u : Use} (h : Declares ds u) : Declares (ds ++ es) u := by
  obtain ⟨r, hr, fits⟩ := h
  exact ⟨r, by simp [routines_append, hr], fits⟩

theorem mem_routines {pre post inner : List Declaration} {f : String} {ps : List String}
    {ss : List Statement} (h : ds = pre ++ .function f ps inner ss :: post) :
    ⟨f, ps, vars inner, ss⟩ ∈ routines ds := by
  rw [h, routines_append]
  exact List.mem_append_right _ List.mem_cons_self

theorem routine_split {r : Routine} (h : r ∈ routines ds) :
    ∃ pre ps inner ss post, ds = pre ++ .function r.name ps inner ss :: post ∧
      r = ⟨r.name, ps, vars inner, ss⟩ := by
  induction ds with
  | nil => simp [routines] at h
  | cons d ds ih =>
    cases d with
    | «variable» x e =>
      obtain ⟨pre, ps, inner, ss, post, rfl, hr⟩ := ih h
      exact ⟨.variable x e :: pre, ps, inner, ss, post, rfl, hr⟩
    | function f ps inner ss =>
      rcases List.mem_cons.mp h with rfl | h
      · exact ⟨[], ps, inner, ss, ds, rfl, rfl⟩
      · obtain ⟨pre, ps', inner', ss', post, rfl, hr⟩ := ih h
        exact ⟨.function f ps inner ss :: pre, ps', inner', ss', post, rfl, hr⟩

theorem vars_split {ds : List Declaration} {earlier later : Variables}
    {v : String × Option Expr} (h : vars ds = earlier ++ v :: later) :
    ∃ pre post, ds = pre ++ .variable v.1 v.2 :: post ∧ vars pre = earlier ∧
      vars post = later := by
  induction ds generalizing earlier with
  | nil => simp [vars] at h
  | cons d ds ih =>
    cases d with
    | function f ps inner ss =>
      obtain ⟨pre, post, rfl, rfl, rfl⟩ := ih h
      exact ⟨.function f ps inner ss :: pre, post, rfl, rfl, rfl⟩
    | «variable» x e =>
      cases earlier with
      | nil =>
        rw [vars, List.nil_append, List.cons.injEq] at h
        obtain ⟨rfl, rfl⟩ := h
        exact ⟨[], ds, rfl, rfl, rfl⟩
      | cons w earlier =>
        rw [vars, List.cons_append, List.cons.injEq] at h
        obtain ⟨rfl, h⟩ := h
        obtain ⟨pre, post, rfl, rfl, rfl⟩ := ih h
        exact ⟨.variable x e :: pre, post, rfl, rfl, rfl⟩

end Declaration

namespace Body

def vars (p : Body) : Variables := Declaration.vars p.declarations

def routines (p : Body) : List Routine := Declaration.routines p.declarations

/-- The calls outside functions. -/
def calls (p : Body) : List Use := p.vars.calls ++ Statement.callsAll p.statements

end Body

def Program.routine? (p : Program) (name : String) : Option Routine :=
  p.routines.find? fun q => q.name == name

end FlatStack
