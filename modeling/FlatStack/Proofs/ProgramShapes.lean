import FlatStack.Proofs.Drawn
import FlatStack.Proofs.ParserExactness
import FlatStack.Proofs.Undeclared

/-!
# Shapes of programs

The tree of a program has room for more than the grammar derives. What comes
from a source text has functions at top level only, declares each variable of a
body once, keeps logic inside of conditions, and its names tell variables from
functions: the former begin with a dollar sign. So some errors of the scope
check are never met.
-/

set_option autoImplicit false

namespace FlatStack

open Declaration (vars)

/-! ## Shapes -/

/-- A name of a variable. -/
def Sigiled (x : String) : Prop := x.toList.head? = some '$'

instance (x : String) : Decidable (Sigiled x) := inferInstanceAs (Decidable (_ = _))

namespace UnaryOp

def isLogical : UnaryOp → Bool
  | .neg => false
  | .not => true

end UnaryOp

namespace BinaryOp

/-- Comparisons and connectives. -/
def isLogical : BinaryOp → Bool
  | .compare _ | .and | .or => true
  | .add | .sub | .mul | .div => false

end BinaryOp

namespace Expr

mutual

/-- Names are of the kind that their places need, and logic is used only if it is allowed. It is
not in arguments. -/
def Shaped (logic : Bool) : Expr → Prop
  | .number _ | .read => True
  | .var x => Sigiled x
  | .unary op e => (op.isLogical → logic) ∧ Shaped logic e
  | .binary op l r => (op.isLogical → logic) ∧ Shaped logic l ∧ Shaped logic r
  | .call f es => ¬ Sigiled f ∧ ShapedAll es

def ShapedAll : List Expr → Prop
  | [] => True
  | e :: es => Shaped false e ∧ ShapedAll es

end

end Expr

namespace Statement

mutual

/-- Logic is used in conditions only. -/
def Shaped : Statement → Prop
  | .echo e => e.Shaped false
  | .assign x e => Sigiled x ∧ e.Shaped false
  | .ifThen c body | .loop c body => c.Shaped true ∧ ShapedAll body
  | .ifElse c body otherwise => c.Shaped true ∧ ShapedAll body ∧ ShapedAll otherwise
  | .call f es => ¬ Sigiled f ∧ Expr.ShapedAll es

def ShapedAll : List Statement → Prop
  | [] => True
  | s :: ss => Shaped s ∧ ShapedAll ss

end

end Statement

/-- Variables of a body, declared once each. -/
structure Variables.Shaped (vs : Variables) : Prop where
  distinct : vs.names.Nodup
  names : ∀ x ∈ vs.names, Sigiled x
  initializers : ∀ v ∈ vs, ∀ e ∈ v.2, e.Shaped false

/-- The parts of a function, which declares no function. -/
structure FunctionShaped (f : String) (ps : List String) (inner : List Declaration)
    (ss : List Statement) : Prop where
  name : ¬ Sigiled f
  parameters : ∀ x ∈ ps, Sigiled x
  flat : ∀ d ∈ inner, d.isFunction = false
  vars : (vars inner).Shaped
  statements : Statement.ShapedAll ss

structure Program.Shaped (p : Program) : Prop where
  vars : p.vars.Shaped
  functions : ∀ f ps inner ss, .function f ps inner ss ∈ p.declarations →
    FunctionShaped f ps inner ss
  statements : Statement.ShapedAll p.statements

theorem Expr.shapedAll_iff {es : List Expr} : ShapedAll es ↔ ∀ e ∈ es, e.Shaped false := by
  induction es with
  | nil => simp [ShapedAll]
  | cons e es ih => rw [ShapedAll, List.forall_mem_cons, ih]

theorem Statement.shapedAll_iff {ss : List Statement} : ShapedAll ss ↔ ∀ s ∈ ss, s.Shaped := by
  induction ss with
  | nil => simp [ShapedAll]
  | cons s ss ih => rw [ShapedAll, List.forall_mem_cons, ih]

theorem Expr.Shaped.widen : ∀ {e : Expr}, e.Shaped false → ∀ logic, e.Shaped logic
  | .number _, _, _ | .read, _, _ => trivial
  | .var _, h, _ => h
  | .unary _ _, h, _ => ⟨fun logical => (Bool.false_ne_true (h.1 logical)).elim, h.2.widen _⟩
  | .binary _ _ _, h, _ =>
    ⟨fun logical => (Bool.false_ne_true (h.1 logical)).elim, h.2.1.widen _, h.2.2.widen _⟩
  | .call _ _, h, _ => h

/-! ## Names of tokens -/

namespace Token

/-- A name with a dollar sign has it in front only. -/
def Kind.Sigils : Kind → Prop
  | .variable x => ∃ cs, x.toList = '$' :: cs ∧ '$' ∉ cs
  | .identifier f => ¬ Sigiled f
  | _ => True

theorem sigils_wordKind {word : String} (h : ¬ Sigiled word) : (wordKind word).Sigils := by
  unfold wordKind
  split
  · trivial
  · exact h

theorem sigils_lexeme (c : Char) (cs : List Char) : (lexeme c cs).1.Sigils := by
  unfold lexeme orEqual pair
  split <;> (try split) <;> (try split) <;> (try trivial)
  · refine ⟨_, String.toList_ofList, fun sign => ?_⟩
    exact absurd (List.mem_takeWhile_imp sign) (by decide)
  · rename_i start
    refine sigils_wordKind ?_
    rw [Sigiled, String.toList_ofList, List.head?_cons]
    rintro ⟨rfl⟩
    exact absurd start (by decide)

end Token

namespace Grammar

open FlatStack.Parser (dropSigil multiplicative? additive?)

theorem sigiled_of_sigils {x : String} (h : (Token.Kind.variable x).Sigils) : Sigiled x := by
  obtain ⟨cs, chars, -⟩ := h
  rw [Sigiled, chars, List.head?_cons]

theorem dropSigil_of_sigils {x : String} (h : (Token.Kind.variable x).Sigils) :
    ¬ Sigiled (dropSigil x) := by
  obtain ⟨cs, chars, free⟩ := h
  have rest : dropSigil x = String.ofList cs := by
    unfold dropSigil
    rw [chars]
    rfl
  rw [rest, Sigiled, String.toList_ofList]
  exact fun first => free (List.mem_of_head? first)

theorem arithmetic {k : Token.Kind} {op : BinaryOp}
    (h : multiplicative? k = some op ∨ additive? k = some op) : op.isLogical = false := by
  rcases h with h | h
  · unfold multiplicative? at h
    split at h <;> cases h <;> rfl
  · unfold additive? at h
    split at h <;> cases h <;> rfl

theorem closed_shaped : Closed Token.Kind.Sigils (Expr.Shaped false) (Expr.Shaped true)
    Statement.Shaped where
  var := sigiled_of_sigils
  number _ := trivial
  call name es := ⟨name, Expr.shapedAll_iff.mpr es⟩
  read := trivial
  neg h := ⟨by simp [UnaryOp.isLogical], h⟩
  product op l r := ⟨by simp [arithmetic (.inl op)], l, r⟩
  sum op l r := ⟨by simp [arithmetic (.inr op)], l, r⟩
  plain h := h.widen true
  compare l r := ⟨fun _ => rfl, l, r.widen true⟩
  not h := ⟨fun _ => rfl, h⟩
  both l r := ⟨fun _ => rfl, l, r⟩
  either l r := ⟨fun _ => rfl, l, r⟩
  groupProduct op l r := ⟨fun _ => rfl, l, r.widen true⟩
  groupSum op l r := ⟨fun _ => rfl, l, r.widen true⟩
  echo h := h
  assign name h := ⟨sigiled_of_sigils name, h⟩
  ifThen c ss := ⟨c, Statement.shapedAll_iff.mpr ss⟩
  ifElse c ss os := ⟨c, Statement.shapedAll_iff.mpr ss, Statement.shapedAll_iff.mpr os⟩
  loop c ss := ⟨c, Statement.shapedAll_iff.mpr ss⟩
  routine name es := ⟨name, Expr.shapedAll_iff.mpr es⟩
  sigil name es := ⟨dropSigil_of_sigils name, Expr.shapedAll_iff.mpr es⟩

/-! ## Declarations of a body -/

variable {F : Reading Declaration} {declared : List String} {ds : List Declaration}
  {ts rest : List Token}

/-- A body goes on to declare only what it has not declared. -/
theorem declarations_distinct (h : Declarations F declared ds ts rest)
    (functions : ∀ d us vs, F d us vs → d.isFunction = true) :
    (vars ds).names.Nodup ∧ ∀ x ∈ (vars ds).names, x ∉ declared := by
  induction h with
  | none => simp [vars]
  | @more _ d _ _ _ _ first _ ih =>
    obtain ⟨distinct, fresh⟩ := ih
    cases first with
    | «variable» new =>
      refine ⟨List.nodup_cons.mpr ⟨fun again => ?_, distinct⟩, List.forall_mem_cons.mpr ⟨new, ?_⟩⟩
      · exact fresh _ again List.mem_cons_self
      · exact fun y hy old => fresh y hy (List.mem_cons_of_mem _ old)
    | function h =>
      cases d with
      | «variable» => exact absurd (functions _ _ _ h) Bool.false_ne_true
      | function => exact ⟨distinct, fresh⟩

theorem declarations_functions (h : Declarations F declared ds ts rest) {f : String}
    {ps : List String} {inner : List Declaration} {ss : List Statement}
    (hf : .function f ps inner ss ∈ ds) : ∃ us vs, F (.function f ps inner ss) us vs := by
  induction h with
  | none => simp at hf
  | more first _ ih =>
    rcases List.mem_cons.mp hf with rfl | hf
    · cases first with
      | function h => exact ⟨_, _, h⟩
    · exact ih hf

theorem mem_vars {v : String × Option Expr} (h : v ∈ vars ds) : .variable v.1 v.2 ∈ ds := by
  obtain ⟨earlier, later, split⟩ := List.append_of_mem h
  obtain ⟨pre, post, rfl, -⟩ := Declaration.vars_split split
  simp

/-- Variables that come from tokens. -/
theorem vars_shaped (distinct : (vars ds).names.Nodup)
    (drawn : ∀ x e, .variable x e ∈ ds →
      DrawnVariable Token.Kind.Sigils (Expr.Shaped false) (.variable x e)) :
    (vars ds).Shaped := by
  refine ⟨distinct, fun x hx => ?_, fun v hv => (drawn _ _ (mem_vars hv)).2⟩
  obtain ⟨v, hv, rfl⟩ := List.mem_map.mp hx
  exact sigiled_of_sigils (drawn _ _ (mem_vars hv)).1

theorem function_shaped {f : String} {ps : List String} {inner : List Declaration}
    {ss : List Statement} (h : Function (.function f ps inner ss) ts rest)
    (drawn : Drawn Token.Kind.Sigils (Expr.Shaped false) Statement.Shaped
      (.function f ps inner ss)) : FunctionShaped f ps inner ss := by
  obtain ⟨name, parameters, variables', statements⟩ := drawn
  have distinct : (vars inner).names.Nodup := by
    cases h with
    | mk _ _ _ body _ =>
      obtain ⟨declarations, -⟩ := body
      exact (declarations_distinct declarations fun _ _ _ none => none.elim).1
  refine ⟨name, fun x hx => sigiled_of_sigils (parameters x hx), fun d hd => ?_,
    vars_shaped distinct fun x e hx => variables' _ hx, Statement.shapedAll_iff.mpr statements⟩
  have drawn := variables' d hd
  cases d with
  | «variable» => rfl
  | function => exact drawn.elim

theorem shaped_of_derives {p : Program} (h : Derives ts p)
    (sigils : AllKinds Token.Kind.Sigils ts) : p.Shaped := by
  obtain ⟨drawn, statements⟩ := derives_draws closed_shaped h sigils
  obtain ⟨us, vs, -, ⟨declarations, -⟩, -⟩ := h
  have isFunction : ∀ d us vs, Function d us vs → d.isFunction = true := by
    rintro _ _ _ ⟨⟩
    rfl
  refine ⟨vars_shaped (declarations_distinct declarations isFunction).1 fun x e hx => drawn _ hx,
    fun f ps inner ss hf => ?_, Statement.shapedAll_iff.mpr statements⟩
  obtain ⟨us, vs, function⟩ := declarations_functions declarations hf
  exact function_shaped function (drawn _ hf)

end Grammar

namespace Declaration

variable {ds pre post : List Declaration} {x : String} {e : Option Expr}

theorem names_split (hds : ds = pre ++ .variable x e :: post) :
    (vars ds).names = (vars pre).names ++ x :: (vars post).names := by
  simp [hds, vars_append, vars]

theorem vars_split_mem (hds : ds = pre ++ .variable x e :: post) : (x, e) ∈ vars ds := by
  simp [hds, vars_append, vars]

end Declaration

/-! ## Errors of the scope check -/

namespace ScopeError

/-- Errors that are found in what uses names. -/
def OfUse : ScopeError → Prop
  | .undeclaredVariable _ | .undeclaredFunction _ | .argumentCount .. => True
  | _ => False

/-- Errors that a program from a source text may have. A variable is declared twice only if it
repeats a parameter. -/
def Expected (p : Program) : ScopeError → Prop
  | .nestedFunction _ | .functionAsVariable _ | .notFunction _ => False
  | .duplicateVariable x f =>
    ∃ r ∈ p.routines, r.name = f ∧ x ∈ r.parameters ∧ x ∈ r.vars.names
  | _ => True

theorem OfUse.expected {p : Program} {e : ScopeError} (h : e.OfUse) : e.Expected p := by
  cases e <;> trivial

end ScopeError

/-- Names stand for what they look like. -/
def View.Sorted (v : View) : Prop := ∀ x b, v.isFunction? x = some b → (b = true ↔ ¬ Sigiled x)

theorem View.sorted_of {v : View} (own : ∀ x ∈ v.own, Sigiled x)
    (tops : ∀ d ∈ v.tops, d.isFunction = true ↔ ¬ Sigiled d.name) : v.Sorted := by
  intro x b found
  unfold isFunction? at found
  split at found
  · rename_i known
    cases found
    simp [own x known]
  · obtain ⟨d, hd, rfl⟩ := Option.map_eq_some_iff.mp found
    have name : d.name = x := by simpa using List.find?_some hd
    rw [tops d (List.mem_of_find?_eq_some hd), name]

namespace Scope

variable {s : Scope} {v : View}

theorem variableErrors_ofUse (sees : s.Sees v) (sorted : v.Sorted) {x : String} (h : Sigiled x) :
    ∀ e ∈ s.variableErrors x, e.OfUse := by
  unfold variableErrors
  split
  · simp [ScopeError.OfUse]
  · rename_i symbol found
    have seen : v.isFunction? x = some symbol.meaning.isFunction := by
      rw [← sees x, meaning?, found]
      rfl
    have plain : symbol.meaning.isFunction ≠ true :=
      fun function => (sorted x _ seen).mp function h
    simp [plain]

theorem callErrors_ofUse (sees : s.Sees v) (sorted : v.Sorted) {f : String} (h : ¬ Sigiled f)
    {n : Nat} {inner : List ScopeError} (arguments : ∀ e ∈ inner, e.OfUse) :
    ∀ e ∈ s.callErrors f n inner, e.OfUse := by
  unfold callErrors
  split
  · simp [ScopeError.OfUse]
  · rename_i symbol found
    have seen : v.isFunction? f = some symbol.meaning.isFunction := by
      rw [← sees f, meaning?, found]
      rfl
    have function := (sorted f _ seen).mpr h
    split
    · rw [List.forall_mem_append]
      refine ⟨?_, arguments⟩
      split <;> simp [ScopeError.OfUse]
    · rename_i other
      cases hm : symbol.meaning with
      | function ps => exact absurd hm (other ps)
      | «variable» | parameter =>
        rw [hm] at function
        cases function

mutual

theorem exprErrors_ofUse (sees : s.Sees v) (sorted : v.Sorted) {logic : Bool} : ∀ e : Expr,
    e.Shaped logic → ∀ err ∈ s.exprErrors e, err.OfUse
  | .number _, _ | .read, _ => by simp [exprErrors]
  | .var x, h => by
    rw [exprErrors]
    exact variableErrors_ofUse sees sorted h
  | .unary _ e, h => by
    rw [exprErrors]
    exact exprErrors_ofUse sees sorted e h.2
  | .binary _ l r, h => by
    rw [exprErrors, List.forall_mem_append]
    exact ⟨exprErrors_ofUse sees sorted l h.2.1, exprErrors_ofUse sees sorted r h.2.2⟩
  | .call f es, h => by
    rw [exprErrors]
    exact callErrors_ofUse sees sorted h.1 (exprsErrors_ofUse sees sorted es h.2)

theorem exprsErrors_ofUse (sees : s.Sees v) (sorted : v.Sorted) : ∀ es : List Expr,
    Expr.ShapedAll es → ∀ err ∈ s.exprsErrors es, err.OfUse
  | [], _ => by simp [exprsErrors]
  | e :: es, h => by
    rw [exprsErrors, List.forall_mem_append]
    exact ⟨exprErrors_ofUse sees sorted e h.1, exprsErrors_ofUse sees sorted es h.2⟩

end

mutual

theorem statementErrors_ofUse (sees : s.Sees v) (sorted : v.Sorted) : ∀ t : Statement,
    t.Shaped → ∀ err ∈ s.statementErrors t, err.OfUse
  | .echo e, h => by
    rw [statementErrors]
    exact exprErrors_ofUse sees sorted e h
  | .assign x e, h => by
    rw [statementErrors, List.forall_mem_append]
    exact ⟨variableErrors_ofUse sees sorted h.1, exprErrors_ofUse sees sorted e h.2⟩
  | .ifThen c body, h | .loop c body, h => by
    rw [statementErrors, List.forall_mem_append]
    exact ⟨exprErrors_ofUse sees sorted c h.1, statementsErrors_ofUse sees sorted body h.2⟩
  | .ifElse c body otherwise, h => by
    rw [statementErrors, List.forall_mem_append, List.forall_mem_append]
    exact ⟨⟨exprErrors_ofUse sees sorted c h.1, statementsErrors_ofUse sees sorted body h.2.1⟩,
      statementsErrors_ofUse sees sorted otherwise h.2.2⟩
  | .call f es, h => by
    rw [statementErrors]
    exact callErrors_ofUse sees sorted h.1 (exprsErrors_ofUse sees sorted es h.2)

theorem statementsErrors_ofUse (sees : s.Sees v) (sorted : v.Sorted) : ∀ ts : List Statement,
    Statement.ShapedAll ts → ∀ err ∈ s.statementsErrors ts, err.OfUse
  | [], _ => by simp [statementsErrors]
  | t :: ts, h => by
    rw [statementsErrors, List.forall_mem_append]
    exact ⟨statementErrors_ofUse sees sorted t h.1, statementsErrors_ofUse sees sorted ts h.2⟩

end

section DeclareAll

variable {κ : Type} {declare : κ → Declaration → κ × List ScopeError} {k : κ}
  {ds : List Declaration} {P : ScopeError → Prop}

theorem declareAll_errors (h : ∀ pre d post, ds = pre ++ d :: post →
    ∀ err ∈ (declare (declareAll declare k pre).1 d).2, P err) :
    ∀ err ∈ (declareAll declare k ds).2, P err := by
  induction ds using List.reverseRecOn with
  | nil => simp [declareAll]
  | append_singleton ds d ih =>
    obtain ⟨before, last⟩ := Declaration.forall_split_snoc.mp h
    rw [declareAll_append, declareAll_one, List.forall_mem_append]
    exact ⟨ih before, last⟩

end DeclareAll

variable {names : String → Option Bool} {p : Program} {tops ds : List Declaration} {g t : Table}

/-- A variable is checked only once, and then like any use of names. -/
theorem declareVariable_errors (reads : s.table.Reads names) {y : String} {e : Option Expr}
    (sees : (declareVariable s y e).1.Sees v) (sorted : v.Sorted)
    (shaped : ∀ i ∈ e, i.Shaped false) : ∀ err ∈ (declareVariable s y e).2,
      err.OfUse ∨ (names y ≠ none ∧ err = .duplicateVariable y s.table.name) := by
  by_cases taken : s.table.has y = true
  · have known : names y ≠ none := by rw [← Option.isSome_iff_ne_none, ← reads.has, taken]
    simp [declareVariable, taken, known]
  · have errors : (declareVariable s y e).2
        = (e.map (declareVariable s y e).1.exprErrors).getD [] := by
      simp [declareVariable, taken]
    rw [errors]
    cases e with
    | none => simp
    | some i => exact fun err herr => .inl (exprErrors_ofUse sees sorted i (shaped i rfl) err herr)

theorem declareParameters_errors (qs : List String) :
    ∀ err ∈ (declareParameters t qs).2, err.Expected p := by
  induction qs generalizing t with
  | nil => simp [declareParameters]
  | cons q qs ih =>
    by_cases taken : t.has q = true
    · rw [declareParameters_taken qs taken]
      exact List.forall_mem_cons.mpr ⟨trivial, ih⟩
    · rw [declareParameters_fresh qs (by simpa using taken)]
      exact ih

theorem register_name (t : Table) (symbol : Symbol) : (t.register symbol).name = t.name := by
  unfold Table.register Table.register?
  split <;> rfl

theorem declareVariable_name (s : Scope) (y : String) (e : Option Expr) :
    (declareVariable s y e).1.table.name = s.table.name := by
  unfold declareVariable
  split
  · rfl
  · exact register_name _ _

theorem declareParameters_name (t : Table) (qs : List String) :
    (declareParameters t qs).1.name = t.name := by
  induction qs generalizing t with
  | nil => rfl
  | cons q qs ih =>
    by_cases taken : t.has q = true
    · rw [declareParameters_taken qs taken]
      exact ih _
    · rw [declareParameters_fresh qs (by simpa using taken), ih]
      exact register_name _ _

theorem declareLocals_name (s : Scope) (ds : List Declaration) :
    (declareAll declareLocal s ds).1.table.name = s.table.name := by
  induction ds generalizing s with
  | nil => rfl
  | cons d ds ih =>
    cases d with
    | «variable» y e => exact (ih _).trans (declareVariable_name s y e)
    | function f ps inner ss => exact ih s

theorem functionTable_errors (hg : g.Reads (View.isFunction? ⟨[], tops⟩))
    (sorted : ∀ d ∈ tops, d.isFunction = true ↔ ¬ Sigiled d.name) {f : String} {ps : List String}
    {ss : List Statement} (shaped : FunctionShaped f ps ds ss)
    (hr : ⟨f, ps, vars ds, ss⟩ ∈ p.routines) :
    ∀ err ∈ (functionTable g f ps ds ss).2, err.Expected p := by
  have parameters : (declareParameters (Table.empty f) ps).1.Reads
      (View.isFunction? ⟨ps, []⟩) := declareParameters_reads ps [] fun y => rfl
  have inside : ∀ own : List String, (∀ x ∈ own, x ∈ ps ++ (vars ds).names) →
      View.Sorted ⟨own, tops⟩ := by
    intro own among
    refine View.sorted_of (fun x hx => ?_) sorted
    rcases List.mem_append.mp (among x hx) with h | h
    · exact shaped.parameters x h
    · exact shaped.vars.names x h
  obtain ⟨reads, outer⟩ := declareLocals_reads (s := ⟨_, [g]⟩) ds parameters
  have statements := statementsErrors_ofUse (sees_inside reads outer hg) (inside _ fun _ h => h) ss
    shaped.statements
  rw [functionTable, List.forall_mem_append, List.forall_mem_append]
  refine ⟨⟨declareParameters_errors ps, declareAll_errors fun pre d post hds => ?_⟩,
    fun err herr => (statements err herr).expected⟩
  obtain ⟨reads, outer⟩ := declareLocals_reads (s := ⟨_, [g]⟩) pre parameters
  cases d with
  | function h qs deeper ts =>
    have flat := shaped.flat (.function h qs deeper ts) (by simp [hds])
    cases flat
  | «variable» y e =>
    obtain ⟨further, outer'⟩ := declareVariable_reads reads y e
    rw [← View.isFunction?_own] at further
    have split := Declaration.names_split hds
    have among : ∀ x ∈ ps ++ (vars pre).names ++ [y], x ∈ ps ++ (vars ds).names := by
      intro x hx
      rw [split]
      simp only [List.mem_append, List.mem_cons, List.not_mem_nil, or_false] at hx ⊢
      tauto
    have errors := declareVariable_errors reads
      (sees_inside further (outer'.trans outer) hg) (inside _ among)
      (shaped.vars.initializers _ (Declaration.vars_split_mem hds))
    refine fun err herr => (errors err herr).elim ScopeError.OfUse.expected ?_
    rintro ⟨known, rfl⟩
    -- Own variables differ, so a name that is known already belongs to a parameter.
    have old : y ∈ ps ++ (vars pre).names := by
      by_contra new
      exact known (View.isFunction?_none.mpr ⟨new, by simp⟩)
    have distinct := shaped.vars.distinct
    rw [split] at distinct
    have parameter : y ∈ ps := (List.mem_append.mp old).resolve_right fun earlier =>
      List.disjoint_of_nodup_append distinct earlier List.mem_cons_self
    refine ⟨_, hr, ?_, parameter, by simp [split]⟩
    rw [declareLocals_name]
    exact (declareParameters_name (Table.empty f) ps).symm

end Scope

namespace Program.Shaped

variable {p : Program} {pre post : List Declaration} {x : String} {e : Option Expr}

theorem sigiled (h : p.Shaped) (hp : p.declarations = pre ++ .variable x e :: post) :
    Sigiled x := by
  apply h.vars.names
  rw [Body.vars, Declaration.names_split hp]
  simp

/-- Names tell variables from functions. -/
theorem names (h : p.Shaped) :
    ∀ d ∈ p.declarations, d.isFunction = true ↔ ¬ Sigiled d.name := by
  intro d hd
  cases d with
  | function f ps inner ss => exact iff_of_true rfl (h.functions f ps inner ss hd).name
  | «variable» x e =>
    obtain ⟨pre, post, hp⟩ := List.append_of_mem hd
    exact iff_of_false Bool.false_ne_true (not_not_intro (h.sigiled hp))

/-- A variable of the top level is new there, since functions are not named like variables. -/
theorem new (h : p.Shaped) (hp : p.declarations = pre ++ .variable x e :: post) :
    x ∉ pre.map Declaration.name := by
  intro again
  obtain ⟨d, hd, name⟩ := List.mem_map.mp again
  cases d with
  | function f ps inner ss =>
    cases name
    exact (h.functions f ps inner ss (by simp [hp, hd])).name (h.sigiled hp)
  | «variable» y i =>
    obtain ⟨before, after, rfl⟩ := List.append_of_mem hd
    have distinct := h.vars.distinct
    rw [Body.vars, Declaration.names_split hp] at distinct
    refine List.disjoint_of_nodup_append distinct (a := x) ?_ List.mem_cons_self
    rw [Declaration.names_split rfl, ← name]
    simp [Declaration.name]

theorem errors (h : p.Shaped) {es : List ScopeError} (failed : p.analyze = .error es) :
    ∀ err ∈ es, err.Expected p := by
  have sorted : ∀ before after, p.declarations = before ++ after → View.Sorted ⟨[], before⟩ := by
    intro before after hp
    exact View.sorted_of (by simp) fun d hd => h.names d (by simp [hp, hd])
  have statements := Scope.statementsErrors_ofUse (Scope.sees_top (Scope.known_reads _))
    (sorted p.declarations [] (List.append_nil _).symm) p.statements h.statements
  rw [Program.analyze_errors failed, List.forall_mem_append]
  refine ⟨Scope.declareAll_errors fun pre d post hp => ?_,
    fun err herr => (statements err herr).expected⟩
  have reads := Scope.known_reads pre
  have split : p.declarations = (pre ++ [d]) ++ post := by simp [hp]
  cases d with
  | «variable» x e =>
    have further := Scope.known_reads (pre ++ [.variable x e])
    rw [Scope.known_snoc] at further
    have whole : (Scope.declareVariable (Scope.ofTable (Scope.known pre).globals) x e).1
        = Scope.ofTable (Scope.declareGlobal (Scope.known pre) (.variable x e)).1.globals :=
      congrArg (Scope.mk _) (Scope.declareVariable_reads (s := .ofTable _) reads x e).2
    have errors := Scope.declareVariable_errors (s := .ofTable _) reads
      (whole ▸ Scope.sees_top further) (sorted _ _ split)
      (h.vars.initializers _ (Declaration.vars_split_mem hp))
    refine fun err herr => (errors err herr).elim ScopeError.OfUse.expected ?_
    rintro ⟨known, -⟩
    exact absurd (View.isFunction?_none.mpr ⟨List.not_mem_nil, h.new hp⟩) known
  | function f ps inner ss =>
    have shaped := h.functions f ps inner ss (by simp [hp])
    change ∀ err ∈ (Scope.declareFunction (Scope.known pre) f ps inner ss).2, _
    unfold Scope.declareFunction
    by_cases taken : (Scope.known pre).globals.has f = true
    · rw [if_pos taken]
      simp [ScopeError.Expected]
    · rw [if_neg taken]
      have registered := reads.register { name := f, meaning := .function ps }
      have further : ((Scope.known pre).globals.register
          { name := f, meaning := .function ps }).Reads
            (View.isFunction? ⟨[], pre ++ [.function f ps inner ss]⟩) :=
        (View.isFunction?_declare (.function f ps inner ss)).symm ▸ registered
      exact Scope.functionTable_errors further
        (fun d hd => h.names d (split ▸ List.mem_append_left _ hd)) shaped
        (Declaration.mem_routines hp)

end Program.Shaped

theorem Program.shaped_of_parse {source : String} {p : Program}
    (h : Program.parse source = .ok p) : p.Shaped := by
  obtain ⟨rest, ran⟩ := Program.ofTokens_ok.mp h
  have derived := Parser.program_sound (Token.ended_scan source) ran
  exact Grammar.shaped_of_derives derived
    (Grammar.allKinds_scanFrom trivial Token.sigils_lexeme _ _)

/-- Programs that come from a source text have the shapes above. The scope check finds no function
in another one and no name of the wrong sort in them, and a variable that is declared twice is a
parameter of its function. -/
theorem parsed_shaped {source : String} {p : Program} (h : Program.parse source = .ok p) :
    p.Shaped ∧ ∀ es, p.analyze = .error es →
      (∀ f, .nestedFunction f ∉ es ∧ .functionAsVariable f ∉ es ∧ .notFunction f ∉ es) ∧
      ∀ x f, .duplicateVariable x f ∈ es →
        ∃ r ∈ p.routines, r.name = f ∧ x ∈ r.parameters ∧ x ∈ r.vars.names := by
  have shaped := Program.shaped_of_parse h
  refine ⟨shaped, fun es failed => ⟨fun f => ⟨?_, ?_, ?_⟩, fun x f found => ?_⟩⟩
  · exact fun found => shaped.errors failed _ found
  · exact fun found => shaped.errors failed _ found
  · exact fun found => shaped.errors failed _ found
  · exact shaped.errors failed _ found

/-- Repeats a parameter as a variable. -/
def shadowedParameter : String :=
  "<?php $p = 2; function dobro($p) \x7b $p = $p + $p; echo $p . PHP_EOL; \x7d
   if (!($p > 1)) \x7b dobro($p); \x7d ?>"

theorem parsed_shaped_shadowedParameter :
    ∃ p, Program.parse shadowedParameter = .ok p ∧ p.Shaped ∧
      p.analyze = .error [.duplicateVariable "$p" "dobro"] ∧
      ∃ r ∈ p.routines, r.name = "dobro" ∧ "$p" ∈ r.parameters ∧ "$p" ∈ r.vars.names := by
  have checked : (Program.parse shadowedParameter).toOption.map Program.analyze
      = some (.error [.duplicateVariable "$p" "dobro"]) := by decide +kernel
  cases h : Program.parse shadowedParameter with
  | error e =>
    rw [h] at checked
    cases checked
  | ok p =>
    rw [h] at checked
    have failed : p.analyze = .error [.duplicateVariable "$p" "dobro"] := Option.some.inj checked
    obtain ⟨shaped, errors⟩ := parsed_shaped h
    exact ⟨p, rfl, shaped, failed, (errors _ failed).2 _ _ List.mem_cons_self⟩

end FlatStack
