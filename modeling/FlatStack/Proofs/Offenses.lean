import FlatStack.Proofs.Image
import FlatStack.Proofs.WellScoped

/-!
# Calls without code

Only variables can be passed, so a call with any other argument has no code.
The code of an accepted program is generated up to the first such call, and no
name in it lacks a slot.
-/

set_option autoImplicit false

namespace FlatStack

open Declaration (vars routines InitializersScoped)

/-! ## Offenses -/

namespace Expr

def isVariable : Expr → Bool
  | .var _ => true
  | _ => false

end Expr

namespace Occurrence

/-- A call passes variables only. -/
def Plain : Occurrence → Prop
  | .variable _ => True
  | .call _ arguments => ∀ e ∈ arguments, ∃ x, e = .var x

/-- The callee, if anything else is passed to it. -/
def offense? : Occurrence → Option String
  | .variable _ => none
  | .call callee arguments => if arguments.all Expr.isVariable then none else some callee

theorem offense?_eq_none {o : Occurrence} : o.offense? = none ↔ o.Plain := by
  cases o with
  | «variable» x => exact iff_of_true rfl trivial
  | call callee arguments =>
    have each : ∀ e : Expr, e.isVariable = true ↔ ∃ x, e = .var x := by
      intro e
      cases e <;> simp [Expr.isVariable]
    simp [offense?, Plain, each]

theorem offense?_eq_some {o : Occurrence} {f : String} :
    o.offense? = some f ↔ ¬ o.Plain ∧ ∃ arguments, o = .call f arguments := by
  rw [← offense?_eq_none]
  cases o with
  | «variable» x => simp [offense?]
  | call callee arguments => simp [offense?]

end Occurrence

/-- The callee of the first call that passes something other than variables. -/
def firstOffense (os : List Occurrence) : Option String := os.findSome? Occurrence.offense?

section FirstOffense

variable {os os' : List Occurrence} {f : String} {arguments : List Expr}

theorem firstOffense_append :
    firstOffense (os ++ os') = (firstOffense os).or (firstOffense os') := List.findSome?_append

theorem firstOffense_eq_none : firstOffense os = none ↔ ∀ o ∈ os, o.Plain := by
  simp only [firstOffense, List.findSome?_eq_none_iff, Occurrence.offense?_eq_none]

theorem firstOffense_eq_some : firstOffense os = some f ↔ ∃ before arguments after,
    os = before ++ .call f arguments :: after ∧ (∀ o ∈ before, o.Plain) ∧
      ¬ (Occurrence.call f arguments).Plain := by
  simp only [firstOffense, List.findSome?_eq_some_iff, Occurrence.offense?_eq_none,
    Occurrence.offense?_eq_some]
  constructor
  · rintro ⟨before, o, after, rfl, ⟨offends, arguments, rfl⟩, plain⟩
    exact ⟨before, arguments, after, rfl, plain, offends⟩
  · rintro ⟨before, arguments, after, rfl, plain, offends⟩
    exact ⟨before, _, after, rfl, ⟨offends, arguments, rfl⟩, plain⟩

theorem firstOffense_variables (h : ∀ e ∈ arguments, ∃ x, e = .var x) :
    firstOffense (Expr.occurrencesAll arguments) = none := by
  induction arguments with
  | nil => rfl
  | cons e arguments ih =>
    obtain ⟨x, rfl⟩ := h e List.mem_cons_self
    exact ih fun e' he' => h e' (List.mem_cons_of_mem _ he')

/-- The arguments of a call add nothing: if one of them holds a call, the outer call offends
first. -/
theorem firstOffense_call :
    firstOffense (.call f arguments :: Expr.occurrencesAll arguments)
      = firstOffense [.call f arguments] := by
  rw [← List.singleton_append, firstOffense_append]
  cases hf : firstOffense [.call f arguments] with
  | some g => rfl
  | none =>
    have plain := firstOffense_eq_none.mp hf _ List.mem_cons_self
    rw [firstOffense_variables plain, Option.none_or]

end FirstOffense

/-! ## Emissions -/

/-- Stops at the first offense and at nothing else. -/
def Settles {α : Type} (e : Except Abandoned α) (os : List Occurrence) : Prop :=
  match firstOffense os with
  | none => ∃ a, e = .ok a
  | some f => ∃ code, e = .error ⟨.nonVariableArgument f, code⟩

section Settles

variable {α β : Type} {e : Except Abandoned α} {f : α → Except Abandoned β}
  {os os' : List Occurrence}

theorem settles_ok (a : α) : Settles (.ok a) [] := ⟨a, rfl⟩

theorem Settles.congr (h : Settles e os) (same : firstOffense os' = firstOffense os) :
    Settles e os' := by
  unfold Settles
  rw [same]
  exact h

theorem Settles.behind (before : List Instruction) (h : Settles e os) :
    Settles (Emission.behind before e) os := by
  unfold Settles at h ⊢
  split at h
  · obtain ⟨a, rfl⟩ := h
    exact ⟨a, rfl⟩
  · obtain ⟨code, rfl⟩ := h
    exact ⟨before ++ code, rfl⟩

theorem Settles.bind (h : Settles e os) (hf : ∀ a, Settles (f a) os') :
    Settles (e >>= f) (os ++ os') := by
  unfold Settles at h ⊢
  rw [firstOffense_append]
  split at h
  · rename_i none
    obtain ⟨a, rfl⟩ := h
    rw [none, Option.none_or]
    exact hf a
  · rename_i g some
    obtain ⟨code, rfl⟩ := h
    rw [some, Option.some_or]
    exact ⟨code, rfl⟩

/-- The last step only puts together what has been emitted. -/
theorem Settles.map (h : Settles e os) (g : α → β) : Settles (e >>= fun a => pure (g a)) os := by
  rw [← List.append_nil os]
  exact h.bind fun a => settles_ok (g a)

end Settles

namespace Scope

/-- A variable has a slot. -/
def Serves (s : Scope) (globals : Nat) (os : List Occurrence) : Prop :=
  ∀ x, .variable x ∈ os → ∃ n, s.slot? globals x = some n

variable {s : Scope} {globals : Nat} {os os' : List Occurrence} {o : Occurrence}

theorem serves_append :
    s.Serves globals (os ++ os') ↔ s.Serves globals os ∧ s.Serves globals os' := by
  simp only [Serves, List.mem_append, or_imp, forall_and]

theorem Serves.tail (h : s.Serves globals (o :: os)) : s.Serves globals os :=
  fun x hx => h x (List.mem_cons_of_mem o hx)

end Scope

namespace Context

variable {c : Context} {base : Nat} {x callee : String} {arguments : List Expr}

theorem slot_settles (h : ∃ n, c.scope.slot? c.globals x = some n) : Settles (c.slot x) [] := by
  obtain ⟨n, hn⟩ := h
  exact ⟨n, slot_ok.mpr hn⟩

theorem parameterCode_settles (h : c.scope.Serves c.globals (Expr.occurrencesAll arguments)) :
    Settles (c.parameterCode callee arguments) [.call callee arguments] := by
  induction arguments with
  | nil => exact ⟨[], rfl⟩
  | cons e arguments ih =>
    obtain ⟨here, further⟩ := Scope.serves_append.mp h
    cases e with
    | var x =>
      have first := slot_settles (here x List.mem_cons_self)
      exact (first.bind fun n => ((ih further).behind _).map _).congr rfl
    | _ => exact ⟨[], rfl⟩

theorem callCode_settles (h : c.scope.Serves c.globals (Expr.occurrencesAll arguments)) :
    Settles (c.callCode base callee arguments)
      (.call callee arguments :: Expr.occurrencesAll arguments) :=
  (((parameterCode_settles h).behind _).map _).congr firstOffense_call

theorem exprCode_settles : ∀ (e : Expr) {base : Nat}, c.scope.Serves c.globals e.occurrences →
    Settles (c.exprCode base e) e.occurrences
  | .number _, _, _ | .read, _, _ => settles_ok _
  | .var x, _, h => by
    exact ((slot_settles (h x List.mem_cons_self)).map _).congr rfl
  | .unary op e, base, h => by
    rw [exprCode]
    exact (exprCode_settles e h).map _
  | .binary op l r, base, h => by
    obtain ⟨hl, hr⟩ := Scope.serves_append.mp h
    rw [exprCode]
    exact (exprCode_settles l hl).bind fun left => ((exprCode_settles r hr).behind left).map _
  | .call callee arguments, base, h => by
    rw [exprCode]
    exact (callCode_settles h.tail).map _

theorem valueCode_settles {e : Expr} (h : c.scope.Serves c.globals e.occurrences) :
    Settles (c.valueCode base x e) e.occurrences := by
  by_cases hr : e = .read
  · subst hr
    exact settles_ok _
  · rw [valueCode_other hr]
    exact exprCode_settles e h

theorem assignmentCode_settles {e : Expr} (hx : ∃ n, c.scope.slot? c.globals x = some n)
    (h : c.scope.Serves c.globals e.occurrences) :
    Settles (c.assignmentCode base x e) e.occurrences := by
  rw [← List.append_nil e.occurrences]
  exact (valueCode_settles h).bind fun value => ((slot_settles hx).behind value).map _

mutual

theorem statementCode_settles : ∀ (t : Statement) {base : Nat},
    c.scope.Serves c.globals t.occurrences → Settles (c.statementCode base t) t.occurrences
  | .echo e, base, h => by
    rw [statementCode]
    exact (exprCode_settles e h).map _
  | .assign x e, base, h => by
    rw [statementCode]
    exact (assignmentCode_settles (h x List.mem_cons_self) h.tail).congr rfl
  | .ifThen c body, base, h | .loop c body, base, h => by
    obtain ⟨hc, hb⟩ := Scope.serves_append.mp h
    rw [statementCode]
    exact (exprCode_settles c hc).bind fun condition =>
      ((statementsCode_settles body hb).behind _).map _
  | .ifElse c body otherwise, base, h => by
    rw [Statement.occurrences, List.append_assoc] at h ⊢
    obtain ⟨hc, hbo⟩ := Scope.serves_append.mp h
    obtain ⟨hb, ho⟩ := Scope.serves_append.mp hbo
    rw [statementCode]
    exact (exprCode_settles c hc).bind fun condition =>
      ((statementsCode_settles body hb).behind _).bind fun inner =>
        ((statementsCode_settles otherwise ho).behind _).map _
  | .call callee arguments, base, h => by
    rw [statementCode]
    exact callCode_settles h.tail

theorem statementsCode_settles : ∀ (ts : List Statement) {base : Nat},
    c.scope.Serves c.globals (Statement.occurrencesAll ts) →
      Settles (c.statementsCode base ts) (Statement.occurrencesAll ts)
  | [], _, _ => settles_ok _
  | t :: ts, base, h => by
    obtain ⟨ht, hts⟩ := Scope.serves_append.mp h
    rw [statementsCode]
    exact (statementCode_settles t ht).bind fun first =>
      ((statementsCode_settles ts hts).behind first).map _

end

/-- A number calls nothing, so it makes no difference that the zeros have no code. -/
theorem initializersCode_settles {vs : Variables}
    (hx : ∀ x ∈ vs.names, ∃ n, c.scope.slot? c.globals x = some n)
    (h : c.scope.Serves c.globals vs.occurrences) :
    Settles (c.initializersCode base vs) vs.occurrences := by
  induction vs generalizing base with
  | nil => exact settles_ok _
  | cons v vs ih =>
    obtain ⟨here, further⟩ := List.forall_mem_cons.mp hx
    obtain ⟨x, _ | e⟩ := v
    · rw [initializersCode_none]
      exact ih further h
    · obtain ⟨he, hvs⟩ := Scope.serves_append.mp h
      by_cases hz : isZero e = true
      · rw [initializersCode_zero hz]
        cases e with
        | number n => exact ih further hvs
        | _ => simp [isZero] at hz
      · rw [initializersCode, if_neg hz]
        exact (assignmentCode_settles here he).bind fun first =>
          ((ih further hvs).behind first).map _

theorem actionCode_settles {vs : Variables} {ss : List Statement}
    (hx : ∀ x ∈ vs.names, ∃ n, c.scope.slot? c.globals x = some n)
    (h : c.scope.Serves c.globals (vs.occurrences ++ Statement.occurrencesAll ss)) :
    Settles (c.actionCode base vs ss) (vs.occurrences ++ Statement.occurrencesAll ss) := by
  obtain ⟨hv, hs⟩ := Scope.serves_append.mp h
  exact (initializersCode_settles hx hv).bind fun first =>
    ((statementsCode_settles ss hs).behind first).map _

end Context

/-! ## Passes -/

namespace Generator

namespace Pass

/-- Ends as an emission that stops at the first offense and at nothing else. -/
def Settles {α : Type} (x : Pass α) (s : Progress) (os : List Occurrence) : Prop :=
  FlatStack.Settles (x.run.run s).run.1 os

variable {α β : Type} {x : Pass α} {f : α → Pass β} {s : Progress} {os os' : List Occurrence}

theorem settles_pure (a : α) : (pure a : Pass α).Settles s [] := settles_ok a

theorem settles_emit {e : Except Abandoned α} (h : FlatStack.Settles e os) :
    (emit e).Settles s os := h

theorem Settles.behind (before : List Instruction) (h : x.Settles s os) :
    (behind before x).Settles s os := by
  unfold Settles
  rw [run_behind]
  exact FlatStack.Settles.behind before h

theorem Settles.bind (h : x.Settles s os) (hf : ∀ a t, (f a).Settles t os') :
    (x >>= f).Settles s (os ++ os') := by
  unfold Settles at h hf ⊢
  have whole : ((x >>= f).run.run s).run.1
      = (x.run.run s).run.1 >>= fun a => ((f a).run.run (x.run.run s).run.2).run.1 := by
    rw [run_bind]
    rcases (x.run.run s).run with ⟨_ | a, t⟩ <;> rfl
  rw [whole]
  exact FlatStack.Settles.bind h fun a => hf a _

theorem Settles.map (h : x.Settles s os) (g : α → β) :
    (x >>= fun a => pure (g a)).Settles s os := by
  rw [← List.append_nil os]
  exact h.bind fun a t => settles_pure (g a)

end Pass

namespace Plan

variable {plan : Plan} {scope around : Scope} {base : Nat} {s : Progress} {top : Bool}

theorem bodyCode_settles {vs : Variables} {blocks : List Block} {ss : List Statement}
    (hx : ∀ x ∈ vs.names, ∃ n, scope.slot? plan.globals x = some n)
    (h : scope.Serves plan.globals (vs.occurrences ++ Statement.occurrencesAll ss)) :
    (plan.bodyCode scope base vs blocks ss).Settles s
      (vs.occurrences ++ Statement.occurrencesAll ss) := by
  rw [← List.nil_append (vs.occurrences ++ _)]
  refine Pass.Settles.bind (x := get) (settles_ok s) fun p t => ?_
  exact ((Pass.settles_emit (Context.actionCode_settles hx h)).behind _).map _

theorem functionBlocks_flat {ds : List Declaration} (flat : routines ds = []) :
    (plan.functionBlocks top around base ds).Settles s (Declaration.occurrencesAll ds) := by
  induction ds generalizing base s with
  | nil => exact settles_ok _
  | cons d ds ih =>
    cases d with
    | function f ps inner ss => simp [routines] at flat
    | «variable» x e =>
      rw [functionBlocks, functionBlock]
      exact (Pass.settles_pure []).bind fun first t => ((ih flat).behind _).map _

/-- The names in the functions among declarations have slots. -/
def ServesAll (plan : Plan) (around : Scope) (ds : List Declaration) : Prop :=
  ∀ f ps inner ss, .function f ps inner ss ∈ ds → routines inner = [] ∧
    (∀ x ∈ (vars inner).names, ∃ n,
      (plan.functionScope around f ps (vars inner)).slot? plan.globals x = some n) ∧
    (plan.functionScope around f ps (vars inner)).Serves plan.globals
      ((vars inner).occurrences ++ Statement.occurrencesAll ss)

theorem functionBlocks_settles {ds : List Declaration} (h : plan.ServesAll around ds) :
    (plan.functionBlocks top around base ds).Settles s (Declaration.occurrencesAll ds) := by
  induction ds generalizing base s with
  | nil => exact settles_ok _
  | cons d ds ih =>
    have further : plan.ServesAll around ds :=
      fun f ps inner ss hmem => h f ps inner ss (List.mem_cons_of_mem d hmem)
    rw [functionBlocks]
    refine Pass.Settles.bind ?_ fun first t => ((ih further).behind _).map _
    cases d with
    | «variable» x e => exact Pass.settles_pure []
    | function f ps inner ss =>
      obtain ⟨flat, hx, hs⟩ := h f ps inner ss List.mem_cons_self
      rw [functionBlock, Declaration.occurrences,
        ← List.nil_append (Declaration.occurrencesAll _ ++ _)]
      refine Pass.Settles.bind (x := Pass.enter _ _ _) (settles_ok ()) fun _ t => ?_
      refine ((functionBlocks_flat flat).behind _).bind fun blocks t => ?_
      exact ((bodyCode_settles hx hs).behind _).map _

theorem programCode_settles {p : Program} (h : plan.ServesAll scope p.declarations)
    (hx : ∀ x ∈ p.vars.names, ∃ n, scope.slot? plan.globals x = some n)
    (hs : scope.Serves plan.globals (p.vars.occurrences ++ Statement.occurrencesAll p.statements)) :
    (plan.programCode scope base p).Settles s p.occurrences := by
  unfold programCode
  refine ((functionBlocks_settles h).behind _).bind fun blocks t => ?_
  exact ((bodyCode_settles hx hs).behind _).map _

end Plan

end Generator

/-! ## Names of accepted programs -/

section Known

variable {tops ds : List Declaration} {ps : List String} {ss : List Statement} {x : String}

theorem Declaration.InitializersScoped.found {view : List Declaration → View} {o : Occurrence}
    (h : InitializersScoped view ds) (ho : o ∈ (vars ds).occurrences) :
    ∃ pre d post, ds = pre ++ d :: post ∧ (view (pre ++ [d])).Allows o := by
  obtain ⟨y, e, hmem, ho⟩ := Variables.mem_initializers.mp ho
  obtain ⟨earlier, later, hvars⟩ := List.append_of_mem hmem
  obtain ⟨pre, post, hds, _⟩ := Declaration.vars_split hvars
  exact ⟨pre, _, post, hds, h pre y e post hds _ ho⟩

theorem Declaration.mem_vars_split {pre post : List Declaration} {d : Declaration}
    (hds : ds = pre ++ d :: post) (hx : x ∈ (vars (pre ++ [d])).names) : x ∈ (vars ds).names := by
  rw [hds, List.append_cons, vars_append, Variables.names_append]
  exact List.mem_append_left _ hx

theorem FunctionScoped.found (h : FunctionScoped tops ps ds ss)
    (hx : .variable x ∈ (vars ds).occurrences ++ Statement.occurrencesAll ss) :
    x ∈ ps ++ (vars ds).names ∨ x ∈ (vars tops).names := by
  rcases List.mem_append.mp hx with hx | hx
  · obtain ⟨pre, d, post, hds, allowed⟩ := h.initializers.found hx
    refine allowed.imp_left fun own => ?_
    rcases List.mem_append.mp own with own | own
    · exact List.mem_append_left _ own
    · exact List.mem_append_right _ (Declaration.mem_vars_split hds own)
  · exact h.statements _ hx

theorem WellScoped.found {p : Program} (h : WellScoped p)
    (hx : .variable x ∈ p.vars.occurrences ++ Statement.occurrencesAll p.statements) :
    x ∈ p.vars.names := by
  rcases List.mem_append.mp hx with hx | hx
  · obtain ⟨pre, d, post, hds, allowed⟩ := h.initializers.found hx
    exact Declaration.mem_vars_split hds (allowed.resolve_left List.not_mem_nil)
  · exact (h.statements _ hx).resolve_left List.not_mem_nil

end Known

section Accepted

variable {p : Program} {a : Analysis}

open Generator

theorem servesAll_of_analyze (h : p.analyze = .ok a) :
    Plan.ServesAll ⟨a.functions, p.vars.length⟩ (.ofTable a.globals) p.declarations := by
  have accepted := Accepted.of_analyze h
  intro f ps inner ss hmem
  obtain ⟨pre, post, hp⟩ := List.append_of_mem hmem
  have inside := (WellScoped.of_analyze h).functions pre f ps inner ss post hp
  have hr := Declaration.mem_routines hp
  have found : ∀ x, x ∈ ps ++ (vars inner).names ∨ x ∈ p.vars.names →
      ∃ n, (scopeOf a p.vars.length ⟨f, ps, vars inner, ss⟩).slot? p.vars.length x = some n := by
    intro x hx
    rw [accepted.slot_function hr]
    exact slotIn_of_mem hx
  refine ⟨inside.flat, fun x hx => found x (.inl (List.mem_append_right _ hx)), fun x hx => ?_⟩
  exact found x ((inside.found hx).imp_right (Declaration.mem_vars_split hp))

/-- The result of a generator is that of the pass over the program. -/
theorem generate_fst (g : Generator) (p : Program) :
    (g.generate p).1 = ((((Plan.programCode ⟨g.analysis.functions, p.vars.length⟩
      (.ofTable (Plan.materialize ⟨g.analysis.functions, p.vars.length⟩ g.analysis.globals p.vars))
      g.pending.length p).run.run ⟨g.entries,
        Plan.materialize ⟨g.analysis.functions, p.vars.length⟩ g.analysis.globals p.vars⟩).run.1.map
          fun code => Bytecode.ofList (g.pending ++ code)).mapError Abandoned.cause) := by
  unfold generate
  simp only [Body.vars]
  split
  rename_i result progress ran
  have same := congrArg Prod.fst ran
  simp only [Id.run] at same ⊢
  rw [same]
  cases result <;> rfl

theorem generate_settled (h : p.analyze = .ok a) : ∃ r : Emission, Settles r p.occurrences ∧
    ((Generator.ofAnalysis a).generate p).1 = (r.map Bytecode.ofList).mapError Abandoned.cause := by
  have accepted := Accepted.of_analyze h
  have settled : (Plan.programCode ⟨a.functions, p.vars.length⟩ (.ofTable a.globals) 0 p).Settles
      ⟨[], a.globals⟩ p.occurrences :=
    Plan.programCode_settles (servesAll_of_analyze h) (fun x hx => accepted.slot_of_top hx)
      fun x hx => accepted.slot_of_top ((WellScoped.of_analyze h).found hx)
  refine ⟨_, settled, ?_⟩
  rw [generate_fst]
  simp only [Generator.ofAnalysis, accepted.materialize_globals]
  rfl

end Accepted

/-- An accepted program has code unless it passes something other than a variable, and the first
call that does is reported. -/
theorem generate_reports_offense {p : Program} {a : Analysis} (h : p.analyze = .ok a) :
    (∀ x, ((Generator.ofAnalysis a).generate p).1 ≠ .error (.unresolvedVariable x)) ∧
      ((∃ b, ((Generator.ofAnalysis a).generate p).1 = .ok b) ↔ ∀ o ∈ p.occurrences, o.Plain) ∧
        ∀ f, ((Generator.ofAnalysis a).generate p).1 = .error (.nonVariableArgument f) ↔
          ∃ before arguments after, p.occurrences = before ++ .call f arguments :: after ∧
            (∀ o ∈ before, o.Plain) ∧ ¬ (Occurrence.call f arguments).Plain := by
  obtain ⟨r, settled, same⟩ := generate_settled h
  simp only [same, ← firstOffense_eq_some]
  rw [← firstOffense_eq_none]
  unfold Settles at settled
  split at settled
  · rename_i clean
    obtain ⟨code, rfl⟩ := settled
    simp [clean, Except.map, Except.mapError]
  · rename_i f offends
    obtain ⟨code, rfl⟩ := settled
    simp [offends, Except.map, Except.mapError]

/-- Its first call with another argument than a variable is the outer one of two, in a function
that no statement calls. -/
def nestedCalls : Program :=
  ⟨[.function "show" ["x"] [] [.echo (.var "x")], .variable "y" none,
    .function "twice" ["x"] [.variable "z" none]
      [.call "show" [.var "z"], .call "twice" [.call "show" [.read]]]],
    [.call "show" [.var "y"], .call "show" [.read]]⟩

theorem generate_reports_nestedCalls : ∃ a, nestedCalls.analyze = .ok a ∧
    ((Generator.ofAnalysis a).generate nestedCalls).1 = .error (.nonVariableArgument "twice") := by
  have h : nestedCalls.analyze = .ok (Scope.known nestedCalls.declarations) := by decide +kernel
  refine ⟨_, h, ((generate_reports_offense h).2.2 "twice").mpr ?_⟩
  refine ⟨[.variable "x", .call "show" [.var "z"], .variable "z"], [.call "show" [.read]], _,
    rfl, ?_, ?_⟩
  · simp [Occurrence.Plain]
  · simp [Occurrence.Plain]

end FlatStack
