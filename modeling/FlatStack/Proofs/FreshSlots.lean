import FlatStack.Proofs.Relocation

/-!
# Slots handed out on the way

A generator that knows no analysis hands out addresses while it goes, and its
table of the top level holds variables only. All the same every name has the
slot that the analysis settles for it. Code depends on a scope through these
slots alone, so both ways lead to the same code, or stop at the same call.
-/

set_option autoImplicit false

namespace FlatStack

open Declaration (vars routines)

/-! ## Emissions with the same slots -/

namespace Context

/-- Names have the same slots, and functions the same entries. -/
structure Alike (c c' : Context) : Prop where
  slot : ∀ x, c.scope.slot? c.globals x = c'.scope.slot? c'.globals x
  entries : c.entries = c'.entries

variable {c c' : Context}

/-- The code is not moved at all then. -/
theorem Alike.relocates (h : c.Alike c') (os : List Occurrence) : Relocates 0 Eq c c' os := by
  refine ⟨fun x _ => ?_, fun f _ _ => ?_⟩
  · rw [h.slot]
    cases c'.scope.slot? c'.globals x with
    | none => exact .none
    | some n => exact .some rfl
  · rw [Nat.zero_add, Context.entry, Context.entry, h.entries]

theorem Alike.actionCode (h : c.Alike c') (base : Nat) (vs : Variables) (ss : List Statement) :
    c.actionCode base vs ss = c'.actionCode base vs ss :=
  ((actionCode_parallel (Nat.zero_add base).symm (h.relocates _)).eq fun _ _ => Eq.symm).symm

end Context

/-! ## Passes side by side -/

namespace Generator

namespace Pass

/-- Two passes end alike if they begin with the same entries. What they keep of
the top level may differ. -/
def Alike {α : Type} (x y : Pass α) : Prop :=
  ∀ s t : Progress, s.entries = t.entries →
    (x.run.run s).run.1 = (y.run.run t).run.1 ∧
      (x.run.run s).run.2.entries = (y.run.run t).run.2.entries

variable {α β : Type} {x y : Pass α} {f g : α → Pass β}

theorem alike_pure (a : α) : Alike (pure a) (pure a) := fun _ _ h => ⟨rfl, h⟩

theorem alike_emit {e e' : Except Abandoned α} (h : e = e') : Alike (emit e) (emit e') := by
  subst h
  exact fun _ _ h => ⟨rfl, h⟩

theorem alike_enter (top : Bool) (name : String) (entry : Nat) :
    Alike (enter top name entry) (enter top name entry) :=
  fun _ _ h => ⟨rfl, congrArg ((name, entry) :: ·) h⟩

theorem Alike.behind (before : List Instruction) (h : Alike x y) :
    Alike (behind before x) (Pass.behind before y) := by
  intro s t same
  obtain ⟨result, entries⟩ := h s t same
  simp only [run_behind]
  exact ⟨by rw [result], entries⟩

theorem Alike.bind (h : Alike x y) (hf : ∀ a, Alike (f a) (g a)) :
    Alike (x >>= f) (y >>= g) := by
  intro s t same
  obtain ⟨result, entries⟩ := h s t same
  rw [run_bind, run_bind]
  revert result entries
  rcases (x.run.run s).run with ⟨_ | a, s'⟩ <;> rcases (y.run.run t).run with ⟨_ | b, t'⟩
  · exact fun result entries => ⟨congrArg Except.error (Except.error.inj result), entries⟩
  · exact fun result _ => absurd result (by simp)
  · exact fun result _ => absurd result (by simp)
  · intro result entries
    obtain rfl : a = b := Except.ok.inj result
    exact hf a s' t' entries

/-- A pass that goes on with what has been noted so far. -/
theorem alike_get {f g : Progress → Pass β}
    (h : ∀ s t, s.entries = t.entries → Alike (f s) (g t)) : Alike (get >>= f) (get >>= g) :=
  fun s t same => h s t same s t same

end Pass

namespace Plan

variable {plan plan' : Plan} {scope scope' around around' : Scope} {base : Nat}

theorem bodyCode_alike
    (h : ∀ x, scope.slot? plan.globals x = scope'.slot? plan'.globals x) (vs : Variables)
    (blocks : List Block) (ss : List Statement) :
    Pass.Alike (plan.bodyCode scope base vs blocks ss)
      (plan'.bodyCode scope' base vs blocks ss) := by
  refine Pass.alike_get fun s t same => ?_
  have alike : Context.Alike ⟨scope, plan.globals, s.entries⟩
      ⟨scope', plan'.globals, t.entries⟩ := ⟨h, same⟩
  exact ((Pass.alike_emit (alike.actionCode _ vs ss)).behind _).bind fun _ => Pass.alike_pure _

theorem functionBlocks_alike_flat {top : Bool} {ds : List Declaration} (flat : routines ds = []) :
    Pass.Alike (plan.functionBlocks top around base ds)
      (plan'.functionBlocks top around' base ds) := by
  induction ds generalizing base with
  | nil => exact Pass.alike_pure []
  | cons d ds ih =>
    cases d with
    | function f ps inner ss => simp [routines] at flat
    | «variable» x e =>
      rw [functionBlocks, functionBlock, functionBlocks, functionBlock]
      exact (Pass.alike_pure []).bind fun _ => ((ih flat).behind _).bind fun _ => Pass.alike_pure _

/-- The functions among declarations have the same slots under both plans. -/
def AgreeOn (plan plan' : Plan) (around around' : Scope) (ds : List Declaration) : Prop :=
  ∀ f ps inner ss, .function f ps inner ss ∈ ds → routines inner = [] ∧
    ∀ x, (plan.functionScope around f ps (vars inner)).slot? plan.globals x
      = (plan'.functionScope around' f ps (vars inner)).slot? plan'.globals x

theorem functionBlocks_alike {top : Bool} {ds : List Declaration}
    (h : AgreeOn plan plan' around around' ds) :
    Pass.Alike (plan.functionBlocks top around base ds)
      (plan'.functionBlocks top around' base ds) := by
  induction ds generalizing base with
  | nil => exact Pass.alike_pure []
  | cons d ds ih =>
    have further : AgreeOn plan plan' around around' ds :=
      fun f ps inner ss hmem => h f ps inner ss (List.mem_cons_of_mem d hmem)
    rw [functionBlocks, functionBlocks]
    refine Pass.Alike.bind ?_ fun _ => ((ih further).behind _).bind fun _ => Pass.alike_pure _
    cases d with
    | «variable» x e => exact Pass.alike_pure []
    | function f ps inner ss =>
      obtain ⟨flat, slots⟩ := h f ps inner ss List.mem_cons_self
      rw [functionBlock, functionBlock]
      refine (Pass.alike_enter top f _).bind fun _ => ?_
      refine ((functionBlocks_alike_flat flat).behind _).bind fun blocks => ?_
      exact ((bodyCode_alike slots _ blocks ss).behind _).bind fun _ => Pass.alike_pure _

theorem programCode_alike {p : Program} (h : AgreeOn plan plan' scope scope' p.declarations)
    (top : ∀ x, scope.slot? plan.globals x = scope'.slot? plan'.globals x) :
    Pass.Alike (plan.programCode scope base p) (plan'.programCode scope' base p) := by
  unfold programCode
  refine ((functionBlocks_alike h).behind _).bind fun blocks => ?_
  exact ((bodyCode_alike top _ blocks _).behind _).bind fun _ => Pass.alike_pure _

end Plan

end Generator

/-! ## Tables made on the way -/

/-- The variables of a program without its functions. -/
def Variables.declarations (vs : Variables) : List Declaration :=
  vs.map fun v => .variable v.1 v.2

theorem vars_declarations (vs : Variables) : vars vs.declarations = vs := by
  induction vs with
  | nil => rfl
  | cons v vs ih => exact congrArg (v :: ·) ih

theorem globalMeanings_declarations (n : Nat) (vs : Variables) :
    globalMeanings n vs.declarations = numbered (.variable globalScope) n vs.names := by
  induction vs generalizing n with
  | nil => rfl
  | cons v vs ih => exact congrArg (_ :: ·) (ih (n + 1))

section Fresh

variable {p : Program} {a : Analysis}

open Generator

/-- The table of the top level when no addresses are settled. -/
def freshGlobals (p : Program) : Table :=
  Plan.materialize ⟨[], p.vars.length⟩ (Table.empty globalScope) p.vars

/-- It is the table of a program that declares the variables alone. -/
theorem Accepted.freshGlobals_describes (h : Accepted p a) :
    (freshGlobals p).Describes globalScope (globalMeanings 0 p.vars.declarations)
      (vars p.vars.declarations).length := by
  have made : (freshGlobals p).Describes globalScope (frame globalScope [] ([] ++ p.vars.names))
      (([] : List String).length + ([] ++ p.vars.names).length) :=
    Table.materializeAll_describes [] (by simp) Table.describes_empty h.names_nodup
  have same : frame globalScope [] p.vars.names = globalMeanings 0 p.vars.declarations := by
    simp [globalMeanings_declarations, frame, numbered]
  simp only [List.nil_append, same, List.length_nil, Nat.zero_add, Variables.length_names] at made
  rw [vars_declarations]
  exact made

theorem Accepted.slot_freshTop (h : Accepted p a) (x : String) :
    (Scope.ofTable (freshGlobals p)).slot? p.vars.length x = p.vars.names.idxOf? x := by
  have slots := slot?_top h.freshGlobals_describes p.vars.length x
  rwa [vars_declarations] at slots

theorem Accepted.slot_freshFunction (h : Accepted p a) {r : Routine} (hr : r ∈ p.routines)
    (x : String) :
    (Plan.functionScope ⟨[], p.vars.length⟩ (.ofTable (freshGlobals p)) r.name r.parameters
      r.vars).slot? p.vars.length x = slotIn p.vars.names r.name r.names x := by
  have meanings : (Plan.functionScope ⟨[], p.vars.length⟩ (.ofTable (freshGlobals p)) r.name
      r.parameters r.vars).table.meanings = r.frame :=
    functionScope_meanings (h.routine_names hr) (by simp)
  have slots := slot?_function h.freshGlobals_describes r.name r.parameters r.vars.names
    meanings rfl x
  rwa [vars_declarations] at slots

end Fresh

/-- Without an analysis an accepted program gets the same code as with its own, or the same
error. -/
theorem generate_fresh {p : Program} {a : Analysis} (h : p.analyze = .ok a) :
    (({} : Generator).generate p).1 = ((Generator.ofAnalysis a).generate p).1 := by
  have accepted := Accepted.of_analyze h
  have functions : Generator.Plan.AgreeOn ⟨[], p.vars.length⟩ ⟨a.functions, p.vars.length⟩
      (.ofTable (freshGlobals p)) (.ofTable a.globals) p.declarations := by
    intro f ps inner ss hmem
    obtain ⟨pre, post, hp⟩ := List.append_of_mem hmem
    have hr := Declaration.mem_routines hp
    refine ⟨(accepted.function hp).1, fun x => ?_⟩
    exact (accepted.slot_freshFunction hr x).trans (accepted.slot_function hr x).symm
  have top : ∀ x, (Scope.ofTable (freshGlobals p)).slot? p.vars.length x
      = (Scope.ofTable a.globals).slot? p.vars.length x :=
    fun x => (accepted.slot_freshTop x).trans (accepted.slot_top x).symm
  have alike : Generator.Pass.Alike
      (Generator.Plan.programCode ⟨[], p.vars.length⟩ (.ofTable (freshGlobals p)) 0 p)
      (Generator.Plan.programCode ⟨a.functions, p.vars.length⟩ (.ofTable a.globals) 0 p) :=
    Generator.Plan.programCode_alike functions top
  rw [generate_fst, generate_fst]
  simp only [Generator.ofAnalysis, accepted.materialize_globals]
  have same := (alike ⟨[], freshGlobals p⟩ ⟨[], a.globals⟩ rfl).1
  exact congrArg
    (fun r => (r.map fun code => Bytecode.ofList ([] ++ code)).mapError Abandoned.cause) same

/-- A local variable and a parameter that hide variables of the top level. -/
def shadowing : Program :=
  ⟨[.variable "x" (some (.number 1)), .variable "y" none,
    .function "f" ["y"] [.variable "x" (some (.var "y"))] [.echo (.var "x")]],
    [.call "f" [.var "x"], .echo (.binary .add (.var "x") (.var "y"))]⟩

theorem generate_fresh_shadowing : ∃ a, shadowing.analyze = .ok a ∧
    (({} : Generator).generate shadowing).1 = ((Generator.ofAnalysis a).generate shadowing).1 := by
  have h : shadowing.analyze = .ok (Scope.known shadowing.declarations) := by decide +kernel
  exact ⟨_, h, generate_fresh h⟩

end FlatStack
