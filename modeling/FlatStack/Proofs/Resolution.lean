import FlatStack.Proofs.Image
import FlatStack.Proofs.WellScoped

/-!
# What names stand for

The scope check goes through the declarations one by one, and an initializer
sees the names up to its own. The generator knows all names of a body before
its first initializer. The same name still stands for the same variable, except
in an initializer of a function that uses a variable of the top level which a
later declaration of the function hides.
-/

set_option autoImplicit false

namespace FlatStack

open Declaration (vars routines)

namespace Scope

/-- A name stands for the same variable or parameter: one of the nearest table in both scopes, or
of a table around it in both. -/
structure SameDeclaration (s t : Scope) (x : String) : Prop where
  nearest : s.table.has x = t.table.has x
  meaning : ∃ m, s.meaning? x = some m ∧ t.meaning? x = some m ∧ m.isFunction = false

/-! ## Scopes of the check and of the generator -/

/-- The scope of the check at top level after some declarations. -/
def checkedTop (ds : List Declaration) : Scope := ofTable (known ds).globals

/-- The scope of the check in a function behind `pre`, after some declarations of the function. -/
def checkedIn (pre : List Declaration) (f : String) (ps : List String) (ds : List Declaration) :
    Scope :=
  let globals := (known pre).globals.register { name := f, meaning := .function ps }
  let scope := (ofTable globals).inside f
  (declareAll declareLocal { scope with table := (declareParameters scope.table ps).1 } ds).1

/-- The scope that the code of the top level is generated in. -/
def emittedTop (a : Analysis) (p : Program) : Scope :=
  ofTable (Generator.Plan.materialize ⟨a.functions, p.vars.length⟩ a.globals p.vars)

/-- The scope that the code of a function is generated in. -/
def emittedIn (a : Analysis) (p : Program) (f : String) (ps : List String)
    (ds : List Declaration) : Scope :=
  Generator.Plan.functionScope ⟨a.functions, p.vars.length⟩ (emittedTop a p) f ps (vars ds)

/-! ## Tables that grow -/

section Growing

variable {s t : Scope} {g g' : Table} {tops more : List Declaration} {f x : String}
  {ps xs ys : List String}

theorem frame_append (f : String) (ps xs ys : List String) :
    frame f ps (xs ++ ys) = frame f ps xs ++ numbered (.variable f) (ps.length + xs.length) ys := by
  simp [frame, numbered_append, List.append_assoc]

theorem globals_grow (distinct : ((globalMeanings 0 (tops ++ more)).map (·.1)).Nodup)
    (h : x ∈ (vars tops).names) : ∃ m, (globalMeanings 0 tops).lookup x = some m ∧
      (globalMeanings 0 (tops ++ more)).lookup x = some m ∧ m.isFunction = false := by
  rw [globalMeanings_append] at distinct ⊢
  obtain ⟨m, hm, plain⟩ := variable_meaning (n := 0) h
  have first : ((globalMeanings 0 tops).map (·.1)).Nodup := by
    rw [List.map_append] at distinct
    exact List.Nodup.of_append_left distinct
  have found := lookup_of_mem first hm
  exact ⟨m, found, by rw [List.lookup_append, found, Option.some_or], plain⟩

theorem sameDeclaration_top (hg : g.meanings = globalMeanings 0 tops)
    (hg' : g'.meanings = globalMeanings 0 (tops ++ more))
    (distinct : ((globalMeanings 0 (tops ++ more)).map (·.1)).Nodup)
    (h : x ∈ (vars tops).names) : SameDeclaration (ofTable g) (ofTable g') x := by
  obtain ⟨m, early, late, plain⟩ := globals_grow distinct h
  have early_has : g.has x = true := by
    rw [Table.has_iff, hg]
    exact List.mem_map_of_mem (f := (·.1)) (mem_of_lookup early)
  have late_has : g'.has x = true := by
    rw [Table.has_iff, hg']
    exact List.mem_map_of_mem (f := (·.1)) (mem_of_lookup late)
  refine ⟨early_has.trans late_has.symm, m, ?_, ?_, plain⟩
  · rw [meaning?_top, hg, early]
  · rw [meaning?_top, hg', late]

theorem sameDeclaration_inside (hs : s.table.meanings = frame f ps xs) (hso : s.outer = [g])
    (ht : t.table.meanings = frame f ps (xs ++ ys)) (hto : t.outer = [g'])
    (hg : g.meanings = globalMeanings 0 tops)
    (hg' : g'.meanings = globalMeanings 0 (tops ++ more))
    (distinct : ((globalMeanings 0 (tops ++ more)).map (·.1)).Nodup)
    (own : (ps ++ (xs ++ ys)).Nodup) (h : x ∈ ps ++ xs ∨ x ∈ (vars tops).names) :
    SameDeclaration s t x ↔ x ∉ ys := by
  have early_has : s.table.has x = true ↔ x ∈ ps ++ xs := by
    rw [Table.has_iff, hs, frame_names]
  have late_has : t.table.has x = true ↔ x ∈ ps ++ xs ∨ x ∈ ys := by
    rw [Table.has_iff, ht, frame_names, ← List.append_assoc, List.mem_append]
  constructor
  · rintro ⟨nearest, _⟩ hidden
    rw [← List.append_assoc] at own
    refine List.disjoint_of_nodup_append own (early_has.mp ?_) hidden
    rw [nearest]
    exact late_has.mpr (.inr hidden)
  · intro visible
    have nearest : s.table.has x = t.table.has x := by
      rw [Bool.eq_iff_iff, early_has, late_has]
      exact (or_iff_left visible).symm
    refine ⟨nearest, ?_⟩
    rw [meaning?_inside hso, meaning?_inside hto, hs, ht, hg, hg', frame_append,
      List.lookup_append]
    by_cases here : x ∈ ps ++ xs
    · rw [← frame_names f ps xs] at here
      obtain ⟨m, hm, found⟩ := mem_lookup here
      exact ⟨m, by rw [found]; rfl, by rw [found]; rfl, frame_not_function hm⟩
    · obtain ⟨m, early, late, plain⟩ := globals_grow distinct (h.resolve_left here)
      have first : (frame f ps xs).lookup x = none := lookup_not_mem (by rwa [frame_names])
      have second : (numbered (.variable f) (ps.length + xs.length) ys).lookup x = none :=
        lookup_not_mem (by rwa [numbered_names])
      exact ⟨m, by rw [first, early]; rfl, by rw [first, second, late]; rfl, plain⟩

end Growing

/-! ## Scopes of accepted programs -/

section Checked

variable {pre inner ds rest : List Declaration} {f : String} {ps : List String}
  {ss : List Statement}

theorem checkedIn_described (clean : Clean (pre ++ [.function f ps inner ss]))
    (hi : inner = ds ++ rest) : ∃ g : Table,
      (checkedIn pre f ps ds).table.meanings = frame f ps (vars ds).names ∧
        (checkedIn pre f ps ds).outer = [g] ∧
          g.meanings = globalMeanings 0 (pre ++ [.function f ps inner ss]) := by
  have hk := known_of_clean (clean_append clean)
  obtain ⟨fresh, functionScoped⟩ := (declareGlobal_function_nil hk).mp (clean_snoc clean)
  have free : (known pre).globals.has f = false := by
    rw [← Bool.not_eq_true, Table.has_iff, hk.globals.meanings, ← Declaration.names_eq]
    exact fresh
  have hg := hk.register f ps inner ss free
  have errors := (functionTable_nil (f := f) hg).mpr functionScoped
  simp only [functionTable, List.append_eq_nil_iff] at errors
  obtain ⟨⟨parameters, declarations⟩, _⟩ := errors
  have hp := declareParameters_clean (t := Table.empty f) [] Table.describes_empty parameters
  rw [hi, declareAll_append] at declarations
  obtain ⟨described, outer, _⟩ :=
    declareLocals_clean hp rfl (List.append_eq_nil_iff.mp declarations).1
  exact ⟨_, described.meanings, outer, hg.meanings⟩

end Checked

section Accepted

variable {p : Program} {a : Analysis}

theorem emittedTop_eq (h : Accepted p a) : emittedTop a p = ofTable a.globals := by
  rw [emittedTop, h.materialize_globals]

theorem sameDeclaration_outside (h : p.analyze = .ok a) {ds more : List Declaration}
    (hp : p.declarations = ds ++ more) {x : String} (hx : x ∈ (vars ds).names) :
    SameDeclaration (checkedTop ds) (emittedTop a p) x := by
  have accepted := Accepted.of_analyze h
  have hg := accepted.known.globals
  have clean := (analyze_eq_ok_iff.mp h).1
  rw [hp] at hg clean
  rw [emittedTop_eq accepted]
  exact sameDeclaration_top (known_of_clean (clean_append clean)).globals.meanings hg.meanings
    hg.distinct hx

theorem sameDeclaration_function (h : p.analyze = .ok a) {pre post inner ds rest : List Declaration}
    {f : String} {ps : List String} {ss : List Statement}
    (hp : p.declarations = pre ++ .function f ps inner ss :: post) (hi : inner = ds ++ rest)
    {x : String} (hx : x ∈ ps ++ (vars ds).names ∨
      x ∈ (vars (pre ++ [.function f ps inner ss])).names) :
    SameDeclaration (checkedIn pre f ps ds) (emittedIn a p f ps inner) x ↔
      x ∉ (vars rest).names := by
  have accepted := Accepted.of_analyze h
  obtain ⟨g, described, outer, hg⟩ := checkedIn_described (clean_of_analyze h hp) hi
  have hr := Declaration.mem_routines hp
  have emitted := accepted.scopeOf_meanings hr p.vars.length
  have own := accepted.routine_names hr
  have globals := accepted.known.globals
  have names : (vars inner).names = (vars ds).names ++ (vars rest).names := by
    rw [hi, Declaration.vars_append, Variables.names_append]
  rw [Routine.frame, names] at emitted
  rw [Routine.names, names] at own
  rw [hp, List.append_cons] at globals
  rw [emittedIn, emittedTop_eq accepted]
  exact sameDeclaration_inside described outer emitted rfl hg globals.meanings globals.distinct
    own hx

end Accepted

end Scope

open Scope

/-- All occurrences of variables in a program, the name that an initializer is for among them. -/
structure Resolved (p : Program) (a : Analysis) : Prop where
  initializers : ∀ pre x e post, p.declarations = pre ++ .variable x (some e) :: post →
    ∀ y, .variable y ∈ (Statement.assign x e).occurrences →
      SameDeclaration (checkedTop (pre ++ [.variable x (some e)])) (emittedTop a p) y
  statements : ∀ y, .variable y ∈ Statement.occurrencesAll p.statements →
    SameDeclaration (checkedTop p.declarations) (emittedTop a p) y
  functionInitializers : ∀ pre f ps inner ss post,
    p.declarations = pre ++ .function f ps inner ss :: post →
      ∀ before x e after, inner = before ++ .variable x (some e) :: after →
        ∀ y, .variable y ∈ (Statement.assign x e).occurrences →
          (SameDeclaration (checkedIn pre f ps (before ++ [.variable x (some e)]))
            (emittedIn a p f ps inner) y ↔ y ∉ (vars after).names)
  functionStatements : ∀ pre f ps inner ss post,
    p.declarations = pre ++ .function f ps inner ss :: post →
      ∀ y, .variable y ∈ Statement.occurrencesAll ss →
        SameDeclaration (checkedIn pre f ps inner) (emittedIn a p f ps inner) y

/-- The generator finds for a name what the scope check found, unless it stands in an initializer
of a function and is declared there later on. -/
theorem names_resolved {p : Program} {a : Analysis} (h : p.analyze = .ok a) : Resolved p a := by
  have accepted := WellScoped.of_analyze h
  constructor
  · intro pre x e post hp y hy
    refine sameDeclaration_outside h (by rw [hp, List.append_cons]) ?_
    rcases List.mem_cons.mp hy with same | hy
    · obtain rfl := Occurrence.variable.inj same
      simp [Declaration.vars_snoc]
    · exact (accepted.initializers pre x e post hp _ hy).resolve_left List.not_mem_nil
  · intro y hy
    exact sameDeclaration_outside h (List.append_nil _).symm
      ((accepted.statements _ hy).resolve_left List.not_mem_nil)
  · intro pre f ps inner ss post hp before x e after hi y hy
    refine sameDeclaration_function h hp (by rw [hi, List.append_cons]) ?_
    rcases List.mem_cons.mp hy with same | hy
    · obtain rfl := Occurrence.variable.inj same
      simp [Declaration.vars_snoc]
    · exact (accepted.functions pre f ps inner ss post hp).initializers before x e after hi _ hy
  · intro pre f ps inner ss post hp y hy
    refine (sameDeclaration_function h hp (List.append_nil _).symm ?_).mpr List.not_mem_nil
    exact (accepted.functions pre f ps inner ss post hp).statements _ hy

/-- The initializer of its first local variable uses a variable of the top level that the second
one hides. -/
def lateLocal : Program :=
  ⟨[.variable "$g" (some (.number 7)),
    .function "f" [] [.variable "$a" (some (.var "$g")), .variable "$g" (some (.number 2))]
      [.echo (.var "$a")]],
    [.call "f" []]⟩

theorem names_resolved_lateLocal : ∃ a, lateLocal.analyze = .ok a ∧
    SameDeclaration
      (checkedIn [.variable "$g" (some (.number 7))] "f" []
        [.variable "$a" (some (.var "$g")), .variable "$g" (some (.number 2))])
      (emittedIn a lateLocal "f" []
        [.variable "$a" (some (.var "$g")), .variable "$g" (some (.number 2))]) "$a" := by
  have h : lateLocal.analyze = .ok (known lateLocal.declarations) := by decide +kernel
  exact ⟨_, h, (names_resolved h).functionStatements _ _ _ _ _ [] rfl "$a" List.mem_cons_self⟩

theorem lateLocal_not_resolved : ∃ a, lateLocal.analyze = .ok a ∧
    Compiled lateLocal (lateLocal.code?.getD .empty) ∧
      ¬ SameDeclaration
        (checkedIn [.variable "$g" (some (.number 7))] "f" [] [.variable "$a" (some (.var "$g"))])
        (emittedIn a lateLocal "f" []
          [.variable "$a" (some (.var "$g")), .variable "$g" (some (.number 2))]) "$g" := by
  refine ⟨known lateLocal.declarations, by decide +kernel, compiled_iff.mpr (by decide +kernel), ?_⟩
  intro same
  exact absurd same.nearest (by decide +kernel)

end FlatStack
