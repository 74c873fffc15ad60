import FlatStack.Proofs.Relocation

/-!
# Generators that are used again

A generator keeps its table of the top level, and the code of a program that it
could not finish. So the next program gets slots behind those of all names that
the programs before it declared, and its code stands behind what was left over.
Entries of earlier functions are kept too, but no accepted program sees them.
-/

set_option autoImplicit false

namespace FlatStack

open Declaration (vars routines)

/-! ## Names of the top level -/

/-- A name is added behind the others unless it is among them. -/
def declare (known : List String) (x : String) : List String :=
  if x ∈ known then known else known ++ [x]

/-- Names in the order of their first occurrence, behind those that are known already. -/
def inOrder (known xs : List String) : List String := xs.foldl declare known

section InOrder

variable {known xs : List String} {x : String}

theorem mem_declare {y : String} : x ∈ declare known y ↔ x ∈ known ∨ x = y := by
  unfold declare
  split
  · rename_i old
    exact ⟨.inl, fun h => h.elim id fun same => same ▸ old⟩
  · rw [List.mem_append, List.mem_singleton]

theorem mem_inOrder : x ∈ inOrder known xs ↔ x ∈ known ∨ x ∈ xs := by
  induction xs generalizing known with
  | nil => simp [inOrder]
  | cons y xs ih =>
    have step : inOrder known (y :: xs) = inOrder (declare known y) xs := rfl
    rw [step, ih, mem_declare, List.mem_cons, or_assoc]

theorem inOrder_append (known xs ys : List String) :
    inOrder known (xs ++ ys) = inOrder (inOrder known xs) ys :=
  List.foldl_append

theorem inOrder_new (distinct : (known ++ xs).Nodup) : inOrder known xs = known ++ xs := by
  induction xs generalizing known with
  | nil => simp [inOrder]
  | cons y xs ih =>
    have fresh : y ∉ known := fun old =>
      List.disjoint_of_nodup_append distinct old List.mem_cons_self
    have step : inOrder known (y :: xs) = inOrder (known ++ [y]) xs := by
      rw [inOrder, List.foldl_cons, declare, if_neg fresh, ← inOrder]
    rw [List.append_cons] at distinct ⊢
    rw [step, ih distinct]

end InOrder

/-- A table of the top level that holds these variables and nothing else. -/
def Table.Tops (t : Table) (known : List String) : Prop :=
  t.Describes globalScope (frame globalScope [] known) known.length

namespace Table

variable {t : Table} {known : List String} {x : String}

theorem tops_empty : (Table.empty globalScope).Tops [] := describes_empty

theorem Tops.declare (h : t.Tops known) (x : String) :
    (t.materialize none x).Tops (declare known x) := by
  unfold FlatStack.declare
  split
  · rename_i old
    have present : t.has x = true := by
      rw [has_iff, h.meanings, frame_names]
      exact old
    rwa [Table.materialize, if_pos present]
  · rename_i new
    have described : t.Describes globalScope (frame globalScope [] known)
        (([] : List String).length + known.length) := by
      rw [List.length_nil, Nat.zero_add]
      exact h
    have unsettled : ∀ settled, (none : Option Table) = some settled →
        settled.meanings = frame globalScope [] (known ++ x :: []) := by simp
    have added := materialize_describes unsettled described new
    rwa [List.length_nil, Nat.zero_add] at added

theorem Tops.inOrder (h : t.Tops known) (xs : List String) :
    (xs.foldl (Table.materialize none) t).Tops (inOrder known xs) := by
  induction xs generalizing t known with
  | nil => exact h
  | cons x xs ih => exact ih (h.declare x)

theorem Tops.setEntry (h : t.Tops known) (f : String) (entry : Nat) :
    (t.setEntry f entry).Tops known := by
  refine ⟨h.name, ?_, h.next, h.distinct⟩
  rw [Table.setEntry, modify_meanings, h.meanings] <;> simp

end Table

/-! ## Slots of names -/

section Slots

variable {t : Table} {known : List String}

open Generator

theorem Table.Tops.slot_lookup (h : t.Tops known) (n : Nat) (x : String) :
    (t.meanings.lookup x).bind (·.slot? n) = known.idxOf? x := by
  have lowest : localSlot n globalScope = id := by
    funext i
    exact if_pos rfl
  rw [h.meanings, frame_slot, lowest, Option.map_id, List.nil_append]
  rfl

theorem Table.Tops.slot_top (h : t.Tops known) (n : Nat) (x : String) :
    (Scope.ofTable t).slot? n x = known.idxOf? x := by
  rw [Scope.slot?_meaning, Scope.meaning?_top, h.slot_lookup]

/-- Own names come first and lie above `n` slots, as long as no address is settled. -/
theorem Table.Tops.slot_function (h : t.Tops known) (n : Nat) (f : String) {ps : List String}
    {vs : Variables} (distinct : (ps ++ vs.names).Nodup) (x : String) :
    (Plan.functionScope ⟨[], n⟩ (.ofTable t) f ps vs).slot? n x =
      (((ps ++ vs.names).idxOf? x).map (localSlot n f)).or (known.idxOf? x) := by
  have meanings : (Plan.functionScope ⟨[], n⟩ (.ofTable t) f ps vs).table.meanings =
      frame f ps vs.names := functionScope_meanings distinct (by simp)
  have inside : (Plan.functionScope ⟨[], n⟩ (.ofTable t) f ps vs).outer = [t] := rfl
  have own := frame_slot n f ps vs.names x
  rw [Scope.slot?_meaning, Scope.meaning?_inside inside, meanings, ← h.slot_lookup n x]
  cases found : (frame f ps vs.names).lookup x with
  | none =>
    rw [found] at own
    rw [← own]
    rfl
  | some m =>
    have member : x ∈ ps ++ vs.names := by
      rw [← frame_names f]
      exact List.mem_map_of_mem (mem_of_lookup found)
    obtain ⟨i, hi⟩ := Option.isSome_iff_exists.mp (List.isSome_idxOf?.mpr member)
    rw [found, hi] at own
    rw [hi]
    exact own

end Slots

/-! ## What a generator keeps -/

namespace Generator

namespace Pass

variable {α β : Type} {known : List String} {x : Pass α} {f : α → Pass β}

/-- A pass leaves the variables of the top level as they are, also when it stops. -/
def Keeps (known : List String) (x : Pass α) : Prop :=
  ∀ s : Progress, s.globals.Tops known → (x.run.run s).run.2.globals.Tops known

theorem keeps_pure (a : α) : Keeps known (pure a) := fun _ h => h

theorem keeps_emit (e : Except Abandoned α) : Keeps known (emit e) := fun _ h => h

theorem keeps_get : Keeps known get := fun _ h => h

theorem keeps_enter (top : Bool) (name : String) (entry : Nat) :
    Keeps known (enter top name entry) := by
  intro s h
  cases top with
  | false => exact h
  | true => exact h.setEntry name entry

theorem Keeps.behind (h : Keeps known x) (before : List Instruction) :
    Keeps known (behind before x) := h

theorem Keeps.bind (h : Keeps known x) (hf : ∀ a, Keeps known (f a)) :
    Keeps known (x >>= f) := by
  intro s tops
  have first := h s tops
  rw [run_bind]
  revert first
  rcases (x.run.run s).run with ⟨_ | a, s'⟩
  · exact id
  · exact hf a s'

end Pass

namespace Plan

variable {plan : Plan} {known : List String}

theorem keeps_bodyCode {scope : Scope} {base : Nat} {vs : Variables} {blocks : List Block}
    {ss : List Statement} : Pass.Keeps known (plan.bodyCode scope base vs blocks ss) :=
  Pass.keeps_get.bind fun _ => ((Pass.keeps_emit _).behind _).bind fun _ => Pass.keeps_pure _

mutual

theorem keeps_functionBlock : ∀ (d : Declaration) {top : Bool} {around : Scope} {base : Nat},
    Pass.Keeps known (plan.functionBlock top around base d)
  | .variable .., _, _, _ => by
    rw [functionBlock]
    exact Pass.keeps_pure _
  | .function name parameters declarations statements, _, _, _ => by
    rw [functionBlock]
    refine (Pass.keeps_enter _ _ _).bind fun _ => ?_
    refine ((keeps_functionBlocks declarations).behind _).bind fun _ => ?_
    exact (keeps_bodyCode.behind _).bind fun _ => Pass.keeps_pure _

theorem keeps_functionBlocks : ∀ (ds : List Declaration) {top : Bool} {around : Scope} {base : Nat},
    Pass.Keeps known (plan.functionBlocks top around base ds)
  | [], _, _, _ => by
    rw [functionBlocks]
    exact Pass.keeps_pure _
  | d :: ds, _, _, _ => by
    rw [functionBlocks]
    refine (keeps_functionBlock d).bind fun _ => ?_
    exact ((keeps_functionBlocks ds).behind _).bind fun _ => Pass.keeps_pure _

end

theorem keeps_programCode {scope : Scope} {base : Nat} {p : Program} :
    Pass.Keeps known (plan.programCode scope base p) := by
  unfold programCode
  refine ((keeps_functionBlocks _).behind _).bind fun _ => ?_
  exact (keeps_bodyCode.behind _).bind fun _ => Pass.keeps_pure _

end Plan

/-- A generator that was given no analysis, with the variables of the top level that it knows. -/
structure Knows (g : Generator) (known : List String) : Prop where
  unsettled : g.analysis.functions = []
  tops : g.analysis.globals.Tops known

/-- The table of the top level that the code of a program is generated from. -/
def topTable (g : Generator) (p : Program) : Table :=
  Plan.materialize ⟨g.analysis.functions, p.vars.length⟩ g.analysis.globals p.vars

/-- How the code of a program ends behind the code that is pending. -/
def emission (g : Generator) (p : Program) : Emission :=
  ((Plan.programCode ⟨g.analysis.functions, p.vars.length⟩ (.ofTable (g.topTable p))
    g.pending.length p).run.run ⟨g.entries, g.topTable p⟩).run.1

variable {g : Generator} {p : Program} {known : List String}

theorem generate_eq (g : Generator) (p : Program) : (g.generate p).1 =
    ((g.emission p).map fun code => Bytecode.ofList (g.pending ++ code)).mapError Abandoned.cause :=
  generate_fst g p

/-- What is left over, and what is kept. -/
theorem generate_snd (g : Generator) (p : Program) :
    (g.generate p).2.pending = (match g.emission p with
      | .ok _ => []
      | .error a => g.pending ++ a.code) ∧
    (g.generate p).2.analysis = { g.analysis with
      globals := ((Plan.programCode ⟨g.analysis.functions, p.vars.length⟩
        (.ofTable (g.topTable p)) g.pending.length p).run.run
          ⟨g.entries, g.topTable p⟩).run.2.globals } ∧
    (g.generate p).2.entries = ((Plan.programCode ⟨g.analysis.functions, p.vars.length⟩
        (.ofTable (g.topTable p)) g.pending.length p).run.run
          ⟨g.entries, g.topTable p⟩).run.2.entries := by
  unfold generate emission topTable
  simp only [Body.vars]
  split
  rename_i result progress ran
  simp only [Id.run] at ran ⊢
  rw [ran]
  cases result <;> exact ⟨rfl, rfl, rfl⟩

theorem Knows.topTable (h : g.Knows known) (p : Program) :
    (g.topTable p).Tops (inOrder known p.vars.names) := by
  have isTop : g.analysis.globals.isGlobal = true := by
    rw [Table.isGlobal, h.tops.name]
    rfl
  have made := h.tops.inOrder p.vars.names
  rw [Generator.topTable, Plan.materialize, isTop]
  exact made

theorem knows_fresh : ({} : Generator).Knows [] := ⟨rfl, Table.tops_empty⟩

theorem Knows.generate (h : g.Knows known) (p : Program) :
    (g.generate p).2.Knows (inOrder known p.vars.names) := by
  obtain ⟨-, kept, -⟩ := generate_snd g p
  refine ⟨by rw [kept]; exact h.unsettled, ?_⟩
  rw [kept]
  exact Plan.keeps_programCode _ (h.topTable p)

/-- The generator after these programs. -/
def used (ps : List Program) : Generator := ps.foldl (fun g p => (g.generate p).2) {}

/-- The variables that programs declare at top level, in the order of their first declaration. -/
def topNames (ps : List Program) : List String := inOrder [] (ps.flatMap fun p => p.vars.names)

theorem used_snoc (ps : List Program) (p : Program) :
    used (ps ++ [p]) = ((used ps).generate p).2 :=
  List.foldl_append

theorem topNames_snoc (ps : List Program) (p : Program) :
    topNames (ps ++ [p]) = inOrder (topNames ps) p.vars.names := by
  rw [topNames, List.flatMap_append, inOrder_append, List.flatMap_singleton, topNames]

theorem knows_used (ps : List Program) : (used ps).Knows (topNames ps) := by
  induction ps using List.reverseRecOn with
  | nil => exact knows_fresh
  | append_singleton ps p ih =>
    rw [topNames_snoc, used_snoc]
    exact ih.generate p

end Generator

/-! ## Another slot for each name -/

/-- Slots of a program when its variables are numbered by their places in `known`. Own slots of
a function stay, which lie above those of the top level unless it is named like the outermost
scope. -/
def Renumbered (p : Program) (known : List String) (n m : Nat) : Prop :=
  (∃ x, p.vars.names.idxOf? x = some n ∧ known.idxOf? x = some m) ∨
    m = n ∧ (p.vars.length ≤ n ∨ globalScope ∈ p.routines.map Routine.name)

section Renumbered

variable {p : Program} {known : List String} {x : String}

theorem renumbered_top (h : x ∈ p.vars.names) (hk : x ∈ known) :
    Option.Rel (Renumbered p known) (p.vars.names.idxOf? x) (known.idxOf? x) := by
  obtain ⟨n, hn⟩ := Option.isSome_iff_exists.mp (List.isSome_idxOf?.mpr h)
  obtain ⟨m, hm⟩ := Option.isSome_iff_exists.mp (List.isSome_idxOf?.mpr hk)
  rw [hn, hm]
  exact .some (.inl ⟨x, hn, hm⟩)

theorem renumbered_own {r : Routine} (hr : r ∈ p.routines)
    (h : x ∈ r.names ∨ x ∈ p.vars.names) (hk : x ∈ p.vars.names → x ∈ known) :
    Option.Rel (Renumbered p known)
      (((r.names.idxOf? x).map (localSlot p.vars.length r.name)).or (p.vars.names.idxOf? x))
      (((r.names.idxOf? x).map (localSlot p.vars.length r.name)).or (known.idxOf? x)) := by
  cases own : r.names.idxOf? x with
  | some i =>
    refine .some (.inr ⟨rfl, ?_⟩)
    unfold localSlot
    split
    · rename_i outermost
      exact .inr (outermost ▸ List.mem_map_of_mem hr)
    · exact .inl (Nat.le_add_right _ _)
  | none =>
    have top := h.resolve_left (List.idxOf?_eq_none_iff.mp own)
    exact renumbered_top top (hk top)

end Renumbered

namespace Generator

variable {g : Generator} {p : Program} {known : List String} {a : Analysis}

theorem Knows.slot_function (h : g.Knows known) (accepted : Accepted p a) {r : Routine}
    (hr : r ∈ p.routines) (x : String) :
    (Plan.functionScope ⟨g.analysis.functions, p.vars.length⟩ (.ofTable (g.topTable p)) r.name
      r.parameters r.vars).slot? p.vars.length x =
        ((r.names.idxOf? x).map (localSlot p.vars.length r.name)).or
          ((inOrder known p.vars.names).idxOf? x) := by
  rw [h.unsettled]
  exact (h.topTable p).slot_function _ _ (accepted.routine_names hr) x

/-- The code of an accepted program is that of a fresh generator in another place. -/
theorem Knows.emission_parallel (h : g.Knows known) (analyzed : p.analyze = .ok a) :
    FlatStack.Parallel g.pending.length (Renumbered p (inOrder known p.vars.names))
      (MovedCode g.pending.length (Renumbered p (inOrder known p.vars.names)))
      (({} : Generator).emission p) (g.emission p) := by
  have accepted := Accepted.of_analyze analyzed
  have names := WellScoped.of_analyze analyzed
  have first : inOrder [] p.vars.names = p.vars.names := inOrder_new accepted.names_nodup
  have among : ∀ x, x ∈ p.vars.names → x ∈ inOrder known p.vars.names :=
    fun x hx => mem_inOrder.mpr (.inr hx)
  have functions : Plan.RelocatesAll (Renumbered p (inOrder known p.vars.names))
      ⟨[], p.vars.length⟩ ⟨g.analysis.functions, p.vars.length⟩
      (.ofTable (({} : Generator).topTable p)) (.ofTable (g.topTable p)) [] p.declarations := by
    refine names.relocatesAll fun r hr x hx => ?_
    have fresh := knows_fresh.slot_function accepted hr x
    rw [first] at fresh
    rw [fresh, h.slot_function accepted hr]
    exact renumbered_own hr hx (among x)
  have top : Plan.Relocates (Renumbered p (inOrder known p.vars.names))
      ((Scope.ofTable (({} : Generator).topTable p)).slot? p.vars.length)
      ((Scope.ofTable (g.topTable p)).slot? p.vars.length) (p.routines.map Routine.name)
      (Context.actionOccurrences p.vars p.statements) := by
    refine names.relocates fun x hx => ?_
    rw [(knows_fresh.topTable p).slot_top, (h.topTable p).slot_top, first]
    exact renumbered_top hx (among x hx)
  exact (Plan.programCode_parallel rfl functions top).results (by simp [Pass.Aligned])

theorem generate_ok {b : Bytecode} : (g.generate p).1 = .ok b ↔
    ∃ code, g.emission p = .ok code ∧ b = .ofList (g.pending ++ code) := by
  rw [generate_eq]
  cases g.emission p <;> simp [Except.map, Except.mapError, eq_comm]

theorem generate_error {e : EmissionError} :
    (g.generate p).1 = .error e ↔ ∃ code, g.emission p = .error ⟨e, code⟩ := by
  rw [generate_eq]
  rcases g.emission p with ⟨cause, code⟩ | code <;> simp [Except.map, Except.mapError]

theorem generate_succeeds : (∃ b, (g.generate p).1 = .ok b) ↔ ∃ code, g.emission p = .ok code := by
  simp only [generate_ok]
  exact ⟨fun ⟨_, code, ran, _⟩ => ⟨code, ran⟩, fun ⟨code, ran⟩ => ⟨_, code, ran, rfl⟩⟩

theorem Knows.succeeds_iff (h : g.Knows known) (analyzed : p.analyze = .ok a) :
    (∃ b, (g.generate p).1 = .ok b) ↔ ∃ b, (({} : Generator).generate p).1 = .ok b := by
  rw [generate_succeeds, generate_succeeds]
  exact (h.emission_parallel analyzed).succeeds.symm

/-- A pass that stops leaves some code. -/
def Pass.LeavesCode {α : Type} (x : Pass α) : Prop :=
  ∀ s e, (x.run.run s).run.1 = .error e → e.code ≠ []

theorem Pass.leavesCode_pure {α : Type} (a : α) : LeavesCode (pure a) := by
  intro s e stopped
  have none : (Except.ok a : Except Abandoned α) = .error e := stopped
  cases none

theorem Pass.leavesCode_behind {α : Type} {before : List Instruction} (some : before ≠ [])
    (x : Pass α) : LeavesCode (behind before x) := by
  intro s e stopped
  rw [run_behind] at stopped
  cases ran : (x.run.run s).run.1 with
  | ok a => simp [Emission.behind, Except.mapError, ran] at stopped
  | error inner =>
    rw [ran] at stopped
    obtain rfl : inner.behind before = e := Except.error.inj stopped
    exact List.append_ne_nil_of_left_ne_nil some _

theorem Pass.LeavesCode.bind {α β : Type} {x : Pass α} {f : α → Pass β} (h : LeavesCode x)
    (hf : ∀ a, LeavesCode (f a)) : LeavesCode (x >>= f) := by
  intro s e stopped
  rw [run_bind] at stopped
  cases ran : (x.run.run s).run with
  | mk result s' =>
    rw [ran] at stopped
    cases result with
    | ok a => exact hf a s' e stopped
    | error inner =>
      have first : (x.run.run s).run.1 = .error inner := by rw [ran]
      obtain rfl : inner = e := Except.error.inj stopped
      exact h s inner first

/-- Whatever stops a program, its first instruction is there by then. -/
theorem emission_error {e : Abandoned} (h : g.emission p = .error e) : e.code ≠ [] := by
  refine Pass.LeavesCode.bind (Pass.leavesCode_behind ?_ _) (fun blocks => ?_) _ e h
  · exact List.cons_ne_nil _ _
  · exact (Pass.leavesCode_behind (List.cons_ne_nil _ _) _).bind fun _ => Pass.leavesCode_pure _

theorem pending_eq_nil (g : Generator) (p : Program) :
    (g.generate p).2.pending = [] ↔ ∃ b, (g.generate p).1 = .ok b := by
  rw [generate_succeeds, (generate_snd g p).1]
  cases done : g.emission p with
  | ok code => simp
  | error e => simp [emission_error done]

/-- What comes of an accepted program after others that were accepted. -/
structure Reused (ps : List Program) (p : Program) : Prop where
  /-- It fails just as it does alone. -/
  error : ∀ e, ((used ps).generate p).1 = .error e ↔ (({} : Generator).generate p).1 = .error e
  /-- Its code stands behind what is pending, and its variables are numbered behind earlier ones. -/
  code : ∀ b, (({} : Generator).generate p).1 = .ok b → ∃ code,
    ((used ps).generate p).1 = .ok (.ofList ((used ps).pending ++ code)) ∧
      MovedCode (used ps).pending.length (Renumbered p (topNames (ps ++ [p])))
        b.instructions.toList code
  /-- Only a program that failed just before leaves code behind. -/
  pending : (used ps).pending = [] ↔
    ∀ q ∈ ps.getLast?, ∃ b, (({} : Generator).generate q).1 = .ok b
  /-- Code that was left behind makes a difference to every program with code. -/
  changed : (used ps).pending ≠ [] → ∀ b, (({} : Generator).generate p).1 = .ok b →
    ((used ps).generate p).1 ≠ .ok b
  /-- Without it, earlier variables make none as long as those of the program keep their slots. -/
  same : (used ps).pending = [] → p.vars.names <+: topNames (ps ++ [p]) →
    ((used ps).generate p).1 = (({} : Generator).generate p).1

end Generator

open Generator

/-- Slots that do not change. -/
theorem renumbered_same {p : Program} {known : List String} (first : p.vars.names <+: known)
    (n m : Nat) (h : Renumbered p known n m) : m = n := by
  rcases h with ⟨x, hn, hm⟩ | ⟨same, -⟩
  · obtain ⟨more, rfl⟩ := first
    have longer : (p.vars.names ++ more).idxOf? x = some n := by
      rw [List.idxOf?, List.findIdx?_append, ← List.idxOf?, hn, Option.some_or]
    exact Option.some.inj (hm.symm.trans longer)
  · exact same

theorem generate_reused {ps : List Program} {p : Program}
    (accepted : ∀ q ∈ ps ++ [p], ∃ a, q.analyze = .ok a) : Reused ps p := by
  obtain ⟨earlier, last⟩ := List.forall_mem_append.mp accepted
  obtain ⟨a, analyzed⟩ := last p List.mem_cons_self
  have parallel := (knows_used ps).emission_parallel analyzed
  rw [← topNames_snoc] at parallel
  have error : ∀ e, ((used ps).generate p).1 = .error e ↔
      (({} : Generator).generate p).1 = .error e := by
    intro e
    rw [generate_error, generate_error]
    exact (parallel.fails e).symm
  have code : ∀ b, (({} : Generator).generate p).1 = .ok b → ∃ code,
      ((used ps).generate p).1 = .ok (.ofList ((used ps).pending ++ code)) ∧
        MovedCode (used ps).pending.length (Renumbered p (topNames (ps ++ [p])))
          b.instructions.toList code := by
    intro b alone
    obtain ⟨first, ran, rfl⟩ := generate_ok.mp alone
    obtain ⟨code, again⟩ := parallel.succeeds.mp ⟨first, ran⟩
    rw [ran, again] at parallel
    exact ⟨code, generate_ok.mpr ⟨code, again, rfl⟩, parallel.related⟩
  refine ⟨error, code, ?_, fun left b alone => ?_, fun nothing first => ?_⟩
  · cases ps using List.reverseRecOn with
    | nil => simp [used]
    | append_singleton qs q =>
      obtain ⟨a', analyzed'⟩ := earlier q (by simp)
      rw [used_snoc, pending_eq_nil, (knows_used qs).succeeds_iff analyzed', List.getLast?_concat]
      simp
  · obtain ⟨code, again, moved⟩ := code b alone
    rw [again]
    intro same
    have equal : (used ps).pending ++ code = b.instructions.toList := by
      rw [← Except.ok.inj same]
      rfl
    have length := congrArg List.length equal
    rw [List.length_append, moved.length_eq] at length
    exact left (List.eq_nil_of_length_eq_zero (by omega))
  · cases alone : (({} : Generator).generate p).1 with
    | error e => exact (error e).mpr alone
    | ok b =>
      obtain ⟨code, again, moved⟩ := code b alone
      rw [nothing] at again moved
      rw [again, MovedCode.eq (renumbered_same first) moved]
      rfl

/-- A program that stops at its only call. -/
def numberPassed : Program :=
  ⟨[.function "show" ["$x"] [] [.echo (.var "$x")]], [.call "show" [.number 1]]⟩

/-- A program that needs nothing of an earlier one. -/
def oneEchoed : Program := ⟨[], [.echo (.number 1)]⟩

def onlyDeclared : Program := ⟨[.variable "$x" none], []⟩

def otherEchoed : Program := ⟨[.variable "$y" (some (.number 2))], [.echo (.var "$y")]⟩

theorem generate_reused_numberPassed :
    (∀ q ∈ [numberPassed] ++ [oneEchoed], ∃ a, q.analyze = .ok a) ∧
      Reused [numberPassed] oneEchoed := by
  have first : numberPassed.analyze = .ok (Scope.known numberPassed.declarations) := by
    decide +kernel
  have second : oneEchoed.analyze = .ok (Scope.known oneEchoed.declarations) := by decide +kernel
  have accepted : ∀ q ∈ [numberPassed] ++ [oneEchoed], ∃ a, q.analyze = .ok a := by
    intro q hq
    rcases List.mem_cons.mp hq with rfl | hq
    · exact ⟨_, first⟩
    · exact List.mem_singleton.mp hq ▸ ⟨_, second⟩
  exact ⟨accepted, generate_reused accepted⟩

theorem reuse_makes_difference :
    ((∃ a, numberPassed.analyze = .ok a) ∧ (∃ a, oneEchoed.analyze = .ok a) ∧
      ((used [numberPassed]).generate oneEchoed).1 ≠ (({} : Generator).generate oneEchoed).1) ∧
    (∃ a, onlyDeclared.analyze = .ok a) ∧ (∃ a, otherEchoed.analyze = .ok a) ∧
      ((used [onlyDeclared]).generate otherEchoed).1 ≠
        (({} : Generator).generate otherEchoed).1 := by
  refine ⟨⟨⟨Scope.known numberPassed.declarations, by decide +kernel⟩,
    ⟨Scope.known oneEchoed.declarations, by decide +kernel⟩, by decide +kernel⟩,
    ⟨Scope.known onlyDeclared.declarations, by decide +kernel⟩,
    ⟨Scope.known otherEchoed.declarations, by decide +kernel⟩, by decide +kernel⟩

end FlatStack
