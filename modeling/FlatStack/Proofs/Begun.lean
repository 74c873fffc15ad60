import FlatStack.Proofs.Actions
import FlatStack.Proofs.Addresses
import FlatStack.Proofs.Reuse

/-!
# Functions that have begun

A generator that stops leaves its analysis almost as it was. All that it adds are
the entries of the functions whose code it has begun, in the table of the top
level and beside it. These are the functions up to the first one that passes
something other than a variable, and the jumps over them tell the same entries.
-/

set_option autoImplicit false

namespace FlatStack

open Declaration (vars routines)

section Settles

variable {α : Type} {e : Except Abandoned α} {os : List Occurrence}

theorem Settles.plain {a : α} (h : Settles e os) (succeeds : e = .ok a) : ∀ o ∈ os, o.Plain := by
  rw [← firstOffense_eq_none]
  unfold Settles at h
  split at h
  · assumption
  · obtain ⟨code, stops⟩ := h
    rw [stops] at succeeds
    cases succeeds

theorem Settles.offends {rest : Abandoned} (h : Settles e os) (stops : e = .error rest) :
    ¬ ∀ o ∈ os, o.Plain := by
  intro plain
  rw [← firstOffense_eq_none] at plain
  unfold Settles at h
  rw [plain] at h
  obtain ⟨a, succeeds⟩ := h
  rw [stops] at succeeds
  cases succeeds

end Settles

/-! ## Functions that are reached -/

/-- A function passes variables only. -/
def Routine.Plain (r : Routine) : Prop :=
  ∀ o ∈ r.vars.occurrences ++ Statement.occurrencesAll r.statements, o.Plain

instance (r : Routine) : Decidable r.Plain := decidable_of_iff _ firstOffense_eq_none

/-- The functions up to the first one that passes something other than a variable. -/
def reached : List Routine → List Routine
  | [] => []
  | r :: rs => r :: if r.Plain then reached rs else []

theorem reached_sublist (rs : List Routine) : (reached rs).Sublist rs := by
  induction rs with
  | nil => exact .slnil
  | cons r rs ih =>
    refine .cons_cons r ?_
    split
    · exact ih
    · exact List.nil_sublist rs

/-- A function is reached if no function before it stops the generator. -/
theorem mem_reached {pre post : List Routine} {r : Routine}
    (distinct : ((pre ++ r :: post).map Routine.name).Nodup) :
    r.name ∈ (reached (pre ++ r :: post)).map Routine.name ↔ ∀ q ∈ pre, q.Plain := by
  induction pre with
  | nil => simp [reached]
  | cons q pre ih =>
    obtain ⟨fresh, distinct⟩ := List.nodup_cons.mp distinct
    have other : r.name ≠ q.name := fun same => fresh (by simp [← same])
    rw [List.cons_append, reached, List.map_cons, List.mem_cons, List.forall_mem_cons,
      ← ih distinct]
    split
    · rename_i plain
      simp [other, plain]
    · rename_i offends
      simp [other, offends]

/-! ## Jumps over functions -/

/-- What code tells of the functions in it: the comment of each jump with a comment, and the
address behind it. -/
def openings : Nat → List Instruction → List (String × Nat)
  | _, [] => []
  | base, i :: is =>
    (if i.opcode = .jump then i.comment.toList.map fun text => (text, base + 1) else [])
      ++ openings (base + 1) is

/-- The same for functions with their entries. -/
def titled (begun : Entries) : List (String × Nat) := begun.map fun e => ("funcao " ++ e.1, e.2)

section Openings

variable {base : Nat} {code code' : List Instruction}

theorem openings_append :
    openings base (code ++ code') = openings base code ++ openings (base + code.length) code' := by
  induction code generalizing base with
  | nil => rfl
  | cons i code ih =>
    rw [List.cons_append, openings, openings, ih, List.append_assoc, List.length_cons,
      Nat.add_right_comm, Nat.add_assoc base]

theorem openings_none (h : ∀ i ∈ code, i.opcode = .jump → i.comment = none) :
    openings base code = [] := by
  induction code generalizing base with
  | nil => rfl
  | cons i code ih =>
    obtain ⟨first, others⟩ := List.forall_mem_cons.mp h
    rw [openings, ih others, List.append_nil]
    split
    · rename_i jumps
      rw [first jumps]
      rfl
    · rfl

theorem openings_skip (target : Nat) (f : String) :
    openings base (Generator.skip target f :: code)
      = ("funcao " ++ f, base + 1) :: openings (base + 1) code := rfl

/-- Where the jumps lead makes no difference. -/
theorem openings_linked (target target' : Nat) (blocks : List Generator.Block) :
    openings base (Generator.linked target blocks)
      = openings base (Generator.linked target' blocks) := by
  induction blocks generalizing base with
  | nil => rfl
  | cons b blocks ih =>
    simp only [Generator.linked, List.flatMap_cons, List.cons_append, openings_skip,
      openings_append] at ih ⊢
    rw [ih]

theorem openings_acts (h : ∀ i ∈ code, i.Acts) : openings base code = [] :=
  openings_none fun i hi => (h i hi).jump

theorem openings_other (h : ∀ i ∈ code, i.opcode ≠ .jump) : openings base code = [] :=
  openings_none fun i hi jumps => absurd jumps (h i hi)

theorem openings_allocations (vs : Variables) :
    openings base (Generator.allocations vs) = [] :=
  openings_other (by simp [Generator.allocations])

theorem openings_epilogue (slots : Nat) :
    openings base (Generator.Plan.epilogue slots) = [] := by
  refine openings_other ?_
  unfold Generator.Plan.epilogue
  split <;> simp

end Openings

namespace Generator

/-- A pass that has begun functions one after another. -/
def Progress.opened (s : Progress) (begun : Entries) : Progress :=
  begun.foldl (fun s e => ⟨e :: s.entries, s.globals.setEntry e.1 e.2⟩) s

/-- The code that a pass has emitted, also before it stops. -/
def Pass.codeWith {α : Type} (shape : α → List Instruction) : Except Abandoned α → List Instruction
  | .ok a => shape a
  | .error e => e.code

namespace Pass

variable {α β : Type} {s : Progress}

/-- Code that goes on behind other code. -/
theorem codeWith_behind {shape : α → List Instruction} {shape' : β → List Instruction} {g : α → β}
    {before : List Instruction} (h : ∀ a, shape' (g a) = before ++ shape a)
    (e : Except Abandoned α) :
    codeWith shape' ((Emission.behind before e).map g) = before ++ codeWith shape e := by
  cases e with
  | ok a => exact h a
  | error e => rfl

theorem run_next {x : Pass α} {f : α → Pass β} {a : α} {t : Progress}
    (h : (x.run.run s).run = (.ok a, t)) : ((x >>= f).run.run s).run = ((f a).run.run t).run := by
  rw [run_bind, h]

theorem run_stopped {x : Pass α} {f : α → Pass β} {e : Abandoned} {t : Progress}
    (h : (x.run.run s).run = (.error e, t)) : ((x >>= f).run.run s).run = (.error e, t) := by
  rw [run_bind, h]

theorem run_map {x : Pass α} (g : α → β) : ((x >>= fun a => pure (g a)).run.run s).run
    = ((x.run.run s).run.1.map g, (x.run.run s).run.2) := by
  rw [run_bind]
  rcases (x.run.run s).run with ⟨_ | a, t⟩ <;> rfl

theorem run_behind_ok {before : List Instruction} {x : Pass α} {a : α} {t : Progress}
    (h : (x.run.run s).run = (.ok a, t)) : ((behind before x).run.run s).run = (.ok a, t) := by
  rw [run_behind, h]
  rfl

theorem run_behind_error {before : List Instruction} {x : Pass α} {e : Abandoned} {t : Progress}
    (h : (x.run.run s).run = (.error e, t)) :
    ((behind before x).run.run s).run = (.error (e.behind before), t) := by
  rw [run_behind, h]
  rfl

theorem run_emit (e : Except Abandoned α) : ((emit e).run.run s).run = (e, s) := rfl

theorem run_get : ((get : Pass Progress).run.run s).run = (.ok s, s) := rfl

theorem run_enter (name : String) (entry : Nat) :
    ((enter true name entry).run.run s).run = (.ok (), s.opened [(name, entry)]) := rfl

end Pass

namespace Plan

variable {plan : Plan} {scope around : Scope} {base : Nat} {s : Progress}

theorem bodyCode_run {vs : Variables} {blocks : List Block} {ss : List Statement} {start : Nat}
    (hs : base + vs.length + sizeOf blocks = start) :
    ((plan.bodyCode scope base vs blocks ss).run.run s).run =
      ((Emission.behind (allocations vs ++ linked start blocks)
        (Context.actionCode ⟨scope, plan.globals, s.entries⟩ start vs ss)).map
            (allocations vs ++ linked start blocks ++ ·), s) := by
  subst hs
  rw [bodyCode, Pass.run_next Pass.run_get, Pass.run_map, Pass.run_behind, Pass.run_emit]

/-- Where no function is declared, nothing is noted. -/
theorem functionBlocks_flat_run {top : Bool} {ds : List Declaration} (flat : routines ds = []) :
    ((plan.functionBlocks top around base ds).run.run s).run = (.ok [], s) := by
  induction ds generalizing base with
  | nil => rfl
  | cons d ds ih =>
    cases d with
    | function f ps inner ss => simp [routines] at flat
    | «variable» x e =>
      have none : ((pure [] : Pass (List Block)).run.run s).run = (.ok [], s) := rfl
      rw [functionBlocks, functionBlock, Pass.run_next none, Pass.run_map,
        Pass.run_behind_ok (ih flat)]
      rfl

/-- One function: what is emitted depends on its actions alone. -/
theorem functionBlock_run {f : String} {ps : List String} {inner : List Declaration}
    {ss : List Statement} {e : Emission} (flat : routines inner = [])
    (he : Context.actionCode ⟨plan.functionScope around f ps (vars inner), plan.globals,
      (s.opened [(f, base + 1)]).entries⟩ (base + 1 + (vars inner).length) (vars inner) ss = e) :
    ((plan.functionBlock true around base (.function f ps inner ss)).run.run s).run =
      ((Emission.behind (skip 0 f :: allocations (vars inner)) e).map fun actions =>
          [⟨f, allocations (vars inner) ++ actions ++ epilogue (ps.length + (vars inner).length)⟩],
        s.opened [(f, base + 1)]) := by
  rw [functionBlock, Pass.run_next (Pass.run_enter f (base + 1)),
    Pass.run_next (Pass.run_behind_ok (functionBlocks_flat_run flat)), Pass.run_map,
    Pass.run_behind, bodyCode_run rfl, sizeOf_nil, Nat.add_zero, he]
  cases e <;> simp [Emission.behind, Abandoned.behind, Except.map, Except.mapError, linked]

section Cons

variable {d : Declaration} {ds : List Declaration} {t : Progress}

theorem functionBlocks_stopped {e : Abandoned}
    (h : ((plan.functionBlock true around base d).run.run s).run = (.error e, t)) :
    ((plan.functionBlocks true around base (d :: ds)).run.run s).run = (.error e, t) := by
  rw [functionBlocks, Pass.run_stopped h]

theorem functionBlocks_continued {first : List Block}
    (h : ((plan.functionBlock true around base d).run.run s).run = (.ok first, t)) :
    ((plan.functionBlocks true around base (d :: ds)).run.run s).run =
      let ran := ((plan.functionBlocks true around (base + sizeOf first) ds).run.run t).run
      ((Emission.behind (linked 0 first) ran.1).map (first ++ ·), ran.2) := by
  rw [functionBlocks, Pass.run_next h, Pass.run_map, Pass.run_behind]

end Cons

theorem linked_append (target : Nat) (blocks more : List Block) :
    linked target (blocks ++ more) = linked target blocks ++ linked target more :=
  List.flatMap_append

/-- What is noted of functions, and what their code tells. -/
structure Opens (base : Nat) (s : Progress) (rs : List Routine)
    (ran : Except Abandoned (List Block) × Progress) (begun : Entries) : Prop where
  progress : ran.2 = s.opened begun
  code : openings base (Pass.codeWith (linked 0) ran.1) = titled begun
  names : begun.map (·.1) = (reached rs).map Routine.name

theorem openings_stopped {f : String} {vs : Variables} {actions : List Instruction}
    (acts : ∀ i ∈ actions, i.Acts) :
    openings base (skip 0 f :: allocations vs ++ actions) = titled [(f, base + 1)] := by
  rw [List.cons_append, openings_skip, openings_append, openings_allocations, openings_acts acts]
  rfl

theorem openings_block {f : String} {vs : Variables} {actions : List Instruction} {slots : Nat}
    (acts : ∀ i ∈ actions, i.Acts) :
    openings base (linked 0 [⟨f, allocations vs ++ actions ++ epilogue slots⟩])
      = titled [(f, base + 1)] := by
  have code : linked 0 [⟨f, allocations vs ++ actions ++ epilogue slots⟩]
      = (skip 0 f :: allocations vs ++ actions) ++ epilogue slots := by simp [linked]
  rw [code, openings_append, openings_stopped acts, openings_epilogue, List.append_nil]

/-- The functions among declarations are begun up to the first one that stops the pass. -/
theorem functionBlocks_opens {ds : List Declaration} (h : plan.ServesAll around ds) (base : Nat)
    (s : Progress) : ∃ begun, Opens base s (routines ds)
      ((plan.functionBlocks true around base ds).run.run s).run begun := by
  induction ds generalizing base s with
  | nil => exact ⟨[], rfl, rfl, rfl⟩
  | cons d ds ih =>
    have further : plan.ServesAll around ds :=
      fun f ps inner ss hmem => h f ps inner ss (List.mem_cons_of_mem d hmem)
    cases d with
    | «variable» x e =>
      obtain ⟨begun, progress, code, names⟩ := ih further (base + sizeOf []) s
      have none : ((plan.functionBlock true around base (.variable x e)).run.run s).run
          = (.ok [], s) := by
        rw [functionBlock]
        rfl
      rw [functionBlocks_continued none]
      refine ⟨begun, progress, ?_, names⟩
      rw [Pass.codeWith_behind (linked_append 0 [])]
      exact code
    | function f ps inner ss =>
      obtain ⟨flat, hx, hs⟩ := h f ps inner ss List.mem_cons_self
      let r : Routine := ⟨f, ps, vars inner, ss⟩
      let c : Context := ⟨plan.functionScope around f ps (vars inner), plan.globals,
        (s.opened [(f, base + 1)]).entries⟩
      have settles : Settles
          (c.actionCode (base + 1 + (vars inner).length) (vars inner) ss) _ :=
        c.actionCode_settles hx hs
      have acts := c.actionCode_acts (base + 1 + (vars inner).length) (vars inner) ss
      cases emitted : c.actionCode (base + 1 + (vars inner).length) (vars inner) ss with
      | ok actions =>
        have plain : r.Plain := settles.plain emitted
        rw [emitted] at acts
        obtain ⟨begun, progress, code, names⟩ := ih further (base + sizeOf _)
          (s.opened [(f, base + 1)])
        rw [functionBlocks_continued (functionBlock_run flat emitted)]
        refine ⟨(f, base + 1) :: begun, progress, ?_, ?_⟩
        · rw [Pass.codeWith_behind (linked_append 0 _), openings_append, Image.length_linked, code]
          exact congrArg (· ++ titled begun) (openings_block acts)
        · rw [routines, reached, if_pos plain, List.map_cons, names]
          rfl
      | error rest =>
        have offends : ¬ r.Plain := settles.offends emitted
        rw [emitted] at acts
        rw [functionBlocks_stopped (functionBlock_run flat emitted)]
        refine ⟨[(f, base + 1)], rfl, openings_stopped acts, ?_⟩
        rw [routines, reached, if_neg offends]
        rfl

theorem openings_front {vs : Variables} {code : List Instruction} :
    openings base (.bare .start :: allocations vs ++ code)
      = openings (base + 1 + vs.length) code := by
  rw [openings_append, openings_other, List.nil_append, List.length_cons,
    Image.length_allocations, Nat.add_comm vs.length, Nat.add_assoc]
  simp [allocations]

/-- The functions of a program are all that its code tells of functions. -/
theorem programCode_opens {p : Program} (h : plan.ServesAll scope p.declarations) (base : Nat)
    (s : Progress) :
    ∃ begun, ((plan.programCode scope base p).run.run s).run.2 = s.opened begun ∧
      openings base (Pass.codeWith id ((plan.programCode scope base p).run.run s).run.1)
        = titled begun ∧
      begun.map (·.1) = (reached p.routines).map Routine.name := by
  obtain ⟨begun, progress, code, names⟩ :=
    functionBlocks_opens h (base + 1 + (vars p.declarations).length) s
  refine ⟨begun, ?_⟩
  rw [← and_assoc]
  refine ⟨?_, names⟩
  cases ran : ((plan.functionBlocks true scope (base + 1 + (vars p.declarations).length)
    p.declarations).run.run s).run with
  | mk result t =>
    rw [ran] at progress code
    cases result with
    | error e =>
      rw [programCode, Pass.run_stopped (Pass.run_behind_error ran)]
      exact ⟨progress, openings_front.trans code⟩
    | ok blocks =>
      rw [programCode, Pass.run_next (Pass.run_behind_ok ran), Pass.run_map, Pass.run_behind,
        bodyCode_run rfl]
      refine ⟨progress, ?_⟩
      generalize emitted : Context.actionCode _ _ _ _ = e
      have acts : Emission.Emits Instruction.Acts e := emitted ▸ Context.actionCode_acts _ _ _ _
      have body : ∀ (target : Nat) {more : List Instruction}, (∀ i ∈ more, i.opcode = .jump →
          i.comment = none) → openings base (.bare .start :: allocations (vars p.declarations)
            ++ (linked target blocks ++ more)) = titled begun := by
        intro target more quiet
        rw [openings_front, openings_append, openings_linked target 0, openings_none quiet,
          List.append_nil]
        exact code
      cases e with
      | ok actions =>
        have quiet : ∀ i ∈ actions ++ [.bare .halt], i.opcode = .jump → i.comment = none := by
          rw [List.forall_mem_append]
          exact ⟨fun i hi => (acts i hi).jump, by simp⟩
        have whole := body (base + 1 + (vars p.declarations).length + sizeOf blocks) quiet
        simpa [Emission.behind, Except.mapError, Except.map, Pass.codeWith] using whole
      | error rest =>
        have whole := body (base + 1 + (vars p.declarations).length + sizeOf blocks)
          fun i hi => (acts i hi).jump
        simpa [Emission.behind, Emission.emitted, Abandoned.behind, Except.mapError, Except.map,
          Pass.codeWith] using whole

end Plan

theorem opened_entries (s : Progress) (begun : Entries) :
    (s.opened begun).entries = begun.reverse ++ s.entries := by
  induction begun generalizing s with
  | nil => rfl
  | cons e begun ih =>
    rw [Progress.opened, List.foldl_cons, ← Progress.opened, ih, List.reverse_cons,
      List.append_assoc, List.singleton_append]

/-- What the table of the top level gets from functions that begin: their entries. -/
theorem opened_globals (s : Progress) (begun : Entries) :
    (s.opened begun).globals = { s.globals with
      symbols := s.globals.symbols.map fun x =>
        { x with entry := (begun.reverse.lookup x.name).or x.entry } } := by
  induction begun generalizing s with
  | nil => simp [Progress.opened]
  | cons e begun ih =>
    rw [Progress.opened, List.foldl_cons, ← Progress.opened, ih]
    simp only [Table.setEntry, Table.modify, List.map_map, Table.mk.injEq, true_and, and_true]
    refine List.map_congr_left fun x _ => ?_
    rw [List.reverse_cons, List.lookup_append, List.lookup_cons, Function.comp_apply]
    by_cases named : x.name = e.1
    · simp [named]
    · have other : (x.name == e.1) = false := by simpa using named
      simp [other]

/-- All code that a generator has emitted, also that of a program that it could not finish. -/
def allCode (ended : Except EmissionError Bytecode × Generator) : List Instruction :=
  (match ended.1 with
    | .ok b => b.instructions.toList
    | .error _ => []) ++ ended.2.pending

theorem allCode_generate (g : Generator) (p : Program) :
    allCode (g.generate p) = g.pending ++ Pass.codeWith id (g.emission p) := by
  unfold allCode
  rw [(generate_snd g p).1, generate_eq]
  cases g.emission p <;> simp [Except.map, Except.mapError, Pass.codeWith, Bytecode.ofList]

/-- A program leaves what was known to a fresh generator as it was, except for entries. -/
structure KeepsAnalysis (p : Program) (a : Analysis)
    (ended : Except EmissionError Bytecode × Generator) : Prop where
  functions : ended.2.analysis.functions = a.functions
  /-- Functions get the entries that the generator knows, and nothing else changes. -/
  globals : ended.2.analysis.globals = { a.globals with
    symbols := a.globals.symbols.map fun s =>
      if s.meaning.isFunction then { s with entry := ended.2.entries.find? s.name } else s }
  /-- No symbol had an entry before. -/
  unset : ∀ t ∈ a.globals :: a.functions, ∀ s ∈ t.symbols, s.entry = none
  /-- In the order of the code, the entries are those of the functions that it begins. -/
  code : openings 0 (allCode ended) = titled ended.2.entries.reverse
  /-- A function is begun unless the generator has stopped in one before it. -/
  begun : ∀ pre r post, p.routines = pre ++ r :: post →
    ((∃ entry, ended.2.entries.find? r.name = some entry) ↔ ∀ q ∈ pre, q.Plain)

end Generator

/-! ## Symbols without entries -/

theorem globalSymbols_unset (n : Nat) (ds : List Declaration) :
    ∀ s ∈ globalSymbols n ds, s.entry = none := by
  induction ds generalizing n with
  | nil => simp [globalSymbols]
  | cons d ds ih =>
    cases d
    all_goals exact List.forall_mem_cons.mpr ⟨rfl, ih _⟩

theorem Program.tables_unset (p : Program) :
    ∀ t ∈ p.tables.globals :: p.tables.functions, ∀ s ∈ t.symbols, s.entry = none := by
  refine List.forall_mem_cons.mpr ⟨globalSymbols_unset 0 p.declarations, ?_⟩
  intro t ht s hs
  obtain ⟨r, -, rfl⟩ := List.mem_map.mp ht
  obtain ⟨m, -, rfl⟩ := List.mem_map.mp hs
  rfl

open Generator

section Accepted

variable {p : Program} {a : Analysis}

/-- A name of a function is that of no variable. -/
theorem Accepted.function_of_name (h : Accepted p a) (dense : DenselyAddressed p a) {s : Symbol}
    (hs : s ∈ a.globals.symbols) (named : s.name ∈ p.routines.map Routine.name) :
    s.meaning.isFunction = true := by
  obtain ⟨r, hr, same⟩ := List.mem_map.mp named
  have found := dense.slots r hr
  rw [same, Table.find?_of_mem h.globals_nodup hs] at found
  rw [Option.some.inj found]
  rfl

theorem generate_keepsAnalysis (h : p.analyze = .ok a) :
    KeepsAnalysis p a ((Generator.ofAnalysis a).generate p) := by
  have accepted := Accepted.of_analyze h
  have dense := accepted.denselyAddressed (analyze_tables h)
  obtain ⟨begun, progress, code, names⟩ := Plan.programCode_opens (servesAll_of_analyze h)
    0 ⟨[], a.globals⟩
  have top : (Generator.ofAnalysis a).topTable p = a.globals :=
    accepted.materialize_globals a.functions p.vars.length
  obtain ⟨-, kept, entries⟩ := generate_snd (Generator.ofAnalysis a) p
  have emission : (Generator.ofAnalysis a).emission p = ((Plan.programCode
    ⟨a.functions, p.vars.length⟩ (.ofTable a.globals) 0 p).run.run ⟨[], a.globals⟩).run.1 := by
    rw [Generator.emission, top]
    rfl
  rw [top] at kept entries
  have noted : ((Generator.ofAnalysis a).generate p).2.entries = begun.reverse := by
    rw [entries]
    exact (congrArg Progress.entries progress).trans (by rw [opened_entries, List.append_nil])
  have unset : ∀ t ∈ a.globals :: a.functions, ∀ s ∈ t.symbols, s.entry = none := by
    rw [analyze_tables h]
    exact p.tables_unset
  refine ⟨by rw [kept]; rfl, ?_, unset, ?_, fun pre r post split => ?_⟩
  · have globals : ((Generator.ofAnalysis a).generate p).2.analysis.globals
        = (Progress.opened ⟨[], a.globals⟩ begun).globals := by
      rw [kept]
      exact congrArg Progress.globals progress
    rw [globals, opened_globals, noted, Table.mk.injEq]
    refine ⟨rfl, List.map_congr_left fun s hs => ?_, rfl⟩
    have empty := unset _ List.mem_cons_self s hs
    split
    · rw [empty, Option.or_none, Entries.find?]
    · rename_i other
      have unnamed : begun.reverse.lookup s.name = none := by
        rw [← Option.not_isSome_iff_eq_none]
        intro found
        refine other (accepted.function_of_name dense hs ?_)
        refine ((reached_sublist p.routines).map Routine.name).mem ?_
        rw [← names]
        simpa using found
      rw [unnamed, Option.none_or]
  · rw [allCode_generate, emission, noted, List.reverse_reverse]
    exact code
  · have distinct := accepted.routines_nodup
    rw [split] at names distinct
    rw [← mem_reached distinct, ← names, noted, Entries.find?, ← Option.isSome_iff_exists]
    simp

end Accepted

/-- The generator stops in the second of its functions. -/
theorem generate_keepsAnalysis_nestedCalls : ∃ a, nestedCalls.analyze = .ok a ∧
    KeepsAnalysis nestedCalls a ((Generator.ofAnalysis a).generate nestedCalls) := by
  have h : nestedCalls.analyze = .ok (Scope.known nestedCalls.declarations) := by decide +kernel
  exact ⟨_, h, generate_keepsAnalysis h⟩

end FlatStack
