import FlatStack.Proofs.Segment
import FlatStack.Proofs.Slots

/-!
# Images of programs

The code of an accepted program consists of the allocations of the top level,
the functions one after another, each behind a jump over all of them, and the
initializers and statements of the top level. A call leads to the function
that the scope check found for it.
-/

set_option autoImplicit false

namespace FlatStack

open Declaration (vars routines Declares)

namespace Generator

/-! ## Passes -/

namespace Pass

/-- A pass succeeds. -/
def Yields {α : Type} (x : Pass α) (s : Progress) (a : α) (s' : Progress) : Prop :=
  (x.run.run s).run = (.ok a, s')

variable {α β : Type} {s s' : Progress} {a : α} {b : β}

theorem run_bind {x : Pass α} {f : α → Pass β} :
    ((x >>= f).run.run s).run = match (x.run.run s).run with
      | (.ok a, t) => ((f a).run.run t).run
      | (.error e, t) => (.error e, t) := by
  simp only [ExceptT.run_bind, StateT.run_bind]
  rcases x.run.run s with ⟨_ | a, t⟩ <;> rfl

theorem run_behind {before : List Instruction} {x : Pass α} :
    ((behind before x).run.run s).run
      = (Emission.behind before (x.run.run s).run.1, (x.run.run s).run.2) := rfl

theorem yields_bind {x : Pass α} {f : α → Pass β} :
    (x >>= f).Yields s b s' ↔ ∃ a t, x.Yields s a t ∧ (f a).Yields t b s' := by
  unfold Yields
  rw [run_bind]
  rcases (x.run.run s).run with ⟨_ | a, t⟩
  · simp
  · constructor
    · exact fun h => ⟨a, t, rfl, h⟩
    · rintro ⟨_, _, heq, h⟩
      cases heq
      exact h

theorem yields_pure {a' : α} : (pure a : Pass α).Yields s a' s' ↔ a = a' ∧ s = s' := by
  unfold Yields
  change ((Except.ok a, s) : Except Abandoned α × Progress) = _ ↔ _
  simp

theorem yields_get {t : Progress} : (get : Pass Progress).Yields s t s' ↔ s = t ∧ s = s' := by
  unfold Yields
  change ((Except.ok s, s) : Except Abandoned Progress × Progress) = _ ↔ _
  simp

theorem yields_emit {e : Except Abandoned α} : (emit e).Yields s a s' ↔ e = .ok a ∧ s = s' := by
  unfold Yields
  change ((e, s) : Except Abandoned α × Progress) = _ ↔ _
  simp

theorem yields_behind {before : List Instruction} {x : Pass α} :
    (behind before x).Yields s a s' ↔ x.Yields s a s' := by
  unfold Yields
  rw [run_behind]
  rcases (x.run.run s).run with ⟨_ | a', t⟩ <;> simp [Emission.behind, Except.mapError]

theorem yields_enter {name : String} {entry : Nat} {u : Unit} :
    (enter true name entry).Yields s u s' ↔
      ⟨(name, entry) :: s.entries, s.globals.setEntry name entry⟩ = s' := by
  unfold Yields
  change ((Except.ok (), ⟨(name, entry) :: s.entries, s.globals.setEntry name entry⟩) :
    Except Abandoned Unit × Progress) = _ ↔ _
  simp

end Pass

/-! ## Functions in a row -/

/-- The code of a function, and what is known when it is generated. -/
structure Piece where
  routine : Routine
  entry : Nat
  entries : Entries
  /-- What it does once its slots exist. -/
  actions : List Instruction

namespace Piece

def code (q : Piece) : List Instruction :=
  allocations q.routine.vars ++ q.actions ++ Plan.epilogue q.routine.slots

def block (q : Piece) : Block := ⟨q.routine.name, q.code⟩

def context (a : Analysis) (globals : Nat) (q : Piece) : Context :=
  ⟨scopeOf a globals q.routine, globals, q.entries⟩

end Piece

/-- The table of the top level once the entries of functions are noted in it. -/
def entered (t : Table) (qs : List Piece) : Table :=
  qs.foldl (fun t q => t.setEntry q.routine.name q.entry) t

/-- The pieces of routines from an address on. -/
inductive Laid (a : Analysis) (globals : Nat) :
    Nat → Entries → List Routine → List Piece → Entries → Prop where
  | nil {base : Nat} {entries : Entries} : Laid a globals base entries [] [] entries
  | cons {base : Nat} {entries final : Entries} {q : Piece} {rs : List Routine}
    {qs : List Piece} :
    q.entry = base + 1 → q.entries = (q.routine.name, q.entry) :: entries →
      (q.context a globals).actionCode (q.entry + q.routine.vars.length) q.routine.vars
        q.routine.statements = .ok q.actions →
      Laid a globals (base + 1 + q.code.length) q.entries rs qs final →
      Laid a globals base entries (q.routine :: rs) (q :: qs) final

namespace Laid

variable {a : Analysis} {globals base : Nat} {entries final : Entries} {rs : List Routine}
  {qs qs' : List Piece} {q : Piece}

theorem routines_eq (h : Laid a globals base entries rs qs final) :
    rs = qs.map Piece.routine := by
  induction h with
  | nil => rfl
  | cons _ _ _ _ ih => rw [List.map_cons, ← ih]

/-- A name that is not laid out keeps its entry. -/
theorem find?_other (h : Laid a globals base entries rs qs final) {f : String}
    (hf : ∀ q ∈ qs, q.routine.name ≠ f) : final.find? f = entries.find? f := by
  induction h with
  | nil => rfl
  | cons _ hes _ _ ih =>
    rw [ih fun q hq => hf q (List.mem_cons_of_mem _ hq), hes, Entries.find?, List.lookup_cons]
    have hne := beq_eq_false_iff_ne.mpr (hf _ List.mem_cons_self).symm
    simp only [hne, Entries.find?]

theorem find?_entry (h : Laid a globals base entries rs qs final)
    (hn : (rs.map (·.name)).Nodup) (hq : q ∈ qs) : final.find? q.routine.name = some q.entry := by
  induction h with
  | nil => simp at hq
  | cons _ hes _ rest ih =>
    obtain ⟨fresh, hn⟩ := List.nodup_cons.mp hn
    rcases List.mem_cons.mp hq with rfl | hq
    · rw [rest.find?_other, hes, Entries.find?, List.lookup_cons_self]
      intro q' hq' heq
      refine fresh (List.mem_map.mpr ⟨q'.routine, ?_, heq⟩)
      rw [rest.routines_eq]
      exact List.mem_map_of_mem hq'
    · exact ih hn hq

/-- What is laid out up to a piece. -/
theorem upto (h : Laid a globals base entries rs (qs ++ q :: qs') final) :
    Laid a globals base entries ((qs ++ [q]).map Piece.routine) (qs ++ [q]) q.entries := by
  induction qs generalizing base entries rs with
  | nil =>
    cases h with
    | cons he hes ha _ => exact .cons he hes ha .nil
  | cons q' qs ih =>
    cases h with
    | cons he hes ha rest => exact .cons he hes ha (ih rest)

theorem emitted (h : Laid a globals base entries rs qs final) (hq : q ∈ qs) :
    (q.context a globals).actionCode (q.entry + q.routine.vars.length) q.routine.vars
      q.routine.statements = .ok q.actions := by
  induction h with
  | nil => simp at hq
  | cons _ _ ha _ ih =>
    rcases List.mem_cons.mp hq with rfl | hq
    · exact ha
    · exact ih hq

theorem holds {b : Bytecode} {target : Nat} (h : Laid a globals base entries rs qs final)
    (hb : b.Holds base (linked target (qs.map Piece.block))) (hq : q ∈ qs) :
    b.Holds q.entry q.code := by
  induction h with
  | nil => simp at hq
  | cons he _ _ _ ih =>
    rw [List.map_cons, linked, List.flatMap_cons, List.cons_append, Bytecode.holds_cons,
      Bytecode.holds_append] at hb
    rcases List.mem_cons.mp hq with rfl | hq
    · rw [he]
      exact hb.2.1
    · exact ih hb.2.2 hq

end Laid

namespace Plan

variable {plan : Plan} {around : Scope} {base : Nat} {s s' : Progress}

theorem functionBlocks_none {top : Bool} {ds : List Declaration} {blocks : List Block}
    (hd : routines ds = [])
    (h : (plan.functionBlocks top around base ds).Yields s blocks s') :
    blocks = [] ∧ s = s' := by
  induction ds generalizing base blocks with
  | nil =>
    rw [functionBlocks, Pass.yields_pure] at h
    exact ⟨h.1.symm, h.2⟩
  | cons d ds ih =>
    cases d with
    | function f ps inner ss => simp [routines] at hd
    | «variable» x e =>
      simp only [functionBlocks, functionBlock, Pass.yields_bind, Pass.yields_pure,
        Pass.yields_behind] at h
      obtain ⟨_, _, ⟨rfl, rfl⟩, others, _, ho, rfl, rfl⟩ := h
      obtain ⟨rfl, rfl⟩ := ih hd ho
      exact ⟨rfl, rfl⟩

theorem bodyCode_yields {scope : Scope} {vs : Variables} {blocks : List Block}
    {ss : List Statement} {code : List Instruction} :
    (plan.bodyCode scope base vs blocks ss).Yields s code s' ↔
      ∃ actions, Context.actionCode ⟨scope, plan.globals, s.entries⟩
          (base + vs.length + sizeOf blocks) vs ss = .ok actions ∧
        allocations vs ++ linked (base + vs.length + sizeOf blocks) blocks ++ actions = code ∧
          s = s' := by
  simp only [bodyCode, Pass.yields_bind, Pass.yields_get, Pass.yields_behind, Pass.yields_emit,
    Pass.yields_pure]
  constructor
  · rintro ⟨_, _, ⟨rfl, rfl⟩, actions, _, ⟨ha, rfl⟩, hc, rfl⟩
    exact ⟨actions, ha, hc, rfl⟩
  · rintro ⟨actions, ha, hc, rfl⟩
    exact ⟨s, s, ⟨rfl, rfl⟩, actions, s, ⟨ha, rfl⟩, hc, rfl⟩

theorem sizeOf_nil : sizeOf [] = 0 := rfl

theorem sizeOf_cons (k : Block) (ks : List Block) :
    sizeOf (k :: ks) = k.code.length + 1 + sizeOf ks := by
  simp [sizeOf]

/-- Functions without functions inside are laid out as pieces. -/
theorem functionBlocks_laid {a : Analysis} {globals : Nat} {ds : List Declaration}
    {blocks : List Block}
    (flat : ∀ f ps inner ss, .function f ps inner ss ∈ ds → routines inner = [])
    (h : (Plan.functionBlocks ⟨a.functions, globals⟩ true (.ofTable a.globals) base ds).Yields
      s blocks s') :
    ∃ qs, Laid a globals base s.entries (routines ds) qs s'.entries ∧
      qs.map Piece.block = blocks ∧ s'.globals = entered s.globals qs := by
  induction ds generalizing base s blocks with
  | nil =>
    rw [functionBlocks, Pass.yields_pure] at h
    obtain ⟨rfl, rfl⟩ := h
    exact ⟨[], .nil, rfl, rfl⟩
  | cons d ds ih =>
    have rest := fun f ps inner ss hmem => flat f ps inner ss (List.mem_cons_of_mem d hmem)
    cases d with
    | «variable» x e =>
      simp only [functionBlocks, functionBlock, Pass.yields_bind, Pass.yields_pure,
        Pass.yields_behind] at h
      obtain ⟨_, _, ⟨rfl, rfl⟩, others, _, ho, rfl, rfl⟩ := h
      exact ih rest ho
    | function f ps inner ss =>
      simp only [functionBlocks, functionBlock, Pass.yields_bind, Pass.yields_pure,
        Pass.yields_behind, Pass.yields_enter, bodyCode_yields] at h
      obtain ⟨_, _, ⟨_, _, rfl, _, _, hinner, _, _, ⟨actions, ha, rfl, rfl⟩, rfl, rfl⟩,
        others, _, ho, rfl, rfl⟩ := h
      obtain ⟨rfl, rfl⟩ := functionBlocks_none (flat f ps inner ss List.mem_cons_self) hinner
      obtain ⟨qs, hq, rfl, noted⟩ := ih rest ho
      let q : Piece := ⟨⟨f, ps, vars inner, ss⟩, base + 1, (f, base + 1) :: s.entries, actions⟩
      have hcode : allocations (vars inner)
          ++ linked (base + 1 + (vars inner).length + sizeOf []) []
          ++ actions ++ epilogue (ps.length + (vars inner).length) = q.code := by
        simp [Piece.code, linked, q, Routine.slots]
      have hnext : base + sizeOf [⟨f, q.code⟩] = base + 1 + q.code.length := by
        rw [sizeOf_cons, sizeOf_nil]
        simp only []
        omega
      rw [hcode, hnext] at hq
      refine ⟨q :: qs, .cons (q := q) rfl rfl ha hq, ?_, noted⟩
      rw [hcode]
      rfl

theorem programCode_yields {scope : Scope} {p : Program} {code : List Instruction} :
    (plan.programCode scope base p).Yields s code s' ↔
      ∃ blocks, (plan.functionBlocks true scope (base + 1 + p.vars.length)
          p.declarations).Yields s blocks s' ∧
        ∃ actions, Context.actionCode ⟨scope, plan.globals, s'.entries⟩
            (base + 1 + p.vars.length + sizeOf blocks) p.vars p.statements = .ok actions ∧
          .bare .start :: (allocations p.vars
            ++ linked (base + 1 + p.vars.length + sizeOf blocks) blocks ++ actions)
              ++ [.bare .halt] = code := by
  simp only [programCode, Pass.yields_bind, Pass.yields_behind, Pass.yields_pure,
    bodyCode_yields]
  constructor
  · rintro ⟨blocks, _, hb, _, _, ⟨actions, ha, rfl, rfl⟩, rfl, rfl⟩
    exact ⟨blocks, hb, actions, ha, rfl⟩
  · rintro ⟨blocks, hb, actions, ha, rfl⟩
    exact ⟨blocks, s', hb, _, s', ⟨actions, ha, rfl, rfl⟩, rfl, rfl⟩

end Plan

theorem Piece.sizeOf_cons (q : Piece) (qs : List Piece) : sizeOf ((q :: qs).map Piece.block)
    = 1 + q.code.length + sizeOf (qs.map Piece.block) := by
  rw [List.map_cons, Plan.sizeOf_cons, Piece.block, Nat.add_comm 1]

end Generator

open Generator

/-- `b` is the code of `p`, which passed the scope check. -/
def Compiled (p : Program) (b : Bytecode) : Prop :=
  ∃ a, p.analyze = .ok a ∧ ((Generator.ofAnalysis a).generate p).1 = .ok b

/-- The code of a program, unless it is rejected. -/
def Program.code? (p : Program) : Option Bytecode :=
  p.analyze.toOption.bind fun a => ((Generator.ofAnalysis a).generate p).1.toOption

theorem compiled_iff {p : Program} {b : Bytecode} : Compiled p b ↔ p.code? = some b := by
  unfold Compiled Program.code?
  cases p.analyze with
  | error es => simp [Except.toOption]
  | ok a =>
    cases h : ((Generator.ofAnalysis a).generate p).1 <;> simp [Except.toOption, h]

/-- The parts of the code of a program. -/
structure Image (p : Program) (b : Bytecode) where
  analysis : Analysis
  pieces : List Piece
  /-- The entries of all functions. -/
  entries : Entries
  /-- Where the initializers and statements of the top level begin. -/
  start : Nat
  actions : List Instruction
  accepted : Accepted p analysis
  laid : Laid analysis p.vars.length (1 + p.vars.length) [] p.routines pieces entries
  start_eq : start = 1 + p.vars.length + Generator.sizeOf (pieces.map Piece.block)
  emitted : Context.actionCode ⟨.ofTable analysis.globals, p.vars.length, entries⟩ start p.vars
    p.statements = .ok actions
  code : b = .ofList (Instruction.bare .start :: (allocations p.vars
    ++ linked start (pieces.map Piece.block) ++ actions) ++ [Instruction.bare .halt])

/-- The code that a generator returns has its parts where the generator notes them. -/
theorem Image.of_generate {p : Program} {a : Analysis} {b : Bytecode} {g : Generator}
    (analyzed : p.analyze = .ok a)
    (generated : (Generator.ofAnalysis a).generate p = (.ok b, g)) :
    ∃ im : Image p b, im.entries = g.entries ∧ im.analysis = a ∧
      g.analysis.globals = entered a.globals im.pieces := by
  have accepted := Accepted.of_analyze analyzed
  have hg := accepted.materialize_globals a.functions p.vars.length
  have hy : ∃ code s', (Plan.programCode ⟨a.functions, p.vars.length⟩ (.ofTable a.globals) 0
      p).Yields ⟨[], a.globals⟩ code s' ∧ b = .ofList code ∧ s'.entries = g.entries ∧
        s'.globals = g.analysis.globals := by
    simp only [Generator.generate, Generator.ofAnalysis, Body.vars] at generated hg ⊢
    rw [hg] at generated
    split at generated
    rename_i result progress ran
    cases result with
    | error e => simp at generated
    | ok code =>
      obtain ⟨same, rfl⟩ := Prod.mk.inj generated
      exact ⟨code, progress, ran, by simpa using same.symm, rfl, rfl⟩
  obtain ⟨code, s', yields, rfl, entries, globals⟩ := hy
  rw [Plan.programCode_yields] at yields
  obtain ⟨blocks, hb, actions, ha, rfl⟩ := yields
  have flat : ∀ f ps inner ss, .function f ps inner ss ∈ p.declarations → routines inner = [] := by
    intro f ps inner ss hmem
    obtain ⟨pre, post, hp⟩ := List.append_of_mem hmem
    exact (accepted.function hp).1
  obtain ⟨qs, laid, rfl, noted⟩ := Plan.functionBlocks_laid flat hb
  rw [Nat.zero_add] at laid ha
  rw [entries] at laid ha
  exact ⟨⟨a, qs, _, _, actions, accepted, laid, rfl, ha, by rw [Nat.zero_add]⟩, rfl, rfl,
    globals.symm.trans noted⟩

theorem Compiled.image {p : Program} {b : Bytecode} (h : Compiled p b) : Nonempty (Image p b) := by
  obtain ⟨a, analyzed, generated⟩ := h
  obtain ⟨im, _⟩ := Image.of_generate analyzed (Prod.ext generated rfl)
  exact ⟨im⟩

namespace Declaration

theorem initializer_split {ds : List Declaration} {u : Use} (h : u ∈ (vars ds).calls) :
    ∃ pre x e post, ds = pre ++ .variable x (some e) :: post ∧ u ∈ e.calls := by
  obtain ⟨x, e, hmem, hu⟩ := Variables.mem_initializers.mp h
  obtain ⟨earlier, later, hvars⟩ := List.append_of_mem hmem
  obtain ⟨pre, post, hds, _⟩ := vars_split hvars
  exact ⟨pre, x, e, post, hds, hu⟩

end Declaration

namespace Image

variable {p : Program} {b : Bytecode} (im : Image p b)

/-- What the initializers and statements of the top level are generated with. -/
def context : Context := ⟨.ofTable im.analysis.globals, p.vars.length, im.entries⟩

/-- What the body of a function is generated with. -/
def contextOf (q : Piece) : Context := q.context im.analysis p.vars.length

theorem routines_eq : p.routines = im.pieces.map Piece.routine := im.laid.routines_eq

variable {im} {q q' : Piece}

theorem routine_mem (hq : q ∈ im.pieces) : q.routine ∈ p.routines := by
  rw [im.routines_eq]
  exact List.mem_map_of_mem hq

theorem eq_of_name (hq : q ∈ im.pieces) (hq' : q' ∈ im.pieces)
    (h : q.routine.name = q'.routine.name) : q = q' := by
  have hn := im.accepted.routines_nodup
  rw [im.routines_eq, List.map_map] at hn
  exact List.inj_on_of_nodup_map hn hq hq' h

/-- The declarations up to a function are laid out up to its piece. -/
theorem pieces_split (hq : q ∈ im.pieces) : ∃ pre ps inner ss post qs qs',
    p.declarations = pre ++ .function q.routine.name ps inner ss :: post ∧
      q.routine = ⟨q.routine.name, ps, vars inner, ss⟩ ∧
        im.pieces = qs ++ q :: qs' ∧ routines pre = qs.map Piece.routine := by
  obtain ⟨pre, ps, inner, ss, post, hp, hr⟩ := Declaration.routine_split (routine_mem hq)
  have hsplit := im.routines_eq
  rw [Body.routines, hp, Declaration.routines_append, routines, ← hr] at hsplit
  obtain ⟨qs, rest, hpieces, hpre, hrest⟩ := List.map_eq_append_iff.mp hsplit.symm
  obtain ⟨q', qs', rfl, hq', _⟩ := List.map_eq_cons_iff.mp hrest
  have hmem : q' ∈ im.pieces := by simp [hpieces]
  obtain rfl := eq_of_name hmem hq (by rw [hq'])
  exact ⟨pre, ps, inner, ss, post, qs, qs', hp, hr, hpieces, hpre.symm⟩

/-- A call in a function leads to a function laid out so far. -/
theorem call_function (hq : q ∈ im.pieces) {u : Use} (hu : u ∈ q.routine.calls) :
    ∃ q' ∈ im.pieces, q'.routine.name = u.1 ∧ q'.routine.parameters.length = u.2 ∧
      (im.contextOf q).entry u.1 = q'.entry := by
  obtain ⟨pre, ps, inner, ss, post, qs, qs', hp, hr, hpieces, hpre⟩ := pieces_split hq
  rw [hr] at hu
  obtain ⟨r, hmem, hname, hfits⟩ := (im.accepted.function hp).2.2.1 u hu
  have hso : routines (pre ++ [.function q.routine.name ps inner ss])
      = (qs ++ [q]).map Piece.routine := by
    rw [Declaration.routines_append, hpre, List.map_append, List.map_singleton, hr]
    rfl
  rw [hso] at hmem
  obtain ⟨q', hq', rfl⟩ := List.mem_map.mp hmem
  have hin : q' ∈ im.pieces := by
    rw [hpieces, List.append_cons]
    exact List.mem_append_left _ hq'
  have laid := im.laid
  rw [hpieces] at laid
  have hn : (((qs ++ [q]).map Piece.routine).map (·.name)).Nodup := by
    have := im.accepted.routines_nodup
    rw [im.routines_eq, hpieces, List.append_cons, List.map_append, List.map_append] at this
    exact List.Nodup.of_append_left this
  refine ⟨q', hin, hname, hfits, ?_⟩
  have hfind := laid.upto.find?_entry hn hq'
  rw [hname] at hfind
  simp [contextOf, Piece.context, Context.entry, hfind]

theorem call_top {u : Use} (hu : u ∈ p.calls) :
    ∃ q' ∈ im.pieces, q'.routine.name = u.1 ∧ q'.routine.parameters.length = u.2 ∧
      im.context.entry u.1 = q'.entry := by
  have hd : Declares p.declarations u := by
    rcases List.mem_append.mp hu with hu | hu
    · obtain ⟨pre, x, e, post, hp, hu⟩ := Declaration.initializer_split hu
      rw [hp]
      exact (im.accepted.initializer hp u hu).append
    · exact im.accepted.statements u hu
  obtain ⟨r, hmem, hname, hfits⟩ := hd
  have hso : routines p.declarations = im.pieces.map Piece.routine := im.routines_eq
  rw [hso] at hmem
  obtain ⟨q', hq', rfl⟩ := List.mem_map.mp hmem
  refine ⟨q', hq', hname, hfits, ?_⟩
  have hfind := im.laid.find?_entry im.accepted.routines_nodup hq'
  rw [hname] at hfind
  simp [context, Context.entry, hfind]

/-! ## Where the parts stand -/

theorem holds_whole : b.Holds 0 (Instruction.bare .start :: (allocations p.vars
    ++ linked im.start (im.pieces.map Piece.block) ++ im.actions) ++ [Instruction.bare .halt]) :=
  Bytecode.holds_all im.code

theorem length_allocations (vs : Variables) : (allocations vs).length = vs.length := by
  simp [allocations]

theorem length_linked (target : Nat) (blocks : List Block) :
    (linked target blocks).length = Generator.sizeOf blocks := by
  induction blocks with
  | nil => rfl
  | cons k ks ih =>
    rw [Plan.sizeOf_cons, ← ih]
    simp [linked]
    omega

theorem size_eq (im : Image p b) : b.size = im.start + im.actions.length + 1 := by
  have hcode := congrArg Bytecode.size im.code
  simp only [Bytecode.size, Bytecode.ofList, List.size_toArray, List.length_cons,
    List.length_append, List.length_nil, length_allocations, length_linked] at hcode
  rw [Bytecode.size, hcode, im.start_eq]
  omega

end Image

end FlatStack
