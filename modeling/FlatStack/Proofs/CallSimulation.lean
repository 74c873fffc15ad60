import FlatStack.Proofs.CodeSimulation
import FlatStack.Proofs.ProgramFlow

/-!
# The code of calls simulates them

A call that begins with nothing but the variables of the top level on the
stack finds the slots of its function right above them: first the arguments,
then zeros for the variables. When it returns they are gone.
-/

set_option autoImplicit false

namespace FlatStack

open Machine Evaluation Generator

/-! ## Slots of a function -/

theorem lookup_zip {xs : List String} {vs : List Float} {x : String} (h : x ∉ xs) :
    (xs.zip vs).lookup x = none := by
  rw [List.lookup_eq_none_iff]
  intro m hm
  simpa using fun same : x = m.1 => h (same ▸ (List.of_mem_zip hm).1)

theorem map_bind_parameters {xs : List String} {vs : List Float} (hn : xs.Nodup)
    (hlen : xs.length = vs.length) : xs.map (bind xs vs) = vs := by
  induction xs generalizing vs with
  | nil => simpa using hlen.symm
  | cons x xs ih =>
    obtain _ | ⟨v, vs⟩ := vs
    · simp at hlen
    · obtain ⟨fresh, hn⟩ := List.nodup_cons.mp hn
      have further : ∀ y ∈ xs, bind (x :: xs) (v :: vs) y = bind xs vs y := by
        intro y hy
        have other : (y == x) = false := by simpa using fun same : y = x => fresh (same ▸ hy)
        simp [bind, List.lookup_cons, other]
      have here : bind (x :: xs) (v :: vs) x = v := by simp [bind]
      rw [List.map_cons, here, List.map_congr_left further, ih hn (by simpa using hlen)]

theorem bind_other {xs : List String} {vs : List Float} {x : String} (h : x ∉ xs) :
    bind xs vs x = 0 := by
  simp [bind, lookup_zip h]

/-- Arguments come first, and the variables of the function begin as zero. -/
theorem map_bind {xs locals : List String} {vs : List Float} (hn : (xs ++ locals).Nodup)
    (hlen : xs.length = vs.length) :
    (xs ++ locals).map (bind xs vs) = vs ++ List.replicate locals.length 0 := by
  have rest : locals.map (bind xs vs) = List.replicate locals.length 0 := by
    rw [List.eq_replicate_iff]
    refine ⟨by simp, ?_⟩
    intro v hv
    obtain ⟨x, hx, rfl⟩ := List.mem_map.mp hv
    exact bind_other fun h => List.disjoint_of_nodup_append hn h hx
  rw [List.map_append, map_bind_parameters (List.Nodup.of_append_left hn) hlen, rest]

/-! ## Instructions that make room and drop it -/

variable {p : Program} {b : Bytecode} {n : Nat}

namespace Setting

variable {g : Setting} {pc a : Nat} {s : Situation} {ts : List Float} {i : Instruction}

theorem advances_alloc (h : b.instructions[pc]? = some i) (hop : i.opcode = .alloc)
    (ha : count i.operand = 1) (room : g.tops.length + g.own.length + ts.length < maxSlots) :
    Advances b (g.machine pc s ts) (g.machine (pc + 1) s (ts ++ [0])) := by
  refine ⟨rfl, _, h, ?_⟩
  have fits : (g.machine pc s ts).stack.size + 1 ≤ maxSlots := by
    rw [size_machine]
    omega
  have grown : (g.machine pc s ts).grow 1 = g.machine pc s (ts ++ [0]) := by
    simp [Machine.grow, machine, padded]
  simp only [Machine.step, hop, ha, if_pos fits, grown, advance_machine]

theorem runs_allocations {vs : Variables} (hb : b.Holds pc (allocations vs))
    (room : g.tops.length + g.own.length + ts.length + vs.length ≤ maxSlots) :
    Runs b vs.length (g.machine pc s ts)
      (g.machine (pc + vs.length) s (ts ++ List.replicate vs.length 0)) := by
  induction vs generalizing pc ts with
  | nil => simpa using Runs.refl _
  | cons v vs ih =>
    obtain ⟨fetched, hb⟩ := Bytecode.holds_cons.mp hb
    rw [List.length_cons] at room
    have one : count (Instruction.withNat .alloc 1).operand = 1 := count_ofNat 1 (by norm_num)
    have first : Advances b (g.machine pc s ts) (g.machine (pc + 1) s (ts ++ [0])) :=
      advances_alloc fetched rfl one (by omega)
    have others : Runs b vs.length (g.machine (pc + 1) s (ts ++ [0])) (g.machine
        (pc + 1 + vs.length) s (ts ++ [0] ++ List.replicate vs.length 0)) :=
      ih hb (by simp; omega)
    rw [List.length_cons, List.replicate_succ, ← Nat.add_assoc, Nat.add_right_comm,
      List.append_cons]
    exact .step first others

/-- The slots of a function are dropped. -/
theorem advances_dealloc (h : b.instructions[pc]? = some i) (hop : i.opcode = .dealloc)
    (ha : count i.operand = g.own.length) :
    Advances b (g.machine pc s []) ({ g with own := [] }.machine (pc + 1) s []) := by
  refine ⟨rfl, _, h, ?_⟩
  have dropped : (g.machine pc s []).drop g.own.length = { g with own := [] }.machine pc s [] := by
    simp [Machine.drop, machine, frame]
  simp only [Machine.step, hop, ha, dropped, advance_machine]

theorem advances_pushReturn (h : b.instructions[pc]? = some i) (hop : i.opcode = .pushReturn)
    (ha : address i.operand = a) : Advances b (g.machine pc s ts)
      ({ g with returns := a :: g.returns }.machine (pc + 1) s ts) := by
  refine ⟨rfl, _, h, ?_⟩
  simp only [Machine.step, hop, ha]
  rfl

theorem advances_return (h : b.instructions[pc]? = some i) (hop : i.opcode = .return_) :
    Advances b ({ g with returns := a :: g.returns }.machine pc s ts) (g.machine a s ts) := by
  refine ⟨rfl, _, h, ?_⟩
  simp only [Machine.step, hop]
  rfl

end Setting

/-! ## Programs whose functions call nothing -/

/-- What keeps the slots of all functions apart from each other, from those of
the top level and from the operands of expressions. -/
structure Program.Plain (p : Program) : Prop where
  silent : ∀ q ∈ p.routines, q.calls = []
  initializers : p.vars.Leading
  statements : Statement.LeadingAll p.statements
  /-- Such a function would have its slots where those of the top level are. -/
  named : ∀ q ∈ p.routines, q.name ≠ globalScope
  top : p.vars.length ≤ maxSlots
  room : ∀ q ∈ p.routines, p.vars.length + q.slots ≤ maxSlots

def Program.setting (p : Program) : Setting := ⟨p.vars.names, [], []⟩

/-- The setting of a function that is to return to `after`. -/
def Program.inside (p : Program) (q : Routine) (after : Nat) : Setting :=
  ⟨p.vars.names, q.names, [after]⟩

namespace Image

variable {im : Image p b} {q : Piece}

theorem fits_top (im : Image p b) (plain : p.Plain) : p.setting.Fits im.context where
  slot x := im.accepted.slot_top x
  tops := im.accepted.names_nodup
  own := .nil
  room := by simpa [Program.setting] using plain.top

theorem fits_function (plain : p.Plain) (hq : q ∈ im.pieces) (after : Nat) :
    (p.inside q.routine after).Fits (im.contextOf q) where
  slot x := by
    have hslot := im.accepted.slot_function (routine_mem hq) x
    have apart := plain.named q.routine (routine_mem hq)
    simp only [slotIn, localSlot, if_neg apart] at hslot
    exact hslot
  tops := im.accepted.names_nodup
  own := im.accepted.routine_names (routine_mem hq)
  room := by
    simpa [Program.inside, Routine.length_names] using plain.room q.routine (routine_mem hq)

end Image

theorem Variables.apart_of_no_calls {own : List String} {call : Calling} {vs : Variables}
    (h : vs.calls = []) : vs.Apart own call := by
  rintro earlier x e later rfl u hu
  rw [Variables.calls_append, Variables.calls_some] at h
  obtain ⟨_, h⟩ := List.append_eq_nil_iff.mp h
  rw [(List.append_eq_nil_iff.mp h).1] at hu
  exact absurd hu List.not_mem_nil

/-! ## Calls -/

theorem Setting.runs_parameters {g : Setting} {s : Situation} {names : List String}
    {slots : List Nat} (h : List.Forall₂ (fun x a => g.slot? x = some a) names slots)
    (small : ∀ x a, g.slot? x = some a → a < 2 ^ 53) {base : Nat} {ts : List Float}
    (hb : b.Holds base (slots.map (.withNat .pushParameter))) :
    Runs b slots.length (g.machine base s ts)
      (g.machine (base + slots.length) s (ts ++ names.map (s.read g.own))) := by
  induction h generalizing base ts with
  | nil => simpa using Runs.refl _
  | @cons x a names slots hs _ ih =>
    obtain ⟨fetched, hb⟩ := Bytecode.holds_cons.mp hb
    have first : Advances b (g.machine base s ts)
        (g.machine (base + 1) s (ts ++ [s.read g.own x])) :=
      Setting.advances_load fetched (.inr rfl) (address_withNat (small x a hs)) hs
    have others : Runs b slots.length (g.machine (base + 1) s (ts ++ [s.read g.own x]))
        (g.machine (base + 1 + slots.length) s
          (ts ++ [s.read g.own x] ++ names.map (s.read g.own))) := ih hb
    rw [List.length_cons, List.map_cons, ← Nat.add_assoc, Nat.add_right_comm, List.append_cons]
    exact .step first others

namespace Image

variable {im : Image p b} {q : Piece}

theorem simulates_body (plain : p.Plain) (small : b.size < 2 ^ 53) (hq : q ∈ im.pieces)
    (hb : b.Holds (q.entry + q.routine.vars.length) q.actions) {call : Calling} {after : Nat}
    {s : Situation} (pending : ∀ x ∈ q.routine.vars.names, s.locals x = 0) :
    Simulates b n ((p.inside q.routine after).machine (q.entry + q.routine.vars.length) s [])
      (fun _ s' => (p.inside q.routine after).machine
        (q.entry + q.routine.vars.length + q.actions.length) s' [])
      ((q.routine.vars.prepare q.routine.names call >>= fun _ =>
        Statement.executeAll q.routine.names call n q.routine.statements) s) := by
  have silent := plain.silent q.routine (routine_mem hq)
  obtain ⟨hv, hs⟩ := List.append_eq_nil_iff.mp silent
  have named := im.accepted.routine_names (routine_mem hq)
  apply simulates_actions (fits_function plain hq after) small (im.laid.emitted hq) hb
    (Variables.leading_of_no_calls hv) (Statement.leadingAll_of_no_calls _ hs)
  · intro u hu
    have hu : u ∈ q.routine.calls := hu
    rw [silent] at hu
    exact absurd hu List.not_mem_nil
  · exact List.Nodup.of_append_right named
  · exact Variables.apart_of_no_calls hv
  · intro x hx
    have own : x ∈ q.routine.names := List.mem_append_right _ hx
    exact (if_pos own).trans (pending x hx)

/-- The end of a function: its slots are dropped, and the caller goes on. -/
theorem runs_epilogue {q : Routine} {pc after : Nat} {s : Situation} {locals : Env}
    (hb : b.Holds pc (Plan.epilogue q.slots)) (room : q.slots ≤ maxSlots) :
    ∃ k, Runs b k ((p.inside q after).machine pc s [])
      (p.setting.machine after { s with locals } []) := by
  by_cases none : q.slots = 0
  · have own : q.names = [] := by
      rw [← List.length_eq_zero_iff, Routine.length_names, none]
    rw [Plan.epilogue, if_pos none] at hb
    refine ⟨1, .single ?_⟩
    unfold Program.inside
    rw [own]
    exact Setting.advances_return (g := p.setting) hb.fetch rfl
  · rw [Plan.epilogue, if_neg none] at hb
    have drop := Setting.advances_dealloc (g := p.inside q after) (s := s) hb.fetch rfl (by
      rw [Program.inside, Routine.length_names]
      exact count_ofNat q.slots (room.trans_lt maxSlots_exact))
    have back : Advances b ({ p.setting with returns := [after] }.machine (pc + 1) s [])
        (p.setting.machine after s []) :=
      Setting.advances_return (Bytecode.holds_cons.mp hb).2.fetch rfl
    exact ⟨2, .step drop (.single back)⟩

/-- From the start of a call to where the slots of the function are complete. -/
theorem runs_entrance (plain : p.Plain) (small : b.size < 2 ^ 53) (hq : q ∈ im.pieces)
    {names : List String} {slots : List Nat} {base : Nat} {s : Situation}
    (hslots : List.Forall₂ (fun x a => p.setting.slot? x = some a) names slots)
    (hlen : names.length = q.routine.parameters.length)
    (hb : b.Holds base (.withNat .pushReturn (base + slots.length + 2)
      :: slots.map (.withNat .pushParameter) ++ [.withNat .call q.entry]))
    (hqb : b.Holds q.entry q.code) :
    ∃ k, Runs b k (p.setting.machine base s [])
      ((p.inside q.routine (base + slots.length + 2)).machine (q.entry + q.routine.vars.length)
        { s with locals := bind q.routine.parameters (names.map (s.read [])) } []) := by
  have most := hb.length_le (by simp)
  have low := hqb.length_le (by simp [Piece.code, Plan.epilogue])
  have room := plain.room q.routine (routine_mem hq)
  have named := im.accepted.routine_names (routine_mem hq)
  simp only [List.cons_append, List.length_cons, List.length_append, List.length_map,
    List.length_nil] at most
  rw [List.cons_append, Bytecode.holds_cons, Bytecode.holds_append] at hb
  obtain ⟨push, params, jump⟩ := hb
  rw [List.length_map] at jump
  rw [Piece.code, List.append_assoc, Bytecode.holds_append] at hqb
  -- The names of the function come into play once all its slots are there.
  let g : Setting := { p.setting with returns := [base + slots.length + 2] }
  have pushed : Advances b (p.setting.machine base s []) (g.machine (base + 1) s []) :=
    Setting.advances_pushReturn push rfl (address_withNat (by omega))
  have passed : Runs b slots.length (g.machine (base + 1) s [])
      (g.machine (base + 1 + slots.length) s ([] ++ names.map (s.read []))) :=
    Setting.runs_parameters (g := g) hslots
      (fun x a h => ((fits_top im plain).slot_small h).2) params
  have entered : Advances b (g.machine (base + 1 + slots.length) s ([] ++ names.map (s.read [])))
      (g.machine q.entry s ([] ++ names.map (s.read []))) :=
    Setting.advances_jump jump.fetch (.inr rfl) (address_withNat (by omega))
  have grown : Runs b q.routine.vars.length (g.machine q.entry s ([] ++ names.map (s.read [])))
      (g.machine (q.entry + q.routine.vars.length) s
        ([] ++ names.map (s.read []) ++ List.replicate q.routine.vars.length 0)) := by
    apply Setting.runs_allocations hqb.1
    simp only [Routine.slots, g, Program.setting, List.length_append, List.length_map,
      List.length_nil, Variables.length_names] at room ⊢
    omega
  have complete : g.machine (q.entry + q.routine.vars.length) s
        ([] ++ names.map (s.read []) ++ List.replicate q.routine.vars.length 0)
      = (p.inside q.routine (base + slots.length + 2)).machine
        (q.entry + q.routine.vars.length)
        { s with locals := bind q.routine.parameters (names.map (s.read [])) } [] := by
    have frame : (q.routine.parameters ++ q.routine.vars.names).map
          (bind q.routine.parameters (names.map (s.read [])))
        = names.map (s.read []) ++ List.replicate q.routine.vars.length 0 := by
      rw [map_bind named (by simpa using hlen.symm), Variables.length_names]
    simp only [Setting.machine, Setting.frame, g, Program.setting, Program.inside,
      Routine.names, frame, List.map_nil, List.append_nil, List.nil_append]
  rw [complete] at grown
  exact ⟨_, .step pushed (passed.trans (.step entered grown))⟩

end Image

/-- A call with a new environment in place of the caller's. -/
theorem Program.call_found {q : Routine} {f : String} (found : p.routine? f = some q)
    (bound depth : Nat) (values : List Float) (s : Situation) :
    p.call bound (depth + 1) f values s
      = ((q.vars.prepare q.names (p.call bound depth) >>= fun _ =>
          Statement.executeAll q.names (p.call bound depth) bound q.statements) >>= fun _ =>
            modify fun s' => { s' with locals := s.locals })
          { s with locals := bind q.parameters values } := by
  rw [Program.call, found, bind_assoc]
  rfl

theorem Image.serves_top (im : Image p b) (plain : p.Plain) (small : b.size < 2 ^ 53) {u : Use}
    (hu : u ∈ p.calls) : Serves b n im.context p.setting (p.call n n) u := by
  intro names base code s hlen hcode hb
  obtain ⟨q, hq, hname, hfits, hentry⟩ := im.call_top hu
  cases n with
  | zero => exact ⟨0, _, le_rfl, .refl _, rfl⟩
  | succ depth =>
    obtain ⟨_, hparams, rfl⟩ := Context.callCode_ok.mp hcode
    obtain ⟨names', slots, same, hslots, rfl⟩ := Context.parameterCode_ok.mp hparams
    obtain rfl : names = names' :=
      List.map_injective_iff.mpr (fun _ _ h => Expr.var.inj h) same
    have found : p.routine? u.1 = some q.routine := by
      rw [← hname]
      exact im.accepted.routine?_eq (routine_mem hq)
    obtain ⟨_, _, functions, _, _⟩ := image_holds im
    have hqb := im.laid.holds functions hq
    rw [List.length_map, hentry] at hb
    have hslots : List.Forall₂ (fun x a => p.setting.slot? x = some a) names slots :=
      hslots.imp fun x a h => by rwa [← (fits_top im plain).slot]
    obtain ⟨k, entrance⟩ := runs_entrance (s := s) plain small hq hslots (by omega) hb hqb
    have hqb' := hqb
    rw [Piece.code, List.append_assoc, Bytecode.holds_append, Bytecode.holds_append,
      Image.length_allocations] at hqb'
    obtain ⟨_, hbody, hend⟩ := hqb'
    have room := plain.room q.routine (routine_mem hq)
    rw [Program.call_found found]
    refine (Simulates.after entrance (Simulates.bind
      (simulates_body plain small hq hbody ?_) ?_)).mono (Nat.le_add_left _ _)
    · intro x hx
      have named := im.accepted.routine_names (routine_mem hq)
      exact bind_other fun h => List.disjoint_of_nodup_append named h hx
    · intro _ s' _
      rw [List.length_append, List.length_cons, List.length_map]
      exact runs_epilogue hend (by omega)

end FlatStack
