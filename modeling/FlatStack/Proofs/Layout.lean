import FlatStack.Proofs.Exact
import FlatStack.Proofs.Roles

/-!
# Layout of code

In the code of an accepted program no jump and no call is left without its
target. Calls enter functions where these begin, and the generator and its table
know the same entries. What a function skips and what its branches reach follows
from the roles of its instructions, and no branch leaves its region.
-/

set_option autoImplicit false

namespace FlatStack

open Generator

namespace Bytecode

/-- The code of the function that begins at `entry`, up to its return. -/
def Within (b : Bytecode) (entry pc : Nat) : Prop :=
  entry ≤ pc ∧ ∀ k i, entry ≤ k → k < pc → b.instructions[k]? = some i → i.opcode ≠ .return_

/-- The operand at `pc` is the address `t` of an instruction, and not the first one. -/
def Leads (b : Bytecode) (pc : Nat) (o : Opcode) (t : Nat) : Prop :=
  b.instructions[pc]? = some (.withNat o t) ∧ 0 < t ∧ t < b.size

end Bytecode

/-! ## Functions in a row -/

namespace Generator

/-- The addresses of the code of a function. -/
def Piece.Covers (q : Piece) (pc : Nat) : Prop := q.entry ≤ pc ∧ pc < q.entry + q.code.length

theorem Piece.code_snoc (q : Piece) : ∃ before, q.code = before ++ [.bare .return_] :=
  ⟨_, (List.append_assoc _ _ _).symm⟩

theorem Piece.length_pos (q : Piece) : 0 < q.code.length := by
  obtain ⟨before, h⟩ := q.code_snoc
  simp [h]

namespace Laid

variable {a : Analysis} {globals base target : Nat} {entries final : Entries} {rs : List Routine}
  {qs : List Piece} {q q' : Piece} {b : Bytecode}

theorem bounds (h : Laid a globals base entries rs qs final) (hq : q ∈ qs) :
    base < q.entry ∧ q.entry + q.code.length ≤ base + sizeOf (qs.map Piece.block) := by
  induction h with
  | nil => simp at hq
  | cons he _ _ _ ih =>
    rw [Piece.sizeOf_cons]
    rcases List.mem_cons.mp hq with rfl | hq
    · omega
    · have := ih hq
      omega

/-- No address is in the code of two functions. -/
theorem apart (h : Laid a globals base entries rs qs final) (hq : q ∈ qs) (hq' : q' ∈ qs)
    {pc : Nat} (covers : q.Covers pc) (covers' : q'.Covers pc) : q = q' := by
  unfold Piece.Covers at covers covers'
  induction h with
  | nil => simp at hq
  | cons he _ _ rest ih =>
    -- The first piece ends where the others begin, so only the tail needs the induction.
    rcases List.mem_cons.mp hq with same | hq <;> rcases List.mem_cons.mp hq' with same' | hq'
    · rw [same, same']
    · have := (rest.bounds hq').1
      subst same
      omega
    · have := (rest.bounds hq).1
      subst same'
      omega
    · exact ih hq hq'

/-- The last function ends where all of them do. -/
theorem last_ends (h : Laid a globals base entries rs qs final) (some : qs ≠ []) :
    ∃ q ∈ qs, q.entry + q.code.length = base + sizeOf (qs.map Piece.block) := by
  induction h with
  | nil => exact absurd rfl some
  | @cons _ _ _ q _ qs he _ _ _ ih =>
    rw [Piece.sizeOf_cons]
    cases qs with
    | nil => exact ⟨q, List.mem_cons_self, by rw [List.map_nil, Plan.sizeOf_nil]; omega⟩
    | cons q' qs =>
      obtain ⟨last, hmem, ends⟩ := ih (List.cons_ne_nil _ _)
      exact ⟨last, List.mem_cons_of_mem _ hmem, by omega⟩

/-- A function stands behind the jump over it, and so do its roles. -/
theorem behind_skip (h : Laid a globals base entries rs qs final)
    (hlen : ∀ q ∈ qs, q.code.length = q.routine.roles.length) {roles : List Role}
    (hb : b.Holds base (linked target (qs.map Piece.block)))
    (hr : Stands roles base (linkedRoles rs)) (hq : q ∈ qs) :
    ∃ t, q.entry = t + 1 ∧ b.Holds t (skip target q.routine.name :: q.code) ∧
      Stands roles t (.skip q.routine.name :: q.routine.roles) := by
  induction h with
  | nil => simp at hq
  | cons he _ _ _ ih =>
    rw [List.map_cons, linked, List.flatMap_cons, ← linked, Bytecode.holds_append] at hb
    rw [linkedRoles, List.flatMap_cons, ← linkedRoles, stands_append, List.length_cons,
      ← hlen _ List.mem_cons_self] at hr
    rcases List.mem_cons.mp hq with rfl | hq
    · exact ⟨_, he, hb.1, hr.1⟩
    · rw [List.length_cons, Nat.add_comm _ 1, ← Nat.add_assoc] at hb
      rw [Nat.add_comm _ 1, ← Nat.add_assoc] at hr
      exact ih (fun q' hq' => hlen q' (List.mem_cons_of_mem _ hq')) hb.2 hr.2 hq

/-- Only functions that are laid out have entries. -/
theorem find?_laid (h : Laid a globals base [] rs qs final) (distinct : (rs.map (·.name)).Nodup)
    {f : String} {entry : Nat} (found : final.find? f = some entry) :
    ∃ q ∈ qs, q.routine.name = f ∧ q.entry = entry := by
  by_cases named : ∃ q ∈ qs, q.routine.name = f
  · obtain ⟨q, hq, rfl⟩ := named
    rw [h.find?_entry distinct hq] at found
    exact ⟨q, hq, rfl, Option.some.inj found⟩
  · push Not at named
    rw [h.find?_other named] at found
    simp [Entries.find?] at found

end Laid

end Generator

/-! ## Entries in the table -/

namespace Table

variable {t : Table} {f g : String} {entry : Nat}

theorem find?_setEntry : (t.setEntry f entry).find? g
    = (t.find? g).map fun s => if s.name = f then { s with entry := some entry } else s :=
  find?_modify fun _ => rfl

/-- A known name has the entry that is noted for it. -/
theorem entry_setEntry (known : t.has f = true) :
    ((t.setEntry f entry).find? f).bind Symbol.entry = some entry := by
  obtain ⟨s, found⟩ := Option.isSome_iff_exists.mp known
  rw [find?_setEntry, found]
  simp [name_of_find? found]

theorem entry_setEntry_other (other : g ≠ f) :
    ((t.setEntry f entry).find? g).bind Symbol.entry = (t.find? g).bind Symbol.entry := by
  rw [find?_setEntry]
  cases found : t.find? g with
  | none => rfl
  | some s => simp [name_of_find? found, other]

theorem has_setEntry : (t.setEntry f entry).has g = t.has g := by
  rw [has, find?_setEntry, Option.isSome_map, has]

end Table

namespace Generator

variable {t : Table} {qs : List Piece} {q : Piece}

theorem entered_other {f : String} (other : ∀ q ∈ qs, f ≠ q.routine.name) :
    ((entered t qs).find? f).bind Symbol.entry = (t.find? f).bind Symbol.entry := by
  induction qs generalizing t with
  | nil => rfl
  | cons q qs ih =>
    have rest := ih (t := t.setEntry q.routine.name q.entry)
      fun q' h => other q' (List.mem_cons_of_mem _ h)
    rw [entered, List.foldl_cons, ← entered, rest]
    exact Table.entry_setEntry_other (other q List.mem_cons_self)

theorem entered_entry (distinct : (qs.map fun q => q.routine.name).Nodup) (hq : q ∈ qs)
    (known : t.has q.routine.name = true) :
    ((entered t qs).find? q.routine.name).bind Symbol.entry = some q.entry := by
  induction qs generalizing t with
  | nil => simp at hq
  | cons q' qs ih =>
    obtain ⟨fresh, distinct⟩ := List.nodup_cons.mp distinct
    rw [entered, List.foldl_cons, ← entered]
    rcases List.mem_cons.mp hq with rfl | hq
    · have other : ∀ q' ∈ qs, q.routine.name ≠ q'.routine.name :=
        fun q' h same => fresh (List.mem_map.mpr ⟨q', h, same.symm⟩)
      rw [entered_other other]
      exact Table.entry_setEntry known
    · exact ih distinct hq (by rwa [Table.has_setEntry])

end Generator

/-! ## Every address of the code -/

namespace Image

variable {p : Program} {b : Bytecode} (im : Image p b)

def places : Places where
  enters f t := ∃ q ∈ im.pieces, q.routine.name = f ∧ q.entry = t
  leaves pc := ∃ q ∈ im.pieces, pc + 1 = q.entry + q.code.length
  after := im.start

/-- The addresses from `lowest` to `highest` are in the code of the same
functions. -/
def Joined (lowest highest : Nat) : Prop :=
  ∀ q ∈ im.pieces, ∀ x y, lowest ≤ x → x ≤ highest → lowest ≤ y → y ≤ highest →
    q.Covers x → q.Covers y

/-- What stands at an address fits its role, and the addresses that it may
branch to are in the code of the same functions. -/
structure MeetsWithin (lowest highest pc : Nat) (r : Role) : Prop where
  low : lowest ≤ pc
  high : pc ≤ highest
  inside : highest < b.size
  pos : 0 < lowest ∨ r = .plain
  joined : im.Joined lowest highest
  fits : Fits b im.places lowest highest pc r

def Meets (pc : Nat) (r : Role) : Prop := ∃ lowest highest, im.MeetsWithin lowest highest pc r

variable {im} {q : Piece} {pc : Nat} {r : Role}

theorem covered_lt (hq : q ∈ im.pieces) (covers : q.Covers pc) : pc < im.start := by
  have := (im.laid.bounds hq).2
  have := covers.2
  have := im.start_eq
  omega

theorem joined_piece (hq : q ∈ im.pieces) {highest : Nat}
    (ends : q.entry + q.code.length = highest + 1) : im.Joined q.entry highest := by
  intro q' hq' x y hx hx' hy hy' covers
  obtain rfl := im.laid.apart hq' hq covers ⟨hx, by omega⟩
  exact ⟨hy, by omega⟩

theorem joined_top {highest : Nat} : im.Joined im.start highest := by
  intro q hq x y hx _ _ _ covers
  have := covered_lt hq covers
  omega

theorem joined_one : im.Joined pc pc := by
  intro q hq x y hx hx' hy hy' covers
  rwa [show y = x by omega]

theorem meets_one (fits : Fits b im.places pc pc pc r) (bound : pc < b.size)
    (pos : 0 < pc ∨ r = .plain) : im.Meets pc r :=
  ⟨pc, pc, ⟨le_rfl, le_rfl, bound, pos, joined_one, fits⟩⟩

theorem meets_plain {i : Instruction} (found : b.instructions[pc]? = some i)
    (ho : i.opcode ∉ Opcode.controls) : im.Meets pc .plain :=
  meets_one ⟨i, found, ho⟩ (Array.getElem?_eq_some_iff.mp found).1 (.inr rfl)

theorem enters_function (hq : q ∈ im.pieces) {u : Use} (hu : u ∈ q.routine.calls) :
    im.places.enters u.1 ((im.contextOf q).entry u.1) := by
  obtain ⟨q', hq', named, _, entry⟩ := im.call_function hq hu
  exact ⟨q', hq', named, entry.symm⟩

theorem enters_top {u : Use} (hu : u ∈ p.calls) :
    im.places.enters u.1 (im.context.entry u.1) := by
  obtain ⟨q, hq, named, _, entry⟩ := im.call_top hu
  exact ⟨q, hq, named, entry.symm⟩

theorem piece_fits (hq : q ∈ im.pieces) (hb : b.Holds q.entry q.code) {highest : Nat}
    (ends : q.entry + q.code.length = highest + 1) :
    Along (Fits b im.places q.entry highest) q.entry q.routine.roles := by
  have returns : 0 < (Plan.epilogue q.routine.slots).length := by simp [Plan.epilogue]
  have emitted := im.laid.emitted hq
  have whole : q.entry + q.routine.vars.length + q.actions.length
      + (Plan.epilogue q.routine.slots).length = q.entry + q.code.length := by
    rw [Piece.code, List.length_append, List.length_append, length_allocations]
    omega
  rw [Piece.code, Bytecode.holds_append, Bytecode.holds_append, List.length_append,
    length_allocations, ← Nat.add_assoc] at hb
  obtain ⟨⟨allocated, acted⟩, returned⟩ := hb
  rw [Routine.roles, along_append, along_append, List.length_append, List.length_replicate,
    length_actionRoles emitted, ← Nat.add_assoc]
  refine ⟨⟨allocations_fit allocated, ?_⟩, epilogue_fits returned ?_⟩
  · exact actions_fit emitted acted (fun u hu => enters_function hq hu) (by omega) (by omega)
  · exact fun pc h => ⟨q, hq, h.trans whole⟩

theorem piece_meets (hq : q ∈ im.pieces) (hb : b.Holds q.entry q.code) :
    Along im.Meets q.entry q.routine.roles := by
  have size := hb.length_le (List.ne_nil_of_length_pos q.length_pos)
  have first := (im.laid.bounds hq).1
  obtain ⟨highest, ends⟩ : ∃ highest, q.entry + q.code.length = highest + 1 :=
    ⟨_, (Nat.succ_pred_eq_of_pos (Nat.add_pos_right _ q.length_pos)).symm⟩
  refine (piece_fits hq hb ends).imp fun k r hk fits => ?_
  rw [Routine.length_roles, ← length_piece im hq] at hk
  exact ⟨q.entry, highest, ⟨by omega, by omega, by omega, .inl (by omega), joined_piece hq ends,
    fits⟩⟩

theorem linked_meets {base : Nat} {entries final : Entries} {rs : List Routine} {qs : List Piece}
    (h : Laid im.analysis p.vars.length base entries rs qs final) (hq : ∀ q ∈ qs, q ∈ im.pieces)
    (hb : b.Holds base (linked im.start (qs.map Piece.block))) (pos : 0 < base) :
    Along im.Meets base (linkedRoles rs) := by
  induction h with
  | nil => exact along_nil
  | @cons base _ _ q _ _ he _ _ _ ih =>
    have mem := hq q List.mem_cons_self
    rw [List.map_cons, linked, List.flatMap_cons, List.cons_append, Bytecode.holds_cons,
      Bytecode.holds_append, ← linked] at hb
    obtain ⟨skips, here, there⟩ := hb
    rw [linkedRoles, List.flatMap_cons, ← linkedRoles, List.cons_append, along_cons, along_append,
      Routine.length_roles, ← length_piece im mem]
    have bound := (Array.getElem?_eq_some_iff.mp skips).1
    rw [← he] at here ⊢
    refine ⟨meets_one skips bound (.inl pos), piece_meets mem here, ?_⟩
    rw [he]
    exact ih (fun q' h => hq q' (List.mem_cons_of_mem _ h)) there (by omega)

theorem actions_meet (im : Image p b) :
    Along im.Meets im.start (p.vars.roles ++ Statement.rolesAll p.statements) := by
  obtain ⟨_, _, _, acted, _⟩ := image_holds im
  have size := im.size_eq
  have start := im.start_eq
  have fits := actions_fit im.emitted acted (fun u hu => enters_top hu) le_rfl le_rfl
  refine fits.imp fun k r hk fits => ?_
  rw [length_actionRoles im.emitted] at hk
  exact ⟨im.start, im.start + im.actions.length, ⟨by omega, by omega, by omega, .inl (by omega),
    joined_top, fits⟩⟩

/-- Every address of the code has a role and meets it. -/
theorem program_meets (im : Image p b) : Along im.Meets 0 p.roles := by
  obtain ⟨started, allocated, functions, _, halted⟩ := image_holds im
  have length : (linkedRoles p.routines).length = Generator.sizeOf (im.pieces.map Piece.block) := by
    rw [length_linkedRoles (d := 0), length_routineSites im]
  have front : 0 + 1 + (List.replicate p.globals Role.plain ++ linkedRoles p.routines).length
      = im.start := by
    rw [List.length_append, List.length_replicate, length, im.start_eq, Program.globals]
    omega
  rw [Program.roles, List.cons_append, along_cons, along_append, along_append, along_append,
    @List.length_append _ (_ ++ linkedRoles _), length_actionRoles im.emitted, ← Nat.add_assoc,
    front, List.length_replicate]
  refine ⟨meets_plain started (by simp [Opcode.controls]), ⟨⟨?_, ?_⟩, actions_meet im⟩,
    along_one (meets_plain halted (by simp [Opcode.controls]))⟩
  · refine along_replicate fun k hk => meets_plain (i := .withNat .alloc 1) ?_
      (by simp [Opcode.controls])
    exact allocation_at allocated hk
  · exact linked_meets im.laid (fun _ hq => hq) functions (by omega)

theorem length_roles (im : Image p b) : p.roles.length = b.size := by
  rw [← length_sites im]
  simp only [Program.roles, Program.sites, List.length_append, List.length_cons, List.length_nil,
    List.length_replicate, length_allocationSites, length_linkedRoles (d := p.globals),
    Variables.length_roles (r := .top) (d := p.globals),
    Statement.length_rolesAll (r := .top) (d := p.globals)]

/-- Every instruction has a role, which the address meets. -/
theorem role_at {i : Instruction} (found : b.instructions[pc]? = some i) :
    ∃ r, p.roles[pc]? = some r ∧ im.Meets pc r := by
  have bound : pc < p.roles.length := by
    rw [im.length_roles]
    exact (Array.getElem?_eq_some_iff.mp found).1
  have here := im.program_meets pc _ (List.getElem?_eq_getElem bound)
  rw [Nat.zero_add] at here
  exact ⟨_, List.getElem?_eq_getElem bound, here⟩

theorem meets_of_role (hr : p.roles[pc]? = some r) : im.Meets pc r := by
  have here := im.program_meets pc r hr
  rwa [Nat.zero_add] at here

/-! ## Regions -/

/-- Only functions return, and only at their ends. -/
theorem returns_at_end {i : Instruction} (found : b.instructions[pc]? = some i)
    (returns : i.opcode = .return_) : ∃ q ∈ im.pieces, pc + 1 = q.entry + q.code.length := by
  obtain ⟨r, _, _, _, meets⟩ := im.role_at found
  obtain ⟨i', found', opcode⟩ := meets.fits.opcode
  obtain rfl : i = i' := Option.some.inj (found.symm.trans found')
  have role := (opcode .return_ (by simp [Opcode.controls])).mp returns
  cases r with
  | leave => exact meets.fits.2
  | _ => simp [Role.opcode?] at role

theorem piece_holds (hq : q ∈ im.pieces) : b.Holds q.entry q.code :=
  im.laid.holds (image_holds im).2.2.1 hq

/-- A function ends with a return. -/
theorem return_at (hq : q ∈ im.pieces) (ends : pc + 1 = q.entry + q.code.length) :
    b.instructions[pc]? = some (.bare .return_) := by
  have holds := piece_holds hq
  obtain ⟨before, code⟩ := q.code_snoc
  rw [code, List.length_append, List.length_singleton] at ends
  rw [code, Bytecode.holds_append] at holds
  obtain rfl : pc = q.entry + before.length := by omega
  exact holds.2.fetch

theorem within_iff (hq : q ∈ im.pieces) : b.Within q.entry pc ↔ q.Covers pc := by
  have pos := q.length_pos
  constructor
  · rintro ⟨low, none⟩
    refine ⟨low, ?_⟩
    by_contra beyond
    exact none (q.entry + q.code.length - 1) _ (by omega) (by omega)
      (return_at hq (by omega)) rfl
  · rintro ⟨low, high⟩
    -- A return in between would end a function there, and this one ends later.
    refine ⟨low, fun k i hk hk' found returns => ?_⟩
    obtain ⟨q', hq', ends⟩ := im.returns_at_end found returns
    have pos' := q'.length_pos
    have covers : q'.Covers k := ⟨by omega, by omega⟩
    obtain rfl := im.laid.apart hq' hq covers ⟨hk, by omega⟩
    omega

end Image

/-- Two addresses are in the code of the same function, or both are in none. -/
def SameRegion (b : Bytecode) (entries : Entries) (pc t : Nat) : Prop :=
  ∀ f entry, entries.find? f = some entry → (b.Within entry pc ↔ b.Within entry t)

namespace Image

variable {p : Program} {b : Bytecode} {im : Image p b} {q : Piece} {pc t : Nat} {r : Role}

/-- A branch that stays between the bounds stays in its region. -/
theorem MeetsWithin.sameRegion {lowest highest : Nat} (h : im.MeetsWithin lowest highest pc r)
    (low : lowest ≤ t) (high : t ≤ highest) : SameRegion b im.entries pc t := by
  intro f entry found
  obtain ⟨q, hq, _, rfl⟩ := im.laid.find?_laid im.accepted.routines_nodup found
  rw [within_iff hq, within_iff hq]
  exact ⟨h.joined q hq pc t h.low h.high low high, h.joined q hq t pc low high h.low h.high⟩

/-- An operand up to the upper bound is an address of the code. -/
theorem MeetsWithin.leads {lowest highest : Nat} {o : Opcode}
    (h : im.MeetsWithin lowest highest pc r) (found : b.instructions[pc]? = some (.withNat o t))
    (pos : 0 < t) (high : t ≤ highest) : b.Leads pc o t :=
  ⟨found, pos, high.trans_lt h.inside⟩

theorem enters_find? {f : String} (h : im.places.enters f t) : im.entries.find? f = some t := by
  obtain ⟨q, hq, rfl, rfl⟩ := h
  exact im.laid.find?_entry im.accepted.routines_nodup hq

theorem enters_inside {f : String} (h : im.places.enters f t) : 0 < t ∧ t < b.size := by
  obtain ⟨q, hq, _, rfl⟩ := h
  have := im.laid.bounds hq
  have := q.length_pos
  have := im.start_eq
  have := im.size_eq
  omega

end Image

/-! ## The layout of a program -/

/-- The opcodes whose operand is an address of the code. -/
def Opcode.transfers : List Opcode := [.jump, .jumpIfZero, .pushReturn, .call]

theorem Opcode.transfers_controls {o : Opcode} (h : o ∈ transfers) : o ∈ controls := by
  simp only [transfers, controls, List.mem_cons, List.not_mem_nil, or_false] at h ⊢
  tauto

/-- How the code `b` of `p` is laid out by a generator, which is `g` afterwards. -/
structure LaidOut (p : Program) (b : Bytecode) (g : Generator) : Prop where
  /-- As many instructions have a role as there are. -/
  size : p.roles.length = b.size
  /-- The roles tell what takes part in control. -/
  kinds : ∀ (pc : Nat) (i : Instruction), b.instructions[pc]? = some i →
    ∃ r, p.roles[pc]? = some r ∧ ∀ o ∈ Opcode.controls, i.opcode = o ↔ r.opcode? = some o
  /-- Operands are addresses of the code, and exact if they are below `2 ^ 53`. -/
  operands : ∀ (pc : Nat) (i : Instruction), b.instructions[pc]? = some i →
    i.opcode ∈ Opcode.transfers → ∃ t, i.operand = some (Float.ofNat t) ∧ 0 < t ∧ t < b.size ∧
      (t < 2 ^ 53 → Machine.address i.operand = t)
  /-- A function has its code behind the jump over it, from the entry that is
  noted twice up to its return. -/
  functions : ∀ q ∈ p.routines, ∃ t after : Nat, Stands p.roles t (Role.skip q.name :: q.roles) ∧
    b.instructions[t]? = some (skip after q.name) ∧ g.entries.find? q.name = some (t + 1) ∧
      (g.analysis.globals.find? q.name).bind Symbol.entry = some (t + 1) ∧
        ∀ pc, b.Within (t + 1) pc ↔ t + 1 ≤ pc ∧ pc < t + 1 + q.roles.length
  /-- Functions are skipped to what comes behind the last return. -/
  skips : ∃ after : Nat, 0 < after ∧ after < b.size ∧
    (∀ (pc : Nat) (f : String), p.roles[pc]? = some (.skip f) →
      b.instructions[pc]? = some (skip after f)) ∧
    (p.routines ≠ [] → ∃ last : Nat, after = last + 1 ∧
      b.instructions[last]? = some (.bare .return_)) ∧
    ∀ (pc : Nat) (i : Instruction), after ≤ pc → b.instructions[pc]? = some i → i.opcode ≠ .return_
  /-- A call returns to what comes behind it. -/
  begins : ∀ (pc : Nat) (f : String) (n : Nat), p.roles[pc]? = some (.begin f n) →
    b.Leads pc .pushReturn (pc + n + 2) ∧
      (∀ k < n, ∃ a : Nat, b.instructions[pc + 1 + k]? = some (.withNat .pushParameter a)) ∧
        ∃ t : Nat, g.entries.find? f = some t ∧ b.Leads (pc + 1 + n) .call t
  /-- A call enters its function. -/
  enters : ∀ (pc : Nat) (f : String), p.roles[pc]? = some (.enter f) →
    ∃ q ∈ p.routines, q.name = f ∧ ∃ t : Nat, g.entries.find? f = some t ∧ b.Leads pc .call t
  branches : ∀ pc n : Nat, p.roles[pc]? = some (.branch n) →
    b.Leads pc .jumpIfZero (pc + 1 + n) ∧ SameRegion b g.entries pc (pc + 1 + n)
  joins : ∀ pc n : Nat, p.roles[pc]? = some (.join n) →
    b.Leads pc .jump (pc + 1 + n) ∧ SameRegion b g.entries pc (pc + 1 + n)
  /-- A loop leads back to the code of its condition, which is left for what
  comes behind the loop. -/
  backs : ∀ (pc : Nat) (e : Expr), p.roles[pc]? = some (.back e) →
    ∃ (t : Nat) (c : Context) (code : List Instruction),
      b.Leads pc .jump t ∧ SameRegion b g.entries pc t ∧ c.exprCode t e = .ok code ∧
        b.Holds t code ∧ t + code.length < pc ∧ b.Leads (t + code.length) .jumpIfZero (pc + 1)

theorem Program.linkedRoles_stand (p : Program) :
    Stands p.roles (1 + p.vars.length) (linkedRoles p.routines) := by
  have whole : Stands p.roles 0 p.roles := stands_all
  nth_rewrite 2 [Program.roles] at whole
  rw [List.cons_append, stands_cons, stands_append, stands_append, stands_append,
    List.length_replicate] at whole
  have functions := whole.2.1.1.2
  rwa [Nat.zero_add] at functions

namespace Image

variable {p : Program} {b : Bytecode} {im : Image p b} {pc : Nat} {r : Role} {i : Instruction}

theorem Meets.operand (h : im.Meets pc r) (found : b.instructions[pc]? = some i)
    (transfers : i.opcode ∈ Opcode.transfers) :
    ∃ t, i.operand = some (Float.ofNat t) ∧ 0 < t ∧ t < b.size := by
  obtain ⟨lowest, highest, low, high, inside, pos, _, fits⟩ := h
  have exactly : ∀ {o : Opcode} {t : Nat}, b.instructions[pc]? = some (.withNat o t) →
      0 < t → t < b.size → ∃ t, i.operand = some (Float.ofNat t) ∧ 0 < t ∧ t < b.size := by
    intro o t stands pos inside
    obtain rfl := Option.some.inj (found.symm.trans stands)
    exact ⟨t, rfl, pos, inside⟩
  have elsewhere : ∀ {j : Instruction}, b.instructions[pc]? = some j →
      j.opcode ∉ Opcode.transfers → ∃ t, i.operand = some (Float.ofNat t) ∧ 0 < t ∧ t < b.size := by
    intro j stands other
    obtain rfl := Option.some.inj (found.symm.trans stands)
    exact absurd transfers other
  cases r with
  | plain =>
    obtain ⟨j, stands, none⟩ := fits
    exact elsewhere stands fun transfers => none (Opcode.transfers_controls transfers)
  | skip f =>
    have := im.start_eq
    have := im.size_eq
    obtain rfl := Option.some.inj (found.symm.trans fits)
    exact ⟨im.start, rfl, by omega, by omega⟩
  | branch n | join n => exact exactly fits.1 (by omega) (by have := fits.2; omega)
  | back e =>
    obtain ⟨t, _, _, stands, above, below, _⟩ := fits
    have : 0 < lowest := pos.resolve_right (by simp)
    exact exactly stands (by omega) (by omega)
  | begin f n => exact exactly fits.1 (by omega) (by have := fits.2.1; omega)
  | pass =>
    obtain ⟨_, stands⟩ := fits
    exact elsewhere stands (by simp [Opcode.transfers])
  | enter f =>
    obtain ⟨t, enters, stands⟩ := fits
    obtain ⟨pos, inside⟩ := enters_inside enters
    exact exactly stands pos inside
  | leave => exact elsewhere fits.1 (by simp [Opcode.transfers])

/-- Behind all functions nothing returns. -/
theorem no_return_behind (behind : im.start ≤ pc) (found : b.instructions[pc]? = some i) :
    i.opcode ≠ .return_ := by
  intro returns
  obtain ⟨q, hq, ends⟩ := im.returns_at_end found returns
  have := (im.laid.bounds hq).2
  have := im.start_eq
  omega

/-- What comes behind all functions comes behind a return, if there is a function. -/
theorem return_before (im : Image p b) (nonempty : p.routines ≠ []) :
    ∃ last, im.start = last + 1 ∧ b.instructions[last]? = some (.bare .return_) := by
  have pieces : im.pieces ≠ [] := by
    rintro none
    rw [im.routines_eq, none] at nonempty
    exact nonempty rfl
  obtain ⟨q, hq, ends⟩ := im.laid.last_ends pieces
  have pos := q.length_pos
  rw [← im.start_eq] at ends
  exact ⟨im.start - 1, by omega, return_at hq (by omega)⟩

/-- A function has its code and its roles behind the jump over it. -/
theorem function_at {q : Piece} (hq : q ∈ im.pieces) : ∃ t, q.entry = t + 1 ∧
    b.instructions[t]? = some (skip im.start q.routine.name) ∧
      Stands p.roles t (.skip q.routine.name :: q.routine.roles) := by
  obtain ⟨t, entry, code, roles⟩ := im.laid.behind_skip
    (fun q' hq' => (length_piece im hq').trans q'.routine.length_roles.symm)
    (image_holds im).2.2.1 p.linkedRoles_stand hq
  exact ⟨t, entry, code.fetch, roles⟩

/-- The table of the top level knows the entry of every function. -/
theorem entered_pieces {q : Piece} (hq : q ∈ im.pieces) :
    ((entered im.analysis.globals im.pieces).find? q.routine.name).bind Symbol.entry
      = some q.entry := by
  have distinct := im.accepted.routines_nodup
  rw [im.routines_eq, List.map_map] at distinct
  refine entered_entry distinct hq ?_
  rw [Table.has_iff, im.accepted.known.globals.meanings]
  exact (routines_sublist 0 p.declarations).mem (List.mem_map_of_mem (im.routine_mem hq))

end Image

theorem code_laidOut {p : Program} {a : Analysis} {b : Bytecode} {g : Generator}
    (analyzed : p.analyze = .ok a) (generated : (Generator.ofAnalysis a).generate p = (.ok b, g)) :
    LaidOut p b g := by
  obtain ⟨im, entries, rfl, noted⟩ := Image.of_generate analyzed generated
  constructor
  case size => exact im.length_roles
  case kinds =>
    intro pc i found
    obtain ⟨r, role, _, _, meets⟩ := im.role_at found
    obtain ⟨i', found', opcode⟩ := meets.fits.opcode
    obtain rfl := Option.some.inj (found.symm.trans found')
    exact ⟨r, role, opcode⟩
  case operands =>
    intro pc i found transfers
    obtain ⟨r, _, meets⟩ := im.role_at found
    obtain ⟨t, operand, pos, inside⟩ := meets.operand found transfers
    exact ⟨t, operand, pos, inside, fun small => operand ▸ Machine.address_ofNat t small⟩
  case functions =>
    intro q hq
    rw [im.routines_eq] at hq
    obtain ⟨q', hq', rfl⟩ := List.mem_map.mp hq
    obtain ⟨t, entry, skips, roles⟩ := Image.function_at hq'
    have found := im.laid.find?_entry im.accepted.routines_nodup hq'
    have known := Image.entered_pieces hq'
    refine ⟨t, im.start, roles, skips, ?_, ?_, fun pc => ?_⟩
    · rw [← entries, found, entry]
    · rw [noted, known, entry]
    · rw [← entry, Image.within_iff hq', Piece.Covers, length_piece im hq', Routine.length_roles]
  case skips =>
    have start := im.start_eq
    have size := im.size_eq
    refine ⟨im.start, by omega, by omega, fun pc f role => ?_, im.return_before,
      fun pc i => Image.no_return_behind⟩
    obtain ⟨_, _, meets⟩ := im.meets_of_role role
    exact meets.fits
  case begins =>
    intro pc f n role
    obtain ⟨_, _, meets⟩ := im.meets_of_role role
    obtain ⟨begins, inside, passes, t, enters, calls⟩ := meets.fits
    exact ⟨meets.leads begins (by omega) inside, passes, t, entries ▸ Image.enters_find? enters,
      calls, Image.enters_inside enters⟩
  case enters =>
    intro pc f role
    obtain ⟨_, _, meets⟩ := im.meets_of_role role
    obtain ⟨t, enters, calls⟩ := meets.fits
    have found := Image.enters_find? enters
    have inside := Image.enters_inside enters
    obtain ⟨q, hq, named, _⟩ := enters
    exact ⟨q.routine, im.routine_mem hq, named, t, entries ▸ found, calls, inside⟩
  case branches =>
    intro pc n role
    obtain ⟨_, _, meets⟩ := im.meets_of_role role
    obtain ⟨branches, inside⟩ := meets.fits
    have low := meets.low
    exact ⟨meets.leads branches (by omega) inside, entries ▸ meets.sameRegion (by omega) inside⟩
  case joins =>
    intro pc n role
    obtain ⟨_, _, meets⟩ := im.meets_of_role role
    obtain ⟨jumps, inside⟩ := meets.fits
    have low := meets.low
    exact ⟨meets.leads jumps (by omega) inside, entries ▸ meets.sameRegion (by omega) inside⟩
  case backs =>
    intro pc e role
    obtain ⟨lowest, highest, meets⟩ := im.meets_of_role role
    obtain ⟨t, c, code, jumps, above, below, condition, holds, leaves, inside⟩ := meets.fits
    have high := meets.high
    have pos : 0 < lowest := meets.pos.resolve_right (by simp)
    exact ⟨t, c, code, meets.leads jumps (by omega) (by omega),
      entries ▸ meets.sameRegion above (by omega), condition, holds, below, leaves, by omega,
      inside.trans_lt meets.inside⟩

/-- Two functions, one with an alternative and one with a loop, that a loop calls. -/
def laps : Program :=
  ⟨[.variable "i" (some (.number 2)),
    .function "f" ["a"] [] [.ifElse (.var "a") [.echo (.var "a")] [.echo (.number 0)]],
    .function "g" ["b"] []
      [.loop (.var "b") [.assign "b" (.binary .sub (.var "b") (.number 1))]]],
    [.loop (.var "i")
      [.call "f" [.var "i"], .call "g" [.var "i"],
        .assign "i" (.binary .sub (.var "i") (.number 1))]]⟩

def lapsCode : Bytecode := laps.code?.getD .empty

theorem laps_compiled : Compiled laps lapsCode := compiled_iff.mpr (by decide +kernel)

theorem code_laidOut_laps : ∃ a g, laps.analyze = .ok a ∧
    (Generator.ofAnalysis a).generate laps = (.ok lapsCode, g) ∧ LaidOut laps lapsCode g := by
  obtain ⟨a, analyzed, generated⟩ := laps_compiled
  have whole : (Generator.ofAnalysis a).generate laps
      = (.ok lapsCode, ((Generator.ofAnalysis a).generate laps).2) := Prod.ext generated rfl
  exact ⟨a, _, analyzed, whole, code_laidOut analyzed whole⟩

end FlatStack
