import FlatStack.Proofs.Flow

/-!
# Flow of whole programs

In the code of an accepted program every instruction flows. A function is
entered at its first address, where its arguments are on the stack, and
wherever an initializer or a statement begins, exactly the slots of its region
are.
-/

set_option autoImplicit false

namespace FlatStack

open Generator

variable {p : Program} {b : Bytecode} {im : Image p b}

/-! ## Regions of a program -/

theorem Accepted.routine?_eq {a : Analysis} (h : Accepted p a) {q : Routine}
    (hq : q ∈ p.routines) : p.routine? q.name = some q :=
  find?_named Routine.name h.routines_nodup hq

theorem Accepted.slotsOf {a : Analysis} (h : Accepted p a) {q : Routine} (hq : q ∈ p.routines) :
    p.slotsOf (.function q.name) = q.slots := by
  rw [Program.slotsOf, h.routine?_eq hq]
  rfl

/-- Wherever an initializer or a statement begins, the stack holds the slots. -/
theorem opening_full (im : Image p b) {s : Site} (hs : s ∈ p.sites) (ho : s.opens = true) :
    s.depth = p.slotsOf s.region ∧ s.passed = none := by
  have top : ∀ t ∈ p.sites, t.Belongs .top p.globals ∨
      ∃ q ∈ p.routines, t.Belongs (.function q.name) q.slots := by
    intro t ht
    simp only [Program.sites, List.cons_append, List.mem_cons, List.mem_append,
      List.not_mem_nil, or_false] at ht
    rcases ht with rfl | ((ht | ht) | ht | ht) | rfl
    · exact .inl belongs_plain
    · exact .inl (belongs_allocations t ht)
    · obtain ⟨q, hq, ht⟩ := List.mem_flatMap.mp ht
      rcases List.mem_cons.mp ht with rfl | ht
      · exact .inl belongs_plain
      · exact .inr ⟨q, hq, q.belongs t ht⟩
    · exact .inl (Variables.belongs p.vars t ht)
    · exact .inl (Statement.belongsAll p.statements t ht)
    · exact .inl belongs_plain
  rcases top s hs with ⟨hr, hd⟩ | ⟨q, hq, hr, hd⟩
  · rw [hr]
    exact hd ho
  · rw [hr, im.accepted.slotsOf hq]
    exact hd ho

/-- The sites of functions are those between the allocations and the actions
of the top level. -/
theorem function_site {pc : Nat} {s : Site} {f : String} (found : p.sites[pc]? = some s)
    (hr : s.region = .function f) :
    ∃ k, pc = 1 + p.globals + k ∧ (linkedSites p.globals p.routines)[k]? = some s := by
  have shape : p.sites = (⟨.top, 0, none, false⟩ :: allocationSites .top 0 p.globals)
      ++ (linkedSites p.globals p.routines ++ ((p.vars.sites .top p.globals
        ++ Statement.sitesAll .top p.globals p.statements)
        ++ [⟨.top, p.globals, none, false⟩])) := by
    simp [Program.sites]
  have elsewhere : ∀ {d : Nat}, ¬ s.Belongs .top d := by
    rintro d ⟨h, _⟩
    rw [h] at hr
    exact Region.noConfusion hr
  rw [shape, List.getElem?_append] at found
  split at found
  · refine absurd ?_ (elsewhere (d := 0))
    rcases List.mem_cons.mp (List.mem_of_getElem? found) with rfl | hs
    · exact belongs_plain
    · exact belongs_allocations s hs
  · rename_i low
    rw [List.length_cons, length_allocationSites] at low found
    rw [List.getElem?_append] at found
    split at found
    · exact ⟨pc - (p.globals + 1), by omega, found⟩
    · refine absurd ?_ (elsewhere (d := p.globals))
      have hs := List.mem_of_getElem? found
      rw [List.mem_append, List.mem_append, List.mem_singleton] at hs
      rcases hs with (hs | hs) | rfl
      · exact Variables.belongs p.vars s hs
      · exact Statement.belongsAll p.statements s hs
      · exact belongs_plain

/-! ## Entries -/

namespace Generator.Laid

variable {a : Analysis} {globals base : Nat} {entries final : Entries} {rs : List Routine}
  {qs : List Piece} {q : Piece}

/-- The sites of a function come with its code, and nowhere before. -/
theorem lies (h : Laid a globals base entries rs qs final)
    (hlen : ∀ q ∈ qs, q.code.length = q.routine.sites.length)
    (hs : p.Lies base (linkedSites globals rs)) (hq : q ∈ qs) :
    p.Lies q.entry q.routine.sites := by
  induction h with
  | nil => simp at hq
  | cons he _ _ rest ih =>
    rw [linkedSites, List.flatMap_cons, List.cons_append, Program.lies_cons,
      Program.lies_append, ← hlen _ List.mem_cons_self] at hs
    rcases List.mem_cons.mp hq with rfl | hq
    · rw [he]
      exact hs.2.1
    · exact ih (fun q' hq' => hlen q' (List.mem_cons_of_mem _ hq')) hs.2.2 hq

theorem entry_le (h : Laid a globals base entries rs qs final)
    (hlen : ∀ q ∈ qs, q.code.length = q.routine.sites.length)
    (hn : (rs.map (·.name)).Nodup) (hq : q ∈ qs) {k : Nat} {s : Site}
    (hk : (linkedSites globals rs)[k]? = some s) (hr : s.region = .function q.routine.name) :
    q.entry ≤ base + k := by
  induction h generalizing k with
  | nil => simp at hq
  | cons he _ _ rest ih =>
    rename_i q' _ _ _ _
    obtain ⟨fresh, hn⟩ := List.nodup_cons.mp hn
    rw [linkedSites, List.flatMap_cons, List.cons_append] at hk
    cases k with
    | zero =>
      rw [List.getElem?_cons_zero, Option.some.injEq] at hk
      simp [← hk] at hr
    | succ k =>
      rcases List.mem_cons.mp hq with rfl | hq
      · omega
      · have hlen' := hlen q' List.mem_cons_self
        rw [List.getElem?_cons_succ, List.getElem?_append] at hk
        split at hk
        · have hown := (q'.routine.belongs s (List.mem_of_getElem? hk)).1
          rw [hr, Region.function.injEq] at hown
          refine absurd (List.mem_map.mpr ⟨q.routine, ?_, hown⟩) fresh
          rw [rest.routines_eq]
          exact List.mem_map_of_mem hq
        · have := ih (fun q'' h => hlen q'' (List.mem_cons_of_mem _ h)) hn hq hk
          omega

end Generator.Laid

/-- The entry of a piece is the first address of its function. -/
theorem Image.isEntry (im : Image p b) {q : Piece} (hq : q ∈ im.pieces) :
    p.IsEntry q.routine.name q.entry ∧
      p.At q.entry (.function q.routine.name) q.routine.parameters.length none := by
  have hlen : ∀ q ∈ im.pieces, q.code.length = q.routine.sites.length :=
    fun q hq => length_piece im hq
  obtain ⟨_, _, functions, _, _⟩ := image_stands im
  have first := im.laid.lies hlen (.of_stands functions) hq
  obtain ⟨o, rest, hcons⟩ := q.routine.sites_cons
  rw [hcons] at first
  refine ⟨⟨?_, ?_⟩, first.head⟩
  · obtain ⟨o, found⟩ := first.head
    exact ⟨_, found, rfl⟩
  · intro pc s found hr
    obtain ⟨k, rfl, hk⟩ := function_site found hr
    exact im.laid.entry_le hlen im.accepted.routines_nodup hq hk hr

/-! ## The whole program -/

/-- The end of a function, where its slots are on the stack at first. -/
theorem flowing_epilogue {f : String} {n base : Nat} (hb : b.Holds base (Plan.epilogue n))
    (hs : p.Lies base ((if n = 0 then [] else [⟨.function f, n, none, false⟩])
      ++ [⟨.function f, 0, none, false⟩])) (hn : n < 2 ^ 53) :
    p.At base (.function f) n none ∧
      p.Flowing b base (base + (Plan.epilogue n).length) := by
  unfold Plan.epilogue at hb ⊢
  by_cases h : n = 0
  · subst h
    exact ⟨hs.head, .one (s := ⟨.function f, 0, none, false⟩) hb.fetch hs.head
      ⟨rfl, rfl, f, rfl⟩⟩
  · simp only [if_neg h, List.singleton_append, Bytecode.holds_cons, Program.lies_cons] at hb hs ⊢
    refine ⟨hs.1, (Program.Flowing.one (s := ⟨.function f, n, none, false⟩) hb.1 hs.1 ?_).append
      (Program.Flowing.one (s := ⟨.function f, 0, none, false⟩) hb.2.1 hs.2.1
        ⟨rfl, rfl, f, rfl⟩)⟩
    exact ⟨rfl, rfl, hn, hs.2.1⟩

section Whole

variable (im : Image p b) (wide : p.Addressable b)
include wide

theorem Image.suits_top : p.Suits im.context .top := by
  intro x a h
  rw [Image.context, im.accepted.slot_top] at h
  obtain ⟨bound, _⟩ := List.idxOf?_eq_some_iff.mp h
  rw [Variables.length_names] at bound
  have size := (length_sites im).le
  have := wide.code
  simp only [Program.sites, List.length_append, List.length_cons, length_allocationSites] at size
  exact ⟨bound, by unfold Program.globals at size; omega⟩

theorem Image.suits_function {q : Piece} (hq : q ∈ im.pieces) :
    p.Suits (im.contextOf q) (.function q.routine.name) := by
  intro x a h
  have hr := im.routine_mem hq
  have hslot : a < p.reach (.function q.routine.name) := by
    rw [Image.contextOf, Piece.context, im.accepted.slot_function hr] at h
    have := slotIn_lt h
    rwa [Variables.length_names, Routine.length_names, ← im.accepted.slotsOf hr] at this
  have := wide.slots q.routine hr
  rw [Program.reach, im.accepted.slotsOf hr] at hslot ⊢
  exact ⟨hslot, by omega⟩

omit wide

theorem Image.reached_function {q : Piece} (hq : q ∈ im.pieces) {u : Use}
    (hu : u ∈ q.routine.calls) : p.Reached (im.contextOf q) u := by
  obtain ⟨q', hq', hname, hfits, hentry⟩ := im.call_function hq hu
  have := im.isEntry hq'
  unfold Program.Reached
  rwa [hentry, ← hname, ← hfits]

theorem Image.reached_top {u : Use} (hu : u ∈ p.calls) : p.Reached im.context u := by
  obtain ⟨q', hq', hname, hfits, hentry⟩ := im.call_top hu
  have := im.isEntry hq'
  unfold Program.Reached
  rwa [hentry, ← hname, ← hfits]

include wide

theorem Image.flowing_piece {q : Piece} (hq : q ∈ im.pieces) (hb : b.Holds q.entry q.code)
    (hs : p.Lies q.entry q.routine.sites) : p.Flowing b q.entry (q.entry + q.code.length) := by
  have hw : p.sites.length < 2 ^ 53 := (length_sites im).trans_lt wide.code
  have hslots := im.accepted.slotsOf (im.routine_mem hq)
  have hn : q.routine.slots < 2 ^ 53 := by
    have := wide.slots q.routine (im.routine_mem hq)
    omega
  have emitted := im.laid.emitted hq
  rw [Piece.code, Bytecode.holds_append, Bytecode.holds_append, List.length_append,
    Image.length_allocations, ← Nat.add_assoc] at hb
  obtain ⟨⟨hba, hbc⟩, hbe⟩ := hb
  simp only [Routine.sites] at hs
  rw [Program.lies_append, Program.lies_append, List.length_append, length_allocationSites,
    ← length_actionCode emitted, ← Nat.add_assoc] at hs
  obtain ⟨⟨hsa, hsc⟩, hse⟩ := hs
  obtain ⟨full, flowe⟩ := flowing_epilogue hbe hse hn
  have flowc := Program.flowing_actions hw (im.suits_function wide hq) hslots.le emitted hbc hsc
    (fun u hu => im.reached_function hq hu) full
  have body_first := hsc.first ((starts_variables _).append (starts_statements _))
    (by rwa [← length_actionCode emitted])
  have flowa := Program.flowing_allocations hba hsa body_first
  rw [Piece.code, List.length_append, List.length_append, Image.length_allocations,
    ← Nat.add_assoc, ← Nat.add_assoc]
  exact (flowa.append flowc).append flowe

theorem Image.flowing_linked {base target : Nat} {entries final : Entries}
    {rs : List Routine} {qs : List Piece} (h : Laid im.analysis p.globals base entries rs qs final)
    (hq : ∀ q ∈ qs, q ∈ im.pieces) (hb : b.Holds base (linked target (qs.map Piece.block)))
    (hs : p.Lies base (linkedSites p.globals rs)) (ht : p.At target .top p.globals none) :
    p.Flowing b base (base + Generator.sizeOf (qs.map Piece.block)) := by
  have hw : p.sites.length < 2 ^ 53 := (length_sites im).trans_lt wide.code
  induction h with
  | nil => exact .none
  | cons he hes ha rest ih =>
    rename_i q rs qs
    have hlen := length_piece im (hq q List.mem_cons_self)
    rw [List.map_cons, linked, List.flatMap_cons, List.cons_append, Bytecode.holds_cons,
      Bytecode.holds_append] at hb
    rw [linkedSites, List.flatMap_cons, List.cons_append, Program.lies_cons,
      Program.lies_append, ← hlen] at hs
    rw [← he] at hb hs
    have jump : p.Targets (.withNat .jump target) target .top p.globals := ht.targets hw
    have skips := Program.Flowing.one (s := ⟨.top, p.globals, none, false⟩) hb.1 hs.1
      ⟨rfl, target, jump⟩
    have piece := im.flowing_piece wide (hq q List.mem_cons_self) hb.2.1 hs.2.1
    rw [he] at piece hb hs
    have others := ih (fun q' hq' => hq q' (List.mem_cons_of_mem _ hq')) hb.2.2 hs.2.2
    rw [Piece.sizeOf_cons, ← Nat.add_assoc, ← Nat.add_assoc]
    exact (skips.append piece).append others

/-- Every address of the code has an instruction and a site that flow. -/
theorem flowing_program (im : Image p b) : p.Flowing b 0 b.size := by
  have hw : p.sites.length < 2 ^ 53 := (length_sites im).trans_lt wide.code
  obtain ⟨hb0, hba, hbl, hbc, hbh⟩ := image_holds im
  obtain ⟨hs0, hsa, hsl, hsc, hsh⟩ := image_stands im
  have emitted := im.emitted
  have hlinked := length_routineSites im p.globals
  have last : p.At (im.start + im.actions.length) .top p.globals none := ⟨false, hsh⟩
  have lies := Program.Lies.of_stands hsc
  have actions_first := lies.first ((starts_variables p.vars).append (starts_statements _))
    (by rwa [← length_actionCode emitted])
  have linked_first := (Program.Lies.of_stands hsl).first (starts_linked p.routines)
    (by rwa [hlinked, ← im.start_eq])
  have allocated : p.At (1 + p.vars.length) .top (0 + p.vars.length) none := by
    rwa [Nat.zero_add]
  have flow0 : p.Flowing b 0 1 := .one (s := ⟨.top, 0, none, false⟩) hb0 ⟨false, hs0⟩
    ⟨rfl, Program.lies_allocations (.of_stands hsa) allocated (Nat.zero_le _)⟩
  have flowa := Program.flowing_allocations hba (.of_stands hsa) allocated
  have flowl := im.flowing_linked wide im.laid (fun _ hq => hq) hbl (.of_stands hsl) actions_first
  have flowc := Program.flowing_actions hw (im.suits_top wide) le_rfl emitted hbc lies
    (fun u hu => im.reached_top hu) last
  have flowh := Program.Flowing.one (s := ⟨.top, p.globals, none, false⟩) hbh last
    ⟨rfl, rfl, rfl⟩
  rw [im.size_eq]
  rw [im.start_eq] at flowc flowh ⊢
  exact (((flow0.append flowa).append flowl).append flowc).append flowh

end Whole

end FlatStack
