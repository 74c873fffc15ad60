import FlatStack.Code.Generator
import FlatStack.Proofs.Acceptance

/-!
# Slots

The tables that code is generated from agree with those of the analysis. So
the slot of a name is its position among the names of the routine, above the
slots of the top level, or else its position among the variables there.
-/

set_option autoImplicit false

namespace FlatStack

open Declaration (vars)

/-! ## Tables of the generator -/

namespace Table

variable {t : Table} {f : String} {ps pre post : List String} {x : String}

theorem allocateParameters_describes (pre : List String)
    (ht : t.Describes f (numbered (.parameter f) 0 pre) pre.length) (hn : (pre ++ ps).Nodup) :
    (ps.foldl allocateParameter t).Describes f (numbered (.parameter f) 0 (pre ++ ps))
      (pre ++ ps).length := by
  induction ps generalizing t pre with
  | nil => simpa using ht
  | cons p ps ih =>
    have fresh : t.allocate.2.has p = false := by
      rw [allocate_has, ← Bool.not_eq_true, has_iff, ht.meanings, numbered_names]
      have := List.disjoint_of_nodup_append hn
      exact fun hp => this hp List.mem_cons_self
    rw [List.append_cons] at hn ⊢
    exact ih (pre ++ [p]) (ht.parameter fresh) hn

/-- Where a settled table puts the next variable. -/
theorem frame_find? {settled : Table} (hs : settled.meanings = frame f ps (pre ++ x :: post))
    (hx : x ∉ ps ++ pre) :
    ((settled.find? x).bind fun s => s.meaning.address?) = some (ps.length + pre.length) := by
  have hlook : settled.meanings.lookup x = some (.variable f (ps.length + pre.length)) := by
    rw [hs, List.append_cons, frame, numbered_append, ← List.append_assoc, ← frame, frame_snoc,
      List.append_assoc, List.lookup_append, lookup_not_mem (by rwa [frame_names]), Option.none_or,
      List.singleton_append, List.lookup_cons_self]
  rw [← find?_meaning] at hlook
  revert hlook
  cases settled.find? x with
  | none => simp
  | some s =>
    intro hlook
    have hm : s.meaning = _ := Option.some.inj hlook
    rw [Option.bind_some, hm]
    rfl

theorem materialize_describes {fixed : Option Table}
    (hf : ∀ settled, fixed = some settled → settled.meanings = frame f ps (pre ++ x :: post))
    (ht : t.Describes f (frame f ps pre) (ps.length + pre.length)) (hx : x ∉ ps ++ pre) :
    (t.materialize fixed x).Describes f (frame f ps (pre ++ [x]))
      (ps.length + (pre ++ [x]).length) := by
  have fresh : t.has x = false := by
    rw [← Bool.not_eq_true, has_iff, ht.meanings, frame_names]
    exact hx
  have hr := ht.allocate.register (s := ⟨x, .variable f (ps.length + pre.length), 0, none⟩) fresh
  have hlen : ps.length + (pre ++ [x]).length = ps.length + pre.length + 1 := by simp; omega
  rw [frame_snoc, hlen]
  unfold materialize
  rw [if_neg (by simp [fresh])]
  cases fixed with
  | none => simpa [allocate, ht.name, ht.next] using hr
  | some settled =>
    have hreserve : t.reserveThrough (ps.length + pre.length) = t.allocate.2 := by
      simp [reserveThrough, allocate, ht.next]
    simp only [Option.bind_some, frame_find? (hf settled rfl) hx, hreserve, ht.name]
    exact hr

theorem materializeAll_describes (pre : List String) {fixed : Option Table} {xs : List String}
    (hf : ∀ settled, fixed = some settled → settled.meanings = frame f ps (pre ++ xs))
    (ht : t.Describes f (frame f ps pre) (ps.length + pre.length))
    (hn : (ps ++ (pre ++ xs)).Nodup) :
    (xs.foldl (materialize fixed) t).Describes f (frame f ps (pre ++ xs))
      (ps.length + (pre ++ xs).length) := by
  induction xs generalizing t pre with
  | nil => simpa using ht
  | cons x xs ih =>
    have hx : x ∉ ps ++ pre := by
      rw [← List.append_assoc] at hn
      exact fun h => List.disjoint_of_nodup_append hn h List.mem_cons_self
    have hm := materialize_describes hf ht hx
    rw [List.append_cons] at hf hn ⊢
    exact ih (pre ++ [x]) hf hm hn

theorem materializeAll_present {fixed : Option Table} {xs : List String}
    (h : ∀ x ∈ xs, t.has x = true) : xs.foldl (materialize fixed) t = t := by
  induction xs with
  | nil => rfl
  | cons x xs ih =>
    have hx : t.materialize fixed x = t := by simp [materialize, h x]
    rw [List.foldl_cons, hx]
    exact ih fun y hy => h y (List.mem_cons_of_mem x hy)

end Table

/-! ## Slots of names -/

theorem getElem?_numbered {mk : Nat → Meaning} {n : Nat} {xs : List String} (i : Nat) :
    (numbered mk n xs)[i]? = xs[i]?.map fun x => (x, mk (n + i)) := by
  induction xs generalizing n i with
  | nil => rfl
  | cons x xs ih =>
    cases i with
    | zero => rfl
    | succ i =>
      rw [numbered, List.getElem?_cons_succ, List.getElem?_cons_succ, ih, Nat.add_right_comm,
        Nat.add_assoc]

theorem numbered_get {mk : Nat → Meaning} {n i : Nat} {xs : List String} {m : String × Meaning}
    (h : (numbered mk n xs)[i]? = some m) : m.2 = mk (n + i) := by
  rw [getElem?_numbered] at h
  obtain ⟨x, _, rfl⟩ := Option.map_eq_some_iff.mp h
  rfl

theorem frame_get {f : String} {ps locals : List String} {i : Nat} {m : String × Meaning}
    (h : (frame f ps locals)[i]? = some m) : m.2.address? = some i ∧ m.2.scope = f := by
  rw [frame, List.getElem?_append] at h
  split at h
  · rw [numbered_get h]
    exact ⟨by simp [Meaning.address?], rfl⟩
  · rename_i hi
    have hlen : (numbered (.parameter f) 0 ps).length = ps.length := by
      rw [← List.length_map (f := (·.1)), numbered_names]
    rw [numbered_get h]
    rw [hlen] at hi ⊢
    refine ⟨?_, rfl⟩
    simp only [Meaning.address?, Option.some.injEq]
    omega

/-- The slot of the name at the position `i` of a function named `f`. A
function named like the outermost scope shares the slots at the bottom. -/
def localSlot (globals : Nat) (f : String) (i : Nat) : Nat :=
  if f = globalScope then i else globals + i

theorem lookup_slot {globals : Nat} {ms : List (String × Meaning)} (place : Nat → Nat)
    (h : ∀ i m, ms[i]? = some m → m.2.slot? globals = some (place i)) (x : String) :
    (ms.lookup x).bind (·.slot? globals) = ((ms.map (·.1)).idxOf? x).map place := by
  induction ms generalizing place with
  | nil => rfl
  | cons m ms ih =>
    have hrest := ih (fun i => place (i + 1)) fun i m' hm => h (i + 1) m' (by simpa using hm)
    rw [List.lookup_cons, List.map_cons, List.idxOf?_cons]
    by_cases hx : m.1 = x
    · simp [hx, h 0 m (by simp)]
    · have hx' : (x == m.1) = false := by simpa using fun h => hx h.symm
      simp [hx, hx', hrest, Function.comp_def]

theorem frame_slot (globals : Nat) (f : String) (ps locals : List String) (x : String) :
    ((frame f ps locals).lookup x).bind (·.slot? globals)
      = ((ps ++ locals).idxOf? x).map (localSlot globals f) := by
  rw [← frame_names f ps locals]
  refine lookup_slot _ ?_ x
  intro i m hm
  obtain ⟨ha, hs⟩ := frame_get hm
  simp [Meaning.slot?, ha, hs, localSlot]

theorem global_slot (globals : Nat) {n : Nat} {ds : List Declaration}
    (hn : ((globalMeanings n ds).map (·.1)).Nodup) (x : String) :
    ((globalMeanings n ds).lookup x).bind (·.slot? globals)
      = ((vars ds).names.idxOf? x).map (n + ·) := by
  induction ds generalizing n with
  | nil => rfl
  | cons d ds ih =>
    cases d with
    | «variable» y e =>
      have hrest := ih (n := n + 1) (List.nodup_cons.mp hn).2
      rw [globalMeanings, vars, Variables.names_cons, List.lookup_cons, List.idxOf?_cons]
      by_cases hx : y = x
      · simp [hx, Meaning.slot?, Meaning.address?, Meaning.scope]
      · have hx' : (x == y) = false := by simpa using fun h => hx h.symm
        simp [hx, hx', hrest, Function.comp_def, Nat.add_assoc, Nat.add_comm 1]
    | function g ps inner ss =>
      obtain ⟨hg, hn⟩ := List.nodup_cons.mp hn
      rw [globalMeanings, vars, List.lookup_cons]
      by_cases hx : x = g
      · subst hx
        have hnone : (vars ds).names.idxOf? x = none := by
          rw [List.idxOf?_eq_none_iff]
          exact fun hmem => hg ((variables_sublist n ds).mem hmem)
        simp [hnone, Meaning.slot?, Meaning.address?]
      · have hx' : (x == g) = false := by simpa using hx
        simp only [hx', ih hn]

/-! ## Scopes of the generator -/

/-- The slot of a name in the function `f` with the given names. -/
def slotIn (tops : List String) (f : String) (names : List String) (x : String) : Option Nat :=
  match names.idxOf? x with
  | some i => some (localSlot tops.length f i)
  | none => tops.idxOf? x

theorem slotIn_lt {tops names : List String} {f x : String} {a : Nat}
    (h : slotIn tops f names x = some a) : a < tops.length + names.length := by
  unfold slotIn at h
  split at h
  · rename_i i hi
    obtain ⟨bound, _⟩ := List.idxOf?_eq_some_iff.mp hi
    rw [Option.some.injEq] at h
    unfold localSlot at h
    split at h <;> omega
  · obtain ⟨bound, _⟩ := List.idxOf?_eq_some_iff.mp h
    omega

theorem slotIn_of_mem {tops names : List String} {f x : String} (h : x ∈ names ∨ x ∈ tops) :
    ∃ n, slotIn tops f names x = some n := by
  unfold slotIn
  split
  · exact ⟨_, rfl⟩
  · rename_i absent
    have top := h.resolve_left (List.idxOf?_eq_none_iff.mp absent)
    exact Option.isSome_iff_exists.mp (List.isSome_idxOf?.mpr top)

section Resolve

variable {ds : List Declaration} {globals : Table}

theorem slot?_top (hg : globals.Describes globalScope (globalMeanings 0 ds) (vars ds).length)
    (n : Nat) (x : String) : (Scope.ofTable globals).slot? n x = (vars ds).names.idxOf? x := by
  rw [Scope.slot?_meaning, Scope.meaning?_top, hg.meanings, global_slot _ hg.distinct]
  simp

theorem slot?_function (hg : globals.Describes globalScope (globalMeanings 0 ds) (vars ds).length)
    {s : Scope} (f : String) (ps locals : List String) (hs : s.table.meanings = frame f ps locals)
    (ho : s.outer = [globals]) (x : String) :
    s.slot? (vars ds).length x = slotIn (vars ds).names f (ps ++ locals) x := by
  rw [Scope.slot?_meaning, Scope.meaning?_inside ho, hs, hg.meanings]
  have hl := frame_slot (vars ds).length f ps locals x
  have ht := global_slot (vars ds).length hg.distinct x
  unfold slotIn
  cases hi : (ps ++ locals).idxOf? x with
  | some i =>
    rw [hi, Option.map_some] at hl
    cases hm : (frame f ps locals).lookup x with
    | none => simp [hm] at hl
    | some m => simpa [hm] using hl
  | none =>
    have hnone : (frame f ps locals).lookup x = none :=
      lookup_not_mem (by rw [frame_names]; exact List.idxOf?_eq_none_iff.mp hi)
    simpa [hnone] using ht

variable {p : Program} {a : Analysis}

open Generator

/-- The table of the top level is complete beforehand. -/
theorem Accepted.materialize_globals (h : Accepted p a) (fixed : List Table) (n : Nat) :
    Plan.materialize ⟨fixed, n⟩ a.globals p.vars = a.globals := by
  refine Table.materializeAll_present ?_
  intro x hx
  rw [Table.has_iff, h.known.globals.meanings]
  exact (variables_sublist 0 p.declarations).mem hx

theorem Accepted.names_nodup (h : Accepted p a) : p.vars.names.Nodup :=
  (variables_sublist 0 p.declarations).nodup h.known.globals.distinct

theorem Accepted.routines_nodup (h : Accepted p a) : (p.routines.map (·.name)).Nodup :=
  (routines_sublist 0 p.declarations).nodup h.known.globals.distinct

/-- The addresses that are settled for a function are those of its own table. -/
theorem Accepted.settled (h : Accepted p a) {r : Routine} (hr : r ∈ p.routines)
    {settled : Table} (hs : a.functions.find? (fun t => t.name == r.name) = some settled) :
    settled.meanings = r.frame := by
  have hname : settled.name = r.name := by simpa using List.find?_some hs
  obtain ⟨i, hi, rfl⟩ := List.getElem_of_mem (List.mem_of_find?_eq_some hs)
  obtain ⟨hlen, hall⟩ := List.forall₂_iff_get.mp h.known.functions
  have hi' : i < p.routines.length := lt_of_lt_of_eq hi hlen.symm
  have ht : a.functions[i].Describes p.routines[i].name p.routines[i].frame p.routines[i].slots :=
    hall i hi' hi
  have hsame : p.routines[i] = r :=
    List.inj_on_of_nodup_map h.routines_nodup (List.getElem_mem hi') hr
      (ht.name.symm.trans hname)
  rw [ht.meanings, hsame]

theorem Accepted.routine_names (h : Accepted p a) {r : Routine} (hr : r ∈ p.routines) :
    r.names.Nodup := by
  obtain ⟨pre, ps, inner, ss, post, hp, hsame⟩ := Declaration.routine_split hr
  rw [hsame]
  exact (h.function hp).2.1

/-- The table of a function, whose addresses may be settled beforehand. -/
theorem functionScope_describes {plan : Plan} {around : Scope} {f : String} {ps : List String}
    {vs : Variables} (hn : (ps ++ vs.names).Nodup)
    (hs : ∀ settled, plan.fixed.find? (fun t => t.name == f) = some settled →
      settled.meanings = frame f ps vs.names) :
    (plan.functionScope around f ps vs).table.Describes f (frame f ps vs.names)
      (ps.length + vs.names.length) := by
  have hps := Table.allocateParameters_describes (t := Table.empty f) []
    Table.describes_empty (List.Nodup.of_append_left hn)
  have hframe : frame f ps [] = numbered (.parameter f) 0 ps := by
    simp [frame, numbered]
  refine Table.materializeAll_describes [] ?_ ?_ hn
  · intro settled found
    split at found
    · simp at found
    · have hname : (ps.foldl Table.allocateParameter (around.inside f).table).name = f := hps.name
      rw [hname] at found
      exact hs settled found
  · rw [hframe]
    exact hps

theorem functionScope_meanings {plan : Plan} {around : Scope} {f : String} {ps : List String}
    {vs : Variables} (hn : (ps ++ vs.names).Nodup)
    (hs : ∀ settled, plan.fixed.find? (fun t => t.name == f) = some settled →
      settled.meanings = frame f ps vs.names) :
    (plan.functionScope around f ps vs).table.meanings = frame f ps vs.names :=
  (functionScope_describes hn hs).meanings

/-- The scope that the code of a function is generated in. -/
def scopeOf (a : Analysis) (globals : Nat) (r : Routine) : Scope :=
  Plan.functionScope ⟨a.functions, globals⟩ (.ofTable a.globals) r.name r.parameters r.vars

theorem Accepted.scopeOf_meanings (h : Accepted p a) {r : Routine} (hr : r ∈ p.routines)
    (globals : Nat) : (scopeOf a globals r).table.meanings = r.frame :=
  functionScope_meanings (h.routine_names hr) fun _ hs => h.settled hr hs

theorem Accepted.slot_function (h : Accepted p a) {r : Routine} (hr : r ∈ p.routines)
    (x : String) :
    (scopeOf a p.vars.length r).slot? p.vars.length x
      = slotIn p.vars.names r.name r.names x :=
  slot?_function h.known.globals r.name r.parameters r.vars.names (h.scopeOf_meanings hr _) rfl x

theorem Accepted.slot_top (h : Accepted p a) (x : String) :
    (Scope.ofTable a.globals).slot? p.vars.length x = p.vars.names.idxOf? x :=
  slot?_top h.known.globals _ x

theorem Accepted.slot_of_top (h : Accepted p a) {x : String} (hx : x ∈ p.vars.names) :
    ∃ n, (Scope.ofTable a.globals).slot? p.vars.length x = some n := by
  rw [h.slot_top]
  exact Option.isSome_iff_exists.mp (List.isSome_idxOf?.mpr hx)

end Resolve

end FlatStack
