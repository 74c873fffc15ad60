import FlatStack.Proofs.Routines
import FlatStack.Scope.Check

/-!
# What tables hold

A table is described by the meanings of its names in the order in which they
were added. The table of the top level follows from the declarations, and the
table of a function from its parameters and variables: addresses count up from
zero in both, and no name occurs twice.
-/

set_option autoImplicit false

namespace FlatStack

/-! ## Meanings -/

/-- Names with meanings at the addresses from `n` on. -/
def numbered (mk : Nat → Meaning) : Nat → List String → List (String × Meaning)
  | _, [] => []
  | n, x :: xs => (x, mk n) :: numbered mk (n + 1) xs

section Numbered

variable {mk : Nat → Meaning} {n : Nat} {xs ys : List String}

theorem numbered_append :
    numbered mk n (xs ++ ys) = numbered mk n xs ++ numbered mk (n + xs.length) ys := by
  induction xs generalizing n with
  | nil => rfl
  | cons x xs ih => simp [numbered, ih, Nat.add_assoc, Nat.add_comm 1]

@[simp] theorem numbered_names : (numbered mk n xs).map (·.1) = xs := by
  induction xs generalizing n with
  | nil => rfl
  | cons x xs ih => simp [numbered, ih]

theorem mem_numbered {m : String × Meaning} (h : m ∈ numbered mk n xs) : ∃ a, m.2 = mk a := by
  induction xs generalizing n with
  | nil => simp [numbered] at h
  | cons x xs ih =>
    rcases List.mem_cons.mp h with rfl | h
    · exact ⟨n, rfl⟩
    · exact ih h

end Numbered

/-- The meanings at top level after some declarations, the first variable of
which has the address `n`. -/
def globalMeanings : Nat → List Declaration → List (String × Meaning)
  | _, [] => []
  | n, .variable x _ :: ds => (x, .variable globalScope n) :: globalMeanings (n + 1) ds
  | n, .function f ps _ _ :: ds => (f, .function ps) :: globalMeanings n ds

/-- The meanings in a function. -/
def frame (f : String) (ps locals : List String) : List (String × Meaning) :=
  numbered (.parameter f) 0 ps ++ numbered (.variable f) ps.length locals

def Routine.frame (r : Routine) : List (String × Meaning) :=
  FlatStack.frame r.name r.parameters r.vars.names

theorem globalMeanings_append (n : Nat) (ds es : List Declaration) :
    globalMeanings n (ds ++ es)
      = globalMeanings n ds ++ globalMeanings (n + (Declaration.vars ds).length) es := by
  induction ds generalizing n with
  | nil => rfl
  | cons d ds ih =>
    cases d <;> simp [globalMeanings, Declaration.vars, ih, Nat.add_assoc, Nat.add_comm 1]

theorem frame_names (f : String) (ps locals : List String) :
    (frame f ps locals).map (·.1) = ps ++ locals := by simp [frame]

theorem frame_snoc (f x : String) (ps locals : List String) :
    frame f ps (locals ++ [x])
      = frame f ps locals ++ [(x, .variable f (ps.length + locals.length))] := by
  simp [frame, numbered_append, numbered]

theorem frame_not_function {f : String} {ps locals : List String} {m : String × Meaning}
    (h : m ∈ frame f ps locals) : m.2.isFunction = false := by
  rcases List.mem_append.mp h with h | h
  all_goals
    obtain ⟨a, ha⟩ := mem_numbered h
    rw [ha]
    rfl

theorem mem_of_lookup {ms : List (String × Meaning)} {x : String} {m : Meaning}
    (h : ms.lookup x = some m) : (x, m) ∈ ms := by
  obtain ⟨before, after, rfl, _⟩ := List.lookup_eq_some_iff.mp h
  simp

theorem mem_lookup {ms : List (String × Meaning)} {x : String} (h : x ∈ ms.map (·.1)) :
    ∃ m, (x, m) ∈ ms ∧ ms.lookup x = some m := by
  cases hl : ms.lookup x with
  | some m => exact ⟨m, mem_of_lookup hl, rfl⟩
  | none =>
    obtain ⟨m, hm, rfl⟩ := List.mem_map.mp h
    simpa using List.lookup_eq_none_iff.mp hl m hm

theorem lookup_not_mem {ms : List (String × Meaning)} {x : String} (h : x ∉ ms.map (·.1)) :
    ms.lookup x = none := by
  rw [List.lookup_eq_none_iff]
  intro m hm
  simpa using fun same : x = m.1 => h (same ▸ List.mem_map_of_mem hm)

theorem lookup_of_mem {ms : List (String × Meaning)} {x : String} {m : Meaning}
    (distinct : (ms.map (·.1)).Nodup) (h : (x, m) ∈ ms) : ms.lookup x = some m := by
  obtain ⟨m', hm', found⟩ := mem_lookup (List.mem_map_of_mem (f := (·.1)) h)
  have same : (x, m') = (x, m) := List.inj_on_of_nodup_map distinct hm' h rfl
  rw [found, (Prod.mk.inj same).2]

/-- Among distinct names a search finds whatever is there. -/
theorem find?_named {α : Type} (name : α → String) {xs : List α} {x : α}
    (distinct : (xs.map name).Nodup) (hx : x ∈ xs) :
    xs.find? (fun y => name y == name x) = some x := by
  induction xs with
  | nil => simp at hx
  | cons y ys ih =>
    obtain ⟨fresh, distinct⟩ := List.nodup_cons.mp distinct
    rcases List.mem_cons.mp hx with rfl | hx
    · exact List.find?_cons_of_pos (beq_self_eq_true _)
    · have other : name y ≠ name x := fun same => fresh (same ▸ List.mem_map_of_mem hx)
      rw [List.find?_cons_of_neg (by simpa using other)]
      exact ih distinct hx

theorem global_function {n : Nat} {ds : List Declaration} {f : String} {ps : List String}
    (h : (f, Meaning.function ps) ∈ globalMeanings n ds) :
    Declaration.Declares ds (f, ps.length) := by
  induction ds generalizing n with
  | nil => simp [globalMeanings] at h
  | cons d ds ih =>
    cases d with
    | «variable» x e =>
      obtain ⟨r, hr, fits⟩ := ih (by simpa [globalMeanings] using h)
      exact ⟨r, hr, fits⟩
    | function g qs inner ss =>
      rcases List.mem_cons.mp h with heq | h
      · simp only [Prod.mk.injEq, Meaning.function.injEq] at heq
        exact ⟨_, List.mem_cons_self, heq.1.symm, congrArg List.length heq.2.symm⟩
      · obtain ⟨r, hr, fits⟩ := ih h
        exact ⟨r, List.mem_cons_of_mem _ hr, fits⟩

theorem global_variable {n : Nat} {ds : List Declaration} {x : String} {m : Meaning}
    (h : (x, m) ∈ globalMeanings n ds) (hm : m.isFunction = false) :
    x ∈ (Declaration.vars ds).names := by
  induction ds generalizing n with
  | nil => simp [globalMeanings] at h
  | cons d ds ih =>
    cases d with
    | «variable» y e =>
      rcases List.mem_cons.mp h with heq | h
      · simp only [Prod.mk.injEq] at heq
        simp [Declaration.vars, heq.1]
      · simp [Declaration.vars, ih h]
    | function g qs inner ss =>
      rcases List.mem_cons.mp h with heq | h
      · simp only [Prod.mk.injEq] at heq
        simp [heq.2, Meaning.isFunction] at hm
      · exact ih h

theorem variables_sublist (n : Nat) (ds : List Declaration) :
    (Declaration.vars ds).names.Sublist ((globalMeanings n ds).map (·.1)) := by
  induction ds generalizing n with
  | nil => exact .slnil
  | cons d ds ih =>
    cases d with
    | «variable» y e => exact .cons_cons y (ih (n + 1))
    | function g ps inner ss => exact .cons g (ih n)

theorem routines_sublist (n : Nat) (ds : List Declaration) :
    ((Declaration.routines ds).map (·.name)).Sublist ((globalMeanings n ds).map (·.1)) := by
  induction ds generalizing n with
  | nil => exact .slnil
  | cons d ds ih =>
    cases d with
    | «variable» y e => exact .cons y (ih (n + 1))
    | function g ps inner ss => exact .cons_cons g (ih n)

/-! ## Tables -/

namespace Table

def meanings (t : Table) : List (String × Meaning) := t.symbols.map fun s => (s.name, s.meaning)

variable {t : Table} {name : String}

theorem find?_meaning : (t.find? name).map (·.meaning) = t.meanings.lookup name := by
  unfold find? meanings
  induction t.symbols with
  | nil => rfl
  | cons s ss ih =>
    rw [List.map_cons, List.lookup_cons, List.find?_cons]
    by_cases h : s.name = name
    · simp [h]
    · have h' : (name == s.name) = false := by simpa using fun hx => h hx.symm
      have h'' : (s.name == name) = false := by simpa using h
      simp only [h', h'', ih]

theorem has_iff : t.has name = true ↔ name ∈ t.meanings.map (·.1) := by
  simp [has, find?, meanings]

theorem name_of_find? {s : Symbol} (found : t.find? name = some s) : s.name = name := by
  unfold find? at found
  simpa using List.find?_some found

/-- A change that keeps names is found at the symbol that it concerns. -/
theorem find?_modify {change : Symbol → Symbol} {other : String}
    (keeps : ∀ s, (change s).name = s.name) : (t.modify other change).find? name
      = (t.find? name).map fun s => if s.name = other then change s else s := by
  unfold modify find?
  rw [List.find?_map]
  have names : ((fun s : Symbol => s.name == name) ∘
      fun s => if s.name == other then change s else s) = fun s => s.name == name := by
    funext s
    by_cases here : s.name = other <;> simp [here, keeps]
  rw [names]
  simp only [beq_iff_eq]

theorem modify_meanings {change : Symbol → Symbol} (hn : ∀ s, (change s).name = s.name)
    (hm : ∀ s, (change s).meaning = s.meaning) : (t.modify name change).meanings = t.meanings := by
  simp only [modify, meanings, List.map_map]
  apply List.map_congr_left
  intro s _
  by_cases h : s.name = name <;> simp [h, hn, hm]

/-- What is to be known of a table. -/
structure Describes (t : Table) (name : String) (ms : List (String × Meaning)) (next : Nat) :
    Prop where
  name : t.name = name
  meanings : t.meanings = ms
  next : t.nextAddress = next
  distinct : (ms.map (·.1)).Nodup

variable {ms : List (String × Meaning)} {next : Nat}

theorem describes_empty : (empty name).Describes name [] 0 := ⟨rfl, rfl, rfl, .nil⟩

theorem Describes.register (h : t.Describes name ms next) {s : Symbol}
    (fresh : t.has s.name = false) :
    (t.register s).Describes name (ms ++ [(s.name, s.meaning)]) next := by
  have notin : s.name ∉ ms.map (·.1) := by
    rw [← h.meanings, ← has_iff, fresh]
    simp
  have hr : t.register s = { t with symbols := t.symbols ++ [s] } := by
    simp [Table.register, register?, fresh]
  rw [hr]
  refine ⟨h.name, ?_, h.next, ?_⟩
  · rw [← h.meanings]
    simp [Table.meanings]
  · simp only [List.map_append, List.map_cons, List.map_nil]
    refine List.Nodup.append h.distinct (List.nodup_singleton _) ?_
    simpa using notin

theorem Describes.allocate (h : t.Describes name ms next) :
    t.allocate.2.Describes name ms (next + 1) :=
  ⟨h.name, h.meanings, congrArg (· + 1) h.next, h.distinct⟩

/-- The next parameter of a function. -/
theorem Describes.parameter {ps : List String} {q : String}
    (h : t.Describes name (numbered (.parameter name) 0 ps) ps.length) (fresh : t.has q = false) :
    (t.allocate.2.register { name := q, meaning := .parameter t.name t.nextAddress }).Describes
      name (numbered (.parameter name) 0 (ps ++ [q])) (ps ++ [q]).length := by
  have next : numbered (.parameter name) 0 (ps ++ [q])
      = numbered (.parameter name) 0 ps ++ [(q, .parameter t.name t.nextAddress)] := by
    simp [numbered_append, numbered, h.name, h.next]
  rw [next, List.length_append, List.length_singleton]
  exact h.allocate.register fresh

theorem Describes.setSlotCount (h : t.Describes name ms next) (f : String) (n : Nat) :
    (t.setSlotCount f n).Describes name ms next := by
  refine ⟨h.name, ?_, h.next, h.distinct⟩
  rw [Table.setSlotCount, modify_meanings, h.meanings] <;> simp

theorem allocate_has : t.allocate.2.has = t.has := rfl

end Table

/-! ## Scopes -/

namespace Scope

def meaning? (s : Scope) (name : String) : Option Meaning := (s.lookup? name).map (·.meaning)

variable {name : String}

theorem slot?_meaning (s : Scope) (globals : Nat) :
    s.slot? globals name = (s.meaning? name).bind (·.slot? globals) := by
  unfold slot? meaning?
  cases s.lookup? name <;> rfl

theorem meaning?_top (t : Table) : (ofTable t).meaning? name = t.meanings.lookup name := by
  rw [← Table.find?_meaning]
  simp only [meaning?, lookup?, ofTable, List.findSome?]
  cases t.find? name <;> rfl

theorem meaning?_inside {s : Scope} {g : Table} (h : s.outer = [g]) :
    s.meaning? name = (s.table.meanings.lookup name).or (g.meanings.lookup name) := by
  rw [← Table.find?_meaning, ← Table.find?_meaning]
  simp only [meaning?, lookup?, List.findSome?, h]
  cases s.table.find? name <;> cases g.find? name <;> rfl

end Scope

end FlatStack
