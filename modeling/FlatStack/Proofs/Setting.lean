import FlatStack.Proofs.Runs
import FlatStack.Proofs.Segment
import FlatStack.Proofs.Unchanged

/-!
# Machines that hold situations

The values of the variables lie at the bottom of the stack, those of the top
level first, and above them lie the values of the expression at work. A machine that
holds a situation is read and written slot by slot as the situation is by name.
-/

set_option autoImplicit false

namespace FlatStack

/-- What stays the same while a body runs. -/
structure Setting where
  tops : List String
  own : List String
  /-- The return addresses on the machine. -/
  returns : List Nat

namespace Setting

/-- The values of all variables in the order of their slots. -/
def frame (g : Setting) (s : Situation) : List Float :=
  g.tops.map s.globals ++ g.own.map s.locals

/-- The machine that holds a situation, with the values `ts` on top. -/
def machine (g : Setting) (pc : Nat) (s : Situation) (ts : List Float) : Machine where
  stack := (g.frame s ++ ts).toArray
  returns := g.returns
  pc
  console := s.console

def slot? (g : Setting) (x : String) : Option Nat :=
  match g.own.idxOf? x with
  | some i => some (g.tops.length + i)
  | none => g.tops.idxOf? x

variable {g : Setting} {pc a : Nat} {s : Situation} {ts : List Float} {v : Float} {x : String}

@[simp] theorem length_frame : (g.frame s).length = g.tops.length + g.own.length := by
  simp [frame]

theorem slot?_lt (h : g.slot? x = some a) : a < (g.frame s).length := by
  rw [length_frame]
  unfold slot? at h
  split at h
  · rename_i i hi
    obtain ⟨bound, _⟩ := List.idxOf?_eq_some_iff.mp hi
    rw [Option.some.injEq] at h
    omega
  · obtain ⟨bound, _⟩ := List.idxOf?_eq_some_iff.mp h
    omega

/-- The slot of a name holds its value. -/
theorem frame_get (h : g.slot? x = some a) : (g.frame s)[a]? = some (s.read g.own x) := by
  unfold slot? at h
  unfold frame Situation.read
  split at h
  · rename_i i hi
    obtain ⟨bound, found, _⟩ := List.idxOf?_eq_some_iff.mp hi
    have found : g.own[i] = x := by simpa using found
    obtain rfl : g.tops.length + i = a := by simpa using h
    have mem : x ∈ g.own := found ▸ List.getElem_mem bound
    rw [if_pos mem, List.getElem?_append_right (by simp)]
    simp [List.getElem?_eq_getElem bound, found]
  · rename_i none
    obtain ⟨bound, found, _⟩ := List.idxOf?_eq_some_iff.mp h
    have found : g.tops[a] = x := by simpa using found
    rw [if_neg (List.idxOf?_eq_none_iff.mp none), List.getElem?_append_left (by simpa using bound)]
    simp [List.getElem?_eq_getElem bound, found]

theorem map_update {xs : List String} {env : Env} {i : Nat} (distinct : xs.Nodup)
    (bound : i < xs.length) :
    xs.map (Function.update env xs[i] v) = (xs.map env).set i v := by
  apply List.ext_getElem
  · simp
  · intro j hj hj'
    rw [List.getElem_map, List.getElem_set]
    by_cases same : i = j
    · subst same
      simp
    · have inside : j < xs.length := by simpa using hj
      have hne : xs[j] ≠ xs[i] :=
        fun h => same ((distinct.getElem_inj_iff.mp h).symm)
      simp [same, Function.update_of_ne hne]

/-- A write goes to the slot of the name. -/
theorem frame_write (ht : g.tops.Nodup) (ho : g.own.Nodup) (h : g.slot? x = some a) :
    g.frame (s.write g.own x v) = (g.frame s).set a v := by
  unfold slot? at h
  unfold frame Situation.write
  split at h
  · rename_i i hi
    obtain ⟨bound, found, _⟩ := List.idxOf?_eq_some_iff.mp hi
    have found : g.own[i] = x := by simpa using found
    obtain rfl : g.tops.length + i = a := by simpa using h
    subst found
    rw [if_pos (List.getElem_mem bound), List.set_append_right _ _ (by simp), map_update ho bound]
    simp
  · rename_i none
    obtain ⟨bound, found, _⟩ := List.idxOf?_eq_some_iff.mp h
    have found : g.tops[a] = x := by simpa using found
    subst found
    rw [if_neg (List.idxOf?_eq_none_iff.mp none), List.set_append_left _ _ (by simpa using bound),
      map_update ht bound]

/-! ## What operations do to such machines -/

@[simp] theorem top_machine : (g.machine pc s (ts ++ [v])).top = v := by
  simp [machine, Machine.top, ← List.append_assoc]

@[simp] theorem pop_machine : (g.machine pc s (ts ++ [v])).pop = g.machine pc s ts := by
  simp [machine, Machine.pop, ← List.append_assoc]

@[simp] theorem push_machine : (g.machine pc s ts).push v = g.machine pc s (ts ++ [v]) := by
  simp [machine, Machine.push]

@[simp] theorem advance_machine : (g.machine pc s ts).advance = g.machine (pc + 1) s ts := rfl

@[simp] theorem goto_machine (n : Nat) : (g.machine pc s ts).goto n = g.machine n s ts := rfl

@[simp] theorem pc_machine : (g.machine pc s ts).pc = pc := rfl

@[simp] theorem console_machine : (g.machine pc s ts).console = s.console := rfl

@[simp] theorem withConsole_machine (console : Console) :
    { g.machine pc s ts with console } = g.machine pc { s with console } ts := rfl

theorem size_machine :
    (g.machine pc s ts).stack.size = g.tops.length + g.own.length + ts.length := by
  simp [machine]

/-- Slots are read below whatever lies on top of them. -/
theorem slot_machine (h : g.slot? x = some a) :
    (g.machine pc s ts).slot a = s.read g.own x := by
  have found : (g.frame s ++ ts)[a]? = some (s.read g.own x) := by
    rw [List.getElem?_append_left (slot?_lt h), frame_get h]
  simp [machine, Machine.slot, found]

theorem setSlot_machine (ht : g.tops.Nodup) (ho : g.own.Nodup) (h : g.slot? x = some a) :
    (g.machine pc s ts).setSlot a v = g.machine pc (s.write g.own x v) ts := by
  have inside : a < (g.frame s).length := slot?_lt h
  have enough : a + 1 - (g.frame s ++ ts).length = 0 := by
    rw [List.length_append]
    omega
  have console : (s.write g.own x v).console = s.console := by
    unfold Situation.write
    split <;> rfl
  have stack : Machine.padded (g.frame s ++ ts).toArray (a + 1 - (g.frame s ++ ts).length)
      = (g.frame s ++ ts).toArray := by
    rw [enough]
    simp [Machine.padded]
  unfold Machine.setSlot machine
  rw [frame_write ht ho h, console]
  simp only [List.size_toArray, stack, List.setIfInBounds_toArray]
  rw [List.set_append_left _ _ inside]

end Setting

end FlatStack
