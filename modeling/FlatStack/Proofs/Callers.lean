import FlatStack.Proofs.Occurrences
import FlatStack.Proofs.Placement

/-!
# Where calls begin

Wherever code pushes a return address, the code of a call begins there, and
this call occurs in the part of the program that the code belongs to. So a
program whose functions call nothing makes all its calls at top level.
-/

set_option autoImplicit false

namespace FlatStack

open Generator

section Prefixes

variable {α : Type} {whole part more : List α} {n : Nat}

theorem Stands.append (h : Stands whole n part) (hn : n ≤ whole.length) :
    Stands (whole ++ more) n part := by
  unfold Stands at h ⊢
  rw [List.drop_append_of_le_length hn]
  exact h.trans (List.prefix_append _ _)

theorem Stands.behind (h : Stands whole n part) :
    Stands (more ++ whole) (more.length + n) part := by
  unfold Stands at h ⊢
  rwa [← List.drop_drop, List.drop_left]

/-- What stands in a part stands in the whole. -/
theorem Stands.inner {k : Nat} {piece : List α} (h : Stands whole n part)
    (hp : Stands part k piece) (hk : k ≤ part.length) : Stands whole (n + k) piece := by
  obtain ⟨others, h⟩ := h
  unfold Stands
  rw [← List.drop_drop, ← h]
  exact hp.append hk

end Prefixes

namespace Context

variable {c : Context} {us us' : List Use} {os os' : List Occurrence} {base : Nat}
  {code code' : List Instruction} {i : Instruction}

/-- Wherever code that stands at `base` pushes a return address, a call begins that is among the
uses `us` and the occurrences `os`. -/
def Begins (c : Context) (us : List Use) (os : List Occurrence) (base : Nat)
    (code : List Instruction) : Prop :=
  ∀ k i, code[k]? = some i → i.opcode = .pushReturn → ∃ f es call,
    (f, es.length) ∈ us ∧ .call f es ∈ os ∧ c.callCode (base + k) f es = .ok call ∧
      Stands code k call

theorem begins_nil : c.Begins us os base [] := by simp [Begins]

theorem Begins.append (h : c.Begins us os base code)
    (h' : c.Begins us' os' (base + code.length) code') :
    c.Begins (us ++ us') (os ++ os') base (code ++ code') := by
  intro k i hk hi
  by_cases inside : k < code.length
  · rw [List.getElem?_append_left inside] at hk
    obtain ⟨f, es, call, hu, ho, hc, stands⟩ := h k i hk hi
    exact ⟨f, es, call, List.mem_append_left _ hu, List.mem_append_left _ ho, hc,
      stands.append inside.le⟩
  · obtain ⟨j, rfl⟩ := Nat.exists_eq_add_of_le (Nat.not_lt.mp inside)
    rw [List.getElem?_append_right (Nat.le_add_right _ _), Nat.add_sub_cancel_left] at hk
    obtain ⟨f, es, call, hu, ho, hc, stands⟩ := h' j i hk hi
    rw [Nat.add_assoc] at hc
    exact ⟨f, es, call, List.mem_append_right _ hu, List.mem_append_right _ ho, hc, stands.behind⟩

theorem begins_one (hi : i.opcode ≠ .pushReturn) : c.Begins [] [] base [i] := by
  intro k j hk hj
  obtain rfl := List.mem_singleton.mp (List.mem_of_getElem? hk)
  exact absurd hj hi

theorem Begins.snoc (h : c.Begins us os base code) (hi : i.opcode ≠ .pushReturn) :
    c.Begins us os base (code ++ [i]) := by
  simpa using h.append (begins_one hi)

theorem Begins.cons (h : c.Begins us os (base + 1) code) (hi : i.opcode ≠ .pushReturn) :
    c.Begins us os base (i :: code) := by
  have first : c.Begins [] [] base [i] := begins_one hi
  exact first.append h

/-- More may occur than has code. -/
theorem Begins.later (h : c.Begins us os base code) :
    c.Begins (us' ++ us) (os' ++ os) base code :=
  begins_nil.append h

theorem begins_call {f : String} {es : List Expr} (h : c.callCode base f es = .ok code) :
    c.Begins [(f, es.length)] (.call f es :: os) base code := by
  intro k i hk hi
  cases k with
  | zero => exact ⟨f, es, code, List.mem_singleton_self _, List.mem_cons_self, h, stands_all⟩
  | succ k =>
    obtain ⟨parameters, hp, rfl⟩ := callCode_ok.mp h
    obtain ⟨names, slots, rfl, _, rfl⟩ := parameterCode_ok.mp hp
    rw [List.cons_append, List.getElem?_cons_succ] at hk
    rcases List.mem_append.mp (List.mem_of_getElem? hk) with hm | hm
    · obtain ⟨a, _, rfl⟩ := List.mem_map.mp hm
      simp at hi
    · obtain rfl := List.mem_singleton.mp hm
      simp at hi

theorem begins_expr : ∀ (e : Expr) {base : Nat} {code : List Instruction},
    c.exprCode base e = .ok code → c.Begins e.calls e.occurrences base code
  | .number n, base, code, h | .read, base, code, h => by
    rw [exprCode, Emission.pure_ok] at h
    rw [← h]
    exact begins_one (by simp)
  | .var x, base, code, h => by
    obtain ⟨slot, _, rfl⟩ := exprCode_var.mp h
    exact begins_nil.snoc (by simp)
  | .unary op e, base, code, h => by
    obtain ⟨operand, ho, rfl⟩ := exprCode_unary.mp h
    rw [Expr.occurrences]
    exact (begins_expr e ho).snoc (by simp)
  | .binary op l r, base, code, h => by
    obtain ⟨left, hl, right, hr, rfl⟩ := exprCode_binary.mp h
    rw [Expr.occurrences]
    exact ((begins_expr l hl).append (begins_expr r hr)).snoc (by simp)
  | .call f es, base, code, h => by
    obtain ⟨call, hc, rfl⟩ := exprCode_call.mp h
    rw [Expr.occurrences]
    exact (begins_call hc).snoc (by simp)

theorem begins_assignment {x : String} {e : Expr} (h : c.assignmentCode base x e = .ok code) :
    c.Begins e.calls e.occurrences base code := by
  obtain ⟨value, hv, slot, _, rfl⟩ := assignmentCode_ok.mp h
  have begun : c.Begins e.calls e.occurrences base value := by
    by_cases hr : e = .read
    · subst hr
      rw [valueCode_read, Except.ok.injEq] at hv
      rw [← hv]
      exact begins_one (by simp)
    · rw [valueCode_other hr] at hv
      exact begins_expr e hv
  exact begun.snoc (by simp)

mutual

theorem begins_statement : ∀ (t : Statement) {base : Nat} {code : List Instruction},
    c.statementCode base t = .ok code → c.Begins t.calls t.occurrences base code
  | .echo e, base, code, h => by
    obtain ⟨value, hv, rfl⟩ := statementCode_echo.mp h
    rw [Statement.occurrences]
    exact (begins_expr e hv).snoc (by simp)
  | .assign x e, base, code, h => by
    rw [statementCode] at h
    rw [Statement.occurrences]
    have value : c.Begins ([] ++ e.calls) ([.variable x] ++ e.occurrences) base code :=
      (begins_assignment h).later
    exact value
  | .ifThen e body, base, code, h => by
    obtain ⟨condition, hc, inner, hi, rfl⟩ := statementCode_ifThen.mp h
    rw [Statement.occurrences]
    exact (begins_expr e hc).append
      ((begins_statements body hi).cons (by simp))
  | .ifElse e body otherwise, base, code, h => by
    obtain ⟨condition, hc, inner, hi, other, ho, rfl⟩ := statementCode_ifElse.mp h
    rw [Statement.occurrences]
    refine ((begins_expr e hc).append ((begins_statements body hi).cons ?_)).append
      (Begins.cons ?_ ?_)
    · simp
    · have place : base + (condition ++ .withNat .jumpIfZero
          (base + condition.length + 1 + inner.length + 1) :: inner).length + 1
          = base + condition.length + 1 + inner.length + 1 := by simp; omega
      rw [place]
      exact begins_statements otherwise ho
    · simp
  | .loop e body, base, code, h => by
    obtain ⟨condition, hc, inner, hi, rfl⟩ := statementCode_loop.mp h
    rw [Statement.occurrences]
    refine ((begins_expr e hc).append ((begins_statements body hi).cons ?_)).snoc ?_
    all_goals simp
  | .call f es, base, code, h => by
    rw [statementCode] at h
    rw [Statement.occurrences]
    exact begins_call h

theorem begins_statements : ∀ (ts : List Statement) {base : Nat} {code : List Instruction},
    c.statementsCode base ts = .ok code →
      c.Begins (Statement.callsAll ts) (Statement.occurrencesAll ts) base code
  | [], base, code, h => by
    rw [statementsCode, Emission.pure_ok] at h
    rw [← h]
    exact begins_nil
  | t :: ts, base, code, h => by
    obtain ⟨first, hf, others, ho, rfl⟩ := statementsCode_cons.mp h
    rw [Statement.occurrencesAll]
    exact (begins_statement t hf).append (begins_statements ts ho)

end

theorem begins_initializers {vs : Variables} (h : c.initializersCode base vs = .ok code) :
    c.Begins vs.calls vs.occurrences base code := by
  induction vs generalizing base code with
  | nil =>
    rw [initializersCode, Emission.pure_ok] at h
    rw [← h]
    exact begins_nil
  | cons v vs ih =>
    obtain ⟨x, _ | e⟩ := v
    · rw [initializersCode_none] at h
      exact ih h
    · by_cases hz : isZero e = true
      · rw [initializersCode_zero hz] at h
        exact (ih h).later
      · obtain ⟨first, hf, others, ho, rfl⟩ := (initializersCode_some hz).mp h
        exact (begins_assignment hf).append (ih ho)

theorem begins_actions {vs : Variables} {ss : List Statement}
    (h : c.actionCode base vs ss = .ok code) :
    c.Begins (vs.calls ++ Statement.callsAll ss)
      (vs.occurrences ++ Statement.occurrencesAll ss) base code := by
  obtain ⟨first, hf, others, ho, rfl⟩ := actionCode_ok.mp h
  exact (begins_initializers hf).append (begins_statements ss ho)

end Context

/-! ## Calls of a program -/

/-- The slot of a variable of the top level. -/
def Program.topSlot (p : Program) (x : String) : Nat := (p.vars.names.idxOf? x).getD 0

/-- The code at `pc` is that of a call that occurs at top level. It passes the slots of the
variables `xs` to the routine `q`. -/
structure CallAt (p : Program) (b : Bytecode) (pc : Nat) (q : Routine) (xs : List String) :
    Prop where
  routine : q ∈ p.routines
  fits : xs.length = q.parameters.length
  occurs : .call q.name (xs.map .var) ∈ p.vars.occurrences ++ Statement.occurrencesAll p.statements
  declared : ∀ x ∈ xs, x ∈ p.vars.names
  code : ∃ entry, p.IsEntry q.name entry ∧ b.Holds pc
    (.withNat .pushReturn (pc + xs.length + 2)
      :: xs.map (fun x => .withNat .pushParameter (p.topSlot x))
      ++ [.withNat .call entry])

section Images

variable {p : Program} {b : Bytecode} {im : Image p b} {pc : Nat} {i : Instruction}

theorem Image.no_call_inside {q : Piece} (hq : q ∈ im.pieces) (silent : q.routine.calls = [])
    (hi : i ∈ q.code) : i.opcode ≠ .pushReturn := by
  intro begins
  rw [Piece.code, List.mem_append, List.mem_append] at hi
  rcases hi with (hi | hi) | hi
  · obtain ⟨_, _, rfl⟩ := List.mem_map.mp hi
    simp at begins
  · obtain ⟨k, hk⟩ := List.getElem?_of_mem hi
    obtain ⟨f, es, _, used, _⟩ := Context.begins_actions (im.laid.emitted hq) k i hk begins
    change (f, es.length) ∈ q.routine.calls at used
    rw [silent] at used
    simp at used
  · unfold Plan.epilogue at hi
    split at hi
    all_goals simp at hi
    · simp [hi] at begins
    · rcases hi with rfl | rfl <;>
        simp at begins

/-- Functions that call nothing leave all calls to the top level. -/
theorem Image.call_in_actions (im : Image p b) (silent : ∀ q ∈ p.routines, q.calls = [])
    (fetched : b.instructions[pc]? = some i) (begins : i.opcode = .pushReturn) :
    ∃ k, pc = im.start + k ∧ im.actions[k]? = some i := by
  have code : b.instructions.toList = (Instruction.bare .start :: (allocations p.vars
      ++ linked im.start (im.pieces.map Piece.block))) ++ (im.actions ++ [.bare .halt]) := by
    conv_lhs => rw [im.code]
    simp [Bytecode.ofList]
  have length : (Instruction.bare .start :: (allocations p.vars
      ++ linked im.start (im.pieces.map Piece.block))).length = im.start := by
    rw [List.length_cons, List.length_append, Image.length_allocations, Image.length_linked,
      im.start_eq]
    omega
  rw [← Array.getElem?_toList, code] at fetched
  by_cases before : pc < im.start
  · rw [List.getElem?_append_left (by rwa [length])] at fetched
    rcases List.mem_cons.mp (List.mem_of_getElem? fetched) with rfl | hm
    · simp at begins
    rcases List.mem_append.mp hm with hm | hm
    · obtain ⟨_, _, rfl⟩ := List.mem_map.mp hm
      simp at begins
    · obtain ⟨block, hb, hm⟩ := List.mem_flatMap.mp hm
      obtain ⟨q, hq, rfl⟩ := List.mem_map.mp hb
      rcases List.mem_cons.mp hm with rfl | hm
      · simp [skip] at begins
      · exact absurd begins (no_call_inside hq (silent _ (im.routine_mem hq)) hm)
  · obtain ⟨k, rfl⟩ := Nat.exists_eq_add_of_le (Nat.not_lt.mp before)
    rw [List.getElem?_append_right (by omega), length, Nat.add_sub_cancel_left] at fetched
    refine ⟨k, rfl, ?_⟩
    by_cases inside : k < im.actions.length
    · rwa [List.getElem?_append_left inside] at fetched
    · rw [List.getElem?_append_right (by omega)] at fetched
      obtain rfl := List.mem_singleton.mp (List.mem_of_getElem? fetched)
      simp at begins

theorem Image.topSlots (im : Image p b) {xs : List String} {slots : List Nat}
    (h : List.Forall₂ (fun x a => im.context.scope.slot? im.context.globals x = some a) xs slots) :
    (∀ x ∈ xs, x ∈ p.vars.names) ∧ slots = xs.map p.topSlot := by
  induction h with
  | nil => simp
  | cons first _ ih =>
    have first := (im.accepted.slot_top _).symm.trans first
    refine ⟨List.forall_mem_cons.mpr ⟨List.isSome_idxOf?.mp (by rw [first]; rfl), ih.1⟩, ?_⟩
    simp [Program.topSlot, first, ih.2]

/-- Where a return address is pushed, a call of the top level begins. -/
theorem Image.callAt (im : Image p b) (silent : ∀ q ∈ p.routines, q.calls = [])
    (fetched : b.instructions[pc]? = some i) (begins : i.opcode = .pushReturn) :
    ∃ q xs, CallAt p b pc q xs := by
  obtain ⟨k, rfl, hk⟩ := im.call_in_actions silent fetched begins
  obtain ⟨f, es, call, used, occurs, hc, stands⟩ := Context.begins_actions im.emitted k i hk begins
  obtain ⟨q, hq, rfl, fits, entered⟩ := im.call_top used
  have bound := (List.getElem?_eq_some_iff.mp hk).1
  have holds : b.Holds (im.start + k) call :=
    (image_holds im).2.2.2.1.inner stands bound.le
  obtain ⟨parameters, hp, rfl⟩ := Context.callCode_ok.mp hc
  obtain ⟨xs, slots, rfl, found, rfl⟩ := Context.parameterCode_ok.mp hp
  obtain ⟨declared, rfl⟩ := im.topSlots found
  rw [List.length_map] at fits
  rw [List.length_map, List.length_map, List.map_map] at holds
  exact ⟨q.routine, xs, im.routine_mem hq, fits.symm, occurs, declared, q.entry, (im.isEntry hq).1,
    by rw [← entered]; exact holds⟩

end Images

end FlatStack
