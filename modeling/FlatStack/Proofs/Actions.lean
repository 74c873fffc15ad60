import FlatStack.Proofs.Segment

/-!
# Instructions of actions

Initializers and statements are made of a few kinds of instructions. None of
them makes or drops slots or ends a function, and no jump among them has a
comment. This holds of the code that is emitted until an emission stops, too.
-/

set_option autoImplicit false

namespace FlatStack

namespace Emission

/-- All code that is emitted, also before an emission stops. -/
def emitted : Emission → List Instruction
  | .ok code => code
  | .error a => a.code

/-- Every instruction that is emitted has a property. -/
def Emits (P : Instruction → Prop) (e : Emission) : Prop := ∀ i ∈ e.emitted, P i

variable {α : Type} {P : Instruction → Prop} {e : Emission} {f : List Instruction → Emission}
  {before code : List Instruction}

theorem emits_pure (h : ∀ i ∈ code, P i) : Emits P (pure code) := h

theorem emits_stop (cause : EmissionError) : Emits P (stop cause) := by simp [Emits, emitted, stop]

theorem Emits.behind (h : Emits P e) (front : ∀ i ∈ before, P i) : Emits P (behind before e) := by
  cases e with
  | ok code => exact h
  | error a => exact List.forall_mem_append.mpr ⟨front, h⟩

theorem Emits.bind (h : Emits P e) (hf : ∀ code, (∀ i ∈ code, P i) → Emits P (f code)) :
    Emits P (e >>= f) := by
  cases e with
  | ok code => exact hf code h
  | error a => exact h

theorem Emits.slot {c : Context} {x : String} {f : Nat → Emission} (hf : ∀ n, Emits P (f n)) :
    Emits P (c.slot x >>= f) := by
  unfold Context.slot
  split
  · exact hf _
  · exact emits_stop _

theorem Emits.slot_behind {c : Context} {x : String} {f : Nat → Emission}
    (front : ∀ i ∈ before, P i) (hf : ∀ n, Emits P (f n)) :
    Emits P (Emission.behind before (c.slot x) >>= f) := by
  unfold Context.slot
  split
  · exact hf _
  · exact List.forall_mem_append.mpr ⟨front, by simp⟩

end Emission

namespace Instruction

/-- An instruction of initializers or statements. -/
structure Acts (i : Instruction) : Prop where
  opcode : i.opcode ∉ [.start, .halt, .alloc, .dealloc, .return_]
  jump : i.opcode = .jump → i.comment = none

theorem acts_bare {o : Opcode} (h : o ∉ [.start, .halt, .alloc, .dealloc, .return_]) :
    (bare o).Acts := ⟨h, fun _ => rfl⟩

theorem acts_withNat {o : Opcode} (h : o ∉ [.start, .halt, .alloc, .dealloc, .return_]) (n : Nat) :
    (withNat o n).Acts := ⟨h, fun _ => rfl⟩

end Instruction

namespace Context

open Emission
open Instruction (acts_bare acts_withNat)

variable {c : Context} {base : Nat} {callee x : String} {arguments : List Expr}

theorem parameterCode_acts : Emits Instruction.Acts (c.parameterCode callee arguments) := by
  induction arguments with
  | nil => exact emits_pure (by simp)
  | cons e arguments ih =>
    cases e with
    | var x =>
      refine Emits.slot fun n => ?_
      have first := acts_withNat (o := .pushParameter) (by simp) n
      exact (ih.behind (List.forall_mem_singleton.mpr first)).bind fun others hothers =>
        emits_pure (List.forall_mem_cons.mpr ⟨first, hothers⟩)
    | _ => exact emits_stop _

theorem callCode_acts : Emits Instruction.Acts (c.callCode base callee arguments) := by
  refine (parameterCode_acts.behind ?_).bind fun parameters hp => emits_pure ?_
  · exact List.forall_mem_singleton.mpr (acts_withNat (by simp) 0)
  · rw [List.forall_mem_append, List.forall_mem_cons, List.forall_mem_singleton]
    exact ⟨⟨acts_withNat (by simp) _, hp⟩, acts_withNat (by simp) _⟩

theorem exprCode_acts : ∀ (e : Expr) {base : Nat}, Emits Instruction.Acts (c.exprCode base e)
  | .number n, _ => emits_pure (List.forall_mem_singleton.mpr ⟨by simp, fun _ => rfl⟩)
  | .read, _ => emits_pure (List.forall_mem_singleton.mpr (acts_bare (by simp)))
  | .var x, _ => by
    exact Emits.slot fun n => emits_pure (List.forall_mem_singleton.mpr (acts_withNat (by simp) n))
  | .unary op e, base => by
    rw [exprCode]
    refine (exprCode_acts e).bind fun operand ho => emits_pure ?_
    exact List.forall_mem_append.mpr ⟨ho, List.forall_mem_singleton.mpr (acts_bare (by simp))⟩
  | .binary op l r, base => by
    rw [exprCode]
    refine (exprCode_acts l).bind fun left hl => ?_
    refine ((exprCode_acts r).behind hl).bind fun right hr => emits_pure ?_
    rw [List.forall_mem_append, List.forall_mem_append, List.forall_mem_singleton]
    exact ⟨⟨hl, hr⟩, acts_bare (by simp)⟩
  | .call callee arguments, base => by
    rw [exprCode]
    refine callCode_acts.bind fun call hc => emits_pure ?_
    exact List.forall_mem_append.mpr ⟨hc, List.forall_mem_singleton.mpr (acts_withNat (by simp) 0)⟩

theorem valueCode_acts {e : Expr} : Emits Instruction.Acts (c.valueCode base x e) := by
  by_cases hr : e = .read
  · subst hr
    exact List.forall_mem_singleton.mpr ⟨by simp, by simp [Instruction.commented, Instruction.bare]⟩
  · rw [valueCode_other hr]
    exact exprCode_acts e

theorem assignmentCode_acts {e : Expr} : Emits Instruction.Acts (c.assignmentCode base x e) := by
  refine valueCode_acts.bind fun value hv => Emits.slot_behind hv fun n => emits_pure ?_
  exact List.forall_mem_append.mpr ⟨hv, List.forall_mem_singleton.mpr (acts_withNat (by simp) n)⟩

mutual

theorem statementCode_acts : ∀ (t : Statement) {base : Nat},
    Emits Instruction.Acts (c.statementCode base t)
  | .echo e, base => by
    rw [statementCode]
    refine (exprCode_acts e).bind fun value hv => emits_pure ?_
    exact List.forall_mem_append.mpr ⟨hv, List.forall_mem_singleton.mpr (acts_bare (by simp))⟩
  | .assign x e, base => by
    rw [statementCode]
    exact assignmentCode_acts
  | .ifThen e body, base => by
    rw [statementCode]
    refine (exprCode_acts e).bind fun condition hc => ?_
    refine ((statementsCode_acts body).behind ?_).bind fun inner hi => emits_pure ?_
    · exact List.forall_mem_append.mpr
        ⟨hc, List.forall_mem_singleton.mpr (acts_withNat (by simp) 0)⟩
    · rw [List.forall_mem_append, List.forall_mem_cons]
      exact ⟨hc, acts_withNat (by simp) _, hi⟩
  | .ifElse e body otherwise, base => by
    rw [statementCode]
    refine (exprCode_acts e).bind fun condition hc => ?_
    refine ((statementsCode_acts body).behind ?_).bind fun inner hi => ?_
    · exact List.forall_mem_append.mpr
        ⟨hc, List.forall_mem_singleton.mpr (acts_withNat (by simp) 0)⟩
    have branch (target : Nat) : ∀ i ∈ condition ++ .withNat .jumpIfZero target :: inner,
        i.Acts := by
      rw [List.forall_mem_append, List.forall_mem_cons]
      exact ⟨hc, acts_withNat (by simp) _, hi⟩
    refine ((statementsCode_acts otherwise).behind ?_).bind fun other ho => emits_pure ?_
    · exact List.forall_mem_append.mpr
        ⟨branch _, List.forall_mem_singleton.mpr (acts_withNat (by simp) 0)⟩
    · rw [List.forall_mem_append, List.forall_mem_cons]
      exact ⟨branch _, acts_withNat (by simp) _, ho⟩
  | .loop e body, base => by
    rw [statementCode]
    refine (exprCode_acts e).bind fun condition hc => ?_
    refine ((statementsCode_acts body).behind ?_).bind fun inner hi => emits_pure ?_
    · exact List.forall_mem_append.mpr
        ⟨hc, List.forall_mem_singleton.mpr (acts_withNat (by simp) 0)⟩
    · rw [List.forall_mem_append, List.forall_mem_append, List.forall_mem_cons,
        List.forall_mem_singleton]
      exact ⟨⟨hc, acts_withNat (by simp) _, hi⟩, acts_withNat (by simp) _⟩
  | .call f arguments, base => by
    rw [statementCode]
    exact callCode_acts

theorem statementsCode_acts : ∀ (ts : List Statement) {base : Nat},
    Emits Instruction.Acts (c.statementsCode base ts)
  | [], _ => emits_pure (by simp)
  | t :: ts, base => by
    rw [statementsCode]
    refine (statementCode_acts t).bind fun first hf => ?_
    exact ((statementsCode_acts ts).behind hf).bind fun others ho =>
      emits_pure (List.forall_mem_append.mpr ⟨hf, ho⟩)

end

theorem initializersCode_acts {vs : Variables} :
    Emits Instruction.Acts (c.initializersCode base vs) := by
  induction vs generalizing base with
  | nil => exact emits_pure (by simp)
  | cons v vs ih =>
    obtain ⟨x, _ | e⟩ := v
    · rw [initializersCode_none]
      exact ih
    · rw [initializersCode]
      split
      · exact ih
      · refine assignmentCode_acts.bind fun first hf => ?_
        exact (ih.behind hf).bind fun others ho =>
          emits_pure (List.forall_mem_append.mpr ⟨hf, ho⟩)

theorem actionCode_acts (c : Context) (base : Nat) (vs : Variables) (ss : List Statement) :
    Emits Instruction.Acts (c.actionCode base vs ss) := by
  refine initializersCode_acts.bind fun first hf => ?_
  exact ((statementsCode_acts ss).behind hf).bind fun others ho =>
    emits_pure (List.forall_mem_append.mpr ⟨hf, ho⟩)

end Context

end FlatStack
