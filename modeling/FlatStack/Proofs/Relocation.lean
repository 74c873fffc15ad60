import FlatStack.Proofs.Offenses
import FlatStack.Proofs.Placement

/-!
# Code in another place

Code can be generated further on, behind other code, and with other slots for
its names. Then it is the same code except that it leads as much further on and
that its accesses use the other slots. An emission that stops does so for the
same reason, and the jumps that were waiting still lead to address zero.
-/

set_option autoImplicit false

namespace FlatStack

open Declaration (vars routines)

/-! ## Instructions -/

namespace Instruction

/-- The operand is an address of code. -/
def leads (i : Instruction) : Bool :=
  match i.opcode with
  | .jump | .jumpIfZero | .pushReturn | .call => true
  | _ => false

/-- The instruction for a place `k` further on, with another slot. -/
inductive Moved (k : Nat) (R : Nat → Nat → Prop) : Instruction → Instruction → Prop where
  | plain {i : Instruction} : i.leads = false → i.isAccess = false → Moved k R i i
  | target {i : Instruction} (n : Nat) : i.leads = true →
      Moved k R { i with operand := some (.ofNat n) } { i with operand := some (.ofNat (k + n)) }
  | slot {i : Instruction} {n m : Nat} : i.isAccess = true → R n m →
      Moved k R { i with operand := some (.ofNat n) } { i with operand := some (.ofNat m) }

/-- In code that was abandoned a jump may wait for its target. -/
inductive Held (k : Nat) (R : Nat → Nat → Prop) : Instruction → Instruction → Prop where
  | moved {i j : Instruction} : Moved k R i j → Held k R i j
  | waiting {i : Instruction} : i.leads = true → i.operand = some (.ofNat 0) → Held k R i i

end Instruction

open Instruction (Moved Held)

/-- Code for a place `k` further on. -/
abbrev MovedCode (k : Nat) (R : Nat → Nat → Prop) (code code' : List Instruction) : Prop :=
  List.Forall₂ (Moved k R) code code'

/-- Code that was abandoned in another place. -/
abbrev HeldCode (k : Nat) (R : Nat → Nat → Prop) (code code' : List Instruction) : Prop :=
  List.Forall₂ (Held k R) code code'

section Instructions

variable {k n m : Nat} {R : Nat → Nat → Prop} {code code' : List Instruction}

theorem MovedCode.held (h : MovedCode k R code code') : HeldCode k R code code' :=
  h.imp fun _ _ => .moved

theorem moved_target (op : Opcode) (leads : (Instruction.withNat op n).leads = true)
    (same : m = k + n) : Moved k R (.withNat op n) (.withNat op m) :=
  same ▸ .target n leads

theorem moved_slot (op : Opcode) (access : (Instruction.withNat op n).isAccess = true)
    (related : R n m) : Moved k R (.withNat op n) (.withNat op m) :=
  .slot access related

theorem held_waiting (op : Opcode) (leads : (Instruction.withNat op 0).leads = true) :
    Held k R (.withNat op 0) (.withNat op 0) :=
  .waiting leads rfl

theorem moved_plain {i : Instruction} (leads : i.leads = false := by rfl)
    (access : i.isAccess = false := by rfl) : Moved k R i i :=
  .plain leads access

/-- Code in the same place with the same slots is the same code. -/
theorem Moved.eq (related : ∀ n m, R n m → m = n) {i j : Instruction} (h : Moved 0 R i j) :
    j = i := by
  cases h with
  | plain => rfl
  | target n => rw [Nat.zero_add]
  | slot _ same => rw [related _ _ same]

theorem HeldCode.eq (related : ∀ n m, R n m → m = n) (h : HeldCode 0 R code code') :
    code' = code := by
  induction h with
  | nil => rfl
  | cons first _ ih =>
    cases first with
    | moved first => rw [Moved.eq related first, ih]
    | waiting => rw [ih]

theorem MovedCode.eq (related : ∀ n m, R n m → m = n) (h : MovedCode 0 R code code') :
    code' = code :=
  HeldCode.eq related h.held

end Instructions

/-! ## Emissions side by side -/

/-- Two emissions end alike: with related results, or for the same reason. -/
inductive Parallel {α β : Type} (k : Nat) (R : Nat → Nat → Prop) (S : α → β → Prop) :
    Except Abandoned α → Except Abandoned β → Prop where
  | ok {a : α} {b : β} : S a b → Parallel k R S (.ok a) (.ok b)
  | error {cause : EmissionError} {code code' : List Instruction} : HeldCode k R code code' →
      Parallel k R S (.error ⟨cause, code⟩) (.error ⟨cause, code'⟩)

namespace Parallel

section

variable {α β : Type} {k : Nat} {R : Nat → Nat → Prop} {S : α → β → Prop}
  {e : Except Abandoned α} {e' : Except Abandoned β}

theorem succeeds (h : Parallel k R S e e') : (∃ a, e = .ok a) ↔ ∃ b, e' = .ok b := by
  cases h <;> simp

theorem fails (h : Parallel k R S e e') (cause : EmissionError) :
    (∃ code, e = .error ⟨cause, code⟩) ↔ ∃ code, e' = .error ⟨cause, code⟩ := by
  cases h <;> simp

theorem related {a : α} {b : β} (h : Parallel k R S (.ok a) (.ok b)) : S a b := by
  cases h
  assumption

/-- Emissions of code in the same place with the same slots are the same. -/
theorem eq (related : ∀ n m, R n m → m = n) {e e' : Emission}
    (h : Parallel 0 R (MovedCode 0 R) e e') : e' = e := by
  cases h with
  | ok code => rw [MovedCode.eq related code]
  | error code => rw [HeldCode.eq related code]

end

variable {α β γ δ : Type} {k : Nat} {R : Nat → Nat → Prop} {S : α → β → Prop} {T : γ → δ → Prop}
  {e : Except Abandoned α} {e' : Except Abandoned β} {f : α → Except Abandoned γ}
  {f' : β → Except Abandoned δ} {before before' : List Instruction}

theorem behind (held : HeldCode k R before before') (h : Parallel k R S e e') :
    Parallel k R S (Emission.behind before e) (Emission.behind before' e') := by
  cases h with
  | ok related => exact .ok related
  | error code => exact .error (List.rel_append held code)

theorem bind (h : Parallel k R S e e') (hf : ∀ a b, S a b → Parallel k R T (f a) (f' b)) :
    Parallel k R T (e >>= f) (e' >>= f') := by
  cases h with
  | ok related => exact hf _ _ related
  | error code => exact .error code

theorem map {g : α → γ} {g' : β → δ} (h : Parallel k R S e e')
    (hg : ∀ a b, S a b → T (g a) (g' b)) :
    Parallel k R T (e >>= fun a => pure (g a)) (e' >>= fun b => pure (g' b)) :=
  h.bind fun _ _ related => .ok (hg _ _ related)

end Parallel

namespace Context

/-- In these occurrences names have related slots, and functions begin `k` further on. -/
structure Relocates (k : Nat) (R : Nat → Nat → Prop) (c c' : Context) (os : List Occurrence) :
    Prop where
  slots : ∀ x, .variable x ∈ os →
    Option.Rel R (c.scope.slot? c.globals x) (c'.scope.slot? c'.globals x)
  entries : ∀ f arguments, .call f arguments ∈ os → c'.entry f = k + c.entry f

variable {k base base' : Nat} {R : Nat → Nat → Prop} {c c' : Context} {os os' : List Occurrence}
  {x callee : String} {arguments : List Expr}

theorem Relocates.mono (h : Relocates k R c c' os) (sub : os' ⊆ os) : Relocates k R c c' os' :=
  ⟨fun x hx => h.slots x (sub hx), fun f as hf => h.entries f as (sub hf)⟩

theorem Relocates.left (h : Relocates k R c c' (os ++ os')) : Relocates k R c c' os :=
  h.mono (List.subset_append_left _ _)

theorem Relocates.right (h : Relocates k R c c' (os ++ os')) : Relocates k R c c' os' :=
  h.mono (List.subset_append_right _ _)

theorem Relocates.tail {o : Occurrence} (h : Relocates k R c c' (o :: os)) :
    Relocates k R c c' os :=
  h.mono (List.subset_cons_self _ _)

theorem slot_parallel (h : Relocates k R c c' os) (hx : .variable x ∈ os) :
    Parallel k R R (c.slot x) (c'.slot x) := by
  have related := h.slots x hx
  unfold Context.slot
  revert related
  generalize c.scope.slot? c.globals x = slot, c'.scope.slot? c'.globals x = slot'
  rintro (related | _)
  · exact .ok related
  · exact .error .nil

theorem parameterCode_parallel (h : Relocates k R c c' (Expr.occurrencesAll arguments)) :
    Parallel k R (MovedCode k R) (c.parameterCode callee arguments)
      (c'.parameterCode callee arguments) := by
  induction arguments with
  | nil => exact .ok .nil
  | cons e arguments ih =>
    cases e with
    | var x =>
      refine (slot_parallel h.left List.mem_cons_self).bind fun n m related => ?_
      have first : Moved k R (.withNat .pushParameter n) (.withNat .pushParameter m) :=
        moved_slot _ rfl related
      exact ((ih h.right).behind (.cons (.moved first) .nil)).map fun _ _ others =>
        .cons first others
    | _ => exact .error .nil

theorem callCode_parallel (at_ : base' = k + base)
    (h : Relocates k R c c' (.call callee arguments :: Expr.occurrencesAll arguments)) :
    Parallel k R (MovedCode k R) (c.callCode base callee arguments)
      (c'.callCode base' callee arguments) := by
  refine ((parameterCode_parallel h.tail).behind (.cons (held_waiting _ rfl) .nil)).map
    fun parameters parameters' moved => ?_
  have length := moved.length_eq
  have entry := h.entries callee arguments List.mem_cons_self
  refine .cons (moved_target _ rfl (by omega)) (List.rel_append moved (.cons ?_ .nil))
  exact moved_target _ rfl entry

theorem exprCode_parallel : ∀ (e : Expr) {base base' : Nat}, base' = k + base →
    Relocates k R c c' e.occurrences →
      Parallel k R (MovedCode k R) (c.exprCode base e) (c'.exprCode base' e)
  | .number _, _, _, _, _ | .read, _, _, _, _ => .ok (.cons moved_plain .nil)
  | .var x, _, _, _, h => by
    rw [exprCode, exprCode]
    exact (slot_parallel h List.mem_cons_self).map fun n m related =>
      .cons (moved_slot _ rfl related) .nil
  | .unary op e, _, _, at_, h => by
    rw [exprCode, exprCode]
    exact (exprCode_parallel e at_ h).map fun _ _ moved =>
      List.rel_append moved (.cons moved_plain .nil)
  | .binary op l r, _, _, at_, h => by
    rw [exprCode, exprCode]
    refine (exprCode_parallel l at_ h.left).bind fun left left' first => ?_
    have length := first.length_eq
    refine ((exprCode_parallel r (by omega) h.right).behind first.held).map fun _ _ second => ?_
    exact List.rel_append (List.rel_append first second) (.cons moved_plain .nil)
  | .call callee arguments, _, _, at_, h => by
    rw [exprCode, exprCode]
    exact (callCode_parallel at_ h).map fun _ _ moved =>
      List.rel_append moved (.cons moved_plain .nil)

theorem valueCode_parallel {e : Expr} (at_ : base' = k + base)
    (h : Relocates k R c c' e.occurrences) :
    Parallel k R (MovedCode k R) (c.valueCode base x e) (c'.valueCode base' x e) := by
  by_cases hr : e = .read
  · subst hr
    exact .ok (.cons moved_plain .nil)
  · rw [valueCode_other hr, valueCode_other hr]
    exact exprCode_parallel e at_ h

theorem assignmentCode_parallel {e : Expr} (at_ : base' = k + base)
    (h : Relocates k R c c' (.variable x :: e.occurrences)) :
    Parallel k R (MovedCode k R) (c.assignmentCode base x e) (c'.assignmentCode base' x e) := by
  refine (valueCode_parallel at_ h.tail).bind fun value value' moved => ?_
  refine ((slot_parallel h List.mem_cons_self).behind moved.held).map fun n m related => ?_
  exact List.rel_append moved (.cons (moved_slot _ rfl related) .nil)

/-- Code behind a condition and the jump over it, which waits for its target. -/
theorem held_condition {condition condition' : List Instruction} (op : Opcode)
    (leads : (Instruction.withNat op 0).leads = true) (moved : MovedCode k R condition condition') :
    HeldCode k R (condition ++ [.withNat op 0]) (condition' ++ [.withNat op 0]) :=
  List.rel_append moved.held (.cons (held_waiting op leads) .nil)

mutual

theorem statementCode_parallel : ∀ (t : Statement) {base base' : Nat}, base' = k + base →
    Relocates k R c c' t.occurrences →
      Parallel k R (MovedCode k R) (c.statementCode base t) (c'.statementCode base' t)
  | .echo e, _, _, at_, h => by
    rw [statementCode, statementCode]
    exact (exprCode_parallel e at_ h).map fun _ _ moved =>
      List.rel_append moved (.cons moved_plain .nil)
  | .assign x e, _, _, at_, h => by
    rw [statementCode, statementCode]
    exact assignmentCode_parallel at_ h
  | .ifThen e body, _, _, at_, h => by
    rw [statementCode, statementCode]
    refine (exprCode_parallel e at_ h.left).bind fun condition condition' first => ?_
    have before := first.length_eq
    refine ((statementsCode_parallel body (by omega) h.right).behind
      (held_condition _ rfl first)).map fun inner inner' second => ?_
    have inside := second.length_eq
    exact List.rel_append first (.cons (moved_target _ rfl (by omega)) second)
  | .ifElse e body otherwise, _, _, at_, h => by
    rw [Statement.occurrences, List.append_assoc] at h
    rw [statementCode, statementCode]
    refine (exprCode_parallel e at_ h.left).bind fun condition condition' first => ?_
    have before := first.length_eq
    refine ((statementsCode_parallel body (by omega) h.right.left).behind
      (held_condition _ rfl first)).bind fun inner inner' second => ?_
    have inside := second.length_eq
    have branch : ∀ n m, m = k + n →
        MovedCode k R (condition ++ .withNat .jumpIfZero n :: inner)
          (condition' ++ .withNat .jumpIfZero m :: inner') := fun n m same =>
      List.rel_append first (.cons (moved_target _ rfl same) second)
    refine ((statementsCode_parallel otherwise (by omega) h.right.right).behind
      (held_condition .jump rfl (branch _ _ (by omega)))).map fun other other' third => ?_
    have behind := third.length_eq
    exact List.rel_append (branch _ _ (by omega)) (.cons (moved_target _ rfl (by omega)) third)
  | .loop e body, base, base', at_, h => by
    rw [statementCode, statementCode]
    refine (exprCode_parallel e at_ h.left).bind fun condition condition' first => ?_
    have before := first.length_eq
    refine ((statementsCode_parallel body (by omega) h.right).behind
      (held_condition _ rfl first)).map fun inner inner' second => ?_
    have inside := second.length_eq
    refine List.rel_append (List.rel_append first (.cons ?_ second)) (.cons ?_ .nil)
    · exact moved_target _ rfl (by omega)
    · exact moved_target _ rfl at_
  | .call callee arguments, _, _, at_, h => by
    rw [statementCode, statementCode]
    exact callCode_parallel at_ h

theorem statementsCode_parallel : ∀ (ts : List Statement) {base base' : Nat}, base' = k + base →
    Relocates k R c c' (Statement.occurrencesAll ts) →
      Parallel k R (MovedCode k R) (c.statementsCode base ts) (c'.statementsCode base' ts)
  | [], _, _, _, _ => .ok .nil
  | t :: ts, _, _, at_, h => by
    rw [statementsCode, statementsCode]
    refine (statementCode_parallel t at_ h.left).bind fun first first' moved => ?_
    have length := moved.length_eq
    refine ((statementsCode_parallel ts (by omega) h.right).behind moved.held).map
      fun _ _ others => ?_
    exact List.rel_append moved others

end

/-- What occurs in the actions of a body, with the variables that are initialized. -/
def actionOccurrences (vs : Variables) (ss : List Statement) : List Occurrence :=
  vs.names.map .variable ++ (vs.occurrences ++ Statement.occurrencesAll ss)

theorem initializersCode_parallel {vs : Variables} (at_ : base' = k + base)
    (h : Relocates k R c c' (vs.names.map .variable ++ vs.occurrences)) :
    Parallel k R (MovedCode k R) (c.initializersCode base vs) (c'.initializersCode base' vs) := by
  induction vs generalizing base base' with
  | nil => exact .ok .nil
  | cons v vs ih =>
    have further : Relocates k R c c'
        ((Variables.names vs).map .variable ++ Variables.occurrences vs) := by
      refine h.mono (List.append_subset.mpr ⟨fun o ho => ?_, fun o ho => ?_⟩)
      · exact List.mem_append_left _ (List.mem_cons_of_mem _ ho)
      · exact List.mem_append_right _ (List.mem_append_right _ ho)
    obtain ⟨x, _ | e⟩ := v
    · exact ih at_ further
    · have here : Relocates k R c c' (.variable x :: e.occurrences) := by
        refine h.mono (List.cons_subset.mpr ⟨List.mem_cons_self, fun o ho => ?_⟩)
        exact List.mem_append_right _ (List.mem_append_left _ ho)
      rw [initializersCode, initializersCode]
      split
      · exact ih at_ further
      · refine (assignmentCode_parallel at_ here).bind fun first first' moved => ?_
        have length := moved.length_eq
        refine ((ih (by omega) further).behind moved.held).map fun _ _ others => ?_
        exact List.rel_append moved others

theorem actionCode_parallel {vs : Variables} {ss : List Statement} (at_ : base' = k + base)
    (h : Relocates k R c c' (actionOccurrences vs ss)) :
    Parallel k R (MovedCode k R) (c.actionCode base vs ss) (c'.actionCode base' vs ss) := by
  rw [actionOccurrences, ← List.append_assoc] at h
  refine (initializersCode_parallel at_ h.left).bind fun first first' moved => ?_
  have length := moved.length_eq
  refine ((statementsCode_parallel ss (by omega) h.right).behind moved.held).map
    fun _ _ others => ?_
  exact List.rel_append moved others

end Context

/-! ## Passes side by side -/

namespace Generator

namespace Pass

variable {α β γ δ : Type} {k : Nat} {R : Nat → Nat → Prop} {known known' known'' : List String}
  {S : α → β → Prop} {T : γ → δ → Prop} {x : Pass α} {y : Pass β} {f : α → Pass γ}
  {g : β → Pass δ} {s t : Progress}

/-- The result of a pass together with what has changed, if it does not stop. -/
def outcome (x : Pass α) (s : Progress) : Except Abandoned (α × Progress) :=
  (x.run.run s).run.1.map fun a => (a, (x.run.run s).run.2)

theorem outcome_bind (x : Pass α) (f : α → Pass γ) (s : Progress) :
    outcome (x >>= f) s = outcome x s >>= fun r => outcome (f r.1) r.2 := by
  unfold outcome
  rw [run_bind]
  rcases (x.run.run s).run with ⟨_ | a, s'⟩ <;> rfl

theorem outcome_behind (before : List Instruction) (x : Pass α) (s : Progress) :
    outcome (behind before x) s = Emission.behind before (outcome x s) := by
  unfold outcome
  rw [run_behind]
  rcases (x.run.run s).run with ⟨_ | a, s'⟩ <;> rfl

theorem outcome_emit (e : Except Abandoned α) (s : Progress) :
    outcome (emit e) s = e >>= fun a => pure (a, s) := by
  cases e <;> rfl

/-- Functions that are known begin `k` further on. -/
def Aligned (k : Nat) (known : List String) (s t : Progress) : Prop :=
  ∀ f ∈ known, (t.entries.find? f).getD 0 = k + (s.entries.find? f).getD 0

/-- Two passes end alike if they begin with the functions of `known` aligned. -/
def Parallel (k : Nat) (R : Nat → Nat → Prop) (known known' : List String) (S : α → β → Prop)
    (x : Pass α) (y : Pass β) : Prop :=
  ∀ s t, Aligned k known s t →
    FlatStack.Parallel k R (fun a b => S a.1 b.1 ∧ Aligned k known' a.2 b.2)
      (outcome x s) (outcome y t)

theorem parallel_pure {a : α} {b : β} (related : S a b) :
    Parallel k R known known S (pure a) (pure b) :=
  fun _ _ aligned => .ok ⟨related, aligned⟩

theorem parallel_emit {e : Except Abandoned α} {e' : Except Abandoned β}
    (h : FlatStack.Parallel k R S e e') : Parallel k R known known S (emit e) (emit e') := by
  intro s t aligned
  rw [outcome_emit, outcome_emit]
  exact h.map fun _ _ related => ⟨related, aligned⟩

theorem parallel_enter {top : Bool} {name : String} {entry entry' : Nat}
    (at_ : entry' = k + entry) :
    Parallel k R known (known ++ [name]) (fun _ _ => True) (enter top name entry)
      (enter top name entry') := by
  intro s t aligned
  refine .ok ⟨trivial, fun f hf => ?_⟩
  show (List.lookup f ((name, entry') :: t.entries)).getD 0 =
    k + (List.lookup f ((name, entry) :: s.entries)).getD 0
  rw [List.lookup_cons, List.lookup_cons]
  split
  · exact at_
  · rename_i other
    rcases List.mem_append.mp hf with old | new
    · exact aligned f old
    · rw [List.mem_singleton.mp new, beq_self_eq_true] at other
      cases other

theorem Parallel.behind {before before' : List Instruction} (held : HeldCode k R before before')
    (h : Parallel k R known known' S x y) :
    Parallel k R known known' S (behind before x) (Pass.behind before' y) := by
  intro s t aligned
  rw [outcome_behind, outcome_behind]
  exact (h s t aligned).behind held

theorem Parallel.bind (h : Parallel k R known known' S x y)
    (hf : ∀ a b, S a b → Parallel k R known' known'' T (f a) (g b)) :
    Parallel k R known known'' T (x >>= f) (y >>= g) := by
  intro s t aligned
  rw [outcome_bind, outcome_bind]
  exact (h s t aligned).bind fun a b related => hf a.1 b.1 related.1 a.2 b.2 related.2

theorem Parallel.map {f : α → γ} {g : β → δ} (h : Parallel k R known known' S x y)
    (hf : ∀ a b, S a b → T (f a) (g b)) :
    Parallel k R known known' T (x >>= fun a => pure (f a)) (y >>= fun b => pure (g b)) :=
  h.bind fun a b related => parallel_pure (hf a b related)

/-- The results alone end alike. -/
theorem Parallel.results (h : Parallel k R known known' S x y) (aligned : Aligned k known s t) :
    FlatStack.Parallel k R S (x.run.run s).run.1 (y.run.run t).run.1 := by
  have whole := h s t aligned
  unfold outcome at whole
  revert whole
  rcases (x.run.run s).run with ⟨_ | a, s'⟩ <;> rcases (y.run.run t).run with ⟨_ | b, t'⟩
  · rintro (_ | code)
    exact .error code
  · rintro ⟨⟩
  · rintro ⟨⟩
  · rintro (related | _)
    exact .ok related.1

/-- A pass that goes on with what has been noted so far. -/
theorem parallel_get {f : Progress → Pass γ} {g : Progress → Pass δ}
    (h : ∀ s t, Aligned k known s t → Parallel k R known known' T (f s) (g t)) :
    Parallel k R known known' T (get >>= f) (get >>= g) := by
  intro s t aligned
  rw [outcome_bind, outcome_bind]
  exact h s t aligned s t aligned

end Pass

/-! ## Code of functions and bodies -/

section Blocks

variable {k target target' : Nat} {R : Nat → Nat → Prop} {bs bs' : List Block}

/-- The code of the same function in another place. -/
def MovedBlock (k : Nat) (R : Nat → Nat → Prop) (b b' : Block) : Prop :=
  b.name = b'.name ∧ MovedCode k R b.code b'.code

theorem sizeOf_moved (h : List.Forall₂ (MovedBlock k R) bs bs') : sizeOf bs' = sizeOf bs := by
  induction h with
  | nil => rfl
  | cons first _ ih => rw [Plan.sizeOf_cons, Plan.sizeOf_cons, ih, first.2.length_eq]

theorem moved_skip (name : String) (same : target' = k + target) :
    Moved k R (skip target name) (skip target' name) :=
  same ▸ .target (i := skip 0 name) target rfl

theorem linked_moved (same : target' = k + target) (h : List.Forall₂ (MovedBlock k R) bs bs') :
    MovedCode k R (linked target bs) (linked target' bs') := by
  induction h with
  | nil => exact .nil
  | @cons b b' _ _ first _ ih =>
    obtain ⟨name, code⟩ := first
    have head : Moved k R (skip target b.name) (skip target' b'.name) :=
      name ▸ moved_skip b.name same
    exact List.rel_append (.cons head code) ih

theorem linked_held (h : List.Forall₂ (MovedBlock k R) bs bs') :
    HeldCode k R (linked 0 bs) (linked 0 bs') := by
  induction h with
  | nil => exact .nil
  | @cons b b' _ _ first _ ih =>
    obtain ⟨name, code⟩ := first
    have head : Held k R (skip 0 b.name) (skip 0 b'.name) := name ▸ .waiting rfl rfl
    exact List.rel_append (.cons head code.held) ih

theorem allocations_moved (vs : Variables) : MovedCode k R (allocations vs) (allocations vs) :=
  List.forall₂_same.mpr fun i hi => by
    obtain ⟨v, -, rfl⟩ := List.mem_map.mp hi
    exact moved_plain

end Blocks

namespace Plan

variable {k base base' : Nat} {R : Nat → Nat → Prop} {plan plan' : Plan}
  {scope scope' around around' : Scope} {known : List String} {top : Bool}

/-- In these occurrences names have related slots, and functions are known. -/
structure Relocates (R : Nat → Nat → Prop) (slot? slot?' : String → Option Nat)
    (known : List String) (os : List Occurrence) : Prop where
  slots : ∀ x, .variable x ∈ os → Option.Rel R (slot? x) (slot?' x)
  known : ∀ f arguments, .call f arguments ∈ os → f ∈ known

theorem bodyCode_parallel {vs : Variables} {blocks blocks' : List Block} {ss : List Statement}
    (at_ : base' = k + base)
    (h : Relocates R (scope.slot? plan.globals) (scope'.slot? plan'.globals) known
      (Context.actionOccurrences vs ss)) (hb : List.Forall₂ (MovedBlock k R) blocks blocks') :
    Pass.Parallel k R known known (MovedCode k R) (plan.bodyCode scope base vs blocks ss)
      (plan'.bodyCode scope' base' vs blocks' ss) := by
  have start : base' + vs.length + sizeOf blocks' = k + (base + vs.length + sizeOf blocks) := by
    rw [sizeOf_moved hb]
    omega
  have before := List.rel_append (allocations_moved (k := k) (R := R) vs) (linked_moved start hb)
  refine Pass.parallel_get fun s t aligned => ?_
  have relocates : Context.Relocates k R ⟨scope, plan.globals, s.entries⟩
      ⟨scope', plan'.globals, t.entries⟩ (Context.actionOccurrences vs ss) :=
    ⟨h.slots, fun f arguments hf => aligned f (h.known f arguments hf)⟩
  exact ((Pass.parallel_emit (Context.actionCode_parallel start relocates)).behind
    (MovedCode.held before)).map fun _ _ actions => List.rel_append before actions

theorem functionBlocks_parallel_flat {ds : List Declaration} (flat : routines ds = []) :
    Pass.Parallel k R known known (List.Forall₂ (MovedBlock k R))
      (plan.functionBlocks top around base ds) (plan'.functionBlocks top around' base' ds) := by
  induction ds generalizing base base' with
  | nil => exact Pass.parallel_pure .nil
  | cons d ds ih =>
    cases d with
    | function f ps inner ss => simp [routines] at flat
    | «variable» x e =>
      rw [functionBlocks, functionBlock, functionBlocks, functionBlock]
      refine Pass.Parallel.bind (S := List.Forall₂ (MovedBlock k R)) (Pass.parallel_pure .nil) ?_
      intro first first' moved
      exact ((ih flat).behind (linked_held moved)).map fun _ _ others =>
        List.rel_append moved others

/-- The functions among declarations have related slots under both plans, and each calls
functions up to itself only. -/
def RelocatesAll (R : Nat → Nat → Prop) (plan plan' : Plan) (around around' : Scope)
    (known : List String) (ds : List Declaration) : Prop :=
  ∀ pre f ps inner ss post, ds = pre ++ .function f ps inner ss :: post → routines inner = [] ∧
    Relocates R ((plan.functionScope around f ps (vars inner)).slot? plan.globals)
      ((plan'.functionScope around' f ps (vars inner)).slot? plan'.globals)
      (known ++ (routines (pre ++ [.function f ps inner ss])).map Routine.name)
      (Context.actionOccurrences (vars inner) ss)

theorem epilogue_moved (slots : Nat) : MovedCode k R (epilogue slots) (epilogue slots) := by
  unfold epilogue
  split
  · exact .cons moved_plain .nil
  · exact .cons moved_plain (.cons moved_plain .nil)

theorem functionBlock_parallel {d : Declaration} (at_ : base' = k + base)
    (h : RelocatesAll R plan plan' around around' known [d]) :
    Pass.Parallel k R known (known ++ (routines [d]).map Routine.name)
      (List.Forall₂ (MovedBlock k R)) (plan.functionBlock top around base d)
      (plan'.functionBlock top around' base' d) := by
  cases d with
  | «variable» x e =>
    rw [functionBlock, functionBlock, routines, routines, List.map_nil, List.append_nil]
    exact Pass.parallel_pure .nil
  | function f ps inner ss =>
    obtain ⟨flat, relocates⟩ := h [] f ps inner ss [] rfl
    have waits : HeldCode k R (skip 0 f :: allocations (vars inner))
        (skip 0 f :: allocations (vars inner)) :=
      .cons (.waiting rfl rfl) (allocations_moved _).held
    rw [functionBlock, functionBlock]
    refine (Pass.parallel_enter (by omega)).bind fun _ _ _ => ?_
    refine ((functionBlocks_parallel_flat flat).behind waits).bind fun blocks blocks' inside => ?_
    refine ((bodyCode_parallel (by omega) relocates inside).behind
      (.cons (.waiting rfl rfl) .nil)).map fun body body' moved => ?_
    exact .cons ⟨rfl, List.rel_append moved (epilogue_moved _)⟩ .nil

theorem functionBlocks_parallel {ds : List Declaration} (at_ : base' = k + base)
    (h : RelocatesAll R plan plan' around around' known ds) :
    Pass.Parallel k R known (known ++ (routines ds).map Routine.name)
      (List.Forall₂ (MovedBlock k R)) (plan.functionBlocks top around base ds)
      (plan'.functionBlocks top around' base' ds) := by
  induction ds generalizing base base' known with
  | nil =>
    rw [routines, List.map_nil, List.append_nil]
    exact Pass.parallel_pure .nil
  | cons d ds ih =>
    have names : ∀ es, (routines (d :: es)).map Routine.name =
        (routines [d]).map Routine.name ++ (routines es).map Routine.name := by
      intro es
      rw [← List.singleton_append, Declaration.routines_append, List.map_append]
    have here : RelocatesAll R plan plan' around around' known [d] :=
      fun pre f ps inner ss post hd =>
        h pre f ps inner ss (post ++ ds) (by simpa using congrArg (· ++ ds) hd)
    have further : RelocatesAll R plan plan' around around'
        (known ++ (routines [d]).map Routine.name) ds := by
      intro pre f ps inner ss post hds
      have later := h (d :: pre) f ps inner ss post (congrArg (d :: ·) hds)
      rwa [List.cons_append, names, ← List.append_assoc] at later
    rw [functionBlocks, functionBlocks, names, ← List.append_assoc]
    refine (functionBlock_parallel at_ here).bind fun first first' moved => ?_
    have size := sizeOf_moved moved
    exact ((ih (by omega) further).behind (linked_held moved)).map fun _ _ others =>
      List.rel_append moved others

theorem programCode_parallel {p : Program} (at_ : base' = k + base)
    (functions : RelocatesAll R plan plan' scope scope' [] p.declarations)
    (top : Relocates R (scope.slot? plan.globals) (scope'.slot? plan'.globals)
      (p.routines.map Routine.name) (Context.actionOccurrences p.vars p.statements)) :
    Pass.Parallel k R [] (p.routines.map Routine.name) (MovedCode k R)
      (plan.programCode scope base p) (plan'.programCode scope' base' p) := by
  have start : Moved k R (Instruction.bare .start) (.bare .start) := moved_plain
  unfold programCode
  refine ((functionBlocks_parallel (by omega) functions).behind
    (MovedCode.held (.cons start (allocations_moved _)))).bind fun blocks blocks' moved => ?_
  refine ((bodyCode_parallel (by omega) top moved).behind
    (MovedCode.held (.cons start .nil))).map fun body body' moved => ?_
  exact List.rel_append (.cons start moved) (.cons moved_plain .nil)

end Plan

end Generator

/-! ## Accepted programs -/

section WellScoped

variable {tops ds : List Declaration} {ps : List String} {ss : List Statement} {p : Program}
  {f x : String} {arguments : List Expr} {R : Nat → Nat → Prop}

theorem Declares.name_mem {u : Use} (h : Declaration.Declares ds u) :
    u.1 ∈ (routines ds).map Routine.name := by
  obtain ⟨r, hr, name, -⟩ := h
  exact name ▸ List.mem_map_of_mem hr

theorem actionOccurrences_variable {vs : Variables}
    (h : .variable x ∈ Context.actionOccurrences vs ss) :
    x ∈ vs.names ∨ .variable x ∈ vs.occurrences ++ Statement.occurrencesAll ss := by
  rcases List.mem_append.mp h with declared | used
  · obtain ⟨y, hy, same⟩ := List.mem_map.mp declared
    exact .inl (Occurrence.variable.inj same ▸ hy)
  · exact .inr used

theorem actionOccurrences_call {vs : Variables}
    (h : .call f arguments ∈ Context.actionOccurrences vs ss) :
    .call f arguments ∈ vs.occurrences ++ Statement.occurrencesAll ss := by
  rcases List.mem_append.mp h with declared | used
  · obtain ⟨y, -, other⟩ := List.mem_map.mp declared
    cases other
  · exact used

theorem FunctionScoped.calls (h : FunctionScoped tops ps ds ss)
    (hf : .call f arguments ∈ (vars ds).occurrences ++ Statement.occurrencesAll ss) :
    f ∈ (routines tops).map Routine.name := by
  rcases List.mem_append.mp hf with hf | hf
  · obtain ⟨pre, d, post, -, allowed⟩ := h.initializers.found hf
    exact Declares.name_mem allowed.2
  · exact Declares.name_mem (h.statements _ hf).2

theorem WellScoped.calls (h : WellScoped p)
    (hf : .call f arguments ∈ p.vars.occurrences ++ Statement.occurrencesAll p.statements) :
    f ∈ p.routines.map Routine.name := by
  rcases List.mem_append.mp hf with hf | hf
  · obtain ⟨pre, d, post, hp, allowed⟩ := h.initializers.found hf
    have whole : Declaration.Declares p.declarations (f, arguments.length) := by
      rw [hp, List.append_cons]
      exact allowed.2.append
    exact Declares.name_mem whole
  · exact Declares.name_mem (h.statements _ hf).2

open Generator

/-- The actions of an accepted program, if its variables have related slots. -/
theorem WellScoped.relocates (h : WellScoped p) {slot? slot?' : String → Option Nat}
    (slots : ∀ x ∈ p.vars.names, Option.Rel R (slot? x) (slot?' x)) :
    Plan.Relocates R slot? slot?' (p.routines.map Routine.name)
      (Context.actionOccurrences p.vars p.statements) := by
  refine ⟨fun x hx => slots x ?_, fun f arguments hf => h.calls (actionOccurrences_call hf)⟩
  exact (actionOccurrences_variable hx).elim id h.found

/-- The functions of an accepted program, if their names have related slots. -/
theorem WellScoped.relocatesAll (h : WellScoped p) {plan plan' : Plan} {around around' : Scope}
    (slots : ∀ r ∈ p.routines, ∀ x, x ∈ r.names ∨ x ∈ p.vars.names → Option.Rel R
      ((plan.functionScope around r.name r.parameters r.vars).slot? plan.globals x)
      ((plan'.functionScope around' r.name r.parameters r.vars).slot? plan'.globals x)) :
    Plan.RelocatesAll R plan plan' around around' [] p.declarations := by
  intro pre f ps inner ss post hp
  have inside := h.functions pre f ps inner ss post hp
  have related := slots _ (Declaration.mem_routines hp)
  refine ⟨inside.flat, fun x hx => related x ?_, fun g arguments hg => ?_⟩
  · rcases actionOccurrences_variable hx with own | used
    · exact .inl (List.mem_append_right _ own)
    · exact (inside.found used).imp_right (Declaration.mem_vars_split hp)
  · rw [List.nil_append]
    exact inside.calls (actionOccurrences_call hg)

end WellScoped

end FlatStack
