import FlatStack.Code.Emission
import FlatStack.Proofs.Exact

/-!
# Segments of code

`b.Holds base code` says that `code` stands in `b` from the address `base` on,
and `Along P base xs` that each part of `xs` has a property where it stands.
The emission of each part of a program is taken apart once, into the code of
its own parts and the addresses these begin at.
-/

set_option autoImplicit false

namespace FlatStack

/-- `part` stands in `whole` from the position `n` on. -/
def Stands {α : Type} (whole : List α) (n : Nat) (part : List α) : Prop := part <+: whole.drop n

section Stands

variable {α : Type} {whole part rest : List α} {n : Nat} {x : α}

theorem stands_append :
    Stands whole n (part ++ rest) ↔ Stands whole n part ∧ Stands whole (n + part.length) rest := by
  unfold Stands
  rw [← List.drop_drop]
  constructor
  · rintro ⟨others, h⟩
    rw [← h, List.append_assoc]
    exact ⟨⟨_, rfl⟩, by simp⟩
  · rintro ⟨⟨others, h⟩, tail⟩
    rw [← h, List.drop_left] at tail
    obtain ⟨more, rfl⟩ := tail
    exact ⟨more, by rw [← h, List.append_assoc]⟩

theorem Stands.head (h : Stands whole n (x :: part)) : whole[n]? = some x := by
  obtain ⟨others, h⟩ := h
  have := congrArg (·[0]?) h
  simpa using this.symm

theorem stands_cons :
    Stands whole n (x :: part) ↔ whole[n]? = some x ∧ Stands whole (n + 1) part := by
  constructor
  · intro h
    rw [← List.singleton_append] at h
    exact ⟨h.head, (stands_append.mp h).2⟩
  · rintro ⟨found, h⟩
    rw [← List.singleton_append]
    refine stands_append.mpr ⟨?_, h⟩
    obtain ⟨bound, rfl⟩ := List.getElem?_eq_some_iff.mp found
    exact ⟨whole.drop (n + 1), (List.drop_eq_getElem_cons bound).symm⟩

theorem Stands.get {k : Nat} (h : Stands whole n part) (hk : part[k]? = some x) :
    whole[n + k]? = some x := by
  obtain ⟨others, h⟩ := h
  have bound := (List.getElem?_eq_some_iff.mp hk).1
  rw [← List.getElem?_drop, ← h, List.getElem?_append_left bound, hk]

theorem Stands.length_le (h : Stands whole n part) (hp : part ≠ []) :
    n + part.length ≤ whole.length := by
  have most := List.IsPrefix.length_le h
  have least : 0 < part.length := List.length_pos_of_ne_nil hp
  rw [List.length_drop] at most
  omega

theorem stands_all : Stands whole 0 whole := List.prefix_rfl

end Stands

section Along

variable {α : Type} {P Q : Nat → α → Prop} {base n : Nat} {x : α} {xs ys : List α}

/-- A property of all that stands in a row from `base` on, and of its position. -/
def Along (P : Nat → α → Prop) (base : Nat) (xs : List α) : Prop :=
  ∀ k x, xs[k]? = some x → P (base + k) x

theorem along_nil : Along P base [] := by simp [Along]

theorem along_cons : Along P base (x :: xs) ↔ P base x ∧ Along P (base + 1) xs := by
  constructor
  · intro h
    refine ⟨h 0 x rfl, fun k y hy => ?_⟩
    rw [Nat.add_right_comm]
    exact h (k + 1) y hy
  · rintro ⟨h, hs⟩ k y hy
    cases k with
    | zero =>
      obtain rfl : x = y := by simpa using hy
      exact h
    | succ k =>
      rw [Nat.add_comm k, ← Nat.add_assoc]
      exact hs k y hy

theorem along_one (h : P base x) : Along P base [x] := along_cons.mpr ⟨h, along_nil⟩

theorem along_append :
    Along P base (xs ++ ys) ↔ Along P base xs ∧ Along P (base + xs.length) ys := by
  induction xs generalizing base with
  | nil => simp [along_nil]
  | cons x xs ih =>
    rw [List.cons_append, along_cons, along_cons, ih, List.length_cons, and_assoc,
      Nat.add_right_comm, Nat.add_assoc base]

theorem along_replicate (h : ∀ k < n, P (base + k) x) : Along P base (List.replicate n x) := by
  intro k y hy
  rw [List.getElem?_replicate] at hy
  split at hy
  · rename_i bound
    rw [← Option.some.inj hy]
    exact h k bound
  · simp at hy

theorem Along.imp (h : Along P base xs)
    (imp : ∀ k x, k < xs.length → P (base + k) x → Q (base + k) x) : Along Q base xs :=
  fun k x hk => imp k x (List.getElem?_eq_some_iff.mp hk).1 (h k x hk)

end Along

namespace Bytecode

def Holds (b : Bytecode) (base : Nat) (code : List Instruction) : Prop :=
  Stands b.instructions.toList base code

variable {b : Bytecode} {base : Nat} {i : Instruction} {code rest : List Instruction}

theorem holds_append :
    b.Holds base (code ++ rest) ↔ b.Holds base code ∧ b.Holds (base + code.length) rest :=
  stands_append

theorem holds_cons :
    b.Holds base (i :: code) ↔ b.instructions[base]? = some i ∧ b.Holds (base + 1) code := by
  rw [← Array.getElem?_toList]
  exact stands_cons

theorem Holds.fetch (h : b.Holds base (i :: code)) : b.instructions[base]? = some i :=
  (holds_cons.mp h).1

theorem Holds.get {k : Nat} (h : b.Holds base code) (hk : code[k]? = some i) :
    b.instructions[base + k]? = some i := by
  rw [← Array.getElem?_toList]
  exact Stands.get h hk

theorem Holds.length_le (h : b.Holds base code) (hc : code ≠ []) :
    base + code.length ≤ b.size := by
  have := Stands.length_le h hc
  rwa [Array.length_toList] at this

theorem holds_all {is : List Instruction} (h : b = ofList is) : b.Holds 0 is := by
  rw [h]
  exact stands_all

end Bytecode

/-! ## Emissions taken apart -/

namespace Emission

theorem bind_ok {ε α β : Type} (x : Except ε α) (f : α → Except ε β) (y : β) :
    (x >>= f) = .ok y ↔ ∃ a, x = .ok a ∧ f a = .ok y := by
  cases x <;> simp [Bind.bind, Except.bind]

theorem behind_ok {α : Type} (before : List Instruction) (e : Except Abandoned α) (a : α) :
    behind before e = .ok a ↔ e = .ok a := by
  cases e <;> simp [behind, Except.mapError]

theorem pure_ok {ε α : Type} (a b : α) : (pure a : Except ε α) = .ok b ↔ a = b := by
  simp [pure, Except.pure]

theorem stop_ok {α : Type} (cause : EmissionError) (a : α) : ¬ stop cause = .ok a := by
  simp [stop]

end Emission

namespace Context

open Emission

variable {c : Context} {base : Nat} {code : List Instruction}

theorem slot_ok {name : String} {s : Nat} :
    c.slot name = .ok s ↔ c.scope.slot? c.globals name = some s := by
  unfold slot
  split <;> simp_all [stop]

/-- Arguments are variables, and each is passed from its slot. -/
theorem parameterCode_ok {callee : String} {arguments : List Expr} :
    c.parameterCode callee arguments = .ok code ↔ ∃ names slots,
      arguments = names.map .var ∧
        List.Forall₂ (fun name slot => c.scope.slot? c.globals name = some slot) names slots ∧
          code = slots.map (.withNat .pushParameter) := by
  constructor
  · intro h
    induction arguments generalizing code with
    | nil =>
      obtain rfl := (pure_ok _ _).mp h
      exact ⟨[], [], rfl, .nil, rfl⟩
    | cons e arguments ih =>
      cases e with
      | var name =>
        simp only [parameterCode, bind_ok, behind_ok, pure_ok, slot_ok] at h
        obtain ⟨slot, hs, others, ho, rfl⟩ := h
        obtain ⟨names, slots, rfl, hns, rfl⟩ := ih ho
        exact ⟨name :: names, slot :: slots, rfl, .cons hs hns, rfl⟩
      | _ => exact absurd h (stop_ok _ _)
  · rintro ⟨names, slots, rfl, hns, rfl⟩
    induction hns with
    | nil => rfl
    | cons hs _ ih =>
      simp only [List.map_cons, parameterCode, bind_ok, behind_ok, pure_ok, slot_ok]
      exact ⟨_, hs, _, ih, rfl⟩

theorem callCode_ok {callee : String} {arguments : List Expr} :
    c.callCode base callee arguments = .ok code ↔
      ∃ parameters, c.parameterCode callee arguments = .ok parameters ∧
        .withNat .pushReturn (base + parameters.length + 2) :: parameters
          ++ [.withNat .call (c.entry callee)] = code := by
  simp only [callCode, bind_ok, behind_ok, pure_ok]

theorem exprCode_var {name : String} :
    c.exprCode base (.var name) = .ok code ↔
      ∃ slot, c.scope.slot? c.globals name = some slot ∧ [.withNat .load slot] = code := by
  simp only [exprCode, bind_ok, pure_ok, slot_ok]

theorem exprCode_unary {op : UnaryOp} {e : Expr} :
    c.exprCode base (.unary op e) = .ok code ↔
      ∃ operand, c.exprCode base e = .ok operand ∧ operand ++ [.bare (.unary op)] = code := by
  simp only [exprCode, bind_ok, pure_ok]

theorem exprCode_binary {op : BinaryOp} {l r : Expr} :
    c.exprCode base (.binary op l r) = .ok code ↔
      ∃ left, c.exprCode base l = .ok left ∧
      ∃ right, c.exprCode (base + left.length) r = .ok right ∧
        left ++ right ++ [.bare (.binary op)] = code := by
  simp only [exprCode, bind_ok, behind_ok, pure_ok]

theorem exprCode_call {callee : String} {arguments : List Expr} :
    c.exprCode base (.call callee arguments) = .ok code ↔
      ∃ call, c.callCode base callee arguments = .ok call ∧
        call ++ [.withNat .const 0] = code := by
  simp only [exprCode, bind_ok, pure_ok]

theorem valueCode_read {name : String} :
    c.valueCode base name .read = .ok [(Instruction.bare .read).commented name] := rfl

theorem valueCode_other {name : String} {e : Expr} (h : e ≠ .read) :
    c.valueCode base name e = c.exprCode base e := by
  cases e with
  | read => exact absurd rfl h
  | _ => rfl

theorem assignmentCode_ok {name : String} {e : Expr} :
    c.assignmentCode base name e = .ok code ↔
      ∃ value, c.valueCode base name e = .ok value ∧
      ∃ slot, c.scope.slot? c.globals name = some slot ∧
        value ++ [.withNat .store slot] = code := by
  simp only [assignmentCode, bind_ok, behind_ok, pure_ok, slot_ok]

theorem statementCode_echo {e : Expr} :
    c.statementCode base (.echo e) = .ok code ↔
      ∃ value, c.exprCode base e = .ok value ∧ value ++ [.bare .print] = code := by
  simp only [statementCode, bind_ok, pure_ok]

theorem statementCode_ifThen {e : Expr} {body : List Statement} :
    c.statementCode base (.ifThen e body) = .ok code ↔
      ∃ condition, c.exprCode base e = .ok condition ∧
      ∃ inner, c.statementsCode (base + condition.length + 1) body = .ok inner ∧
        condition ++ .withNat .jumpIfZero (base + condition.length + 1 + inner.length) :: inner
          = code := by
  simp only [statementCode, bind_ok, behind_ok, pure_ok]

theorem statementCode_ifElse {e : Expr} {body otherwise : List Statement} :
    c.statementCode base (.ifElse e body otherwise) = .ok code ↔
      ∃ condition, c.exprCode base e = .ok condition ∧
      ∃ inner, c.statementsCode (base + condition.length + 1) body = .ok inner ∧
      ∃ other, c.statementsCode (base + condition.length + 1 + inner.length + 1) otherwise
          = .ok other ∧
        condition ++ .withNat .jumpIfZero (base + condition.length + 1 + inner.length + 1) :: inner
          ++ .withNat .jump (base + condition.length + 1 + inner.length + 1 + other.length) :: other
          = code := by
  simp only [statementCode, bind_ok, behind_ok, pure_ok]

theorem statementCode_loop {e : Expr} {body : List Statement} :
    c.statementCode base (.loop e body) = .ok code ↔
      ∃ condition, c.exprCode base e = .ok condition ∧
      ∃ inner, c.statementsCode (base + condition.length + 1) body = .ok inner ∧
        condition ++ .withNat .jumpIfZero (base + condition.length + 1 + inner.length + 1) :: inner
          ++ [.withNat .jump base] = code := by
  simp only [statementCode, bind_ok, behind_ok, pure_ok]

theorem statementsCode_cons {s : Statement} {ss : List Statement} :
    c.statementsCode base (s :: ss) = .ok code ↔
      ∃ first, c.statementCode base s = .ok first ∧
      ∃ others, c.statementsCode (base + first.length) ss = .ok others ∧
        first ++ others = code := by
  simp only [statementsCode, bind_ok, behind_ok, pure_ok]

theorem initializersCode_none {name : String} {vars : Variables} :
    c.initializersCode base ((name, none) :: vars) = c.initializersCode base vars := by
  rw [initializersCode]

theorem initializersCode_zero {name : String} {e : Expr} {vars : Variables} (h : isZero e) :
    c.initializersCode base ((name, some e) :: vars) = c.initializersCode base vars := by
  rw [initializersCode, if_pos h]

theorem initializersCode_some {name : String} {e : Expr} {vars : Variables} (h : ¬ isZero e) :
    c.initializersCode base ((name, some e) :: vars) = .ok code ↔
      ∃ first, c.assignmentCode base name e = .ok first ∧
      ∃ others, c.initializersCode (base + first.length) vars = .ok others ∧
        first ++ others = code := by
  rw [initializersCode, if_neg h]
  simp only [bind_ok, behind_ok, pure_ok]

theorem actionCode_ok {vars : Variables} {statements : List Statement} :
    c.actionCode base vars statements = .ok code ↔
      ∃ first, c.initializersCode base vars = .ok first ∧
      ∃ others, c.statementsCode (base + first.length) statements = .ok others ∧
        first ++ others = code := by
  simp only [actionCode, bind_ok, behind_ok, pure_ok]

end Context

end FlatStack
