import FlatStack.Proofs.CodeSimulation
import FlatStack.Proofs.Occurrences

/-!
# Truth values

A comparison leaves one or zero. The connectives take exactly one for true, a
negation subtracts from one, and a jump looks for zero. On these two numbers
they all agree, so a condition that is made of comparisons has the truth value
that logic gives it. That holds on every machine that has the variables of the
condition on its stack, however it came to be in that state.
-/

set_option autoImplicit false

namespace FlatStack

open Machine Evaluation Stateful

/-! ## Numbers for truth values -/

theorem not_ofTruth (t : Bool) : UnaryOp.not.apply (ofTruth t) = ofTruth (!t) := by
  cases t <;> rfl

theorem isTrue_ofTruth (t : Bool) : isTrue (ofTruth t) = t := by
  cases t <;> rfl

/-- What a jump takes for false. -/
theorem ofTruth_eq_zero (t : Bool) : (ofTruth t == 0) = !t := by
  cases t <;> rfl

/-! ## Formulas -/

/-- Comparisons of any expressions, put together by logical operators. -/
inductive Formula where
  | comparison (relation : Relation) (left right : Expr)
  | not (f : Formula)
  | and (f g : Formula)
  | or (f g : Formula)

namespace Formula

/-- The condition that stands for a formula in a program. -/
def expr : Formula → Expr
  | .comparison r left right => .binary (.compare r) left right
  | .not f => .unary .not f.expr
  | .and f g => .binary .and f.expr g.expr
  | .or f g => .binary .or f.expr g.expr

variable {own : List String} {call : Calling}

/-- The truth value of a formula. All of its comparisons are made, from left to right. -/
def truth (own : List String) (call : Calling) : Formula → Evaluation Bool
  | .comparison r left right => do
    let a ← left.evaluate own call
    let b ← right.evaluate own call
    pure (r.holds a b)
  | .not f => do pure (!(← f.truth own call))
  | .and f g => do
    let p ← f.truth own call
    let q ← g.truth own call
    pure (p && q)
  | .or f g => do
    let p ← f.truth own call
    let q ← g.truth own call
    pure (p || q)

/-- As an expression, a formula has the number of its truth value. -/
theorem evaluate_expr (f : Formula) :
    f.expr.evaluate own call = ofTruth <$> f.truth own call := by
  induction f with
  | comparison r left right =>
    simp [expr, truth, Expr.evaluate, BinaryOp.apply]
  | not f ih =>
    simp [expr, truth, Expr.evaluate, ih, not_ofTruth]
  | and f g ihf ihg =>
    simp [expr, truth, Expr.evaluate, ihf, ihg, BinaryOp.apply, isTrue_ofTruth]
  | or f g ihf ihg =>
    simp [expr, truth, Expr.evaluate, ihf, ihg, BinaryOp.apply, isTrue_ofTruth]

end Formula

/-! ## Evaluations that end -/

namespace Evaluation

variable {α β : Type}

/-- The evaluation has a result or faults. -/
def Ends (x : Evaluation α) : Prop := ∀ s s', x s ≠ .error .unfinished s'

variable {x : Evaluation α} {f : α → Evaluation β}

theorem ends_pure (a : α) : Ends (pure a) := by
  intro s s' h
  cases h

theorem ends_fault (kind : FaultKind) : Ends (throw (.fault kind) : Evaluation α) := by
  intro s s' h
  cases h

theorem Ends.bind (hx : Ends x) (hf : ∀ a, Ends (f a)) : Ends (x >>= f) := by
  intro s s' h
  rw [bind_apply] at h
  cases hr : x s with
  | ok a t =>
    rw [hr] at h
    exact hf a t s' h
  | error e t =>
    rw [hr] at h
    obtain ⟨rfl, rfl⟩ := EStateM.Result.error.inj h
    exact hx s t hr

theorem ends_ask (name : Option String) : Ends (ask name) := by
  have said : Ends (say (prompt name)) := by
    intro s s' h
    unfold say at h
    split at h <;> cases h
  refine said.bind fun _ s s' h => ?_
  unfold hear at h
  split at h <;> cases h

end Evaluation

/-- Only calls go on for ever. -/
theorem Expr.ends_evaluate {own : List String} {call : Calling} :
    ∀ (e : Expr), e.calls = [] → Ends (e.evaluate own call)
  | .number n, _ => ends_pure n
  | .var x, _ => fun _ _ h => nomatch h
  | .read, _ => ends_ask none
  | .unary op e, h => (e.ends_evaluate h).bind fun _ => ends_pure _
  | .binary op l r, h => by
    obtain ⟨hl, hr⟩ := List.append_eq_nil_iff.mp h
    refine (l.ends_evaluate hl).bind fun a => (r.ends_evaluate hr).bind fun b => ?_
    split
    · exact ends_fault _
    · exact ends_pure _
  | .call .., h => by simp [Expr.calls] at h

/-! ## Expressions on any machine -/

namespace Setting

/-- Nothing on the stack is known by name: all of it counts as values at work. -/
def unnamed (returns : List Nat) : Setting := ⟨[], [], returns⟩

variable {b : Bytecode} {returns : List Nat} {pc a : Nat} {s : Situation} {ts : List Float}
  {v : Float} {m : Machine}

/-- Every running machine is of this kind. -/
theorem machine_unnamed (running : m.halted = false) (pc : Nat) (s : Situation)
    (ts : List Float) : (unnamed m.returns).machine pc s (m.stack.toList ++ ts)
      = { m with stack := m.stack ++ ts.toArray, pc, console := s.console } := by
  simp [unnamed, machine, frame, running]

theorem advances_slot (h : b.instructions[pc]? = some (.withNat .load a)) (exact : a < 2 ^ 53)
    (found : ts[a]? = some v) :
    Advances b ((unnamed returns).machine pc s ts)
      ((unnamed returns).machine (pc + 1) s (ts ++ [v])) := by
  have value : ((unnamed returns).machine pc s ts).slot a = v := by
    simp [unnamed, machine, frame, Machine.slot, found]
  refine ⟨rfl, _, h, ?_⟩
  simp only [Machine.step, Instruction.opcode_withNat, address_withNat exact, value, push_machine,
    advance_machine]

end Setting

namespace Context

/-- The values that a body finds in the slots of its names. -/
def situation (c : Context) (m : Machine) : Situation where
  globals x := m.slot ((c.scope.slot? c.globals x).getD 0)
  locals _ := 0
  console := m.console

/-- What an expression reads is on the stack, at addresses that are exact. -/
def InRange (c : Context) (m : Machine) (e : Expr) : Prop :=
  ∀ x a, .variable x ∈ e.occurrences → c.scope.slot? c.globals x = some a →
    a < m.stack.size ∧ a < 2 ^ 53

/-- The values of the names of an expression are in their slots. -/
def Finds (c : Context) (e : Expr) (s : Situation) (ts : List Float) : Prop :=
  ∀ x a, .variable x ∈ e.occurrences → c.scope.slot? c.globals x = some a →
    ts[a]? = some (s.globals x) ∧ a < 2 ^ 53

variable {c : Context} {m : Machine} {e : Expr} {s s' : Situation} {ts : List Float}

theorem InRange.finds (h : c.InRange m e) : c.Finds e (c.situation m) m.stack.toList := by
  intro x a occurs hs
  obtain ⟨bound, exact⟩ := h x a occurs hs
  refine ⟨?_, exact⟩
  simp [situation, hs, Machine.slot, bound]

/-- Values at work lie above the slots. -/
theorem Finds.push (h : c.Finds e s ts) (v : Float) : c.Finds e s (ts ++ [v]) := by
  intro x a occurs hs
  obtain ⟨found, exact⟩ := h x a occurs hs
  refine ⟨?_, exact⟩
  rw [List.getElem?_append_left (List.getElem?_eq_some_iff.mp found).1, found]

end Context

section Operands

open Setting (unnamed)

variable {b : Bytecode} {c : Context} {call : Calling} {n : Nat} {returns : List Nat}

theorem Expr.globals_evaluate {e : Expr} {s s' : Situation} {v : Float} (h : e.calls = [])
    (hv : e.evaluate [] call s = .ok v s') : s'.globals = s.globals := by
  have kept : Keeps Situation.globals (e.evaluate [] call) :=
    e.keeps_evaluate (fun _ _ => rfl) (e.direct_of_no_calls h) (by simp [h])
  exact kept _ _ _ hv

theorem simulates_unnamed : ∀ (e : Expr) {base : Nat} {code : List Instruction} {s : Situation}
    {ts : List Float}, c.exprCode base e = .ok code → b.Holds base code → e.calls = [] →
      c.Finds e s ts → Simulates b n ((unnamed returns).machine base s ts)
        (fun v s' => (unnamed returns).machine (base + code.length) s' (ts ++ [v]))
        (e.evaluate [] call s)
  | .number v, base, code, s, ts, h, hb, _, _ => by
    obtain rfl := (Emission.pure_ok _ _).mp h
    exact Simulates.of_advances (Setting.advances_const hb.fetch)
  | .var x, base, code, s, ts, h, hb, _, hf => by
    obtain ⟨a, hs, rfl⟩ := Context.exprCode_var.mp h
    obtain ⟨found, exact⟩ := hf x a (by simp [Expr.occurrences]) hs
    exact Simulates.of_advances (Setting.advances_slot hb.fetch exact found)
  | .read, base, code, s, ts, h, hb, _, _ => by
    obtain rfl := (Emission.pure_ok _ _).mp h
    exact Setting.simulates_read hb.fetch rfl
  | .unary op e, base, code, s, ts, h, hb, hc, hf => by
    obtain ⟨operand, he, rfl⟩ := Context.exprCode_unary.mp h
    obtain ⟨ho, hi⟩ := Bytecode.holds_append.mp hb
    apply (simulates_unnamed e he ho hc hf).bind
    intro v s' _
    rw [List.length_append, ← Nat.add_assoc]
    exact Simulates.of_advances (Setting.advances_unary hi.fetch)
  | .binary op l r, base, code, s, ts, h, hb, hc, hf => by
    obtain ⟨left, hleft, right, hright, rfl⟩ := Context.exprCode_binary.mp h
    obtain ⟨hlr, hi⟩ := Bytecode.holds_append.mp hb
    obtain ⟨hbl, hbr⟩ := Bytecode.holds_append.mp hlr
    obtain ⟨hcl, hcr⟩ := List.append_eq_nil_iff.mp hc
    apply (simulates_unnamed l hleft hbl hcl
      fun x a occurs => hf x a (List.mem_append_left _ occurs)).bind
    intro v s' first
    -- The value of the left operand waits above the slots that the right one reads.
    have found : c.Finds r s' ts := fun x a occurs =>
      Expr.globals_evaluate hcl first ▸ hf x a (List.mem_append_right _ occurs)
    apply (simulates_unnamed r hright hbr hcr (found.push v)).bind
    intro w s'' _
    rw [List.length_append, ← Nat.add_assoc] at hi ⊢
    rw [List.length_append, ← Nat.add_assoc]
    exact Setting.simulates_binary hi.fetch
  | .call .., _, _, _, _, _, _, hc, _ => by simp [Expr.calls] at hc

end Operands

/-! ## Branches -/

namespace Statement

/-- The condition of a statement that branches, and the two ways it may go. -/
def branches? : Statement → Option (Expr × List Statement × List Statement)
  | .ifThen e body | .loop e body => some (e, body, [])
  | .ifElse e body otherwise => some (e, body, otherwise)
  | .echo _ | .assign .. | .call .. => none

end Statement

/-- The code of `body` stands at `yes`, and at `no` that of `otherwise`, which ends at `after`. -/
structure Forks (b : Bytecode) (c : Context) (body otherwise : List Statement)
    (yes no after : Nat) : Prop where
  body : ∃ inner, c.statementsCode yes body = .ok inner ∧ b.Holds yes inner
  otherwise : ∃ other, c.statementsCode no otherwise = .ok other ∧ b.Holds no other ∧
    no + other.length = after
  inside : after ≤ b.size

/-- Code that branches is that of its condition and a jump. -/
theorem Context.branchCode {b : Bytecode} {c : Context} {t : Statement} {e : Expr}
    {body otherwise : List Statement} {base : Nat} {code : List Instruction}
    (branch : t.branches? = some (e, body, otherwise)) (h : c.statementCode base t = .ok code)
    (hb : b.Holds base code) : ∃ condition no, c.exprCode base e = .ok condition ∧
      b.Holds base condition ∧
      b.instructions[base + condition.length]? = some (.withNat .jumpIfZero no) ∧
      Forks b c body otherwise (base + condition.length + 1) no (base + code.length) := by
  have most := hb.length_le
  cases t with
  | echo | assign | call => cases branch
  | ifThen e body =>
    cases branch
    obtain ⟨condition, he, inner, hi, rfl⟩ := statementCode_ifThen.mp h
    replace most := most (by simp)
    obtain ⟨hbc, hbi⟩ := Bytecode.holds_append.mp hb
    obtain ⟨jump, hbi⟩ := Bytecode.holds_cons.mp hbi
    refine ⟨condition, _, he, hbc, jump, ⟨inner, hi, hbi⟩, ⟨[], rfl, List.nil_prefix, ?_⟩, most⟩
    simp only [List.length_append, List.length_cons, List.length_nil]
    omega
  | loop e body =>
    cases branch
    obtain ⟨condition, he, inner, hi, rfl⟩ := statementCode_loop.mp h
    replace most := most (by simp)
    rw [List.append_assoc] at hb
    obtain ⟨hbc, hbi⟩ := Bytecode.holds_append.mp hb
    obtain ⟨jump, hbi⟩ := Bytecode.holds_cons.mp hbi
    obtain ⟨hbi, -⟩ := Bytecode.holds_append.mp hbi
    refine ⟨condition, _, he, hbc, jump, ⟨inner, hi, hbi⟩, ⟨[], rfl, List.nil_prefix, ?_⟩, most⟩
    simp only [List.length_append, List.length_cons, List.length_nil]
    omega
  | ifElse e body otherwise =>
    cases branch
    obtain ⟨condition, he, inner, hi, other, ho, rfl⟩ := statementCode_ifElse.mp h
    replace most := most (by simp)
    rw [List.append_assoc] at hb
    obtain ⟨hbc, hbi⟩ := Bytecode.holds_append.mp hb
    obtain ⟨jump, hbi⟩ := Bytecode.holds_cons.mp hbi
    obtain ⟨hbi, hbo⟩ := Bytecode.holds_append.mp hbi
    refine ⟨condition, _, he, hbc, jump, ⟨inner, hi, hbi⟩,
      ⟨other, ho, (Bytecode.holds_cons.mp hbo).2, ?_⟩, most⟩
    simp only [List.length_append, List.length_cons]
    omega

/-! ## Where conditions lead -/

/-- A run from `m` comes to the machine that holds the result, or it ends in the fault that the
evaluation stops at. -/
def Leads {α : Type} (b : Bytecode) (m : Machine) (target : α → Situation → Machine) :
    EStateM.Result Stop Situation α → Prop
  | .ok a s => ∃ k, Runs b k m (target a s)
  | .error stop s => ∃ k m' f m'',
      Runs b k m m' ∧ Faults b m' f m'' ∧ stop = .fault f.kind ∧ m''.console = s.console

section Leads

variable {b : Bytecode} {c : Context} {call : Calling} {n : Nat} {m : Machine} {f : Formula}
  {α β : Type}

theorem Simulates.leads {x : Evaluation α} {s : Situation} {target : α → Situation → Machine}
    (h : Simulates b n m target (x s)) (ends : Ends x) : Leads b m target (x s) := by
  match hr : x s with
  | .ok a s' =>
    rw [hr] at h
    exact h
  | .error (.fault kind) s' =>
    rw [hr] at h
    obtain ⟨k, m', f, m'', runs, faults, rfl, hc⟩ := h
    exact ⟨k, m', f, m'', runs, faults, rfl, hc⟩
  | .error .unfinished s' => exact absurd hr (ends s s')

theorem Leads.onward {r : EStateM.Result Stop Situation α}
    {target after : α → Situation → Machine} (h : Leads b m target r)
    (more : ∀ a s, Advances b (target a s) (after a s)) : Leads b m after r := by
  match r with
  | .ok a s =>
    obtain ⟨k, runs⟩ := h
    exact ⟨k + 1, runs.trans (.single (more a s))⟩
  | .error _ _ => exact h

theorem Leads.of_map {x : Evaluation α} {g : α → β} {s : Situation}
    {target : β → Situation → Machine} (h : Leads b m target ((g <$> x) s)) :
    Leads b m (fun a s' => target (g a) s') (x s) := by
  rw [map_eq_pure_bind, bind_apply] at h
  cases hr : x s with
  | ok a s' =>
    rw [hr] at h
    exact h
  | error e s' =>
    rw [hr] at h
    exact h

variable (running : m.halted = false) (calls : f.expr.calls = []) (inRange : c.InRange m f.expr)

include running calls inRange

/-- The code of a formula leaves the number of its truth value. -/
theorem leads_formula {code : List Instruction} (h : c.exprCode m.pc f.expr = .ok code)
    (hb : b.Holds m.pc code) :
    Leads b m
      (fun t s => { m with
        stack := m.stack.push (ofTruth t), pc := m.pc + code.length, console := s.console })
      (f.truth [] call (c.situation m)) := by
  have same : (Setting.unnamed m.returns).machine m.pc (c.situation m) m.stack.toList = m := by
    simpa [Context.situation] using Setting.machine_unnamed running m.pc (c.situation m) []
  -- Without calls no evaluation is unfinished, so it does not matter how many steps are asked for.
  have simulated : Simulates b 0
      ((Setting.unnamed m.returns).machine m.pc (c.situation m) m.stack.toList) _
      (f.expr.evaluate [] call (c.situation m)) :=
    simulates_unnamed f.expr h hb calls inRange.finds
  have valued := simulated.leads (f.expr.ends_evaluate calls)
  rw [same] at valued
  simp only [Setting.machine_unnamed running, f.evaluate_expr] at valued
  simpa using valued.of_map

/-- A jump behind it takes the number off again. -/
theorem leads_branch {code : List Instruction} {no : Nat}
    (h : c.exprCode m.pc f.expr = .ok code) (hb : b.Holds m.pc code)
    (jump : b.instructions[m.pc + code.length]? = some (.withNat .jumpIfZero no))
    (exact : no < 2 ^ 53) :
    Leads b m
      (fun t s => { m with pc := if t then m.pc + code.length + 1 else no, console := s.console })
      (f.truth [] call (c.situation m)) := by
  apply (leads_formula running calls inRange h hb).onward
  intro t s
  refine ⟨running, _, jump, ?_⟩
  cases t <;> simp [Machine.step, top, pop, goto, advance, address_withNat exact, ofTruth_eq_zero]

end Leads

/-- The code of a condition that is made of comparisons leaves the stack as it was, with one or
zero on top for its truth value, and a statement goes on by that truth value, with the stack as it
was. -/
theorem conditions_branch_classically {b : Bytecode} {c : Context} {m : Machine} {f : Formula}
    (call : Calling) (running : m.halted = false) (calls : f.expr.calls = [])
    (inRange : c.InRange m f.expr) :
    (∀ code, c.exprCode m.pc f.expr = .ok code → b.Holds m.pc code →
      Leads b m
        (fun t s => { m with
          stack := m.stack.push (if t then 1.0 else 0.0)
          pc := m.pc + code.length
          console := s.console })
        (f.truth [] call (c.situation m))) ∧
    (∀ t body otherwise code, t.branches? = some (f.expr, body, otherwise) →
      c.statementCode m.pc t = .ok code → b.Holds m.pc code → b.size < 2 ^ 53 →
        ∃ condition no, c.exprCode m.pc f.expr = .ok condition ∧
          Forks b c body otherwise (m.pc + condition.length + 1) no (m.pc + code.length) ∧
          Leads b m
            (fun t s => { m with
              pc := if t then m.pc + condition.length + 1 else no
              console := s.console })
            (f.truth [] call (c.situation m))) := by
  refine ⟨fun code h hb => leads_formula running calls inRange h hb,
    fun t body otherwise code branch h hb small => ?_⟩
  obtain ⟨condition, no, he, hbc, jump, forks⟩ := Context.branchCode branch h hb
  have most := forks.inside
  obtain ⟨_, -, -, ends⟩ := forks.otherwise
  exact ⟨condition, no, he, forks,
    leads_branch running calls inRange he hbc jump (by omega)⟩

/-- The formula `($a > 1 || $a == 0) && !($a > 5)`. -/
def betweenOneAndFive : Formula :=
  .and (.or (.comparison .gt (.var "$a") (.number 1)) (.comparison .eq (.var "$a") (.number 0)))
    (.not (.comparison .gt (.var "$a") (.number 5)))

/-- One variable at top level. -/
def oneVariable : Context :=
  ⟨.ofTable ((Table.empty globalScope).register
    { name := "$a", meaning := .variable globalScope 0 }), 1, []⟩

/-- The code of a loop that adds one to a variable. -/
def countingLoop : List Instruction :=
  [.withNat .load 0, .withNumber .const 1, .bare (.binary (.compare .gt)),
    .withNat .load 0, .withNumber .const 0, .bare (.binary (.compare .eq)),
    .bare (.binary .or),
    .withNat .load 0, .withNumber .const 5, .bare (.binary (.compare .gt)), .bare (.unary .not),
    .bare (.binary .and), .withNat .jumpIfZero 18,
    .withNat .load 0, .withNumber .const 1, .bare (.binary .add), .withNat .store 0,
    .withNat .jump 0]

theorem conditions_branch_classically_countingLoop :
    let m : Machine := { stack := #[2], console := ⟨[], [], none⟩ }
    let b : Bytecode := .ofList countingLoop
    let body : List Statement := [.assign "$a" (.binary .add (.var "$a") (.number 1))]
    (∃ k, Runs b k m { m with stack := #[2, 1], pc := 12 }) ∧
      ∃ no, Forks b oneVariable body [] 13 no 18 ∧ ∃ k, Runs b k m { m with pc := 13 } := by
  intro m b body
  have inRange : oneVariable.InRange m betweenOneAndFive.expr := by
    intro x a occurs hs
    obtain rfl : x = "$a" := by
      simpa [betweenOneAndFive, Formula.expr, Expr.occurrences] using occurs
    obtain rfl := Option.some.inj (hs.symm.trans (show _ = some 0 from rfl))
    decide
  let call : Calling := fun _ _ => pure ()
  have holds : betweenOneAndFive.truth [] call (oneVariable.situation m)
      = .ok true (oneVariable.situation m) := by
    have reading : ((Relation.gt.holds 2 1 || Relation.eq.holds 2 0) && !Relation.gt.holds 2 5)
        = true := by decide +kernel
    change EStateM.Result.ok
      ((Relation.gt.holds 2 1 || Relation.eq.holds 2 0) && !Relation.gt.holds 2 5) _ = _
    rw [reading]
  have code : oneVariable.exprCode 0 betweenOneAndFive.expr = .ok (countingLoop.take 12) := rfl
  obtain ⟨value, branch⟩ := conditions_branch_classically (b := b) call
    (show m.halted = false from rfl) (show betweenOneAndFive.expr.calls = [] from rfl) inRange
  refine ⟨?_, ?_⟩
  · have leads := value (countingLoop.take 12) code ⟨countingLoop.drop 12, rfl⟩
    rwa [holds] at leads
  · obtain ⟨condition, no, he, forks, leads⟩ := branch (.loop betweenOneAndFive.expr body) body []
      countingLoop rfl rfl ⟨[], rfl⟩ (by decide)
    obtain rfl := Except.ok.inj (code.symm.trans he)
    rw [holds] at leads
    exact ⟨no, forks, leads⟩

end FlatStack
