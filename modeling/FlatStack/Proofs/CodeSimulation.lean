import FlatStack.Proofs.Simulation

/-!
# The code of expressions and statements simulates them

A call must not run while operands wait on the stack, because the slots of the
callee are addressed as if nothing lay below them. So it has to be the
leftmost leaf of its expression. What a call itself does is left open here.
-/

set_option autoImplicit false

namespace FlatStack

open Machine Evaluation Stateful

/-! ## Leading calls -/

/-- Every call is the leftmost leaf of the expression. -/
def Expr.Leading : Expr → Prop
  | .number _ | .var _ | .read | .call .. => True
  | .unary _ e => e.Leading
  | .binary _ l r => l.Leading ∧ r.calls = []

mutual

def Statement.Leading : Statement → Prop
  | .echo e | .assign _ e => e.Leading
  | .ifThen c body | .loop c body => c.Leading ∧ Statement.LeadingAll body
  | .ifElse c body otherwise =>
    c.Leading ∧ Statement.LeadingAll body ∧ Statement.LeadingAll otherwise
  | .call .. => True

def Statement.LeadingAll : List Statement → Prop
  | [] => True
  | t :: ts => t.Leading ∧ Statement.LeadingAll ts

end

def Variables.Leading (vs : Variables) : Prop := ∀ x e, (x, some e) ∈ vs → e.Leading

theorem Expr.leading_of_no_calls : ∀ (e : Expr), e.calls = [] → e.Leading
  | .number _, _ | .var _, _ | .read, _ | .call .., _ => trivial
  | .unary _ e, h => e.leading_of_no_calls h
  | .binary _ l _, h =>
    ⟨l.leading_of_no_calls (List.append_eq_nil_iff.mp h).1, (List.append_eq_nil_iff.mp h).2⟩

mutual

theorem Statement.leading_of_no_calls : ∀ (t : Statement), t.calls = [] → t.Leading
  | .echo e, h | .assign _ e, h => e.leading_of_no_calls h
  | .ifThen c body, h | .loop c body, h =>
    have ⟨h₁, h₂⟩ := List.append_eq_nil_iff.mp h
    ⟨c.leading_of_no_calls h₁, Statement.leadingAll_of_no_calls body h₂⟩
  | .ifElse c body otherwise, h =>
    have ⟨h₁₂, h₃⟩ := List.append_eq_nil_iff.mp h
    have ⟨h₁, h₂⟩ := List.append_eq_nil_iff.mp h₁₂
    ⟨c.leading_of_no_calls h₁, Statement.leadingAll_of_no_calls body h₂,
      Statement.leadingAll_of_no_calls otherwise h₃⟩
  | .call .., _ => trivial

theorem Statement.leadingAll_of_no_calls : ∀ (ts : List Statement),
    Statement.callsAll ts = [] → Statement.LeadingAll ts
  | [], _ => trivial
  | t :: ts, h =>
    have ⟨h₁, h₂⟩ := List.append_eq_nil_iff.mp h
    ⟨t.leading_of_no_calls h₁, Statement.leadingAll_of_no_calls ts h₂⟩

end

theorem Variables.leading_of_no_calls {vs : Variables} (h : vs.calls = []) : vs.Leading := by
  intro x e mem
  apply e.leading_of_no_calls
  have none := List.flatMap_eq_nil_iff.mp h (x, some e) mem
  simpa using none

/-! ## Expressions -/

/-- The code of a body addresses its variables as the setting places them. -/
structure Setting.Fits (g : Setting) (c : Context) : Prop where
  slot : ∀ x, c.scope.slot? c.globals x = g.slot? x
  tops : g.tops.Nodup
  own : g.own.Nodup
  room : g.tops.length + g.own.length ≤ maxSlots

/-- The code of a call simulates what the evaluation takes the call to do. -/
def Serves (b : Bytecode) (n : Nat) (c : Context) (g : Setting) (call : Calling) (u : Use) :
    Prop :=
  ∀ (names : List String) (base : Nat) (code : List Instruction) (s : Situation),
    names.length = u.2 → c.callCode base u.1 (names.map .var) = .ok code → b.Holds base code →
      Simulates b n (g.machine base s []) (fun _ s' => g.machine (base + code.length) s' [])
        (call u.1 (names.map (s.read g.own)) s)

section

variable {b : Bytecode} {n : Nat} {c : Context} {g : Setting} {call : Calling}

theorem Setting.Fits.slot_small {x : String} {a : Nat} (fits : g.Fits c)
    (h : g.slot? x = some a) : a < maxSlots ∧ a < 2 ^ 53 := by
  have low := g.slot?_lt (s := ⟨fun _ => 0, fun _ => 0, ⟨[], [], none⟩⟩) h
  have room := fits.room
  have small := maxSlots_exact
  rw [length_frame] at low
  omega

theorem address_withNat {op : Opcode} {a : Nat} (h : a < 2 ^ 53) :
    address (Instruction.withNat op a).operand = a := address_ofNat a h

/-- Code exists for calls that pass variables only. -/
theorem Expr.direct_of_code : ∀ (e : Expr) {base : Nat} {code : List Instruction},
    c.exprCode base e = .ok code → e.Direct
  | .number _, _, _, _ | .var _, _, _, _ | .read, _, _, _ => trivial
  | .unary op e, _, _, h => by
    obtain ⟨_, he, _⟩ := Context.exprCode_unary.mp h
    exact e.direct_of_code he
  | .binary op l r, _, _, h => by
    obtain ⟨_, hl, _, hr, _⟩ := Context.exprCode_binary.mp h
    exact ⟨l.direct_of_code hl, r.direct_of_code hr⟩
  | .call callee arguments, _, _, h => by
    obtain ⟨_, hc, _⟩ := Context.exprCode_call.mp h
    obtain ⟨_, hp, _⟩ := Context.callCode_ok.mp hc
    obtain ⟨names, _, hn, _⟩ := Context.parameterCode_ok.mp hp
    exact ⟨names, hn⟩

theorem simulates_expr (fits : g.Fits c) : ∀ (e : Expr) {base : Nat} {code : List Instruction}
    {s : Situation} {ts : List Float}, c.exprCode base e = .ok code → b.Holds base code →
      e.Leading → e.calls = [] ∨ ts = [] → (∀ u ∈ e.calls, Serves b n c g call u) →
        Simulates b n (g.machine base s ts)
          (fun v s' => g.machine (base + code.length) s' (ts ++ [v])) (e.evaluate g.own call s)
  | .number v, base, code, s, ts, h, hb, _, _, _ => by
    obtain rfl := (Emission.pure_ok _ _).mp h
    exact Simulates.of_advances (Setting.advances_const hb.fetch)
  | .var x, base, code, s, ts, h, hb, _, _, _ => by
    obtain ⟨a, hs, rfl⟩ := Context.exprCode_var.mp h
    rw [fits.slot] at hs
    have small := (fits.slot_small hs).2
    exact Simulates.of_advances
      (Setting.advances_load hb.fetch (.inl rfl) (address_withNat small) hs)
  | .read, base, code, s, ts, h, hb, _, _, _ => by
    obtain rfl := (Emission.pure_ok _ _).mp h
    exact Setting.simulates_read hb.fetch rfl
  | .unary op e, base, code, s, ts, h, hb, hl, hp, hc => by
    obtain ⟨operand, he, rfl⟩ := Context.exprCode_unary.mp h
    obtain ⟨ho, hi⟩ := Bytecode.holds_append.mp hb
    apply (simulates_expr fits e he ho hl hp hc).bind
    intro v s' _
    rw [List.length_append, ← Nat.add_assoc]
    exact Simulates.of_advances (Setting.advances_unary hi.fetch)
  | .binary op l r, base, code, s, ts, h, hb, hl, hp, hc => by
    obtain ⟨left, hleft, right, hright, rfl⟩ := Context.exprCode_binary.mp h
    obtain ⟨hlr, hi⟩ := Bytecode.holds_append.mp hb
    obtain ⟨hbl, hbr⟩ := Bytecode.holds_append.mp hlr
    have pl : l.calls = [] ∨ ts = [] := hp.imp_left fun h => (List.append_eq_nil_iff.mp h).1
    apply (simulates_expr fits l hleft hbl hl.1 pl
      fun u hu => hc u (List.mem_append_left _ hu)).bind
    intro v s' _
    apply (simulates_expr fits r hright hbr (r.leading_of_no_calls hl.2) (.inl hl.2)
      fun u hu => hc u (List.mem_append_right _ hu)).bind
    intro w s'' _
    rw [List.length_append, ← Nat.add_assoc] at hi ⊢
    rw [List.length_append, ← Nat.add_assoc]
    exact Setting.simulates_binary hi.fetch
  | .call callee arguments, base, code, s, ts, h, hb, _, hp, hc => by
    have nothing : ts = [] := hp.resolve_left (by simp [Expr.calls])
    subst nothing
    obtain ⟨calling, hcall, rfl⟩ := Context.exprCode_call.mp h
    obtain ⟨hbc, hi⟩ := Bytecode.holds_append.mp hb
    obtain ⟨_, hparams, _⟩ := Context.callCode_ok.mp hcall
    obtain ⟨names, _, rfl, _⟩ := Context.parameterCode_ok.mp hparams
    have served := hc (callee, _) List.mem_cons_self names base calling s (by simp) hcall hbc
    rw [Expr.evaluate, bind_apply, Expr.evaluateAll_var]
    apply served.bind
    intro _ s' _
    rw [List.length_append, ← Nat.add_assoc]
    exact Simulates.of_advances (Setting.advances_const hi.fetch)

theorem simulates_store (fits : g.Fits c) {x : String} {e : Expr} {base : Nat}
    {code : List Instruction} {s : Situation} (h : c.assignmentCode base x e = .ok code)
    (hb : b.Holds base code) (hl : e.Leading) (hc : ∀ u ∈ e.calls, Serves b n c g call u) :
    Simulates b n (g.machine base s []) (fun _ s' => g.machine (base + code.length) s' [])
      (e.storeIn g.own call x s) := by
  obtain ⟨value, hv, a, hs, rfl⟩ := Context.assignmentCode_ok.mp h
  obtain ⟨hbv, hi⟩ := Bytecode.holds_append.mp hb
  have valued : Simulates b n (g.machine base s [])
      (fun v s' => g.machine (base + value.length) s' ([] ++ [v]))
      (e.valueFor g.own call x s) := by
    by_cases read : e = .read
    · subst read
      obtain rfl := (Emission.pure_ok _ _).mp hv
      have asked : (Expr.read).valueFor g.own call x = ask (some x) := rfl
      rw [asked]
      exact Setting.simulates_read (i := (Instruction.bare .read).commented x) hbv.fetch rfl
    · rw [Context.valueCode_other read] at hv
      have same : e.valueFor g.own call x = e.evaluate g.own call := by
        cases e with
        | read => exact absurd rfl read
        | _ => rfl
      rw [same]
      exact simulates_expr fits e hv hbv hl (.inr rfl) hc
  rw [fits.slot] at hs
  obtain ⟨room, small⟩ := fits.slot_small hs
  apply valued.bind
  intro v s' _
  rw [List.length_append, ← Nat.add_assoc]
  exact Simulates.of_advances
    (Setting.advances_store fits.tops fits.own hi.fetch rfl (address_withNat small) hs room)

/-! ## Statements -/

/-- The code of a condition goes on at `target` if the value is zero. -/
theorem simulates_condition (fits : g.Fits c) {e : Expr} {base target : Nat}
    {code rest : List Instruction} {s : Situation} (h : c.exprCode base e = .ok code)
    (hb : b.Holds base (code ++ .withNat .jumpIfZero target :: rest)) (ht : target < 2 ^ 53)
    (hl : e.Leading) (hc : ∀ u ∈ e.calls, Serves b n c g call u) :
    Simulates b n (g.machine base s [])
      (fun v s' => g.machine (if v == 0 then target else base + code.length + 1) s' [])
      (e.evaluate g.own call s) := by
  obtain ⟨hbc, hi⟩ := Bytecode.holds_append.mp hb
  apply (simulates_expr fits e h hbc hl (.inr rfl) hc).onward
  intro v s'
  exact Setting.advances_jumpIfZero hi.fetch rfl (address_withNat ht)

/-- A loop that still has `j` rounds takes at least `j` steps before they are
used up, since each round ends with a jump. -/
theorem simulates_loop {base start back after : Nat} {condition : Evaluation Float}
    {body : Evaluation Unit}
    (hc : ∀ s, Simulates b n (g.machine base s [])
      (fun v s' => g.machine (if v == 0 then after else start) s' []) (condition s))
    (hb : ∀ s, Simulates b n (g.machine start s []) (fun _ s' => g.machine back s' []) (body s))
    (hj : ∀ s, Advances b (g.machine back s []) (g.machine base s [])) {j : Nat} (hn : j ≤ n)
    (s : Situation) :
    Simulates b j (g.machine base s []) (fun _ s' => g.machine after s' [])
      (loop condition body j s) := by
  induction j generalizing s with
  | zero => exact ⟨0, _, le_rfl, .refl _, rfl⟩
  | succ j ih =>
    apply ((hc s).mono hn).bind
    intro v s₁ _
    by_cases zero : (v == 0) = true
    · rw [if_pos zero, if_pos zero]
      exact Simulates.done rfl
    · rw [if_neg zero, if_neg zero]
      apply ((hb s₁).mono hn).bind
      intro _ s₂ _
      rw [Nat.add_comm]
      exact Simulates.after (.single (hj s₂)) (ih (by omega) s₂)

mutual

theorem simulates_statement (fits : g.Fits c) (small : b.size < 2 ^ 53) : ∀ (t : Statement)
    {base : Nat} {code : List Instruction} {s : Situation}, c.statementCode base t = .ok code →
      b.Holds base code → t.Leading → (∀ u ∈ t.calls, Serves b n c g call u) →
        Simulates b n (g.machine base s []) (fun _ s' => g.machine (base + code.length) s' [])
          (t.execute g.own call n s)
  | .echo e, base, code, s, h, hb, hl, hc => by
    obtain ⟨value, he, rfl⟩ := Context.statementCode_echo.mp h
    obtain ⟨hbv, hi⟩ := Bytecode.holds_append.mp hb
    apply (simulates_expr fits e he hbv hl (.inr rfl) hc).bind
    intro v s' _
    rw [List.length_append, ← Nat.add_assoc]
    exact Setting.simulates_print hi.fetch
  | .assign x e, base, code, s, h, hb, hl, hc => simulates_store fits h hb hl hc
  | .ifThen e body, base, code, s, h, hb, hl, hc => by
    have most := hb.length_le
    obtain ⟨condition, he, inner, hi, rfl⟩ := Context.statementCode_ifThen.mp h
    replace most := most (by simp)
    obtain ⟨_, hbi⟩ := Bytecode.holds_append.mp hb
    simp only [List.length_append, List.length_cons] at most ⊢
    apply (simulates_condition fits he hb (by omega) hl.1
      fun u hu => hc u (List.mem_append_left _ hu)).bind
    intro v s' _
    by_cases zero : (v == 0) = true
    · rw [if_pos zero, if_pos zero]
      exact Simulates.done (by congr 1; omega)
    · rw [if_neg zero, if_neg zero]
      apply (simulates_statements fits small body hi (Bytecode.holds_cons.mp hbi).2 hl.2
        fun u hu => hc u (List.mem_append_right _ hu)).congr
      intro _ s''
      congr 1
      omega
  | .ifElse e body otherwise, base, code, s, h, hb, hl, hc => by
    have most := hb.length_le
    obtain ⟨condition, he, inner, hi, other, ho, rfl⟩ := Context.statementCode_ifElse.mp h
    replace most := most (by simp)
    rw [List.append_assoc] at hb
    obtain ⟨_, hbi⟩ := Bytecode.holds_append.mp hb
    obtain ⟨hbi, hbo⟩ := Bytecode.holds_append.mp (Bytecode.holds_cons.mp hbi).2
    simp only [List.length_append, List.length_cons] at most ⊢
    have hbo' := (Bytecode.holds_cons.mp hbo).2
    apply (simulates_condition fits he hb (by omega) hl.1
      fun u hu => hc u (List.mem_append_left _ (List.mem_append_left _ hu))).bind
    intro v s' _
    by_cases zero : (v == 0) = true
    · rw [if_pos zero, if_pos zero]
      apply (simulates_statements fits small otherwise ho hbo' hl.2.2
        fun u hu => hc u (List.mem_append_right _ hu)).congr
      intro _ s''
      congr 1
      omega
    · rw [if_neg zero, if_neg zero]
      apply (simulates_statements fits small body hi hbi hl.2.1
        fun u hu => hc u (List.mem_append_left _ (List.mem_append_right _ hu))).onward
      intro _ s''
      have target : base + condition.length + 1 + inner.length + 1 + other.length
          = base + (condition.length + (inner.length + 1) + (other.length + 1)) := by omega
      rw [target] at hbo
      exact Setting.advances_jump hbo.fetch (.inl rfl) (address_withNat (by omega))
  | .loop e body, base, code, s, h, hb, hl, hc => by
    have most := hb.length_le
    obtain ⟨condition, he, inner, hi, rfl⟩ := Context.statementCode_loop.mp h
    replace most := most (by simp)
    rw [List.append_assoc] at hb
    obtain ⟨_, hbi⟩ := Bytecode.holds_append.mp hb
    obtain ⟨hbi, hbj⟩ := Bytecode.holds_append.mp (Bytecode.holds_cons.mp hbi).2
    simp only [List.length_append, List.length_cons, List.length_nil] at most
    have again := fun s => simulates_condition (s := s) fits he hb (by omega) hl.1
      fun u hu => hc u (List.mem_append_left _ hu)
    have body := fun s => simulates_statements (s := s) fits small body hi hbi hl.2
      fun u hu => hc u (List.mem_append_right _ hu)
    have jump : ∀ s, Advances b
        (g.machine (base + condition.length + 1 + inner.length) s []) (g.machine base s []) :=
      fun s => Setting.advances_jump hbj.fetch (.inl rfl) (address_withNat (by omega))
    apply (simulates_loop again body jump le_rfl s).congr
    intro _ s'
    congr 1
    simp only [List.length_append, List.length_cons, List.length_nil]
    omega
  | .call callee arguments, base, code, s, h, hb, _, hc => by
    rw [Context.statementCode] at h
    obtain ⟨_, hparams, _⟩ := Context.callCode_ok.mp h
    obtain ⟨names, _, rfl, _⟩ := Context.parameterCode_ok.mp hparams
    rw [Statement.execute, bind_apply, Expr.evaluateAll_var]
    exact hc (callee, _) List.mem_cons_self names base code s (by simp) h hb

theorem simulates_statements (fits : g.Fits c) (small : b.size < 2 ^ 53) :
    ∀ (ts : List Statement) {base : Nat} {code : List Instruction} {s : Situation},
      c.statementsCode base ts = .ok code → b.Holds base code → Statement.LeadingAll ts →
        (∀ u ∈ Statement.callsAll ts, Serves b n c g call u) →
          Simulates b n (g.machine base s []) (fun _ s' => g.machine (base + code.length) s' [])
            (Statement.executeAll g.own call n ts s)
  | [], base, code, s, h, _, _, _ => by
    obtain rfl := (Emission.pure_ok _ _).mp h
    exact Simulates.done rfl
  | t :: ts, base, code, s, h, hb, hl, hc => by
    obtain ⟨first, hf, others, ho, rfl⟩ := Context.statementsCode_cons.mp h
    obtain ⟨hbf, hbo⟩ := Bytecode.holds_append.mp hb
    apply (simulates_statement fits small t hf hbf hl.1
      fun u hu => hc u (List.mem_append_left _ hu)).bind
    intro _ s' _
    rw [List.length_append, ← Nat.add_assoc]
    exact simulates_statements fits small ts ho hbo hl.2
      fun u hu => hc u (List.mem_append_right _ hu)

end

/-! ## Initializers -/

/-- What an initializer calls leaves the variables behind it alone. -/
def Variables.Apart (own : List String) (call : Calling) (vs : Variables) : Prop :=
  ∀ (earlier : Variables) (x : String) (e : Expr) (later : Variables),
    vs = earlier ++ (x, some e) :: later → ∀ u ∈ e.calls, ∀ y ∈ later.names, ∀ values,
      Keeps (Situation.read own y) (call u.1 values)

theorem Variables.Apart.tail {own : List String} {v : String × Option Expr} {vs : Variables}
    (h : Variables.Apart own call (v :: vs)) : vs.Apart own call := by
  intro earlier x e later hvs
  exact h (v :: earlier) x e later (by rw [hvs, List.cons_append])

theorem Expr.direct_of_assignment {x : String} {e : Expr} {base : Nat} {code : List Instruction}
    (h : c.assignmentCode base x e = .ok code) : e.Direct := by
  obtain ⟨value, hv, _⟩ := Context.assignmentCode_ok.mp h
  by_cases read : e = .read
  · rw [read]
    trivial
  · rw [Context.valueCode_other read] at hv
    exact e.direct_of_code hv

/-- Initializers that have no code find zero in their variables, and what runs
before them keeps it there. -/
theorem simulates_prepare (fits : g.Fits c) {vs : Variables} {base : Nat}
    {code : List Instruction} {s : Situation} (h : c.initializersCode base vs = .ok code)
    (hb : b.Holds base code) (hl : vs.Leading) (hc : ∀ u ∈ vs.calls, Serves b n c g call u)
    (distinct : vs.names.Nodup) (apart : vs.Apart g.own call)
    (pending : ∀ x ∈ vs.names, s.read g.own x = 0) :
    Simulates b n (g.machine base s []) (fun _ s' => g.machine (base + code.length) s' [])
      (vs.prepare g.own call s) := by
  induction vs generalizing base code s with
  | nil =>
    obtain rfl := (Emission.pure_ok _ _).mp h
    exact Simulates.done rfl
  | cons v vs ih =>
    obtain ⟨x, e⟩ := v
    obtain ⟨fresh, hn⟩ := List.nodup_cons.mp distinct
    have hl' : Variables.Leading vs := fun y i mem => hl y i (List.mem_cons_of_mem _ mem)
    have pending' := fun y hy => pending y (List.mem_cons_of_mem x hy)
    cases e with
    | none =>
      rw [Context.initializersCode_none] at h
      exact ih h hb hl' hc hn apart.tail pending'
    | some e =>
      have hc' := fun u hu => hc u (List.mem_append_right _ hu)
      by_cases zero : Context.isZero e = true
      · rw [Context.initializersCode_zero zero] at h
        rw [Variables.prepare_zero zero, bind_apply]
        change Simulates _ _ _ _ (Variables.prepare g.own call vs (s.write g.own x 0))
        rw [Situation.write_zero (pending x List.mem_cons_self)]
        exact ih h hb hl' hc' hn apart.tail pending'
      · obtain ⟨first, hf, others, ho, rfl⟩ := (Context.initializersCode_some zero).mp h
        obtain ⟨hbf, hbo⟩ := Bytecode.holds_append.mp hb
        rw [Variables.prepare_some zero]
        apply (simulates_store fits hf hbf (hl x e List.mem_cons_self)
          fun u hu => hc u (List.mem_append_left _ hu)).bind
        intro a s' stored
        rw [List.length_append, ← Nat.add_assoc]
        apply ih ho hbo hl' hc' hn apart.tail
        intro y hy
        have other : x ≠ y := fun same => fresh (same ▸ hy)
        have evaluated : Keeps (Situation.read g.own y) (e.evaluate g.own call) :=
          e.keeps_evaluate (fun _ _ => rfl) (Expr.direct_of_assignment hf)
            fun u hu => apart [] x e vs rfl u hu y hy
        have kept := Expr.keeps_storeIn (fun _ _ => rfl)
          (fun _ _ => Situation.read_write_other other) evaluated
        rw [kept s a s' stored]
        exact pending' y hy

/-- Initializers and statements one after the other. -/
theorem simulates_actions (fits : g.Fits c) (small : b.size < 2 ^ 53) {vs : Variables}
    {ts : List Statement} {base : Nat} {code : List Instruction} {s : Situation}
    (h : c.actionCode base vs ts = .ok code) (hb : b.Holds base code) (hv : vs.Leading)
    (ht : Statement.LeadingAll ts)
    (hc : ∀ u ∈ vs.calls ++ Statement.callsAll ts, Serves b n c g call u)
    (distinct : vs.names.Nodup) (apart : vs.Apart g.own call)
    (pending : ∀ x ∈ vs.names, s.read g.own x = 0) :
    Simulates b n (g.machine base s []) (fun _ s' => g.machine (base + code.length) s' [])
      ((vs.prepare g.own call >>= fun _ => Statement.executeAll g.own call n ts) s) := by
  obtain ⟨first, hf, others, ho, rfl⟩ := Context.actionCode_ok.mp h
  obtain ⟨hbf, hbo⟩ := Bytecode.holds_append.mp hb
  apply (simulates_prepare fits hf hbf hv (fun u hu => hc u (List.mem_append_left _ hu))
    distinct apart pending).bind
  intro _ s' _
  rw [List.length_append, ← Nat.add_assoc]
  exact simulates_statements fits small ts ho hbo ht
    fun u hu => hc u (List.mem_append_right _ hu)

end

end FlatStack
