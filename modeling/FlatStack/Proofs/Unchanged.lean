import FlatStack.Proofs.Evaluation
import FlatStack.Proofs.Stateful

/-!
# What an evaluation leaves alone

Expressions change nothing but the console, apart from what their calls do. A
statement changes the variables that it assigns, and a function its own
environment and the variables of the top level that it assigns.
-/

set_option autoImplicit false

namespace FlatStack

/-- Only variables are passed in calls. -/
def Expr.Direct : Expr → Prop
  | .number _ | .var _ | .read => True
  | .unary _ e => e.Direct
  | .binary _ l r => l.Direct ∧ r.Direct
  | .call _ arguments => ∃ names : List String, arguments = names.map .var

theorem Expr.direct_of_no_calls : ∀ (e : Expr), e.calls = [] → e.Direct
  | .number _, _ | .var _, _ | .read, _ => trivial
  | .unary _ e, h => e.direct_of_no_calls h
  | .binary _ l r, h =>
    ⟨l.direct_of_no_calls (List.append_eq_nil_iff.mp h).1,
      r.direct_of_no_calls (List.append_eq_nil_iff.mp h).2⟩
  | .call .., h => by simp [Expr.calls] at h

namespace Evaluation

open Stateful

variable {α β γ : Type}

/-- What `view` shows of a situation is the same afterwards. -/
def Keeps (view : Situation → γ) (x : Evaluation α) : Prop :=
  ∀ s a s', x s = .ok a s' → view s' = view s

variable {view : Situation → γ} {x : Evaluation α} {f : α → Evaluation β}

theorem keeps_pure (a : α) : Keeps view (pure a) := by
  intro s a' s' h
  rw [(pure_ok.mp h).2]

theorem keeps_throw (e : Stop) : Keeps view (throw e : Evaluation α) := by
  intro s a s' h
  exact absurd h throw_ok

theorem Keeps.bind (hx : Keeps view x) (hf : ∀ a, Keeps view (f a)) : Keeps view (x >>= f) := by
  intro s c s'' h
  obtain ⟨a, s', ha, hc⟩ := bind_ok.mp h
  rw [hf a s' c s'' hc, hx s a s' ha]

theorem keeps_modify {change : Situation → Situation} (h : ∀ s, view (change s) = view s) :
    Keeps view (modify change : Evaluation Unit) := by
  intro s a s' hs
  have hs : EStateM.Result.ok () (change s) = .ok a s' := hs
  cases hs
  exact h s

theorem keeps_loop {condition : Evaluation Float} {body : Evaluation Unit}
    (hc : Keeps view condition) (hb : Keeps view body) (n : Nat) :
    Keeps view (loop condition body n) := by
  induction n with
  | zero => exact keeps_throw _
  | succ n ih =>
    apply hc.bind
    intro v
    split
    · exact keeps_pure ()
    · exact hb.bind fun _ => ih

section Console

variable (blind : ∀ s console, view { s with console } = view s)

include blind

theorem keeps_say (text : String) : Keeps view (say text) := by
  intro s a s' h
  unfold say at h
  split at h
  · cases h
    exact blind s _
  · cases h

theorem keeps_hear : Keeps view hear := by
  intro s a s' h
  unfold hear at h
  split at h
  · cases h
  · cases h
  · cases h
    exact blind s _

theorem keeps_ask (name : Option String) : Keeps view (ask name) :=
  (keeps_say blind _).bind fun _ => keeps_hear blind

end Console

end Evaluation

open Evaluation Stateful

variable {γ : Type} {view : Situation → γ} {own : List String} {call : Calling}

theorem Expr.evaluateAll_var (names : List String) (s : Situation) :
    Expr.evaluateAll own call (names.map .var) s = .ok (names.map (s.read own)) s := by
  induction names with
  | nil => rfl
  | cons x names ih =>
    rw [List.map_cons, Expr.evaluateAll, bind_apply]
    simp only [Expr.evaluate]
    change (Expr.evaluateAll own call (names.map .var) >>= _) s = _
    rw [bind_apply, ih]
    rfl

section Blind

variable (blind : ∀ s console, view { s with console } = view s)

include blind

theorem Expr.keeps_evaluate : ∀ (e : Expr), e.Direct →
    (∀ u ∈ e.calls, ∀ vs, Keeps view (call u.1 vs)) → Keeps view (e.evaluate own call)
  | .number n, _, _ => keeps_pure n
  | .var x, _, _ => by
    intro s a s' h
    have h : EStateM.Result.ok (s.read own x) s = .ok a s' := h
    cases h
    rfl
  | .read, _, _ => keeps_ask blind none
  | .unary op e, hd, hc => (e.keeps_evaluate hd hc).bind fun _ => keeps_pure _
  | .binary op l r, hd, hc => by
    have hl := l.keeps_evaluate hd.1 fun u hu => hc u (List.mem_append_left _ hu)
    have hr := r.keeps_evaluate hd.2 fun u hu => hc u (List.mem_append_right _ hu)
    apply hl.bind
    intro a
    apply hr.bind
    intro b
    split
    · exact keeps_throw _
    · exact keeps_pure _
  | .call callee arguments, hd, hc => by
    obtain ⟨names, rfl⟩ := hd
    have ha : Keeps view (Expr.evaluateAll own call (names.map .var)) := by
      intro s a s' h
      rw [Expr.evaluateAll_var] at h
      cases h
      rfl
    apply ha.bind
    intro vs
    exact (hc (callee, _) List.mem_cons_self vs).bind fun _ => keeps_pure _

theorem Expr.keeps_storeIn {x : String} {e : Expr}
    (hw : ∀ s v, view (s.write own x v) = view s)
    (he : Keeps view (e.evaluate own call)) : Keeps view (e.storeIn own call x) := by
  have hv : Keeps view (e.valueFor own call x) := by
    cases e with
    | read => exact keeps_ask blind _
    | _ => exact he
  exact hv.bind fun v => keeps_modify fun s => hw s v

theorem Expr.keeps_silent {e : Expr} (h : e.calls = []) : Keeps view (e.evaluate own call) :=
  e.keeps_evaluate blind (e.direct_of_no_calls h) (by simp [h])

end Blind

mutual

theorem Statement.keeps_execute (blind : ∀ s console, view { s with console } = view s)
    (bound : Nat) : ∀ (t : Statement), t.calls = [] →
      (∀ x ∈ t.assigned, ∀ s v, view (s.write own x v) = view s) →
        Keeps view (t.execute own call bound)
  | .echo e, hc, _ => (Expr.keeps_silent blind hc).bind fun _ => keeps_say blind _
  | .assign x e, hc, hw =>
    Expr.keeps_storeIn blind (hw x List.mem_cons_self) (Expr.keeps_silent blind hc)
  | .ifThen c body, hc, hw => by
    obtain ⟨h₁, h₂⟩ := List.append_eq_nil_iff.mp hc
    apply (Expr.keeps_silent blind h₁).bind
    intro v
    split
    · exact keeps_pure ()
    · exact Statement.keeps_executeAll blind bound body h₂ hw
  | .ifElse c body otherwise, hc, hw => by
    obtain ⟨h, h₃⟩ := List.append_eq_nil_iff.mp hc
    obtain ⟨h₁, h₂⟩ := List.append_eq_nil_iff.mp h
    apply (Expr.keeps_silent blind h₁).bind
    intro v
    split
    · exact Statement.keeps_executeAll blind bound otherwise h₃
        fun x hx => hw x (List.mem_append_right _ hx)
    · exact Statement.keeps_executeAll blind bound body h₂
        fun x hx => hw x (List.mem_append_left _ hx)
  | .loop c body, hc, hw => by
    obtain ⟨h₁, h₂⟩ := List.append_eq_nil_iff.mp hc
    have hb := Statement.keeps_executeAll blind bound body h₂ hw
    exact keeps_loop (Expr.keeps_silent blind h₁) hb bound
  | .call .., hc, _ => by simp [Statement.calls] at hc

theorem Statement.keeps_executeAll (blind : ∀ s console, view { s with console } = view s)
    (bound : Nat) : ∀ (ts : List Statement), Statement.callsAll ts = [] →
      (∀ x ∈ Statement.assignedAll ts, ∀ s v, view (s.write own x v) = view s) →
        Keeps view (Statement.executeAll own call bound ts)
  | [], _, _ => keeps_pure ()
  | t :: ts, hc, hw => by
    obtain ⟨h₁, h₂⟩ := List.append_eq_nil_iff.mp hc
    have ht := Statement.keeps_execute blind bound t h₁
      fun x hx => hw x (List.mem_append_left _ hx)
    have hts := Statement.keeps_executeAll blind bound ts h₂
      fun x hx => hw x (List.mem_append_right _ hx)
    exact ht.bind fun _ => hts

end

/-! ## Initializers and functions -/

namespace Variables

variable {x : String} {e : Expr} {vs : Variables}

theorem prepare_zero (h : Context.isZero e = true) :
    prepare own call ((x, some e) :: vs)
      = (modify (Situation.write own x 0) >>= fun _ => prepare own call vs) := by
  rw [prepare, if_pos h]

theorem prepare_some (h : ¬ Context.isZero e = true) :
    prepare own call ((x, some e) :: vs)
      = (e.storeIn own call x >>= fun _ => prepare own call vs) := by
  rw [prepare, if_neg h]

theorem keeps_prepare (blind : ∀ s console, view { s with console } = view s)
    (hc : vs.calls = []) (hw : ∀ x ∈ vs.names, ∀ s v, view (s.write own x v) = view s) :
    Keeps view (prepare own call vs) := by
  induction vs with
  | nil => exact keeps_pure ()
  | cons v vs ih =>
    obtain ⟨x, e⟩ := v
    have further := fun y hy => hw y (List.mem_cons_of_mem x hy)
    have here := hw x List.mem_cons_self
    cases e with
    | none => exact ih hc further
    | some e =>
      obtain ⟨h₁, h₂⟩ := List.append_eq_nil_iff.mp hc
      have rest := ih h₂ further
      by_cases zero : Context.isZero e = true
      · rw [prepare_zero zero]
        exact (keeps_modify fun s => here s 0).bind fun _ => rest
      · rw [prepare_some zero]
        exact (Expr.keeps_storeIn blind here (Expr.keeps_silent blind h₁)).bind fun _ => rest

end Variables

namespace Situation

variable {x y : String} {v : Float} {s : Situation}

theorem read_write_other (h : x ≠ y) : (s.write own x v).read own y = s.read own y := by
  unfold write read
  by_cases hx : x ∈ own <;> by_cases hy : y ∈ own <;>
    simp [hx, hy, Function.update_of_ne h.symm]

theorem globals_write (h : x ∈ own ∨ x ≠ y) : (s.write own x v).globals y = s.globals y := by
  unfold write
  by_cases hx : x ∈ own
  · simp [hx]
  · have hne : x ≠ y := by simpa [hx] using h
    simp [hx, Function.update_of_ne hne.symm]

/-- Zero may be written where zero is. -/
theorem write_zero (h : s.read own x = 0) : s.write own x 0 = s := by
  unfold read at h
  unfold write
  split
  · rw [if_pos ‹_›] at h
    rw [← h, Function.update_eq_self]
  · rw [if_neg ‹_›] at h
    rw [← h, Function.update_eq_self]

end Situation

/-- A function without calls leaves all variables of the top level alone that it
does not assign. -/
theorem Program.keeps_call {p : Program} {q : Routine} {f y : String}
    (found : p.routine? f = some q) (silent : q.calls = [])
    (hy : ∀ x ∈ Statement.assignedAll q.statements, x ∈ q.names ∨ x ≠ y)
    (bound depth : Nat) (values : List Float) :
    Keeps (fun s => s.globals y) (p.call bound depth f values) := by
  cases depth with
  | zero => exact keeps_throw _
  | succ depth =>
    obtain ⟨hv, hs⟩ := List.append_eq_nil_iff.mp silent
    rw [Program.call, found]
    apply Keeps.bind
    · intro s a s' h
      have h : EStateM.Result.ok s s = .ok a s' := h
      cases h
      rfl
    intro caller
    have first : Keeps (fun s => s.globals y) (q.vars.prepare q.names (p.call bound depth)) :=
      Variables.keeps_prepare (fun _ _ => rfl) hv
        fun x hx s v => Situation.globals_write (.inl (List.mem_append_right _ hx))
    have others : Keeps (fun s => s.globals y)
        (Statement.executeAll q.names (p.call bound depth) bound q.statements) :=
      Statement.keeps_executeAll (fun _ _ => rfl) bound q.statements hs
        fun x hx s v => Situation.globals_write (hy x hx)
    have enter : Keeps (fun s => s.globals y)
        (modify fun s => { s with locals := bind q.parameters values } : Evaluation Unit) :=
      keeps_modify fun _ => rfl
    have leave : Keeps (fun s => s.globals y)
        (modify fun s => { s with locals := caller.locals } : Evaluation Unit) :=
      keeps_modify fun _ => rfl
    exact enter.bind fun _ => first.bind fun _ => others.bind fun _ => leave

end FlatStack
