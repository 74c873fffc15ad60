import Mathlib

/-!
# Computations with a state that may fail

Evaluations and parsers are such computations. What is known of one that
succeeds is taken apart here, once for both.
-/

set_option autoImplicit false

namespace FlatStack.Stateful

variable {ε σ α β : Type} {s s' : σ} {a : α} {b : β}

theorem bind_apply (x : EStateM ε σ α) (f : α → EStateM ε σ β) (s : σ) :
    (x >>= f) s = match x s with
      | .ok a s' => f a s'
      | .error e s' => .error e s' := by
  change EStateM.bind x f s = _
  unfold EStateM.bind
  cases x s <;> rfl

theorem bind_ok {x : EStateM ε σ α} {f : α → EStateM ε σ β} :
    (x >>= f) s = .ok b s' ↔ ∃ a t, x s = .ok a t ∧ f a t = .ok b s' := by
  rw [bind_apply]
  cases x s <;> simp

theorem ok_bind {x : EStateM ε σ α} {f : α → EStateM ε σ β} {t : σ} (hx : x s = .ok a t)
    (hf : f a t = .ok b s') : (x >>= f) s = .ok b s' :=
  bind_ok.mpr ⟨a, t, hx, hf⟩

theorem pure_ok {a' : α} : (pure a : EStateM ε σ α) s = .ok a' s' ↔ a = a' ∧ s = s' := by
  change EStateM.Result.ok a s = .ok a' s' ↔ _
  simp

theorem throw_ok {e : ε} : ¬ (throw e : EStateM ε σ α) s = .ok a s' := by
  intro h
  have h : EStateM.Result.error e s = .ok a s' := h
  cases h

end FlatStack.Stateful
