import Mathlib.Data.List.Basic

/-!
# Sequencing fallible computations

The bind lemmas of `Except`: a sequence succeeds when both of its parts do, and
fails with the error of the first part that fails.  With them a `do` block is
taken apart by `obtain`, one line of the block at a time.
-/

namespace Montygo.Outcome

universe u

variable {ε : Type*} {α β : Type u} {a : α} {f : α → Except ε β} {x : Except ε α}

theorem ok_bind : (Except.ok a >>= f) = f a := rfl

@[simp] theorem bind_eq_ok {b : β} : (x >>= f) = .ok b ↔ ∃ a, x = .ok a ∧ f a = .ok b := by
  cases x <;> simp [bind, Except.bind]

theorem bind_eq_error {e : ε} :
    (x >>= f) = .error e ↔ x = .error e ∨ ∃ a, x = .ok a ∧ f a = .error e := by
  cases x <;> simp [bind, Except.bind]

theorem bind_pure_eq_error {f : α → β} {e : ε} :
    (x >>= fun a => pure (f a)) = .error e ↔ x = .error e := by
  cases x <;> simp [bind, Except.bind, pure, Except.pure]

@[simp] theorem pure_eq_ok {b : α} : (pure a : Except ε α) = .ok b ↔ a = b := by
  simp [pure, Except.pure]

@[simp] theorem pure_ne_error {e : ε} : (pure a : Except ε α) ≠ .error e := by
  simp [pure, Except.pure]

theorem mapError_eq_ok {ε' : Type*} {f : ε → ε'} : x.mapError f = .ok a ↔ x = .ok a := by
  cases x <;> simp [Except.mapError]

end Montygo.Outcome
