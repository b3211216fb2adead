import Mathlib.Data.List.Basic

/-!
# Computations that change a state and may fail

In `EStateM ε σ` a failing computation keeps the changes it made before it failed.
The computations of this development are built from two kinds of steps: `check`
reads the state and may fail, `update` changes the state or fails without
changing it.  `FailsClean` says that a computation leaves the state alone when it
fails; it follows when every step before the last change only checks.
-/

namespace Montygo.Fallible

universe u

variable {ε σ : Type u} {α β : Type u}

/-- A step that reads the state and may fail. -/
def check (f : σ → Except ε α) : EStateM ε σ α := fun s =>
  match f s with
  | .ok a => .ok a s
  | .error e => .error e s

/-- A step that changes the state, or fails and leaves it as it is. -/
def update (f : σ → Except ε (α × σ)) : EStateM ε σ α := fun s =>
  match f s with
  | .ok (a, s') => .ok a s'
  | .error e => .error e s

variable {x : EStateM ε σ α} {f : α → EStateM ε σ β} {s s' : σ} {a a' : α} {b : β} {e : ε}

theorem bind_eq_ok : (x >>= f) s = .ok b s' ↔ ∃ a s₁, x s = .ok a s₁ ∧ f a s₁ = .ok b s' := by
  simp only [bind, EStateM.bind]
  cases x s <;> simp

theorem bind_eq_error : (x >>= f) s = .error e s' ↔
      x s = .error e s' ∨ ∃ a s₁, x s = .ok a s₁ ∧ f a s₁ = .error e s' := by
  simp only [bind, EStateM.bind]
  cases x s <;> simp

@[simp] theorem pure_eq_ok : (pure a : EStateM ε σ α) s = .ok a' s' ↔ a = a' ∧ s = s' := by
  simp [pure, EStateM.pure]

@[simp] theorem pure_ne_error : (pure a : EStateM ε σ α) s ≠ .error e s' := by
  simp [pure, EStateM.pure]

variable {g : σ → Except ε α}

theorem check_eq_ok : check g s = .ok a s' ↔ g s = .ok a ∧ s' = s := by
  unfold check
  cases g s <;> simp [eq_comm]

theorem check_eq_error : check g s = .error e s' ↔ g s = .error e ∧ s' = s := by
  unfold check
  cases g s <;> simp [eq_comm]

theorem update_eq_ok {g : σ → Except ε (α × σ)} : update g s = .ok a s' ↔ g s = .ok (a, s') := by
  unfold update
  rcases g s with e | ⟨a, s'⟩ <;> simp

theorem update_eq_error {g : σ → Except ε (α × σ)} :
    update g s = .error e s' ↔ g s = .error e ∧ s' = s := by
  unfold update
  rcases g s with e | ⟨a, s'⟩ <;> simp [eq_comm]

/-! ## Failing without a trace -/

/-- When the computation fails, the state is what it was. -/
def FailsClean (x : EStateM ε σ α) : Prop := ∀ s e s', x s = .error e s' → s' = s

theorem failsClean_pure : FailsClean (pure a : EStateM ε σ α) := by
  intro s e s' h
  exact absurd h pure_ne_error

theorem failsClean_check (g : σ → Except ε α) : FailsClean (check g) := by
  intro s e s' h
  exact (check_eq_error.mp h).2

theorem failsClean_update (g : σ → Except ε (α × σ)) : FailsClean (update g) := by
  intro s e s' h
  exact (update_eq_error.mp h).2

/-- Checks may come before anything that fails without a trace. -/
theorem FailsClean.check_bind (hf : ∀ a, FailsClean (f a)) : FailsClean (check g >>= f) := by
  intro s e s' h
  rcases bind_eq_error.mp h with h | ⟨a, s₁, hg, h⟩
  · exact (check_eq_error.mp h).2
  · rw [(check_eq_ok.mp hg).2] at h
    exact hf a s e s' h

/-- What cannot fail may follow anything that fails without a trace. -/
theorem FailsClean.bind_of_total (hx : FailsClean x)
    (hf : ∀ a s e s', f a s ≠ .error e s') : FailsClean (x >>= f) := by
  intro s e s' h
  rcases bind_eq_error.mp h with h | ⟨a, s₁, -, h⟩
  · exact hx s e s' h
  · exact absurd h (hf a s₁ e s')

/-! ## The state a computation ends in -/

/-- The state at the end, whether the computation failed or not. -/
def final : EStateM.Result ε σ α → σ
  | .ok _ s => s
  | .error _ s => s

/-- The computation did not fail. -/
def succeeded : EStateM.Result ε σ α → Bool
  | .ok _ _ => true
  | .error _ _ => false

/-- What every step keeps, a sequence of steps keeps. -/
theorem final_bind {P : σ → Prop} (hx : P (final (x s)))
    (hf : ∀ a s₁, x s = .ok a s₁ → P (final (f a s₁))) : P (final ((x >>= f) s)) := by
  cases h : x s with
  | ok a s₁ =>
    have hbind : (x >>= f) s = f a s₁ := by simp [bind, EStateM.bind, h]
    rw [hbind]
    exact hf a s₁ h
  | error e s₁ =>
    have hbind : (x >>= f) s = .error e s₁ := by simp [bind, EStateM.bind, h]
    rw [hbind]
    rw [h] at hx
    exact hx

@[simp] theorem final_check : final (check g s) = s := by
  unfold check
  cases g s <;> rfl

/-- A computation that fails without a trace ends where it started or where it succeeded. -/
theorem FailsClean.final_eq (hx : FailsClean x) :
    final (x s) = s ∨ ∃ a, x s = .ok a (final (x s)) := by
  cases h : x s with
  | ok a s₁ => exact .inr ⟨a, rfl⟩
  | error e s₁ => exact .inl (hx s e s₁ h)

/-! ## What a computation leads to -/

section Leads

variable {I : σ → Prop} {R : σ → σ → Prop} {Q : α → σ → Prop} {Q' : β → σ → Prop}

/-- The state at the end keeps an invariant and is related to the one at the start, and a result is
as said. -/
def Leads (I : σ → Prop) (R : σ → σ → Prop) (x : EStateM ε σ α) (s : σ) (Q : α → σ → Prop) : Prop :=
  I (final (x s)) ∧ R s (final (x s)) ∧ ∀ a s', x s = .ok a s' → Q a s'

theorem leads_pure (hI : I s) (hR : R s s) (hQ : Q a s) :
    Leads I R (pure a : EStateM ε σ α) s Q := by
  refine ⟨hI, hR, fun a' s' h => ?_⟩
  obtain ⟨rfl, rfl⟩ := pure_eq_ok.mp h
  exact hQ

theorem leads_throw (hI : I s) (hR : R s s) : Leads I R (throw e : EStateM ε σ α) s Q :=
  ⟨hI, hR, fun _ _ h => by cases h⟩

theorem Leads.bind (htrans : ∀ {a b c}, R a b → R b c → R a c) (hx : Leads I R x s Q)
    (hf : ∀ a s₁, I s₁ → R s s₁ → Q a s₁ → Leads I R (f a) s₁ Q') : Leads I R (x >>= f) s Q' := by
  obtain ⟨hI, hR, hQ⟩ := hx
  cases h : x s with
  | ok a s₁ =>
    have hbind : (x >>= f) s = f a s₁ := by simp [Bind.bind, EStateM.bind, h]
    rw [h] at hI hR
    obtain ⟨hI', hR', hQ'⟩ := hf a s₁ hI hR (hQ a s₁ h)
    unfold Leads
    rw [hbind]
    exact ⟨hI', htrans hR hR', hQ'⟩
  | error e s₁ =>
    have hbind : (x >>= f) s = .error e s₁ := by simp [Bind.bind, EStateM.bind, h]
    rw [h] at hI hR
    unfold Leads
    rw [hbind]
    exact ⟨hI, hR, fun _ _ h => by cases h⟩

end Leads

end Montygo.Fallible
