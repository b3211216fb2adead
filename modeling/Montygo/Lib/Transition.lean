import Mathlib.Data.List.Basic

/-!
# Runs and invariants of a step function

A concurrent component is modelled by a step function `σ → α → Except ε σ`: one
action of one goroutine either changes the state or is refused, with a reason.
`Reachable` collects the states of all interleavings, since nothing fixes which
action comes next.  It carries a guard on the steps, so that "in every run whose
steps all meet this condition" and "in every run" (the guard `fun _ _ => True`)
are the same notion.
-/

namespace Montygo.Transition

variable {σ α ε : Type*}

/-- The states reached from an initial one by steps that meet the guard. -/
inductive Reachable (step : σ → α → Except ε σ) (init : σ → Prop) (guard : σ → α → Prop) :
    σ → Prop
  | initial {s : σ} (hinit : init s) : Reachable step init guard s
  | step {s s' : σ} {a : α} (hreach : Reachable step init guard s) (hguard : guard s a)
      (hstep : step s a = .ok s') : Reachable step init guard s'

variable {step : σ → α → Except ε σ} {init : σ → Prop} {guard : σ → α → Prop}

/-- What holds initially and is kept by every guarded step holds in every reachable state. -/
theorem Reachable.invariant {P : σ → Prop} (hinit : ∀ s, init s → P s)
    (hkeep : ∀ s a s', P s → guard s a → step s a = .ok s' → P s')
    {s : σ} (hreach : Reachable step init guard s) : P s := by
  induction hreach with
  | initial h => exact hinit _ h
  | step _ hguard hstep ih => exact hkeep _ _ _ ih hguard hstep

/-- Takes the listed actions one after another. -/
def run (step : σ → α → Except ε σ) : σ → List α → Except ε σ
  | s, [] => .ok s
  | s, a :: rest =>
    match step s a with
    | .ok s' => run step s' rest
    | .error e => .error e

theorem run_cons {s s' : σ} {a : α} {rest : List α} (h : step s a = .ok s') :
    run step s (a :: rest) = run step s' rest := by
  rw [run, h]

theorem exists_of_run_cons {s s' : σ} {a : α} {rest : List α}
    (h : run step s (a :: rest) = .ok s') :
    ∃ s₁, step s a = .ok s₁ ∧ run step s₁ rest = .ok s' := by
  unfold run at h
  split at h
  · exact ⟨_, ‹_›, h⟩
  · cases h

/-- A run whose actions all meet a guard on actions ends in a reachable state. -/
theorem Reachable.of_run {g : α → Prop} {s s' : σ} (hreach : Reachable step init (fun _ a => g a) s)
    (actions : List α) (hguard : ∀ a ∈ actions, g a)
    (hrun : run step s actions = .ok s') : Reachable step init (fun _ a => g a) s' := by
  induction actions generalizing s with
  | nil =>
    cases hrun
    exact hreach
  | cons a rest ih =>
    simp only [run] at hrun
    split at hrun
    · rename_i next hnext
      have hrest : ∀ b ∈ rest, g b := fun b hb => hguard b (List.mem_cons_of_mem a hb)
      exact ih (.step hreach (hguard a List.mem_cons_self) hnext) hrest hrun
    · cases hrun

/-- The guard holds before each of the listed actions. -/
def Guarded (step : σ → α → Except ε σ) (guard : σ → α → Prop) : σ → List α → Prop
  | _, [] => True
  | s, a :: rest => guard s a ∧ ∀ s', step s a = .ok s' → Guarded step guard s' rest

/-- A run that meets the guard all along ends in a reachable state. -/
theorem Reachable.of_guarded {s s' : σ} (hreach : Reachable step init guard s) (actions : List α)
    (hguard : Guarded step guard s actions) (hrun : run step s actions = .ok s') :
    Reachable step init guard s' := by
  induction actions generalizing s with
  | nil =>
    cases hrun
    exact hreach
  | cons a rest ih =>
    simp only [run] at hrun
    split at hrun
    · rename_i next hnext
      exact ih (.step hreach hguard.1 hnext) (hguard.2 next hnext) hrun
    · cases hrun

/-! ## Labelled runs and simulation -/

/-- A run of a labelled step relation, with its labels in order. -/
inductive Runs (step : σ → α → σ → Prop) : σ → List α → σ → Prop
  | nil (s : σ) : Runs step s [] s
  | cons {s s₁ s' : σ} {a : α} {rest : List α} (hstep : step s a s₁)
      (hrest : Runs step s₁ rest s') : Runs step s (a :: rest) s'

/-- Two runs with the same labels, related before the first and after each step. -/
inductive Matched {τ : Type*} (step : σ → α → σ → Prop) (step' : τ → α → τ → Prop)
    (R : σ → τ → Prop) : σ → τ → List α → σ → τ → Prop
  | nil {s : σ} {t : τ} (hR : R s t) : Matched step step' R s t [] s t
  | cons {s s₁ s' : σ} {t t₁ t' : τ} {a : α} {rest : List α} (hR : R s t) (hstep : step s a s₁)
      (hstep' : step' t a t₁) (hrest : Matched step step' R s₁ t₁ rest s' t') :
      Matched step step' R s t (a :: rest) s' t'

section Simulation

variable {τ : Type*} {step : σ → α → σ → Prop} {step' : τ → α → τ → Prop} {R R' : σ → τ → Prop}

/-- A relation that every step keeps, by a step with the same label on the other side,
matches every run. -/
theorem Runs.simulate (hkeep : ∀ s a s' t, R s t → step s a s' → ∃ t', step' t a t' ∧ R s' t')
    {s s' : σ} {labels : List α} (hrun : Runs step s labels s') {t : τ} (hR : R s t) :
    ∃ t', Matched step step' R s t labels s' t' := by
  induction hrun generalizing t with
  | nil s => exact ⟨t, .nil hR⟩
  | cons hstep _ ih =>
    obtain ⟨t₁, hstep', hR₁⟩ := hkeep _ _ _ t hR hstep
    obtain ⟨t', hrest⟩ := ih hR₁
    exact ⟨t', .cons hR hstep hstep' hrest⟩

theorem Matched.mono (hmono : ∀ s t, R s t → R' s t) {s s' : σ} {t t' : τ} {labels : List α}
    (h : Matched step step' R s t labels s' t') : Matched step step' R' s t labels s' t' := by
  induction h with
  | nil hR => exact .nil (hmono _ _ hR)
  | cons hR hstep hstep' _ ih => exact .cons (hmono _ _ hR) hstep hstep' ih

end Simulation

end Montygo.Transition
