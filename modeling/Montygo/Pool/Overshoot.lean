import Montygo.Pool.Reaper

/-!
# How far reservations take a pool over its capacity

`reReserve` and `Handoff` take a unit back for a reservation without asking for room.  Each of them
is charged here with the one unit that it may add.
-/

namespace Montygo.Pool

open Transition

variable {cfg : Config} {s s' : System} {a : Action} {actions : List Action} {n : ℕ}

theorem over_run (hs : Over cfg true n s) (h : run (step cfg) s actions = .ok s') :
    Over cfg true (n + actions.countP Action.takesBack) s' := by
  induction actions generalizing s n with
  | nil =>
    cases h
    exact hs
  | cons a rest ih =>
    obtain ⟨s₁, hstep, hrest⟩ := exists_of_run_cons h
    have hroom : s.committed true + (if a.commits true then 1 else 0) ≤
        cfg.maxProcesses + (n + if a.takesBack then 1 else 0 : ℕ) := by
      have hle := hs.committed
      simp only [Action.commits, if_true]
      split <;> push_cast <;> omega
    have hover := ih (over_step hs hroom hstep) hrest
    rwa [List.countP_cons, Nat.add_comm (rest.countP _), ← Nat.add_assoc]

/-- **A reservation that takes its capacity back adds at most one worker.**  In every interleaving,
the workers that are started, leased, idle or queued for a reaper and those a reservation stands for
are at most `MaxProcesses` and one for each `reReserve` and each `Handoff` so far. -/
theorem workers_le_of_taken_back (hinit : Initial cfg s) (h : run (step cfg) s actions = .ok s') :
    s'.spawning + s'.leases.length + s'.pool.idle.length + s'.pool.reaper.length +
        tally (fun r => r.starting + r.active + r.uncounted) s'.reservations ≤
      cfg.maxProcesses + actions.countP Action.takesBack := by
  have hover : Over cfg true _ s' := over_run (over_initial hinit) h
  have hle := hover.committed
  have hstarting := hover.accounted.starting
  have hactive := hover.accounted.active
  simp only [System.committed, if_true, tally] at hle hstarting hactive
  simp only [tally, List.sum_map_add]
  omega

/-- Two failed binds in a pool of one worker: one of their workers is with the reaper and one in the
queue, and the reservation still stands for a third. -/
def failedTwice : List Action := [.reserve] ++ failedBind 0 ++ [.receive] ++ failedBind 1

theorem workers_le_of_taken_back_failedTwice :
    ∃ s', run (step (singleUsePool 0)) {} failedTwice = .ok s' ∧ s'.pool.reaper.length = 1 ∧
      tally (fun r => r.starting + r.active + r.uncounted) s'.reservations ≤ 2 := by
  obtain ⟨s', hrun, hreaper⟩ : ∃ s', run (step (singleUsePool 0)) {} failedTwice = .ok s' ∧
      s'.pool.reaper.length = 1 := ⟨_, rfl, rfl⟩
  have hle := workers_le_of_taken_back ⟨[], rfl, rfl⟩ hrun
  have hbound : (singleUsePool 0).maxProcesses + failedTwice.countP Action.takesBack = 3 := rfl
  exact ⟨s', hrun, hreaper, by omega⟩

end Montygo.Pool
