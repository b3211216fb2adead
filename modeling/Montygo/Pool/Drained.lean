import Montygo.Pool.Reaper

/-!
# After the pool has drained

`Shutdown` waits until a closed pool has no live worker, and then closes the reaper queue.  A `Bind`
can be at two places that no counter sees: it found the pool closed and has not retired its worker
yet, or it has retired the worker of a failed attempt and not taken the capacity back yet.  The one
sends to the closed queue, which panics, and the other makes the live count rise again.
-/

namespace Montygo.Pool

open Transition Outcome

variable {cfg : Config} {s s' : System}

/-- A closed pool without workers, and without a goroutine that has one. -/
structure Quiet (s : System) : Prop where
  closed : s.pool.closed = true
  live : s.pool.live = 0
  spawning : s.spawning = 0
  leases : s.leases = []
  reaper : s.pool.reaper = []
  reaping : s.reaping = []
  reservations : s.reservations = []

theorem empty_of_live (hs : Accounted s) (hlive : s.pool.live = 0) :
    s.spawning = 0 ∧ s.leases = [] ∧ s.pool.reaper = [] ∧ s.reaping = [] ∧
      ∀ r ∈ s.reservations, r.starting = 0 ∧ r.active = 0 := by
  have hstarting := hs.starting
  have hactive := hs.active
  have hretiring := hs.retiring
  simp only [Pool.live] at hlive
  refine ⟨by omega, List.eq_nil_of_length_eq_zero (by omega),
    List.eq_nil_of_length_eq_zero (by omega), List.eq_nil_of_length_eq_zero (by omega),
    fun r hr => ?_⟩
  have h₁ := le_tally Reservation.starting hr
  have h₂ := le_tally Reservation.active hr
  omega

theorem require_bind_eq_disabled {c : Prop} [Decidable c] {f : Unit → Except Stuck System} :
    (require c >>= f) = .error .disabled ↔ (c → f () = .error .disabled) := by
  unfold require
  split <;> simp_all [bind, Except.bind]

/-- Nothing but another `Shutdown` goes on in a quiet pool. -/
theorem quiet_step (cfg : Config) (hs : Quiet s) (a : Action) :
    step cfg s a = .error .disabled ∨ ∃ s', step cfg s a = .ok s' ∧ Quiet s' := by
  cases a with
  | acquire alive => exact .inr ⟨s, by simp [step, acquireLocked, hs.closed], hs⟩
  | close => exact .inr ⟨s, by simp [step, close, hs.closed], hs⟩
  | waitDrained =>
    exact .inr ⟨{ s with drained := s.drained + 1 },
      bind_eq_ok.mpr ⟨(), require_eq_ok.mpr ⟨hs.closed, hs.live⟩, rfl⟩, { hs with }⟩
  | stopReapers =>
    by_cases hdrained : 0 < s.drained
    · exact .inr ⟨{ s with pool := stopReapers s.pool, drained := s.drained - 1 },
        bind_eq_ok.mpr ⟨(), require_eq_ok.mpr hdrained, rfl⟩, { hs with }⟩
    · exact .inl (require_bind_eq_disabled.mpr fun h => absurd h hdrained)
  -- The others need what is not there.
  | _ =>
    left
    refine require_bind_eq_disabled.mpr ?_
    simp [reserveLocked, hs.closed, hs.spawning, hs.leases, hs.reaper, hs.reaping, hs.reservations]

theorem quiet_run (hs : Quiet s) {actions : List Action}
    (h : run (step cfg) s actions = .ok s') : Quiet s' := by
  have hstart : Reachable (step cfg) (· = s) (fun _ _ => True) s := .initial rfl
  refine (hstart.of_run actions (fun _ _ => trivial) h).invariant (fun _ h => h ▸ hs)
    fun s₁ a s₂ hs₁ _ hstep => ?_
  obtain hdisabled | ⟨_, hok, hs₂⟩ := quiet_step cfg hs₁ a
  · cases hdisabled.symm.trans hstep
  · cases hok.symm.trans hstep
    exact hs₂

/-- **A drained pool stays quiet exactly if no reservation is left.**  Once `Shutdown` has found the
closed pool without live workers, the live count stays zero and nothing is sent to the closed queue,
if and only if no `Bind` is under way. -/
theorem quiet_iff (hreach : Reachable (step cfg) (Initial cfg) (fun _ _ => True) s)
    (hclosed : s.pool.closed = true) (hlive : s.pool.live = 0) :
    (∀ actions s', run (step cfg) s actions = .ok s' →
      s'.pool.live = 0 ∧ ∀ a, step cfg s' a ≠ .error .queueClosed) ↔ s.reservations = [] := by
  have hs : Accounted s := by
    refine hreach.invariant (fun _ h => accounted_initial h) fun _ _ _ hs _ h => ?_
    obtain ⟨d, hchange, -⟩ := step_explained h
    exact hchange.accounted hs
  obtain ⟨hspawning, hleases, hreaper, hreaping, huncounted⟩ := empty_of_live hs hlive
  refine ⟨fun hquiet => ?_, fun hnone actions s' h => ?_⟩
  · refine List.eq_nil_iff_forall_not_mem.mpr fun r hr => ?_
    have hstop : run (step cfg) s [.waitDrained, .stopReapers] =
        .ok { s with pool := stopReapers s.pool } := by
      simp [run, step, require, hclosed, hlive, bind, Except.bind, pure, Except.pure]
    specialize huncounted r hr
    cases r with
    | held | spawning => cases huncounted.1
    | configuring | dropping => cases huncounted.2
    | closing w =>
      refine (hquiet _ _ hstop).2 (.bindClosed w) ?_
      simp [step, require, hr, bindClosed, retireLocked, stopReapers, bind, Except.bind]
    | dropped =>
      have htaken : run (step cfg) s [.waitDrained, .stopReapers, .reReserve] = .ok
          { s.setReservation .dropped [.held] with
            pool := reReserveLocked (stopReapers s.pool) } := by
        simp [run, step, require, hclosed, hlive, hr, bind, Except.bind, pure, Except.pure,
          System.setReservation]
      have hzero := (hquiet _ _ htaken).1
      simp only [Pool.live, reReserveLocked, stopReapers] at hlive hzero
      omega
  · have hs' := quiet_run ⟨hclosed, hlive, hspawning, hleases, hreaper, hreaping, hnone⟩ h
    refine ⟨hs'.live, fun a ha => ?_⟩
    obtain hdisabled | ⟨_, hok, -⟩ := quiet_step cfg hs' a
    · cases hdisabled.symm.trans ha
    · cases hok.symm.trans ha

/-- A `Bind` that fails, one that is bound, both workers reaped, and `Close`. -/
def boundAndClosed : List Action :=
  [.reserve] ++ failedBind 0 ++ [.receive, .reap ⟨0, false⟩, .bind, .bindSpawned (some 1),
    .bindSucceeded ⟨1, 0⟩, .terminate ⟨1, 0⟩ true, .retireLease 1 true, .receive, .reap ⟨1, true⟩,
    .close]

theorem quiet_iff_boundAndClosed : ∃ s, run (step (singleUsePool 0)) {} boundAndClosed = .ok s ∧
    ∀ actions s', run (step (singleUsePool 0)) s actions = .ok s' →
      s'.pool.live = 0 ∧ ∀ a, step (singleUsePool 0) s' a ≠ .error .queueClosed := by
  have hstart : Reachable (step (singleUsePool 0)) (Initial (singleUsePool 0))
      (fun _ _ => True) {} := .initial ⟨[], rfl, rfl⟩
  have hreach := hstart.of_run boundAndClosed (fun _ _ => trivial) rfl
  exact ⟨_, rfl, (quiet_iff hreach rfl rfl).mpr rfl⟩

/-- **A worker is sent to the closed queue, and a capacity comes back.**  The pool is closed while a
`Bind` spawns; a failed `Bind` takes its capacity back after `Shutdown`. -/
theorem bind_outlives_shutdown : (∃ s, run (step (singleUsePool 0)) {}
        [.reserve, .bind, .close, .bindSpawned (some 0), .waitDrained, .stopReapers] = .ok s ∧
      step (singleUsePool 0) s (.bindClosed 0) = .error .queueClosed) ∧
    ∃ s, run (step (singleUsePool 0)) {} ([.reserve] ++ (failedBind 0).take 4 ++
        [.receive, .reap ⟨0, false⟩, .close, .waitDrained, .stopReapers, .reReserve]) = .ok s ∧
      s.pool.reaped = true ∧ s.pool.live = 1 :=
  ⟨⟨_, rfl, rfl⟩, _, rfl, rfl, rfl⟩

end Montygo.Pool
