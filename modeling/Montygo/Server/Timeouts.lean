import Montygo.Server.TurnDeadline

/-!
# The timeouts of a session

The session timeout runs from the opening and is never moved; the idle timeout and the timeout of a
checkout are armed wherever the task waits for them.
-/

namespace Montygo.Server

open Transition

variable {cfg : Config} {start : Time} {s s' : System} {a : Action}

/-- The timers of a session that was opened at `start`. -/
structure Timed (cfg : Config) (start : Time) (s : System) : Prop where
  session : s.session.sessionDeadline = cfg.sessionTimeout.map (start + ·)
  idle : s.phase = .waiting → ∀ limit, cfg.idleTimeout = some limit →
    ∃ d, s.session.idleDeadline = some d ∧ d ≤ s.now + limit
  checkout : ∀ deadline, s.phase = .configuring deadline → ∀ limit, cfg.turnTimeout = some limit →
    ∃ d, deadline = some d ∧ d ≤ s.now + limit

section

variable (h : s.session.sessionDeadline = cfg.sessionTimeout.map (start + ·))

include h

theorem timed_armIdle (hphase : s.phase = .waiting) : Timed cfg start (armIdle cfg s) := by
  refine ⟨h, fun _ limit hlimit => ⟨s.now + limit, by simp [armIdle, hlimit], le_rfl⟩, ?_⟩
  intro deadline hconfiguring
  cases hphase.symm.trans hconfiguring

/-- Where the task waits for neither a request nor a checkout. -/
theorem timed_of_ne (hwaiting : s.phase ≠ .waiting)
    (hconfiguring : ∀ deadline, s.phase ≠ .configuring deadline) : Timed cfg start s :=
  ⟨h, fun hphase => absurd hphase hwaiting,
    fun deadline hphase => absurd hphase (hconfiguring deadline)⟩

end

theorem timed_step (h : Timed cfg start s) (hstep : step cfg s a = .ok s') :
    Timed cfg start s' := by
  have hsession := h.session
  cases step_moves hstep with
  | ticks d =>
    refine ⟨hsession, fun hphase limit hlimit => ?_, fun deadline hphase limit hlimit => ?_⟩
    · obtain ⟨due, hdue, hle⟩ := h.idle hphase limit hlimit
      exact ⟨due, hdue, hle.trans (by grind)⟩
    · obtain ⟨due, hdue, hle⟩ := h.checkout deadline hphase limit hlimit
      exact ⟨due, hdue, hle.trans (by grind)⟩
  | drains | buffers => exact ⟨hsession, h.idle, h.checkout⟩
  | takes _ _ hhandled =>
    cases hhandled with
    | ends | runs =>
      exact timed_of_ne hsession (by simp [System.finish, turn]) (by simp [System.finish, turn])
    | checksOut =>
      refine ⟨hsession, fun hphase => (by cases hphase), fun deadline hphase limit hlimit => ?_⟩
      cases hphase
      exact ⟨s.now + limit, by simp [hlimit, System.taking], le_rfl⟩
    | answers => exact timed_armIdle hsession rfl
  | connects => exact timed_armIdle hsession rfl
  | returns =>
    refine timed_armIdle ?_ rfl
    rw [← hsession]
    simp only [noted]
    split_ifs <;> rfl
  | ends => exact timed_of_ne hsession (by simp [System.finish]) (by simp [System.finish])

/-- The task is at one of its `select!` loops: it waits for a request, with none pending, for a
checkout or for the worker's answer. -/
def System.Selects (s : System) : Prop :=
  match s.phase with
  | .waiting => s.session.pending = none
  | .configuring _ | .turning _ _ => True
  | .ended _ => False

/-- **Each of the three `select!` loops of a session can be timed out.**  If nothing happens but
that time passes: the idle timer ends the loop that waits for a request, the turn timer the one that
waits for a checkout, and the session timer the loops that wait for a request or for the worker,
once the session timeout has passed since the opening and not before. -/
theorem select_loops_time_out
    (hreach : Reachable (step cfg) (· = opened cfg start) (fun _ _ => True) s)
    (hselects : s.Selects) (d : Time) :
    (∀ limit ≤ d, cfg.idleTimeout = some limit → s.phase = .waiting →
      run (step cfg) s [.tick d, .expire .idle] =
        .ok ({ s with now := s.now + d }.finish (.timeout .idle))) ∧
    (∀ limit ≤ d, cfg.turnTimeout = some limit → (∃ due, s.phase = .configuring due) →
      run (step cfg) s [.tick d, .expire .turn] =
        .ok ({ s with now := s.now + d }.finish (.timeout .turn))) ∧
    ∀ limit, cfg.sessionTimeout = some limit → (∀ due, s.phase ≠ .configuring due) →
      run (step cfg) s [.tick d, .expire .session] =
        if start + limit ≤ s.now + d then
          .ok ({ s with now := s.now + d }.finish (.timeout .session))
        else .error .notNow := by
  have hs : Timed cfg start s := by
    refine hreach.invariant ?_ fun _ _ _ hs _ hstep => timed_step hs hstep
    rintro _ rfl
    exact timed_armIdle (s := opened cfg start) rfl rfl
  refine ⟨fun limit hd hlimit hphase => ?_, fun limit hd hlimit hphase => ?_,
    fun limit hlimit hphase => ?_⟩
  · obtain ⟨due, hdue, hle⟩ := hs.idle hphase limit hlimit
    simp only [run, step, System.deadline, hphase, hdue, if_true]
    rw [if_pos (hle.trans (Nat.add_le_add_left hd _))]
  · obtain ⟨_, hphase⟩ := hphase
    obtain ⟨due, rfl, hle⟩ := hs.checkout _ hphase limit hlimit
    simp only [run, step, System.deadline, hphase]
    rw [if_pos (hle.trans (Nat.add_le_add_left hd _))]
  · have hdue : s.session.sessionDeadline = some (start + limit) := by simp [hs.session, hlimit]
    cases hp : s.phase with
    | configuring due => exact absurd hp (hphase due)
    | ended why => simp only [System.Selects, hp] at hselects
    | waiting | turning =>
      simp only [run, step, System.deadline, hp, hdue]
      split_ifs <;> rfl

/-- A server with an idle timeout of ten and a session timeout of twenty. -/
def allTimeouts : Config := { tenSeconds with idleTimeout := some 10, sessionTimeout := some 20 }

/-- A session whose worker is at a feed, which its client started after seven seconds; it waits for
the checkout after the first action. -/
def feeding : List Action :=
  [.inbound (.request (.request (.configure 1))) true, .tick 4, .checkedOut true true, .tick 3,
    .inbound (.request (.request .feed)) true]

theorem select_loops_time_out_feeding : ∃ s₁ s₂ s₃,
    run (step allTimeouts) (opened allTimeouts 0) (feeding.take 1) = .ok s₁ ∧
    run (step allTimeouts) (opened allTimeouts 0) (feeding.take 4) = .ok s₂ ∧
    run (step allTimeouts) (opened allTimeouts 0) feeding = .ok s₃ ∧
    run (step allTimeouts) s₁ [.tick 10, .expire .turn] =
      .ok ({ s₁ with now := s₁.now + 10 }.finish (.timeout .turn)) ∧
    run (step allTimeouts) s₂ [.tick 10, .expire .idle] =
      .ok ({ s₂ with now := s₂.now + 10 }.finish (.timeout .idle)) ∧
    run (step allTimeouts) s₃ [.tick 12, .expire .session] = .error .notNow ∧
    run (step allTimeouts) s₃ [.tick 13, .expire .session] =
      .ok ({ s₃ with now := s₃.now + 13 }.finish (.timeout .session)) := by
  have hopened : Reachable (step allTimeouts) (· = opened allTimeouts 0) (fun _ _ => True)
      (opened allTimeouts 0) := .initial rfl
  have hconfiguring := hopened.of_run (feeding.take 1) (fun _ _ => trivial) rfl
  have hwaiting := hopened.of_run (feeding.take 4) (fun _ _ => trivial) rfl
  have hturning := hopened.of_run feeding (fun _ _ => trivial) rfl
  refine ⟨_, _, _, rfl, rfl, rfl, ?_, ?_, ?_, ?_⟩
  · exact (select_loops_time_out hconfiguring trivial 10).2.1 10 le_rfl rfl ⟨_, rfl⟩
  · exact (select_loops_time_out hwaiting rfl 10).1 10 le_rfl rfl rfl
  · exact (select_loops_time_out hturning trivial 12).2.2 20 rfl (fun _ h => by cases h)
  · exact (select_loops_time_out hturning trivial 13).2.2 20 rfl (fun _ h => by cases h)

end Montygo.Server
