import Mathlib.Data.Int.Basic
import Mathlib.Data.List.Basic

/-!
# The worker pool and its critical sections

`Pool` is the part of the pool that its mutex guards, and every definition below
is one critical section: the code between a `p.mu.Lock()` and the matching
`p.mu.Unlock()`.  Workers that leave the pool are sent to the reaper queue, a
channel of capacity `MaxProcesses`, while the mutex is held.  A send that finds
the channel full blocks there, with the mutex that the reapers need to make
progress; a send on the closed channel panics.  Both end the section in `Stuck`.

What the environment decides (whether a worker is alive, what a spawn returns) is
an argument of the section.  Metrics and observers are left out: they read the
counters and change nothing.
-/

namespace Montygo

namespace Pool

/-- A worker, named by the order in which the spawner made it. -/
abbrev WorkerId := ℕ

/-- The pool's configuration as `New` accepts it. -/
structure Config where
  minProcesses : ℕ
  maxProcesses : ℕ
  maxCheckoutsPerWorker : ℕ
  singleUse : Bool
  maxProcesses_pos : 0 < maxProcesses
  minProcesses_le : minProcesses ≤ maxProcesses
  singleUse_min : singleUse = true → minProcesses = 0

/-- The checks of `New`: a single-use pool never prewarms, and the sizes must fit. -/
def Config.new (minProcesses maxProcesses maxCheckoutsPerWorker : ℕ) (singleUse : Bool) :
    Option Config :=
  let min := if singleUse then 0 else minProcesses
  if h : maxProcesses = 0 ∨ min > maxProcesses then none
  else
    some {
      minProcesses := min
      maxProcesses := maxProcesses
      maxCheckoutsPerWorker := maxCheckoutsPerWorker
      singleUse := singleUse
      maxProcesses_pos := by omega
      minProcesses_le := by omega
      singleUse_min := by intro hs; simp [min, hs] }

/-- At most eight goroutines reap. -/
def maxReapers : ℕ := 8

/-- The number of reaper goroutines `New` starts. -/
def Config.reapers (cfg : Config) : ℕ := min cfg.maxProcesses maxReapers

/-- A worker with the number of checkouts it served. -/
structure Slot where
  w : WorkerId
  served : ℕ
  deriving DecidableEq, Repr

/-- A worker on its way out; `killed` when nothing has to be sent to it any more. -/
structure RetiredWorker where
  w : WorkerId
  killed : Bool
  deriving DecidableEq, Repr

end Pool

open Pool in
/-- The state under the pool's mutex.  `idle` lists the idle slots with the one
returned last first, `reaper` is the content of the reaper channel and `reaped`
says that the channel was closed. -/
structure Pool where
  idle : List Slot := []
  starting : ℤ := 0
  active : ℤ := 0
  retiring : ℤ := 0
  closed : Bool := false
  reaper : List RetiredWorker := []
  reaped : Bool := false
  deriving DecidableEq, Repr

namespace Pool

/-- Why an action does not go through: it is not enabled, or its goroutine is caught
at a send to the reaper queue. -/
inductive Stuck where
  | disabled
  | queueFull
  | queueClosed
  deriving DecidableEq, Repr

/-- The workers that count toward the capacity. -/
def live (p : Pool) : ℤ := p.starting + p.active + p.idle.length + p.retiring

/-- Hands a worker to the reaper; it counts toward the capacity until it has exited. -/
def retireLocked (cfg : Config) (p : Pool) (s : RetiredWorker) : Except Stuck Pool :=
  if p.reaped then .error .queueClosed
  else if p.reaper.length < cfg.maxProcesses then
    .ok { p with retiring := p.retiring + 1, reaper := p.reaper ++ [s] }
  else .error .queueFull

/-! ## Acquiring and releasing -/

/-- The loop over the idle slots: the first live worker is taken, dead ones are
retired on the way. -/
def acquireIdle (cfg : Config) (alive : WorkerId → Bool) :
    List Slot → Pool → Except Stuck (Option Slot × Pool)
  | [], p => .ok (none, { p with idle := [] })
  | s :: rest, p =>
    if alive s.w then .ok (some s, { p with idle := rest, active := p.active + 1 })
    else
      match retireLocked cfg { p with idle := rest } { w := s.w, killed := true } with
      | .ok p' => acquireIdle cfg alive rest p'
      | .error e => .error e

/-- What the first critical section of `acquire` leaves its caller to do. -/
inductive Acquired where
  | closed
  | slot (s : Slot)
  | spawn
  | wait
  deriving DecidableEq, Repr

/-- The first critical section of `acquire`. -/
def acquireLocked (cfg : Config) (alive : WorkerId → Bool) (p : Pool) :
    Except Stuck (Acquired × Pool) :=
  if p.closed then .ok (.closed, p)
  else
    match (if cfg.singleUse then .ok (none, p) else acquireIdle cfg alive p.idle p) with
    | .error e => .error e
    | .ok (some s, p') => .ok (.slot s, p')
    | .ok (none, p') =>
      if p'.live < cfg.maxProcesses then
        .ok (.spawn, { p' with starting := p'.starting + 1 })
      else .ok (.wait, p')

/-- The second critical section of `acquire`, after the spawn returned: `none` is a
failed spawn. -/
def spawnedLocked (cfg : Config) (result : Option WorkerId) (p : Pool) :
    Except Stuck (Option Slot × Pool) :=
  let p := { p with starting := p.starting - 1 }
  match result with
  | none => .ok (none, p)
  | some w =>
    if p.closed then
      match retireLocked cfg p { w := w, killed := false } with
      | .ok p' => .ok (none, p')
      | .error e => .error e
    else .ok (some { w := w, served := 0 }, { p with active := p.active + 1 })

/-- `release`: the worker is recycled or goes back to the idle slots. -/
def release (cfg : Config) (s : Slot) (alive : Bool) (p : Pool) : Except Stuck Pool :=
  let p := { p with active := p.active - 1 }
  if cfg.singleUse || p.closed || !alive ||
      (decide (0 < cfg.maxCheckoutsPerWorker) && decide (cfg.maxCheckoutsPerWorker ≤ s.served)) then
    retireLocked cfg p { w := s.w, killed := false }
  else .ok { p with idle := s :: p.idle }

/-- `retireLease`: a terminated checkout's worker goes to the reaper. -/
def retireLease (cfg : Config) (w : WorkerId) (killed : Bool) (p : Pool) : Except Stuck Pool :=
  retireLocked cfg { p with active := p.active - 1 } { w := w, killed := killed }

/-- The critical section of `reap`, once the worker has exited. -/
def reapedLocked (p : Pool) : Pool := { p with retiring := p.retiring - 1 }

/-! ## Closing -/

/-- Retires the listed slots in order. -/
def retireAll (cfg : Config) : List Slot → Pool → Except Stuck Pool
  | [], p => .ok p
  | s :: rest, p =>
    match retireLocked cfg p { w := s.w, killed := false } with
    | .ok p' => retireAll cfg rest p'
    | .error e => .error e

/-- `Close`: no checkout is admitted any more and the idle workers are retired. -/
def close (cfg : Config) (p : Pool) : Except Stuck Pool :=
  if p.closed then .ok p
  else retireAll cfg p.idle.reverse { p with closed := true, idle := [] }

/-- `stopReapers` closes the reaper channel. -/
def stopReapers (p : Pool) : Pool := { p with reaped := true }

/-! ## Reservations -/

/-- `Reserve`: `none` when the caller has to wait or the pool is closed. -/
def reserveLocked (cfg : Config) (p : Pool) : Option Pool :=
  if p.closed then none
  else if p.live < cfg.maxProcesses then some { p with starting := p.starting + 1 }
  else none

/-- `releaseLocked` of a held reservation. -/
def releaseReservation (p : Pool) : Pool := { p with starting := p.starting - 1 }

/-- What the first critical section of `Bind` finds once its worker is up. -/
def bindSpawned (p : Pool) : Bool × Pool :=
  let closed := p.closed
  let p := { p with starting := p.starting - 1 }
  if closed then (true, p) else (false, { p with active := p.active + 1 })

/-- The second critical section of `Bind` when the pool was closed meanwhile. -/
def bindClosed (cfg : Config) (w : WorkerId) (p : Pool) : Except Stuck Pool :=
  retireLocked cfg p { w := w, killed := false }

/-- `reReserveLocked`: a failed bind takes its capacity back without asking for room. -/
def reReserveLocked (p : Pool) : Pool := { p with starting := p.starting + 1 }

/-- The critical section of `Handoff`: the capacity stays, the worker is retired. -/
def handoffLocked (cfg : Config) (s : Slot) (p : Pool) : Except Stuck Pool :=
  retireLocked cfg { p with active := p.active - 1, starting := p.starting + 1 }
    { w := s.w, killed := false }

end Pool

end Montygo
