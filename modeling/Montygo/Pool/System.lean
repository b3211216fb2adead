import Montygo.Pool.State
import Montygo.Lib.Transition

/-!
# The pool with its goroutines

`System` adds to the pool what its goroutines hold between their critical
sections: the spawns under way, the leases on acquired workers, the workers a
reaper is waiting for, the reservations.  An `Action` is one atomic move of one
goroutine, so a run is an interleaving.

A lease is in the list from the critical section that counts its worker as active
until the one that takes the worker out of that count.  In between
`checkoutLease` decides once who may end it: `finish` and `terminate` both take
the slot, and only the first finds it.
-/

namespace Montygo.Pool

/-- An acquired worker that is still counted as active. -/
inductive Lease where
  /-- The slot is in the lease. -/
  | held (s : Slot)
  /-- `finish` took the slot, `release` has not run yet. -/
  | releasing (s : Slot)
  /-- `terminate` took the worker, `retireLease` has not run yet. -/
  | terminating (w : WorkerId) (killed : Bool)
  /-- `Handoff` took the slot and has not entered its critical section yet. -/
  | handingOff (s : Slot)
  deriving DecidableEq, Repr

/-- Where the goroutine that owns a reservation stands. -/
inductive Reservation where
  /-- Capacity is held and no `Bind` is running. -/
  | held
  /-- `Bind` is spawning its worker. -/
  | spawning
  /-- `Bind` found the pool closed and left its first critical section. -/
  | closing (w : WorkerId)
  /-- The worker is up and counted as active, its session is being configured. -/
  | configuring (s : Slot)
  /-- Configuring failed and the lease was terminated, `retireLease` has not run yet. -/
  | dropping (w : WorkerId) (killed : Bool)
  /-- The worker of the failed bind is retired, the capacity is not taken back yet. -/
  | dropped
  deriving DecidableEq, Repr

/-- The pool with the local state of every goroutine that uses it. -/
structure System where
  pool : Pool := {}
  /-- Calls of `acquire` between their two critical sections. -/
  spawning : ℕ := 0
  leases : List Lease := []
  /-- Workers a reaper took from the queue and waits for. -/
  reaping : List RetiredWorker := []
  reservations : List Reservation := []
  /-- Calls of `Shutdown` that saw the pool drained and have not closed the queue yet. -/
  drained : ℕ := 0
  deriving DecidableEq, Repr

/-- One atomic move.  `alive`, `result` and `killed` are what the move observes. -/
inductive Action where
  | acquire (alive : WorkerId → Bool)
  | spawned (result : Option WorkerId)
  | finish (s : Slot) (served : Bool)
  | release (s : Slot) (alive : Bool)
  | terminate (s : Slot) (killed : Bool)
  | retireLease (w : WorkerId) (killed : Bool)
  | receive
  | reap (s : RetiredWorker)
  | close
  | waitDrained
  | stopReapers
  | reserve
  | releaseReservation
  | bind
  | bindSpawned (result : Option WorkerId)
  | bindClosed (w : WorkerId)
  | bindSucceeded (s : Slot)
  | bindFailed (s : Slot) (killed : Bool)
  | bindDropped (w : WorkerId) (killed : Bool)
  | reReserve
  | handoff (s : Slot)
  | handoffRetire (s : Slot)

/-- The moves of a goroutine that holds, or is about to hold, a reservation. -/
def Action.reserves : Action → Bool
  | .reserve | .releaseReservation | .bind | .bindSpawned _ | .bindClosed _ | .bindSucceeded _
  | .bindFailed _ _ | .bindDropped _ _ | .reReserve | .handoff _ | .handoffRetire _ => true
  | .acquire _ | .spawned _ | .finish _ _ | .release _ _ | .terminate _ _ | .retireLease _ _
  | .receive | .reap _ | .close | .waitDrained | .stopReapers => false

/-- The moves that keep capacity for a reservation without asking for room, while the
worker they give up goes to the reaper queue or is already there. -/
def Action.takesBack : Action → Bool
  | .reReserve | .handoffRetire _ => true
  | _ => false

/-- The moves after which a reservation has a worker. -/
def Action.brings : Action → Bool
  | .bindSpawned (some _) => true
  | _ => false

/-- Moves a lease on: `old` makes place for the leases in `new`. -/
def System.setLease (s : System) (old : Lease) (new : List Lease) : System :=
  { s with leases := new ++ s.leases.erase old }

/-- Moves a reservation on: `old` makes place for the reservations in `new`. -/
def System.setReservation (s : System) (old : Reservation) (new : List Reservation) : System :=
  { s with reservations := new ++ s.reservations.erase old }

/-- Refuses an action whose goroutine is not where the action starts. -/
def require (condition : Prop) [Decidable condition] : Except Stuck Unit :=
  if condition then .ok () else .error .disabled

/-- One atomic move of the system. -/
def step (cfg : Config) (s : System) : Action → Except Stuck System
  | .acquire alive => do
    let (outcome, p) ← acquireLocked cfg alive s.pool
    match outcome with
    | .slot slot => pure { s with pool := p, leases := .held slot :: s.leases }
    | .spawn => pure { s with pool := p, spawning := s.spawning + 1 }
    | .closed | .wait => pure { s with pool := p }
  | .spawned result => do
    require (0 < s.spawning)
    let (slot, p) ← spawnedLocked cfg result s.pool
    pure { s with
      pool := p
      spawning := s.spawning - 1
      leases := (slot.map Lease.held).toList ++ s.leases }
  | .finish slot served => do
    require (.held slot ∈ s.leases)
    let slot' := if served then { slot with served := slot.served + 1 } else slot
    pure (s.setLease (.held slot) [.releasing slot'])
  | .release slot alive => do
    require (.releasing slot ∈ s.leases)
    let p ← release cfg slot alive s.pool
    pure { s.setLease (.releasing slot) [] with pool := p }
  | .terminate slot killed => do
    require (.held slot ∈ s.leases)
    pure (s.setLease (.held slot) [.terminating slot.w killed])
  | .retireLease w killed => do
    require (.terminating w killed ∈ s.leases)
    let p ← retireLease cfg w killed s.pool
    pure { s.setLease (.terminating w killed) [] with pool := p }
  | .receive => do
    require (s.reaping.length < cfg.reapers)
    match s.pool.reaper with
    | [] => .error .disabled
    | w :: rest =>
      pure { s with pool := { s.pool with reaper := rest }, reaping := w :: s.reaping }
  | .reap w => do
    require (w ∈ s.reaping)
    pure { s with pool := reapedLocked s.pool, reaping := s.reaping.erase w }
  | .close => do
    let p ← close cfg s.pool
    pure { s with pool := p }
  | .waitDrained => do
    require (s.pool.closed = true ∧ s.pool.live = 0)
    pure { s with drained := s.drained + 1 }
  | .stopReapers => do
    require (0 < s.drained)
    pure { s with pool := stopReapers s.pool, drained := s.drained - 1 }
  | .reserve => do
    require (cfg.singleUse = true)
    match reserveLocked cfg s.pool with
    | none => .error .disabled
    | some p => pure { s with pool := p, reservations := .held :: s.reservations }
  | .releaseReservation => do
    require (.held ∈ s.reservations)
    pure { s.setReservation .held [] with pool := releaseReservation s.pool }
  | .bind => do
    require (.held ∈ s.reservations)
    pure (s.setReservation .held [.spawning])
  | .bindSpawned result => do
    require (.spawning ∈ s.reservations)
    match result with
    -- A failed spawn leaves the reservation held, so the caller can try again.
    | none => pure (s.setReservation .spawning [.held])
    | some w =>
      let (closed, p) := bindSpawned s.pool
      if closed then pure { s.setReservation .spawning [.closing w] with pool := p }
      else
        pure { s.setReservation .spawning [.configuring { w := w, served := 0 }] with
          pool := p }
  | .bindClosed w => do
    require (.closing w ∈ s.reservations)
    let p ← bindClosed cfg w s.pool
    pure { s.setReservation (.closing w) [] with pool := p }
  | .bindSucceeded slot => do
    require (.configuring slot ∈ s.reservations)
    let s' := s.setReservation (.configuring slot) []
    pure { s' with leases := .held slot :: s'.leases }
  | .bindFailed slot killed => do
    require (.configuring slot ∈ s.reservations)
    pure (s.setReservation (.configuring slot) [.dropping slot.w killed])
  | .bindDropped w killed => do
    require (.dropping w killed ∈ s.reservations)
    let p ← retireLease cfg w killed s.pool
    pure { s.setReservation (.dropping w killed) [.dropped] with pool := p }
  | .reReserve => do
    require (.dropped ∈ s.reservations)
    pure { s.setReservation .dropped [.held] with pool := reReserveLocked s.pool }
  | .handoff slot => do
    require (.held slot ∈ s.leases)
    pure (s.setLease (.held slot) [.handingOff slot])
  | .handoffRetire slot => do
    require (.handingOff slot ∈ s.leases)
    let p ← handoffLocked cfg slot s.pool
    let s' := s.setLease (.handingOff slot) []
    pure { s' with pool := p, reservations := .held :: s'.reservations }

/-- The pool as `New` leaves it, with the prewarmed workers idle and no goroutine
inside it. -/
def Initial (cfg : Config) (s : System) : Prop :=
  ∃ slots : List Slot, slots.length = cfg.minProcesses ∧ s = { pool := { idle := slots } }

end Montygo.Pool
