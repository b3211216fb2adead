import Montygo.Pool.State
import Montygo.Lib.Transition

/-!
# How a worker leaves its checkout

A checkout has its worker on a lease.  Calls run under the checkout's mutex, one at a time, and
`Terminate` and `Abandon` run beside them without it.  `Finish` and `Handoff` take the slot out of
the lease, and so does every path that gives the worker up; whoever finds the slot there goes on to
`release`, to the critical section of `Handoff`, or to the kill and `retireLease`.

`Send` of a local worker has one more way to kill it.  It arms `context.AfterFunc(ctx, w.Kill)`
while it writes the request, and disarms it when it returns; a context that ends in between starts a
goroutine, which no one waits for.

Each checkout keeps a log of what it did to its worker.  `System` has all checkouts over one pool,
so that a worker that was released can be acquired by another checkout while calls of the first
are still under way.
-/

namespace Montygo.Pool.CheckoutLease

open Transition

/-! ## The lease -/

/-- `checkoutLease`: the slot until someone takes it, and the worker. -/
structure Lease where
  slot : Option Slot
  worker : WorkerId
  deriving DecidableEq

namespace Lease

variable (l : Lease)

def active : Bool := l.slot.isSome

def finish : Option Slot × Lease := (l.slot, { l with slot := none })

def terminate : Option WorkerId × Lease :=
  match l.slot with
  | none => (none, l)
  | some _ => (some l.worker, { l with slot := none })

end Lease

/-! ## Calls -/

/-- The calls under the mutex.  `configure` is the one inside `Pool.Checkout` and `Bind`, `call`
stands for those that leave the worker where it is unless their turn fails. -/
inductive Op where
  | configure
  | call
  | finish
  | handoff
  deriving DecidableEq

/-- What a checkout did to its worker, or that a call after which it has no worker returned. -/
inductive Happening where
  | killed (w : WorkerId)
  | retired (w : WorkerId)
  | released (w : WorkerId)
  | handedOff (w : WorkerId)
  | ended
  deriving DecidableEq

/-- Where the call under the mutex stands. -/
inductive Pc where
  /-- About to look at the lease, in `ensureReady` or `Finish`. -/
  | checking (op : Op)
  /-- About to look at the lease in `turn`. -/
  | ensuring (op : Op)
  /-- In a turn. -/
  | turning (op : Op)
  /-- About to terminate the lease in `discard`, for the last time in the call or not. -/
  | discarding (op : Op) (last : Bool)
  /-- The lease is terminated, the worker is about to be killed. -/
  | killing (op : Op) (last : Bool) (w : WorkerId)
  /-- The worker is about to be retired. -/
  | retiring (op : Op) (last : Bool) (w : WorkerId)
  /-- About to finish the lease. -/
  | finishing (op : Op)
  | releasing (s : Slot)
  | handing (s : Slot)
  deriving DecidableEq

/-- Where a `Terminate`, with `force`, or an `Abandon` stands. -/
inductive Loose where
  | terminating (force : Bool)
  | killing (force : Bool) (w : WorkerId)
  | retiring (killed : Bool) (w : WorkerId)
  deriving DecidableEq

/-- What decides how a call goes on. -/
inductive Choice where
  | go
  /-- An argument or a pending suspension ends the call. -/
  | stop
  /-- A turn was left in flight. -/
  | inFlight
  /-- The turn ended in an error that keeps the worker. -/
  | kept
  /-- The worker is given up, after it was killed or not for not exiting in time. -/
  | discarded (kill : Bool)
  /-- The turn configured the session, and a dump is loaded. -/
  | again
  deriving DecidableEq

/-- A checkout: `owner` is the call that has the mutex.  `late` says that the kill which a `Send`
started has yet to run; `Kill` acts once, so that a second one makes no difference. -/
structure Checkout where
  lease : Lease
  owner : Option Pc
  loose : List Loose := []
  late : Bool := false
  log : List Happening := []
  deriving DecidableEq

namespace Checkout

variable (cfg : Config) (remote : Bool) (c : Checkout) (p : Pool)

/-- The call goes on at `pc`, or returns. -/
def goes (pc : Option Pc) : Checkout := { c with owner := pc }

def logs (h : List Happening) : Checkout := { c with log := c.log ++ h }

/-- A call whose worker is gone returns. -/
def ends : Checkout := (c.goes none).logs [.ended]

/-- What follows on a `discard`: `Finish` and the calls that configure a session drop their
worker once more. -/
def discarded (op : Op) (last : Bool) : Checkout :=
  if last then c.ends else c.goes (some (.discarding op true))

/-- `ensureReady`, or the first lines of `Finish`. -/
def checking (op : Op) (choice : Choice) : Except Stuck Checkout :=
  if !c.lease.active then
    match op with
    | .finish => .ok c.ends
    | _ => .ok (c.goes none)
  else
    match choice, op with
    | .stop, .call | .stop, .handoff => .ok (c.goes none)
    | .inFlight, _ => .ok (c.goes (some (.discarding op true)))
    | .go, .call => .ok (c.goes (some (.ensuring .call)))
    | .go, .finish =>
      if remote then .ok (c.goes (some (.finishing .finish)))
      else .ok (c.goes (some (.ensuring .finish)))
    | .go, .handoff =>
      if remote then .ok (c.goes (some (.finishing .handoff))) else .ok (c.goes none)
    | _, _ => .error .disabled

/-- `ensureReady` in `turn`. -/
def ensuring (op : Op) (choice : Choice) : Except Stuck Checkout :=
  if !c.lease.active then
    match op with
    | .call => .ok (c.goes none)
    | _ => .ok (c.goes (some (.discarding op true)))
  else
    match choice with
    | .inFlight => .ok (c.goes (some (.discarding op (op = .call))))
    | .go => .ok (c.goes (some (.turning op)))
    | _ => .error .disabled

/-- The end of a turn, and of `reap` in it: only a local worker is waited for and killed. -/
def turning (op : Op) (choice : Choice) : Except Stuck Checkout :=
  match choice, op with
  | .go, .finish => .ok (c.goes (some (.finishing .finish)))
  | .go, _ => .ok (c.goes none)
  | .again, .configure => .ok (c.goes (some (.ensuring .configure)))
  | .kept, .call => .ok (c.goes none)
  | .kept, _ => .ok (c.goes (some (.discarding op true)))
  | .discarded kill, _ =>
    .ok ((c.goes (some (.discarding op (op = .call)))).logs
      (if kill && !remote then [.killed c.lease.worker] else []))
  | _, _ => .error .disabled

/-- One step of the call that has the mutex. -/
def ownerStep (choice : Choice) (alive : Bool) : Except Stuck (Checkout × Pool) :=
  match c.owner with
  | none => .error .disabled
  | some (.checking op) => return (← c.checking remote op choice, p)
  | some (.ensuring op) => return (← c.ensuring op choice, p)
  | some (.turning op) => return (← c.turning remote op choice, p)
  | some (.discarding op last) =>
    match c.lease.terminate with
    | (none, _) => .ok (c.discarded op last, p)
    | (some w, l) => .ok ({ c with lease := l, owner := some (.killing op last w) }, p)
  | some (.killing op last w) =>
    .ok ((c.goes (some (.retiring op last w))).logs (if remote then [] else [.killed w]), p)
  | some (.retiring op last w) =>
    match retireLease cfg w (!remote) p with
    | .error e => .error e
    | .ok p => .ok ((c.logs [.retired w]).discarded op last, p)
  | some (.finishing op) =>
    match c.lease.finish with
    | (none, l) => .ok ({ c with lease := l }.ends, p)
    | (some s, l) =>
      match op with
      | .handoff => .ok ({ c with lease := l, owner := some (.handing s) }, p)
      | _ =>
        let s := if remote then s else { s with served := s.served + 1 }
        .ok ({ c with lease := l, owner := some (.releasing s) }, p)
  | some (.releasing s) =>
    match release cfg s alive p with
    | .error e => .error e
    | .ok p => .ok ((c.logs [.released s.w]).ends, p)
  | some (.handing s) =>
    match handoffLocked cfg s p with
    | .error e => .error e
    | .ok p => .ok ((c.logs [.handedOff s.w]).ends, p)

/-- The context of a turn ends while `Send` writes the request.  The request may be written all the
same, and its reply be there before the kill. -/
def cancel : Except Stuck Checkout :=
  match c.owner with
  | some (.turning _) => if remote then .error .disabled else .ok { c with late := true }
  | _ => .error .disabled

/-- The goroutine that `Send` started runs. -/
def lateKill : Except Stuck Checkout :=
  if c.late then .ok ({ c with late := false }.logs [.killed c.lease.worker])
  else .error .disabled

/-- One step of a `Terminate` or an `Abandon`, given the others that run beside it. -/
def looseStep (pc : Loose) (others : List Loose) : Except Stuck (Checkout × Pool) :=
  match pc with
  | .terminating force =>
    match c.lease.terminate with
    | (none, _) => .ok ({ c with loose := others }.logs [.ended], p)
    | (some w, l) => .ok ({ c with lease := l, loose := .killing force w :: others }, p)
  | .killing force w =>
    let killed := force || !remote
    .ok ({ c with loose := .retiring killed w :: others }.logs
      (if killed then [.killed w] else []), p)
  | .retiring killed w =>
    match retireLease cfg w killed p with
    | .error e => .error e
    | .ok p => .ok ({ c with loose := others }.logs [.retired w, .ended], p)

end Checkout

/-! ## All checkouts -/

/-- The pool and every checkout that was ever made, with the spawns under way. -/
structure System where
  pool : Pool := {}
  spawning : ℕ := 0
  checkouts : List Checkout := []
  deriving DecidableEq

/-- A checkout as it is before its session is configured. -/
def newCheckout (s : Slot) : Checkout :=
  { lease := { slot := some s, worker := s.w }, owner := some (.ensuring .configure) }

/-- One atomic move.  `k` is the checkout, `i` the place of a `Terminate` among those under way.
Reservations and reapers have no state here: their moves on the pool may come at any time. -/
inductive Action where
  | acquire (alive : WorkerId → Bool)
  | spawned (result : Option WorkerId)
  | reserve
  | releaseReservation
  | reReserve
  /-- The worker of a `Bind` is up. -/
  | bound (w : WorkerId)
  | begin (k : ℕ) (op : Op)
  | goOn (k : ℕ) (choice : Choice) (alive : Bool)
  | cancel (k : ℕ)
  | lateKill (k : ℕ)
  | terminate (k : ℕ) (force : Bool)
  | goOnLoose (k : ℕ) (i : ℕ)
  | receive
  | reap
  | close

/-- Puts the checkout `k` in its place. -/
def System.set (s : System) (k : ℕ) (x : Checkout × Pool) : System :=
  { s with pool := x.2, checkouts := s.checkouts.set k x.1 }

/-- A step of the checkout `k`. -/
def System.atCheckout (s : System) (k : ℕ)
    (f : Checkout → Pool → Except Stuck (Checkout × Pool)) : Except Stuck System :=
  match s.checkouts[k]? with
  | none => .error .disabled
  | some c =>
    match f c s.pool with
    | .error e => .error e
    | .ok x => .ok (s.set k x)

/-- One atomic move of the system. -/
def step (cfg : Config) (remote : Bool) (s : System) : Action → Except Stuck System
  | .acquire alive =>
    match acquireLocked cfg alive s.pool with
    | .error e => .error e
    | .ok (.slot slot, p) =>
      .ok { s with pool := p, checkouts := s.checkouts ++ [newCheckout slot] }
    | .ok (.spawn, p) => .ok { s with pool := p, spawning := s.spawning + 1 }
    | .ok (_, p) => .ok { s with pool := p }
  | .spawned result =>
    if s.spawning = 0 then .error .disabled
    else
      match spawnedLocked cfg result s.pool with
      | .error e => .error e
      | .ok (none, p) => .ok { s with pool := p, spawning := s.spawning - 1 }
      | .ok (some slot, p) =>
        .ok { s with
          pool := p, spawning := s.spawning - 1
          checkouts := s.checkouts ++ [newCheckout slot] }
  | .reserve =>
    match reserveLocked cfg s.pool with
    | none => .error .disabled
    | some p => .ok { s with pool := p }
  | .releaseReservation => .ok { s with pool := releaseReservation s.pool }
  | .reReserve => .ok { s with pool := reReserveLocked s.pool }
  | .bound w =>
    match bindSpawned s.pool with
    | (true, p) =>
      match bindClosed cfg w p with
      | .error e => .error e
      | .ok p => .ok { s with pool := p }
    | (false, p) =>
      .ok { s with
        pool := p, checkouts := s.checkouts ++ [newCheckout { w := w, served := 0 }] }
  | .begin k op =>
    s.atCheckout k fun c p =>
      if c.owner.isSome ∨ op = .configure then .error .disabled
      else .ok (c.goes (some (.checking op)), p)
  | .goOn k choice alive => s.atCheckout k fun c p => c.ownerStep cfg remote p choice alive
  | .cancel k => s.atCheckout k fun c p => return (← c.cancel remote, p)
  | .lateKill k => s.atCheckout k fun c p => return (← c.lateKill, p)
  | .terminate k force =>
    s.atCheckout k fun c p => .ok ({ c with loose := .terminating force :: c.loose }, p)
  | .goOnLoose k i =>
    s.atCheckout k fun c p =>
      match c.loose[i]? with
      | none => .error .disabled
      | some pc => c.looseStep cfg remote p pc (c.loose.eraseIdx i)
  | .receive =>
    match s.pool.reaper with
    | [] => .error .disabled
    | _ :: rest => .ok { s with pool := { s.pool with reaper := rest } }
  | .reap => .ok { s with pool := reapedLocked s.pool }
  | .close =>
    match close cfg s.pool with
    | .error e => .error e
    | .ok p => .ok { s with pool := p }

/-- The pool as `New` leaves it. -/
def Initial (cfg : Config) (s : System) : Prop :=
  ∃ slots : List Slot, slots.length = cfg.minProcesses ∧ s = { pool := { idle := slots } }

end Montygo.Pool.CheckoutLease
