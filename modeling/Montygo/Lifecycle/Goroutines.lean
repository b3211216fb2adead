import Montygo.Lib.Threads
import Montygo.Lifecycle.Sections

/-!
# The goroutines of a session

Every operation on a session is a goroutine that takes sections under `life.mu` and drops the
mutex between them, so any other may run there.  A frame says where such a goroutine stands; a
call inside another, such as `terminateSession` inside a rotation, is a frame on top of its
caller's.

The driver of an execution (`drive`, `advance` and the answers to the worker's calls) takes its
sections in the order the worker's turns and the host's callbacks bring about.  Here it may take
them in any order, which covers every such order.  The worker's answers, the clock and the
contexts of the callers are in the choice that comes with a step, and so is whether a connection
was lost; a lease that ends with its worker is a change from outside.
-/

namespace Montygo.Lifecycle

open Threads

variable {E V : Type}

/-- Where a goroutine stands: about to do what the frame is named after. -/
inductive Frame (E V : Type) where
  /-- `reserveExecution`, of `FeedRun`, `Go`, `FeedStart` and `LoadSnapshot`. -/
  | reserveExecution
  /-- `claimSnapshot`, of the resumes of a snapshot. -/
  | claimSnapshot (t : ℕ)
  /-- Drives the execution. -/
  | drive (e : ℕ)
  | finishExecution (e : ℕ) (v : Option V) (err : Option (Err E))
  /-- The first section of `abortExecution`. -/
  | abortExecution (e : ℕ)
  /-- `co.Abort` is under way. -/
  | abortTurn (e : ℕ)
  /-- Before the check `s.Err()` of `abortExecution`. -/
  | abortCheck (e : ℕ)
  | abortMark (e : ℕ)
  /-- The abort failed on a session that was not terminal at the check: `mapError` and
  `terminateSession` come next. -/
  | abortFailed (e : ℕ)
  /-- The section that closes `abortExecution`. -/
  | abortResolve (e : ℕ)
  /-- `abortPaused`, whose `abortExecution` stands above. -/
  | abortPaused (e : ℕ)
  | terminateSession (err : Err E)
  /-- `co.Terminate` of `terminateSession`. -/
  | terminateCheckout (err : Err E) (paused : Option ℕ)
  | untrack (err : Err E) (paused : Option ℕ)
  | forceExecution (e : ℕ)
  /-- `co.Terminate` of `forceExecution`. -/
  | forceCheckout (e : ℕ)
  | forceUntrack (e : ℕ)
  /-- The last section of `forceExecution`. -/
  | forceResolve (e : ℕ)
  | requestStop (e : ℕ) (p : StopPolicy E)
  | requestStopForStep (e step : ℕ)
  | watchStop (e : ℕ)
  | reserveControl (allowPaused : Bool) (t : Option ℕ)
  /-- Holds the reservation. -/
  | control (e : Option ℕ)
  | releaseControl (e : Option ℕ)
  /-- `rotateIfDue` or `rotateOnTimer`, before `reserveControl`. -/
  | reserveRotation
  /-- `rotateLocked`, before the dump. -/
  | rotate
  | handoff
  | bind
  | attach (k : ℕ)
  /-- The watcher that `attach` starts for a checkout. -/
  | watchConnection (k : ℕ)
  | close (p : StopPolicy E)
  /-- `Close` waits for the stop of the running execution. -/
  | closeStop (a e : ℕ)
  | finishClose (a e : ℕ)
  | closeOwned (a : ℕ)
  /-- `co.Finish` of `closeOwned`. -/
  | closeFinish (a : ℕ) (e : Option ℕ)
  | closeRelease (a : ℕ) (e : Option ℕ) (cause : Err E)
  | settleClose (a : ℕ)
  deriving DecidableEq

/-- What decides how a step goes on. -/
inductive Choice (E V : Type) where
  | go
  /-- The caller's context has ended. -/
  | refused
  /-- The section runs with a context that has ended, or a deadline that has passed. -/
  | ended
  | failed (err : Err E)
  /-- The error ends the session on the way (`poison`). -/
  | poison (err : Err E)
  | beginExecution (ended : Bool)
  | beginSend (ended : Bool)
  | stopAtBoundary (ended : Bool)
  | beginCallback
  | endCallback
  | beforeResume
  | deliverStop
  | publishPause
  | abort
  | finish (v : Option V) (err : Option (Err E))
  deriving DecidableEq

abbrev Outcome (E V : Type) := Move (Session E V) (Frame E V)

/-- The goroutines a section that may register a stop starts. -/
def Session.Started.threads (st : Session.Started) (e : ℕ) : List (List (Frame E V)) :=
  (if st.watch then [[.watchStop e]] else []) ++
    if st.abort then [[.abortExecution e, .abortPaused e]] else []

/-- The frames of a driver after one of its sections. -/
def driveOn (e : ℕ) (r : Session E V × Session.Started) : Outcome E V :=
  { shared := r.1, push := [.drive e], spawn := r.2.threads e }

/-- One step of the driver of `e`. -/
def drive (s : Session E V) (e : ℕ) : Choice E V → Option (Outcome E V)
  | .beginExecution ended => some (driveOn e (s.beginExecution e ended))
  | .beginSend ended => some (driveOn e (s.beginSend e ended))
  | .stopAtBoundary ended =>
    -- The section of `requestStop` follows when the step's context has ended with no stop yet.
    if (s.executionErrorLocked e).isNone ∧ ended ∧ (s.execution e).stop.isNone then
      some { shared := s, push := [.requestStop e s.stopPolicy, .drive e] }
    else some { shared := s, push := [.drive e] }
  | .beginCallback => some { shared := s.beginCallback e, push := [.drive e] }
  | .endCallback => some { shared := s.endCallback e, push := [.drive e] }
  | .beforeResume => some { shared := s.beforeResume e, push := [.drive e] }
  | .deliverStop => some { shared := s.deliverStop e, push := [.drive e] }
  | .poison err => some { shared := s, push := [.terminateSession err, .drive e] }
  | .abort => some { shared := s, push := [.abortExecution e, .drive e] }
  | .publishPause =>
    match s.publishPause e with
    | .ok s' => some { shared := s', push := [] }
    | .error _ => some { shared := s, push := [.drive e] }
  | .finish v err => some { shared := s, push := [.finishExecution e v err] }
  | _ => none

/-- `failRotation`, then the deferred release. -/
def failRotation (s : Session E V) (err : Err E) : Outcome E V :=
  { shared := s, push := [.terminateSession err, .releaseControl none] }

/-- What the goroutine goes on with after `forceExecution`'s first section. -/
def forced (e : ℕ) : Session E V × Session.Forced E → Outcome E V
  | (s, .claimed _) => { shared := s, push := [.forceCheckout e] }
  | (s, .settled) => { shared := s, push := [] }
  | (s, .early) => { shared := s, push := [] }

/-- A stop request ends its section. -/
def requested (e : ℕ) (r : Session E V × Session.Started) : Outcome E V :=
  { shared := r.1, push := [], spawn := r.2.threads e }

/-- The timer of `watchStop` fired. -/
def watchStop (s : Session E V) (e : ℕ) : Option (Outcome E V) :=
  match (s.execution e).stop with
  | none => none
  | some req =>
    if req.requested then some { shared := s, push := [.forceExecution e, .watchStop e] }
    else if (s.execution e).phase = .finished then some { shared := s, push := [.watchStop e] }
    else
      let r := s.enterRequestLocked e
      some {
        shared := r.1, push := [.watchStop e]
        spawn := Session.Started.threads { abort := r.2 } e }

/-- After the section that releases a control reservation. -/
def released : Session E V × Session.Released E → Outcome E V
  | (s, .nothing) => { shared := s, push := [] }
  | (s, .finish e cause) => { shared := s, push := [.finishExecution e none (some cause)] }
  | (s, .abort e) => { shared := s, push := [], spawn := [[.abortExecution e, .abortPaused e]] }

/-- After the section of a graceful `Close`. -/
def closing (s : Session E V) (p : StopPolicy E) : Outcome E V :=
  match s.close with
  | none => { shared := s, push := [] }
  | some (a, none, s') => { shared := s', push := [.closeOwned a] }
  | some (a, some e, s') => { shared := s', push := [.requestStop e p, .closeStop a e] }

/-- After a round of `closeOwned`. -/
def closeRound (a : ℕ) : Session E V × Session.Owned → Outcome E V
  | (s, .ended) => { shared := s, push := [.settleClose a] }
  | (s, .waits) => { shared := s, push := [.closeOwned a] }
  | (s, .owns e) => { shared := s, push := [.closeFinish a e] }

/-- After the first section of `abortExecution`, which may end it. -/
def aborting (s : Session E V) (e : ℕ) : Outcome E V :=
  match s.abortExecution e with
  | .ok s' => { shared := s', push := [.abortTurn e] }
  | .error _ => { shared := s, push := [] }

/-- One step of a goroutine.  With `shared := s` the step is a return, or one outside the mutex;
a choice that is not named does not matter. -/
def advance (s : Session E V) : Frame E V → Choice E V → Option (Outcome E V)
  | .reserveExecution => fun
      | .refused => some { shared := s, push := [] }
      | _ =>
        match s.reserveExecution with
        | .ok (e, s') => some { shared := s', push := [.drive e] }
        | .error _ => some { shared := s, push := [] }
  | .claimSnapshot t => fun
      | .refused => some { shared := s, push := [] }
      | _ =>
        match s.claimSnapshot t with
        | .ok s' => some { shared := s', push := [.drive (s.token t).exec] }
        | .error _ => some { shared := s, push := [] }
  | .drive e => drive s e
  | .finishExecution e v err => fun _ =>
    some { shared := s.finishExecution e v err, push := [] }
  | .abortExecution e => fun _ => some (aborting s e)
  | .abortTurn e => fun
      | .ended => some { shared := s, push := [.forceExecution e, .abortCheck e] }
      | _ => some { shared := s, push := [.abortCheck e] }
  | .abortCheck e => fun
      -- The worker did not answer with the error that was raised in it.
      | .refused => some { shared := s, push := if s.terminal.isSome then [] else [.abortFailed e] }
      | _ => some { shared := s, push := if s.terminal.isSome then [] else [.abortMark e] }
  | .abortMark e => fun _ => some { shared := s.markAborted e, push := [] }
  | .abortFailed e => fun
      | .poison err => some { shared := s, push := [.terminateSession err, .abortFailed e] }
      | .failed err => some { shared := s, push := [.terminateSession err, .abortResolve e] }
      | _ => none
  | .abortResolve e => fun _ => some { shared := s.resolveStopLocked e .finished, push := [] }
  | .abortPaused e => fun
      | .failed err => some { shared := s, push := [.finishExecution e none (some err)] }
      | _ => none
  | .terminateSession err => fun _ =>
    let r := s.terminateSession err
    some { shared := r.1, push := [.terminateCheckout r.2.1 r.2.2] }
  | .terminateCheckout cause paused => fun _ =>
    some { shared := s.setLease s.co false, push := [.untrack cause paused] }
  | .untrack cause paused => fun _ =>
    some {
      shared := s
      push := paused.toList.map fun e => .finishExecution e none (some cause) }
  | .forceExecution e => fun
      | .refused => some (forced e (s.forceExecution e true))
      | _ => some (forced e (s.forceExecution e false))
  | .forceCheckout e => fun _ =>
    some { shared := s.setLease s.co false, push := [.forceUntrack e] }
  | .forceUntrack e => fun _ => some { shared := s, push := [.forceResolve e] }
  | .forceResolve e => fun _ => some { shared := s.resolveStopLocked e .killed, push := [] }
  | .requestStop e p => fun
      | .ended => some (requested e (s.requestStop e p true))
      | _ => some (requested e (s.requestStop e p false))
  | .requestStopForStep e step => fun _ =>
    let stale := (s.execution e).step ≠ step ∨ (s.execution e).phase = .finished
    some { shared := s, push := if stale then [] else [.requestStop e s.stopPolicy] }
  | .watchStop e => fun
      | .refused =>
        if (s.execution e).stop.any fun req => req.resolvedOnce || req.forceClaimed then
          some { shared := s, push := [] }
        else none
      | _ => watchStop s e
  | .reserveControl allowPaused t => fun
      | .refused => some { shared := s, push := [] }
      | _ =>
        match s.reserveControlFor allowPaused t with
        | .ok (e, s') => some { shared := s', push := [.control e] }
        | .error _ => some { shared := s, push := [] }
  | .control e => fun
      | .poison err => some { shared := s, push := [.terminateSession err, .control e] }
      | _ => some { shared := s, push := [.releaseControl e] }
  | .releaseControl e => fun _ => some (released (s.releaseControl e))
  | .reserveRotation => fun
      | .refused => some { shared := s, push := [] }
      | _ =>
        match s.reserveControlFor false none with
        | .ok (_, s') => some { shared := s', push := [.rotate] }
        | .error _ => some { shared := s, push := [] }
  | .rotate => fun
      -- Under the reservation the rotation turns out not to be due.
      | .refused => some { shared := s, push := [.releaseControl none] }
      | .failed err => some (failRotation s err)
      | _ => some { shared := s, push := [.handoff] }
  | .handoff => fun
      | .failed err => some (failRotation s err)
      | _ =>
        if s.lease s.co then some { shared := s.setLease s.co false, push := [.bind] } else none
  | .bind => fun
      | .failed err => some (failRotation s err)
      | _ =>
        some {
          shared := { s.setLease s.checkouts true with checkouts := s.checkouts + 1 }
          push := [.attach s.checkouts] }
  | .attach k => fun _ =>
    some {
      shared := { s with co := k }, push := [.releaseControl none]
      spawn := [[.watchConnection k]] }
  | .watchConnection k => fun
      | .failed err =>
        if s.terminal.isSome then some { shared := s, push := [] }
        else if s.waitsForTurn then some { shared := s, push := [.watchConnection k] }
        else some { shared := s, push := [.terminateSession err] }
      | _ => some { shared := s, push := [] }
  | .close p => fun
      | .refused => some { shared := s, push := [] }
      | _ => some (closing s p)
  | .closeStop a e => fun
      | .refused => some { shared := s, push := [], spawn := [[.finishClose a e]] }
      | _ => some { shared := s, push := [.closeOwned a] }
  | .finishClose a e => fun _ =>
    if (s.execution e).done = 0 then none else some { shared := s, push := [.closeOwned a] }
  | .closeOwned a => fun
      | .refused => some { shared := s, push := [.settleClose a] }
      | _ => some (closeRound a s.closeOwned)
  | .closeFinish a e => fun
      | .failed err =>
        some {
          shared := s.setLease s.co false
          push := [.terminateSession err, .closeRelease a e err] }
      | .poison err =>
        some {
          shared := s.setLease s.co false
          push := [.terminateSession err, .terminateSession err, .closeRelease a e err] }
      | _ =>
        some {
          shared := s.setLease s.co false
          push := [.terminateSession .sessionClosed, .closeRelease a e .sessionClosed] }
  | .closeRelease a none _ => fun _ =>
    some { shared := { s with controlDone := false }, push := [.settleClose a] }
  | .closeRelease a (some e) cause => fun _ =>
    some { shared := s, push := [.finishExecution e none (some cause), .settleClose a] }
  | .settleClose a => fun _ => some { shared := s.settleClose a, push := [] }

/-- Where a caller's goroutine starts.  `Close` with `KillNow` is `terminateSession` at once, and
the end of a step's context comes in at `requestStopForStep`. -/
def Frame.entry : Frame E V → Bool
  | .reserveExecution => true
  | .claimSnapshot _ => true
  | .requestStop _ _ => true
  | .requestStopForStep _ _ => true
  | .reserveControl _ _ => true
  | .reserveRotation => true
  | .close _ => true
  | .terminateSession .sessionClosed => true
  | _ => false

/-- The operations of a session, with the ends of its leases that come from the workers. -/
def program (E V : Type) : Program (Session E V) (Frame E V) (Choice E V) ℕ where
  entry := Frame.entry
  advance := advance
  outside s k := s.setLease k false

abbrev System (E V : Type) := Config (Session E V) (Frame E V)

/-- A session as `attach` leaves it: one checkout with an active lease, and its watcher. -/
def initial (p : StopPolicy E) : System E V :=
  { shared := { stopPolicy := p }, stackOf := [[.watchConnection 0]] }

abbrev Act (E V : Type) := Action (Frame E V) (Choice E V) ℕ

/-- The states of a session that its goroutines reach by steps that meet the guard. -/
abbrev Reaches (guard : System E V → Act E V → Prop) : System E V → Prop :=
  Transition.Reachable (program E V).step (fun sys => ∃ p, sys = initial p) guard

theorem reaches_of_run {p : StopPolicy E} {acts : List (Act E V)} {sys : System E V}
    (hrun : Transition.run (program E V).step (initial p) acts = .ok sys) :
    Reaches (fun _ _ => True) sys :=
  Transition.Reachable.of_run (g := fun _ => True) (.initial ⟨p, rfl⟩) acts (fun _ _ => trivial)
    hrun

end Montygo.Lifecycle
