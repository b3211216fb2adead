import Mathlib.Data.Nat.Notation
import Mathlib.Logic.Function.Basic
import Mathlib.Algebra.Order.Ring.Nat

/-!
# The critical sections of a session

A session has one current execution at most.  What its operations agree on stands in
`lifecycle`, behind `life.mu`, and each definition here is one section under that mutex, taken
from its source function: `reserveExecution`, `claimSnapshot` and `reserveControlFor` admit an
operation, `publishPause`, `finishExecution` and the release of a control reservation let go of
it, and `requestStop`, `terminateSession`, `forceExecution` and `abortExecution` end it from
outside.

A channel that is made and closed is a flag that says whether it is there and open; one that
every reader only waits for is a count of how often it was closed.  Deadlines do not stand in the
state: whether one has passed is decided where a section reads the clock.
-/

namespace Montygo.Lifecycle

/-! ## State -/

/-- `executionPhase`. -/
inductive Phase where
  | starting
  | preparing
  | executing
  | callback
  | paused
  | control
  | aborting
  | finished
  deriving DecidableEq

inductive StopKind where
  | pending
  | notRunning
  | aborted
  | killed
  | finished
  deriving DecidableEq

/-- The errors these sections make themselves, and any `other`. -/
inductive Err (E : Type) where
  | sessionClosed
  | sessionBusy
  | snapshotResumed
  | snapshotStale
  | executionInterrupted
  | interruptException (reason : E)
  | sessionKilled (reason : E)
  | valueError (message : String)
  | protocolError (message : String)
  | other (e : E)
  deriving DecidableEq

structure StopPolicy (E : Type) where
  reason : E
  catchable : Bool := false
  deriving DecidableEq

/-- `stopRequest`: the one stop of an execution.  `resolved` counts how often its channel was
closed. -/
structure StopRequest (E : Type) where
  policy : StopPolicy E
  requested : Bool := false
  kind : StopKind := .pending
  resolvedOnce : Bool := false
  forceClaimed : Bool := false
  resolved : ℕ := 0
  deriving DecidableEq

def newStopRequest {E : Type} (p : StopPolicy E) : StopRequest E := { policy := p }

/-- `execution`: `turnDone` and `operationDone` say whether the channel is there, `done` how often
it was closed. -/
structure Execution (E V : Type) where
  phase : Phase := .starting
  turnDone : Bool := false
  sequence : ℕ := 0
  step : ℕ := 0
  stop : Option (StopRequest E) := none
  delivered : Bool := false
  done : ℕ := 0
  operationDone : Bool := true
  value : Option V := none
  err : Option (Err E) := none
  terminalCause : Option (Err E) := none
  beforeStart : Bool := false
  aborted : Bool := false
  deriving DecidableEq

/-- How a stop that nobody else settled ends with its execution. -/
def Execution.stopKind {E V : Type} (x : Execution E V) (err : Option (Err E)) : StopKind :=
  if x.beforeStart ∨ x.aborted ∨ (x.delivered ∧ err.isSome) then .aborted else .finished

structure SnapshotToken where
  exec : ℕ
  sequence : ℕ
  used : Bool := false
  deriving DecidableEq

/-- `Session` with its `lifecycle`.  Executions, tokens, close attempts and checkouts are told
apart by number; `lease k` says whether checkout `k` has an active worker lease. -/
structure Session (E V : Type) where
  stopPolicy : StopPolicy E
  nextID : ℕ := 0
  execution : ℕ → Execution E V := fun _ => {}
  current : Option ℕ := none
  controlDone : Bool := false
  closeAttempt : Option ℕ := none
  closeAttempts : ℕ := 0
  terminal : Option (Err E) := none
  done : ℕ := 0
  token : ℕ → SnapshotToken := fun _ => { exec := 0, sequence := 0 }
  tokens : ℕ := 0
  co : ℕ := 0
  lease : ℕ → Bool := fun k => k == 0
  checkouts : ℕ := 1

def maxUint64 : ℕ := 2 ^ 64 - 1

variable {E V : Type}

namespace Session

/-- Sets one execution. -/
def put (s : Session E V) (e : ℕ) (x : Execution E V) : Session E V :=
  { s with execution := Function.update s.execution e x }

/-- Changes one execution. -/
def modify (s : Session E V) (e : ℕ) (f : Execution E V → Execution E V) : Session E V :=
  s.put e (f (s.execution e))

/-- Gives up or takes the lease of one checkout. -/
def setLease (s : Session E V) (k : ℕ) (active : Bool) : Session E V :=
  { s with lease := Function.update s.lease k active }

variable (s : Session E V)

/-! ## Admission -/

def admissionErrorLocked : Option (Err E) :=
  match s.terminal with
  | some cause => some cause
  | none => if s.closeAttempt.isSome then some .sessionClosed else none

def executionErrorLocked (e : ℕ) : Option (Err E) :=
  match s.terminal with
  | some cause => some cause
  | none =>
    match (s.execution e).terminalCause with
    | some cause => some cause
    | none =>
      if s.current ≠ some e ∨ (s.execution e).phase = .finished then some .snapshotStale
      else none

/-- `reserveExecution` behind the check of its context: the new execution's number. -/
def reserveExecution : Except (Err E) (ℕ × Session E V) :=
  match s.admissionErrorLocked with
  | some err => .error err
  | none =>
    if s.current.isSome ∨ s.controlDone = true then .error .sessionBusy
    else if s.nextID = maxUint64 then .error (.valueError "execution ID exhausted")
    else
      let e := s.nextID + 1
      .ok (e, { s with
        nextID := e
        execution := Function.update s.execution e { step := 1 }
        current := some e })

def snapshotErrorLocked (t : SnapshotToken) : Option (Err E) :=
  let x := s.execution t.exec
  if t.used then some .snapshotResumed
  else
    match x.terminalCause with
    | some cause => some cause
    | none =>
      if x.phase = .finished then
        match x.err with
        | some err => some err
        | none => some .snapshotStale
      else
        match s.terminal with
        | some cause => some cause
        | none =>
          if s.current ≠ some t.exec ∨ t.sequence ≠ x.sequence then some .snapshotStale
          else if x.phase ≠ .paused then some .sessionBusy
          else s.admissionErrorLocked

/-- `claimSnapshot` behind the check of its context. -/
def claimSnapshot (t : ℕ) : Except (Err E) (Session E V) :=
  match s.snapshotErrorLocked (s.token t) with
  | some err => .error err
  | none =>
    let used := { s with token := Function.update s.token t { s.token t with used := true } }
    .ok (used.modify (s.token t).exec fun x =>
      { x with phase := .executing, operationDone := true, step := x.step + 1 })

/-- `reserveControlFor` behind the check of its context: the paused execution the reservation is
on, or none when the session is idle. -/
def reserveControlFor (allowPaused : Bool) (t : Option ℕ) :
    Except (Err E) (Option ℕ × Session E V) :=
  match t.bind fun t => s.snapshotErrorLocked (s.token t) with
  | some err => .error err
  | none =>
    match s.admissionErrorLocked with
    | some err => .error err
    | none =>
      if s.controlDone then .error .sessionBusy
      else
        match s.current with
        | none => .ok (none, { s with controlDone := true })
        | some e =>
          if !allowPaused ∨ (s.execution e).phase ≠ .paused then .error .sessionBusy
          else .ok (some e, s.modify e fun x =>
            { x with phase := .control, turnDone := true, operationDone := true })

/-! ## Stops -/

/-- `enterRequestLocked`, and whether the goroutine it starts aborts a paused execution. -/
def enterRequestLocked (e : ℕ) : Session E V × Bool :=
  match (s.execution e).stop with
  | none => (s, false)
  | some req =>
    if req.requested then (s, false)
    else if (s.execution e).phase = .paused then
      (s.modify e fun x =>
        { x with
          stop := some { req with requested := true }, phase := .aborting
          operationDone := true }, true)
    else (s.modify e fun x => { x with stop := some { req with requested := true } }, false)

def resolveStopLocked (e : ℕ) (kind : StopKind) : Session E V :=
  match (s.execution e).stop with
  | none => s
  | some req =>
    if req.resolvedOnce then s
    else s.modify e fun x =>
      { x with
        stop := some { req with
          kind := kind, resolvedOnce := true, resolved := req.resolved + 1 } }

/-- What a section that may register a stop leaves to be started: the watcher of a new request,
and the abort of a paused execution. -/
structure Started where
  watch : Bool := false
  abort : Bool := false
  deriving DecidableEq

/-- Registers a stop unless there is one, which a later policy can only shorten. -/
def registerStop (e : ℕ) (p : StopPolicy E) : Session E V :=
  if (s.execution e).stop.isNone then
    s.modify e fun x => { x with stop := some (newStopRequest p) }
  else s

/-- `requestStop` under the effective policy; `due` is that its request phase starts now. -/
def requestStop (e : ℕ) (p : StopPolicy E) (due : Bool) : Session E V × Started :=
  let x := s.execution e
  if (x.stop.any (·.resolvedOnce)) ∨ x.phase = .finished ∨
      (s.current ≠ some e ∧ x.stop = none) ∨ (x.terminalCause.isSome ∧ x.stop = none) then (s, {})
  else if due then
    let entered := (s.registerStop e p).enterRequestLocked e
    (entered.1, { watch := x.stop.isNone, abort := entered.2 })
  else (s.registerStop e p, { watch := x.stop.isNone })

/-- The first half of `stopBeforeStartLocked`: a step whose context has ended is stopped, if it
is not yet. -/
def stopEnded (e : ℕ) (ended : Bool) : Session E V × Started :=
  if (s.execution e).stop.isNone && ended then
    let entered := (s.registerStop e s.stopPolicy).enterRequestLocked e
    (entered.1, { watch := true, abort := entered.2 })
  else (s, {})

/-- `stopBeforeStartLocked`: `ended` is that the step's context has ended. -/
def stopBeforeStartLocked (e : ℕ) (ended : Bool) : Session E V × Started × Option (Err E) :=
  let r := s.stopEnded e ended
  match (r.1.execution e).stop with
  | none => (r.1, r.2, none)
  | some req =>
    if req.requested then
      (r.1.modify e fun x => { x with beforeStart := true }, r.2,
        some (.interruptException req.policy.reason))
    else (r.1, r.2, none)

def boundaryStopLocked (e : ℕ) : Option (Err E) :=
  match (s.execution e).stop with
  | none => none
  | some req =>
    if !req.requested then none
    else if req.policy.catchable then none
    else some .executionInterrupted

/-! ## The driver of an execution -/

def beginExecution (e : ℕ) (ended : Bool) : Session E V × Started :=
  match s.executionErrorLocked e with
  | some _ => (s, {})
  | none =>
    let r := s.stopBeforeStartLocked e ended
    if r.2.2.isSome then (r.1, r.2.1)
    else (r.1.modify e fun x => { x with phase := .preparing }, r.2.1)

def beginSend (e : ℕ) (ended : Bool) : Session E V × Started :=
  match s.executionErrorLocked e with
  | some _ => (s, {})
  | none =>
    let r := s.stopBeforeStartLocked e ended
    if r.2.2.isSome then (r.1, r.2.1)
    else (r.1.modify e fun x => { x with phase := .executing, turnDone := true }, r.2.1)

/-- The last section of `beginCallback`. -/
def beginCallback (e : ℕ) : Session E V :=
  match s.executionErrorLocked e, s.boundaryStopLocked e with
  | none, none => s.modify e fun x => { x with phase := .callback, turnDone := false }
  | _, _ => s

/-- The first section of `endCallback`. -/
def endCallback (e : ℕ) : Session E V := s.modify e fun x => { x with phase := .executing }

/-- The last section of `beforeResume`. -/
def beforeResume (e : ℕ) : Session E V :=
  match s.executionErrorLocked e, s.boundaryStopLocked e with
  | none, none => s.modify e fun x => { x with phase := .executing, turnDone := true }
  | _, _ => s

def deliverStop (e : ℕ) : Session E V := s.modify e fun x => { x with delivered := true }

/-- `publishPause`: the token of the new suspension. -/
def publishPause (e : ℕ) : Except (Err E) (Session E V) :=
  match s.executionErrorLocked e with
  | some err => .error err
  | none =>
    let x := s.execution e
    if x.stop.any (·.requested) then .error .executionInterrupted
    else if x.sequence = maxUint64 then .error (.valueError "snapshot sequence exhausted")
    else
      let issued := { s with
        token := Function.update s.token s.tokens { exec := e, sequence := x.sequence + 1 }
        tokens := s.tokens + 1 }
      .ok (issued.modify e fun x =>
        { x with
          sequence := x.sequence + 1, phase := .paused, turnDone := false
          operationDone := false })

/-! ## Ends -/

def finishExecution (e : ℕ) (v : Option V) (err : Option (Err E)) : Session E V :=
  let x := s.execution e
  if x.phase = .finished then s
  else
    let value := if x.terminalCause.isSome then none else v
    let err := if x.terminalCause.isSome then x.terminalCause else err
    let left := { s with current := if s.current = some e then none else s.current }
    let ended := left.modify e fun x =>
      { x with
        value := value, err := err, phase := .finished, turnDone := false
        operationDone := false, done := x.done + 1 }
    if x.stop.any fun req => !req.resolvedOnce && !req.forceClaimed then
      ended.resolveStopLocked e (x.stopKind err)
    else ended

/-- Sets the terminal cause and closes the session's `done`, unless they are. -/
def setTerminal (err : Err E) : Session E V :=
  match s.terminal with
  | none => { s with terminal := some err, done := s.done + 1 }
  | some _ => s

/-- The section of `terminateSession`: the cause that stands, and the paused execution that is
then to be finished. -/
def terminateSession (err : Err E) : Session E V × Err E × Option ℕ :=
  let cause := s.terminal.getD err
  match s.current with
  | none => (s.setTerminal err, cause, none)
  | some e =>
    if (s.execution e).phase = .paused then
      ((s.setTerminal err).modify e fun x =>
        { x with terminalCause := some cause, phase := .aborting, operationDone := true },
        cause, some e)
    else ((s.setTerminal err).modify e fun x => { x with terminalCause := some cause }, cause, none)

/-- How the first section of `forceExecution` ends. -/
inductive Forced (E : Type) where
  | settled
  | early
  | claimed (cause : Err E)

/-- The first section of `forceExecution`; `early` is that the kill deadline is still ahead. -/
def forceExecution (e : ℕ) (early : Bool) : Session E V × Forced E :=
  let x := s.execution e
  match x.stop with
  | none => (s, .settled)
  | some req =>
    if req.resolvedOnce ∨ req.forceClaimed then (s, .settled)
    else if s.current ≠ some e ∨ x.phase = .finished ∨ s.terminal.isSome then
      (s.resolveStopLocked e .finished, .settled)
    else if early then (s, .early)
    else
      let cause := .sessionKilled req.policy.reason
      ((s.setTerminal cause).modify e fun x =>
        { x with
          stop := some { req with forceClaimed := true, kind := .killed }
          terminalCause := some cause }, .claimed cause)

/-- The first section of `abortExecution`. -/
def abortExecution (e : ℕ) : Except (Err E) (Session E V) :=
  match s.executionErrorLocked e with
  | some err => .error err
  | none =>
    if (s.execution e).stop.isNone then
      .error (.protocolError "abort without a stop request")
    else .ok (s.modify e fun x => { x with phase := .aborting, turnDone := true })

def markAborted (e : ℕ) : Session E V := s.modify e fun x => { x with aborted := true }

/-- What the holder of a control reservation does after its release. -/
inductive Released (E : Type) where
  | nothing
  | finish (e : ℕ) (cause : Err E)
  | abort (e : ℕ)

/-- The release of the reservation that `reserveControlFor` gave on `e`. -/
def releaseControl : Option ℕ → Session E V × Released E
  | none => ({ s with controlDone := false }, .nothing)
  | some e =>
    match s.terminal with
    | some cause =>
      (s.modify e fun x =>
        { x with turnDone := false, phase := .aborting, operationDone := true },
        .finish e cause)
    | none =>
      if (s.execution e).stop.isSome then
        (s.modify e fun x =>
          { x with turnDone := false, phase := .aborting, operationDone := true }, .abort e)
      else
        (s.modify e fun x =>
          { x with turnDone := false, phase := .paused, operationDone := false }, .nothing)

/-! ## Close -/

/-- The section of `Close`, unless the session has ended or is being closed: the number of the
attempt and the running execution that is to be stopped first. -/
def close : Option (ℕ × Option ℕ × Session E V) :=
  if s.terminal.isSome ∨ s.closeAttempt.isSome then none
  else
    let running := s.current.filter fun e => (s.execution e).phase ≠ .paused
    some (s.closeAttempts, running,
      { s with closeAttempt := some s.closeAttempts, closeAttempts := s.closeAttempts + 1 })

def settleClose (a : ℕ) : Session E V :=
  { s with closeAttempt := if s.closeAttempt = some a then none else s.closeAttempt }

/-- How one round of `closeOwned` goes on. -/
inductive Owned where
  | ended
  | waits
  | owns (e : Option ℕ)

/-- The section at the head of the loop in `closeOwned`. -/
def closeOwned : Session E V × Owned :=
  if s.terminal.isSome then (s, .ended)
  else
    match s.current with
    | none => if s.controlDone then (s, .waits) else ({ s with controlDone := true }, .owns none)
    | some e =>
      if (s.execution e).operationDone then (s, .waits)
      else
        (s.modify e fun x =>
          { x with phase := .control, turnDone := true, operationDone := true }, .owns (some e))

/-- What the watcher of a lost connection waits for: the turn of the current execution, else the
control reservation. -/
def waitsForTurn : Bool :=
  match s.current with
  | some e => (s.execution e).turnDone
  | none => s.controlDone

end Session

end Montygo.Lifecycle
