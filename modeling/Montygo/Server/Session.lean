import Montygo.Go.Strings
import Montygo.Lib.Transition

/-!
# A session of the server

One client connection of `monty-server`: it reads requests, passes them to the worker that the
connection checked out, and passes the worker's answers back, under an idle, a turn and a session
timeout.  The task is one sequence of steps; between them it waits, for a request, for a checkout
or for the worker's answer, and what may end the waiting is an action of the model.

The worker is the other party.  Of its state the model keeps whether a feed is in progress and
since when; it may answer anything, and an answer says which feed is in progress after it.

A phase is one of the three `select!` loops, in `next_request`, `configure` and `turn`.  Between
them the task may also wait for room in the channel to the client (`send`), and in `shutdown_dump`
for the worker; no timer is polled there, and a step goes over these waits.

Left out are the client's name, metrics, logging, telemetry, close codes, and the keepalive clock,
whose only effect here is that it may end the session.
-/

namespace Montygo.Server

open Go

/-- An `Instant`, or a `Duration`. -/
abbrev Time := ℕ

/-- `ParentRequest`, as far as the server looks at it. -/
inductive Request where
  | configure (protocolVersion : ℕ)
  | installDependencies
  | feed
  | resumeCall
  | resumeNameLookup
  | resumeFutures
  | dump
  | load (state : Bytes)
  | reset
  | shutdown
  | abortFeed
  deriving DecidableEq

inductive RequestKind where
  | resume
  | load
  | dump
  | other
  deriving DecidableEq

/-- `request_kind`. -/
def requestKind : Request → RequestKind
  | .resumeCall | .resumeNameLookup | .resumeFutures | .abortFeed => .resume
  | .load _ => .load
  | .dump => .dump
  | _ => .other

/-- The kind of a `ChildEvent` that ends a turn. -/
inductive EventKind where
  | functionCall
  | osCall
  | nameLookup
  | resolveFutures
  | complete
  | error
  | typingError
  | dumpResult (state : Bytes)
  | ok
  | fatalError
  deriving DecidableEq

/-- `ChildEvent`. -/
structure Event where
  kind : EventKind
  maxDurationMicros : Option ℕ := none

/-- `is_suspension`. -/
def isSuspension (event : Event) : Bool :=
  match event.kind with
  | .functionCall | .osCall | .nameLookup | .resolveFutures => true
  | _ => false

/-- `is_ok`. -/
def isOk (event : Event) : Bool := event.kind == .ok

/-- The configuration, with the dump keys as the two functions they are used as. -/
structure Config where
  turnTimeout : Option Time
  idleTimeout : Option Time
  sessionTimeout : Option Time
  /-- `ceilings.max_duration_micros`. -/
  maxDurationMicros : Option ℕ
  /-- `check_protocol_version`. -/
  supported : ℕ → Bool
  sign : Bytes → Option Bytes
  verify : Bytes → Option Bytes

/-- `admits_restored`. -/
def Config.admitsRestored (cfg : Config) (event : Event) : Bool :=
  match cfg.maxDurationMicros with
  | some ceiling => event.maxDurationMicros.any fun echoed => decide (echoed ≤ ceiling)
  | none => true

inductive TimeoutKind where
  | idle
  | turn
  | session
  | keepalive
  deriving DecidableEq

/-- The reasons of a violation. -/
inductive Violation where
  | textMessage
  | malformed
  | emptyRequest
  | alreadyConfigured
  | lifecycle
  | expectedConfigure
  | restoredOverLimits
  deriving DecidableEq

inductive SessionEnd where
  | clientClosed
  | violation (reason : Violation)
  | timeout (kind : TimeoutKind)
  | workerFailed
  | drained
  | drainDropped
  | writeFailed
  deriving DecidableEq

/-- What a binary message decodes to. -/
inductive Decoded where
  | malformed
  | empty
  | request (r : Request)

inductive Inbound where
  | request (message : Decoded)
  | text
  | closed

/-- The fields of `Session` that its steps read. -/
structure Session where
  idleDeadline : Option Time
  turnDeadline : Option Time := none
  sessionDeadline : Option Time
  draining : Bool := false
  suspended : Bool := false
  configured : Bool := false
  pending : Option Decoded := none

/-- What the task is waiting for. -/
inductive Phase where
  /-- `next_request`. -/
  | waiting
  /-- `configure`, until the pool answers; `deadline` is its own. -/
  | configuring (deadline : Option Time)
  /-- `turn`, until the worker answers; `starts` says that the request started a feed. -/
  | turning (request : Request) (starts : Bool)
  | ended (why : SessionEnd)
  deriving DecidableEq

/-- A connection and its worker. -/
structure System where
  now : Time
  session : Session
  phase : Phase := .waiting
  /-- Whether the session holds a checkout. -/
  checkout : Bool := false
  /-- The feed in progress on the worker: when it was started, or restored. -/
  feed : Option Time := none

/-! ## The task -/

section Task

variable (cfg : Config)

/-- The session ends, and with its checkout the worker. -/
def System.finish (s : System) (why : SessionEnd) : System :=
  { s with phase := .ended why, checkout := false, feed := none }

/-- `arm_idle`. -/
def armIdle (s : System) : System :=
  { s with session.idleDeadline := cfg.idleTimeout.map (s.now + ·) }

/-- `turn`, up to its wait. -/
def turn (request : Request) (s : System) : System :=
  let armed := s.session.suspended = false ∧ requestKind request ≠ .resume
  let deadline :=
    if armed then cfg.turnTimeout.map (s.now + ·) else s.session.turnDeadline
  let starts := decide (request = .feed ∧ s.feed = none)
  { s with
    session.turnDeadline := deadline
    phase := .turning request starts
    feed := if starts then some s.now else s.feed }

/-- `configure`, up to its wait. -/
def configure (protocolVersion : ℕ) (s : System) : System :=
  if cfg.supported protocolVersion then
    { s with phase := .configuring (cfg.turnTimeout.map (s.now + ·)) }
  else s.finish .workerFailed

/-- `on_request`; `sent` is whether an answer of the server itself could be sent. -/
def onRequest (message : Decoded) (sent : Bool) (s : System) : System :=
  match message with
  | .malformed => s.finish (.violation .malformed)
  | .empty => s.finish (.violation .emptyRequest)
  | .request request =>
    if s.session.draining then s.finish .drained
    else
      match request with
      | .configure protocolVersion =>
        if s.session.configured then s.finish (.violation .alreadyConfigured)
        else configure cfg protocolVersion s
      | .reset | .shutdown => s.finish (.violation .lifecycle)
      | request =>
        if s.checkout = false then s.finish (.violation .expectedConfigure)
        else
          match request with
          | .load state =>
            match cfg.verify state with
            | some raw => turn cfg (.load raw) s
            | none =>
              if sent then armIdle cfg { s with phase := .waiting }
              else s.finish .writeFailed
          | request => turn cfg request s

/-- The second half of `configure`: the pool has answered. -/
def checkedOut (fresh sent : Bool) (s : System) : System :=
  if fresh then
    if sent then
      armIdle cfg
        { s with checkout := true, session.configured := true, phase := .waiting, feed := none }
    else s.finish .writeFailed
  else s.finish .workerFailed

/-- What `forward` notes once it has passed the answer on. -/
def noted (kind : RequestKind) (event : Event) (s : System) : Session :=
  if kind = .dump then
    if s.session.suspended then s.session else { s.session with turnDeadline := none }
  else if isSuspension event then
    { s.session with
      turnDeadline :=
        if kind = .load then cfg.turnTimeout.map (s.now + ·) else s.session.turnDeadline
      suspended := true }
  else { s.session with suspended := false, turnDeadline := none }

/-- A dump whose envelope would not fit a frame. -/
def unsignable (event : Event) : Bool :=
  match event.kind with
  | .dumpResult state => (cfg.sign state).isNone
  | _ => false

def forward (kind : RequestKind) (event : Event) (sent : Bool) (s : System) : System :=
  if unsignable cfg event ∨ event.kind = .fatalError then s.finish .workerFailed
  else if kind = .load ∧ (isSuspension event ∨ isOk event) ∧ cfg.admitsRestored event = false then
    s.finish (.violation .restoredOverLimits)
  else if sent = false then s.finish .writeFailed
  else armIdle cfg { s with session := noted cfg kind event s, phase := .waiting }

end Task

/-! ## Steps -/

/-- What may happen next. -/
inductive Action where
  /-- Time passes. -/
  | tick (d : Time)
  /-- A message of the client is received. -/
  | inbound (message : Inbound) (sent : Bool)
  /-- The request that arrived during the last turn is taken up. -/
  | takePending (sent : Bool)
  /-- The pool answers the checkout. -/
  | checkedOut (fresh sent : Bool)
  /-- The worker answers the turn; `feed` is in progress after it. -/
  | answer (event : Event) (feed : Option Time) (sent : Bool)
  /-- The worker is lost during the turn. -/
  | workerLost
  /-- A deadline has passed. -/
  | expire (kind : TimeoutKind)
  /-- The drain begins. -/
  | drain
  /-- The drain's grace is over. -/
  | drop

/-- The deadline that a timeout waits for in the present phase. -/
def System.deadline (s : System) : TimeoutKind → Option Time
  | .idle => if s.phase = .waiting then s.session.idleDeadline else none
  | .turn =>
    match s.phase with
    | .configuring deadline => deadline
    | _ => s.session.turnDeadline
  | .session =>
    match s.phase with
    | .configuring _ => none
    | _ => s.session.sessionDeadline
  -- the keepalive clock is not modelled: it may give up whenever it is polled
  | .keepalive =>
    match s.phase with
    | .configuring _ => none
    | _ => some 0

/-- Why an action is not possible. -/
inductive Refusal where
  | notNow
  deriving DecidableEq

/-- `select!` on the inbound channel. -/
def receive (cfg : Config) (s : System) (message : Inbound) (sent : Bool) : Except Refusal System :=
  match s.phase, message with
  | .waiting, .request decoded =>
    if s.session.pending.isSome then .error .notNow
    else .ok (onRequest cfg decoded sent { s with session.idleDeadline := none })
  | .turning _ _, .request decoded =>
    if s.session.pending.isSome then .error .notNow
    else .ok { s with session.pending := some decoded }
  | .waiting, .text | .turning _ _, .text => .ok (s.finish (.violation .textMessage))
  | .waiting, .closed | .turning _ _, .closed => .ok (s.finish .clientClosed)
  | .configuring _, _ | .ended _, _ => .error .notNow

def step (cfg : Config) (s : System) (a : Action) : Except Refusal System :=
  match a with
  | .tick d => .ok { s with now := s.now + d }
  | .inbound message sent => receive cfg s message sent
  | .takePending sent =>
    match s.phase, s.session.pending with
    | .waiting, some decoded =>
      .ok (onRequest cfg decoded sent
        { s with session.pending := none, session.idleDeadline := none })
    | _, _ => .error .notNow
  | .checkedOut fresh sent =>
    match s.phase with
    | .configuring _ => .ok (checkedOut cfg fresh sent s)
    | _ => .error .notNow
  | .answer event feed sent =>
    match s.phase with
    | .turning request _ =>
      .ok (forward cfg (requestKind request) event sent { s with feed := feed })
    | _ => .error .notNow
  | .workerLost =>
    match s.phase with
    | .turning _ _ => .ok (s.finish .workerFailed)
    | _ => .error .notNow
  | .expire kind =>
    match s.phase, s.deadline kind with
    | .ended _, _ | _, none => .error .notNow
    | _, some deadline =>
      if deadline ≤ s.now then .ok (s.finish (.timeout kind)) else .error .notNow
  | .drain =>
    match s.phase with
    | .waiting | .turning _ _ => .ok { s with session.draining := true }
    | _ => .error .notNow
  | .drop =>
    match s.phase with
    | .ended _ => .error .notNow
    | _ => .ok (s.finish .drainDropped)

/-- A connection that was just accepted. -/
def opened (cfg : Config) (now : Time) : System where
  now := now
  session :=
    { idleDeadline := cfg.idleTimeout.map (now + ·)
      sessionDeadline := cfg.sessionTimeout.map (now + ·) }

def Opened (cfg : Config) (s : System) : Prop := ∃ now, s = opened cfg now

end Montygo.Server
