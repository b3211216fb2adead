import Montygo.TurnEngine.SessionBudget

/-!
# Turns

A checkout is one worker dedicated to one session.  Its calls run under the checkout's mutex, one
after the other, and each call that talks to the worker runs a turn: a request is checked, encoded
and sent, and events are received until one ends the turn.

What the environment decides is in `Env`: whether the lease is still held when the turn looks at
it (another goroutine may terminate it at any time), how the sends end, and what is received.  A
turn whose replies are used up has not returned yet and gives `none`, and so does one that
dereferences a nil exception.
-/

namespace Montygo.TurnEngine

open Go Value WireFormat Wire

/-! ## Errors -/

inductive ErrorKind where
  | crashed
  | timeout
  | protocol
  | runtime
  | typing
  | exhausted
  | spawn
  | finished
  | disconnected
  | shutdown
  | cancelled
  | closed
  deriving DecidableEq

/-- `Error`, without exit statuses and close frames. -/
structure Error where
  kind : ErrorKind
  message : GoString := []
  announced : Bool := false
  timeout : Duration := 0
  exception : Option RaisedException := none
  diagnostics : GoString := []
  dump : Bytes := []
  hasDump : Bool := false
  /-- The failure took the worker with it. -/
  workerLost : Bool := false
  /-- The request was rejected before any bytes were written. -/
  preSend : Bool := false
  deriving DecidableEq

def newException (excType message : GoString) : RaisedException :=
  { excType := excType, message := some message }

def protocolError (message : GoString) : Error := { kind := .protocol, message := message }

def runtimeError (excType message : GoString) : Error :=
  { kind := .runtime, exception := some (newException excType message), preSend := true }

/-- `EventKind.String`. -/
def eventName : EventKind → GoString
  | .none => lit "None"
  | .print => lit "Print"
  | .functionCall => lit "FunctionCall"
  | .osCall => lit "OsCall"
  | .nameLookup => lit "NameLookup"
  | .resolveFutures => lit "ResolveFutures"
  | .complete => lit "Complete"
  | .error => lit "Error"
  | .typingError => lit "TypingError"
  | .dumpResult => lit "DumpResult"
  | .ok => lit "Ok"
  | .fatalError => lit "FatalError"
  | .shutdown => lit "ShutdownDump"

/-- `unexpected reply to %s: %s`. -/
def unexpectedReply (request : String) (kind : EventKind) : Error :=
  protocolError (lit ("unexpected reply to " ++ request ++ ": ") ++ eventName kind)

/-! ## The environment -/

/-- The configuration of the pool as a turn reads it, with the texts that the library renders. -/
structure Config where
  wire : Protowire
  /-- The worker is behind a WebSocket. -/
  remote : Bool
  requestTimeout : Duration
  durationLimitGrace : Duration
  graceDisabled : Bool
  montyVersion : GoString
  protocolVersion : UInt32
  /-- The text of a `ConversionError`. -/
  conversionMessage : ConversionError → GoString
  /-- `RustDebugString`. -/
  debugString : GoString → GoString
  /-- `strings.TrimSpace`. -/
  trimSpace : GoString → GoString

/-- Why a send or a receive fails. -/
inductive IoFailure where
  /-- The caller's context ended. -/
  | cancelled
  /-- The deadline of the turn passed. -/
  | timedOut
  | tooLarge (err : GoString)
  /-- The stream ended; `memory` for the exit code of a worker over its memory limit. -/
  | broken (memory : Bool)
  deriving DecidableEq

/-- What a receive gives. -/
inductive Reply where
  | event (ev : Event)
  | invalid (err : GoString)
  | lost (failure : IoFailure)

/-- What the environment does during a turn. -/
structure Env where
  /-- The lease is still held when the turn begins. -/
  held : Bool := true
  send : Option IoFailure := none
  replies : List Reply := []
  /-- How the send of an `AbortFeed` inside the turn ends. -/
  abortSend : Option IoFailure := none

/-- A frame to the worker, or an event from it.  A frame counts as sent once its send was attempted;
`reached` says that the attempt succeeded, so that the worker has the frame. -/
inductive Signal where
  | sent (req : Request) (reached : Bool)
  | received (ev : Event)

/-! ## The checkout -/

inductive PendingKind where
  | none
  | call
  | lookup
  | futures
  deriving DecidableEq

structure Pending where
  kind : PendingKind := .none
  callID : UInt32 := 0
  name : GoString := []
  os : Option OsCall := .none
  allowEager : Bool := false

/-- `MountTable`, the interface to the host's mounts.  An interface value is known by its identity;
what the table answers to an OS call comes with the call. -/
structure MountTable where
  identity : ℕ
  deriving DecidableEq

/-- `Checkout`: `held` while its lease has the worker, `feedMounts` is the table of the feed. -/
structure Checkout where
  held : Bool := true
  pending : Pending := {}
  feedMounts : Option MountTable := none
  budget : SessionBudget := {}
  inFlight : Bool := false
  cancelled : Bool := false
  cwdSet : Bool := false
  abortFlight : Bool := false
  sent : Bool := false

/-- The result of a call and the checkout it leaves. -/
abbrev Answer (α : Type) := Option (Except Error α × Checkout)

/-- `opNames`. -/
def opName : OsOp → GoString
  | 2 => lit "Path.exists"
  | 3 => lit "Path.is_file"
  | 4 => lit "Path.is_dir"
  | 5 => lit "Path.is_symlink"
  | 6 => lit "Path.read_text"
  | 7 => lit "Path.read_bytes"
  | 8 => lit "Path.stat"
  | 9 => lit "Path.iterdir"
  | 10 => lit "Path.resolve"
  | 11 => lit "Path.absolute"
  | 12 => lit "Path.unlink"
  | 13 => lit "Path.rmdir"
  | 14 => lit "Path.write_text"
  | 15 => lit "Path.append_text"
  | 16 => lit "Path.write_bytes"
  | 17 => lit "Path.append_bytes"
  | 18 => lit "open"
  | 19 => lit "Path.mkdir"
  | 20 => lit "Path.rename"
  | 21 => lit "os.getenv"
  | 22 => lit "os.environ"
  | 23 => lit "date.today"
  | 24 => lit "datetime.now"
  | _ => []

namespace Checkout

variable (cfg : Config) (c : Checkout)

/-- `discard`: the worker is given up. -/
def discard : Checkout :=
  { c with pending := {}, feedMounts := none, inFlight := false, held := false }

/-- `ensureReady`: the error it ends in, if any. -/
def ensureReady : Option Error × Checkout :=
  if c.cancelled then (some { kind := .cancelled }, { c with cancelled := false })
  else if !c.held then (some { kind := .finished }, c)
  else if c.inFlight then (some { kind := .cancelled }, c.discard)
  else (none, c)

/-- `ioFailure`, with `poisonTimeout` and `poison`. -/
def ioFailure (doing : GoString) (deadline : Option Duration) : IoFailure → Error × Checkout
  | .cancelled => ({ kind := .cancelled }, { c.discard with cancelled := true })
  | .timedOut =>
    ({ kind := .timeout, timeout := deadline.getD 0, workerLost := true }, c.discard)
  | .tooLarge err => (protocolError (lit "invalid payload from worker: " ++ err), c.discard)
  | .broken memory =>
    if cfg.remote then
      ({ kind := .disconnected, message := doing, workerLost := true }, c.discard)
    else if memory then
      ({ kind := .runtime,
         exception := some (newException (lit "MemoryError")
           (lit "the worker exceeded its memory limit and was terminated")),
         workerLost := true }, c.discard)
    else ({ kind := .crashed, message := doing, workerLost := true }, c.discard)

/-- A turn that ends in an error. -/
def failed (outcome : Error × Checkout) : Answer Event :=
  some (.error outcome.1, outcome.2)

/-- A feed that ended. -/
def settled : Checkout := { c with pending := {}, feedMounts := none }

def dispatch (ev : Event) (req : Request) : Except Error Event × Checkout :=
  match ev.kind with
  | .functionCall =>
    let fc := ev.functionCall.getD {}
    (.ok ev, { c with
      pending :=
        { kind := .call, callID := fc.callID, name := fc.functionName,
          allowEager := fc.allowEagerAwait } })
  | .osCall =>
    let call := ev.osCall.getD {}
    if call.op = 0 then (.error (protocolError (lit "OsCall event with no call")), c.discard)
    else if call.payloadErr.isSome then
      (.error (protocolError (lit "invalid OS call payload")), c.discard)
    else
      (.ok ev, { c with
        pending :=
          { kind := .call, callID := call.callID, name := opName call.op, os := some call } })
  | .nameLookup =>
    (.ok ev, { c with pending := { kind := .lookup, name := (ev.nameLookup.getD {}).name } })
  | .resolveFutures => (.ok ev, { c with pending := { kind := .futures } })
  | .complete =>
    if ev.hasValue then (.ok ev, c.settled)
    else (.error (protocolError (lit "complete event with no value")), c.settled.discard)
  | .error =>
    let c := match req with
      | .dump => c
      | _ => c.settled
    match ev.exception with
    | none => (.error (protocolError (lit "error event with no exception")), c.discard)
    | some e => (.error { kind := .runtime, exception := some e }, c)
  | .typingError => (.error { kind := .typing, diagnostics := ev.diagnostics }, c.settled)
  | .ok | .dumpResult => (.ok ev, c)
  | .fatalError =>
    (.error { kind := .crashed, announced := true, message := ev.fatalMessage,
              workerLost := true }, c.discard)
  | .shutdown =>
    if cfg.remote then
      (.error { kind := .shutdown, dump := ev.shutdownDump, hasDump := ev.hasShutdownDump,
                workerLost := true }, c.discard)
    else (.error (protocolError (lit "subprocess worker sent a ShutdownDump")), c.discard)
  | .none | .print => (.error (protocolError (lit "unexpected event")), c.discard)

/-! ## The loop -/

/-- What the loop does with an event. -/
inductive Received where
  /-- It goes on, after a print. -/
  | again (c : Checkout)
  /-- It answers with `AbortFeed` and goes on. -/
  | abort (exception : RaisedException) (c : Checkout)
  | returned (result : Except Error Event) (c : Checkout)

/-- `suspension limit %d exceeded`. -/
def limitExceeded : RaisedException :=
  newException (lit "RuntimeError")
    (lit "suspension limit " ++ lit (toString c.budget.suspensionLimit) ++ lit " exceeded")

/-- One event of the loop in `turn`. -/
def received (ev : Event) (req : Request) : Received :=
  if ev.kind = .print then .again c
  else
    let c := { c with budget := c.budget.observe ev }
    let returned (r : Except Error Event × Checkout) : Received := .returned r.1 r.2
    if c.abortFlight then
      let c := { c with abortFlight := false }
      if ev.kind = .error ∨ ev.kind = .fatalError ∨ ev.kind = .shutdown then
        returned (dispatch cfg { c with inFlight := false } ev req)
      else
        .returned (.error (protocolError
            (lit "worker answered AbortFeed with something other than an Error"))) c.discard
    else if ev.isSuspension = true ∧ c.budget.suspensionLimit < c.budget.suspensionsSeen then
      if ev.kind = .osCall ∧
          ((ev.osCall.getD {}).op = 0 ∨ (ev.osCall.getD {}).payloadErr.isSome = true) then
        -- dispatch discards the worker, which is still in flight
        returned (dispatch cfg c ev req)
      else .abort c.limitExceeded c
    else returned (dispatch cfg { c with inFlight := false } ev req)

/-- The outcome, after these signals. -/
def signalled (front : List Signal) (rest : List Signal × Answer Event) :
    List Signal × Answer Event :=
  (front ++ rest.1, rest.2)

/-- The receive loop of `turn`, with its signals. -/
def receive (req : Request) (deadline : Option Duration) (abortSend : Option IoFailure) :
    List Reply → Checkout → List Signal × Answer Event
  | [], _ => ([], none)
  | .lost failure :: _, c =>
    ([], failed (c.ioFailure cfg (lit "waiting for a reply") deadline failure))
  | .invalid err :: _, c =>
    ([], some (.error (protocolError (lit "invalid payload from worker: " ++ err)), c.discard))
  | .event ev :: rest, c =>
    match received cfg c ev req with
    | .again c => signalled [.received ev] (receive req deadline abortSend rest c)
    | .abort exception c =>
      match abortSend with
      | some failure =>
        ([.received ev, .sent (.abortFeed (some exception)) false],
          failed (c.ioFailure cfg (lit "aborting a feed") deadline failure))
      | none =>
        signalled [.received ev, .sent (.abortFeed (some exception)) true]
          (receive req deadline abortSend rest { c with abortFlight := true })
    | .returned result c => ([.received ev], some (result, c))

/-- The frame of a request, if it may be sent: `none` where the encoder runs into a nil
exception. -/
def prepare (req : Request) : Option (Except Error Bytes) :=
  if (requestValues req).any exceedsMaxDepth then
    some (.error (runtimeError (lit "RuntimeError") (lit "Max input depth exceeded")))
  else
    match encodeRequest cfg.wire req [] with
    | .error (.conversion e) => some (.error (runtimeError (lit "TypeError") (cfg.conversionMessage e)))
    | .error .nilPointer => none
    | .ok payload =>
      if maxFrameLen < payload.length then
        some (.error (runtimeError (lit "RuntimeError")
          (lit "request frame of " ++ lit (toString payload.length) ++
            lit " bytes exceeds the maximum of " ++ lit (toString maxFrameLen) ++ lit " bytes")))
      else some (.ok payload)

/-- `turn`, with its signals. -/
def turnWith (env : Env) (req : Request) (control : Bool) : List Signal × Answer Event :=
  match ensureReady { c with held := c.held && env.held } with
  | (some e, c) => ([], some (.error e, c))
  | (none, c) =>
    match prepare cfg req with
    | none => ([], none)
    | some (.error e) => ([], some (.error e, c))
    | some (.ok _) =>
      let deadline := c.budget.deadline cfg.requestTimeout cfg.durationLimitGrace
        cfg.graceDisabled control
      let c := { c with inFlight := true, sent := false }
      match env.send with
      | some failure =>
        ([.sent req false], failed (c.ioFailure cfg (lit "sending a request") deadline failure))
      | none =>
        signalled [.sent req true]
          (receive cfg req deadline env.abortSend env.replies { c with sent := true })

def turn (env : Env) (req : Request) (control : Bool) : Answer Event :=
  (c.turnWith cfg env req control).2

/-- The signals of `turn`. -/
def turnSignals (env : Env) (req : Request) (control : Bool) : List Signal :=
  (c.turnWith cfg env req control).1

end Checkout

end Montygo.TurnEngine
