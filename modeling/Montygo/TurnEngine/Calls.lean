import Montygo.TurnEngine.Turn

/-!
# The calls of a checkout

Every call that the session makes on its checkout, each under the checkout's mutex.  A call takes
its arguments and what the environment does during its turns, and gives its result with the
checkout it leaves, or `none` while it has not returned.
-/

namespace Montygo.TurnEngine

open Go Value WireFormat Wire

/-- What the mount table of the feed makes of an OS call. -/
structure MountAnswer where
  handled : Bool
  result : Object := .none
  exc : Option RaisedException := none

namespace Checkout

variable (cfg : Config) (c : Checkout)

/-- A call that first asks whether the checkout is ready. -/
def whenReady {α : Type} (body : Checkout → Answer α) : Answer α :=
  match c.ensureReady with
  | (some e, c) => some (.error e, c)
  | (none, c) => body c

/-- `ValidateCwd`: the directory, or the text of the error. -/
def validateCwd (cwd : GoString) : Except GoString GoString :=
  if (0 : UInt8) ∈ cwd then
    .error (lit "cwd must not contain NUL bytes: " ++ cfg.debugString cwd)
  else if !hasPrefix cwd (lit "/") then
    .error (lit "cwd must be an absolute POSIX path: " ++ cfg.debugString cwd)
  else
    let trimmed := (cwd.reverse.dropWhile (· = slash)).reverse
    .ok (if trimmed = [] then lit "/" else trimmed)

/-- The working directory that `Feed` sends. -/
def feedDir (firstMount : GoString) (cwd : Option GoString) : Except GoString GoString :=
  match cwd with
  | some cwd => validateCwd cfg cwd
  | none =>
    if c.cwdSet then .ok []
    else .ok (if firstMount ≠ [] then firstMount else lit "/")

/-- The end of `Feed`, which notes that the directory is set. -/
def feedDone : Answer Event → Answer Event
  | none => none
  | some (.error e, c) =>
    some (.error e, { c with cwdSet := c.cwdSet || (c.sent && e.kind ≠ .typing) })
  | some (.ok ev, c) => some (.ok ev, { c with cwdSet := c.cwdSet || c.sent })

def feed (env : Env) (code : GoString) (inputs : List NamedValue) (mounts : Option MountTable)
    (firstMount : GoString) (cwd : Option GoString) (skipTypeCheck : Bool) : Answer Event :=
  c.whenReady fun c =>
    if c.pending.kind ≠ .none then
      some (.error (protocolError (lit "feed called while a suspension is awaiting an answer")), c)
    else
      match c.feedDir cfg firstMount cwd with
      | .error message => some (.error (runtimeError (lit "ValueError") message), c)
      | .ok dir =>
        let c := { c with feedMounts := mounts }
        feedDone (c.turn cfg env
          (.feed { code := code, inputs := inputs, skipTypeCheck := skipTypeCheck, cwd := dir })
          false)

/-- The result that `resumeLocked` sends. -/
def resumeResult (result : ExtResult) : ExtResult :=
  if result.kind = extFuture then { result with futureCallID := c.pending.callID }
  else if result.kind = extNotFound then { result with notFoundName := c.pending.name }
  else result

def resume (env : Env) (result : ExtResult) : Answer Event :=
  c.whenReady fun c =>
    if c.pending.kind ≠ .call then
      some (.error (protocolError (lit "no suspended call to resume")), c)
    else if result.kind = extNotHandled ∧ c.pending.os.isNone = true then
      some (.error (protocolError (lit "NotHandled is only valid answering an OS call")), c)
    else c.turn cfg env (.resumeCall c.pending.callID (c.resumeResult result)) false

def resumeNameLookup (env : Env) (kind : LookupKind) (value : Object)
    (error : Option RaisedException) : Answer Event :=
  c.whenReady fun c =>
    if c.pending.kind ≠ .lookup then
      some (.error (protocolError (lit "no suspended name lookup to resume")), c)
    else c.turn cfg env (.resumeNameLookup kind value error) false

/-- The checks of `ResumeFutures`. -/
def futuresError (results : List FutureResult) : Option Error :=
  if c.pending.kind = .futures then none
  else if c.pending.kind = .call ∧ c.pending.allowEager = true then
    match results with
    | [r] =>
      if r.callID = c.pending.callID then none
      else some (protocolError (lit "eager result must match the suspended call id"))
    | _ => some (protocolError (lit "eager result must match the suspended call id"))
  else some (protocolError (lit "no suspended futures to resume"))

def resumeFutures (env : Env) (results : List FutureResult) : Answer Event :=
  c.whenReady fun c =>
    match c.futuresError results with
    | some e => some (.error e, c)
    | none =>
      match results.find? fun r => r.result.kind ≠ extReturn ∧ r.result.kind ≠ extError with
      | some r =>
        some (.error (protocolError (lit "future " ++ lit (toString r.callID) ++
          lit " must resolve to Return or Error")), c)
      | none => c.turn cfg env (.resumeFutures results) false

/-- `HandlePendingMount`: `none` when the call is not handled. -/
def handlePendingMount (answer : MountAnswer) : Answer (Option ExtResult) :=
  c.whenReady fun c =>
    if c.pending.kind ≠ .call then
      some (.error (protocolError (lit "no suspended call to resume")), c)
    else if c.pending.os.isNone then
      some (.error (protocolError (lit "resume_from_mounts is only valid answering an OS call")), c)
    else if c.feedMounts = none ∨ answer.handled = false then some (.ok none, c)
    else
      match answer.exc with
      | some exc => some (.ok (some { kind := extError, error := some exc }), c)
      | none => some (.ok (some { kind := extReturn, value := answer.result }), c)

/-- `ResumeFromMounts`: an answer that was rejected before it was sent makes place for its error. -/
def resumeFromMounts (answer : MountAnswer) (env retry : Env) : Answer (Option Event) :=
  match c.handlePendingMount answer with
  | none => none
  | some (.error e, c) => some (.error e, c)
  | some (.ok none, c) => some (.ok none, c)
  | some (.ok (some result), c) =>
    match c.resume cfg env result with
    | none => none
    | some (.ok ev, c) => some (.ok (some ev), c)
    | some (.error e, c) =>
      if e.kind = .runtime ∧ e.preSend = true then
        match c.resume cfg retry { kind := extError, error := e.exception } with
        | none => none
        | some (.ok ev, c) => some (.ok (some ev), c)
        | some (.error e, c) => some (.error e, c)
      else some (.error e, c)

/-- A control turn whose reply must be of one kind. -/
def controlTurn {α : Type} (env : Env) (req : Request) (name : String) (want : EventKind)
    (k : Event → α) : Answer α :=
  match c.turn cfg env req true with
  | none => none
  | some (.error e, c) => some (.error e, c)
  | some (.ok ev, c) =>
    if ev.kind ≠ want then some (.error (unexpectedReply name ev.kind), c.discard)
    else some (.ok (k ev), c)

/-- `Dump`: `none` for the nil slice of a reply without a state. -/
def dump (env : Env) : Answer (Option Bytes) :=
  c.controlTurn cfg env .dump "Dump" .dumpResult Event.state

/-- The budget that a failed `Restore` leaves: the old one, with a limit that was lowered
meanwhile. -/
def restoreBudget (saved : SessionBudget) : SessionBudget :=
  if c.budget.suspensionLimit < saved.suspensionLimit then
    { saved with suspensionLimit := c.budget.suspensionLimit }
  else saved

/-- `Restore`: `none` for an idle dump. -/
def restore (env : Env) (state : Bytes) (mounts : Option MountTable) : Answer (Option Event) :=
  c.whenReady fun c =>
    let saved := c.budget
    let c := { c with
      pending := {}
      budget := { c.budget with durationBudget := none, reportedExec := 0, suspensionsSeen := 0 }
      feedMounts := mounts }
    match c.turn cfg env (.load state) true with
    | none => none
    | some (.error e, c) =>
      if e.workerLost then some (.error e, c)
      else some (.error e, { c with budget := c.restoreBudget saved })
    | some (.ok ev, c) =>
      let c := { c with cwdSet := true }
      if ev.kind = .ok then some (.ok none, c)
      else if ev.isSuspension then some (.ok (some ev), c)
      else some (.error (unexpectedReply "Load" ev.kind), c.discard)

/-- The check of one requirement, with the text of its error. -/
def requirementError (r : GoString) : Option GoString :=
  let trimmed := cfg.trimSpace r
  if trimmed = [] then
    some (lit "invalid requirement " ++ cfg.debugString r ++ lit ": must not be empty")
  else if hasPrefix trimmed (lit "-") then
    some (lit "invalid requirement " ++ cfg.debugString r ++
      lit ": must not start with '-' (it would be parsed as a uv option)")
  else none

def installDependencies (env : Env) (requirements : List GoString) : Answer Unit :=
  c.whenReady fun c =>
    if c.pending.kind ≠ .none then
      some (.error (protocolError
        (lit "install_dependencies called while a suspension is awaiting an answer")), c)
    else if requirements = [] then some (.ok (), c)
    else
      match requirements.findSome? (requirementError cfg) with
      | some message => some (.error (runtimeError (lit "ValueError") message), c)
      | none =>
        c.controlTurn cfg env (.installDependencies requirements) "InstallDependencies" .ok
          fun _ => ()

def finish (env : Env) : Answer Unit :=
  if !c.held then some (.ok (), { c with cancelled := false })
  else if c.inFlight then some (.ok (), c.discard)
  else if cfg.remote then some (.ok (), { c with held := false })
  else
    match c.controlTurn cfg env .reset "Reset" .ok fun _ => () with
    | none => none
    | some (.error e, c) => some (.error e, c.discard)
    | some (.ok _, c) => some (.ok (), { c.settled with held := false })

/-- `Abort`: the worker must answer with an error. -/
def abort (env : Env) (exc : Option RaisedException) : Answer Unit :=
  c.whenReady fun c =>
    if c.pending.kind = .none then
      some (.error (protocolError (lit "abort without a pending suspension")), c)
    else
      let c := { c with pending := {}, abortFlight := true }
      match c.turn cfg env (.abortFeed exc) false with
      | none => none
      | some (.error e, c) => some (.error e, c)
      | some (.ok ev, c) => some (.error (unexpectedReply "AbortFeed" ev.kind), c.discard)

/-- `Terminate` and `Abandon`, of the lease alone. -/
def terminate : Checkout := { c with held := false }

end Checkout

/-! ## Checking out and handing over -/

/-- `Reservation`, with what a handoff keeps for the following bind. -/
structure Reservation where
  budget : SessionBudget := {}
  cwdSet : Bool := false

/-- The configuration of the session, with the versions of the pool. -/
def Config.configure (cfg : Config) (session : Configure) : Request :=
  .configure { session with montyVersion := cfg.montyVersion, protocolVersion := cfg.protocolVersion }

/-- `newCheckout` and the turn that configures the session, of `Pool.Checkout` and of `Bind`. -/
def configured (cfg : Config) (session : Configure) (env : Env) : Answer Unit :=
  Checkout.controlTurn cfg { budget := applyLimits session } env (cfg.configure session)
    "Configure" .ok fun _ => ()

namespace Checkout

variable (cfg : Config) (c : Checkout)

def handoff : Answer Reservation :=
  c.whenReady fun c =>
    if c.pending.kind ≠ .none then
      some (.error (protocolError (lit "handoff with a pending suspension")), c)
    else if !cfg.remote then
      some (.error (protocolError (lit "handoff requires a remote worker")), c)
    else
      some (.ok { budget := c.budget, cwdSet := c.cwdSet }, { c.settled with held := false })

/-- The budget with which `restoreCarried` goes on. -/
def carriedBudget (r : Reservation) : SessionBudget :=
  if c.budget.suspensionLimit < r.budget.suspensionLimit then
    { r.budget with suspensionLimit := c.budget.suspensionLimit }
  else r.budget

def restoreCarried (env : Env) (state : Bytes) (r : Reservation) : Answer Unit :=
  let c := { c with budget := c.carriedBudget r }
  match c.controlTurn cfg env (.load state) "Load" .ok fun _ => () with
  | some (.ok _, c) => some (.ok (), { c with cwdSet := r.cwdSet })
  | other => other

end Checkout

/-- `Bind` from the point where its worker is up: a worker is configured and, with a state, goes
on where the reservation left off.  A failed attempt keeps the reservation. -/
def bind (cfg : Config) (session : Configure) (r : Reservation) (state : Option Bytes)
    (env load : Env) : Option (Except Error Checkout) :=
  match configured cfg session env with
  | none => none
  | some (.error e, _) => some (.error e)
  | some (.ok _, c) =>
    match state with
    | none => some (.ok c)
    | some state =>
      match c.restoreCarried cfg load state r with
      | none => none
      | some (.error e, _) => some (.error e)
      | some (.ok _, c) => some (.ok c)

end Montygo.TurnEngine
