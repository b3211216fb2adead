import Montygo.TurnEngine.Run

/-!
# What goes over the wire

The calls of one checkout, with the frames that they send and the events that they receive, in
order.

`Calls` is a run on one checkout.  A call that has not returned keeps the checkout's mutex, so that
no call comes after it.
-/

namespace Montygo.TurnEngine

open Go Value WireFormat Wire

namespace Checkout

variable (cfg : Config) (c : Checkout)

/-! ## Calls -/

/-- The signals of a call that begins with `ensureReady`. -/
def readySignals (body : Checkout → List Signal) : List Signal :=
  match c.ensureReady with
  | (some _, _) => []
  | (none, c) => body c

/-- The signals of `Feed`. -/
def feedSignals (env : Env) (code : GoString) (inputs : List NamedValue)
    (mounts : Option MountTable) (firstMount : GoString) (cwd : Option GoString)
    (skipTypeCheck : Bool) : List Signal :=
  c.readySignals fun c =>
    if c.pending.kind ≠ .none then []
    else
      match c.feedDir cfg firstMount cwd with
      | .error _ => []
      | .ok dir =>
        turnSignals cfg { c with feedMounts := mounts } env
          (.feed { code := code, inputs := inputs, skipTypeCheck := skipTypeCheck, cwd := dir }) false

/-- The signals of `Resume`. -/
def resumeSignals (env : Env) (result : ExtResult) : List Signal :=
  c.readySignals fun c =>
    if c.pending.kind ≠ .call then []
    else if result.kind = extNotHandled ∧ c.pending.os.isNone = true then []
    else c.turnSignals cfg env (.resumeCall c.pending.callID (c.resumeResult result)) false

/-- The signals of `ResumeNameLookup`. -/
def resumeNameLookupSignals (env : Env) (kind : LookupKind) (value : Object)
    (error : Option RaisedException) : List Signal :=
  c.readySignals fun c =>
    if c.pending.kind ≠ .lookup then []
    else c.turnSignals cfg env (.resumeNameLookup kind value error) false

/-- The signals of `ResumeFutures`. -/
def resumeFuturesSignals (env : Env) (results : List FutureResult) : List Signal :=
  c.readySignals fun c =>
    match c.futuresError results with
    | some _ => []
    | none =>
      match results.find? fun r => r.result.kind ≠ extReturn ∧ r.result.kind ≠ extError with
      | some _ => []
      | none => c.turnSignals cfg env (.resumeFutures results) false

/-- The signals of `ResumeFromMounts`. -/
def resumeFromMountsSignals (answer : MountAnswer) (env retry : Env) : List Signal :=
  match c.handlePendingMount answer with
  | some (.ok (some result), c) =>
    c.resumeSignals cfg env result ++
      match c.resume cfg env result with
      | some (.error e, c) =>
        if e.kind = .runtime ∧ e.preSend = true then
          c.resumeSignals cfg retry { kind := extError, error := e.exception }
        else []
      | _ => []
  | _ => []

/-- The signals of `Restore`. -/
def restoreSignals (env : Env) (state : Bytes) (mounts : Option MountTable) : List Signal :=
  c.readySignals fun c =>
    turnSignals cfg { c with
      pending := {}
      budget := { c.budget with durationBudget := none, reportedExec := 0, suspensionsSeen := 0 }
      feedMounts := mounts } env (.load state) true

/-- The signals of `InstallDependencies`. -/
def installDependenciesSignals (env : Env) (requirements : List GoString) : List Signal :=
  c.readySignals fun c =>
    if c.pending.kind ≠ .none then []
    else if requirements = [] then []
    else
      match requirements.findSome? (requirementError cfg) with
      | some _ => []
      | none => c.turnSignals cfg env (.installDependencies requirements) true

/-- The signals of `Finish`. -/
def finishSignals (env : Env) : List Signal :=
  if !c.held then []
  else if c.inFlight then []
  else if cfg.remote then []
  else c.turnSignals cfg env .reset true

/-- The signals of `Abort`. -/
def abortSignals (env : Env) (exc : Option RaisedException) : List Signal :=
  c.readySignals fun c =>
    if c.pending.kind = .none then []
    else turnSignals cfg { c with pending := {}, abortFlight := true } env (.abortFeed exc) false

/-- The signals of a call. -/
def signals : Call → List Signal
  | .feed env code inputs mounts firstMount cwd skipTypeCheck =>
    c.feedSignals cfg env code inputs mounts firstMount cwd skipTypeCheck
  | .resume env result => c.resumeSignals cfg env result
  | .resumeNameLookup env kind value error => c.resumeNameLookupSignals cfg env kind value error
  | .resumeFutures env results => c.resumeFuturesSignals cfg env results
  | .resumeFromMounts answer env retry => c.resumeFromMountsSignals cfg answer env retry
  | .dump env => c.turnSignals cfg env .dump true
  | .restore env state mounts => c.restoreSignals cfg env state mounts
  | .installDependencies env requirements => c.installDependenciesSignals cfg env requirements
  | .finish env => c.finishSignals cfg env
  | .abort env exc => c.abortSignals cfg env exc
  | .handlePendingMount _ | .terminate | .handoff | .dial _ | .bind _ _ _ => []

/-- The error that a call ends in, if any, and the checkout after it. -/
def outcome {α : Type} (x : Answer α) : Option (Option Error × Checkout) :=
  x.map fun answer =>
    match answer with
    | (.error e, c) => (some e, c)
    | (.ok _, c) => (none, c)

/-- A call on the checkout: `none` while it has not returned. -/
def invoke (a : Call) : Option (Option Error × Checkout) :=
  match a with
  | .restore env state mounts => outcome (c.restore cfg env state mounts)
  | .handoff => outcome (c.handoff cfg)
  | a => outcome (c.call cfg a)

end Checkout

/-! ## Runs on one checkout -/

/-- A call that was made, with its signals and the error that it ended in. -/
structure Entry where
  signals : List Signal
  error : Option Error

/-- The calls on a checkout so far; `co` is there unless a call has not returned. -/
structure Calls where
  co : Option Checkout
  log : List Entry := []

namespace Calls

/-- Everything that went over the wire. -/
def signals (s : Calls) : List Signal := s.log.flatMap Entry.signals

/-- One call. -/
def step (cfg : Config) (s : Calls) (a : Call) : Except Unit Calls :=
  match a, s.co with
  | .dial _, _ | .bind _ _ _, _ => .error ()
  | _, none => .error ()
  | a, some c =>
    match c.invoke cfg a with
    | none => .ok { co := none, log := s.log ++ [⟨c.signals cfg a, none⟩] }
    | some (error, c') => .ok { co := some c', log := s.log ++ [⟨c.signals cfg a, error⟩] }

/-- The signals of `configured`. -/
def configuredSignals (cfg : Config) (session : Configure) (env : Env) : List Signal :=
  Checkout.turnSignals cfg { budget := applyLimits session } env (cfg.configure session) true

/-- A checkout as `Pool.Checkout` or `Bind` returns it. -/
inductive Begun (cfg : Config) (session : Configure) : Calls → Prop
  | checkout {env : Env} {c : Checkout} (h : configured cfg session env = some (.ok (), c)) :
      Begun cfg session { co := c, log := [⟨configuredSignals cfg session env, none⟩] }
  | bind {r : Reservation} {env load : Env} {c c' : Checkout} {state : Bytes}
      (hconfigured : configured cfg session env = some (.ok (), c))
      (h : c.restoreCarried cfg load state r = some (.ok (), c')) :
      Begun cfg session
        { co := c'
          log := [⟨configuredSignals cfg session env, none⟩,
            ⟨Checkout.turnSignals cfg { c with budget := c.carriedBudget r } load (.load state) true,
              none⟩] }

end Calls

end Montygo.TurnEngine
