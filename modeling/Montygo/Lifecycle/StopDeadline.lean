import Montygo.Lib.Transition
import Mathlib.Order.Bounds.Basic
import Mathlib.Algebra.Order.Ring.Int

/-!
# The deadlines of a stop

An execution has one stop.  The first `Stop` sets when the reason is delivered and when the worker
is killed; every later one can only bring the two forward, and the first of them only until the
request phase begins.  Times and durations are in nanoseconds.
-/

namespace Montygo.StopDeadline

open Transition

variable {E : Type}

/-- `StopPolicy`, without `Join`, which bounds the wait of a closing session. -/
structure StopPolicy (E : Type) where
  drain : ℤ
  timeout : ℤ
  reason : Option E
  catchable : Bool

/-- `over`: the fields that are set. -/
def StopPolicy.over (p base : StopPolicy E) : StopPolicy E where
  drain := if p.drain ≠ 0 then p.drain else base.drain
  timeout := if p.timeout ≠ 0 then p.timeout else base.timeout
  reason := p.reason.or base.reason
  catchable := p.catchable || base.catchable

structure StopRequest (E : Type) where
  policy : StopPolicy E
  requestAt : ℤ
  killAt : ℤ
  requested : Bool := false
  resolvedOnce : Bool := false

def newStopRequest (p : StopPolicy E) (now : ℤ) : StopRequest E where
  policy := p
  requestAt := now + p.drain
  killAt := now + p.drain + max p.timeout 0

/-- `shorten`: only earlier deadlines take effect. -/
def StopRequest.shorten (req : StopRequest E) (p : StopPolicy E) (now : ℤ) : StopRequest E :=
  let requestAt :=
    if req.requested ∨ ¬now + p.drain < req.requestAt then req.requestAt else now + p.drain
  let killAt := requestAt + max p.timeout 0
  { req with
    requestAt := if requestAt < req.requestAt then requestAt else req.requestAt
    killAt := if killAt < req.killAt then killAt else req.killAt }

/-- What `requestStop` reads of an execution. -/
structure Stopping (E : Type) where
  stop : Option (StopRequest E) := none
  finished : Bool := false
  current : Bool := true
  terminal : Bool := false

/-- What happens to an execution: a `Stop`, the timer of the request time, the end of the stop, of
the run, of the execution's turn as the current one, of the session. -/
inductive StopMove (E : Type) where
  | requestStop (p : StopPolicy E) (now : ℤ)
  | enterRequest
  | resolve
  | finish
  | leave
  | terminate

namespace Stopping

variable (s : Stopping E)

/-- The answers of `requestStop` that need no waiting. -/
def done : Bool :=
  s.stop.any StopRequest.resolvedOnce || s.finished || (!s.current && s.stop.isNone) ||
    (s.terminal && s.stop.isNone)

/-- The stop that `requestStop` registers or shortens, before the request phase is looked at. -/
def registered (p : StopPolicy E) (now : ℤ) : StopRequest E :=
  match s.stop with
  | none => newStopRequest p now
  | some req => req.shorten p now

/-- `requestStop`, under the session's policy `base`.  A request time that is not in the future
begins the request phase at once. -/
def requestStop (base p : StopPolicy E) (now : ℤ) : Stopping E :=
  if s.done then s
  else
    let p := p.over base
    let req := s.registered p now
    { s with
      stop := some { req with requested := req.requested || !decide (now < req.requestAt) } }

end Stopping

/-- A `Stop` that finds something to stop: the policy that applies, when it is made, whether the
request phase has begun before it, and the request time after it. -/
structure StopCall (E : Type) where
  policy : StopPolicy E
  now : ℤ
  requested : Bool
  requestAfter : Option ℤ

/-- The call that a move from `s` to `s'` is, if it is one. -/
def StopMove.call (base : StopPolicy E) (s : Stopping E) (a : StopMove E) (s' : Stopping E) :
    List (StopCall E) :=
  match a with
  | .requestStop p now =>
    if s.done then []
    else [⟨p.over base, now, s.stop.any StopRequest.requested,
      s'.stop.map StopRequest.requestAt⟩]
  | .enterRequest | .resolve | .finish | .leave | .terminate => []

/-- The deadlines in terms of the calls. -/
structure StopRequest.Deadlines (req : StopRequest E) (calls : List (StopCall E)) : Prop where
  /-- The earliest request time asked for before the request phase. -/
  requestAt : IsLeast {t | ∃ c ∈ calls, c.requested = false ∧ t = c.now + c.policy.drain}
    req.requestAt
  /-- The earliest kill time that follows from the request time after a call. -/
  killAt : IsLeast {t | ∃ c ∈ calls, ∃ after ∈ c.requestAfter,
    t = after + max c.policy.timeout 0} req.killAt
  le : req.requestAt ≤ req.killAt
  /-- The policy is the first call's. -/
  first : ∃ c, calls.head? = some c ∧ req.policy = c.policy

/-- The stop of an execution, if there is one, is the result of the calls. -/
def Stopping.Explained (s : Stopping E) (calls : List (StopCall E)) : Prop :=
  match s.stop with
  | none => calls = []
  | some req => req.Deadlines calls

variable {s s' : Stopping E} {req : StopRequest E} {p base : StopPolicy E} {now : ℤ}
  {calls : List (StopCall E)} {a : StopMove E} {moves : List (StopMove E)}

theorem StopRequest.Deadlines.congr {req' : StopRequest E} (h : req.Deadlines calls)
    (hrequest : req'.requestAt = req.requestAt) (hkill : req'.killAt = req.killAt)
    (hpolicy : req'.policy = req.policy) : req'.Deadlines calls := by
  refine ⟨?_, ?_, ?_, ?_⟩
  · rw [hrequest]
    exact h.requestAt
  · rw [hkill]
    exact h.killAt
  · rw [hrequest, hkill]
    exact h.le
  · rw [hpolicy]
    exact h.first

end Montygo.StopDeadline
