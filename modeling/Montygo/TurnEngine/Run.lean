import Montygo.TurnEngine.Outcome
import Montygo.Lib.Transition

/-!
# Runs of a session over its checkouts

A session has one checkout at a time.  It dials the first, and a rotation replaces it: `Handoff`
turns the checkout into a reservation, and `Bind` makes a checkout of it again.  Every other call
goes to the checkout that is there.

`SessionRun` also counts the suspensions that the host was handed since the last `Restore` that
succeeded.
-/

namespace Montygo.TurnEngine

open Go Value WireFormat Wire Checkout

/-- What the session holds. -/
inductive Place where
  | fresh
  | bound (c : Checkout)
  | reserved (r : Reservation)

/-- `handed` counts the suspensions handed to the host since the last restore. -/
structure SessionRun where
  place : Place := .fresh
  handed : ℕ := 0

/-- A call, with its arguments and with what the environment does meanwhile. -/
inductive Call where
  | dial (env : Env)
  | feed (env : Env) (code : GoString) (inputs : List NamedValue) (mounts : Option MountTable)
      (firstMount : GoString) (cwd : Option GoString) (skipTypeCheck : Bool)
  | resume (env : Env) (result : ExtResult)
  | resumeNameLookup (env : Env) (kind : LookupKind) (value : Object)
      (error : Option RaisedException)
  | resumeFutures (env : Env) (results : List FutureResult)
  | handlePendingMount (answer : MountAnswer)
  | resumeFromMounts (answer : MountAnswer) (env retry : Env)
  | dump (env : Env)
  | restore (env : Env) (state : Bytes) (mounts : Option MountTable)
  | installDependencies (env : Env) (requirements : List GoString)
  | finish (env : Env)
  | abort (env : Env) (exc : Option RaisedException)
  | terminate
  | handoff
  | bind (state : Option Bytes) (env load : Env)

/-- The events that are received during a call. -/
def Call.events : Call → List Event
  | .dial env | .feed env .. | .resume env _ | .resumeNameLookup env .. | .resumeFutures env _
  | .dump env | .restore env _ _ | .installDependencies env _ | .finish env | .abort env _ =>
    TurnEngine.events env.replies
  | .resumeFromMounts _ env retry =>
    TurnEngine.events env.replies ++ TurnEngine.events retry.replies
  | .bind _ env load => TurnEngine.events env.replies ++ TurnEngine.events load.replies
  | .handlePendingMount _ | .terminate | .handoff => []

/-- The answer of a call with the event that it hands to the host. -/
def handing {α : Type} (k : α → Option Event) (x : Answer α) : Answer (Option Event) :=
  x.map fun answer => (answer.1.map k, answer.2)

/-- The calls that go to the checkout and leave it in its place. -/
def Checkout.call (cfg : Config) (c : Checkout) : Call → Answer (Option Event)
  | .feed env code inputs mounts firstMount cwd skipTypeCheck =>
    handing some (c.feed cfg env code inputs mounts firstMount cwd skipTypeCheck)
  | .resume env result => handing some (c.resume cfg env result)
  | .resumeNameLookup env kind value error =>
    handing some (c.resumeNameLookup cfg env kind value error)
  | .resumeFutures env results => handing some (c.resumeFutures cfg env results)
  | .handlePendingMount answer => handing (fun _ => none) (c.handlePendingMount answer)
  | .resumeFromMounts answer env retry => handing id (c.resumeFromMounts cfg answer env retry)
  | .dump env => handing (fun _ => none) (c.dump cfg env)
  | .installDependencies env requirements =>
    handing (fun _ => none) (c.installDependencies cfg env requirements)
  | .finish env => handing (fun _ => none) (c.finish cfg env)
  | .abort env exc => handing (fun _ => none) (c.abort cfg env exc)
  | .terminate => some (.ok none, c.terminate)
  | .dial _ | .restore _ _ _ | .handoff | .bind _ _ _ => none

/-- How many suspensions are handed over. -/
def suspensions (handed : Option Event) : ℕ :=
  if handed.any Event.isSuspension then 1 else 0

/-- One call of the session.  `.error` for a call that is not made here, or has not returned. -/
def step (cfg : Config) (session : Configure) (s : SessionRun) (a : Call) :
    Except Unit SessionRun :=
  match s.place with
  | .fresh =>
    match a with
    | .dial env =>
      match configured cfg session env with
      | none => .error ()
      | some (.error _, _) => .ok s
      | some (.ok _, c) => .ok { s with place := .bound c }
    | _ => .error ()
  | .reserved r =>
    match a with
    | .bind state env load =>
      match bind cfg session r state env load with
      | none => .error ()
      | some (.error _) => .ok s
      | some (.ok c) => .ok { s with place := .bound c }
    | _ => .error ()
  | .bound c =>
    match a with
    | .handoff =>
      match c.handoff cfg with
      | none => .error ()
      | some (.error _, c) => .ok { s with place := .bound c }
      | some (.ok r, _) => .ok { s with place := .reserved r }
    | .restore env state mounts =>
      match c.restore cfg env state mounts with
      | none => .error ()
      | some (.error _, c) => .ok { s with place := .bound c }
      | some (.ok handed, c) => .ok { place := .bound c, handed := suspensions handed }
    | a =>
      match c.call cfg a with
      | none => .error ()
      | some (r, c) =>
        .ok { place := .bound c, handed := s.handed + suspensions (handedBy id r) }

/-! ## What a step does -/

/-- What a call does to the session. -/
inductive Moved (cfg : Config) (session : Configure) (s : SessionRun) : Call → SessionRun → Prop
  /-- A dial or a bind that failed. -/
  | unchanged {a : Call} : Moved cfg session s a s
  | dialled {env : Env} {u : Unit} {c : Checkout} (hplace : s.place = .fresh)
      (h : configured cfg session env = some (.ok u, c)) :
      Moved cfg session s (.dial env) { s with place := .bound c }
  | rebound {state : Option Bytes} {env load : Env} {r : Reservation} {c : Checkout}
      (hplace : s.place = .reserved r) (h : bind cfg session r state env load = some (.ok c)) :
      Moved cfg session s (.bind state env load) { s with place := .bound c }
  | reserved {c c' : Checkout} {r : Reservation} (hplace : s.place = .bound c)
      (h : c.handoff cfg = some (.ok r, c')) :
      Moved cfg session s .handoff { s with place := .reserved r }
  | kept {c c' : Checkout} {e : Error} (hplace : s.place = .bound c)
      (h : c.handoff cfg = some (.error e, c')) :
      Moved cfg session s .handoff { s with place := .bound c' }
  | restored {env : Env} {state : Bytes} {mounts : Option MountTable} {c c' : Checkout}
      {handed : Option Event}
      (hplace : s.place = .bound c) (h : c.restore cfg env state mounts = some (.ok handed, c')) :
      Moved cfg session s (.restore env state mounts)
        { place := .bound c', handed := suspensions handed }
  | unrestored {env : Env} {state : Bytes} {mounts : Option MountTable} {c c' : Checkout}
      {e : Error}
      (hplace : s.place = .bound c) (h : c.restore cfg env state mounts = some (.error e, c')) :
      Moved cfg session s (.restore env state mounts) { s with place := .bound c' }
  | called {a : Call} {c c' : Checkout} {r : Except Error (Option Event)}
      (hplace : s.place = .bound c) (h : c.call cfg a = some (r, c')) :
      Moved cfg session s a { place := .bound c', handed := s.handed + suspensions (handedBy id r) }

theorem moved_of_step {cfg : Config} {session : Configure} {s s' : SessionRun} {a : Call}
    (h : step cfg session s a = .ok s') : Moved cfg session s a s' := by
  unfold step at h
  split at h
  · rename_i hplace
    split at h
    · split at h
      · cases h
      · cases h
        exact .unchanged
      · rename_i hdial
        cases h
        exact .dialled hplace hdial
    · cases h
  · rename_i r hplace
    split at h
    · split at h
      · cases h
      · cases h
        exact .unchanged
      · rename_i hbind
        cases h
        exact .rebound hplace hbind
    · cases h
  · rename_i c hplace
    split at h
    · split at h
      · cases h
      · rename_i hhandoff
        cases h
        exact .kept hplace hhandoff
      · rename_i hhandoff
        cases h
        exact .reserved hplace hhandoff
    · split at h
      · cases h
      · rename_i hrestore
        cases h
        exact .unrestored hplace hrestore
      · rename_i hrestore
        cases h
        exact .restored hplace hrestore
    · split at h
      · cases h
      rename_i hcall
      cases h
      exact .called hplace hcall

/-! ## What the calls do to a checkout -/

section Answers

variable {cfg : Config} {session : Configure} {c c' : Checkout} {evs : List Event}
  {α : Type} {k : α → Option Event} {x : Answer α} {env : Env} {state : Bytes}

theorem eq_of_handing {r : Except Error (Option Event)} (h : handing k x = some (r, c')) :
    ∃ r₀, x = some (r₀, c') ∧ handedBy id r = handedBy k r₀ := by
  cases x with
  | none => cases h
  | some answer =>
    obtain ⟨r₀, c₀⟩ := answer
    cases h
    refine ⟨r₀, rfl, ?_⟩
    cases r₀ with
    | error e | ok a => rfl

section

variable {R : List Event → Option Event → Checkout → Checkout → Prop}

theorem Checkout.Relates.handing (h : Relates R evs c k x) : Relates R evs c id (handing k x) := by
  intro r c' heq
  obtain ⟨r₀, rfl, hr⟩ := eq_of_handing heq
  rw [hr]
  exact h r₀ c' rfl

theorem Checkout.Related.call (hR : Related cfg R)
    (hfeed : ∀ env code inputs mounts firstMount cwd skipTypeCheck,
      Relates R (TurnEngine.events env.replies) c some
        (c.feed cfg env code inputs mounts firstMount cwd skipTypeCheck)) (a : Call) :
    Relates R a.events c id (c.call cfg a) := by
  cases a with
  | feed => exact (hfeed _ _ _ _ _ _ _).handing
  | resume => exact hR.resume.handing
  | resumeNameLookup => exact hR.resumeNameLookup.handing
  | resumeFutures => exact hR.resumeFutures.handing
  | handlePendingMount => exact hR.handlePendingMount.handing
  | resumeFromMounts => exact hR.resumeFromMounts.handing
  | dump => exact hR.dump.handing
  | installDependencies => exact hR.installDependencies.handing
  | finish => exact hR.finish.handing
  | abort => exact hR.abort.handing
  | terminate => exact hR.silent ⟨rfl, rfl, (fun h => by cases h), .inl rfl⟩ rfl
  | dial | restore | handoff | bind =>
    intro r c' h
    cases h

end

/-- **What a call observes.** -/
theorem observes_call (a : Call) : Checkout.Observes a.events c id (c.call cfg a) :=
  (observed_related cfg).call (fun _ _ _ _ _ _ _ => observes_feed) a

/-- A call of a checkout without a worker hands nothing over, and leaves it without one. -/
def Checkout.Idle (x : Answer (Option Event)) : Prop :=
  ∀ r c', x = some (r, c') → handedBy id r = none ∧ c'.held = false

theorem gone_related (cfg : Config) :
    Related cfg fun _ handed c c' => c.held = false → handed = none ∧ c'.held = false where
  steady _ _ _ h hheld := ⟨rfl, by simpa [hheld] using h.held⟩
  turn h hheld := by
    obtain ⟨⟨e, rfl⟩, hgone⟩ := (ended_turn h).gone hheld
    exact ⟨rfl, hgone⟩
  drop h hheld := ⟨rfl, (h hheld).2⟩
  mono h _ := h
  trans h h' hheld := h' (h hheld).2

theorem idle_call (a : Call) (hheld : c.held = false) : Checkout.Idle (c.call cfg a) := by
  refine fun r c' h => (gone_related cfg).call (fun _ _ _ _ _ _ _ r c' h hheld => ?_) a r c' h hheld
  obtain ⟨⟨e, rfl⟩, hgone⟩ := whenReady_gone h hheld
  exact ⟨rfl, hgone⟩

/-! ## Restoring, handing over and binding -/

theorem held_of_gone (hgone : c.held = false → c'.held = false) (hheld : c'.held = true) :
    c.held = true := by
  by_contra hc
  rw [hgone (Bool.not_eq_true _ ▸ hc)] at hheld
  cases hheld

theorem suspensionLimit_le_of_observed {handed : Option Event} {b b' : SessionBudget}
    (h : Observed evs handed b b') : b'.suspensionLimit ≤ b.suspensionLimit := by
  obtain ⟨taken, -, -, rfl, -⟩ := h
  induction taken generalizing b with
  | nil => exact UInt64.le_refl _
  | cons ev rest ih =>
    exact UInt64.le_trans (ih (b := b.observe ev)) SessionBudget.suspensionLimit_observe_le

theorem restoreBudget_eq {saved : SessionBudget} : c.restoreBudget saved =
      { saved with suspensionLimit := (c.restoreBudget saved).suspensionLimit } := by
  unfold Checkout.restoreBudget
  split
  · rfl
  · rfl

theorem suspensionLimit_restoreBudget_le {saved : SessionBudget} :
    (c.restoreBudget saved).suspensionLimit ≤ saved.suspensionLimit := by
  unfold Checkout.restoreBudget
  split
  · rename_i hlt
    exact UInt64.le_of_lt hlt
  · exact UInt64.le_refl _

/-- The budget with which `Restore` loads. -/
def resetBudget (b : SessionBudget) : SessionBudget :=
  { b with durationBudget := none, reportedExec := 0, suspensionsSeen := 0 }

theorem restore_ok {mounts : Option MountTable} {handed : Option Event}
    (h : c.restore cfg env state mounts = some (.ok handed, c')) :
    c.held = true ∧ ∃ ev, (handed = none ∨ handed = some ev) ∧
      Observed (events env.replies) (some ev) (resetBudget c.budget) c'.budget := by
  obtain ⟨hheld, h⟩ := whenReady_ok h
  refine ⟨hheld, ?_⟩
  dsimp only at h
  split at h
  · cases h
  · split at h
    · cases h
    · cases h
  · rename_i ev c₁ hturn
    have hobserved := observed_turn hturn
    refine ⟨ev, ?_⟩
    split at h
    · cases h
      exact ⟨.inl rfl, hobserved⟩
    split at h
    · cases h
      exact ⟨.inr rfl, hobserved⟩
    · cases h

/-- What a failed `Restore` leaves of the budget: a limit that may be lower, or no worker. -/
theorem restore_error {mounts : Option MountTable} {e : Error}
    (h : c.restore cfg env state mounts = some (.error e, c')) :
    c'.budget.suspensionLimit ≤ c.budget.suspensionLimit ∧ (c'.held = false ∨
        c'.budget = { c.budget with suspensionLimit := c'.budget.suspensionLimit } ∧
          (c'.held = true → c.held = true)) := by
  unfold Checkout.restore Checkout.whenReady at h
  split at h
  · rename_i hready
    cases h
    have hsteady := steady_ensureReady hready
    rw [hsteady.budget]
    exact ⟨UInt64.le_refl _, .inr ⟨rfl, hsteady.held⟩⟩
  · rename_i c₁ hready
    obtain ⟨rfl, hheld⟩ := eq_of_ensureReady hready
    dsimp only at h
    split at h
    · cases h
    · rename_i e' c₂ hturn
      have hle := suspensionLimit_le_of_observed (observed_turn hturn)
      have hended := ended_turn hturn
      split at h
      · rename_i hlost
        cases h
        exact ⟨hle, .inl (held_of_workerLost hended hlost)⟩
      · cases h
        exact ⟨suspensionLimit_restoreBudget_le, .inr ⟨restoreBudget_eq, fun _ => hheld⟩⟩
    · rename_i ev c₂ hturn
      have hle := suspensionLimit_le_of_observed (observed_turn hturn)
      split at h
      · cases h
      split at h
      · cases h
      · cases h
        exact ⟨hle, .inl rfl⟩

theorem handoff_ok {r : Reservation} (h : c.handoff cfg = some (.ok r, c')) :
    c.held = true ∧ r.budget = c.budget := by
  obtain ⟨hheld, h⟩ := whenReady_ok h
  refine ⟨hheld, ?_⟩
  split at h
  · cases h
  split at h
  · cases h
  · cases h
    rfl

theorem observed_configured {u : Unit} (h : configured cfg session env = some (.ok u, c)) :
    Observed (events env.replies) none (applyLimits session) c.budget := by
  have hobserves : Checkout.Observes (events env.replies) { budget := applyLimits session }
      (fun _ => none) (configured cfg session env) :=
    (observed_related cfg).controlTurn fun _ => rfl
  exact hobserves _ _ h

/-- The budget that a bind goes on with is the reservation's, with a limit that may be lower. -/
theorem bind_ok {r : Reservation} {load : Env}
    (h : bind cfg session r (some state) env load = some (.ok c)) :
    ∃ limit, limit ≤ r.budget.suspensionLimit ∧
      Observed (events load.replies) none { r.budget with suspensionLimit := limit } c.budget := by
  unfold bind at h
  split at h
  · cases h
  · cases h
  rename_i c₁ hconfigured
  dsimp only at h
  split at h
  · cases h
  · cases h
  rename_i c₂ hcarried
  cases h
  unfold Checkout.restoreCarried at hcarried
  dsimp only at hcarried
  split at hcarried
  · rename_i c₃ hturn
    have hobserved : Observed (events load.replies) none (c₁.carriedBudget r) c₃.budget :=
      (observed_related cfg).controlTurn (k := fun _ => none) (fun _ => rfl) _ _ hturn
    cases hcarried
    unfold Checkout.carriedBudget at hobserved
    split at hobserved
    · rename_i hlt
      exact ⟨_, UInt64.le_of_lt hlt, hobserved⟩
    · exact ⟨_, UInt64.le_refl _, hobserved⟩
  · rename_i hother
    exact absurd hcarried (hother _ _)

end Answers

end Montygo.TurnEngine
