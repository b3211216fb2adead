import Montygo.TurnEngine.Run
import Montygo.Lib.WireStandard

/-!
# The suspension limit

The limit only ever goes down, and the count of suspensions goes up with every suspension that is
received.  So the host is never handed more than the limit between two restores, as long as the
count itself is not lost.  It is lost in two ways: it is a `uint64` and wraps, and a `Bind` that is
given no state starts a new one.

The second is within the worker's reach.  A `DumpResult` without a state is a nil slice, which
`Bind` takes for a session that starts over (`handoff_loses_count`).
-/

namespace Montygo.TurnEngine

open Go Value WireFormat Wire Transition

variable {cfg : Config} {session : Configure} {s s' : SessionRun} {a : Call}
  {evs : List Event} {handed : Option Event} {b b' : SessionBudget}

/-! ## Counting -/

theorem suspensionsSeen_observe {ev : Event} (h : b.suspensionsSeen.toNat + 1 < 2 ^ 64) :
    (b.observe ev).suspensionsSeen.toNat = b.suspensionsSeen.toNat + suspensions (some ev) := by
  have hone : (1 : UInt64).toNat = 1 := rfl
  unfold SessionBudget.observe suspensions
  dsimp only [Option.any_some]
  split
  · rw [UInt64.toNat_add, hone, Nat.mod_eq_of_lt h]
  · rfl

theorem suspensionsSeen_observeAll (h : b.suspensionsSeen.toNat + evs.length < 2 ^ 64) :
    (b.observeAll evs).suspensionsSeen.toNat =
      b.suspensionsSeen.toNat + evs.countP Event.isSuspension := by
  induction evs generalizing b with
  | nil => rfl
  | cons ev rest ih =>
    rw [List.length_cons] at h
    have hone := @suspensionsSeen_observe b ev (by omega)
    have hle : suspensions (some ev) ≤ 1 := by
      unfold suspensions
      split <;> omega
    have hrest := ih (b := b.observe ev) (by omega)
    have hcount : (ev :: rest).countP Event.isSuspension =
        rest.countP Event.isSuspension + suspensions (some ev) := List.countP_cons
    calc ((b.observe ev).observeAll rest).suspensionsSeen.toNat
        = (b.observe ev).suspensionsSeen.toNat + rest.countP Event.isSuspension := hrest
      _ = b.suspensionsSeen.toNat + (ev :: rest).countP Event.isSuspension := by omega

theorem counted_of_observed (h : Observed evs handed b b')
    (hfits : b.suspensionsSeen.toNat + evs.length < 2 ^ 64) :
    b.suspensionsSeen.toNat + suspensions handed ≤ b'.suspensionsSeen.toNat := by
  obtain ⟨taken, htaken, -, rfl, hhanded⟩ := h
  have hlength := htaken.length_le
  rw [suspensionsSeen_observeAll (by omega)]
  suffices hcount : suspensions handed ≤ taken.countP Event.isSuspension by omega
  cases handed with
  | none => exact Nat.zero_le _
  | some ev =>
    unfold suspensions
    split
    · rename_i hsusp
      exact List.countP_pos_iff.mpr ⟨ev, (hhanded ev rfl).1, hsusp⟩
    · exact Nat.zero_le _

/-- **A call keeps the count within the limit**: `n` suspensions were handed over before it. -/
theorem handed_le_of_observed {n : ℕ} {limit : UInt64} (h : Observed evs handed b b')
    (hfits : b.suspensionsSeen.toNat + evs.length < 2 ^ 64)
    (hlimit : b.suspensionLimit ≤ limit) (hcounted : n ≤ b.suspensionsSeen.toNat)
    (hn : n ≤ limit.toNat) :
    n + suspensions handed ≤ b'.suspensionsSeen.toNat ∧ n + suspensions handed ≤ limit.toNat := by
  have hseen := counted_of_observed h hfits
  have hlimit' := UInt64.le_trans (suspensionLimit_le_of_observed h) hlimit
  refine ⟨by omega, ?_⟩
  obtain ⟨_, -, -, -, hhanded⟩ := h
  by_cases hsusp : ∃ ev, handed = some ev ∧ ev.isSuspension = true
  · obtain ⟨ev, hev, hsusp⟩ := hsusp
    have hle := UInt64.le_trans ((hhanded ev hev).2 hsusp) hlimit'
    rw [UInt64.le_iff_toNat_le] at hle
    omega
  · have hzero : suspensions handed = 0 := by
      cases handed with
      | none => rfl
      | some ev => exact if_neg fun hev => hsusp ⟨ev, rfl, hev⟩
    omega

/-! ## The invariant -/

/-- The budget of the checkout or of the reservation. -/
def SessionRun.budget (s : SessionRun) : Option SessionBudget :=
  match s.place with
  | .fresh => none
  | .bound c => some c.budget
  | .reserved r => some r.budget

attribute [local simp] SessionRun.budget

/-- The budget with which the session can go on. -/
def SessionRun.live (s : SessionRun) : Option SessionBudget :=
  match s.place with
  | .fresh => none
  | .bound c => if c.held then some c.budget else none
  | .reserved r => some r.budget

/-- A `Bind` after a `Handoff` is given a state. -/
def Call.carries : Call → Prop
  | .bind state _ _ => state.isSome = true
  | _ => True

/-- The count of suspensions has room for all events of the call. -/
def SessionRun.Fits (s : SessionRun) (a : Call) : Prop :=
  ∀ b, s.live = some b → b.suspensionsSeen.toNat + a.events.length < 2 ^ 64

/-- What holds of the limit and of the count in every state. -/
structure WithinLimit (n : UInt64) (s : SessionRun) : Prop where
  fresh : s.place = .fresh → s.handed = 0
  limit : ∀ b, s.budget = some b → b.suspensionLimit ≤ n
  handed : s.handed ≤ n.toNat
  counted : ∀ b, s.live = some b → s.handed ≤ b.suspensionsSeen.toNat

section Invariant

variable {n : UInt64} {c : Checkout}

theorem live_of_held (hplace : s.place = .bound c) (hheld : c.held = true) :
    s.live = some c.budget := by
  simp [SessionRun.live, hplace, hheld]

theorem withinLimit_bound {k : ℕ} (hlimit : c.budget.suspensionLimit ≤ n) (hhanded : k ≤ n.toNat)
    (hcounted : c.held = true → k ≤ c.budget.suspensionsSeen.toNat) :
    WithinLimit n { place := .bound c, handed := k } where
  fresh := nofun
  limit b hb := by
    cases hb
    exact hlimit
  handed := hhanded
  counted b hb := by
    simp only [SessionRun.live, Option.ite_none_right_eq_some, Option.some.injEq] at hb
    obtain ⟨hheld, rfl⟩ := hb
    exact hcounted hheld

theorem withinLimit_rebound {state : Bytes} {env load : Env} {r : Reservation}
    (hs : WithinLimit n s) (hfits : s.Fits (.bind (some state) env load))
    (hplace : s.place = .reserved r)
    (h : bind cfg session r (some state) env load = some (.ok c)) :
    WithinLimit n { s with place := .bound c } := by
  have hlive : s.live = some r.budget := by simp [SessionRun.live, hplace]
  have hbudget : s.budget = some r.budget := by simp [hplace]
  have hroom := hfits _ hlive
  rw [Call.events, List.length_append] at hroom
  have hhanded := hs.counted _ hlive
  obtain ⟨limit, hlimit, hobserved⟩ := bind_ok h
  have hcounted : r.budget.suspensionsSeen.toNat + suspensions none ≤
      c.budget.suspensionsSeen.toNat :=
    counted_of_observed (b := { r.budget with suspensionLimit := limit }) hobserved (by dsimp; omega)
  have hle := UInt64.le_trans (suspensionLimit_le_of_observed hobserved) hlimit
  exact withinLimit_bound (UInt64.le_trans hle (hs.limit _ hbudget)) hs.handed fun _ => by omega

theorem withinLimit_restored {env : Env} {state : Bytes} {mounts : Option MountTable}
    {c' : Checkout}
    (hs : WithinLimit n s) (hfits : s.Fits (.restore env state mounts))
    (hplace : s.place = .bound c) (h : c.restore cfg env state mounts = some (.ok handed, c')) :
    WithinLimit n { place := .bound c', handed := suspensions handed } := by
  obtain ⟨hheld, ev, hev, hobserved⟩ := restore_ok h
  have hroom := hfits _ (live_of_held hplace hheld)
  rw [Call.events] at hroom
  have hlimit := hs.limit c.budget (by simp [hplace])
  have hzero : (resetBudget c.budget).suspensionsSeen.toNat = 0 := rfl
  obtain ⟨hcounted, hle⟩ :=
    handed_le_of_observed hobserved (by omega) hlimit (Nat.zero_le _) (Nat.zero_le _)
  have hhanded : suspensions handed ≤ suspensions (some ev) := by
    obtain rfl | rfl := hev
    · exact Nat.zero_le _
    · exact Nat.le_refl _
  refine withinLimit_bound ?_ (by omega) fun _ => by omega
  exact UInt64.le_trans (suspensionLimit_le_of_observed hobserved) hlimit

theorem withinLimit_called {c' : Checkout} {r : Except Error (Option Event)}
    (hs : WithinLimit n s) (hfits : s.Fits a) (hplace : s.place = .bound c)
    (h : c.call cfg a = some (r, c')) :
    WithinLimit n { place := .bound c', handed := s.handed + suspensions (handedBy id r) } := by
  have hobserved := observes_call a r c' h
  have hlimit := hs.limit c.budget (by simp [hplace])
  have hle := UInt64.le_trans (suspensionLimit_le_of_observed hobserved) hlimit
  cases hheld : c.held with
  | true =>
    have hlive := live_of_held hplace hheld
    obtain ⟨hcounted, hbound⟩ :=
      handed_le_of_observed hobserved (hfits _ hlive) hlimit (hs.counted _ hlive) hs.handed
    exact withinLimit_bound hle hbound fun _ => hcounted
  | false =>
    obtain ⟨hnone, hgone⟩ := idle_call a hheld r c' h
    refine withinLimit_bound hle ?_ fun hheld' => ?_
    · rw [hnone]
      exact hs.handed
    · rw [hgone] at hheld'
      cases hheld'

/-- **One call keeps the limit and the count.** -/
theorem withinLimit_step (hs : WithinLimit (configuredSuspensions session) s)
    (hcarries : a.carries) (hfits : s.Fits a) (hstep : step cfg session s a = .ok s') :
    WithinLimit (configuredSuspensions session) s' := by
  have hmoved := moved_of_step hstep
  cases hmoved with
  | unchanged => exact hs
  | dialled hplace h =>
    refine withinLimit_bound (suspensionLimit_le_of_observed (observed_configured h)) hs.handed
      fun _ => ?_
    rw [hs.fresh hplace]
    exact Nat.zero_le _
  | rebound hplace h =>
    obtain ⟨state, rfl⟩ := Option.isSome_iff_exists.mp hcarries
    exact withinLimit_rebound hs hfits hplace h
  | reserved hplace h =>
    obtain ⟨hheld, hbudget⟩ := handoff_ok h
    refine ⟨nofun, fun b hb => ?_, hs.handed, fun b hb => ?_⟩
    · cases hb
      rw [hbudget]
      exact hs.limit _ (by simp [hplace])
    · cases hb
      rw [hbudget]
      exact hs.counted _ (live_of_held hplace hheld)
  | kept hplace h =>
    obtain ⟨hbudget, -, hheld, -⟩ := Checkout.steady_handoff h
    refine withinLimit_bound ?_ hs.handed fun hheld' => ?_
    · rw [hbudget]
      exact hs.limit _ (by simp [hplace])
    · rw [hbudget]
      exact hs.counted _ (live_of_held hplace (hheld hheld'))
  | restored hplace h => exact withinLimit_restored hs hfits hplace h
  | unrestored hplace h =>
    obtain ⟨hle, hgone | ⟨hbudget, hheld⟩⟩ := restore_error h
    · refine withinLimit_bound (UInt64.le_trans hle (hs.limit _ ?_)) hs.handed fun hheld => ?_
      · simp [hplace]
      · rw [hgone] at hheld
        cases hheld
    · refine withinLimit_bound (UInt64.le_trans hle (hs.limit _ ?_)) hs.handed fun hheld' => ?_
      · simp [hplace]
      have hcounted := hs.counted _ (live_of_held hplace (hheld hheld'))
      rw [hbudget]
      exact hcounted
  | called hplace h => exact withinLimit_called hs hfits hplace h

end Invariant

/-! ## Beyond the limit -/

/-- A suspension beyond the limit is answered with `AbortFeed`, or the checkout ends. -/
theorem receive_beyond_limit {c c' : Checkout} {ev : Event} {req : Request}
    {deadline : Option Duration} {abortSend : Option IoFailure} {rest : List Reply}
    {r : Except Error Event} (hsusp : ev.isSuspension = true)
    (hbeyond : (c.budget.observe ev).suspensionLimit < (c.budget.observe ev).suspensionsSeen)
    (h : (Checkout.receive cfg req deadline abortSend (.event ev :: rest) c).2 = some (r, c')) :
    (∃ exc c₁, Checkout.received cfg c ev req = .abort exc c₁ ∧ abortSend = none) ∨
      (∃ e, r = .error e) ∧ c'.held = false := by
  unfold Checkout.receive at h
  have hcases : (∃ e c₁, Checkout.received cfg c ev req = .abort e c₁ ∧
      c₁.budget = c.budget.observe ev) ∨ _ := Checkout.received_suspension hsusp
  obtain ⟨exc, c₁, heq, -⟩ | ⟨c₁, -, hb, hle⟩ | ⟨e, c₁, heq, -, hheld⟩ := hcases
  · simp only [heq] at h
    cases abortSend with
    | none => exact .inl ⟨exc, c₁, heq, rfl⟩
    | some failure =>
      obtain ⟨rfl, rfl⟩ := Checkout.eq_of_failed h
      exact .inr ⟨⟨_, rfl⟩, Checkout.lost_ioFailure.held⟩
  · rw [hb] at hle
    exact absurd hbeyond (UInt64.not_lt.mpr hle)
  · simp only [heq, Option.some.injEq, Prod.mk.injEq] at h
    obtain ⟨rfl, rfl⟩ := h
    exact .inr ⟨⟨e, rfl⟩, hheld⟩

/-! ## Runs -/

/-- **The suspension limit holds over every run** in which every bind after a handoff is given a
state and the count has room: the limit stays below the configured one, no more suspensions than
that are handed over between two restores, and a further one is aborted or ends the checkout. -/
theorem suspensions_within_limit
    (hreach : Reachable (step cfg session) (· = {}) (fun s a => a.carries ∧ s.Fits a) s) :
    (∀ b, s.budget = some b → b.suspensionLimit ≤ configuredSuspensions session) ∧
      s.handed ≤ (configuredSuspensions session).toNat ∧
      ∀ (c c' : Checkout) (ev : Event) (req : Request) (deadline : Option Duration)
        (abortSend : Option IoFailure) (rest : List Reply) (r : Except Error Event),
        ev.isSuspension = true →
        (c.budget.observe ev).suspensionLimit < (c.budget.observe ev).suspensionsSeen →
        (Checkout.receive cfg req deadline abortSend (.event ev :: rest) c).2 = some (r, c') →
        (∃ exc c₁, Checkout.received cfg c ev req = .abort exc c₁ ∧ abortSend = none) ∨
          (∃ e, r = .error e) ∧ c'.held = false := by
  have hs : WithinLimit (configuredSuspensions session) s := by
    refine hreach.invariant ?_ fun s a s' hs hguard hstep =>
      withinLimit_step hs hguard.1 hguard.2 hstep
    rintro s rfl
    exact ⟨fun _ => rfl, nofun, Nat.zero_le _, nofun⟩
  exact ⟨hs.limit, hs.handed, fun c c' ev req deadline abortSend rest r hsusp hbeyond h =>
    receive_beyond_limit hsusp hbeyond h⟩

/-! ## A limit of one -/

/-- A pool of remote workers, without a request timeout. -/
def remoteConfig : Config where
  wire := standard
  remote := true
  requestTimeout := 0
  durationLimitGrace := 1000000000
  graceDisabled := false
  montyVersion := []
  protocolVersion := 1
  conversionMessage _ := []
  debugString s := s
  trimSpace s := s

/-- A worker that answers with one event. -/
def answers (ev : Event) : Env := { replies := [.event ev] }

/-- A session that may suspend once. -/
def oneSuspension : Configure := { limits := some { maxSuspensions := some 1 } }

/-- Its checkout after the dial. -/
def unspent : Checkout := { budget := { suspensionLimit := 1 }, sent := true }

/-- Its checkout at a function call. -/
def suspended : Checkout :=
  { pending := { kind := .call }, budget := { suspensionLimit := 1, suspensionsSeen := 1 },
    cwdSet := true, sent := true }

/-- Its checkout after the feed. -/
def completed : Checkout :=
  { budget := { suspensionLimit := 1, suspensionsSeen := 1 }, cwdSet := true, sent := true }

/-- A feed that suspends at a function call. -/
def suspendingFeed : Call :=
  .feed (answers { kind := .functionCall, functionCall := some {} }) [] [] none [] none false

/-- The answer to the call, with which the feed completes. -/
def completingResume : Call :=
  .resume (answers { kind := .complete, hasValue := true }) { kind := extReturn }

theorem step_suspendingFeed {k : ℕ} :
    step remoteConfig oneSuspension { place := .bound unspent, handed := k } suspendingFeed =
      .ok { place := .bound suspended, handed := k + 1 } := rfl

theorem suspensions_within_limit_one :
    Reachable (step remoteConfig oneSuspension) (· = {}) (fun s a => a.carries ∧ s.Fits a)
        { place := .bound suspended, handed := 1 } ∧
      1 ≤ (configuredSuspensions oneSuspension).toNat := by
  have hdial : Reachable (step remoteConfig oneSuspension) (· = {})
      (fun s a => a.carries ∧ s.Fits a) { place := .bound unspent } :=
    .step (a := .dial (answers { kind := .ok })) (.initial rfl) ⟨trivial, nofun⟩ rfl
  have hfits : SessionRun.Fits { place := .bound unspent } suspendingFeed := by
    intro b hb
    cases hb
    decide
  have hfeed := Reachable.step (a := suspendingFeed) hdial ⟨trivial, hfits⟩ step_suspendingFeed
  exact ⟨hfeed, (suspensions_within_limit hfeed).2.1⟩

/-- A worker whose dump has no state is replaced by one that starts counting anew: with a limit of
one suspension, a second is handed to the host. -/
theorem handoff_loses_count :
    completed.dump remoteConfig (answers { kind := .dumpResult }) = some (.ok none, completed) ∧
      run (step remoteConfig oneSuspension) {}
        [.dial (answers { kind := .ok }), suspendingFeed, completingResume,
          .dump (answers { kind := .dumpResult }), .handoff,
          .bind none (answers { kind := .ok }) {}, suspendingFeed] =
        .ok { place := .bound suspended, handed := 2 } ∧
      (configuredSuspensions oneSuspension).toNat < 2 := by
  have hdial : step remoteConfig oneSuspension {} (.dial (answers { kind := .ok })) =
      .ok { place := .bound unspent } := rfl
  have hresume : step remoteConfig oneSuspension { place := .bound suspended, handed := 1 }
      completingResume = .ok { place := .bound completed, handed := 1 } := rfl
  have hdump : step remoteConfig oneSuspension { place := .bound completed, handed := 1 }
      (.dump (answers { kind := .dumpResult })) =
        .ok { place := .bound completed, handed := 1 } := rfl
  have hhandoff : step remoteConfig oneSuspension { place := .bound completed, handed := 1 }
      .handoff = .ok { place := .reserved { budget := completed.budget, cwdSet := true },
                       handed := 1 } := rfl
  have hbind : step remoteConfig oneSuspension
      { place := .reserved { budget := completed.budget, cwdSet := true }, handed := 1 }
      (.bind none (answers { kind := .ok }) {}) =
        .ok { place := .bound unspent, handed := 1 } := rfl
  refine ⟨rfl, ?_, by decide⟩
  rw [run_cons hdial, run_cons step_suspendingFeed, run_cons hresume, run_cons hdump,
    run_cons hhandoff, run_cons hbind, run_cons step_suspendingFeed]
  rfl

end Montygo.TurnEngine
