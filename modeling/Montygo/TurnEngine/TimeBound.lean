import Montygo.TurnEngine.SuspensionLimit

/-!
# The time bound

The deadline of an execution turn is the smaller of the request timeout and of what remains of the
session's `MaxDuration`, with the grace on top.  What remains is computed in `int64` nanoseconds
from the microseconds that the worker reports.

As long as nothing wraps the deadline stays between the grace and `MaxDuration` with the grace on
top, and it only goes down: the reported time is a maximum and the limit is set once
(`deadline_within`).  A worker leaves these bounds with a report that wraps
(`report_wraps`), with the limit it sends when a dump is loaded, or through a handoff without
a state, after which the session starts over.
-/

namespace Montygo.TurnEngine

open Go Value WireFormat Wire Transition

variable {cfg : Config} {session : Configure} {s s' : SessionRun} {a : Call}
  {evs : List Event} {handed : Option Event} {b b' : SessionBudget} {max : ℤ} {limits : Limits}

/-! ## Budgets with a limit -/

/-- The budget has a limit of at most `max` nanoseconds, and no report that wraps. -/
def Timed (max : ℤ) (b : SessionBudget) : Prop :=
  ∃ d, b.durationBudget = some d ∧ 0 ≤ d.toInt ∧ d.toInt ≤ max ∧
    b.reportedExec.toNat * 1000 < 2 ^ 63

/-- The same limit, of which no less is used. -/
def Later (b b' : SessionBudget) : Prop :=
  b'.durationBudget = b.durationBudget ∧ b.reportedExec ≤ b'.reportedExec

/-- The event's report does not wrap. -/
def Reports (ev : Event) : Prop := ev.totalExecutionMicros.toNat * 1000 < 2 ^ 63

theorem reports_observe {ev : Event} (hused : b.reportedExec.toNat * 1000 < 2 ^ 63)
    (hev : Reports ev) : (b.observe ev).reportedExec.toNat * 1000 < 2 ^ 63 := by
  have hcases : (b.observe ev).reportedExec = _ ∨ _ := SessionBudget.reportedExec_observe
  obtain heq | heq := hcases
  · rw [heq]
    exact hused
  · rw [heq]
    exact hev

theorem timed_observe {ev : Event} (hb : Timed max b) (hev : Reports ev) :
    Timed max (b.observe ev) ∧ Later b (b.observe ev) := by
  obtain ⟨d, hd, hnonneg, hle, hused⟩ := hb
  have hlimit : (b.observe ev).durationBudget = some d := SessionBudget.durationBudget_observe hd
  exact ⟨⟨d, hlimit, hnonneg, hle, reports_observe hused hev⟩, hlimit.trans hd.symm,
    SessionBudget.reportedExec_le_observe⟩

theorem timed_observeAll (hb : Timed max b) (hevs : ∀ ev ∈ evs, Reports ev) :
    Timed max (b.observeAll evs) ∧ Later b (b.observeAll evs) := by
  induction evs generalizing b with
  | nil => exact ⟨hb, rfl, UInt64.le_refl _⟩
  | cons ev rest ih =>
    obtain ⟨hev, hrest⟩ := List.forall_mem_cons.mp hevs
    obtain ⟨hfirst, hlimit, hused⟩ := timed_observe hb hev
    obtain ⟨htimed, hlimit', hused'⟩ := ih hfirst hrest
    exact ⟨htimed, hlimit'.trans hlimit, UInt64.le_trans hused hused'⟩

theorem timed_of_observed (h : Observed evs handed b b') (hb : Timed max b)
    (hevs : ∀ ev ∈ evs, Reports ev) : Timed max b' ∧ Later b b' := by
  obtain ⟨taken, htaken, -, rfl, -⟩ := h
  exact timed_observeAll hb fun ev hev => hevs ev (htaken.subset hev)

/-- The event brings a limit of at most `max` nanoseconds. -/
def Allows (max : ℤ) (ev : Event) : Prop :=
  ∃ m, ev.maxDurationMicros = some m ∧ (m.toNat * 1000 : ℤ) ≤ max

theorem micros_timed {m : UInt64} (hm : (m.toNat * 1000 : ℤ) ≤ max) (hmax : max < 2 ^ 63) :
    0 ≤ (micros m).toInt ∧ (micros m).toInt ≤ max := by
  have hlt : m.toNat * 1000 < 2 ^ 63 := by omega
  have hmicros : (micros m).toInt = m.toNat * 1000 := SessionBudget.toInt_micros hlt
  omega

theorem timed_of_reset {ev : Event} (h : Observed evs (some ev) (resetBudget b) b')
    (hmax : max < 2 ^ 63) (hevs : ∀ ev ∈ evs, Reports ev)
    (hlimits : ∀ ev ∈ evs, ev.kind ≠ .print → Allows max ev) : Timed max b' := by
  obtain ⟨taken, htaken, hprint, rfl, hhanded⟩ := h
  cases taken with
  | nil => cases (hhanded ev rfl).1
  | cons first rest =>
    have hmem : first ∈ evs := htaken.subset List.mem_cons_self
    obtain ⟨m, hm, hle⟩ := hlimits first hmem (hprint first List.mem_cons_self)
    obtain ⟨hnonneg, hle'⟩ := micros_timed hle hmax
    have hfirst : Timed max ((resetBudget b).observe first) := by
      have hzero : (resetBudget b).reportedExec.toNat = 0 := rfl
      refine ⟨micros m, ?_, hnonneg, hle', reports_observe (by omega) (hevs first hmem)⟩
      simp [SessionBudget.observe, resetBudget, hm]
    exact (timed_observeAll hfirst fun ev hev =>
      hevs ev (htaken.subset (List.mem_cons_of_mem _ hev))).1

theorem timed_applyLimits {l : ResourceLimits} (hmax : 0 < l.maxDuration)
    (hlimited : l.maxDuration ≠ unlimitedDuration) (hlimits : wireLimits (some l) = .ok limits)
    (hsession : session.limits = some limits) :
    Timed l.maxDuration.toInt (applyLimits session) := by
  have hzero : (0 : Int64).toInt = 0 := rfl
  have hthousand : (1000 : Int64).toInt = 1000 := rfl
  have hlt := Int64.toInt_lt l.maxDuration
  have hpos : 0 < l.maxDuration.toInt := by rwa [Int64.lt_iff_toInt_lt, hzero] at hmax
  have hdiv : (l.maxDuration / 1000).toInt = l.maxDuration.toInt / 1000 := by
    rw [Int64.toInt_div_of_ne_right _ _ (by decide), hthousand, Int.tdiv_eq_ediv_of_nonneg hpos.le]
  have hnonneg : 0 ≤ l.maxDuration / 1000 := by
    rw [Int64.le_iff_toInt_le, hdiv, hzero]
    omega
  have hmicros : ((l.maxDuration / 1000).toUInt64.toNat : ℤ) = l.maxDuration.toInt / 1000 := by
    rw [Int64.toNat_toUInt64_of_le hnonneg, ← Int64.toNat_toInt, hdiv]
    omega
  have hused : (applyLimits session).reportedExec.toNat = 0 := rfl
  have hbounds : 0 ≤ (micros (l.maxDuration / 1000).toUInt64).toInt ∧
      (micros (l.maxDuration / 1000).toUInt64).toInt ≤ l.maxDuration.toInt :=
    micros_timed (by omega) (by omega)
  refine ⟨_, ?_, hbounds.1, hbounds.2, by omega⟩
  simp [applyLimits, hsession, maxDurationMicros_wireLimits hmax hlimited hlimits]

/-! ## Runs -/

/-- What the worker may send during a call: reports that do not wrap, and, when a dump is loaded,
a limit of at most `max` nanoseconds. -/
def Call.reports (max : ℤ) (a : Call) : Prop :=
  (∀ ev ∈ a.events, Reports ev) ∧
    match a with
    | .restore env _ _ => ∀ ev ∈ TurnEngine.events env.replies, ev.kind ≠ .print → Allows max ev
    | _ => True

/-- The call is a restore that succeeds. -/
def Restores (cfg : Config) (s : SessionRun) : Call → Prop
  | .restore env state mounts =>
    ∃ c handed c', s.place = .bound c ∧ c.restore cfg env state mounts = some (.ok handed, c')
  | _ => False

theorem live_bound {c : Checkout} {k : ℕ}
    (h : SessionRun.live { place := .bound c, handed := k } = some b) :
    c.held = true ∧ c.budget = b := by
  simpa [SessionRun.live] using h

/-- **One call keeps the limit, and uses no less of it** unless it restores. -/
theorem timed_step (hmax : max < 2 ^ 63) (hconfigured : Timed max (applyLimits session))
    (hs : ∀ b, s.live = some b → Timed max b) (hcarries : a.carries) (hreports : a.reports max)
    (hstep : step cfg session s a = .ok s') :
    ∀ b', s'.live = some b' → Timed max b' ∧
      (Restores cfg s a ∨ s.place = .fresh ∨ ∃ b, s.live = some b ∧ Later b b') := by
  intro b' hb'
  have hmoved := moved_of_step hstep
  cases hmoved with
  | unchanged => exact ⟨hs b' hb', .inr (.inr ⟨b', hb', rfl, UInt64.le_refl _⟩)⟩
  | dialled hplace h =>
    obtain ⟨-, rfl⟩ := live_bound hb'
    exact ⟨(timed_of_observed (observed_configured h) hconfigured hreports.1).1, .inr (.inl hplace)⟩
  | @rebound state env load r c hplace h =>
    obtain ⟨-, rfl⟩ := live_bound hb'
    obtain ⟨state, rfl⟩ := Option.isSome_iff_exists.mp hcarries
    have hlive : s.live = some r.budget := by simp [SessionRun.live, hplace]
    obtain ⟨limit, -, hobserved⟩ := bind_ok h
    have hreserved := hs _ hlive
    obtain ⟨htimed, hlater⟩ := timed_of_observed (b := { r.budget with suspensionLimit := limit })
      hobserved hreserved fun ev hev => hreports.1 ev (List.mem_append_right _ hev)
    exact ⟨htimed, .inr (.inr ⟨_, hlive, hlater⟩)⟩
  | reserved hplace h =>
    obtain ⟨hheld, hbudget⟩ := handoff_ok h
    cases hb'
    have hlive := live_of_held hplace hheld
    rw [hbudget]
    exact ⟨hs _ hlive, .inr (.inr ⟨_, hlive, rfl, UInt64.le_refl _⟩)⟩
  | kept hplace h =>
    obtain ⟨hheld, rfl⟩ := live_bound hb'
    obtain ⟨hbudget, -, hheld', -⟩ := Checkout.steady_handoff h
    have hlive := live_of_held hplace (hheld' hheld)
    rw [hbudget]
    exact ⟨hs _ hlive, .inr (.inr ⟨_, hlive, rfl, UInt64.le_refl _⟩)⟩
  | restored hplace h =>
    obtain ⟨-, rfl⟩ := live_bound hb'
    obtain ⟨-, ev, -, hobserved⟩ := restore_ok h
    exact ⟨timed_of_reset hobserved hmax hreports.1 hreports.2, .inl ⟨_, _, _, hplace, h⟩⟩
  | unrestored hplace h =>
    obtain ⟨hheld, rfl⟩ := live_bound hb'
    obtain ⟨-, hgone | ⟨hbudget, hheld'⟩⟩ := restore_error h
    · rw [hgone] at hheld
      cases hheld
    · have hlive := live_of_held hplace (hheld' hheld)
      have htimed := hs _ hlive
      rw [hbudget]
      exact ⟨htimed, .inr (.inr ⟨_, hlive, rfl, UInt64.le_refl _⟩)⟩
  | @called a c c' r hplace h =>
    obtain ⟨hheld, rfl⟩ := live_bound hb'
    have hheld' : c.held = true := held_of_gone (fun hgone => (idle_call a hgone r c' h).2) hheld
    have hlive := live_of_held hplace hheld'
    obtain ⟨htimed, hlater⟩ := timed_of_observed (observes_call a r c' h) (hs _ hlive) hreports.1
    exact ⟨htimed, .inr (.inr ⟨_, hlive, hlater⟩)⟩

/-- The smaller of the request timeout, if there is one, and of `d`. -/
def withTimeout (requestTimeout d : ℤ) : ℤ := if 0 < requestTimeout then min requestTimeout d else d

theorem withTimeout_mono {requestTimeout d d' : ℤ} (h : d ≤ d') :
    withTimeout requestTimeout d ≤ withTimeout requestTimeout d' := by
  unfold withTimeout
  split
  · exact min_le_min_left _ h
  · exact h

/-- The deadline of an execution turn, with a limit of which the reports have not wrapped. -/
theorem deadline_timed {requestTimeout grace : Duration} (hb : Timed max b)
    (hgrace : 0 < grace.toInt) (hsum : max + grace.toInt < 2 ^ 63) :
    ∃ limit d : Duration, b.durationBudget = some limit ∧ 0 ≤ limit.toInt ∧ limit.toInt ≤ max ∧
      b.deadline requestTimeout grace false false = some d ∧
      d.toInt =
        withTimeout requestTimeout.toInt (Max.max (limit.toInt - b.used) 0 + grace.toInt) := by
  obtain ⟨limit, hlimit, hnonneg, hle, hused⟩ := hb
  obtain ⟨d, hd, heq⟩ : ∃ d, b.deadline requestTimeout grace false false = some d ∧ _ :=
    SessionBudget.deadline_eq hlimit hnonneg hgrace hused (by omega)
  refine ⟨limit, d, hlimit, hnonneg, hle, hd, ?_⟩
  rw [heq]
  rfl

theorem used_nonneg : 0 ≤ b.used := by
  unfold SessionBudget.used
  omega

/-- **The deadline stays within its bounds**: in every run of a session with a positive grace in
which nothing wraps, every bind after a handoff is given a state and a restored session reports at
most the configured limit, every execution turn has a deadline between the grace and `MaxDuration`
with the grace on top, or the request timeout if that is smaller, and no call makes it later except
a restore. -/
theorem deadline_within {l : ResourceLimits} (hmax : 0 < l.maxDuration)
    (hlimited : l.maxDuration ≠ unlimitedDuration) (hlimits : wireLimits (some l) = .ok limits)
    (hsession : session.limits = some limits)
    (hgrace : 0 < cfg.durationLimitGrace) (henabled : cfg.graceDisabled = false)
    (hsum : l.maxDuration.toInt + cfg.durationLimitGrace.toInt < 2 ^ 63)
    (hreach : Reachable (step cfg session) (· = {})
      (fun _ a => a.carries ∧ a.reports l.maxDuration.toInt) s) :
    ∀ b, s.live = some b → ∃ d,
      b.deadline cfg.requestTimeout cfg.durationLimitGrace cfg.graceDisabled false = some d ∧
      withTimeout cfg.requestTimeout.toInt cfg.durationLimitGrace.toInt ≤ d.toInt ∧
      d.toInt ≤ withTimeout cfg.requestTimeout.toInt
        (l.maxDuration.toInt + cfg.durationLimitGrace.toInt) ∧
      ∀ a s' b', a.carries → a.reports l.maxDuration.toInt → step cfg session s a = .ok s' →
        ¬ Restores cfg s a → s'.live = some b' → ∃ d',
          b'.deadline cfg.requestTimeout cfg.durationLimitGrace cfg.graceDisabled false = some d' ∧
          d'.toInt ≤ d.toInt := by
  have hgrace' : 0 < cfg.durationLimitGrace.toInt := Int64.lt_iff_toInt_lt.mp hgrace
  have hbound : l.maxDuration.toInt < 2 ^ 63 := Int64.toInt_lt _
  have hconfigured := timed_applyLimits hmax hlimited hlimits hsession
  have hs : ∀ b, s.live = some b → Timed l.maxDuration.toInt b := by
    refine hreach.invariant (P := fun s => ∀ b, s.live = some b → Timed _ b) ?_
      fun s a s' hs hguard hstep b' hb' =>
        (timed_step hbound hconfigured hs hguard.1 hguard.2 hstep b' hb').1
    rintro s rfl b hb
    cases hb
  intro b hb
  rw [henabled]
  obtain ⟨limit, d, hlimit, hnonneg, hle, hd, heq⟩ := deadline_timed (hs b hb) hgrace' hsum
  have hused := used_nonneg (b := b)
  refine ⟨d, hd, ?_, ?_, ?_⟩
  · rw [heq]
    exact withTimeout_mono (by omega)
  · rw [heq]
    exact withTimeout_mono (by omega)
  · intro a s' b' hcarries hreports hstep hrestore hb'
    obtain ⟨htimed, hcases⟩ := timed_step hbound hconfigured hs hcarries hreports hstep b' hb'
    obtain hrestored | hfresh | ⟨b₀, hb₀, hlimit₀, hused₀⟩ := hcases
    · exact absurd hrestored hrestore
    · rw [SessionRun.live, hfresh] at hb
      cases hb
    · obtain rfl : b₀ = b := by
        rw [hb] at hb₀
        exact (Option.some.inj hb₀).symm
      obtain ⟨limit', d', hlimit', -, -, hd', heq'⟩ := deadline_timed htimed hgrace' hsum
      obtain rfl : limit' = limit := by
        rw [hlimit', hlimit] at hlimit₀
        exact Option.some.inj hlimit₀
      refine ⟨d', hd', ?_⟩
      rw [heq, heq']
      have hused' : b₀.used ≤ b'.used := by
        rw [UInt64.le_iff_toNat_le] at hused₀
        unfold SessionBudget.used
        omega
      exact withTimeout_mono (by omega)

/-! ## A limit of one second -/

/-- `MaxDuration` of one second. -/
def oneSecond : ResourceLimits := { maxDuration := 1000000000 }

/-- What `wireLimits` sends for it. -/
def oneSecondLimits : Limits :=
  { maxDurationMicros := some 1000000, maxRecursionDepth := some 1000, maxSuspensions := some 1000 }

def oneSecondSession : Configure := { limits := some oneSecondLimits }

/-- Its checkout after the dial, and after a report of that many microseconds. -/
def timedCheckout (reported : UInt64) : Checkout :=
  { budget := { durationBudget := some 1000000000, reportedExec := reported,
                suspensionLimit := 1000 }
    sent := true }

theorem deadline_within_oneSecond : wireLimits (some oneSecond) = .ok oneSecondLimits ∧
    ∃ d, (timedCheckout 0).budget.deadline 0 1000000000 false false = some d ∧
      1000000000 ≤ d.toInt ∧ d.toInt ≤ 2000000000 := by
  have hlimits : wireLimits (some oneSecond) = .ok oneSecondLimits := rfl
  have hdial : Reachable (step remoteConfig oneSecondSession) (· = {})
      (fun _ a => a.carries ∧ a.reports oneSecond.maxDuration.toInt)
      { place := .bound (timedCheckout 0) } := by
    refine .step (a := .dial (answers { kind := .ok })) (.initial rfl) ⟨trivial, ?_, trivial⟩ rfl
    intro ev hev
    obtain rfl := List.mem_singleton.mp hev
    exact (by decide : 0 * 1000 < 2 ^ 63)
  obtain ⟨d, hd, hlower, hupper, -⟩ := deadline_within (l := oneSecond) (by decide) (by decide)
    hlimits rfl (by decide) rfl (by decide) hdial (timedCheckout 0).budget rfl
  exact ⟨hlimits, d, hd, hlower, hupper⟩

/-- A report that wraps gives the worker more than a century. -/
theorem report_wraps : run (step remoteConfig oneSecondSession) {} [.dial (answers { kind := .ok }),
          .feed (answers { kind := .complete, hasValue := true,
                           totalExecutionMicros := 13835058055282164 })
            [] [] none [] none false] =
        .ok { place := .bound { timedCheckout 13835058055282164 with cwdSet := true } } ∧
      (timedCheckout 13835058055282164).budget.deadline remoteConfig.requestTimeout
        remoteConfig.durationLimitGrace remoteConfig.graceDisabled false =
        some 4611686020427387616 ∧
      ¬ (4611686020427387616 : Duration).toInt ≤ withTimeout remoteConfig.requestTimeout.toInt
        (oneSecond.maxDuration.toInt + remoteConfig.durationLimitGrace.toInt) := by
  have hdial : step remoteConfig oneSecondSession {} (.dial (answers { kind := .ok })) =
      .ok { place := .bound (timedCheckout 0) } := rfl
  refine ⟨?_, by decide, by decide⟩
  rw [run_cons hdial]
  rfl

end Montygo.TurnEngine
