import Montygo.Wire.Request

/-!
# The budget of a session

A checkout keeps the duration limit of its session, the execution time its worker reported, and
the suspensions it has seen.  Durations are `int64` nanoseconds; the limits and the times that
cross the wire are `uint64` microseconds, so every conversion and every sum may wrap.

`deadline_eq` says what the deadline of an execution turn is as long as nothing wraps: the smaller
of the request timeout and of what remains of the limit with the grace on top.
-/

namespace Montygo

def Wire.Event.isSuspension (ev : Wire.Event) : Bool :=
  match ev.kind with
  | .functionCall | .osCall | .nameLookup | .resolveFutures => true
  | _ => false

namespace TurnEngine

open Wire

/-- `time.Duration`: nanoseconds. -/
abbrev Duration := Int64

/-- `time.Duration(n) * time.Microsecond`. -/
def micros (n : UInt64) : Duration := n.toInt64 * 1000

/-! ## Configured limits -/

structure ResourceLimits where
  maxDuration : Duration := 0
  maxMemory : UInt64 := 0
  gcInterval : UInt64 := 0
  maxRecursionDepth : UInt64 := 0
  maxSuspensions : UInt64 := 0

/-- `Unlimited`. -/
def unlimited : UInt64 := 18446744073709551615

def unlimitedDuration : Duration := Int64.maxValue

/-- The message of an `OptionError`. -/
structure OptionError where
  message : String

/-- The limits that a session is configured with.  A recursion depth and a number of suspensions
are always sent; the others only where a limit is set. -/
def wireLimits (l : Option ResourceLimits) : Except OptionError Limits :=
  match l with
  | none => .ok { maxRecursionDepth := some 1000, maxSuspensions := some 1000 }
  | some l =>
    if l.maxDuration < 0 then
      .error ⟨"invalid maxDurationSecs: can not convert float seconds to Duration: " ++
        "value is negative"⟩
    else if l.maxRecursionDepth = unlimited then
      .error ⟨"maxRecursionDepth cannot be unlimited"⟩
    else
      .ok {
        maxDurationMicros :=
          if 0 < l.maxDuration ∧ l.maxDuration ≠ unlimitedDuration then
            some (l.maxDuration / 1000).toUInt64
          else none
        maxMemoryBytes :=
          if 0 < l.maxMemory ∧ l.maxMemory ≠ unlimited then some l.maxMemory else none
        gcInterval := if 0 < l.gcInterval then some l.gcInterval else none
        maxRecursionDepth := some (if 0 < l.maxRecursionDepth then l.maxRecursionDepth else 1000)
        maxSuspensions := some (if 0 < l.maxSuspensions then l.maxSuspensions else 1000) }

theorem maxDurationMicros_wireLimits {l : ResourceLimits} {limits : Limits}
    (hmax : 0 < l.maxDuration) (hlimited : l.maxDuration ≠ unlimitedDuration)
    (h : wireLimits (some l) = .ok limits) :
    limits.maxDurationMicros = some (l.maxDuration / 1000).toUInt64 := by
  simp only [wireLimits] at h
  split at h
  · cases h
  split at h
  · cases h
  cases h
  exact if_pos ⟨hmax, hlimited⟩

/-! ## The budget -/

def defaultMaxSuspensions : UInt64 := 1000

@[ext] structure SessionBudget where
  durationBudget : Option Duration := none
  reportedExec : UInt64 := 0
  suspensionLimit : UInt64 := 0
  suspensionsSeen : UInt64 := 0
  deriving DecidableEq

/-- The suspension limit of `applyLimits`. -/
def configuredSuspensions (cfg : Configure) : UInt64 :=
  (cfg.limits.bind Limits.maxSuspensions).getD defaultMaxSuspensions

/-- `applyLimits`, on a new checkout. -/
def applyLimits (cfg : Configure) : SessionBudget where
  durationBudget := (cfg.limits.bind Limits.maxDurationMicros).map micros
  suspensionLimit := configuredSuspensions cfg

namespace SessionBudget

def deadline (b : SessionBudget) (requestTimeout grace : Duration) (graceDisabled control : Bool) :
    Option Duration :=
  let d := if 0 < requestTimeout then some requestTimeout else none
  match b.durationBudget with
  | some budget =>
    if !control && !graceDisabled then
      let rem := budget - micros b.reportedExec
      let rem := if rem < 0 then 0 else rem
      let back := rem + grace
      match d with
      | some d => some (if back < d then back else d)
      | none => some back
    else d
  | none => d

def observe (b : SessionBudget) (ev : Event) : SessionBudget where
  reportedExec :=
    if b.reportedExec < ev.totalExecutionMicros then ev.totalExecutionMicros else b.reportedExec
  durationBudget :=
    match b.durationBudget with
    | some d => some d
    | none => ev.maxDurationMicros.map micros
  suspensionLimit :=
    match ev.maxSuspensions with
    | some n => if n < b.suspensionLimit then n else b.suspensionLimit
    | none => b.suspensionLimit
  suspensionsSeen := if ev.isSuspension then b.suspensionsSeen + 1 else b.suspensionsSeen

variable {b : SessionBudget} {ev : Event}

theorem suspensionLimit_observe_le : (b.observe ev).suspensionLimit ≤ b.suspensionLimit := by
  unfold observe
  dsimp only
  split
  · split
    · rename_i hlt
      exact UInt64.le_of_lt hlt
    · exact UInt64.le_refl _
  · exact UInt64.le_refl _

theorem reportedExec_le_observe : b.reportedExec ≤ (b.observe ev).reportedExec := by
  unfold observe
  dsimp only
  split
  · rename_i hlt
    exact UInt64.le_of_lt hlt
  · exact UInt64.le_refl _

theorem reportedExec_observe : (b.observe ev).reportedExec = b.reportedExec ∨
      (b.observe ev).reportedExec = ev.totalExecutionMicros := by
  unfold observe
  dsimp only
  split
  · exact .inr rfl
  · exact .inl rfl

theorem durationBudget_observe {d : Duration} (h : b.durationBudget = some d) :
    (b.observe ev).durationBudget = some d := by
  simp only [observe, h]

/-! ## Without wrapping -/

/-- The execution time reported, in nanoseconds. -/
def used (b : SessionBudget) : ℤ := b.reportedExec.toNat * 1000

theorem toInt_micros {n : UInt64} (h : n.toNat * 1000 < 2 ^ 63) :
    (micros n).toInt = n.toNat * 1000 := by
  have hn : n.toInt64.toInt = n.toNat := by
    change BitVec.toInt n.toBitVec = n.toNat
    rw [BitVec.toInt_eq_toNat_of_lt]
    · rfl
    · change 2 * n.toNat < 2 ^ 64
      omega
  have hthousand : (1000 : Int64).toInt = 1000 := by decide
  rw [micros, Int64.toInt_mul, hn, hthousand, Int.bmod_eq_of_le]
  · omega
  · omega

theorem toInt_back {d grace : Duration} (hd : 0 ≤ d.toInt) (hgrace : 0 < grace.toInt)
    (hused : b.reportedExec.toNat * 1000 < 2 ^ 63) (hsum : d.toInt + grace.toInt < 2 ^ 63) :
    ((if d - micros b.reportedExec < 0 then 0 else d - micros b.reportedExec) + grace).toInt =
      max (d.toInt - b.used) 0 + grace.toInt := by
  have hmicros := toInt_micros hused
  have hlt := Int64.toInt_lt d
  have hsub : (d - micros b.reportedExec).toInt = d.toInt - b.used := by
    rw [Int64.toInt_sub, hmicros, Int.bmod_eq_of_le]
    · rfl
    · omega
    · omega
  have hzero : (0 : Int64).toInt = 0 := rfl
  have hrem : (if d - micros b.reportedExec < 0 then 0 else d - micros b.reportedExec).toInt =
      max (d.toInt - b.used) 0 := by
    split
    · rename_i hneg
      rw [Int64.lt_iff_toInt_lt, hsub, hzero] at hneg
      rw [hzero, max_eq_right hneg.le]
    · rename_i hpos
      rw [Int64.lt_iff_toInt_lt, hsub, hzero] at hpos
      rw [hsub, max_eq_left (by omega)]
  have hused' : 0 ≤ b.used := by
    unfold used
    omega
  rw [Int64.toInt_add, hrem, Int.bmod_eq_of_le]
  · omega
  · omega

/-- The deadline of an execution turn when nothing wraps, as an integer. -/
def plainDeadline (b : SessionBudget) (requestTimeout grace d : ℤ) : ℤ :=
  if 0 < requestTimeout then min requestTimeout (max (d - b.used) 0 + grace)
  else max (d - b.used) 0 + grace

/-- **The deadline of an execution turn**, when nothing wraps. -/
theorem deadline_eq {d requestTimeout grace : Duration} (hbudget : b.durationBudget = some d)
    (hd : 0 ≤ d.toInt) (hgrace : 0 < grace.toInt)
    (hused : b.reportedExec.toNat * 1000 < 2 ^ 63) (hsum : d.toInt + grace.toInt < 2 ^ 63) :
    ∃ deadline, b.deadline requestTimeout grace false false = some deadline ∧
      deadline.toInt = b.plainDeadline requestTimeout.toInt grace.toInt d.toInt := by
  have hback := toInt_back hd hgrace hused hsum
  have hzero : (0 : Int64).toInt = 0 := rfl
  simp only [deadline, hbudget, plainDeadline]
  generalize (if d - micros b.reportedExec < 0 then 0 else d - micros b.reportedExec) + grace =
    back at hback ⊢
  by_cases htimeout : 0 < requestTimeout
  · have htimeout' : 0 < requestTimeout.toInt := by
      rwa [Int64.lt_iff_toInt_lt, hzero] at htimeout
    rw [if_pos htimeout, if_pos htimeout']
    refine ⟨_, rfl, ?_⟩
    split
    · rename_i hlt
      rw [Int64.lt_iff_toInt_lt, hback] at hlt
      rw [hback, min_eq_right hlt.le]
    · rename_i hge
      rw [Int64.lt_iff_toInt_lt, hback] at hge
      rw [min_eq_left (by omega)]
  · have htimeout' : ¬ 0 < requestTimeout.toInt := by
      rwa [Int64.lt_iff_toInt_lt, hzero] at htimeout
    rw [if_neg htimeout, if_neg htimeout']
    exact ⟨_, rfl, hback⟩

end SessionBudget

end TurnEngine

end Montygo
