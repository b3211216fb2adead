import Mathlib.Algebra.Order.Ring.Int

/-!
# When a session moves to a fresh connection

A server reports its session and turn timeouts in seconds.  The client rotates a session while more
than a turn and a margin remain, and only around a deadline of at least two such lead times.  The
seconds are capped on conversion, but the lead time is added and doubled in an `int64`.
-/

namespace Montygo.Rotation

/-- `time.Second`. -/
def second : Int64 := 1000000000

/-- `uint64(1<<63-1) / uint64(time.Second)`. -/
def maxSeconds : UInt64 := 9223372036

/-- `seconds`: the reported seconds as a duration. -/
def seconds (s : UInt64) : Int64 := (if s > maxSeconds then maxSeconds else s).toInt64 * second

/-- The timeouts of `ServerLimits`. -/
structure ServerLimits where
  sessionTimeout : Int64
  turnTimeout : Int64

/-- `toServerInfo`, of the two timeouts. -/
def toServerInfo (sessionTimeoutS turnTimeoutS : UInt64) : ServerLimits where
  sessionTimeout := seconds sessionTimeoutS
  turnTimeout := seconds turnTimeoutS

structure RotationPolicy where
  sessionTimeout : Int64
  turnTimeout : Int64
  margin : Int64

def defaultRotationMargin : Int64 := 30 * second

/-- The margin that `newRotationPolicy` applies. -/
def effectiveMargin (margin : Int64) : Int64 := if margin = 0 then defaultRotationMargin else margin

def newRotationPolicy (info : Option ServerLimits) (margin : Int64) : Option RotationPolicy :=
  match info with
  | none => none
  | some l =>
    let margin := effectiveMargin margin
    if l.sessionTimeout ≤ 0 ∨ l.turnTimeout ≤ 0 ∨
        l.sessionTimeout < 2 * (l.turnTimeout + margin) then none
    else some ⟨l.sessionTimeout, l.turnTimeout, margin⟩

/-- `Time.Sub`: the difference of two times, cut to what a duration holds. -/
def sub (t u : ℤ) : Int64 :=
  if 2 ^ 63 ≤ t - u then Int64.maxValue
  else if t - u < -2 ^ 63 then Int64.minValue
  else Int64.ofInt (t - u)

def RotationPolicy.due (r : RotationPolicy) (deadline now : ℤ) : Bool :=
  sub deadline now ≤ r.turnTimeout + r.margin

/-! ## Exact arithmetic -/

/-- The policy is right in exact arithmetic: the session lasts two lead times, and a connection is
due when no more than one remains. -/
structure RotationPolicy.Exact (r : RotationPolicy) : Prop where
  lasts : 2 * (r.turnTimeout.toInt + r.margin.toInt) ≤ r.sessionTimeout.toInt
  due_iff : ∀ deadline now, r.due deadline now = true ↔
    deadline - now ≤ r.turnTimeout.toInt + r.margin.toInt

/-- Twice the lead time fits an `int64`, or what it wraps to still exceeds the session, or there is
a timeout of zero. -/
def Fits (session turn margin : ℤ) : Prop :=
  session = 0 ∨ turn = 0 ∨ 2 * (turn + margin) < 2 ^ 63 ∨
    2 ^ 64 ≤ 2 * (turn + margin) ∧ 2 * (turn + margin) < 2 ^ 64 + 2 ^ 63 ∧
      session < 2 * (turn + margin) - 2 ^ 64

theorem toInt_seconds (s : UInt64) : (seconds s).toInt = min s.toNat 9223372036 * 1000000000 := by
  have hcapped : ((if s > maxSeconds then maxSeconds else s).toInt64).toInt =
      min s.toNat 9223372036 := by
    split
    · rename_i h
      rw [gt_iff_lt, UInt64.lt_iff_toNat_lt] at h
      have hmax : maxSeconds.toNat = 9223372036 := rfl
      have hcap : maxSeconds.toInt64.toInt = 9223372036 := rfl
      omega
    · rename_i h
      rw [gt_iff_lt, UInt64.lt_iff_toNat_lt, not_lt] at h
      have hmax : maxSeconds.toNat = 9223372036 := rfl
      have hsmall : s.toInt64.toInt = s.toNat :=
        BitVec.toInt_eq_toNat_of_lt (x := s.toBitVec) (by rw [UInt64.toNat_toBitVec]; omega)
      omega
  have hsecond : second.toInt = 1000000000 := rfl
  rw [seconds, Int64.toInt_mul, hcapped, hsecond, Int.bmod_eq_of_le]
  · omega
  · omega

theorem toInt_double (turn margin : Int64) :
    (2 * (turn + margin)).toInt = (2 * (turn.toInt + margin.toInt)).bmod (2 ^ 64) := by
  have htwo : (2 : Int64).toInt = 2 := rfl
  rw [Int64.toInt_mul, Int64.toInt_add, htwo, Int.mul_bmod_bmod]

theorem toInt_sub (t u : ℤ) : (sub t u).toInt = max (-2 ^ 63) (min (t - u) (2 ^ 63 - 1)) := by
  have hmax : Int64.maxValue.toInt = 2 ^ 63 - 1 := rfl
  have hmin : Int64.minValue.toInt = -2 ^ 63 := rfl
  unfold sub
  split
  · omega
  split
  · omega
  · rw [Int64.toInt_ofInt_of_le (by omega) (by omega)]
    omega

theorem toInt_effectiveMargin {margin : Int64} (h : 0 ≤ margin) :
    0 < (effectiveMargin margin).toInt ∧ (effectiveMargin margin).toInt < 2 ^ 63 := by
  have hdefault : defaultRotationMargin.toInt = 30000000000 := rfl
  unfold effectiveMargin
  split
  · omega
  rename_i hne
  rw [Int64.le_iff_toInt_le, Int64.toInt_zero] at h
  have hzero : margin.toInt ≠ 0 := fun heq => hne (Int64.toInt_inj.mp heq)
  have hlt := margin.toInt_lt
  omega

/-- A connection is due when the exact remaining time is at most a lead time that fits. -/
theorem due_iff_of_lt {r : RotationPolicy} (hpos : 0 ≤ r.turnTimeout.toInt + r.margin.toInt)
    (hlt : r.turnTimeout.toInt + r.margin.toInt < 2 ^ 63 - 1) (deadline now : ℤ) :
    r.due deadline now = true ↔ deadline - now ≤ r.turnTimeout.toInt + r.margin.toInt := by
  have hlead : (r.turnTimeout + r.margin).toInt = r.turnTimeout.toInt + r.margin.toInt := by
    rw [Int64.toInt_add, Int.bmod_eq_of_le (by omega) (by omega)]
  rw [RotationPolicy.due, decide_eq_true_iff, Int64.le_iff_toInt_le, toInt_sub, hlead]
  omega

theorem newRotationPolicy_eq_some {l : ServerLimits} {margin : Int64} {r : RotationPolicy} :
    newRotationPolicy (some l) margin = some r ↔
      0 < l.sessionTimeout.toInt ∧ 0 < l.turnTimeout.toInt ∧
        (2 * (l.turnTimeout.toInt + (effectiveMargin margin).toInt)).bmod (2 ^ 64) ≤
          l.sessionTimeout.toInt ∧
        r = ⟨l.sessionTimeout, l.turnTimeout, effectiveMargin margin⟩ := by
  simp only [newRotationPolicy]
  split
  · rename_i h
    rw [Int64.le_iff_toInt_le, Int64.le_iff_toInt_le, Int64.lt_iff_toInt_lt, toInt_double,
      Int64.toInt_zero] at h
    refine ⟨fun hnone => (by cases hnone), fun hmade => ?_⟩
    omega
  · rename_i h
    rw [Int64.le_iff_toInt_le, Int64.le_iff_toInt_le, Int64.lt_iff_toInt_lt, toInt_double,
      Int64.toInt_zero] at h
    rw [Option.some_inj]
    constructor
    · intro hr
      exact ⟨by omega, by omega, by omega, hr.symm⟩
    · intro hmade
      exact hmade.2.2.2.symm

theorem bmod_double {x : ℤ} (hpos : 0 ≤ x) (hlt : x < 2 ^ 65) : x.bmod (2 ^ 64) =
      if x < 2 ^ 63 then x else if x < 2 ^ 64 + 2 ^ 63 then x - 2 ^ 64 else x - 2 ^ 65 := by
  rw [Int.bmod_def]
  split_ifs <;> omega

/-- **A policy is right in exact arithmetic exactly where the doubled lead time fits.** -/
theorem rotation_exact_iff (sessionTimeoutS turnTimeoutS : UInt64) {margin : Int64}
    (hmargin : 0 ≤ margin) :
    (∀ r, newRotationPolicy (some (toServerInfo sessionTimeoutS turnTimeoutS)) margin = some r →
        r.Exact) ↔
      Fits (seconds sessionTimeoutS).toInt (seconds turnTimeoutS).toInt
        (effectiveMargin margin).toInt := by
  obtain ⟨hmarginPos, hmarginLt⟩ := toInt_effectiveMargin hmargin
  have hsession := toInt_seconds sessionTimeoutS
  have hturn := toInt_seconds turnTimeoutS
  -- The code compares the doubled lead time after it was cut to 64 bits.
  have hdouble := bmod_double
    (x := 2 * ((seconds turnTimeoutS).toInt + (effectiveMargin margin).toInt)) (by omega) (by omega)
  constructor
  · intro hexact
    by_contra hfits
    have hwraps : (2 * ((seconds turnTimeoutS).toInt + (effectiveMargin margin).toInt)).bmod
        (2 ^ 64) ≤ (seconds sessionTimeoutS).toInt := by
      rw [hdouble]
      unfold Fits at hfits
      split_ifs <;> omega
    unfold Fits at hfits
    have hmade := hexact _ (newRotationPolicy_eq_some.mpr
      ⟨(by omega : 0 < (seconds sessionTimeoutS).toInt),
        (by omega : 0 < (seconds turnTimeoutS).toInt), hwraps, rfl⟩)
    have hlasts : 2 * ((seconds turnTimeoutS).toInt + (effectiveMargin margin).toInt) ≤
        (seconds sessionTimeoutS).toInt := hmade.lasts
    omega
  · intro hfits r hr
    obtain ⟨hsessionPos, hturnPos, hle, rfl⟩ := newRotationPolicy_eq_some.mp hr
    change 0 < (seconds sessionTimeoutS).toInt at hsessionPos
    change 0 < (seconds turnTimeoutS).toInt at hturnPos
    change (2 * ((seconds turnTimeoutS).toInt + _)).bmod (2 ^ 64) ≤
      (seconds sessionTimeoutS).toInt at hle
    rw [hdouble] at hle
    unfold Fits at hfits
    have hlasts : 2 * ((seconds turnTimeoutS).toInt + (effectiveMargin margin).toInt) ≤
        (seconds sessionTimeoutS).toInt := by
      split_ifs at hle <;> omega
    refine ⟨hlasts, due_iff_of_lt ?_ ?_⟩
    · change 0 ≤ (seconds turnTimeoutS).toInt + (effectiveMargin margin).toInt
      omega
    · change (seconds turnTimeoutS).toInt + (effectiveMargin margin).toInt < 2 ^ 63 - 1
      omega

/-- An hour with turns of a minute, and the default margin. -/
theorem rotation_exact_iff_hour :
    ∃ r, newRotationPolicy (some (toServerInfo 3600 60)) 0 = some r ∧ r.Exact :=
  ⟨_, rfl, (@rotation_exact_iff 3600 60 0 (by decide)).mpr (.inr (.inr (.inl (by decide)))) _ rfl⟩

/-- A server without a turn limit: its lead time wraps, and a session of a minute is rotated. -/
theorem endless_turn_rotates : ∃ r,
    newRotationPolicy (some (toServerInfo 60 18446744073709551615)) 0 = some r ∧
      ¬2 * (r.turnTimeout.toInt + r.margin.toInt) ≤ r.sessionTimeout.toInt :=
  ⟨_, rfl, by decide⟩

end Montygo.Rotation
