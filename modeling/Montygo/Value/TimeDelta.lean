import Mathlib.Tactic.Linarith
import Montygo.Value.Object

/-!
# Normalizing a timedelta

`NormalizeTimeDelta` adds its arguments up in microseconds and divides the total again.  It
computes with `int64`, where products and sums are taken modulo `2 ^ 64`; the divisions lose
nothing.  So the result is the normal form of the total that was computed, and that is the exact
one when it fits.
-/

namespace Montygo.Value

def floorDiv (a b : Int64) : Int64 :=
  let q := a / b
  if a % b ≠ 0 ∧ decide (a < 0) ≠ decide (b < 0) then q - 1 else q

/-- The total of `NormalizeTimeDelta`, in microseconds. -/
def computedTotal (days seconds micros : Int64) : Int64 :=
  days * 86400 * 1000000 + seconds * 1000000 + micros

def normalizeTimeDelta (days seconds micros : Int64) : TimeDelta :=
  let total := computedTotal days seconds micros
  let d := floorDiv total (86400 * 1000000)
  let rem := total - d * 86400 * 1000000
  let s := rem / 1000000
  let us := rem % 1000000
  { days := d.toInt32, seconds := s.toInt32, microseconds := us.toInt32 }

/-! ## The normal form -/

/-- The microseconds of a day. -/
def dayMicros : ℤ := 86400000000

/-- The exact total, in microseconds. -/
def totalMicros (days seconds micros : ℤ) : ℤ := days * dayMicros + seconds * 1000000 + micros

def TimeDelta.total (d : TimeDelta) : ℤ :=
  totalMicros d.days.toInt d.seconds.toInt d.microseconds.toInt

/-- Python's range: from `-999999999` days to the last microsecond of day `999999999`. -/
def InTimeDeltaRange (total : ℤ) : Prop :=
  -999999999 * dayMicros ≤ total ∧ total < 1000000000 * dayMicros

def TimeDelta.Normal (d : TimeDelta) : Prop :=
  0 ≤ d.seconds.toInt ∧ d.seconds.toInt < 86400 ∧
    0 ≤ d.microseconds.toInt ∧ d.microseconds.toInt < 1000000

/-- The only normal triple with this total. -/
def TimeDelta.IsNormalFormOf (d : TimeDelta) (total : ℤ) : Prop :=
  (d.Normal ∧ d.total = total) ∧ ∀ d' : TimeDelta, d'.Normal ∧ d'.total = total → d' = d

theorem TimeDelta.Normal.eq_of_total_eq {d d' : TimeDelta} (h : d.Normal) (h' : d'.Normal)
    (htotal : d'.total = d.total) : d' = d := by
  obtain ⟨days, seconds, microseconds⟩ := d
  obtain ⟨days', seconds', microseconds'⟩ := d'
  simp only [Normal] at h h'
  simp only [total, totalMicros, dayMicros] at htotal
  have hdays : days'.toInt = days.toInt := by omega
  have hseconds : seconds'.toInt = seconds.toInt := by omega
  have hmicros : microseconds'.toInt = microseconds.toInt := by omega
  rw [Int32.toInt_inj] at hdays hseconds hmicros
  rw [hdays, hseconds, hmicros]

/-! ## The arithmetic -/

theorem floorDiv_toInt (a : Int64) {b : Int64} (hb : 0 < b.toInt) :
    (floorDiv a b).toInt = a.toInt / b.toInt := by
  have hquotient : (a / b).toInt = a.toInt.tdiv b.toInt :=
    Int64.toInt_div_of_ne_right a b (by rintro rfl; simp at hb)
  have hexact : a % b = 0 ↔ b.toInt ∣ a.toInt := by
    rw [← Int64.toInt_inj, Int64.toInt_mod, Int64.toInt_zero, Int.dvd_iff_tmod_eq_zero]
  have hneg : decide (b < 0) = false := by
    simp only [Int64.lt_iff_toInt_lt, Int64.toInt_zero, decide_eq_false_iff_not]
    omega
  have hrounds : (a % b ≠ 0 ∧ decide (a < 0) ≠ decide (b < 0)) ↔
      ¬(0 ≤ a.toInt ∨ b.toInt ∣ a.toInt) := by
    rw [hneg, Ne, hexact]
    simp [Int64.lt_iff_toInt_lt, and_comm]
  simp only [floorDiv, hrounds]
  by_cases hrest : 0 ≤ a.toInt ∨ b.toInt ∣ a.toInt
  · simp [hrest, hquotient, Int.tdiv_eq_ediv]
  rw [if_pos hrest, Int64.toInt_sub, hquotient, Int.tdiv_eq_ediv, if_neg hrest,
    Int.sign_eq_one_of_pos hb, Int64.toInt_one, Int.add_sub_cancel]
  -- The quotient is between the dividend and zero, so it fits.
  have hlow : a.toInt ≤ a.toInt / b.toInt := by
    have hnegative : a.toInt < 0 := by omega
    refine Int.le_ediv_of_mul_le hb ?_
    nlinarith
  have hhigh : a.toInt / b.toInt < 0 := Int.ediv_neg_of_neg_of_pos (by omega) hb
  have := a.le_toInt
  exact Int.bmod_eq_of_le (by omega) (by omega)

theorem computedTotal_toInt (days seconds micros : Int64) :
    (computedTotal days seconds micros).toInt =
      (totalMicros days.toInt seconds.toInt micros.toInt).bmod (2 ^ 64) := by
  simp only [computedTotal, Int64.toInt_add, Int64.toInt_mul, totalMicros, dayMicros]
  simp [Int.mul_assoc]

theorem toInt32_toInt {x : Int64} (hlow : -2 ^ 31 ≤ x.toInt) (hhigh : x.toInt < 2 ^ 31) :
    x.toInt32.toInt = x.toInt := by
  rw [Int64.toInt_toInt32]
  exact Int.bmod_eq_of_le (by omega) (by omega)

theorem normalizeTimeDelta_toInt (days seconds micros : Int64) :
    (normalizeTimeDelta days seconds micros).days.toInt =
        (computedTotal days seconds micros).toInt / dayMicros ∧
      (normalizeTimeDelta days seconds micros).seconds.toInt =
        (computedTotal days seconds micros).toInt % dayMicros / 1000000 ∧
      (normalizeTimeDelta days seconds micros).microseconds.toInt =
        (computedTotal days seconds micros).toInt % dayMicros % 1000000 := by
  change (floorDiv (computedTotal days seconds micros) (86400 * 1000000)).toInt32.toInt = _ ∧
    ((computedTotal days seconds micros - floorDiv (computedTotal days seconds micros)
      (86400 * 1000000) * 86400 * 1000000) / 1000000).toInt32.toInt = _ ∧
    ((computedTotal days seconds micros - floorDiv (computedTotal days seconds micros)
      (86400 * 1000000) * 86400 * 1000000) % 1000000).toInt32.toInt = _
  generalize computedTotal days seconds micros = total
  have hlow := total.le_toInt
  have hhigh := total.toInt_lt
  have hday : (floorDiv total (86400 * 1000000)).toInt = total.toInt / dayMicros :=
    floorDiv_toInt total (by decide)
  generalize floorDiv total (86400 * 1000000) = d at hday ⊢
  simp only [dayMicros] at hday ⊢
  have hrem : (total - d * 86400 * 1000000).toInt = total.toInt % 86400000000 := by
    rw [Int64.toInt_sub, Int64.toInt_mul, Int64.toInt_mul, hday]
    -- The product may wrap, but the difference is small.
    simp only [Int64.reduceToInt, Int.bmod_mul_bmod, Int.sub_bmod_bmod]
    rw [Int.bmod_eq_of_le (by omega) (by omega)]
    omega
  generalize total - d * 86400 * 1000000 = rem at hrem ⊢
  have hs : (rem / 1000000).toInt = total.toInt % 86400000000 / 1000000 := by
    rw [Int64.toInt_div_of_ne_right _ _ (by decide), hrem]
    exact Int.tdiv_eq_ediv_of_nonneg (by omega)
  have hus : (rem % 1000000).toInt = total.toInt % 86400000000 % 1000000 := by
    rw [Int64.toInt_mod, hrem]
    exact Int.tmod_eq_emod_of_nonneg (by omega)
  refine ⟨?_, ?_, ?_⟩
  · rw [toInt32_toInt (by omega) (by omega), hday]
  · rw [toInt32_toInt (by omega) (by omega), hs]
  · rw [toInt32_toInt (by omega) (by omega), hus]

theorem normalizeTimeDelta_normal (days seconds micros : Int64) :
    (normalizeTimeDelta days seconds micros).Normal ∧
      (normalizeTimeDelta days seconds micros).total =
        (computedTotal days seconds micros).toInt := by
  obtain ⟨hdays, hseconds, hmicros⟩ := normalizeTimeDelta_toInt days seconds micros
  simp only [TimeDelta.Normal, TimeDelta.total, totalMicros, hdays, hseconds, hmicros, dayMicros]
  omega

/-- **When a timedelta is normalized exactly**: the result is the one normal triple with the exact
total of the arguments if and only if that total fits an `int64`. -/
theorem normalizeTimeDelta_exact_iff (days seconds micros : Int64) :
    (normalizeTimeDelta days seconds micros).IsNormalFormOf
        (totalMicros days.toInt seconds.toInt micros.toInt) ↔
      -2 ^ 63 ≤ totalMicros days.toInt seconds.toInt micros.toInt ∧
        totalMicros days.toInt seconds.toInt micros.toInt < 2 ^ 63 := by
  obtain ⟨hnormal, htotal⟩ := normalizeTimeDelta_normal days seconds micros
  constructor
  · rintro ⟨⟨-, hexact⟩, -⟩
    rw [← hexact, htotal]
    exact ⟨Int64.le_toInt _, Int64.toInt_lt _⟩
  · rintro ⟨hlow, hhigh⟩
    have hexact : (normalizeTimeDelta days seconds micros).total =
        totalMicros days.toInt seconds.toInt micros.toInt := by
      rw [htotal, computedTotal_toInt]
      exact Int.bmod_eq_of_le (by omega) (by omega)
    refine ⟨⟨hnormal, hexact⟩, ?_⟩
    rintro d' ⟨hnormal', htotal'⟩
    exact hnormal.eq_of_total_eq hnormal' (htotal'.trans hexact.symm)

/-- Two hundred million days are in Python's range, and come out as a negative timedelta. -/
theorem normalizeTimeDelta_overflow : InTimeDeltaRange (totalMicros 200000000 0 0) ∧
      normalizeTimeDelta 200000000 0 0 =
        { days := -13503983, seconds := 57490, microseconds := 448384 } ∧
      ¬(normalizeTimeDelta 200000000 0 0).IsNormalFormOf (totalMicros 200000000 0 0) := by
  refine ⟨by simp [InTimeDeltaRange, totalMicros, dayMicros], by decide, ?_⟩
  rintro ⟨⟨-, htotal⟩, -⟩
  revert htotal
  decide

end Montygo.Value
