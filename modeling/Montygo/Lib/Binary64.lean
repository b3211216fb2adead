import Mathlib.Tactic

/-!
# Binary64 words

A 64-bit word read as an IEEE 754 number: its fields, what kind of number it is, the comparison
`==`, and the integer that it truncates to.  A finite number is `scaled / 2 ^ 1075` up to its
sign, so that whether it is an integer, and which one, are questions about naturals.
-/

namespace Binary64

/-- The biased exponent. -/
def exponent (x : UInt64) : ℕ := x.toNat / 2 ^ 52 % 2 ^ 11

/-- The fraction field. -/
def fraction (x : UInt64) : ℕ := x.toNat % 2 ^ 52

def isNegative (x : UInt64) : Bool := decide (2 ^ 63 ≤ x.toNat)

def isNaN (x : UInt64) : Bool := exponent x == 2047 && fraction x != 0

def isInf (x : UInt64) : Bool := exponent x == 2047 && fraction x == 0

/-- Either zero. -/
def isZero (x : UInt64) : Bool := x.toNat % 2 ^ 63 == 0

/-- The fraction with its leading bit, which a subnormal number does not have. -/
def significand (x : UInt64) : ℕ :=
  if exponent x = 0 then fraction x else 2 ^ 52 + fraction x

/-- The exponent that the significand is scaled by; a subnormal number has the smallest one. -/
def scale (x : UInt64) : ℕ := max (exponent x) 1

/-- The absolute value of a finite number, times `2 ^ 1075`. -/
def scaled (x : UInt64) : ℕ := significand x * 2 ^ scale x

/-- A finite number without a fractional part. -/
def isIntegral (x : UInt64) : Bool := decide (2 ^ 1075 ∣ scaled x)

/-- A finite number, rounded towards zero. -/
def trunc (x : UInt64) : ℤ :=
  if isNegative x then -(scaled x / 2 ^ 1075 : ℕ) else (scaled x / 2 ^ 1075 : ℕ)

/-- `==`: no NaN equals anything, the zeros are equal. -/
def equal (x y : UInt64) : Bool := !isNaN x && !isNaN y && (x == y || isZero x && isZero y)

section Fields

variable {x y : UInt64}

theorem fraction_lt : fraction x < 2 ^ 52 := Nat.mod_lt _ (by norm_num)

theorem significand_lt : significand x < 2 ^ 53 := by
  have hlt : fraction x < 2 ^ 52 := fraction_lt
  unfold significand
  split <;> omega

/-- The word without its sign. -/
theorem mod_eq_fields : x.toNat % 2 ^ 63 = exponent x * 2 ^ 52 + fraction x := by
  unfold exponent fraction
  omega

theorem toNat_eq_fields : x.toNat = (if isNegative x then 2 ^ 63 else 0) + x.toNat % 2 ^ 63 := by
  have hlt : x.toNat < 2 ^ 64 := x.toNat_lt
  unfold isNegative
  split <;> simp_all <;> omega

/-- Only a zero has an empty significand. -/
theorem significand_eq_zero : significand x = 0 ↔ isZero x = true := by
  have hfields := mod_eq_fields (x := x)
  have hlt : fraction x < 2 ^ 52 := fraction_lt
  unfold significand isZero
  simp only [beq_iff_eq, hfields]
  split <;> omega

/-- The significand and its scale give back the exponent and the fraction. -/
theorem mod_eq_of_significand_eq (hsig : significand x = significand y)
    (hscale : scale x = scale y) : x.toNat % 2 ^ 63 = y.toNat % 2 ^ 63 := by
  have hx : fraction x < 2 ^ 52 := fraction_lt
  have hy : fraction y < 2 ^ 52 := fraction_lt
  rw [mod_eq_fields, mod_eq_fields]
  unfold significand at hsig
  unfold scale at hscale
  split at hsig <;> split at hsig <;> omega

theorem leading_or_smallest : 2 ^ 52 ≤ significand x ∨ scale x = 1 := by
  unfold significand scale
  split <;> omega

end Fields

/-- Equal products have equal scales: with a larger scale the other significand would be too
large. -/
theorem scale_le_of_scaled_eq {x y : UInt64} (heq : scaled x = scaled y) : scale y ≤ scale x := by
  by_contra hlt
  have hlarge : 2 ^ 52 ≤ significand y := by
    rcases leading_or_smallest (x := y) with h | h
    · exact h
    · have : 1 ≤ scale x := le_max_right _ _
      omega
  obtain ⟨d, hd⟩ : ∃ d, scale y = scale x + (d + 1) := ⟨scale y - scale x - 1, by omega⟩
  have hproduct : significand x = significand y * 2 ^ (d + 1) := by
    have h : significand x * 2 ^ scale x = significand y * 2 ^ (d + 1) * 2 ^ scale x := by
      calc significand x * 2 ^ scale x = significand y * 2 ^ scale y := heq
        _ = significand y * 2 ^ (d + 1) * 2 ^ scale x := by rw [hd]; ring
    exact Nat.eq_of_mul_eq_mul_right (by positivity) h
  have hsig : significand x < 2 ^ 53 := significand_lt
  have hpow : 2 ≤ 2 ^ (d + 1) := by
    calc 2 = 2 ^ 1 := rfl
      _ ≤ 2 ^ (d + 1) := Nat.pow_le_pow_right (by norm_num) (by omega)
  have : 2 ^ 52 * 2 ≤ significand y * 2 ^ (d + 1) := Nat.mul_le_mul hlarge hpow
  omega

/-- **A finite number determines its word**, up to the sign. -/
theorem mod_eq_of_scaled_eq {x y : UInt64} (heq : scaled x = scaled y) :
    x.toNat % 2 ^ 63 = y.toNat % 2 ^ 63 := by
  have hscale : scale x = scale y :=
    le_antisymm (scale_le_of_scaled_eq heq.symm) (scale_le_of_scaled_eq heq)
  have hsig : significand x = significand y := by
    refine Nat.eq_of_mul_eq_mul_right (Nat.two_pow_pos (scale x)) ?_
    calc significand x * 2 ^ scale x = significand y * 2 ^ scale y := heq
      _ = significand y * 2 ^ scale x := by rw [hscale]
  exact mod_eq_of_significand_eq hsig hscale

section Compare

variable {x y : UInt64}

theorem equal_iff (hx : isNaN x = false) (hy : isNaN y = false) :
    equal x y = true ↔ x = y ∨ isZero x = true ∧ isZero y = true := by
  simp [equal, hx, hy]

theorem isZero_of_scaled (h : scaled x = 0) : isZero x = true :=
  significand_eq_zero.mp ((Nat.mul_eq_zero.mp h).resolve_right (by positivity))

theorem scaled_of_isZero (h : isZero x = true) : scaled x = 0 := by
  rw [scaled, significand_eq_zero.mpr h, Nat.zero_mul]

theorem trunc_of_isZero (h : isZero x = true) : trunc x = 0 := by
  simp only [trunc, scaled_of_isZero h, Nat.zero_div, Nat.cast_zero, neg_zero, ite_self]

theorem isIntegral_of_isZero (h : isZero x = true) : isIntegral x = true := by
  simp only [isIntegral, scaled_of_isZero h, dvd_zero, decide_true]

theorem natAbs_trunc : (trunc x).natAbs = scaled x / 2 ^ 1075 := by
  unfold trunc
  split <;> simp only [Int.natAbs_neg, Int.natAbs_natCast]

/-- **Numbers without a fractional part are equal exactly when the integers are.** -/
theorem equal_iff_trunc_eq (hx : isNaN x = false) (hy : isNaN y = false)
    (hix : isIntegral x = true) (hiy : isIntegral y = true) :
    equal x y = true ↔ trunc x = trunc y := by
  rw [equal_iff hx hy]
  simp only [isIntegral, decide_eq_true_eq] at hix hiy
  constructor
  · rintro (rfl | ⟨hzx, hzy⟩)
    · rfl
    · rw [trunc_of_isZero hzx, trunc_of_isZero hzy]
  · intro heq
    have hquotient : scaled x / 2 ^ 1075 = scaled y / 2 ^ 1075 := by
      rw [← natAbs_trunc, ← natAbs_trunc, heq]
    have hscaled : scaled x = scaled y := by
      rw [← Nat.div_mul_cancel hix, ← Nat.div_mul_cancel hiy, hquotient]
    by_cases hzero : isZero x = true
    · have hzy : isZero y = true := isZero_of_scaled (hscaled ▸ scaled_of_isZero hzero)
      exact .inr ⟨hzero, hzy⟩
    · have hpos : 0 < scaled x / 2 ^ 1075 := by
        refine Nat.div_pos (Nat.le_of_dvd (Nat.pos_of_ne_zero fun h => ?_) hix) (by positivity)
        exact hzero (isZero_of_scaled h)
      have hsign : isNegative x = isNegative y := by
        unfold trunc at heq
        rw [← hquotient] at heq
        generalize scaled x / 2 ^ 1075 = q at heq hpos
        cases hnx : isNegative x <;> cases hny : isNegative y <;> simp [hnx, hny] at heq ⊢ <;> omega
      refine .inl (UInt64.toNat_inj.mp ?_)
      rw [toNat_eq_fields (x := x), toNat_eq_fields (x := y), hsign, mod_eq_of_scaled_eq hscaled]

end Compare

end Binary64
