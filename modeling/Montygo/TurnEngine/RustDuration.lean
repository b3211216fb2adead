import Montygo.Go.Format
import Mathlib.Tactic.Ring

/-!
# Durations as text

The error of a timeout tells how long it was as Rust would print it: in the largest unit that it
fills, with as many digits behind the point as it takes.  Nothing is rounded
(`formatRustDuration_exact`).
-/

namespace Montygo.TurnEngine

open Go

/-- The loop of `fmtFraction`. -/
def fractionDigits (frac divisor : ℕ) : GoString :=
  if h : 0 < divisor ∧ 0 < frac then
    UInt8.ofNat (48 + frac / divisor) :: fractionDigits (frac % divisor) (divisor / 10)
  else []
termination_by divisor
decreasing_by exact Nat.div_lt_self h.1 (by decide)

def fmtFraction (integer frac divisor : ℕ) (unit : GoString) : GoString :=
  let s := decimal integer
  let s := if 0 < frac then s ++ (lit "." ++ fractionDigits frac divisor) else s
  s ++ unit

/-- `FormatRustDuration`.  A `time.Duration` counts nanoseconds. -/
def formatRustDuration (d : Int64) : GoString :=
  let ns := (if d < 0 then 0 else d).toInt.toNat
  let secs := ns / 1000000000
  let nanos := ns % 1000000000
  if 0 < secs then fmtFraction secs nanos 100000000 (lit "s")
  else if 1000000 ≤ nanos then
    fmtFraction (nanos / 1000000) (nanos % 1000000) 100000 (lit "ms")
  else if 1000 ≤ nanos then fmtFraction (nanos / 1000) (nanos % 1000) 100 (lit "µs")
  else decimal nanos ++ lit "ns"

/-! ## Reading it -/

inductive DurationUnit where
  | ns
  | us
  | ms
  | s
  deriving DecidableEq

namespace DurationUnit

def text : DurationUnit → GoString
  | ns => lit "ns"
  | us => lit "µs"
  | ms => lit "ms"
  | s => lit "s"

/-- A unit is a power of ten of nanoseconds. -/
def exponent : DurationUnit → ℕ
  | ns => 0
  | us => 3
  | ms => 6
  | s => 9

end DurationUnit

def isDigit (b : UInt8) : Bool := 48 ≤ b.toNat ∧ b.toNat ≤ 57

/-- The number that digits stand for. -/
def number (digits : GoString) : ℕ := digits.foldl (fun n b => 10 * n + (b.toNat - 48)) 0

/-- The nanoseconds that a decimal number with a unit stands for, if they are a whole number. -/
def readDuration (text : GoString) : Option ℕ :=
  let whole := text.takeWhile isDigit
  let rest := text.dropWhile isDigit
  let frac := if rest.head? = some 46 then rest.tail.takeWhile isDigit else []
  let unit := if rest.head? = some 46 then rest.tail.dropWhile isDigit else rest
  ([.ns, .us, .ms, .s].find? fun u : DurationUnit => u.text = unit).bind fun u =>
    let n := (number whole * 10 ^ frac.length + number frac) * 10 ^ u.exponent
    if n % 10 ^ frac.length = 0 then some (n / 10 ^ frac.length) else none

/-! ## Digits -/

theorem toNat_digit {n : ℕ} (h : n < 10) : (UInt8.ofNat (48 + n)).toNat = 48 + n := by
  rw [UInt8.toNat_ofNat']
  omega

theorem isDigit_digit {n : ℕ} (h : n < 10) : isDigit (UInt8.ofNat (48 + n)) = true := by
  rw [isDigit, toNat_digit h, decide_eq_true_eq]
  omega

theorem digit_ne_zero {n : ℕ} (h : n < 10) (hpos : 0 < n) : UInt8.ofNat (48 + n) ≠ 48 := by
  intro hzero
  have hbyte := congrArg UInt8.toNat hzero
  rw [toNat_digit h] at hbyte
  exact absurd (Nat.add_eq_left.mp hbyte) (by omega)

theorem number_concat (digits : GoString) (b : UInt8) :
    number (digits ++ [b]) = 10 * number digits + (b.toNat - 48) := by
  rw [number, List.foldl_concat]
  rfl

theorem number_cons (b : UInt8) (digits : GoString) :
    number (b :: digits) = (b.toNat - 48) * 10 ^ digits.length + number digits := by
  induction digits using List.reverseRecOn with
  | nil => simp [number]
  | append_singleton digits last ih =>
    rw [← List.cons_append, number_concat, number_concat, ih, List.length_append,
      List.length_singleton]
    ring

theorem decimal_eq (n : ℕ) : decimal n =
    if n < 10 then [UInt8.ofNat (48 + n)]
    else decimal (n / 10) ++ [UInt8.ofNat (48 + n % 10)] := by
  have hchar : ∀ k < 10, String.utf8EncodeChar k.digitChar = [UInt8.ofNat (48 + k)] := by decide
  simp only [decimal, lit, ToString.toString, Nat.toList_repr]
  split
  · rename_i hlt
    rw [Nat.toDigits_of_lt_base hlt, List.flatMap_singleton, hchar n hlt]
  · rename_i hle
    rw [Nat.toDigits_of_base_le (by decide) (not_lt.mp hle), List.flatMap_append,
      List.flatMap_singleton, hchar _ (Nat.mod_lt n (by decide))]

theorem number_decimal (n : ℕ) : number (decimal n) = n ∧ ∀ b ∈ decimal n, isDigit b = true := by
  induction n using Nat.strong_induction_on with
  | _ n ih =>
    rw [decimal_eq]
    split
    · rename_i hlt
      refine ⟨?_, by simpa using isDigit_digit hlt⟩
      rw [number, List.foldl_cons, List.foldl_nil, toNat_digit hlt]
      omega
    · rename_i hle
      have hlast : n % 10 < 10 := Nat.mod_lt n (by decide)
      obtain ⟨hvalue, hdigits⟩ := ih (n / 10) (by omega)
      refine ⟨?_, fun b hb => ?_⟩
      · rw [number_concat, hvalue, toNat_digit hlast]
        omega
      · rcases List.mem_append.mp hb with hb | hb
        · exact hdigits b hb
        · rw [List.mem_singleton.mp hb]
          exact isDigit_digit hlast

theorem fractionDigits_zero (divisor : ℕ) : fractionDigits 0 divisor = [] := by
  rw [fractionDigits, dif_neg (by simp)]

theorem fractionDigits_pow (k : ℕ) {frac : ℕ} (hpos : 0 < frac) : fractionDigits frac (10 ^ k) =
      UInt8.ofNat (48 + frac / 10 ^ k) :: fractionDigits (frac % 10 ^ k) (10 ^ k / 10) := by
  rw [fractionDigits, dif_pos ⟨by positivity, hpos⟩]

/-- What the digits behind the point have to be. -/
structure Fraction (digits : GoString) (k frac : ℕ) : Prop where
  only : ∀ b ∈ digits, isDigit b = true
  last : digits.getLast? ≠ some 48
  value : ∃ j, digits.length + j = k ∧ number digits * 10 ^ j = frac

theorem fractionDigits_exact (k : ℕ) {frac : ℕ} (hpos : 0 < frac) (hlt : frac < 10 ^ (k + 1)) :
    Fraction (fractionDigits frac (10 ^ k)) (k + 1) frac := by
  induction k generalizing frac with
  | zero =>
    have hsmall : frac < 10 := by simpa using hlt
    rw [fractionDigits_pow 0 hpos, pow_zero, Nat.div_one, Nat.mod_one, fractionDigits_zero]
    refine ⟨by simpa using isDigit_digit hsmall, by simpa using digit_ne_zero hsmall hpos, 0, rfl, ?_⟩
    rw [number_cons, toNat_digit hsmall]
    simp [number]
  | succ k ih =>
    have hdigit : frac / 10 ^ (k + 1) < 10 := by
      rw [Nat.div_lt_iff_lt_mul (by positivity), ← pow_succ']
      exact hlt
    have hsplit := Nat.div_add_mod frac (10 ^ (k + 1))
    rw [fractionDigits_pow (k + 1) hpos, pow_succ 10 k, Nat.mul_div_cancel _ (by decide), ← pow_succ]
    rcases Nat.eq_zero_or_pos (frac % 10 ^ (k + 1)) with hzero | hrest
    -- The remainder is zero, so this digit is not, and it is the last.
    · rw [hzero] at hsplit
      have hquot : 0 < frac / 10 ^ (k + 1) := by
        rcases Nat.eq_zero_or_pos (frac / 10 ^ (k + 1)) with hquot | hquot
        · rw [hquot] at hsplit
          omega
        · exact hquot
      rw [hzero, fractionDigits_zero]
      refine ⟨by simpa using isDigit_digit hdigit, by simpa using digit_ne_zero hdigit hquot, k + 1,
        by simp [add_comm], ?_⟩
      rw [number_cons, toNat_digit hdigit, Nat.add_sub_cancel_left, mul_comm]
      simpa [number] using hsplit
    · obtain ⟨hdigits, hlast, j, hlen, hvalue⟩ := ih hrest (Nat.mod_lt _ (by positivity))
      refine ⟨?_, ?_, j, by rw [List.length_cons]; omega, ?_⟩
      · exact List.forall_mem_cons.mpr ⟨isDigit_digit hdigit, hdigits⟩
      · rw [fractionDigits_pow k hrest, List.getLast?_cons_cons, ← fractionDigits_pow k hrest]
        exact hlast
      · rw [number_cons, toNat_digit hdigit, Nat.add_sub_cancel_left, add_mul, hvalue, mul_assoc,
          ← pow_add, hlen, mul_comm]
        exact hsplit

/-! ## Round trip -/

/-- A decimal number with a unit. -/
def spelled (whole : ℕ) (digits : GoString) (u : DurationUnit) : GoString :=
  decimal whole ++ ((if digits = [] then [] else 46 :: digits) ++ u.text)

theorem span_digits {digits : GoString} (hdigits : ∀ b ∈ digits, isDigit b = true) (rest : GoString)
    (hrest : rest.head?.all fun b => isDigit b = false) :
    (digits ++ rest).takeWhile isDigit = digits ∧ (digits ++ rest).dropWhile isDigit = rest := by
  rw [List.takeWhile_append_of_pos hdigits, List.dropWhile_append_of_pos hdigits]
  cases rest with
  | nil => simp
  | cons b rest => simp_all

theorem readDuration_spelled {whole frac : ℕ} {digits : GoString} {u : DurationUnit}
    (h : Fraction digits u.exponent frac) :
    readDuration (spelled whole digits u) = some (whole * 10 ^ u.exponent + frac) := by
  obtain ⟨hvalue, hwhole⟩ := number_decimal whole
  obtain ⟨j, hlen, hfrac⟩ := h.value
  have hunit : (u.text.head?.all fun b => isDigit b = false) ∧ u.text.head? ≠ some 46 ∧
      ([.ns, .us, .ms, .s].find? fun v : DurationUnit => v.text = u.text) = some u := by
    cases u <;> decide
  have hexact : (whole * 10 ^ digits.length + number digits) * 10 ^ u.exponent =
      (whole * 10 ^ u.exponent + frac) * 10 ^ digits.length := by
    rw [← hfrac, ← hlen]
    ring
  have hparts := span_digits hwhole ((if digits = [] then [] else 46 :: digits) ++ u.text)
    (by split <;> simp_all [isDigit])
  have hread : ∀ n, n = (whole * 10 ^ u.exponent + frac) * 10 ^ digits.length →
      (if n % 10 ^ digits.length = 0 then some (n / 10 ^ digits.length) else none) =
        some (whole * 10 ^ u.exponent + frac) := by
    rintro _ rfl
    rw [Nat.mul_mod_left, if_pos rfl, Nat.mul_div_cancel _ (by positivity)]
  simp only [readDuration, spelled, hparts, hvalue]
  by_cases hnil : digits = []
  · subst hnil
    simpa [hunit] using hread _ hexact
  · obtain ⟨htake, hdrop⟩ := span_digits h.only _ hunit.1
    simpa [hnil, htake, hdrop, hunit] using hread _ hexact

theorem fmtFraction_spelled (integer k frac : ℕ) (hlt : frac < 10 ^ (k + 1)) (u : DurationUnit) :
    ∃ digits, Fraction digits (k + 1) frac ∧
      fmtFraction integer frac (10 ^ k) u.text = spelled integer digits u := by
  unfold fmtFraction spelled
  rcases Nat.eq_zero_or_pos frac with rfl | hpos
  · exact ⟨[], ⟨by simp, by simp, k + 1, by simp, by simp [number]⟩, by simp⟩
  refine ⟨_, fractionDigits_exact k hpos hlt, ?_⟩
  have hne : fractionDigits frac (10 ^ k) ≠ [] := by
    rw [fractionDigits_pow k hpos]
    exact List.cons_ne_nil _ _
  have hpoint : lit "." = [46] := rfl
  simp [hpos, hne, hpoint]

theorem formatRustDuration_spelled (d : Int64) : ∃ whole digits u frac,
    formatRustDuration d = spelled whole digits u ∧ Fraction digits u.exponent frac ∧
      whole * 10 ^ u.exponent + frac = d.toInt.toNat ∧ (u ≠ .ns → 1 ≤ whole) := by
  have hns : (if d < 0 then 0 else d).toInt.toNat = d.toInt.toNat := by
    split
    · rename_i hneg
      exact (Int.toNat_of_nonpos (Int64.lt_iff_toInt_lt.mp hneg).le).symm
    · rfl
  simp only [formatRustDuration, hns]
  generalize d.toInt.toNat = ns
  split_ifs with hs hms hus
  · obtain ⟨digits, hdigits, htext⟩ := fmtFraction_spelled (ns / 1000000000) 8 (ns % 1000000000)
      (by omega) .s
    exact ⟨_, digits, .s, _, htext, hdigits, by rw [DurationUnit.exponent]; omega, fun _ => hs⟩
  · obtain ⟨digits, hdigits, htext⟩ := fmtFraction_spelled (ns % 1000000000 / 1000000) 5
      (ns % 1000000000 % 1000000) (by omega) .ms
    exact ⟨_, digits, .ms, _, htext, hdigits, by rw [DurationUnit.exponent]; omega,
      fun _ => by omega⟩
  · obtain ⟨digits, hdigits, htext⟩ := fmtFraction_spelled (ns % 1000000000 / 1000) 2
      (ns % 1000000000 % 1000) (by omega) .us
    exact ⟨_, digits, .us, _, htext, hdigits, by rw [DurationUnit.exponent]; omega,
      fun _ => by omega⟩
  · refine ⟨ns % 1000000000, [], .ns, 0, by simp [spelled, DurationUnit.text], ?_, ?_, by simp⟩
    · exact ⟨by simp, by simp, 0, rfl, rfl⟩
    · rw [DurationUnit.exponent]
      omega

/-- **The text of a duration is exact.**  Read as a decimal number it is the duration, its integer
part is zero only in nanoseconds, and no zero ends its fraction; so no two durations read
the same. -/
theorem formatRustDuration_exact (d : Int64) :
    readDuration (formatRustDuration d) = some d.toInt.toNat ∧
    (∃ whole digits u, formatRustDuration d = spelled whole digits u ∧
      (∀ b ∈ digits, isDigit b = true) ∧ digits.getLast? ≠ some 48 ∧ (u ≠ .ns → 1 ≤ whole)) ∧
    (0 ≤ d → ∀ d', 0 ≤ d' → formatRustDuration d' = formatRustDuration d → d' = d) := by
  have hread : ∀ d, readDuration (formatRustDuration d) = some d.toInt.toNat := by
    intro d
    obtain ⟨whole, digits, u, frac, htext, hdigits, hvalue, -⟩ := formatRustDuration_spelled d
    rw [htext, readDuration_spelled hdigits, hvalue]
  refine ⟨hread d, ?_, fun hd d' hd' hsame => ?_⟩
  · obtain ⟨whole, digits, u, frac, htext, hdigits, -, hwhole⟩ := formatRustDuration_spelled d
    exact ⟨whole, digits, u, htext, hdigits.only, hdigits.last, hwhole⟩
  · have hnat : d'.toInt.toNat = d.toInt.toNat :=
      Option.some.inj ((hread d').symm.trans (hsame ▸ hread d))
    have hpos := Int64.le_iff_toInt_le.mp hd
    have hpos' := Int64.le_iff_toInt_le.mp hd'
    rw [Int64.toInt_zero] at hpos hpos'
    exact Int64.toInt_inj.mp (by omega)

end Montygo.TurnEngine
