import Montygo.MountFs.Error
import Mathlib.Algebra.Order.Ring.Nat

/-!
# Memory budgets

The mount counts memory in `uint64` and saturates instead of wrapping.  Over the
natural numbers the saturating operations are truncated sums and differences.
-/

namespace Montygo.MountFs

open Go

def maxUint64 : UInt64 := 18446744073709551615

/-- `satAdd`: a wrapped sum shows in that it is below a summand. -/
def satAdd (a b : UInt64) : UInt64 := if a + b ≥ a then a + b else maxUint64

def satSub (a b : UInt64) : UInt64 := if b > a then 0 else a - b

def satMul (a b : UInt64) : UInt64 := if a ≠ 0 ∧ b > maxUint64 / a then maxUint64 else a * b

theorem toNat_satAdd (a b : UInt64) :
    (satAdd a b).toNat = min (a.toNat + b.toNat) (2 ^ 64 - 1) := by
  have ha := a.toNat_lt
  have hb := b.toNat_lt
  unfold satAdd
  split
  · rename_i hge
    rw [ge_iff_le, UInt64.le_iff_toNat_le, UInt64.toNat_add] at hge
    rw [UInt64.toNat_add]
    omega
  · rename_i hlt
    rw [ge_iff_le, UInt64.le_iff_toNat_le, UInt64.toNat_add] at hlt
    simp only [maxUint64, UInt64.toNat_ofNat]
    omega

theorem toNat_satSub (a b : UInt64) : (satSub a b).toNat = a.toNat - b.toNat := by
  unfold satSub
  split
  · rename_i hgt
    rw [gt_iff_lt, UInt64.lt_iff_toNat_lt] at hgt
    simp only [UInt64.toNat_zero]
    omega
  · rename_i hle
    rw [gt_iff_lt, UInt64.lt_iff_toNat_lt, not_lt] at hle
    exact UInt64.toNat_sub_of_le a b (UInt64.le_iff_toNat_le.mpr hle)

/-- `memoryBudget`: what is left of a limit. -/
structure MemoryBudget where
  available : UInt64
  limit : UInt64
  deriving DecidableEq, Repr

def MemoryBudget.check (b : MemoryBudget) (n : UInt64) : Except MountError Unit :=
  if n > b.available then .error (.memoryLimit b.limit) else .ok ()

def MemoryBudget.shrink (b : MemoryBudget) (n : UInt64) : Except MountError MemoryBudget :=
  if n > b.available then .error (.memoryLimit b.limit)
  else .ok { available := b.available - n, limit := b.limit }

def MemoryBudget.halved (b : MemoryBudget) : MemoryBudget :=
  { available := b.available / 2, limit := b.limit }

def listingEntryMemoryUsage : UInt64 := 128

end Montygo.MountFs
