import Montygo.Lib.WireStandard

/-!
# The size of fields

A message holds no more than its bytes: each of its fields takes a tag and its payload.  This
needs that a byte string is not longer than the bytes it is read from.
-/

namespace Montygo.WireFormat

/-- A byte string is part of what is read. -/
def Protowire.BytesWithin (P : Protowire) : Prop :=
  ∀ b v n, P.consumeBytes b = .ok (v, n) → v.length ≤ n

theorem Standard.length_writeVarint_le (k v : ℕ) : (Standard.writeVarint k v).length ≤ k + 1 := by
  induction k generalizing v with
  | zero => exact le_rfl
  | succ k ih =>
    rw [Standard.writeVarint]
    split
    · simp
    · exact Nat.succ_le_succ (ih (v / 128))

/-- Each byte of a number holds seven bits. -/
theorem Standard.length_writeVarint_le_iff {j k v : ℕ} (hj : j < k) :
    (Standard.writeVarint k v).length ≤ j + 1 ↔ v < 2 ^ (7 * (j + 1)) := by
  induction k generalizing v j with
  | zero => cases hj
  | succ k ih =>
    have hpos : 2 ^ 7 ≤ 2 ^ (7 * (j + 1)) := Nat.pow_le_pow_right (by decide) (by omega)
    rw [Standard.writeVarint]
    split
    · rw [List.length_singleton]
      omega
    · rename_i hv
      rw [List.length_cons, Nat.add_le_add_iff_right]
      cases j with
      | zero =>
        have hne : Standard.writeVarint k (v / 128) ≠ [] := by
          cases k with
          | zero => simp [Standard.writeVarint]
          | succ k =>
            rw [Standard.writeVarint]
            split <;> simp
        have := List.length_pos_of_ne_nil hne
        omega
      | succ i =>
        rw [ih (by omega), Nat.div_lt_iff_lt_mul (by decide)]
        exact iff_of_eq (congrArg (v < ·) (pow_add 2 (7 * (i + 1)) 7).symm)

/-- The bytes of a number. -/
def varintSize (v : ℕ) : ℕ := (Standard.writeVarint 9 v).length

/-- The bytes of a field of `n` bytes whose tag takes one. -/
def fieldSize (n : ℕ) : ℕ := 1 + (varintSize n + n)

/-- Tags and lengths take the bytes that the format gives them. -/
structure Protowire.Sized (P : Protowire) : Prop where
  tag : ∀ num, 0 < num → num < 16 → (P.tag (num, .bytes)).length = 1
  bytes : ∀ b, b.length < 2 ^ 64 → (P.bytes b).length = varintSize b.length + b.length

theorem standard_sized : standard.Sized where
  tag num hpos hlt :=
    (by decide : ∀ num < 16, 0 < num → (Standard.tag (num, .bytes)).length = 1) num hlt hpos
  bytes b hlen := by
    show (Standard.writeBytes b).length = _
    rw [Standard.writeBytes, Nat.mod_eq_of_lt hlen, List.length_append, varintSize]

/-- The bytes a payload holds. -/
def Payload.size : Payload → ℕ
  | .bytes b => b.length
  | .varint _ | .fixed64 _ | .other _ _ => 0

/-- A field has a tag. -/
def Field.size (f : Field) : ℕ := 1 + f.payload.size

variable {P : Protowire}

theorem Protowire.BytesWithin.payload (hP : P.BytesWithin) {num k : ℕ} {typ : WireType}
    {b : List UInt8} {payload : Payload}
    (hread : P.consumePayload num typ b = .ok (payload, k)) : payload.size ≤ k := by
  cases payload with
  | bytes v => exact hP b v k (Protowire.consumePayload_bytes.mp hread).2
  | varint v | fixed64 v | other typ raw => exact Nat.zero_le k

/-- The fields of a message fit in it. -/
theorem Protowire.Parses.size_le (hP : P.BytesWithin) {b : List UInt8} {fields : List Field}
    (h : P.Parses b fields) : (fields.map Field.size).sum ≤ b.length := by
  induction h with
  | nil => exact Nat.le_refl 0
  | @cons b num n k typ payload fields htag hpayload hrest ih =>
    have hpos := P.tag_pos _ _ _ htag
    have hn := (P.tag_front _ _ _ htag).1
    have hk := (consumePayload_front num typ _ _ _ hpayload).1
    have hsize := hP.payload hpayload
    simp only [List.length_drop] at hk ih
    simp only [List.map_cons, List.sum_cons, Field.size]
    omega

end Montygo.WireFormat
