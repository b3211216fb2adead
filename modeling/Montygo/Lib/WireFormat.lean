import Mathlib.Data.List.Basic
import Mathlib.Algebra.Order.Ring.Nat

/-!
# Tagged fields on the wire

A message in the protobuf wire format is a sequence of fields, each a tag (a number and
a wire type) followed by a value.  `Protowire` is a library that writes and reads tags and
values: what it reads it reads from the front, whatever stands behind it, and what it has
written it reads back.  Nothing else is assumed of it, so that a development over an arbitrary
`Protowire` does not rest on how numbers are packed.

`Parses b fields` says that `b` is a sequence of well-formed fields.  Messages are put together
by concatenation, and their fields are then the fields of the parts.
-/

namespace Montygo.WireFormat

/-- The wire type of a field. -/
inductive WireType where
  | varint
  | fixed64
  | bytes
  | startGroup
  | endGroup
  | fixed32
  | reserved6
  | reserved7
  deriving DecidableEq, Repr

/-- Why a tag or a value cannot be read. -/
inductive ParseError where
  | unexpectedEOF
  | fieldNumber
  | overflow
  | reserved
  | endGroup
  | recursionDepth
  deriving DecidableEq, Repr

/-- What is read from the front of a byte string, with the number of bytes read, does not depend
on what stands behind them. -/
def ReadsFront {α : Type} (consume : List UInt8 → Except ParseError (α × ℕ)) : Prop :=
  ∀ b a n, consume b = .ok (a, n) → n ≤ b.length ∧ ∀ rest, consume (b.take n ++ rest) = .ok (a, n)

/-- `encode` writes what `consume` reads back. -/
def ReadsBack {α : Type} (encode : α → List UInt8)
    (consume : List UInt8 → Except ParseError (α × ℕ)) (a : α) : Prop :=
  ∀ rest, consume (encode a ++ rest) = .ok (a, (encode a).length)

/-- The field numbers a message may use. -/
def ValidNumber (num : ℕ) : Prop := 1 ≤ num ∧ num < 2 ^ 29

instance (num : ℕ) : Decidable (ValidNumber num) := inferInstanceAs (Decidable (_ ∧ _))

/-- The functions of a wire format library. -/
structure Protowire where
  tag : ℕ × WireType → List UInt8
  varint : UInt64 → List UInt8
  fixed64 : UInt64 → List UInt8
  bytes : List UInt8 → List UInt8
  consumeTag : List UInt8 → Except ParseError ((ℕ × WireType) × ℕ)
  consumeVarint : List UInt8 → Except ParseError (UInt64 × ℕ)
  consumeFixed64 : List UInt8 → Except ParseError (UInt64 × ℕ)
  consumeBytes : List UInt8 → Except ParseError (List UInt8 × ℕ)
  /-- The length of a value of any wire type. -/
  consumeFieldValue : ℕ → WireType → List UInt8 → Except ParseError (Unit × ℕ)
  encodeZigZag : Int64 → UInt64
  decodeZigZag : UInt64 → Int64
  encodeBool : Bool → UInt64
  tag_front : ReadsFront consumeTag
  varint_front : ReadsFront consumeVarint
  fixed64_front : ReadsFront consumeFixed64
  bytes_front : ReadsFront consumeBytes
  value_front : ∀ num typ, ReadsFront (consumeFieldValue num typ)
  tag_pos : ∀ b t n, consumeTag b = .ok (t, n) → 0 < n
  tag_back : ∀ num typ, ValidNumber num → ReadsBack tag consumeTag (num, typ)
  varint_back : ∀ v, ReadsBack varint consumeVarint v
  fixed64_back : ∀ v, ReadsBack fixed64 consumeFixed64 v
  /-- A length has to fit. -/
  bytes_back : ∀ v, v.length < 2 ^ 63 → ReadsBack bytes consumeBytes v
  length_le_bytes : ∀ v, v.length ≤ (bytes v).length
  value_varint : ∀ num b, consumeFieldValue num .varint b = (consumeVarint b).map fun x => ((), x.2)
  value_fixed64 : ∀ num b,
    consumeFieldValue num .fixed64 b = (consumeFixed64 b).map fun x => ((), x.2)
  value_bytes : ∀ num b, consumeFieldValue num .bytes b = (consumeBytes b).map fun x => ((), x.2)
  zigZag : ∀ x, decodeZigZag (encodeZigZag x) = x
  encodeBool_ne_zero : ∀ x, encodeBool x ≠ 0 ↔ x = true

/-! ## Fields -/

/-- The value of a field.  Values of the wire types that no message uses stay as they are. -/
inductive Payload where
  | varint (v : UInt64)
  | fixed64 (v : UInt64)
  | bytes (b : List UInt8)
  | other (typ : WireType) (raw : List UInt8)
  deriving DecidableEq, Repr

/-- A field of a message. -/
structure Field where
  num : ℕ
  payload : Payload
  deriving DecidableEq, Repr

namespace Protowire

variable (P : Protowire)

/-- Reads the value of a field. -/
def consumePayload (num : ℕ) (typ : WireType) (b : List UInt8) : Except ParseError (Payload × ℕ) :=
  match typ with
  | .varint => (P.consumeVarint b).map fun x => (.varint x.1, x.2)
  | .fixed64 => (P.consumeFixed64 b).map fun x => (.fixed64 x.1, x.2)
  | .bytes => (P.consumeBytes b).map fun x => (.bytes x.1, x.2)
  | .startGroup | .endGroup | .fixed32 | .reserved6 | .reserved7 =>
    (P.consumeFieldValue num typ b).map fun x => (.other typ (b.take x.2), x.2)

/-- The bytes are a sequence of well-formed fields. -/
inductive Parses : List UInt8 → List Field → Prop
  | nil : Parses [] []
  | cons {b : List UInt8} {num n k : ℕ} {typ : WireType} {payload : Payload}
      {fields : List Field} (htag : P.consumeTag b = .ok ((num, typ), n))
      (hpayload : P.consumePayload num typ (b.drop n) = .ok (payload, k))
      (hrest : Parses (b.drop (n + k)) fields) : Parses b (⟨num, payload⟩ :: fields)

end Protowire

variable {P : Protowire} {b c : List UInt8} {fields fields' : List Field} {f : Field}

theorem map_eq_ok {α β : Type} {x : Except ParseError (α × ℕ)} {g : α × ℕ → β} {y : β} :
    x.map g = .ok y ↔ ∃ a, x = .ok a ∧ g a = y := by
  cases x <;> simp [Except.map]

theorem ReadsFront.map {α β : Type} {consume : List UInt8 → Except ParseError (α × ℕ)}
    (h : ReadsFront consume) (g : α → List UInt8 → β) :
    ReadsFront fun b => (consume b).map fun x => (g x.1 (b.take x.2), x.2) := by
  intro b y n hread
  obtain ⟨⟨a, k⟩, hconsume, heq⟩ := map_eq_ok.mp hread
  obtain ⟨rfl, rfl⟩ := Prod.mk.inj heq
  obtain ⟨hle, hrest⟩ := h b a _ hconsume
  refine ⟨hle, fun rest => ?_⟩
  have htake : (b.take k ++ rest).take k = b.take k := by
    rw [List.take_append_of_le_length (by simp [hle]), List.take_take, Nat.min_self]
  simp only [hrest, Except.map, htake]

theorem consumePayload_front (num : ℕ) (typ : WireType) :
    ReadsFront (P.consumePayload num typ) := by
  cases typ with
  | varint => exact P.varint_front.map fun v _ => Payload.varint v
  | fixed64 => exact P.fixed64_front.map fun v _ => Payload.fixed64 v
  | bytes => exact P.bytes_front.map fun v _ => Payload.bytes v
  | startGroup | endGroup | fixed32 | reserved6 | reserved7 =>
    exact (P.value_front num _).map fun _ raw => Payload.other _ raw

namespace Protowire

variable {num k : ℕ} {typ : WireType} {payload : Payload}

theorem consumePayload_varint {v : UInt64} : P.consumePayload num typ b = .ok (.varint v, k) ↔
      typ = .varint ∧ P.consumeVarint b = .ok (v, k) := by
  cases typ <;> simp [consumePayload, map_eq_ok]

theorem consumePayload_fixed64 {v : UInt64} : P.consumePayload num typ b = .ok (.fixed64 v, k) ↔
      typ = .fixed64 ∧ P.consumeFixed64 b = .ok (v, k) := by
  cases typ <;> simp [consumePayload, map_eq_ok]

theorem consumePayload_bytes {v : List UInt8} : P.consumePayload num typ b = .ok (.bytes v, k) ↔
      typ = .bytes ∧ P.consumeBytes b = .ok (v, k) := by
  cases typ <;> simp [consumePayload, map_eq_ok]

/-- Every value has a payload of its length. -/
theorem exists_consumePayload : (∃ payload, P.consumePayload num typ b = .ok (payload, k)) ↔
      P.consumeFieldValue num typ b = .ok ((), k) := by
  cases typ with
  | varint => simp [consumePayload, P.value_varint, map_eq_ok]
  | fixed64 => simp [consumePayload, P.value_fixed64, map_eq_ok]
  | bytes => simp [consumePayload, P.value_bytes, map_eq_ok]
  | startGroup | endGroup | fixed32 | reserved6 | reserved7 =>
    simp only [consumePayload, map_eq_ok, Prod.exists, Prod.mk.injEq, exists_eq_right_right]
    constructor
    · rintro ⟨_, _, hread, -⟩
      exact hread
    · intro hread
      exact ⟨_, (), hread, rfl⟩

theorem consumeTag_nil {t : ℕ × WireType} {n : ℕ} : P.consumeTag [] ≠ .ok (t, n) := by
  intro h
  have hpos := P.tag_pos _ _ _ h
  have hle := (P.tag_front _ _ _ h).1
  simp only [List.length_nil] at hle
  omega

theorem Parses.nil_iff : P.Parses [] fields ↔ fields = [] := by
  constructor
  · intro h
    cases h with
    | nil => rfl
    | cons htag => exact absurd htag consumeTag_nil
  · rintro rfl
    exact .nil

/-- The fields of a message are determined by its bytes. -/
theorem Parses.unique (h : P.Parses b fields) (h' : P.Parses b fields') : fields = fields' := by
  induction h generalizing fields' with
  | nil => exact (Parses.nil_iff.mp h').symm
  | cons htag hpayload _ ih =>
    cases h' with
    | nil => exact absurd htag consumeTag_nil
    | cons htag' hpayload' hrest' =>
      rw [htag] at htag'
      cases htag'
      rw [hpayload] at hpayload'
      cases hpayload'
      rw [ih hrest']

/-- The first field of a message, in front of anything. -/
theorem front_of_cons {n : ℕ} (htag : P.consumeTag b = .ok ((num, typ), n))
    (hpayload : P.consumePayload num typ (b.drop n) = .ok (payload, k)) (rest : List UInt8) :
    n + k ≤ b.length ∧ P.consumeTag (b.take (n + k) ++ rest) = .ok ((num, typ), n) ∧
      P.consumePayload num typ ((b.take (n + k) ++ rest).drop n) = .ok (payload, k) := by
  obtain ⟨hn, htag'⟩ := P.tag_front _ _ _ htag
  obtain ⟨hk, hpayload'⟩ := consumePayload_front num typ _ _ _ hpayload
  rw [List.length_drop] at hk
  refine ⟨by omega, ?_, ?_⟩
  · rw [List.take_add, List.append_assoc]
    exact htag' _
  · have hlen : (b.take n).length = n := by simp [hn]
    rw [List.take_add, List.append_assoc, List.drop_append_of_le_length (by omega),
      List.drop_eq_nil_of_le (by omega), List.nil_append]
    exact hpayload' rest

/-- The fields of two messages one after the other. -/
theorem Parses.append (h : P.Parses b fields) (h' : P.Parses c fields') :
    P.Parses (b ++ c) (fields ++ fields') := by
  induction h with
  | nil => exact h'
  | @cons b num n k typ payload fields htag hpayload _ ih =>
    obtain ⟨hle, htag', hpayload'⟩ := front_of_cons htag hpayload (b.drop (n + k) ++ c)
    rw [← List.append_assoc, List.take_append_drop] at htag' hpayload'
    refine .cons htag' hpayload' ?_
    rw [List.drop_append_of_le_length hle]
    exact ih

/-! ### Writing fields -/

/-- A value behind its tag. -/
theorem parses_tag (hnum : ValidNumber num)
    (hpayload : P.consumePayload num typ c = .ok (payload, c.length)) :
    P.Parses (P.tag (num, typ) ++ c) [⟨num, payload⟩] := by
  refine .cons (P.tag_back num typ hnum c) (k := c.length) ?_ ?_
  · rw [List.drop_left]
    exact hpayload
  · rw [← List.length_append, List.drop_length]
    exact .nil

/-- The fields of a message with one field. -/
theorem parses_singleton {b : List UInt8} {n : ℕ} (htag : P.consumeTag b = .ok ((num, typ), n))
    (hpayload : P.consumePayload num typ (b.drop n) = .ok (payload, k))
    (hend : b.drop (n + k) = []) : P.Parses b [⟨num, payload⟩] :=
  .cons htag hpayload (hend ▸ .nil)

theorem parses_varint (hnum : ValidNumber num) (v : UInt64) :
    P.Parses (P.tag (num, .varint) ++ P.varint v) [⟨num, .varint v⟩] := by
  refine parses_tag hnum ?_
  have hread := P.varint_back v []
  rw [List.append_nil] at hread
  rw [consumePayload, hread]
  rfl

theorem parses_fixed64 (hnum : ValidNumber num) (v : UInt64) :
    P.Parses (P.tag (num, .fixed64) ++ P.fixed64 v) [⟨num, .fixed64 v⟩] := by
  refine parses_tag hnum ?_
  have hread := P.fixed64_back v []
  rw [List.append_nil] at hread
  rw [consumePayload, hread]
  rfl

theorem parses_bytes (hnum : ValidNumber num) (hb : b.length < 2 ^ 63) :
    P.Parses (P.tag (num, .bytes) ++ P.bytes b) [⟨num, .bytes b⟩] := by
  refine parses_tag hnum ?_
  have hread := P.bytes_back b hb []
  rw [List.append_nil] at hread
  rw [consumePayload, hread]
  rfl

end Protowire

end Montygo.WireFormat
