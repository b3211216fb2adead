import Montygo.Go.Format
import Montygo.Lib.WireFormat
import Montygo.Lib.Outcome
import Montygo.Value.Object
import Mathlib.Data.Nat.Digits.Defs

/-!
# Encoding values

The writing half of the value codec.  Every function appends to the bytes it is given, as in the
source; the wire format library `P` writes tags and values.
-/

namespace Montygo.Wire

open Go Value WireFormat

inductive ConversionError where
  /-- `invalid uuid %q`. -/
  | uuid (s : GoString)
  /-- `Cannot convert cycle marker to Monty value`. -/
  | cycle
  /-- `Cannot convert Go %T to Monty value`. -/
  | goType (goType : GoString)
  /-- `external result has no kind`. -/
  | extResult
  /-- `name lookup result has no kind`. -/
  | nameLookup
  deriving DecidableEq

/-! ## Fields -/

section Fields

variable (P : Protowire) (b : Bytes) (num : ℕ)

def appendVarintField (v : UInt64) : Bytes := b ++ (P.tag (num, .varint) ++ P.varint v)

def appendBoolField (v : Bool) : Bytes := if v then appendVarintField P b num 1 else b

def appendUintField (v : UInt64) : Bytes := if v = 0 then b else appendVarintField P b num v

/-- `appendInt32Field`: a negative number takes its 64-bit form. -/
def appendInt32Field (v : Int32) : Bytes :=
  if v = 0 then b else appendVarintField P b num v.toInt64.toUInt64

/-- `appendBytesAlways`, and `appendStringAlways` and `appendMessage`, which write the same. -/
def appendBytesAlways (v : Bytes) : Bytes := b ++ (P.tag (num, .bytes) ++ P.bytes v)

def appendStringAlways (s : GoString) : Bytes := appendBytesAlways P b num s

def appendMessage (msg : Bytes) : Bytes := appendBytesAlways P b num msg

def appendStringField (s : GoString) : Bytes := if s = [] then b else appendStringAlways P b num s

/-- An optional string, written when it is there. -/
def appendOptionalString (s : Option GoString) : Bytes :=
  match s with
  | some s => appendStringAlways P b num s
  | none => b

/-- An optional `int32`, written when it is there. -/
def appendOptionalInt32 (v : Option Int32) : Bytes :=
  match v with
  | some v => appendVarintField P b num v.toInt64.toUInt64
  | none => b

end Fields

/-! ## UUIDs -/

/-- The byte `'-'`. -/
def dash : UInt8 := 45

/-- The value of a hexadecimal digit of either case. -/
def hexValue (c : UInt8) : Option UInt8 :=
  if 48 ≤ c ∧ c ≤ 57 then some (c - 48)
  else if 97 ≤ c ∧ c ≤ 102 then some (c - 87)
  else if 65 ≤ c ∧ c ≤ 70 then some (c - 55)
  else none

/-- `hex.DecodeString`. -/
def hexDecode : GoString → Option Bytes
  | [] => some []
  | [_] => none
  | c :: d :: rest => do
    let high ← hexValue c
    let low ← hexValue d
    let raw ← hexDecode rest
    pure ((16 * high + low) :: raw)

def parseUUID (s : GoString) : Except ConversionError Bytes :=
  if s.length ≠ 36 ∨ s[8]? ≠ some dash ∨ s[13]? ≠ some dash ∨ s[18]? ≠ some dash ∨
      s[23]? ≠ some dash then .error (.uuid s)
  else
    match hexDecode (s.filter (· ≠ dash)) with
    | none => .error (.uuid s)
    | some raw => if raw.length ≠ 16 then .error (.uuid s) else .ok raw

def appendUUIDMessage (P : Protowire) (b : Bytes) (num : ℕ) (id : GoString) :
    Except ConversionError Bytes := do
  let raw ← parseUUID id
  pure (appendMessage P b num (appendBytesAlways P [] 1 raw))

/-! ## Numbers -/

def isInt64 (x : ℤ) : Bool := decide (-2 ^ 63 ≤ x ∧ x < 2 ^ 63)

/-- `big.Int.Bytes`: the absolute value, its highest byte first. -/
def bigBytes (x : ℤ) : Bytes := ((Nat.digits 256 x.natAbs).map UInt8.ofNat).reverse

/-- `float64(x)`: the same number; a signalling NaN becomes quiet. -/
def widen (x : UInt32) : Float64 :=
  let sign := x.toNat / 2 ^ 31 * 2 ^ 63
  let exponent := x.toNat / 2 ^ 23 % 2 ^ 8
  let fraction := x.toNat % 2 ^ 23
  if exponent = 255 then
    if fraction = 0 then UInt64.ofNat (sign + 2047 * 2 ^ 52)
    else UInt64.ofNat (sign + 2047 * 2 ^ 52 + 2 ^ 51 + fraction % 2 ^ 22 * 2 ^ 29)
  else if exponent = 0 then
    if fraction = 0 then UInt64.ofNat sign
    else
      -- a subnormal number becomes a normal one
      let k := Nat.log2 fraction
      UInt64.ofNat (sign + (k + 874) * 2 ^ 52 + (fraction - 2 ^ k) * 2 ^ (52 - k))
  else UInt64.ofNat (sign + (exponent + 896) * 2 ^ 52 + fraction * 2 ^ 29)

section Values

variable (P : Protowire) (b : Bytes)

def appendInt (x : Int64) : Bytes := appendVarintField P b 5 (P.encodeZigZag x)

def appendBig (x : ℤ) : Bytes :=
  if isInt64 x then appendInt P b (Int64.ofInt x)
  else
    let body := appendBoolField P [] 1 (x < 0)
    let body := appendBytesAlways P body 2 (bigBytes x)
    appendMessage P b 6 body

def appendUint (x : UInt64) : Bytes :=
  if x.toNat ≤ 2 ^ 63 - 1 then appendInt P b x.toInt64 else appendBig P b x.toNat

/-- The integer cases of `AppendValue`. -/
def appendGoInt : GoInt → Bytes
  | .int x => appendInt P b x
  | .int8 x => appendInt P b x.toInt64
  | .int16 x => appendInt P b x.toInt64
  | .int32 x => appendInt P b x.toInt64
  | .int64 x => appendInt P b x
  | .uint x => appendUint P b x
  | .uint8 x => appendInt P b x.toUInt64.toInt64
  | .uint16 x => appendInt P b x.toUInt64.toInt64
  | .uint32 x => appendInt P b x.toUInt64.toInt64
  | .uint64 x => appendUint P b x
  | .big none => appendMessage P b 2 []
  | .big (some x) => appendBig P b x

/-! ## Messages without values in them -/

/-- The body of a date. -/
def appendDateBody (x : Date) : Bytes :=
  let body := appendInt32Field P b 1 x.year
  let body := appendUintField P body 2 x.month.toUInt64
  appendUintField P body 3 x.day.toUInt64

/-- The body of a time. -/
def appendTimeBody (x : Time) : Bytes :=
  let body := appendUintField P b 1 x.hour.toUInt64
  let body := appendUintField P body 2 x.minute.toUInt64
  let body := appendUintField P body 3 x.second.toUInt64
  let body := appendUintField P body 4 x.microsecond.toUInt64
  let body := appendOptionalInt32 P body 5 x.offsetSeconds
  let body := appendOptionalString P body 6 x.timezoneName
  appendUintField P body 7 x.fold.toUInt64

/-- The body of a datetime. -/
def appendDateTimeBody (x : DateTime) : Bytes :=
  let body := appendInt32Field P b 1 x.year
  let body := appendUintField P body 2 x.month.toUInt64
  let body := appendUintField P body 3 x.day.toUInt64
  let body := appendUintField P body 4 x.hour.toUInt64
  let body := appendUintField P body 5 x.minute.toUInt64
  let body := appendUintField P body 6 x.second.toUInt64
  let body := appendUintField P body 7 x.microsecond.toUInt64
  let body := appendOptionalInt32 P body 8 x.offsetSeconds
  appendOptionalString P body 9 x.timezoneName

/-- The body of a timedelta. -/
def appendTimeDeltaBody (x : TimeDelta) : Bytes :=
  let body := appendInt32Field P b 1 x.days
  let body := appendInt32Field P body 2 x.seconds
  appendInt32Field P body 3 x.microseconds

def appendTimeZoneBody (x : TimeZone) : Bytes :=
  let b := appendInt32Field P b 1 x.offsetSeconds
  appendOptionalString P b 2 x.name

/-- The body of an exception value. -/
def appendExceptionValueBody (x : Exception) : Bytes :=
  let body := appendStringField P b 1 x.excType
  if x.message ≠ [] then appendStringAlways P body 2 x.message else body

/-- The body of a function. -/
def appendFunctionBody (x : Function) : Bytes :=
  let body := appendStringField P b 1 x.name
  appendOptionalString P body 2 x.docstring

def appendFileHandle (x : FileHandle) : Bytes :=
  let body := appendStringField P [] 1 x.path
  let body := appendStringField P body 2 x.mode
  let body := appendUintField P body 3 x.position
  appendMessage P b 28 body

/-- The first part of the body of a named tuple. -/
def appendNames (typeName : GoString) (fieldNames : List GoString) : Bytes :=
  fieldNames.foldl (fun body name => appendStringAlways P body 2 name)
    (appendStringField P b 1 typeName)

/-- `appendTypeBody` up to the attributes. -/
def appendTypeInfo (t : TypeInfo) : Except ConversionError Bytes := do
  let b := appendStringField P b 1 t.name
  let b ← if t.id ≠ [] then appendUUIDMessage P b 2 t.id else pure b
  let b := appendUintField P b 3 t.origin.toUInt64
  pure (appendBoolField P b 4 t.isDataclass)

end Values

/-! ## Values -/

variable (P : Protowire)

mutual

def appendValue (b : Bytes) : Object → Except ConversionError Bytes
  | .none => .ok (appendMessage P b 2 [])
  | .ellipsis => .ok (appendMessage P b 1 [])
  | .notImplemented => .ok (appendMessage P b 3 [])
  | .bool x => .ok (appendVarintField P b 4 (P.encodeBool x))
  | .integer x => .ok (appendGoInt P b x)
  | .float32 x => .ok (b ++ (P.tag (7, .fixed64) ++ P.fixed64 (widen x)))
  | .float64 x => .ok (b ++ (P.tag (7, .fixed64) ++ P.fixed64 x))
  | .str x => .ok (appendStringAlways P b 8 x)
  | .bytes x => .ok (appendBytesAlways P b 9 x)
  | .list items => do
    let body ← appendItems 1 [] items
    pure (appendMessage P b 11 body)
  | .tuple items => do
    let body ← appendItems 1 [] items
    pure (appendMessage P b 12 body)
  | .namedTuple typeName fieldNames values => do
    let body ← appendItems 3 (appendNames P [] typeName fieldNames) values
    pure (appendMessage P b 13 body)
  | .dict pairs => do
    let body ← appendDictBody [] pairs
    pure (appendMessage P b 14 body)
  | .set items => do
    let body ← appendItems 1 [] items
    pure (appendMessage P b 15 body)
  | .frozenSet items => do
    let body ← appendItems 1 [] items
    pure (appendMessage P b 16 body)
  | .date x => .ok (appendMessage P b 17 (appendDateBody P [] x))
  | .time x => .ok (appendMessage P b 18 (appendTimeBody P [] x))
  | .dateTime x => .ok (appendMessage P b 19 (appendDateTimeBody P [] x))
  | .timeDelta x => .ok (appendMessage P b 20 (appendTimeDeltaBody P [] x))
  | .timeZone x => .ok (appendMessage P b 21 (appendTimeZoneBody P [] x))
  | .exception x => .ok (appendMessage P b 22 (appendExceptionValueBody P [] x))
  | .type info attrs => do
    let body ← appendTypeBody [] info attrs
    pure (appendMessage P b 23 body)
  | .classInstance _ info typeAttrs id attrs => do
    let typ ← appendTypeBody [] info typeAttrs
    let body := appendMessage P [] 1 typ
    let body ← appendUUIDMessage P body 2 id
    let encoded ←
      match attrs with
      | some pairs => appendDictBody [] pairs
      | none => pure []
    pure (appendMessage P b 24 (appendMessage P body 3 encoded))
  | .function x => .ok (appendMessage P b 25 (appendFunctionBody P [] x))
  | .builtinFunction name => .ok (appendStringAlways P b 26 name)
  | .path p => .ok (appendStringAlways P b 27 p)
  | .fileHandle _ x => .ok (appendFileHandle P b x)
  | .cycle _ => .error .cycle
  | .other goType => .error (.goType goType)

/-- The loops of `appendValueField` calls: the items of a list or of a named tuple. -/
def appendItems (num : ℕ) (body : Bytes) : List Object → Except ConversionError Bytes
  | [] => pure body
  | item :: rest => do
    let encoded ← appendValue [] item
    appendItems num (appendMessage P body num encoded) rest

/-- `appendDictBody`, with `appendPairBody` for each pair. -/
def appendDictBody (b : Bytes) : List (Object × Object) → Except ConversionError Bytes
  | [] => pure b
  | (key, value) :: rest => do
    let key ← appendValue [] key
    let value ← appendValue [] value
    appendDictBody (appendMessage P b 1 (appendMessage P (appendMessage P [] 1 key) 2 value)) rest

def appendTypeBody (b : Bytes) (info : TypeInfo) :
    Option (List (Object × Object)) → Except ConversionError Bytes
  | some pairs => do
    let b ← appendTypeInfo P b info
    if 0 < pairs.length then
      let attrs ← appendDictBody [] pairs
      pure (appendMessage P b 5 attrs)
    else pure b
  | none => appendTypeInfo P b info

end

def appendValueField (b : Bytes) (num : ℕ) (v : Object) : Except ConversionError Bytes := do
  let body ← appendValue P [] v
  pure (appendMessage P b num body)

end Montygo.Wire
