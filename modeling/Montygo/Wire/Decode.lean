import Montygo.Wire.Reader
import Montygo.Wire.Encode

/-!
# Decoding values

The reading half of the value codec, one table of arms for each message.  A decoder that reads
values takes the decoder of values as a parameter, so that the recursion stands in one place:
`decodeWithin room` decodes values that nest at most `room` deep, and `decodeValue` at a depth
is `decodeWithin` with the room that is left below the nesting limit.
-/

namespace Montygo.Wire

open Go Value WireFormat

def nodeHostSize : ℕ := 88
def maxDecodeNesting : ℕ := 100

variable (P : Protowire)

/-! ## Messages without values in them -/

def formatUUID (b : Bytes) : DecodeM GoString :=
  if b.length ≠ 16 then fail (.text "uuid must be exactly 16 bytes")
  else
    let h := hexEncode b
    pure (h.take 8 ++ dash :: (h.drop 8).take 4 ++ dash :: (h.drop 12).take 4 ++
      dash :: (h.drop 16).take 4 ++ dash :: h.drop 20)

def uuidArms : ℕ → Arm Bytes
  | 1 => .bytes fun b _ => pure b
  | _ => .skip id

def decodeUUIDMessage (msg : Bytes) : DecodeM GoString := do
  let data ← readMessage P uuidArms msg []
  formatUUID data

/-- `big.Int.SetBytes`: a number, its highest byte first. -/
def setBytes (mag : Bytes) : ℕ := Nat.ofDigits 256 (mag.reverse.map UInt8.toNat)

def intValue (x : ℤ) : GoInt := if isInt64 x then .int64 (Int64.ofInt x) else .big (some x)

def bigArms : ℕ → Arm (Bool × Bytes)
  | 1 => .varint fun v s => pure (decide (v ≠ 0), s.2)
  | 2 => .bytes fun b s => pure (s.1, b)
  | _ => .skip id

def decodeBig (msg : Bytes) : DecodeM Object := do
  let (neg, mag) ← readMessage P bigArms msg (false, [])
  charge mag.length
  let x : ℤ := setBytes mag
  pure (.integer (intValue (if neg then -x else x)))

/-- `clampU32`, narrowed to a byte. -/
def clampU32 (v : UInt64) : UInt8 := if 255 < v then 255 else v.toUInt8

/-- `int32(v)`. -/
def toInt32 (v : UInt64) : Int32 := v.toUInt32.toInt32

/-- The days of a month. -/
def daysOf (year : Int32) (month : UInt8) : UInt8 :=
  if month = 2 ∧ year.toInt % 4 = 0 ∧ (year.toInt % 100 ≠ 0 ∨ year.toInt % 400 = 0) then 29
  else [31, 28, 31, 30, 31, 30, 31, 31, 30, 31, 30, 31].getD (month.toNat - 1) 0

def validateDate (year : Int32) (month day : UInt8) : Except WireError Unit :=
  if year < 1 ∨ 9999 < year then .error (.text s!"year {year} is out of range")
  else if month < 1 ∨ 12 < month then .error (.text s!"month {month} is out of range")
  else if day < 1 ∨ daysOf year month < day then
    .error (.text s!"day {day} is out of range for month")
  else .ok ()

def validateClock (hour minute second : UInt8) (micro : UInt32) (offset : Option Int32)
    (name : Option GoString) : Except WireError Unit :=
  if 23 < hour ∨ 59 < minute ∨ 59 < second ∨ 999999 < micro then
    .error (.text "time component out of range")
  else if offset.any (fun offset => offset ≤ -86400 || 86400 ≤ offset) then
    .error (.text "utc offset out of range")
  else if name.isSome ∧ offset.isNone then
    .error (.text "timezone name requires an offset")
  else .ok ()

/-- A check that does not touch the budget. -/
def ensure (check : Except WireError Unit) : DecodeM Unit :=
  match check with
  | .ok _ => pure ()
  | .error e => fail e

def dateArms : ℕ → Arm Date
  | 1 => .varint fun v d => pure { d with year := toInt32 v }
  | 2 => .varint fun v d => pure { d with month := clampU32 v }
  | 3 => .varint fun v d => pure { d with day := clampU32 v }
  | _ => .skip id

def decodeDate (msg : Bytes) : DecodeM Object := do
  let d ← readMessage P dateArms msg ⟨0, 0, 0⟩
  ensure (validateDate d.year d.month d.day)
  pure (.date d)

def timeArms : ℕ → Arm Time
  | 1 => .varint fun v t => pure { t with hour := clampU32 v }
  | 2 => .varint fun v t => pure { t with minute := clampU32 v }
  | 3 => .varint fun v t => pure { t with second := clampU32 v }
  | 4 => .varint fun v t => pure { t with microsecond := v.toUInt32 }
  | 5 => .varint fun v t => pure { t with offsetSeconds := some (toInt32 v) }
  | 6 => .bytes fun b t => pure { t with timezoneName := some b }
  | 7 => .varint fun v t => pure { t with fold := clampU32 v }
  | _ => .skip id

/-- The checks of `decodeTime`. -/
def validateTime (t : Time) : Except WireError Unit := do
  validateClock t.hour t.minute t.second t.microsecond t.offsetSeconds t.timezoneName
  if 1 < t.fold then .error (.text "fold must be 0 or 1") else .ok ()

def decodeTime (msg : Bytes) : DecodeM Object := do
  let t ← readMessage P timeArms msg ⟨0, 0, 0, 0, none, none, 0⟩
  ensure (validateTime t)
  pure (.time t)

def dateTimeArms : ℕ → Arm DateTime
  | 1 => .varint fun v d => pure { d with year := toInt32 v }
  | 2 => .varint fun v d => pure { d with month := clampU32 v }
  | 3 => .varint fun v d => pure { d with day := clampU32 v }
  | 4 => .varint fun v d => pure { d with hour := clampU32 v }
  | 5 => .varint fun v d => pure { d with minute := clampU32 v }
  | 6 => .varint fun v d => pure { d with second := clampU32 v }
  | 7 => .varint fun v d => pure { d with microsecond := v.toUInt32 }
  | 8 => .varint fun v d => pure { d with offsetSeconds := some (toInt32 v) }
  | 9 => .bytes fun b d => pure { d with timezoneName := some b }
  | _ => .skip id

/-- The checks of `decodeDateTime`. -/
def validateDateTime (d : DateTime) : Except WireError Unit := do
  validateDate d.year d.month d.day
  validateClock d.hour d.minute d.second d.microsecond d.offsetSeconds d.timezoneName

def decodeDateTime (msg : Bytes) : DecodeM Object := do
  let d ← readMessage P dateTimeArms msg ⟨0, 0, 0, 0, 0, 0, 0, none, none⟩
  ensure (validateDateTime d)
  pure (.dateTime d)

def timeDeltaArms : ℕ → Arm TimeDelta
  | 1 => .varint fun v t => pure { t with days := toInt32 v }
  | 2 => .varint fun v t => pure { t with seconds := toInt32 v }
  | 3 => .varint fun v t => pure { t with microseconds := toInt32 v }
  | _ => .skip id

/-- The check of `decodeTimeDelta`. -/
def validateTimeDelta (t : TimeDelta) : Except WireError Unit :=
  if t.seconds < 0 ∨ 86400 ≤ t.seconds ∨ t.microseconds < 0 ∨ 1000000 ≤ t.microseconds ∨
      t.days < -999999999 ∨ 999999999 < t.days then .error (.text "timedelta is not normalized")
  else .ok ()

def decodeTimeDelta (msg : Bytes) : DecodeM Object := do
  let t ← readMessage P timeDeltaArms msg ⟨0, 0, 0⟩
  ensure (validateTimeDelta t)
  pure (.timeDelta t)

def timeZoneArms : ℕ → Arm TimeZone
  | 1 => .varint fun v t => pure { t with offsetSeconds := toInt32 v }
  | 2 => .bytes fun b t => pure { t with name := some b }
  | _ => .skip id

/-- The check of `decodeTimeZone`. -/
def validateTimeZone (t : TimeZone) : Except WireError Unit :=
  if t.offsetSeconds ≤ -86400 ∨ 86400 ≤ t.offsetSeconds then
    .error (.text "timezone offset out of range")
  else .ok ()

def decodeTimeZone (msg : Bytes) : DecodeM TimeZone := do
  let t ← readMessage P timeZoneArms msg ⟨0, none⟩
  ensure (validateTimeZone t)
  pure t

def exceptionValueArms : ℕ → Arm Exception
  | 1 => .bytes fun b e => pure { e with excType := b }
  | 2 => .bytes fun b e => pure { e with message := b }
  | _ => .skip id

def decodeExceptionValue (msg : Bytes) : DecodeM Object := do
  let e ← readMessage P exceptionValueArms msg ⟨[], []⟩
  pure (.exception e)

def functionArms : ℕ → Arm Function
  | 1 => .bytes fun b f => pure { f with name := b }
  | 2 => .bytes fun b f => pure { f with docstring := some b }
  | _ => .skip id

def decodeFunction (msg : Bytes) : DecodeM Object := do
  let f ← readMessage P functionArms msg ⟨[], none⟩
  pure (.function f)

def validHandleMode (mode : GoString) : Bool :=
  mode ∈ ["r", "rb", "r+", "rb+", "w", "wb", "w+", "wb+", "a", "ab", "a+", "ab+"].map lit

def fileHandleArms : ℕ → Arm FileHandle
  | 1 => .bytes fun b h => pure { h with path := b }
  | 2 => .bytes fun b h => pure { h with mode := b }
  | 3 => .varint fun v h => pure { h with position := v }
  | _ => .skip id

/-- The check of `decodeFileHandle`. -/
def validateFileHandle (h : FileHandle) : Except WireError Unit :=
  if validHandleMode h.mode then .ok () else .error (.handleMode h.mode)

def decodeFileHandle (msg : Bytes) : DecodeM Object := do
  let h ← readMessage P fileHandleArms msg ⟨[], [], 0⟩
  ensure (validateFileHandle h)
  pure (.fileHandle true h)

def cycleArms : ℕ → Arm Cycle
  | 1 => .varint fun v c => pure { c with identity := v }
  | 2 => .bytes fun b c => pure { c with placeholder := b }
  | _ => .skip id

def decodeCycle (msg : Bytes) : DecodeM Object := do
  let c ← readMessage P cycleArms msg ⟨0, []⟩
  pure (.cycle c)

/-! ## Messages with values in them -/

section Containers

variable (dec : Bytes → DecodeM Object)

def objectListArms : ℕ → Arm (List Object)
  | 1 => .bytes fun b items => do
    let v ← dec b
    pure (items ++ [v])
  | _ => .skip id

def decodeObjectList (msg : Bytes) : DecodeM (List Object) :=
  readMessage P (objectListArms dec) msg []

def namedTupleArms : ℕ → Arm (GoString × List GoString × List Object)
  | 1 => .bytes fun b nt => pure (b, nt.2)
  | 2 => .bytes fun b nt => pure (nt.1, nt.2.1 ++ [b], nt.2.2)
  | 3 => .bytes fun b nt => do
    let v ← dec b
    pure (nt.1, nt.2.1, nt.2.2 ++ [v])
  | _ => .skip id

def decodeNamedTuple (msg : Bytes) : DecodeM Object := do
  let (typeName, fieldNames, values) ← readMessage P (namedTupleArms dec) msg ([], [], [])
  pure (.namedTuple typeName fieldNames values)

/-- The key and the value read so far. -/
def pairArms : ℕ → Arm (Option Object × Option Object)
  | 1 => .bytes fun b s => do
    let key ← dec b
    pure (some key, s.2)
  | 2 => .bytes fun b s => do
    let value ← dec b
    pure (s.1, some value)
  | _ => .skip id

def decodePair (msg : Bytes) : DecodeM (Object × Object) := do
  match ← readMessage P (pairArms dec) msg (none, none) with
  | (some key, some value) => pure (key, value)
  | _ => fail (.text "dict pair is missing its key or value")

def dictArms : ℕ → Arm (List (Object × Object))
  | 1 => .bytes fun b pairs => do
    let pair ← decodePair P dec b
    pure (pairs ++ [pair])
  | _ => .skip id

def decodeDict (msg : Bytes) : DecodeM (List (Object × Object)) :=
  readMessage P (dictArms P dec) msg []

/-- What `decodeType` has read so far. -/
structure TypeState where
  info : TypeInfo := ⟨[], [], 0, false⟩
  hasID : Bool := false
  attrs : Option (List (Object × Object)) := none

def typeArms : ℕ → Arm TypeState
  | 1 => .bytes fun b t => pure { t with info := { t.info with name := b } }
  | 2 => .bytes fun b t => do
    let id ← decodeUUIDMessage P b
    pure { t with info := { t.info with id := id }, hasID := true }
  | 3 => .varint fun v t => pure { t with info := { t.info with origin := v.toUInt8 } }
  | 4 => .varint fun v t => pure { t with info := { t.info with isDataclass := decide (v ≠ 0) } }
  | 5 => .bytes fun b t => do
    let pairs ← decodeDict P dec b
    pure (if 0 < pairs.length then { t with attrs := some pairs } else t)
  | _ => .skip id

/-- The check of a type's origin against its id. -/
def validateOrigin (origin : TypeOrigin) (hasID : Bool) : Except WireError Unit :=
  if origin = originBuiltin then
    if hasID then .error (.text "builtin type must not carry an id") else .ok ()
  else if origin = originSandbox ∨ origin = originHost then
    if hasID then .ok () else .error (.text "class type is missing its id")
  else .error (.text "type origin is unspecified")

def decodeType (msg : Bytes) : DecodeM (TypeInfo × Option (List (Object × Object))) := do
  let t ← readMessage P (typeArms P dec) msg {}
  ensure (validateOrigin t.info.origin t.hasID)
  pure (t.info, t.attrs)

/-- What `decodeInstance` has read so far. -/
structure InstanceState where
  type : Option (TypeInfo × Option (List (Object × Object))) := none
  id : Option GoString := none
  attrs : Option (List (Object × Object)) := none

variable (decBelow : Bytes → DecodeM Object)

/-- The type of an instance is decoded one level deeper than its attributes. -/
def instanceArms : ℕ → Arm InstanceState
  | 1 => .bytes fun b s => do
    let typ ← decodeType P decBelow b
    pure { s with type := some typ }
  | 2 => .bytes fun b s => do
    let id ← decodeUUIDMessage P b
    pure { s with id := some id }
  | 3 => .bytes fun b s => do
    let pairs ← decodeDict P dec b
    pure (if 0 < pairs.length then { s with attrs := some pairs } else s)
  | _ => .skip id

def decodeInstance (msg : Bytes) : DecodeM Object := do
  let s ← readMessage P (instanceArms P dec decBelow) msg {}
  match s.type, s.id with
  | some (info, typeAttrs), some id =>
    if info.origin = originBuiltin then fail (.text "class instance type must not be builtin")
    else pure (.classInstance false info typeAttrs id s.attrs)
  | _, _ => fail (.text "class instance is missing its type or id")

/-! ## Values -/

/-- A byte string that counts against the budget. -/
def charged (make : Bytes → Object) (b : Bytes) : DecodeM Object := do
  charge b.length
  pure (make b)

/-- The arms of `decodeValue`: the value read so far, and whether the last field was known. -/
def valueArms : ℕ → Arm (Object × Bool)
  | 1 => .bytes fun _ _ => pure (.ellipsis, true)
  | 2 => .bytes fun _ _ => pure (.none, true)
  | 3 => .bytes fun _ _ => pure (.notImplemented, true)
  | 4 => .varint fun v _ => pure (.bool (decide (v ≠ 0)), true)
  | 5 => .varint fun v _ => pure (.integer (.int64 (P.decodeZigZag v)), true)
  | 6 => .bytes fun b _ => do pure (← decodeBig P b, true)
  | 7 => .fixed64 fun v _ => pure (.float64 v, true)
  | 8 => .bytes fun b _ => do pure (← charged .str b, true)
  | 9 => .bytes fun b _ => do pure (← charged .bytes b, true)
  | 10 => .bytes fun _ _ => fail (.text "uuid values are not supported")
  | 11 => .bytes fun b _ => do pure (.list (← decodeObjectList P dec b), true)
  | 12 => .bytes fun b _ => do pure (.tuple (← decodeObjectList P dec b), true)
  | 13 => .bytes fun b _ => do pure (← decodeNamedTuple P dec b, true)
  | 14 => .bytes fun b _ => do pure (.dict (← decodeDict P dec b), true)
  | 15 => .bytes fun b _ => do pure (.set (← decodeObjectList P dec b), true)
  | 16 => .bytes fun b _ => do pure (.frozenSet (← decodeObjectList P dec b), true)
  | 17 => .bytes fun b _ => do pure (← decodeDate P b, true)
  | 18 => .bytes fun b _ => do pure (← decodeTime P b, true)
  | 19 => .bytes fun b _ => do pure (← decodeDateTime P b, true)
  | 20 => .bytes fun b _ => do pure (← decodeTimeDelta P b, true)
  | 21 => .bytes fun b _ => do pure (.timeZone (← decodeTimeZone P b), true)
  | 22 => .bytes fun b _ => do pure (← decodeExceptionValue P b, true)
  | 23 => .bytes fun b _ => do
    let (info, attrs) ← decodeType P dec b
    pure (.type info attrs, true)
  | 24 => .bytes fun b _ => do pure (← decodeInstance P dec decBelow b, true)
  | 25 => .bytes fun b _ => do pure (← decodeFunction P b, true)
  | 26 => .bytes fun b _ => pure (.builtinFunction b, true)
  | 27 => .bytes fun b _ => pure (.path b, true)
  | 28 => .bytes fun b _ => do pure (← decodeFileHandle P b, true)
  | 29 => .bytes fun b _ => do pure (← charged .str b, true)
  | 30 => .bytes fun b _ => do pure (← decodeCycle P b, true)
  -- a field of another number takes the mark of the kind before it away
  | _ => .skip fun s => (s.1, false)

/-- The body of `decodeValue` below the check of the depth. -/
def decodeObject (msg : Bytes) : DecodeM Object := do
  charge nodeHostSize
  let (out, seen) ← readMessage P (valueArms P dec decBelow) msg (.none, false)
  if seen then pure out else fail (.text "MontyObject carried no kind")

end Containers

/-- Decodes values that nest at most `room` deep. -/
def decodeWithin : ℕ → Bytes → DecodeM Object
  | 0 => fun _ => fail (.text "value nesting exceeds the recursion limit")
  | 1 => fun msg => decodeObject P (decodeWithin 0) (decodeWithin 0) msg
  | room + 2 => fun msg => decodeObject P (decodeWithin (room + 1)) (decodeWithin room) msg

theorem decodeWithin_succ (room : ℕ) :
    decodeWithin P (room + 1) = decodeObject P (decodeWithin P room) (decodeWithin P (room - 1)) := by
  cases room <;> rfl

/-- `decodeValue` at a depth. -/
def decodeValue (msg : Bytes) (depth : ℕ) : DecodeM Object :=
  decodeWithin P (maxDecodeNesting + 1 - depth) msg

end Montygo.Wire
