import Montygo.Lib.Binary64
import Montygo.Wire.Encode

/-!
# Python equality of values

`Equal` and the lookups built on it.  Numbers compare across their Go types, containers deeply;
what the type switch does not name is left to Go: `==` on a comparable type, and
`reflect.DeepEqual` on the others.  That comparison, which only decides for two values that the
switch does not name, is the parameter `same`.
-/

namespace Montygo.Value

open Go Wire

/-! ## Numbers -/

/-- `numKind` with the operand of that kind. -/
inductive Number where
  | int (x : Int64)
  | big (x : ℤ)
  | float (x : Float64)
  deriving DecidableEq

def uintNumber (x : UInt64) : Number :=
  if x.toNat ≤ 2 ^ 63 - 1 then .int x.toInt64 else .big x.toNat

/-- `asNumber`; `none` is `numNone`. -/
def asNumber : Object → Option Number
  | .bool x => some (.int (if x then 1 else 0))
  | .integer (.int x) => some (.int x)
  | .integer (.int8 x) => some (.int x.toInt64)
  | .integer (.int16 x) => some (.int x.toInt64)
  | .integer (.int32 x) => some (.int x.toInt64)
  | .integer (.int64 x) => some (.int x)
  | .integer (.uint x) => some (uintNumber x)
  | .integer (.uint8 x) => some (.int x.toUInt64.toInt64)
  | .integer (.uint16 x) => some (.int x.toUInt64.toInt64)
  | .integer (.uint32 x) => some (.int x.toUInt64.toInt64)
  | .integer (.uint64 x) => some (uintNumber x)
  | .integer (.big none) => none
  | .integer (.big (some x)) => some (if isInt64 x then .int (Int64.ofInt x) else .big x)
  | .float32 x => some (.float (widen x))
  | .float64 x => some (.float x)
  | _ => none

/-- `toBig`; a float is never asked for. -/
def Number.toBig : Number → ℤ
  | .int x => x.toInt
  | .big x => x
  | .float _ => 0

def floatEqualsInt (f : Float64) (i : ℤ) : Bool :=
  if Binary64.isInf f || Binary64.isNaN f || !Binary64.isIntegral f then false
  else Binary64.trunc f == i

def numbersEqual : Number → Number → Bool
  | .int x, .int y => x == y
  | .float x, .float y => Binary64.equal x y
  | .float x, y => floatEqualsInt x y.toBig
  | x, .float y => floatEqualsInt y x.toBig
  | x, y => x.toBig == y.toBig

/-! ## The comparison -/

/-- A value as the type switch of `Equal` sees it. -/
inductive Shape where
  | nothing
  | str (x : GoString)
  | bytes (x : Bytes)
  | list (items : List Object)
  | tuple (items : List Object)
  | dict (pairs : List (Object × Object))
  | set (items : List Object)
  | frozenSet (items : List Object)
  | namedTuple (values : List Object)
  | other

def Object.shape : Object → Shape
  | .none => .nothing
  | .str x => .str x
  | .bytes x => .bytes x
  | .list items => .list items
  | .tuple items => .tuple items
  | .dict pairs => .dict pairs
  | .set items => .set items
  | .frozenSet items => .frozenSet items
  | .namedTuple _ _ values => .namedTuple values
  | _ => .other

section Body

-- the comparison of the values inside
variable (eq : Object → Object → Bool)

def seqEqual (a b : List Object) : Bool :=
  if a.length ≠ b.length then false else (a.zip b).all fun p => eq p.1 p.2

def containsEqual (items : List Object) (v : Object) : Bool := items.any fun it => eq it v

def setsEqual (a b : List Object) : Bool :=
  if a.length ≠ b.length then false else a.all fun x => containsEqual eq b x

/-- `Dict.Get`, which returns the value at `Dict.find`. -/
def dictGet (pairs : List (Object × Object)) (k : Object) : Option Object :=
  (pairs.find? fun p => eq p.1 k).map Prod.snd

/-- `Dict.Equal`. -/
def dictEqual (d o : List (Object × Object)) : Bool :=
  if d.length ≠ o.length then false
  else d.all fun p =>
    match dictGet eq o p.1 with
    | none => false
    | some v => eq p.2 v

/-- The type switch of `Equal`.  Two values that it does not name are compared by Go; one that it
names and one that it does not are of different types. -/
def switchEqual (same : Bool) : Shape → Shape → Bool
  | .nothing, .nothing => true
  | .str x, .str y => x == y
  | .bytes x, .bytes y => x == y
  | .list x, .list y => seqEqual eq x y
  | .tuple x, .tuple y => seqEqual eq x y
  | .dict x, .dict y => dictEqual eq x y
  | .set x, .set y => setsEqual eq x y
  | .set x, .frozenSet y => setsEqual eq x y
  | .frozenSet x, .set y => setsEqual eq x y
  | .frozenSet x, .frozenSet y => setsEqual eq x y
  | .namedTuple x, .namedTuple y => seqEqual eq x y
  | .namedTuple x, .tuple y => seqEqual eq x y
  | .other, .other => same
  | _, _ => false

end Body

section Equal

variable (same : Object → Object → Bool)

/-- The body of `Equal`; its recursive calls are `eq`. -/
def equalBody (eq : Object → Object → Bool) (a b : Object) : Bool :=
  match asNumber a, asNumber b with
  | some x, some y => numbersEqual x y
  | some _, none | none, some _ => false
  | none, none => switchEqual eq (same a b) a.shape b.shape

end Equal

/-- The calls of a recursive comparison that nest at most `n` deep. -/
def nested {β : Type*} (base : β) (body : (Object → Object → β) → Object → Object → β) :
    ℕ → Object → Object → β
  | 0 => fun _ _ => base
  | n + 1 => body (nested base body n)

/-- The number of values in a value. -/
def Object.size (v : Object) : ℕ := v.sum fun _ => 1

/-- `Equal`: the recursion goes into both values at once and ends before either does. -/
def equal (same : Object → Object → Bool) (a b : Object) : Bool :=
  nested false (equalBody same) (a.size + b.size) a b

end Montygo.Value
