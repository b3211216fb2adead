import Montygo.Go.Strings

/-!
# Values that cross the sandbox boundary

The Go representation of Python values.  An `Object` is a Go `any` that holds one of the types
the codec knows, or some other one.  A slice and a set are their items; a `*Dict` is its pairs,
and only where the code tells a missing dict from an empty one, in the attributes of a class or
an instance, it is optional.

The second part is the depth check that values pass before they are sent.
-/

namespace Montygo.Value

/-- An integer of one of Go's types; a `*big.Int` may be nil. -/
inductive GoInt where
  | int (x : Int64)
  | int8 (x : Int8)
  | int16 (x : Int16)
  | int32 (x : Int32)
  | int64 (x : Int64)
  | uint (x : UInt64)
  | uint8 (x : UInt8)
  | uint16 (x : UInt16)
  | uint32 (x : UInt32)
  | uint64 (x : UInt64)
  | big (x : Option ℤ)
  deriving DecidableEq

/-- The number; a nil `*big.Int` has none. -/
def GoInt.value : GoInt → Option ℤ
  | .int x => some x.toInt
  | .int8 x => some x.toInt
  | .int16 x => some x.toInt
  | .int32 x => some x.toInt
  | .int64 x => some x.toInt
  | .uint x => some x.toNat
  | .uint8 x => some x.toNat
  | .uint16 x => some x.toNat
  | .uint32 x => some x.toNat
  | .uint64 x => some x.toNat
  | .big x => x

structure Date where
  year : Int32
  month : UInt8
  day : UInt8
  deriving DecidableEq

structure Time where
  hour : UInt8
  minute : UInt8
  second : UInt8
  microsecond : UInt32
  offsetSeconds : Option Int32
  timezoneName : Option GoString
  fold : UInt8
  deriving DecidableEq

structure DateTime where
  year : Int32
  month : UInt8
  day : UInt8
  hour : UInt8
  minute : UInt8
  second : UInt8
  microsecond : UInt32
  offsetSeconds : Option Int32
  timezoneName : Option GoString
  deriving DecidableEq

structure TimeDelta where
  days : Int32
  seconds : Int32
  microseconds : Int32
  deriving DecidableEq

structure TimeZone where
  offsetSeconds : Int32
  name : Option GoString
  deriving DecidableEq

structure Exception where
  excType : GoString
  message : GoString
  deriving DecidableEq

structure Function where
  name : GoString
  docstring : Option GoString
  deriving DecidableEq

structure FileHandle where
  path : GoString
  mode : GoString
  position : UInt64
  deriving DecidableEq

structure Cycle where
  identity : UInt64
  placeholder : GoString
  deriving DecidableEq

/-- `TypeOrigin`: a `uint8`, of which the code names four values. -/
abbrev TypeOrigin := UInt8

def originBuiltin : TypeOrigin := 1
def originSandbox : TypeOrigin := 2
def originHost : TypeOrigin := 3

/-- `Type` without its attributes. -/
structure TypeInfo where
  name : GoString
  id : GoString
  origin : TypeOrigin
  isDataclass : Bool
  deriving DecidableEq

/-- A Go value: one that the codec knows, or one of another Go type.  `pointer` tells the two
forms of an instance and of a file handle apart. -/
inductive Object where
  | none
  | ellipsis
  | notImplemented
  | bool (x : Bool)
  | integer (x : GoInt)
  | float32 (bits : UInt32)
  | float64 (x : Float64)
  | str (x : GoString)
  | bytes (x : Bytes)
  | list (items : List Object)
  | tuple (items : List Object)
  | namedTuple (typeName : GoString) (fieldNames : List GoString) (values : List Object)
  | dict (pairs : List (Object × Object))
  | set (items : List Object)
  | frozenSet (items : List Object)
  | date (x : Date)
  | time (x : Time)
  | dateTime (x : DateTime)
  | timeDelta (x : TimeDelta)
  | timeZone (x : TimeZone)
  | exception (x : Exception)
  | type (info : TypeInfo) (attrs : Option (List (Object × Object)))
  | classInstance (pointer : Bool) (info : TypeInfo)
      (typeAttrs : Option (List (Object × Object))) (id : GoString)
      (attrs : Option (List (Object × Object)))
  | function (x : Function)
  | builtinFunction (name : GoString)
  | path (p : GoString)
  | fileHandle (pointer : Bool) (x : FileHandle)
  | cycle (x : Cycle)
  | other (goType : GoString)

/-- The keys and values of a dict. -/
def pairObjects (pairs : List (Object × Object)) : List Object :=
  pairs.flatMap fun pair => [pair.1, pair.2]

theorem forall_pairObjects {p : Object → Prop} {key value : Object} {rest : List (Object × Object)} :
    (∀ c ∈ pairObjects ((key, value) :: rest), p c) ↔
      p key ∧ p value ∧ ∀ c ∈ pairObjects rest, p c := by
  simp [pairObjects]

/-- The values directly in a value. -/
def Object.children : Object → List Object
  | .list items | .tuple items | .set items | .frozenSet items | .namedTuple _ _ items => items
  | .dict pairs => pairObjects pairs
  | .type _ attrs => pairObjects (attrs.getD [])
  | .classInstance _ _ typeAttrs _ attrs =>
    pairObjects (typeAttrs.getD []) ++ pairObjects (attrs.getD [])
  | .none | .ellipsis | .notImplemented | .bool _ | .integer _ | .float32 _ | .float64 _ | .str _
  | .bytes _ | .date _ | .time _ | .dateTime _ | .timeDelta _ | .timeZone _ | .exception _
  | .function _ | .builtinFunction _ | .path _ | .fileHandle _ _ | .cycle _ | .other _ => []

section Induction

variable {motive : Object → Prop}

mutual

/-- **Induction on values**: what holds of a value when it holds of the values in it. -/
theorem Object.induction (h : ∀ v, (∀ c ∈ v.children, motive c) → motive v) (v : Object) :
    motive v := by
  refine h v fun c hc => ?_
  cases v with
  | list items | tuple items | set items | frozenSet items => exact inductionItems h items c hc
  | namedTuple typeName fieldNames values => exact inductionItems h values c hc
  | dict pairs => exact inductionPairs h pairs c hc
  | type info attrs =>
    cases attrs with
    | none => cases hc
    | some pairs => exact inductionPairs h pairs c hc
  | classInstance pointer info typeAttrs id attrs =>
    rcases List.mem_append.mp hc with hc | hc
    · cases typeAttrs with
      | none => cases hc
      | some pairs => exact inductionPairs h pairs c hc
    · cases attrs with
      | none => cases hc
      | some pairs => exact inductionPairs h pairs c hc
  | _ => cases hc

theorem inductionItems (h : ∀ v, (∀ c ∈ v.children, motive c) → motive v) (items : List Object) :
    ∀ c ∈ items, motive c := by
  cases items with
  | nil => simp
  | cons item rest =>
    have hitem := Object.induction h item
    have hrest := inductionItems h rest
    simp only [List.mem_cons, forall_eq_or_imp]
    exact ⟨hitem, hrest⟩

theorem inductionPairs (h : ∀ v, (∀ c ∈ v.children, motive c) → motive v)
    (pairs : List (Object × Object)) : ∀ c ∈ pairObjects pairs, motive c := by
  cases pairs with
  | nil => simp [pairObjects]
  | cons pair rest =>
    obtain ⟨key, value⟩ := pair
    have hkey := Object.induction h key
    have hvalue := Object.induction h value
    have hrest := inductionPairs h rest
    exact forall_pairObjects.mpr ⟨hkey, hvalue, hrest⟩

end

end Induction

/-- What holds of a value and of every value in it. -/
inductive Object.All (p : Object → Prop) : Object → Prop
  | mk {v : Object} (here : p v) (inside : ∀ c ∈ v.children, All p c) : All p v

/-! ## Sums over values -/

mutual

/-- The sum of a measure over a value and the values in it. -/
def Object.sum (f : Object → ℕ) : Object → ℕ
  | .list items => f (.list items) + sumItems f items
  | .tuple items => f (.tuple items) + sumItems f items
  | .set items => f (.set items) + sumItems f items
  | .frozenSet items => f (.frozenSet items) + sumItems f items
  | .namedTuple typeName fieldNames values =>
    f (.namedTuple typeName fieldNames values) + sumItems f values
  | .dict pairs => f (.dict pairs) + sumPairs f pairs
  | .type info attrs => f (.type info attrs) + sumAttrs f attrs
  | .classInstance pointer info typeAttrs id attrs =>
    f (.classInstance pointer info typeAttrs id attrs) + (sumAttrs f typeAttrs + sumAttrs f attrs)
  | .none => f .none
  | .ellipsis => f .ellipsis
  | .notImplemented => f .notImplemented
  | .bool x => f (.bool x)
  | .integer x => f (.integer x)
  | .float32 x => f (.float32 x)
  | .float64 x => f (.float64 x)
  | .str x => f (.str x)
  | .bytes x => f (.bytes x)
  | .date x => f (.date x)
  | .time x => f (.time x)
  | .dateTime x => f (.dateTime x)
  | .timeDelta x => f (.timeDelta x)
  | .timeZone x => f (.timeZone x)
  | .exception x => f (.exception x)
  | .function x => f (.function x)
  | .builtinFunction name => f (.builtinFunction name)
  | .path p => f (.path p)
  | .fileHandle pointer x => f (.fileHandle pointer x)
  | .cycle x => f (.cycle x)
  | .other goType => f (.other goType)

def sumItems (f : Object → ℕ) : List Object → ℕ
  | [] => 0
  | item :: rest => item.sum f + sumItems f rest

def sumPairs (f : Object → ℕ) : List (Object × Object) → ℕ
  | [] => 0
  | (key, value) :: rest => key.sum f + value.sum f + sumPairs f rest

def sumAttrs (f : Object → ℕ) : Option (List (Object × Object)) → ℕ
  | some pairs => sumPairs f pairs
  | none => 0

end

section Sum

variable {f : Object → ℕ} {items items' : List Object} {pairs pairs' : List (Object × Object)}

end Sum

/-! ## Depth -/

def prostRecursionLimit : ℕ := 100
def frameWrapperDepth : ℕ := 3
def maxProtoValueDepth : ℕ := prostRecursionLimit - frameWrapperDepth
def listCost : ℕ := 2
def dictCost : ℕ := 3
def classInstanceCost : ℕ := 4
def typeCost : ℕ := 2
def classInstanceTypeCost : ℕ := 3
def typeAttrsCost : ℕ := 2

mutual

def depthExceeds : Object → ℕ → Bool
  | .list items, budget => decide (budget < listCost) || seqExceed items (budget - listCost)
  | .tuple items, budget => decide (budget < listCost) || seqExceed items (budget - listCost)
  | .set items, budget => decide (budget < listCost) || seqExceed items (budget - listCost)
  | .frozenSet items, budget => decide (budget < listCost) || seqExceed items (budget - listCost)
  | .namedTuple _ _ values, budget =>
    decide (budget < listCost) || seqExceed values (budget - listCost)
  | .dict pairs, budget => decide (budget < dictCost) || pairsExceed pairs (budget - dictCost)
  | .classInstance _ _ typeAttrs _ attrs, budget =>
    decide (budget < classInstanceTypeCost) ||
      classTypeExceeds typeAttrs (budget - classInstanceTypeCost) ||
      (decide (budget < classInstanceCost) ||
        match attrs with
        | some pairs => pairsExceed pairs (budget - classInstanceCost)
        | none => false)
  | .type info attrs, budget =>
    if info.origin = originBuiltin then decide (budget < typeCost)
    else decide (budget < typeCost) || classTypeExceeds attrs (budget - typeCost)
  | .none, budget | .ellipsis, budget | .notImplemented, budget | .bool _, budget
  | .integer _, budget | .float32 _, budget | .float64 _, budget | .str _, budget
  | .bytes _, budget | .date _, budget | .time _, budget | .dateTime _, budget
  | .timeDelta _, budget | .timeZone _, budget | .exception _, budget | .function _, budget
  | .builtinFunction _, budget | .path _, budget | .fileHandle _ _, budget | .cycle _, budget
  | .other _, budget => decide (budget = 0)

def classTypeExceeds : Option (List (Object × Object)) → ℕ → Bool
  | some pairs, budget =>
    decide (0 < pairs.length) &&
      (decide (budget < typeAttrsCost) || pairsExceed pairs (budget - typeAttrsCost))
  | none, _ => false

/-- The loop of `seqExceeds`. -/
def seqExceed : List Object → ℕ → Bool
  | [], _ => false
  | item :: rest, budget => depthExceeds item budget || seqExceed rest budget

/-- The loop of `pairsExceed`. -/
def pairsExceed : List (Object × Object) → ℕ → Bool
  | [], _ => false
  | (key, value) :: rest, budget =>
    depthExceeds key budget || depthExceeds value budget || pairsExceed rest budget

end

theorem seqExceed_eq_false {items : List Object} {budget : ℕ} :
    seqExceed items budget = false ↔ ∀ c ∈ items, depthExceeds c budget = false := by
  induction items with
  | nil => simp [seqExceed]
  | cons item rest ih => rw [seqExceed, Bool.or_eq_false_iff, ih, List.forall_mem_cons]

theorem pairsExceed_eq_false {pairs : List (Object × Object)} {budget : ℕ} :
    pairsExceed pairs budget = false ↔ ∀ c ∈ pairObjects pairs, depthExceeds c budget = false := by
  induction pairs with
  | nil => simp [pairsExceed, pairObjects]
  | cons pair rest ih =>
    rw [pairsExceed, Bool.or_eq_false_iff, Bool.or_eq_false_iff, ih, forall_pairObjects, and_assoc]

theorem classInstance_of_depthExceeds {pointer : Bool} {info : TypeInfo} {id : GoString}
    {typeAttrs attrs : Option (List (Object × Object))} {budget : ℕ}
    (h : depthExceeds (.classInstance pointer info typeAttrs id attrs) budget = false) :
    ¬ budget < classInstanceTypeCost ∧
      classTypeExceeds typeAttrs (budget - classInstanceTypeCost) = false ∧
      ¬ budget < classInstanceCost ∧
      pairsExceed (attrs.getD []) (budget - classInstanceCost) = false := by
  cases attrs <;> simpa [depthExceeds, pairsExceed, and_assoc] using h

def exceedsMaxDepth (v : Object) : Bool := depthExceeds v maxProtoValueDepth

/-- `None` in that many lists. -/
def nestedLists : ℕ → Object
  | 0 => .none
  | n + 1 => .list [nestedLists n]

end Montygo.Value
