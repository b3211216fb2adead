import Montygo.Wire.Decode

/-!
# Decoding events

The events a worker sends, with the OS calls and the exceptions they carry.
-/

namespace Montygo.Wire

open Go Value WireFormat

variable (P : Protowire)

/-! ## Exceptions -/

structure CodeLoc where
  line : UInt32
  column : UInt32
  deriving DecidableEq

structure Frame where
  filename : GoString := []
  start : CodeLoc := ⟨0, 0⟩
  stop : CodeLoc := ⟨0, 0⟩
  frameName : Option GoString := none
  previewLine : Option GoString := none
  hideCaret : Bool := false
  hideFrameName : Bool := false
  deriving DecidableEq

structure UnicodeErrorData where
  encoding : GoString := []
  objectBytes : Bytes := []
  objectStr : Option GoString := none
  start : UInt64 := 0
  stop : UInt64 := 0
  reason : GoString := []
  deriving DecidableEq

structure JSONErrorData where
  msg : GoString := []
  doc : Option GoString := none
  pos : UInt64 := 0
  lineno : UInt64 := 0
  colno : UInt64 := 0
  deriving DecidableEq

structure ExcData where
  unicode : Option UnicodeErrorData := none
  json : Option JSONErrorData := none
  deriving DecidableEq

/-- `Exception`, with its traceback. -/
structure RaisedException where
  excType : GoString := []
  message : Option GoString := none
  traceback : List Frame := []
  data : Option ExcData := none
  deriving DecidableEq

def codeLocArms : ℕ → Arm CodeLoc
  | 1 => .varint fun v c => pure { c with line := v.toUInt32 }
  | 2 => .varint fun v c => pure { c with column := v.toUInt32 }
  | _ => .skip id

/-- `decodeCodeLoc`: its error becomes the error of the frame's reader, which ends the frame. -/
def decodeCodeLoc (msg : Bytes) : DecodeM CodeLoc := readMessage P codeLocArms msg ⟨0, 0⟩

def frameArms : ℕ → Arm Frame
  | 1 => .bytes fun b f => pure { f with filename := b }
  | 2 => .bytes fun b f => do
    let loc ← decodeCodeLoc P b
    pure { f with start := loc }
  | 3 => .bytes fun b f => do
    let loc ← decodeCodeLoc P b
    pure { f with stop := loc }
  | 4 => .bytes fun b f => pure { f with frameName := some b }
  | 5 => .bytes fun b f => pure { f with previewLine := some b }
  | 6 => .varint fun v f => pure { f with hideCaret := decide (v ≠ 0) }
  | 7 => .varint fun v f => pure { f with hideFrameName := decide (v ≠ 0) }
  | _ => .skip id

def decodeFrame (msg : Bytes) : DecodeM Frame := readMessage P (frameArms P) msg {}

def unicodeArms : ℕ → Arm UnicodeErrorData
  | 1 => .bytes fun b u => pure { u with encoding := b }
  | 2 => .bytes fun b u => pure { u with objectBytes := b }
  | 3 => .bytes fun b u => pure { u with objectStr := some b }
  | 4 => .varint fun v u => pure { u with start := v }
  | 5 => .varint fun v u => pure { u with stop := v }
  | 6 => .bytes fun b u => pure { u with reason := b }
  | _ => .skip id

def jsonArms : ℕ → Arm JSONErrorData
  | 1 => .bytes fun b j => pure { j with msg := b }
  | 2 => .bytes fun b j => pure { j with doc := some b }
  | 3 => .varint fun v j => pure { j with pos := v }
  | 4 => .varint fun v j => pure { j with lineno := v }
  | 5 => .varint fun v j => pure { j with colno := v }
  | _ => .skip id

def excDataArms : ℕ → Arm ExcData
  | 1 => .bytes fun b d => do
    let u ← readMessage P unicodeArms b {}
    pure { d with unicode := some u }
  | 2 => .bytes fun b d => do
    let j ← readMessage P jsonArms b {}
    pure { d with json := some j }
  | _ => .skip id

def decodeExcData (msg : Bytes) : DecodeM ExcData := readMessage P (excDataArms P) msg {}

def exceptionArms : ℕ → Arm RaisedException
  | 1 => .bytes fun b e => pure { e with excType := b }
  | 2 => .bytes fun b e => pure { e with message := some b }
  | 3 => .bytes fun b e => do
    let f ← decodeFrame P b
    pure { e with traceback := e.traceback ++ [f] }
  | 4 => .bytes fun b e => do
    let d ← decodeExcData P b
    pure { e with data := some d }
  | _ => .skip id

def decodeException (msg : Bytes) : DecodeM RaisedException :=
  readMessage P (exceptionArms P) msg {}

/-! ## OS calls -/

/-- `OsOp`: the number of the arm of an OS call, 0 before one is read. -/
abbrev OsOp := ℕ

structure OsCall where
  callID : UInt32 := 0
  op : OsOp := 0
  path : GoString := []
  dst : GoString := []
  text : GoString := []
  data : Bytes := []
  mode : GoString := []
  parents : Bool := false
  existOK : Bool := false
  key : GoString := []
  default : Object := .none
  hasTZ : Bool := false
  tz : TimeZone := ⟨0, none⟩
  payloadErr : Option WireError := none

/-- A write or an append, of text for the first two numbers. -/
def writeArms (num : ℕ) : ℕ → Arm OsCall
  | 1 => .bytes fun b c => pure { c with path := b }
  | 2 => .bytes fun b c => do
    charge b.length
    pure (if num ≤ 15 then { c with text := b } else { c with data := b })
  | _ => .skip id

def openArms : ℕ → Arm OsCall
  | 1 => .bytes fun b c => pure { c with path := b }
  | 2 => .bytes fun b c => pure { c with mode := b }
  | _ => .skip id

def mkdirArms : ℕ → Arm OsCall
  | 1 => .bytes fun b c => pure { c with path := b }
  | 2 => .varint fun v c => pure { c with parents := decide (v ≠ 0) }
  | 3 => .varint fun v c => pure { c with existOK := decide (v ≠ 0) }
  | _ => .skip id

def renameArms : ℕ → Arm OsCall
  | 1 => .bytes fun b c => pure { c with path := b }
  | 2 => .bytes fun b c => pure { c with dst := b }
  | _ => .skip id

def getenvArms : ℕ → Arm OsCall
  | 1 => .bytes fun b c => pure { c with key := b }
  | 2 => .bytes fun b c => do
    let v ← decodeValue P b 1
    pure { c with default := v }
  | _ => .skip id

def dateTimeNowArms : ℕ → Arm OsCall
  | 1 => .bytes fun b c => do
    let tz ← decodeTimeZone P b
    pure { c with tz := tz, hasTZ := true }
  | _ => .skip id

def osCallArms (num : ℕ) : Arm OsCall :=
  if num = 1 then .varint fun v c => pure { c with callID := v.toUInt32 }
  else if 2 ≤ num ∧ num ≤ 13 then .bytes fun b c => pure { c with op := num, path := b }
  else if 14 ≤ num ∧ num ≤ 17 then
    .bytes fun b c => readMessage P (writeArms num) b { c with op := num }
  else if num = 18 then
    .bytes fun b c => do
      let c ← readMessage P openArms b { c with op := num }
      pure (if validHandleMode c.mode then c else { c with payloadErr := some (.openMode c.mode) })
  else if num = 19 then .bytes fun b c => readMessage P mkdirArms b { c with op := num }
  else if num = 20 then .bytes fun b c => readMessage P renameArms b { c with op := num }
  else if num = 21 then .bytes fun b c => readMessage P (getenvArms P) b { c with op := num }
  else if num = 22 ∨ num = 23 then .bytes fun _ c => pure { c with op := num }
  else if num = 24 then .bytes fun b c => readMessage P (dateTimeNowArms P) b { c with op := num }
  else .skip id

def decodeOsCall (msg : Bytes) : DecodeM OsCall := readMessage P (osCallArms P) msg {}

/-! ## Events -/

inductive EventKind where
  | none
  | print
  | functionCall
  | osCall
  | nameLookup
  | resolveFutures
  | complete
  | error
  | typingError
  | dumpResult
  | ok
  | fatalError
  | shutdown
  deriving DecidableEq

structure PrintSegment where
  stream : UInt8 := 1
  text : GoString := []
  deriving DecidableEq

structure FunctionCall where
  functionName : GoString := []
  args : List Object := []
  kwargs : List (Object × Object) := []
  callID : UInt32 := 0
  objectID : GoString := []
  allowEagerAwait : Bool := false

structure NameLookup where
  name : GoString := []
  objectID : GoString := []
  deriving DecidableEq

structure Event where
  kind : EventKind := .none
  print : List PrintSegment := []
  functionCall : Option FunctionCall := .none
  osCall : Option OsCall := .none
  nameLookup : Option NameLookup := .none
  pendingCallIDs : List UInt32 := []
  value : Object := .none
  hasValue : Bool := false
  exception : Option RaisedException := .none
  diagnostics : GoString := []
  /-- `none` for a nil slice. -/
  state : Option Bytes := .none
  fatalMessage : GoString := []
  shutdownDump : Bytes := []
  hasShutdownDump : Bool := false
  totalExecutionMicros : UInt64 := 0
  maxDurationMicros : Option UInt64 := .none
  restoredScriptName : Option GoString := .none
  maxSuspensions : Option UInt64 := .none

def singleStringArms : ℕ → Arm GoString
  | 1 => .bytes fun b _ => pure b
  | _ => .skip id

def decodeSingleString (msg : Bytes) : DecodeM GoString := readMessage P singleStringArms msg []

def segmentArms : ℕ → Arm PrintSegment
  | 1 => .varint fun v seg => pure (if v = 2 then { seg with stream := 2 } else seg)
  | 2 => .bytes fun b seg => pure { seg with text := b }
  | _ => .skip id

def printArms : ℕ → Arm (List PrintSegment)
  | 3 => .bytes fun b segs => do
    let seg ← readMessage P segmentArms b {}
    pure (segs ++ [seg])
  | _ => .skip id

def decodePrint (msg : Bytes) : DecodeM (List PrintSegment) := readMessage P (printArms P) msg []

def functionCallArms : ℕ → Arm FunctionCall
  | 1 => .bytes fun b fc => pure { fc with functionName := b }
  | 2 => .bytes fun b fc => do
    let v ← decodeValue P b 0
    pure { fc with args := fc.args ++ [v] }
  | 3 => .bytes fun b fc => do
    let pair ← decodePair P (decodeValue P · 1) b
    pure { fc with kwargs := fc.kwargs ++ [pair] }
  | 4 => .varint fun v fc => pure { fc with callID := v.toUInt32 }
  | 5 => .bytes fun b fc => do
    let id ← decodeUUIDMessage P b
    pure { fc with objectID := id }
  | 6 => .varint fun v fc => pure { fc with allowEagerAwait := decide (v ≠ 0) }
  | _ => .skip id

def decodeFunctionCall (msg : Bytes) : DecodeM FunctionCall :=
  readMessage P (functionCallArms P) msg {}

/-- Another error in the place of the one a decoder ends in. -/
def replaceError {α : Type} (e : WireError) (x : DecodeM α) : DecodeM α := fun budget =>
  match x budget with
  | .ok a budget' => .ok a budget'
  | .error _ budget' => .error e budget'

def nameLookupArms : ℕ → Arm NameLookup
  | 1 => .bytes fun b nl => pure { nl with name := b }
  | 2 => .bytes fun b nl => do
    let id ← replaceError (.text "NameLookup.object_id is not a 16-byte uuid")
      (decodeUUIDMessage P b)
    pure { nl with objectID := id }
  | _ => .skip id

def decodeNameLookup (msg : Bytes) : DecodeM NameLookup := readMessage P (nameLookupArms P) msg {}

def resolveFuturesArms : ℕ → Arm (List UInt32)
  | 1 => .uint32s fun numbers ids => pure (ids ++ numbers)
  | _ => .skip id

def completeArms : ℕ → Arm Event
  | 1 => .bytes fun b ev => do
    let v ← decodeValue P b 0
    pure { ev with value := v, hasValue := true }
  | _ => .skip id

def errorArms : ℕ → Arm Event
  | 1 => .bytes fun b ev => do
    let e ← decodeException P b
    pure { ev with exception := some e }
  | _ => .skip id

def dumpResultArms : ℕ → Arm Event
  | 1 => .bytes fun b ev => pure { ev with state := some b }
  | _ => .skip id

def shutdownArms : ℕ → Arm Event
  | 1 => .bytes fun b ev => pure { ev with shutdownDump := b, hasShutdownDump := true }
  | _ => .skip id

def eventArms : ℕ → Arm Event
  | 1 => .bytes fun b ev => do
    let segs ← decodePrint P b
    pure { ev with kind := .print, print := segs }
  | 2 => .bytes fun b ev => do
    let fc ← decodeFunctionCall P b
    pure { ev with kind := .functionCall, functionCall := some fc }
  | 3 => .bytes fun b ev => do
    let c ← decodeOsCall P b
    pure { ev with kind := .osCall, osCall := some c }
  | 4 => .bytes fun b ev => do
    let nl ← decodeNameLookup P b
    pure { ev with kind := .nameLookup, nameLookup := some nl }
  | 5 => .bytes fun b ev => do
    let ids ← readMessage P resolveFuturesArms b []
    pure { ev with kind := .resolveFutures, pendingCallIDs := ids }
  | 6 => .bytes fun b ev => readMessage P (completeArms P) b { ev with kind := .complete }
  | 7 => .bytes fun b ev => readMessage P (errorArms P) b { ev with kind := .error }
  | 8 => .bytes fun b ev => do
    let s ← decodeSingleString P b
    pure { ev with kind := .typingError, diagnostics := s }
  | 9 => .bytes fun b ev => readMessage P dumpResultArms b { ev with kind := .dumpResult }
  | 10 => .bytes fun _ ev => pure { ev with kind := .ok }
  | 11 => .bytes fun b ev => do
    let s ← decodeSingleString P b
    pure { ev with kind := .fatalError, fatalMessage := s }
  | 12 => .bytes fun b ev => readMessage P shutdownArms b { ev with kind := .shutdown }
  | 20 => .varint fun v ev => pure { ev with totalExecutionMicros := v }
  | 21 => .varint fun v ev => pure { ev with maxDurationMicros := some v }
  | 22 => .bytes fun b ev => pure { ev with restoredScriptName := some b }
  | 23 => .varint fun v ev => pure { ev with maxSuspensions := some v }
  | _ => .skip id

/-- The decoder of `DecodeEventWithBudget`, which runs it with a budget. -/
def decodeEventWithBudget (payload : Bytes) : DecodeM Event :=
  readMessage P (eventArms P) payload {}

def maxFrameLen : ℕ := 256 * 2 ^ 20
def defaultMaxDecodeBytes : ℕ := 4 * maxFrameLen

def decodeEvent (payload : Bytes) : Except WireError Event :=
  match decodeEventWithBudget P payload (some defaultMaxDecodeBytes) with
  | .ok ev _ => .ok ev
  | .error e _ => .error e

end Montygo.Wire
