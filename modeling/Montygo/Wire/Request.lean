import Montygo.Wire.Event

/-!
# Encoding requests

The eleven requests of the host, and the exceptions they carry.  A request that carries an
exception holds a pointer to it; the encoder does not look whether it is nil.
-/

namespace Montygo.Wire

open Go Value WireFormat

/-- Why a request is not encoded: a value has no form on the wire, or a nil exception. -/
inductive RequestError where
  | conversion (e : ConversionError)
  | nilPointer
  deriving DecidableEq

/-! ## Requests -/

structure Limits where
  maxDurationMicros : Option UInt64 := none
  maxMemoryBytes : Option UInt64 := none
  gcInterval : Option UInt64 := none
  maxRecursionDepth : Option UInt64 := none
  maxSuspensions : Option UInt64 := none
  deriving DecidableEq

structure Configure where
  scriptName : GoString := []
  limits : Option Limits := none
  typeCheck : Bool := false
  typeCheckStubs : Option GoString := none
  montyVersion : GoString := []
  assertMessageAnnotations : Option UInt32 := none
  typeCheckFormat : Int32 := 0
  typeCheckColor : Bool := false
  protocolVersion : UInt32 := 0
  printFlushIntervalMs : Option UInt32 := none
  deriving DecidableEq

structure NamedValue where
  name : GoString
  value : Object

structure Feed where
  code : GoString := []
  inputs : List NamedValue := []
  skipTypeCheck : Bool := false
  cwd : GoString := []

/-- `ExtKind`: a `uint8`, of which the code names five values. -/
abbrev ExtKind := UInt8

def extReturn : ExtKind := 1
def extError : ExtKind := 2
def extFuture : ExtKind := 3
def extNotFound : ExtKind := 4
def extNotHandled : ExtKind := 5

structure ExtResult where
  kind : ExtKind
  value : Object := .none
  error : Option RaisedException := none
  futureCallID : UInt32 := 0
  notFoundName : GoString := []

/-- `LookupKind`: a `uint8`, of which the code names three values. -/
abbrev LookupKind := UInt8

def lookupValue : LookupKind := 1
def lookupUndefined : LookupKind := 2
def lookupError : LookupKind := 3

structure FutureResult where
  callID : UInt32
  result : ExtResult

inductive Request where
  | configure (c : Configure)
  | installDependencies (requirements : List GoString)
  | feed (f : Feed)
  | resumeCall (callID : UInt32) (result : ExtResult)
  | resumeNameLookup (kind : LookupKind) (value : Object) (error : Option RaisedException)
  | resumeFutures (results : List FutureResult)
  | dump
  | load (state : Bytes)
  | reset
  | shutdown
  | abortFeed (exception : Option RaisedException)

def requestField : Request → ℕ
  | .configure _ => 1
  | .installDependencies _ => 2
  | .feed _ => 3
  | .resumeCall _ _ => 4
  | .resumeNameLookup _ _ _ => 5
  | .resumeFutures _ => 6
  | .dump => 7
  | .load _ => 8
  | .reset => 9
  | .shutdown => 10
  | .abortFeed _ => 11

def requestValues : Request → List Object
  | .feed f => f.inputs.map NamedValue.value
  | .resumeCall _ result => if result.kind = extReturn then [result.value] else []
  | .resumeNameLookup kind value _ => if kind = lookupValue then [value] else []
  | .resumeFutures results =>
    (results.filter fun fr => fr.result.kind = extReturn).map fun fr => fr.result.value
  | .configure _ | .installDependencies _ | .dump | .load _ | .reset | .shutdown
  | .abortFeed _ => []

/-! ## Exceptions -/

section Exceptions

variable (P : Protowire) (b : Bytes)

def appendCodeLoc (c : CodeLoc) : Bytes :=
  let b := appendUintField P b 1 c.line.toUInt64
  appendUintField P b 2 c.column.toUInt64

def appendFrameBody (f : Frame) : Bytes :=
  let b := appendStringField P b 1 f.filename
  let b := appendMessage P b 2 (appendCodeLoc P [] f.start)
  let b := appendMessage P b 3 (appendCodeLoc P [] f.stop)
  let b := appendOptionalString P b 4 f.frameName
  let b := appendOptionalString P b 5 f.previewLine
  let b := appendBoolField P b 6 f.hideCaret
  appendBoolField P b 7 f.hideFrameName

/-- The body of the data of a unicode error: the text, or else the bytes. -/
def appendUnicodeBody (u : UnicodeErrorData) : Bytes :=
  let body := appendStringField P b 1 u.encoding
  let body :=
    match u.objectStr with
    | some s => appendStringAlways P body 3 s
    | none => appendBytesAlways P body 2 u.objectBytes
  let body := appendUintField P body 4 u.start
  let body := appendUintField P body 5 u.stop
  appendStringField P body 6 u.reason

/-- The body of the data of a JSON error. -/
def appendJSONBody (j : JSONErrorData) : Bytes :=
  let body := appendStringField P b 1 j.msg
  let body := appendOptionalString P body 2 j.doc
  let body := appendUintField P body 3 j.pos
  let body := appendUintField P body 4 j.lineno
  appendUintField P body 5 j.colno

/-- The data of an exception: of a unicode error, or else of a JSON error. -/
def appendExcData (d : ExcData) : Bytes :=
  match d.unicode, d.json with
  | some u, _ => appendMessage P b 1 (appendUnicodeBody P [] u)
  | none, some j => appendMessage P b 2 (appendJSONBody P [] j)
  | none, none => b

def appendExceptionBody (e : RaisedException) : Bytes :=
  let b := appendStringField P b 1 e.excType
  let b := appendOptionalString P b 2 e.message
  let b := e.traceback.foldl (fun b f => appendMessage P b 3 (appendFrameBody P [] f)) b
  match e.data with
  | some d => appendMessage P b 4 (appendExcData P [] d)
  | none => b

/-- `appendMessage` of an exception, behind its pointer. -/
def appendException (num : ℕ) : Option RaisedException → Except RequestError Bytes
  | some e => .ok (appendMessage P b num (appendExceptionBody P [] e))
  | none => .error .nilPointer

end Exceptions

/-! ## Bodies -/

section Bodies

variable (P : Protowire) (b : Bytes)

/-- `appendOptionalU64`, and the optional `uint32` fields. -/
def appendOptionalUint (num : ℕ) (v : Option UInt64) : Bytes :=
  match v with
  | some v => appendVarintField P b num v
  | none => b

/-- The body of `Limits`. -/
def appendLimits (l : Limits) : Bytes :=
  let b := appendOptionalUint P b 1 l.maxDurationMicros
  let b := appendOptionalUint P b 2 l.maxMemoryBytes
  let b := appendOptionalUint P b 3 l.gcInterval
  let b := appendOptionalUint P b 4 l.maxRecursionDepth
  appendOptionalUint P b 5 l.maxSuspensions

/-- `appendBody` of `Configure`. -/
def appendConfigure (c : Configure) : Bytes :=
  let b := appendStringField P b 1 c.scriptName
  let b :=
    match c.limits with
    | some l => appendMessage P b 2 (appendLimits P [] l)
    | none => b
  let b := appendBoolField P b 3 c.typeCheck
  let b := appendOptionalString P b 4 c.typeCheckStubs
  let b := appendStringField P b 5 c.montyVersion
  let b := appendOptionalUint P b 6 (c.assertMessageAnnotations.map UInt32.toUInt64)
  let b := appendUintField P b 7 c.typeCheckFormat.toInt64.toUInt64
  let b := appendBoolField P b 8 c.typeCheckColor
  let b := appendUintField P b 9 c.protocolVersion.toUInt64
  appendOptionalUint P b 10 (c.printFlushIntervalMs.map UInt32.toUInt64)

/-- `appendBody` of `InstallDependencies`. -/
def appendRequirements (requirements : List GoString) : Bytes :=
  requirements.foldl (fun b r => appendStringAlways P b 1 r) b

/-- `appendValueField` with the errors of a request. -/
def appendObject (num : ℕ) (v : Object) : Except RequestError Bytes :=
  (appendValueField P b num v).mapError .conversion

/-- The loop over the inputs of a feed. -/
def appendInputs (b : Bytes) : List NamedValue → Except RequestError Bytes
  | [] => pure b
  | input :: rest => do
    let nv ← appendObject P (appendStringField P [] 1 input.name) 2 input.value
    appendInputs (appendMessage P b 2 nv) rest

/-- `appendBody` of `Feed`. -/
def appendFeed (f : Feed) : Except RequestError Bytes := do
  let b := appendStringField P b 1 f.code
  let b ← appendInputs P b f.inputs
  let b := appendBoolField P b 3 f.skipTypeCheck
  pure (appendStringField P b 4 f.cwd)

def appendExtResult (r : ExtResult) : Except RequestError Bytes :=
  if r.kind = extReturn then appendObject P b 1 r.value
  else if r.kind = extError then appendException P b 2 r.error
  else if r.kind = extFuture then pure (appendVarintField P b 3 r.futureCallID.toUInt64)
  else if r.kind = extNotFound then pure (appendStringAlways P b 4 r.notFoundName)
  else if r.kind = extNotHandled then pure (appendMessage P b 5 [])
  else .error (.conversion .extResult)

/-- `appendBody` of `ResumeCall`, and of each result of `ResumeFutures`. -/
def appendCallResult (callID : UInt32) (r : ExtResult) : Except RequestError Bytes := do
  let b := appendUintField P b 1 callID.toUInt64
  let res ← appendExtResult P [] r
  pure (appendMessage P b 2 res)

/-- `appendBody` of `ResumeNameLookup`. -/
def appendNameLookup (kind : LookupKind) (value : Object) (error : Option RaisedException) :
    Except RequestError Bytes :=
  if kind = lookupValue then appendObject P b 1 value
  else if kind = lookupUndefined then pure (appendMessage P b 2 [])
  else if kind = lookupError then appendException P b 3 error
  else .error (.conversion .nameLookup)

/-- `appendBody` of `ResumeFutures`. -/
def appendFutures (b : Bytes) : List FutureResult → Except RequestError Bytes
  | [] => pure b
  | fr :: rest => do
    let body ← appendCallResult P [] fr.callID fr.result
    appendFutures (appendMessage P b 1 body) rest

/-- `appendBody` of `Load`. -/
def appendLoad (state : Bytes) : Bytes := if state.length = 0 then b else appendBytesAlways P b 1 state

end Bodies

def appendBody (P : Protowire) (b : Bytes) : Request → Except RequestError Bytes
  | .configure c => pure (appendConfigure P b c)
  | .installDependencies requirements => pure (appendRequirements P b requirements)
  | .feed f => appendFeed P b f
  | .resumeCall callID result => appendCallResult P b callID result
  | .resumeNameLookup kind value error => appendNameLookup P b kind value error
  | .resumeFutures results => appendFutures P b results
  | .dump => pure b
  | .load state => pure (appendLoad P b state)
  | .reset => pure b
  | .shutdown => pure b
  | .abortFeed exception => appendException P b 1 exception

def encodeRequest (P : Protowire) (req : Request) (traceParent : GoString) :
    Except RequestError Bytes := do
  let body ← appendBody P [] req
  let out := appendMessage P [] (requestField req) body
  pure (appendStringField P out 20 traceParent)

end Montygo.Wire
