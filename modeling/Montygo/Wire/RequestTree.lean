import Montygo.Wire.Request
import Montygo.Wire.Tree

/-!
# The trees of requests

What `EncodeRequest` writes reads as `requestNodes`: one arm, that of the request, with the
trees of the values and exceptions it carries, and the trace parent behind it.
-/

namespace Montygo.Wire

open Go Value WireFormat Protowire

variable {P : Protowire} {E : Type} {t t' : MessageType} {num : ℕ}

/-! ## Exceptions -/

/-- The fields of a place in the code. -/
def codeLocFields (c : CodeLoc) : List Field :=
  uintFields 1 c.line.toUInt64 ++ uintFields 2 c.column.toUInt64

theorem appends_codeLoc (c : CodeLoc) : Appends P (appendCodeLoc P · c) (codeLocFields c) :=
  (appends_uintField (by decide) _).comp (appends_uintField (by decide) _)

/-- A frame of a traceback. -/
def frameNodes (f : Frame) : List Node :=
  leaves (stringFields 1 f.filename) ++ [.message 2 (leaves (codeLocFields f.start))] ++
    [.message 3 (leaves (codeLocFields f.stop))] ++
    leaves (optionalFields 4 .bytes f.frameName) ++
    leaves (optionalFields 5 .bytes f.previewLine) ++ leaves (boolFields 6 f.hideCaret) ++
    leaves (boolFields 7 f.hideFrameName)

theorem encodes_frame (f : Frame) :
    Encodes P .stackFrame (fun b => (pure (appendFrameBody P b f) : Except E Bytes))
      (frameNodes f) := by
  have hfilename : Encodes (E := E) P .stackFrame _ (leaves (stringFields 1 f.filename)) :=
    encodes_stringField (by decide) rfl _
  have hstart : Encodes (E := E) P .stackFrame _ [.message 2 (leaves (codeLocFields f.start))] :=
    (appends_codeLoc f.start).encodes_plain rfl (by decide) rfl
  have hstop : Encodes (E := E) P .stackFrame _ [.message 3 (leaves (codeLocFields f.stop))] :=
    (appends_codeLoc f.stop).encodes_plain rfl (by decide) rfl
  have hname : Encodes (E := E) P .stackFrame _ (leaves (optionalFields 4 .bytes f.frameName)) :=
    encodes_optionalString (by decide) rfl _
  have hline : Encodes (E := E) P .stackFrame _ (leaves (optionalFields 5 .bytes f.previewLine)) :=
    encodes_optionalString (by decide) rfl _
  have hcaret : Encodes (E := E) P .stackFrame _ (leaves (boolFields 6 f.hideCaret)) :=
    encodes_boolField (by decide) rfl _
  have hhide : Encodes (E := E) P .stackFrame _ (leaves (boolFields 7 f.hideFrameName)) :=
    encodes_boolField (by decide) rfl _
  exact (((((hfilename.bind hstart).bind hstop).bind hname).bind hline).bind hcaret).bind hhide

/-- The fields of the data of a unicode error. -/
def unicodeFields (u : UnicodeErrorData) : List Field :=
  stringFields 1 u.encoding ++ (match u.objectStr with
      | some s => [⟨3, .bytes s⟩]
      | none => [⟨2, .bytes u.objectBytes⟩]) ++
    uintFields 4 u.start ++ uintFields 5 u.stop ++ stringFields 6 u.reason

theorem appends_unicodeBody (u : UnicodeErrorData) :
    Appends P (appendUnicodeBody P · u) (unicodeFields u) := by
  have hobject : Appends P (fun b => match u.objectStr with
        | some s => appendStringAlways P b 3 s
        | none => appendBytesAlways P b 2 u.objectBytes)
      (match u.objectStr with
        | some s => [⟨3, .bytes s⟩]
        | none => [⟨2, .bytes u.objectBytes⟩]) := by
    cases u.objectStr with
    | some s => exact appends_bytesAlways (by decide) s
    | none => exact appends_bytesAlways (by decide) _
  exact ((((appends_stringField (by decide) _).comp hobject).comp
    (appends_uintField (by decide) _)).comp (appends_uintField (by decide) _)).comp
    (appends_stringField (by decide) _)

/-- The fields of the data of a JSON error. -/
def jsonFields (j : JSONErrorData) : List Field :=
  stringFields 1 j.msg ++ optionalFields 2 .bytes j.doc ++ uintFields 3 j.pos ++
    uintFields 4 j.lineno ++ uintFields 5 j.colno

theorem appends_jsonBody (j : JSONErrorData) : Appends P (appendJSONBody P · j) (jsonFields j) :=
  ((((appends_stringField (by decide) _).comp (appends_optionalString (by decide) _)).comp
    (appends_uintField (by decide) _)).comp (appends_uintField (by decide) _)).comp
    (appends_uintField (by decide) _)

/-- The data of an exception. -/
def excDataNodes (d : ExcData) : List Node :=
  match d.unicode, d.json with
  | some u, _ => [.message 1 (leaves (unicodeFields u))]
  | none, some j => [.message 2 (leaves (jsonFields j))]
  | none, none => []

theorem encodes_excData (d : ExcData) :
    Encodes P .excData (fun b => (pure (appendExcData P b d) : Except E Bytes))
      (excDataNodes d) := by
  unfold appendExcData excDataNodes
  cases d.unicode with
  | some u => exact (appends_unicodeBody u).encodes_plain rfl (by decide) rfl
  | none =>
    cases d.json with
    | some j => exact (appends_jsonBody j).encodes_plain rfl (by decide) rfl
    | none => exact encodes_pure

/-- An exception. -/
def exceptionNodes (e : RaisedException) : List Node :=
  leaves (stringFields 1 e.excType) ++ leaves (optionalFields 2 .bytes e.message) ++
    (e.traceback.map fun f => .message 3 (frameNodes f)) ++
    (match e.data with
      | some d => [.message 4 (excDataNodes d)]
      | none => [])

theorem encodes_traceback (frames : List Frame) : Encodes P .raisedException
      (fun b => (pure (frames.foldl (fun b f => appendMessage P b 3 (appendFrameBody P [] f)) b) :
        Except E Bytes))
      (frames.map fun f => .message 3 (frameNodes f)) := by
  induction frames with
  | nil => exact encodes_pure
  | cons f rest ih =>
    have hframe : Encodes (E := E) P .raisedException _ [.message 3 (frameNodes f)] :=
      (encodes_frame f).message (by decide) rfl
    exact hframe.bind ih

theorem encodes_exception (e : RaisedException) :
    Encodes P .raisedException (fun b => (pure (appendExceptionBody P b e) : Except E Bytes))
      (exceptionNodes e) := by
  have htype : Encodes (E := E) P .raisedException _ (leaves (stringFields 1 e.excType)) :=
    encodes_stringField (by decide) rfl _
  have hmessage : Encodes (E := E) P .raisedException _
      (leaves (optionalFields 2 .bytes e.message)) := encodes_optionalString (by decide) rfl _
  have hdata : Encodes (E := E) P .raisedException (fun b => match e.data with
        | some d => pure (appendMessage P b 4 (appendExcData P [] d))
        | none => pure b)
      (match e.data with
        | some d => [.message 4 (excDataNodes d)]
        | none => []) := by
    cases e.data with
    | some d => exact (encodes_excData d).message (by decide) rfl
    | none => exact encodes_pure
  have hall := ((htype.bind hmessage).bind (encodes_traceback e.traceback)).bind hdata
  unfold exceptionNodes appendExceptionBody
  cases hd : e.data <;> simp only [hd] at hall <;> exact hall

/-- An exception in a field; a nil one is not encoded. -/
def exceptionField (num : ℕ) : Option RaisedException → List Node
  | some e => [.message num (exceptionNodes e)]
  | none => []

theorem encodes_exceptionField (hnum : ValidNumber num)
    (hmessage : subMessage t num = some .raisedException) (e : Option RaisedException) :
    Encodes P t (fun b => appendException P b num e) (exceptionField num e) := by
  cases e with
  | none => exact encodes_error fun b => rfl
  | some e => exact (encodes_exception e).message hnum hmessage

/-! ## Configuration -/

theorem appends_optionalUint (hnum : ValidNumber num) (v : Option UInt64) :
    Appends P (appendOptionalUint P · num v) (optionalFields num .varint v) := by
  cases v with
  | none => exact appends_id
  | some v => exact appends_varintField hnum v

theorem encodes_optionalUint (hnum : ValidNumber num) (hleaf : subMessage t num = none)
    (v : Option UInt64) :
    Encodes P t (fun b => (pure (appendOptionalUint P b num v) : Except E Bytes))
      (leaves (optionalFields num .varint v)) := by
  refine (appends_optionalUint hnum v).encodes fun x hx => ?_
  cases v <;> simp_all [optionalFields]

/-- The fields of the limits. -/
def limitFields (l : Limits) : List Field :=
  optionalFields 1 .varint l.maxDurationMicros ++ optionalFields 2 .varint l.maxMemoryBytes ++
    optionalFields 3 .varint l.gcInterval ++ optionalFields 4 .varint l.maxRecursionDepth ++
    optionalFields 5 .varint l.maxSuspensions

theorem appends_limits (l : Limits) : Appends P (appendLimits P · l) (limitFields l) :=
  ((((appends_optionalUint (by decide) _).comp (appends_optionalUint (by decide) _)).comp
    (appends_optionalUint (by decide) _)).comp (appends_optionalUint (by decide) _)).comp
    (appends_optionalUint (by decide) _)

/-- The limits in their field. -/
def limitsField : Option Limits → List Node
  | some l => [.message 2 (leaves (limitFields l))]
  | none => []

/-- A `Configure`. -/
def configureNodes (c : Configure) : List Node :=
  leaves (stringFields 1 c.scriptName) ++ limitsField c.limits ++
    leaves (boolFields 3 c.typeCheck) ++ leaves (optionalFields 4 .bytes c.typeCheckStubs) ++
    leaves (stringFields 5 c.montyVersion) ++
    leaves (optionalFields 6 .varint (c.assertMessageAnnotations.map UInt32.toUInt64)) ++
    leaves (uintFields 7 c.typeCheckFormat.toInt64.toUInt64) ++
    leaves (boolFields 8 c.typeCheckColor) ++ leaves (uintFields 9 c.protocolVersion.toUInt64) ++
    leaves (optionalFields 10 .varint (c.printFlushIntervalMs.map UInt32.toUInt64))

theorem encodes_configure (c : Configure) :
    Encodes P .configure (fun b => (pure (appendConfigure P b c) : Except E Bytes))
      (configureNodes c) := by
  have hscript : Encodes (E := E) P .configure _ (leaves (stringFields 1 c.scriptName)) :=
    encodes_stringField (by decide) rfl _
  have hlimits : Encodes (E := E) P .configure (fun b => pure (match c.limits with
        | some l => appendMessage P b 2 (appendLimits P [] l)
        | none => b))
      (limitsField c.limits) := by
    cases c.limits with
    | some l => exact (appends_limits l).encodes_plain rfl (by decide) rfl
    | none => exact encodes_pure
  have hcheck : Encodes (E := E) P .configure _ (leaves (boolFields 3 c.typeCheck)) :=
    encodes_boolField (by decide) rfl _
  have hstubs : Encodes (E := E) P .configure _
      (leaves (optionalFields 4 .bytes c.typeCheckStubs)) :=
    encodes_optionalString (by decide) rfl _
  have hversion : Encodes (E := E) P .configure _ (leaves (stringFields 5 c.montyVersion)) :=
    encodes_stringField (by decide) rfl _
  have hassert : Encodes (E := E) P .configure _ (leaves (optionalFields 6 .varint
      (c.assertMessageAnnotations.map UInt32.toUInt64))) :=
    encodes_optionalUint (by decide) rfl _
  have hformat : Encodes (E := E) P .configure _
      (leaves (uintFields 7 c.typeCheckFormat.toInt64.toUInt64)) :=
    encodes_uintField (by decide) rfl _
  have hcolor : Encodes (E := E) P .configure _ (leaves (boolFields 8 c.typeCheckColor)) :=
    encodes_boolField (by decide) rfl _
  have hprotocol : Encodes (E := E) P .configure _
      (leaves (uintFields 9 c.protocolVersion.toUInt64)) := encodes_uintField (by decide) rfl _
  have hflush : Encodes (E := E) P .configure _ (leaves (optionalFields 10 .varint
      (c.printFlushIntervalMs.map UInt32.toUInt64))) := encodes_optionalUint (by decide) rfl _
  exact ((((((((hscript.bind hlimits).bind hcheck).bind hstubs).bind hversion).bind hassert).bind
    hformat).bind hcolor).bind hprotocol).bind hflush

/-! ## Values and results -/

theorem encodes_object (hnum : ValidNumber num) (hmessage : subMessage t num = some .montyObject)
    (v : Object) :
    Encodes P t (fun b => appendObject P b num v) [.message num [valueNode P v]] :=
  ((encodes_value v).message hnum hmessage).mapError

/-- The inputs of a feed. -/
def inputNodes (P : Protowire) (inputs : List NamedValue) : List Node :=
  inputs.map fun input =>
    .message 2 (leaves (stringFields 1 input.name) ++ [.message 2 [valueNode P input.value]])

theorem encodes_inputs (inputs : List NamedValue) :
    Encodes P .feed (fun b => appendInputs P b inputs) (inputNodes P inputs) := by
  induction inputs with
  | nil => exact encodes_pure
  | cons input rest ih =>
    have hname : Encodes (E := RequestError) P .namedValue _
        (leaves (stringFields 1 input.name)) := encodes_stringField (by decide) rfl _
    have hvalue : Encodes P .namedValue _ [.message 2 [valueNode P input.value]] :=
      encodes_object (by decide) rfl _
    have hinput : Encodes P .feed _ [.message 2 _] := (hname.bind hvalue).message (by decide) rfl
    have hall := hinput.bind ih
    simp only [bind_assoc, pure_bind] at hall
    exact hall

/-- A `Feed`. -/
def feedNodes (P : Protowire) (f : Feed) : List Node :=
  leaves (stringFields 1 f.code) ++ inputNodes P f.inputs ++ leaves (boolFields 3 f.skipTypeCheck) ++
    leaves (stringFields 4 f.cwd)

theorem encodes_feed (f : Feed) : Encodes P .feed (fun b => appendFeed P b f) (feedNodes P f) := by
  have hcode : Encodes (E := RequestError) P .feed _ (leaves (stringFields 1 f.code)) :=
    encodes_stringField (by decide) rfl _
  have hskip : Encodes (E := RequestError) P .feed _ (leaves (boolFields 3 f.skipTypeCheck)) :=
    encodes_boolField (by decide) rfl _
  have hcwd : Encodes (E := RequestError) P .feed _ (leaves (stringFields 4 f.cwd)) :=
    encodes_stringField (by decide) rfl _
  have hall := ((hcode.bind (encodes_inputs f.inputs)).bind hskip).bind hcwd
  simpa only [appendFeed, feedNodes, bind_assoc, pure_bind] using hall

/-- The result of a call. -/
def extResultNodes (P : Protowire) (r : ExtResult) : List Node :=
  if r.kind = extReturn then [.message 1 [valueNode P r.value]]
  else if r.kind = extError then exceptionField 2 r.error
  else if r.kind = extFuture then [.leaf ⟨3, .varint r.futureCallID.toUInt64⟩]
  else if r.kind = extNotFound then [.leaf ⟨4, .bytes r.notFoundName⟩]
  else if r.kind = extNotHandled then [.message 5 []]
  else []

theorem encodes_extResult (r : ExtResult) :
    Encodes P .extFunctionResult (fun b => appendExtResult P b r) (extResultNodes P r) := by
  unfold appendExtResult extResultNodes
  split_ifs
  · exact encodes_object (by decide) rfl _
  · exact encodes_exceptionField (by decide) rfl _
  · exact encodes_varintField (by decide) rfl _
  · exact encodes_bytesAlways (by decide) rfl _
  · exact encodes_unit (by decide) rfl
  · exact encodes_error fun _ => rfl

/-- The result of a call behind its id. -/
def callResultNodes (P : Protowire) (callID : UInt32) (r : ExtResult) : List Node :=
  leaves (uintFields 1 callID.toUInt64) ++ [.message 2 (extResultNodes P r)]

theorem encodes_callResult (hid : subMessage t 1 = none)
    (hresult : subMessage t 2 = some .extFunctionResult) (callID : UInt32) (r : ExtResult) :
    Encodes P t (fun b => appendCallResult P b callID r) (callResultNodes P callID r) := by
  have hcall : Encodes (E := RequestError) P t _ (leaves (uintFields 1 callID.toUInt64)) :=
    encodes_uintField (by decide) hid _
  exact hcall.bind ((encodes_extResult r).message (by decide) hresult)

/-- The answer to a name lookup. -/
def nameLookupNodes (P : Protowire) (kind : LookupKind) (value : Object)
    (error : Option RaisedException) : List Node :=
  if kind = lookupValue then [.message 1 [valueNode P value]]
  else if kind = lookupUndefined then [.message 2 []]
  else if kind = lookupError then exceptionField 3 error
  else []

theorem encodes_nameLookup (kind : LookupKind) (value : Object) (error : Option RaisedException) :
    Encodes P .resumeNameLookup (fun b => appendNameLookup P b kind value error)
      (nameLookupNodes P kind value error) := by
  unfold appendNameLookup nameLookupNodes
  split_ifs
  · exact encodes_object (by decide) rfl _
  · exact encodes_unit (by decide) rfl
  · exact encodes_exceptionField (by decide) rfl _
  · exact encodes_error fun _ => rfl

/-- The results of futures. -/
def futureNodes (P : Protowire) (results : List FutureResult) : List Node :=
  results.map fun fr => .message 1 (callResultNodes P fr.callID fr.result)

theorem encodes_futures (results : List FutureResult) :
    Encodes P .resumeFutures (fun b => appendFutures P b results) (futureNodes P results) := by
  induction results with
  | nil => exact encodes_pure
  | cons fr rest ih =>
    have hresult : Encodes P .resumeFutures _ [.message 1 (callResultNodes P fr.callID fr.result)] :=
      (encodes_callResult (t := .futureResult) rfl rfl fr.callID fr.result).message (by decide) rfl
    have hall := hresult.bind ih
    simp only [bind_assoc, pure_bind] at hall
    exact hall

/-! ## Requests -/

/-- The message of a request. -/
def requestType : Request → MessageType
  | .configure _ => .configure
  | .installDependencies _ => .installDependencies
  | .feed _ => .feed
  | .resumeCall _ _ => .resumeCall
  | .resumeNameLookup _ _ _ => .resumeNameLookup
  | .resumeFutures _ => .resumeFutures
  | .dump => .dump
  | .load _ => .load
  | .reset => .reset
  | .shutdown => .shutdown
  | .abortFeed _ => .abortFeed

/-- The nodes of the message of a request. -/
def bodyNodes (P : Protowire) : Request → List Node
  | .configure c => configureNodes c
  | .installDependencies requirements => leaves (requirements.map fun r => ⟨1, .bytes r⟩)
  | .feed f => feedNodes P f
  | .resumeCall callID result => callResultNodes P callID result
  | .resumeNameLookup kind value error => nameLookupNodes P kind value error
  | .resumeFutures results => futureNodes P results
  | .load state => leaves (stringFields 1 state)
  | .abortFeed exception => exceptionField 1 exception
  | .dump | .reset | .shutdown => []

theorem encodes_body (req : Request) :
    Encodes P (requestType req) (fun b => appendBody P b req) (bodyNodes P req) := by
  cases req with
  | configure c => exact encodes_configure c
  | installDependencies requirements =>
    refine (appends_messages (by decide) requirements).encodes fun x hx => ?_
    obtain ⟨r, -, rfl⟩ := List.mem_map.mp hx
    rfl
  | feed f => exact encodes_feed f
  | resumeCall callID result => exact encodes_callResult rfl rfl callID result
  | resumeNameLookup kind value error => exact encodes_nameLookup kind value error
  | resumeFutures results => exact encodes_futures results
  | load state =>
    have hstate : ∀ b, appendLoad P b state = appendStringField P b 1 state := by
      intro b
      simp only [appendLoad, appendStringField, List.length_eq_zero_iff]
      rfl
    simp only [appendBody, hstate]
    exact encodes_stringField (by decide) rfl state
  | abortFeed exception => exact encodes_exceptionField (by decide) rfl exception
  | dump | reset | shutdown => exact encodes_pure

/-- The nodes of a request: its arm, and the trace parent. -/
def requestNodes (P : Protowire) (req : Request) (traceParent : GoString) : List Node :=
  .message (requestField req) (bodyNodes P req) :: leaves (stringFields 20 traceParent)

/-- **What `EncodeRequest` writes reads as the tree of the request.** -/
theorem encodeRequest_reads {req : Request} {traceParent : GoString} {frame : Bytes}
    (h : encodeRequest P req traceParent = .ok frame) (hlen : frame.length < 2 ^ 63) :
    Reads P schema .parentRequest frame (requestNodes P req traceParent) := by
  have hnum : ValidNumber (requestField req) := by
    cases req <;> simp [requestField, ValidNumber]
  have hmessage : subMessage .parentRequest (requestField req) = some (requestType req) := by
    cases req <;> rfl
  have hbody := (encodes_body (P := P) req).message hnum hmessage
  have htrace : Encodes (E := RequestError) P .parentRequest _
      (leaves (stringFields 20 traceParent)) := encodes_stringField (by decide) rfl _
  refine (hbody.bind htrace).body ?_ hlen
  simp only [bind_assoc, pure_bind]
  exact h

end Montygo.Wire
