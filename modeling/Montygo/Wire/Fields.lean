import Montygo.Wire.Encode

/-!
# The fields that the encoder writes

An encoder appends fields: `Appends P f fields` says that `f` adds these fields to a message,
whatever the message held before.  The bodies of messages are appenders one after the other, so
their fields are the fields of the parts in order.  A length on the wire has to fit 63 bits; that
the whole message does is enough, since appenders only make it longer.
-/

namespace Montygo.Wire

open Go Value WireFormat Protowire

variable (P : Protowire)

/-- `f` adds these fields to a message. -/
structure Appends (f : Bytes → Bytes) (fields : List Field) : Prop where
  grows : ∀ b, b.length ≤ (f b).length
  parses : ∀ b before, P.Parses b before → (f b).length < 2 ^ 63 → P.Parses (f b) (before ++ fields)

/-! ## Which fields are written -/

/-- The field of a number that is written unless it is zero. -/
def uintFields (num : ℕ) (v : UInt64) : List Field := if v = 0 then [] else [⟨num, .varint v⟩]

/-- The field of a flag that is written when it is set. -/
def boolFields (num : ℕ) (v : Bool) : List Field := if v then [⟨num, .varint 1⟩] else []

/-- The field of an `int32` that is written unless it is zero. -/
def int32Fields (num : ℕ) (v : Int32) : List Field :=
  if v = 0 then [] else [⟨num, .varint v.toInt64.toUInt64⟩]

/-- The field of a string that is written unless it is empty. -/
def stringFields (num : ℕ) (s : GoString) : List Field := if s = [] then [] else [⟨num, .bytes s⟩]

/-- The field of an optional value that is written when it is there. -/
def optionalFields {α : Type} (num : ℕ) (payload : α → Payload) : Option α → List Field
  | some a => [⟨num, payload a⟩]
  | none => []

variable {P} {f g : Bytes → Bytes} {fields fields' : List Field} {num : ℕ} {b : Bytes}

/-! ## Rules -/

theorem appends_id : Appends P (fun b => b) [] where
  grows _ := le_rfl
  parses b before h _ := by rwa [List.append_nil]

theorem Appends.comp (hf : Appends P f fields) (hg : Appends P g fields') :
    Appends P (fun b => g (f b)) (fields ++ fields') where
  grows b := (hf.grows b).trans (hg.grows (f b))
  parses b before hparse hlen := by
    rw [← List.append_assoc]
    exact hg.parses _ _ (hf.parses _ _ hparse ((hg.grows (f b)).trans_lt hlen)) hlen

section

variable (hnum : ValidNumber num)
include hnum

theorem appends_varintField (v : UInt64) :
    Appends P (appendVarintField P · num v) [⟨num, .varint v⟩] where
  grows b := by simp [appendVarintField]
  parses b before hparse _ := hparse.append (parses_varint hnum v)

theorem appends_fixed64 (v : UInt64) :
    Appends P (fun b => b ++ (P.tag (num, .fixed64) ++ P.fixed64 v)) [⟨num, .fixed64 v⟩] where
  grows b := by simp
  parses b before hparse _ := hparse.append (parses_fixed64 hnum v)

theorem appends_bytesAlways (v : Bytes) :
    Appends P (appendBytesAlways P · num v) [⟨num, .bytes v⟩] where
  grows b := by simp [appendBytesAlways]
  parses b before hparse hlen := by
    have hv := P.length_le_bytes v
    simp only [appendBytesAlways, List.length_append] at hlen
    exact hparse.append (parses_bytes hnum (by omega))

theorem appends_uintField (v : UInt64) :
    Appends P (appendUintField P · num v) (uintFields num v) := by
  unfold appendUintField uintFields
  split
  · exact appends_id
  · exact appends_varintField hnum v

theorem appends_boolField (v : Bool) :
    Appends P (appendBoolField P · num v) (boolFields num v) := by
  cases v with
  | false => exact appends_id
  | true => exact appends_varintField hnum 1

theorem appends_int32Field (v : Int32) :
    Appends P (appendInt32Field P · num v) (int32Fields num v) := by
  unfold appendInt32Field int32Fields
  split
  · exact appends_id
  · exact appends_varintField hnum _

theorem appends_stringField (s : GoString) :
    Appends P (appendStringField P · num s) (stringFields num s) := by
  unfold appendStringField stringFields
  split
  · exact appends_id
  · exact appends_bytesAlways hnum s

theorem appends_optionalString (s : Option GoString) :
    Appends P (appendOptionalString P · num s) (optionalFields num .bytes s) := by
  cases s with
  | none => exact appends_id
  | some s => exact appends_bytesAlways hnum s

theorem appends_optionalInt32 (v : Option Int32) : Appends P (appendOptionalInt32 P · num v)
      (optionalFields num (fun v => .varint v.toInt64.toUInt64) v) := by
  cases v with
  | none => exact appends_id
  | some v => exact appends_varintField hnum _

end

theorem length_le_appendMessage (msg : Bytes) : msg.length ≤ (appendMessage P b num msg).length := by
  have h := P.length_le_bytes msg
  simp only [appendMessage, appendBytesAlways, List.length_append]
  omega

theorem appends_messages (hnum : ValidNumber num) (msgs : List Bytes) :
    Appends P (fun b => msgs.foldl (fun b msg => appendMessage P b num msg) b)
      (msgs.map fun msg => ⟨num, .bytes msg⟩) := by
  induction msgs with
  | nil => exact appends_id
  | cons msg rest ih => exact (appends_bytesAlways hnum msg).comp ih

/-! ## Messages without values in them -/

/-- The fields of a date. -/
def dateFields (x : Date) : List Field :=
  int32Fields 1 x.year ++ uintFields 2 x.month.toUInt64 ++ uintFields 3 x.day.toUInt64

theorem appends_dateBody (x : Date) : Appends P (appendDateBody P · x) (dateFields x) :=
  ((appends_int32Field (by decide) _).comp (appends_uintField (by decide) _)).comp
    (appends_uintField (by decide) _)

/-- The fields of a time. -/
def timeFields (x : Time) : List Field :=
  uintFields 1 x.hour.toUInt64 ++ uintFields 2 x.minute.toUInt64 ++
    uintFields 3 x.second.toUInt64 ++ uintFields 4 x.microsecond.toUInt64 ++
    optionalFields 5 (fun v => .varint v.toInt64.toUInt64) x.offsetSeconds ++
    optionalFields 6 .bytes x.timezoneName ++ uintFields 7 x.fold.toUInt64

theorem appends_timeBody (x : Time) : Appends P (appendTimeBody P · x) (timeFields x) :=
  ((((((appends_uintField (by decide) _).comp (appends_uintField (by decide) _)).comp
    (appends_uintField (by decide) _)).comp (appends_uintField (by decide) _)).comp
    (appends_optionalInt32 (by decide) _)).comp (appends_optionalString (by decide) _)).comp
    (appends_uintField (by decide) _)

/-- The fields of a datetime. -/
def dateTimeFields (x : DateTime) : List Field :=
  int32Fields 1 x.year ++ uintFields 2 x.month.toUInt64 ++ uintFields 3 x.day.toUInt64 ++
    uintFields 4 x.hour.toUInt64 ++ uintFields 5 x.minute.toUInt64 ++
    uintFields 6 x.second.toUInt64 ++ uintFields 7 x.microsecond.toUInt64 ++
    optionalFields 8 (fun v => .varint v.toInt64.toUInt64) x.offsetSeconds ++
    optionalFields 9 .bytes x.timezoneName

theorem appends_dateTimeBody (x : DateTime) :
    Appends P (appendDateTimeBody P · x) (dateTimeFields x) :=
  ((((((((appends_int32Field (by decide) _).comp (appends_uintField (by decide) _)).comp
    (appends_uintField (by decide) _)).comp (appends_uintField (by decide) _)).comp
    (appends_uintField (by decide) _)).comp (appends_uintField (by decide) _)).comp
    (appends_uintField (by decide) _)).comp (appends_optionalInt32 (by decide) _)).comp
    (appends_optionalString (by decide) _)

/-- The fields of a timedelta. -/
def timeDeltaFields (x : TimeDelta) : List Field :=
  int32Fields 1 x.days ++ int32Fields 2 x.seconds ++ int32Fields 3 x.microseconds

theorem appends_timeDeltaBody (x : TimeDelta) :
    Appends P (appendTimeDeltaBody P · x) (timeDeltaFields x) :=
  ((appends_int32Field (by decide) _).comp (appends_int32Field (by decide) _)).comp
    (appends_int32Field (by decide) _)

/-- The fields of a timezone. -/
def timeZoneFields (x : TimeZone) : List Field :=
  int32Fields 1 x.offsetSeconds ++ optionalFields 2 .bytes x.name

theorem appends_timeZoneBody (x : TimeZone) :
    Appends P (appendTimeZoneBody P · x) (timeZoneFields x) :=
  (appends_int32Field (by decide) _).comp (appends_optionalString (by decide) _)

/-- The fields of an exception value. -/
def exceptionValueFields (x : Exception) : List Field :=
  stringFields 1 x.excType ++ stringFields 2 x.message

theorem appends_exceptionValueBody (x : Exception) :
    Appends P (appendExceptionValueBody P · x) (exceptionValueFields x) := by
  have hmessage : ∀ b, (if x.message ≠ [] then appendStringAlways P b 2 x.message else b) =
      appendStringField P b 2 x.message := by
    intro b
    rw [appendStringField, ite_not]
  simp only [appendExceptionValueBody, hmessage]
  exact (appends_stringField (by decide) _).comp (appends_stringField (by decide) _)

/-- The fields of a function. -/
def functionFields (x : Function) : List Field :=
  stringFields 1 x.name ++ optionalFields 2 .bytes x.docstring

theorem appends_functionBody (x : Function) :
    Appends P (appendFunctionBody P · x) (functionFields x) :=
  (appends_stringField (by decide) _).comp (appends_optionalString (by decide) _)

/-- The fields of a file handle. -/
def fileHandleFields (x : FileHandle) : List Field :=
  stringFields 1 x.path ++ stringFields 2 x.mode ++ uintFields 3 x.position

theorem appends_fileHandleBody (x : FileHandle) :
    Appends P (fun b => appendUintField P (appendStringField P (appendStringField P b 1 x.path) 2
      x.mode) 3 x.position) (fileHandleFields x) :=
  ((appends_stringField (by decide) _).comp (appends_stringField (by decide) _)).comp
    (appends_uintField (by decide) _)

/-- The fields of a named tuple in front of its values. -/
def nameFields (typeName : GoString) (fieldNames : List GoString) : List Field :=
  stringFields 1 typeName ++ fieldNames.map fun name => ⟨2, .bytes name⟩

theorem appends_names (typeName : GoString) (fieldNames : List GoString) :
    Appends P (appendNames P · typeName fieldNames) (nameFields typeName fieldNames) :=
  (appends_stringField (by decide) _).comp (appends_messages (by decide) _)

/-- The fields of an integer that does not fit 64 bits. -/
def bigFields (x : ℤ) : List Field := boolFields 1 (decide (x < 0)) ++ [⟨2, .bytes (bigBytes x)⟩]

theorem appends_bigBody (x : ℤ) :
    Appends P (fun b => appendBytesAlways P (appendBoolField P b 1 (x < 0)) 2 (bigBytes x))
      (bigFields x) :=
  (appends_boolField (by decide) _).comp (appends_bytesAlways (by decide) _)

end Montygo.Wire
