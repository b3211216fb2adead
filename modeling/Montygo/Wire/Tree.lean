import Montygo.Lib.WireTree
import Montygo.Wire.Schema
import Montygo.Wire.Fields

/-!
# The tree that the encoder writes

`Encodes P t f nodes` says that `f` adds these nodes to a message of kind `t`, when it succeeds.
Encoders are put together from encoders by three rules (one after the other, in a message, and
fields on their own), so each value has a tree, `valueNode`, that does not mention bytes; the
encoding of the value reads as this tree (`encodes_value`).
-/

namespace Montygo.Wire

open Go Value WireFormat Protowire

variable (P : Protowire) {E : Type}

/-- `f` adds these nodes to a message, when it succeeds. -/
structure Encodes (t : MessageType) (f : Bytes → Except E Bytes) (nodes : List Node) : Prop where
  grows : ∀ b out, f b = .ok out → b.length ≤ out.length
  reads : ∀ b out before, f b = .ok out → Reads P schema t b before → out.length < 2 ^ 63 →
    Reads P schema t out (before ++ nodes)

variable {P} {t t' : MessageType} {f g : Bytes → Except E Bytes} {nodes nodes' : List Node}
  {num : ℕ}

/-! ## Rules -/

theorem encodes_pure : Encodes P t (fun b => (pure b : Except E Bytes)) [] where
  grows b out h := by cases h; exact le_rfl
  reads b out before h hreads _ := by
    cases h
    rwa [List.append_nil]

theorem encodes_error {e : E} (h : ∀ b, f b = .error e) : Encodes P t f nodes where
  grows b out hout := by
    rw [h] at hout
    cases hout
  reads b out before hout := by
    rw [h] at hout
    cases hout

theorem Encodes.mapError {E' : Type} {g : E → E'} (hf : Encodes P t f nodes) :
    Encodes P t (fun b => (f b).mapError g) nodes where
  grows b out h := hf.grows b out (Outcome.mapError_eq_ok.mp h)
  reads b out before h := hf.reads b out before (Outcome.mapError_eq_ok.mp h)

theorem Encodes.bind (hf : Encodes P t f nodes) (hg : Encodes P t g nodes') :
    Encodes P t (fun b => f b >>= g) (nodes ++ nodes') where
  grows b out h := by
    obtain ⟨mid, hmid, hout⟩ := Outcome.bind_eq_ok.mp h
    exact (hf.grows _ _ hmid).trans (hg.grows _ _ hout)
  reads b out before h hreads hlen := by
    obtain ⟨mid, hmid, hout⟩ := Outcome.bind_eq_ok.mp h
    rw [← List.append_assoc]
    exact hg.reads _ _ _ hout (hf.reads _ _ _ hmid hreads ((hg.grows _ _ hout).trans_lt hlen)) hlen

theorem Encodes.body {out : Bytes} (hf : Encodes P t f nodes) (hout : f [] = .ok out)
    (hlen : out.length < 2 ^ 63) : Reads P schema t out nodes :=
  hf.reads [] out [] hout reads_nil hlen

theorem Appends.encodes {f : Bytes → Bytes} {fields : List Field} (hf : Appends P f fields)
    (hleaf : ∀ x ∈ fields, subMessage t x.num = none) :
    Encodes P t (fun b => (pure (f b) : Except E Bytes)) (leaves fields) where
  grows b out h := by cases h; exact hf.grows b
  reads b out before h hreads hlen := by
    cases h
    obtain ⟨fields', hparse, hfields⟩ := hreads
    exact ⟨_, hf.parses _ _ hparse hlen,
      hfields.append (readsFields_leaves fun x hx _ _ => hleaf x hx)⟩

theorem Encodes.message (hf : Encodes P t' f nodes) (hnum : ValidNumber num)
    (hmessage : subMessage t num = some t') :
    Encodes P t (fun b => do
      let body ← f []
      pure (appendMessage P b num body)) [.message num nodes] where
  grows b out h := by
    obtain ⟨body, -, hout⟩ := Outcome.bind_eq_ok.mp h
    cases hout
    exact (appends_bytesAlways hnum body).grows b
  reads b out before h hreads hlen := by
    obtain ⟨body, hbody, hout⟩ := Outcome.bind_eq_ok.mp h
    cases hout
    obtain ⟨fields, hparse, hfields⟩ := hreads
    obtain ⟨inner, hinner, hnodes⟩ := hf.body hbody ((length_le_appendMessage body).trans_lt hlen)
    exact ⟨_, (appends_bytesAlways hnum body).parses _ _ hparse hlen,
      hfields.append (.message hmessage hinner hnodes .nil)⟩

theorem Appends.encodes_plain {f : Bytes → Bytes} {fields : List Field} (hf : Appends P f fields)
    (hplain : messageTable t' = []) (hnum : ValidNumber num)
    (hmessage : subMessage t num = some t') :
    Encodes P t (fun b => (pure (appendMessage P b num (f [])) : Except E Bytes))
      [.message num (leaves fields)] := by
  have hleaf : ∀ x ∈ fields, subMessage t' x.num = none := by
    intro x _
    rw [subMessage, hplain]
    rfl
  exact (hf.encodes hleaf).message hnum hmessage

/-! ## Fields of a message that also has messages in it -/

section Leaves

variable (hnum : ValidNumber num) (hleaf : subMessage t num = none)

include hnum hleaf

theorem encodes_varintField (v : UInt64) :
    Encodes P t (fun b => (pure (appendVarintField P b num v) : Except E Bytes))
      [.leaf ⟨num, .varint v⟩] :=
  (appends_varintField hnum v).encodes (by simpa using hleaf)

theorem encodes_bytesAlways (v : Bytes) :
    Encodes P t (fun b => (pure (appendBytesAlways P b num v) : Except E Bytes))
      [.leaf ⟨num, .bytes v⟩] :=
  (appends_bytesAlways hnum v).encodes (by simpa using hleaf)

theorem encodes_fixed64 (v : UInt64) :
    Encodes P t (fun b => (pure (b ++ (P.tag (num, .fixed64) ++ P.fixed64 v)) : Except E Bytes))
      [.leaf ⟨num, .fixed64 v⟩] :=
  (appends_fixed64 hnum v).encodes (by simpa using hleaf)

theorem encodes_uintField (v : UInt64) :
    Encodes P t (fun b => (pure (appendUintField P b num v) : Except E Bytes))
      (leaves (uintFields num v)) := by
  refine (appends_uintField hnum v).encodes fun x hx => ?_
  unfold uintFields at hx
  split at hx <;> simp_all

theorem encodes_boolField (v : Bool) :
    Encodes P t (fun b => (pure (appendBoolField P b num v) : Except E Bytes))
      (leaves (boolFields num v)) := by
  refine (appends_boolField hnum v).encodes fun x hx => ?_
  unfold boolFields at hx
  split at hx <;> simp_all

theorem encodes_stringField (s : GoString) :
    Encodes P t (fun b => (pure (appendStringField P b num s) : Except E Bytes))
      (leaves (stringFields num s)) := by
  refine (appends_stringField hnum s).encodes fun x hx => ?_
  unfold stringFields at hx
  split at hx <;> simp_all

theorem encodes_optionalString (s : Option GoString) :
    Encodes P t (fun b => (pure (appendOptionalString P b num s) : Except E Bytes))
      (leaves (optionalFields num .bytes s)) := by
  refine (appends_optionalString hnum s).encodes fun x hx => ?_
  cases s <;> simp_all [optionalFields]

end Leaves


theorem num_of_mem_nameFields {typeName : GoString} {fieldNames : List GoString} {x : Field}
    (h : x ∈ nameFields typeName fieldNames) : x.num = 1 ∨ x.num = 2 := by
  rcases List.mem_append.mp h with h | h
  · unfold stringFields at h
    split at h <;> simp_all
  · obtain ⟨name, -, rfl⟩ := List.mem_map.mp h
    exact .inr rfl

/-! ## Values -/

/-- The bytes of a uuid. -/
def uuidBytes (id : GoString) : Bytes :=
  match parseUUID id with
  | .ok raw => raw
  | .error _ => []

/-- A uuid in a field. -/
def uuidNode (num : ℕ) (id : GoString) : Node := .message num [.leaf ⟨1, .bytes (uuidBytes id)⟩]

theorem encodes_uuid (hnum : ValidNumber num) (hmessage : subMessage t num = some .uuid)
    (id : GoString) : Encodes P t (fun b => appendUUIDMessage P b num id) [uuidNode num id] := by
  unfold appendUUIDMessage uuidNode uuidBytes
  cases parseUUID id with
  | error e => exact encodes_error fun _ => rfl
  | ok raw =>
    exact (appends_bytesAlways (by decide) raw).encodes_plain rfl hnum hmessage

variable (P)

/-- A number; nil is `None`. -/
def intNode : Option ℤ → Node
  | none => .message 2 []
  | some x =>
    if isInt64 x then .leaf ⟨5, .varint (P.encodeZigZag (Int64.ofInt x))⟩
    else .message 6 (leaves (bigFields x))

/-- A type without its attributes. -/
def typeInfoNodes (info : TypeInfo) : List Node :=
  leaves (stringFields 1 info.name) ++ (if info.id ≠ [] then [uuidNode 2 info.id] else []) ++
    leaves (uintFields 3 info.origin.toUInt64) ++ leaves (boolFields 4 info.isDataclass)

mutual

/-- The node of a value, the only one of its message.  Values that are not encoded have none. -/
def valueNode : Object → Node
  | .none | .cycle _ | .other _ => .message 2 []
  | .ellipsis => .message 1 []
  | .notImplemented => .message 3 []
  | .bool x => .leaf ⟨4, .varint (P.encodeBool x)⟩
  | .integer x => intNode P x.value
  | .float32 x => .leaf ⟨7, .fixed64 (widen x)⟩
  | .float64 x => .leaf ⟨7, .fixed64 x⟩
  | .str x => .leaf ⟨8, .bytes x⟩
  | .bytes x => .leaf ⟨9, .bytes x⟩
  | .list items => .message 11 (itemNodes 1 items)
  | .tuple items => .message 12 (itemNodes 1 items)
  | .namedTuple typeName fieldNames values =>
    .message 13 (leaves (nameFields typeName fieldNames) ++ itemNodes 3 values)
  | .dict pairs => .message 14 (dictNodes pairs)
  | .set items => .message 15 (itemNodes 1 items)
  | .frozenSet items => .message 16 (itemNodes 1 items)
  | .date x => .message 17 (leaves (dateFields x))
  | .time x => .message 18 (leaves (timeFields x))
  | .dateTime x => .message 19 (leaves (dateTimeFields x))
  | .timeDelta x => .message 20 (leaves (timeDeltaFields x))
  | .timeZone x => .message 21 (leaves (timeZoneFields x))
  | .exception x => .message 22 (leaves (exceptionValueFields x))
  | .type info attrs => .message 23 (typeNodes info attrs)
  | .classInstance _ info typeAttrs id attrs =>
    .message 24 [.message 1 (typeNodes info typeAttrs), uuidNode 2 id, .message 3 (match attrs with
        | some pairs => dictNodes pairs
        | none => [])]
  | .function x => .message 25 (leaves (functionFields x))
  | .builtinFunction name => .leaf ⟨26, .bytes name⟩
  | .path p => .leaf ⟨27, .bytes p⟩
  | .fileHandle _ x => .message 28 (leaves (fileHandleFields x))

/-- A list of values, a message each. -/
def itemNodes (num : ℕ) : List Object → List Node
  | [] => []
  | item :: rest => .message num [valueNode item] :: itemNodes num rest

/-- The pairs of a dict. -/
def dictNodes : List (Object × Object) → List Node
  | [] => []
  | (key, value) :: rest =>
    .message 1 [.message 1 [valueNode key], .message 2 [valueNode value]] :: dictNodes rest

/-- A type; its attributes are left out when there are none. -/
def typeNodes (info : TypeInfo) : Option (List (Object × Object)) → List Node
  | some pairs =>
    typeInfoNodes info ++ if 0 < pairs.length then [.message 5 (dictNodes pairs)] else []
  | none => typeInfoNodes info

end

theorem valueNode_classInstance (pointer : Bool) (info : TypeInfo) (id : GoString)
    (typeAttrs attrs : Option (List (Object × Object))) :
    valueNode P (.classInstance pointer info typeAttrs id attrs) =
      .message 24 [.message 1 (typeNodes P info typeAttrs), uuidNode 2 id,
        .message 3 (dictNodes P (attrs.getD []))] := by
  cases attrs <;> simp only [valueNode, Option.getD_none, Option.getD_some, dictNodes]

variable {P}

/-- The encoding of a value reads as its tree. -/
def EncodesValue (P : Protowire) (v : Object) : Prop :=
  Encodes P .montyObject (fun b => appendValue P b v) [valueNode P v]

theorem encodes_items {items : List Object} (hnum : ValidNumber num)
    (hmessage : subMessage t num = some .montyObject) (h : ∀ c ∈ items, EncodesValue P c) :
    Encodes P t (fun b => appendItems P num b items) (itemNodes P num items) := by
  induction items with
  | nil =>
    simp only [appendItems, itemNodes]
    exact encodes_pure
  | cons item rest ih =>
    have hitem := (h item List.mem_cons_self).message hnum hmessage
    have hrest := ih fun c hc => h c (List.mem_cons_of_mem _ hc)
    simp only [appendItems, itemNodes]
    simpa only [bind_assoc, pure_bind, List.cons_append, List.nil_append] using hitem.bind hrest

theorem encodes_dict {pairs : List (Object × Object)}
    (h : ∀ c ∈ pairObjects pairs, EncodesValue P c) :
    Encodes P .dict (fun b => appendDictBody P b pairs) (dictNodes P pairs) := by
  induction pairs with
  | nil =>
    simp only [appendDictBody, dictNodes]
    exact encodes_pure
  | cons pair rest ih =>
    obtain ⟨key, value⟩ := pair
    obtain ⟨hkey, hvalue, hrest⟩ := forall_pairObjects.mp h
    have hfirst : Encodes P .pair _ [.message 1 [valueNode P key]] := hkey.message (by decide) rfl
    have hsecond : Encodes P .pair _ [.message 2 [valueNode P value]] :=
      hvalue.message (by decide) rfl
    have hpair : Encodes P .dict _ [.message 1 _] := (hfirst.bind hsecond).message (by decide) rfl
    simp only [appendDictBody, dictNodes]
    simpa only [bind_assoc, pure_bind, List.cons_append, List.nil_append] using hpair.bind (ih hrest)

theorem encodes_typeInfo (info : TypeInfo) :
    Encodes P .type (fun b => appendTypeInfo P b info) (typeInfoNodes info) := by
  have hname : Encodes (E := ConversionError) P .type _ (leaves (stringFields 1 info.name)) :=
    encodes_stringField (by decide) rfl info.name
  have horigin : Encodes (E := ConversionError) P .type _ (leaves (uintFields 3 info.origin.toUInt64)) :=
    encodes_uintField (by decide) rfl _
  have hdataclass : Encodes (E := ConversionError) P .type _ (leaves (boolFields 4 info.isDataclass)) :=
    encodes_boolField (by decide) rfl _
  unfold typeInfoNodes
  by_cases hid : info.id = []
  · simp only [appendTypeInfo, hid, ne_eq, not_true_eq_false, if_false, List.append_nil]
    exact (hname.bind horigin).bind hdataclass
  · simp only [appendTypeInfo, hid, ne_eq, not_false_eq_true, if_true]
    have huuid : Encodes P .type _ [uuidNode 2 info.id] := encodes_uuid (by decide) rfl _
    simpa only [bind_assoc, pure_bind] using ((hname.bind huuid).bind horigin).bind hdataclass

theorem encodes_type (info : TypeInfo) {attrs : Option (List (Object × Object))}
    (h : ∀ c ∈ pairObjects (attrs.getD []), EncodesValue P c) :
    Encodes P .type (fun b => appendTypeBody P b info attrs) (typeNodes P info attrs) := by
  cases attrs with
  | none =>
    simp only [appendTypeBody, typeNodes]
    exact encodes_typeInfo info
  | some pairs =>
    simp only [appendTypeBody, typeNodes]
    refine (encodes_typeInfo info).bind ?_
    split
    · exact (encodes_dict h).message (by decide) rfl
    · exact encodes_pure

/-! ### Integers -/

theorem toInt_toInt64 {x : UInt64} (h : x.toNat < 2 ^ 63) : x.toInt64.toInt = x.toNat := by
  show x.toBitVec.toInt = _
  rw [BitVec.toInt_eq_toNat_of_lt]
  · rfl
  · have : x.toBitVec.toNat = x.toNat := rfl
    omega

/-- The short form is what `appendBig` takes for small numbers. -/
theorem appendInt_eq (b : Bytes) (x : Int64) : appendInt P b x = appendBig P b x.toInt := by
  have hfits : isInt64 x.toInt = true := decide_eq_true ⟨Int64.le_toInt x, Int64.toInt_lt x⟩
  rw [appendBig, if_pos hfits, Int64.ofInt_toInt]

theorem appendUint_eq (b : Bytes) (x : UInt64) : appendUint P b x = appendBig P b x.toNat := by
  unfold appendUint
  split
  · rw [appendInt_eq, toInt_toInt64 (by omega)]
  · rfl

theorem appendGoInt_eq (b : Bytes) (x : GoInt) : appendGoInt P b x = match x.value with
      | some n => appendBig P b n
      | none => appendMessage P b 2 [] := by
  cases x with
  | int x | int64 x => exact appendInt_eq b x
  | int8 x =>
    rw [appendGoInt, appendInt_eq, Int8.toInt_toInt64]
    rfl
  | int16 x =>
    rw [appendGoInt, appendInt_eq, Int16.toInt_toInt64]
    rfl
  | int32 x =>
    rw [appendGoInt, appendInt_eq, Int32.toInt_toInt64]
    rfl
  | uint x | uint64 x => exact appendUint_eq b x
  | uint8 x =>
    have hlt := x.toNat_lt
    rw [appendGoInt, appendInt_eq, toInt_toInt64 (by rw [UInt8.toNat_toUInt64]; omega)]
    rfl
  | uint16 x =>
    have hlt := x.toNat_lt
    rw [appendGoInt, appendInt_eq, toInt_toInt64 (by rw [UInt16.toNat_toUInt64]; omega)]
    rfl
  | uint32 x =>
    have hlt := x.toNat_lt
    rw [appendGoInt, appendInt_eq, toInt_toInt64 (by rw [UInt32.toNat_toUInt64]; omega)]
    rfl
  | big x => cases x <;> rfl

theorem encodes_unit (hnum : ValidNumber num) (hmessage : subMessage t num = some .unit) :
    Encodes P t (fun b => (pure (appendMessage P b num []) : Except E Bytes)) [.message num []] :=
  appends_id.encodes_plain rfl hnum hmessage

theorem encodes_int (x : GoInt) :
    Encodes P .montyObject (fun b => (.ok (appendGoInt P b x) : Except E Bytes))
      [intNode P x.value] := by
  simp only [appendGoInt_eq]
  cases x.value with
  | none => exact encodes_unit (by decide) rfl
  | some n =>
    simp only [intNode, appendBig]
    split
    · exact encodes_varintField (by decide) rfl _
    · exact (appends_bigBody n).encodes_plain rfl (by decide) rfl

/-! ### All values -/

/-- **The encoding of a value reads as its tree.** -/
theorem encodes_value (v : Object) : EncodesValue P v := by
  refine v.induction fun v ih => ?_
  unfold EncodesValue
  cases v with
  | none | ellipsis | notImplemented =>
    simp only [appendValue, valueNode]
    exact encodes_unit (by decide) rfl
  | bool x =>
    simp only [appendValue, valueNode]
    exact encodes_varintField (by decide) rfl _
  | integer x =>
    simp only [appendValue, valueNode]
    exact encodes_int x
  | float32 x | float64 x =>
    simp only [appendValue, valueNode]
    exact encodes_fixed64 (by decide) rfl _
  | str x | bytes x | builtinFunction x | path x =>
    simp only [appendValue, valueNode]
    exact encodes_bytesAlways (by decide) rfl x
  | list items | tuple items | set items | frozenSet items =>
    simp only [appendValue, valueNode]
    exact (encodes_items (by decide) rfl ih).message (by decide) rfl
  | namedTuple typeName fieldNames values =>
    simp only [appendValue, valueNode]
    have hnames : Encodes (E := ConversionError) P .namedTuple _ (leaves (nameFields typeName fieldNames)) :=
      (appends_names typeName fieldNames).encodes fun x hx => by
        rcases num_of_mem_nameFields hx with h | h <;> rw [h] <;> rfl
    exact (hnames.bind (encodes_items (by decide) rfl ih)).message (by decide) rfl
  | dict pairs =>
    simp only [appendValue, valueNode]
    exact (encodes_dict ih).message (by decide) rfl
  | date x =>
    simp only [appendValue, valueNode]
    exact (appends_dateBody x).encodes_plain rfl (by decide) rfl
  | time x =>
    simp only [appendValue, valueNode]
    exact (appends_timeBody x).encodes_plain rfl (by decide) rfl
  | dateTime x =>
    simp only [appendValue, valueNode]
    exact (appends_dateTimeBody x).encodes_plain rfl (by decide) rfl
  | timeDelta x =>
    simp only [appendValue, valueNode]
    exact (appends_timeDeltaBody x).encodes_plain rfl (by decide) rfl
  | timeZone x =>
    simp only [appendValue, valueNode]
    exact (appends_timeZoneBody x).encodes_plain rfl (by decide) rfl
  | exception x =>
    simp only [appendValue, valueNode]
    exact (appends_exceptionValueBody x).encodes_plain rfl (by decide) rfl
  | function x =>
    simp only [appendValue, valueNode]
    exact (appends_functionBody x).encodes_plain rfl (by decide) rfl
  | type info attrs =>
    simp only [appendValue, valueNode]
    exact (encodes_type info ih).message (by decide) rfl
  | classInstance pointer info typeAttrs id attrs =>
    have htype : Encodes P .classInstance _ [.message 1 (typeNodes P info typeAttrs)] :=
      (encodes_type info fun c hc => ih c (List.mem_append_left _ hc)).message (by decide) rfl
    have hid : Encodes P .classInstance _ [uuidNode 2 id] := encodes_uuid (by decide) rfl id
    have hattrs : Encodes P .classInstance _ [.message 3 (dictNodes P (attrs.getD []))] :=
      (encodes_dict fun c hc => ih c (List.mem_append_right _ hc)).message (by decide) rfl
    have hall : Encodes P .montyObject _ [.message 24 _] :=
      ((htype.bind hid).bind hattrs).message (by decide) rfl
    rw [valueNode_classInstance]
    cases attrs with
    | none | some pairs =>
      simpa only [appendValue, appendDictBody, Option.getD_none, Option.getD_some, bind_assoc,
        pure_bind, List.cons_append, List.nil_append] using hall
  | fileHandle pointer x =>
    simp only [appendValue, valueNode]
    exact (appends_fileHandleBody x).encodes_plain rfl (by decide) rfl
  | cycle x | other x =>
    simp only [appendValue]
    exact encodes_error fun _ => rfl

end Montygo.Wire
