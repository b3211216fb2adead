import Montygo.Lib.WireStandard
import Montygo.Wire.Canonical
import Montygo.Wire.Tree
import Montygo.Wire.Yields

/-!
# Encoding a value and decoding it

The decoder gives an encoded value back in canonical form.  Encoder and decoder meet at the tree
of the value: what the encoder writes reads as `valueNode`, and here the arms of the decoder are
run on that tree, by induction on the value.

The decoder goes one level deeper for the values in a value, and two for the attributes of the
type of an instance; a value decodes exactly when these levels are within the limit.
-/

namespace Montygo.Wire

open Go Value WireFormat Protowire

/-! ## Messages without values in them -/

variable {P : Protowire} {b : Bytes}

theorem take_dateFields (x : Date) : takeFields P dateArms (dateFields x) ⟨0, 0, 0⟩ = pure x := by
  simp only [dateFields, takeFields_append]
  rw [take_int32Fields x.year rfl rfl, pure_bind, take_uintFields _ rfl rfl, pure_bind,
    take_uintFields _ rfl rfl, toInt32_toUInt64, clampU32_toUInt64, clampU32_toUInt64]

theorem take_timeFields (x : Time) :
    takeFields P timeArms (timeFields x) ⟨0, 0, 0, 0, none, none, 0⟩ = pure x := by
  simp only [timeFields, takeFields_append]
  rw [take_uintFields _ rfl rfl, pure_bind, take_uintFields _ rfl rfl, pure_bind,
    take_uintFields _ rfl rfl, pure_bind, take_uintFields _ rfl rfl, pure_bind,
    take_optionalInt32 (fun v t => { t with offsetSeconds := v }) _ rfl rfl, pure_bind,
    take_optionalString (fun v t => { t with timezoneName := v }) _ rfl rfl, pure_bind,
    take_uintFields _ rfl rfl]
  simp only [clampU32_toUInt64, UInt32.toUInt32_toUInt64]

theorem take_dateTimeFields (x : DateTime) :
    takeFields P dateTimeArms (dateTimeFields x) ⟨0, 0, 0, 0, 0, 0, 0, none, none⟩ = pure x := by
  simp only [dateTimeFields, takeFields_append]
  rw [take_int32Fields _ rfl rfl, pure_bind, take_uintFields _ rfl rfl, pure_bind,
    take_uintFields _ rfl rfl, pure_bind, take_uintFields _ rfl rfl, pure_bind,
    take_uintFields _ rfl rfl, pure_bind, take_uintFields _ rfl rfl, pure_bind,
    take_uintFields _ rfl rfl, pure_bind,
    take_optionalInt32 (fun v t => { t with offsetSeconds := v }) _ rfl rfl, pure_bind,
    take_optionalString (fun v t => { t with timezoneName := v }) _ rfl rfl]
  simp only [toInt32_toUInt64, clampU32_toUInt64, UInt32.toUInt32_toUInt64]

theorem take_timeDeltaFields (x : TimeDelta) :
    takeFields P timeDeltaArms (timeDeltaFields x) ⟨0, 0, 0⟩ = pure x := by
  simp only [timeDeltaFields, takeFields_append]
  rw [take_int32Fields _ rfl rfl, pure_bind, take_int32Fields _ rfl rfl, pure_bind,
    take_int32Fields _ rfl rfl]
  simp only [toInt32_toUInt64]

theorem take_timeZoneFields (x : TimeZone) :
    takeFields P timeZoneArms (timeZoneFields x) ⟨0, none⟩ = pure x := by
  simp only [timeZoneFields, takeFields_append]
  rw [take_int32Fields _ rfl rfl, pure_bind,
    take_optionalString (fun v t => { t with name := v }) _ rfl rfl, toInt32_toUInt64]

theorem take_exceptionValueFields (x : Exception) :
    takeFields P exceptionValueArms (exceptionValueFields x) ⟨[], []⟩ = pure x := by
  simp only [exceptionValueFields, takeFields_append]
  rw [take_stringFields _ rfl rfl, pure_bind, take_stringFields _ rfl rfl]

theorem take_functionFields (x : Function) :
    takeFields P functionArms (functionFields x) ⟨[], none⟩ = pure x := by
  simp only [functionFields, takeFields_append]
  rw [take_stringFields _ rfl rfl, pure_bind,
    take_optionalString (fun v t => { t with docstring := v }) _ rfl rfl]

theorem take_fileHandleFields (x : FileHandle) :
    takeFields P fileHandleArms (fileHandleFields x) ⟨[], [], 0⟩ = pure x := by
  simp only [fileHandleFields, takeFields_append]
  rw [take_stringFields _ rfl rfl, pure_bind, take_stringFields _ rfl rfl, pure_bind,
    take_uintFields _ rfl rfl]

theorem setBytes_bigBytes (x : ℤ) : setBytes (bigBytes x) = x.natAbs := by
  have hbyte : ∀ d ∈ Nat.digits 256 x.natAbs, (UInt8.ofNat d).toNat = d := by
    intro d hd
    have hlt : d < 256 := Nat.digits_lt_base (by decide) hd
    simp [Nat.mod_eq_of_lt hlt]
  have hmap : (Nat.digits 256 x.natAbs).map (UInt8.toNat ∘ UInt8.ofNat) =
      Nat.digits 256 x.natAbs := (List.map_congr_left hbyte).trans (List.map_id _)
  rw [setBytes, bigBytes, List.reverse_reverse, List.map_map, hmap, Nat.ofDigits_digits]

theorem take_bigFields (x : ℤ) :
    takeFields P bigArms (bigFields x) (false, []) = pure (decide (x < 0), bigBytes x) := by
  simp only [bigFields, takeFields_append]
  rw [take_boolFields _ rfl rfl]
  by_cases hx : x < 0 <;> simp [hx, takeFields, bigArms, Arm.take]

theorem yields_decodeBig {x : ℤ} (h : Reads P schema .bigInt b (leaves (bigFields x))) :
    Yields (decodeBig P b) (.integer (intValue x)) := by
  have hread := (takes_leaves (take_bigFields x)).readMessage h
  refine hread.bind ((yields_charge _).bind ?_)
  have hvalue : (if decide (x < 0) = true then -(setBytes (bigBytes x) : ℤ)
      else (setBytes (bigBytes x) : ℤ)) = x := by
    rw [setBytes_bigBytes]
    by_cases hx : x < 0
    · rw [if_pos (decide_eq_true hx)]
      omega
    · rw [if_neg (by simpa using hx)]
      omega
  simp only [hvalue]
  exact yields_pure _

theorem yields_decodeUUID {id : GoString} {raw : Bytes} (hid : parseUUID id = .ok raw)
    (h : Reads P schema .uuid b [.leaf ⟨1, .bytes (uuidBytes id)⟩]) :
    Yields (decodeUUIDMessage P b) (lower id) := by
  rw [uuidBytes, hid] at h
  have htake : takeFields P uuidArms [⟨1, .bytes raw⟩] [] = pure raw := rfl
  have hread : Yields (readMessage P uuidArms b []) raw := (takes_leaves htake).readMessage h
  refine hread.bind ?_
  rw [formatUUID_parseUUID hid]
  exact yields_pure _

/-! ## Messages with values in them -/

section Containers

variable {dec decBelow : Bytes → DecodeM Object} {σ : Type} {arms : ℕ → Arm σ} {num : ℕ}
  {t : MessageType} {items : List Object} {pairs : List (Object × Object)}

/-- The decoder gives the value back. -/
def GivesBack (P : Protowire) (dec : Bytes → DecodeM Object) (v : Object) : Prop :=
  ∀ b, Reads P schema .montyObject b [valueNode P v] → Yields (dec b) (canonical v)

/-- The decoder does not take the value. -/
def TurnsDown (P : Protowire) (dec : Bytes → DecodeM Object) (v : Object) : Prop :=
  ∀ b, Reads P schema .montyObject b [valueNode P v] → Refuses (dec b)

theorem takes_items {push : σ → Object → σ} (hmessage : subMessage t num = some .montyObject)
    (harm : arms num = .bytes fun b s => do
      let v ← dec b
      pure (push s v))
    (h : ∀ c ∈ items, GivesBack P dec c) (s : σ) :
    Takes P t arms (itemNodes P num items) s ((canonicalItems items).foldl push s) := by
  induction items generalizing s with
  | nil => exact takes_nil s
  | cons item rest ih =>
    have hitem : Takes P t arms [.message num [valueNode P item]] s (push s (canonical item)) :=
      takes_message hmessage harm fun b hb => (h item List.mem_cons_self b hb).bind (yields_pure _)
    exact hitem.append (ih (fun c hc => h c (List.mem_cons_of_mem _ hc)) _)

theorem foldl_push {α : Type} (items s : List α) :
    items.foldl (fun s v => s ++ [v]) s = s ++ items := by
  induction items generalizing s with
  | nil => simp
  | cons item rest ih => simp [ih]

theorem foldl_names (names fieldNames : List GoString) (typeName : GoString) (s : List Object) :
    names.foldl (fun nt b => (nt.1, nt.2.1 ++ [b], nt.2.2)) (typeName, fieldNames, s) =
      (typeName, fieldNames ++ names, s) := by
  induction names generalizing fieldNames with
  | nil => simp
  | cons name rest ih => simp [ih]

theorem foldl_values (items s : List Object) (typeName : GoString) (fieldNames : List GoString) :
    items.foldl (fun nt v => (nt.1, nt.2.1, nt.2.2 ++ [v])) (typeName, fieldNames, s) =
      (typeName, fieldNames, s ++ items) := by
  induction items generalizing s with
  | nil => simp
  | cons item rest ih => simp [ih]

theorem yields_decodeObjectList (h : ∀ c ∈ items, GivesBack P dec c)
    (hreads : Reads P schema .objectList b (itemNodes P 1 items)) :
    Yields (decodeObjectList P dec b) (canonicalItems items) := by
  have htakes : Takes P .objectList (objectListArms dec) (itemNodes P 1 items) [] _ :=
    takes_items rfl rfl h []
  have hread := htakes.readMessage hreads
  rwa [foldl_push, List.nil_append] at hread

theorem yields_decodePair {key value : Object} (hkey : GivesBack P dec key)
    (hvalue : GivesBack P dec value)
    (hreads : Reads P schema .pair b
      [.message 1 [valueNode P key], .message 2 [valueNode P value]]) :
    Yields (decodePair P dec b) (canonical key, canonical value) := by
  have hfirst : Takes P .pair (pairArms dec) [.message 1 [valueNode P key]] (none, none)
      (some (canonical key), none) :=
    takes_message rfl rfl fun b hb => (hkey b hb).bind (yields_pure _)
  have hsecond : Takes P .pair (pairArms dec) [.message 2 [valueNode P value]]
      (some (canonical key), none) (some (canonical key), some (canonical value)) :=
    takes_message rfl rfl fun b hb => (hvalue b hb).bind (yields_pure _)
  exact ((hfirst.append hsecond).readMessage hreads).bind (yields_pure _)

theorem takes_dict (h : ∀ c ∈ pairObjects pairs, GivesBack P dec c) (s : List (Object × Object)) :
    Takes P .dict (dictArms P dec) (dictNodes P pairs) s (s ++ canonicalPairs pairs) := by
  induction pairs generalizing s with
  | nil =>
    rw [dictNodes, canonicalPairs, List.append_nil]
    exact takes_nil s
  | cons pair rest ih =>
    obtain ⟨key, value⟩ := pair
    obtain ⟨hkey, hvalue, hrest⟩ := forall_pairObjects.mp h
    have hpair : Takes P .dict (dictArms P dec)
        [.message 1 [.message 1 [valueNode P key], .message 2 [valueNode P value]]] s
        (s ++ [(canonical key, canonical value)]) :=
      takes_message rfl rfl fun b hb => (yields_decodePair hkey hvalue hb).bind (yields_pure _)
    have hall := hpair.append (ih hrest (s ++ [(canonical key, canonical value)]))
    rwa [List.append_assoc] at hall

theorem yields_decodeDict (h : ∀ c ∈ pairObjects pairs, GivesBack P dec c)
    (hreads : Reads P schema .dict b (dictNodes P pairs)) :
    Yields (decodeDict P dec b) (canonicalPairs pairs) := by
  have hread := (takes_dict h []).readMessage hreads
  rwa [List.nil_append] at hread

theorem length_canonicalPairs (pairs : List (Object × Object)) :
    (canonicalPairs pairs).length = pairs.length := by
  induction pairs with
  | nil => rfl
  | cons pair rest ih => rw [canonicalPairs, List.length_cons, List.length_cons, ih]

theorem yields_decodeNamedTuple {typeName : GoString} {fieldNames : List GoString}
    (h : ∀ c ∈ items, GivesBack P dec c)
    (hreads : Reads P schema .namedTuple b
      (leaves (nameFields typeName fieldNames) ++ itemNodes P 3 items)) :
    Yields (decodeNamedTuple P dec b) (.namedTuple typeName fieldNames (canonicalItems items)) := by
  have hnames : Takes P .namedTuple (namedTupleArms dec) (leaves (nameFields typeName fieldNames))
      ([], [], []) (typeName, fieldNames, []) := by
    refine takes_leaves ?_
    rw [nameFields, takeFields_append, take_stringFields _ rfl rfl, pure_bind,
      take_repeated _ rfl, foldl_names, List.nil_append]
  have hitems : Takes P .namedTuple (namedTupleArms dec) (itemNodes P 3 items)
      (typeName, fieldNames, []) _ := takes_items rfl rfl h _
  have hread := (hnames.append hitems).readMessage hreads
  rw [foldl_values, List.nil_append] at hread
  exact hread.bind (yields_pure _)

variable {info : TypeInfo} {attrs : Option (List (Object × Object))} {c : Object}

theorem takes_typeInfo (hid : info.id ≠ [] → ∃ raw, parseUUID info.id = .ok raw) :
    Takes P .type (typeArms P dec) (typeInfoNodes info) {}
      { info := canonicalInfo info, hasID := decide (info.id ≠ []) } := by
  have hname : Takes P .type (typeArms P dec) (leaves (stringFields 1 info.name)) {}
      { info := ⟨info.name, [], 0, false⟩ } := by
    refine takes_leaves ?_
    rw [take_stringFields _ rfl rfl]
  have huuid : Takes P .type (typeArms P dec)
      (if info.id ≠ [] then [uuidNode 2 info.id] else []) { info := ⟨info.name, [], 0, false⟩ }
      { info := ⟨info.name, lower info.id, 0, false⟩, hasID := decide (info.id ≠ []) } := by
    by_cases hempty : info.id = []
    · simp only [hempty, ne_eq, not_true_eq_false, if_false, decide_false]
      exact takes_nil _
    · obtain ⟨raw, hraw⟩ := hid hempty
      simp only [hempty, ne_eq, not_false_eq_true, if_true, decide_true]
      exact takes_message rfl rfl fun b hb => (yields_decodeUUID hraw hb).bind (yields_pure _)
  have horigin : Takes P .type (typeArms P dec) (leaves (uintFields 3 info.origin.toUInt64))
      { info := ⟨info.name, lower info.id, 0, false⟩, hasID := decide (info.id ≠ []) }
      { info := ⟨info.name, lower info.id, info.origin, false⟩,
        hasID := decide (info.id ≠ []) } := by
    refine takes_leaves ?_
    rw [take_uintFields _ rfl rfl, UInt8.toUInt8_toUInt64]
  have hdataclass : Takes P .type (typeArms P dec) (leaves (boolFields 4 info.isDataclass))
      { info := ⟨info.name, lower info.id, info.origin, false⟩, hasID := decide (info.id ≠ []) }
      { info := canonicalInfo info, hasID := decide (info.id ≠ []) } := by
    refine takes_leaves ?_
    rw [take_boolFields _ rfl rfl, canonicalInfo]
    cases info.isDataclass <;> rfl
  exact ((hname.append huuid).append horigin).append hdataclass

theorem yields_decodeType (hid : info.id ≠ [] → ∃ raw, parseUUID info.id = .ok raw)
    (horigin : validateOrigin info.origin (decide (info.id ≠ [])) = .ok ())
    (h : ∀ c ∈ pairObjects (attrs.getD []), GivesBack P dec c)
    (hreads : Reads P schema .type b (typeNodes P info attrs)) :
    Yields (decodeType P dec b) (canonicalInfo info, canonicalAttrs attrs) := by
  have hread : Yields (readMessage P (typeArms P dec) b {})
      ⟨canonicalInfo info, decide (info.id ≠ []), canonicalAttrs attrs⟩ := by
    have hinfo : Takes P .type (typeArms P dec) (typeInfoNodes info) {} _ := takes_typeInfo hid
    refine Takes.readMessage ?_ hreads
    cases attrs with
    | none =>
      simp only [typeNodes, canonicalAttrs]
      exact hinfo
    | some pairs =>
      simp only [typeNodes, canonicalAttrs]
      refine hinfo.append ?_
      split
      · rename_i hpos
        refine takes_message rfl rfl fun b hb => (yields_decodeDict h hb).bind ?_
        rw [if_pos (by rwa [length_canonicalPairs])]
        exact yields_pure _
      · exact takes_nil _
  exact hread.bind ((yields_ensure horigin).bind (yields_pure _))

theorem yields_decodeInstance {pointer : Bool} {id : GoString}
    {typeAttrs : Option (List (Object × Object))}
    (hencodable : Encodable (.classInstance pointer info typeAttrs id attrs))
    (hallowed : Allowed (.classInstance pointer info typeAttrs id attrs))
    (hbelow : ∀ c ∈ pairObjects (typeAttrs.getD []), GivesBack P decBelow c)
    (h : ∀ c ∈ pairObjects (attrs.getD []), GivesBack P dec c)
    (hreads : Reads P schema .classInstance b
      [.message 1 (typeNodes P info typeAttrs), uuidNode 2 id,
        .message 3 (dictNodes P (attrs.getD []))]) :
    Yields (decodeInstance P dec decBelow b)
      (canonical (.classInstance pointer info typeAttrs id attrs)) := by
  obtain ⟨htypeid, raw, hraw⟩ := hencodable
  obtain ⟨horigin, hbuiltin⟩ := hallowed
  have htype : Takes P .classInstance (instanceArms P dec decBelow)
      [.message 1 (typeNodes P info typeAttrs)] {}
      { type := some (canonicalInfo info, canonicalAttrs typeAttrs) } :=
    takes_message rfl rfl fun b hb =>
      (yields_decodeType htypeid horigin hbelow hb).bind (yields_pure _)
  have hid : Takes P .classInstance (instanceArms P dec decBelow) [uuidNode 2 id]
      { type := some (canonicalInfo info, canonicalAttrs typeAttrs) }
      { type := some (canonicalInfo info, canonicalAttrs typeAttrs), id := some (lower id) } :=
    takes_message rfl rfl fun b hb => (yields_decodeUUID hraw hb).bind (yields_pure _)
  have hattrs : Takes P .classInstance (instanceArms P dec decBelow)
      [.message 3 (dictNodes P (attrs.getD []))]
      { type := some (canonicalInfo info, canonicalAttrs typeAttrs), id := some (lower id) }
      { type := some (canonicalInfo info, canonicalAttrs typeAttrs), id := some (lower id),
        attrs := canonicalAttrs attrs } := by
    refine takes_message rfl rfl fun b hb => (yields_decodeDict h hb).bind ?_
    rw [length_canonicalPairs]
    cases attrs with
    | none => exact yields_pure _
    | some pairs =>
      simp only [Option.getD_some, canonicalAttrs]
      split <;> exact yields_pure _
  refine (((htype.append hid).append hattrs).readMessage hreads).bind ?_
  simp only [canonical]
  rw [if_neg (show (canonicalInfo info).origin ≠ originBuiltin from hbuiltin)]
  exact yields_pure _

/-! ### Values that are too deep -/

theorem refusesNodes_items {g : Bytes → σ → Object → σ}
    (hmessage : subMessage t num = some .montyObject)
    (harm : arms num = .bytes fun b s => dec b >>= fun v => pure (g b s v)) (hmem : c ∈ items)
    (h : TurnsDown P dec c) : RefusesNodes P t arms (itemNodes P num items) := by
  have hnode : Node.message num [valueNode P c] ∈ itemNodes P num items := by
    induction items with
    | nil => cases hmem
    | cons item rest ih =>
      rcases List.mem_cons.mp hmem with rfl | hmem
      · exact List.mem_cons_self
      · exact List.mem_cons_of_mem _ (ih hmem)
  exact refusesNodes_of_mem hnode hmessage harm fun b s hb => (h b hb).bind

theorem refuses_decodeDict (hmem : c ∈ pairObjects pairs) (h : TurnsDown P dec c)
    (hreads : Reads P schema .dict b (dictNodes P pairs)) : Refuses (decodeDict P dec b) := by
  obtain ⟨key, value, hnode, hc⟩ : ∃ key value,
      Node.message 1 [.message 1 [valueNode P key], .message 2 [valueNode P value]] ∈
        dictNodes P pairs ∧ (c = key ∨ c = value) := by
    clear hreads
    induction pairs with
    | nil => cases hmem
    | cons pair rest ih =>
      obtain ⟨key, value⟩ := pair
      simp only [pairObjects, List.flatMap_cons, List.cons_append, List.nil_append,
        List.mem_cons] at hmem
      rcases hmem with rfl | rfl | hmem
      · exact ⟨_, _, List.mem_cons_self, .inl rfl⟩
      · exact ⟨_, _, List.mem_cons_self, .inr rfl⟩
      · obtain ⟨key', value', hnode, hc⟩ := ih hmem
        exact ⟨key', value', List.mem_cons_of_mem _ hnode, hc⟩
  refine RefusesNodes.readMessage (refusesNodes_of_mem hnode rfl rfl fun b s hb => ?_) hreads
  refine Refuses.bind (Refuses.bind (RefusesNodes.readMessage ?_ hb))
  rcases hc with rfl | rfl
  · exact refusesNodes_of_mem List.mem_cons_self rfl rfl fun b s hb => (h b hb).bind
  · exact refusesNodes_of_mem (List.mem_cons_of_mem _ List.mem_cons_self) rfl rfl
      fun b s hb => (h b hb).bind

theorem refuses_decodeType (hmem : c ∈ pairObjects (attrs.getD [])) (h : TurnsDown P dec c)
    (hreads : Reads P schema .type b (typeNodes P info attrs)) :
    Refuses (decodeType P dec b) := by
  cases attrs with
  | none => cases hmem
  | some pairs =>
    have hpos : 0 < pairs.length := by
      cases pairs with
      | nil => cases hmem
      | cons pair rest => exact Nat.succ_pos _
    have hnode : Node.message 5 (dictNodes P pairs) ∈ typeNodes P info (some pairs) := by
      rw [typeNodes, if_pos hpos]
      exact List.mem_append_right _ List.mem_cons_self
    exact Refuses.bind (RefusesNodes.readMessage (refusesNodes_of_mem hnode rfl rfl
      fun b s hb => (refuses_decodeDict hmem h hb).bind) hreads)

end Containers

/-! ## All values -/

section Values

variable {dec decBelow : Bytes → DecodeM Object} {v out : Object} {node : Node} {room : ℕ}

theorem yields_decodeObject
    (h : Takes P .montyObject (valueArms P dec decBelow) [node] (.none, false) (out, true))
    (hreads : Reads P schema .montyObject b [node]) : Yields (decodeObject P dec decBelow b) out :=
  (yields_charge _).bind ((h.readMessage hreads).bind (yields_pure _))

theorem refuses_decodeObject (h : RefusesNodes P .montyObject (valueArms P dec decBelow) [node])
    (hreads : Reads P schema .montyObject b [node]) : Refuses (decodeObject P dec decBelow b) :=
  refuses_bind fun _ => (h.readMessage hreads).bind

theorem yields_charged (make : Bytes → Object) (b : Bytes) : Yields (charged make b) (make b) :=
  (yields_charge _).bind (yields_pure _)

theorem takes_valueMessage {num : ℕ} {t : MessageType} {nodes : List Node}
    {decodeKind : Bytes → DecodeM Object} (hmessage : subMessage .montyObject num = some t)
    (harm : valueArms P dec decBelow num = .bytes fun b _ => do pure (← decodeKind b, true))
    (h : ∀ b, Reads P schema t b nodes → Yields (decodeKind b) out) :
    Takes P .montyObject (valueArms P dec decBelow) [.message num nodes] (.none, false)
      (out, true) :=
  takes_message hmessage harm fun b hb => (h b hb).bind (yields_pure _)

theorem takes_int (x : GoInt) :
    Takes P .montyObject (valueArms P dec decBelow) [intNode P x.value] (.none, false)
      (canonical (.integer x), true) := by
  simp only [canonical]
  cases x.value with
  | none => exact takes_message rfl rfl fun b hb => yields_pure _
  | some n =>
    simp only [intNode]
    split
    · rename_i hfits
      refine takes_leaf ?_
      simp only [valueArms, Arm.take, P.zigZag, intValue, hfits, if_true]
      exact yields_pure _
    · exact takes_valueMessage rfl rfl fun b hb => yields_decodeBig hb

theorem givesBack_succ (hencodable : Encodable v) (hallowed : Allowed v)
    (hnesting : nesting v ≤ room)
    (ih : ∀ c ∈ v.children, ∀ room, nesting c < room → GivesBack P (decodeWithin P room) c) :
    GivesBack P (decodeWithin P (room + 1)) v := by
  intro b hreads
  rw [decodeWithin_succ]
  refine yields_decodeObject ?_ hreads
  clear hreads
  cases v with
  | none | ellipsis | notImplemented => exact takes_message rfl rfl fun b hb => yields_pure _
  | bool x =>
    refine takes_leaf ?_
    have hx : decide (P.encodeBool x ≠ 0) = x := by
      have hbool := P.encodeBool_ne_zero x
      cases x <;> simp_all
    simp only [valueArms, Arm.take, hx]
    exact yields_pure _
  | integer x => exact takes_int x
  | float32 x | float64 x => exact takes_leaf (yields_pure _)
  | str x => exact takes_leaf ((yields_charged .str x).bind (yields_pure (Object.str x, true)))
  | bytes x =>
    exact takes_leaf ((yields_charged .bytes x).bind (yields_pure (Object.bytes x, true)))
  | builtinFunction x | path x => exact takes_leaf (yields_pure _)
  | list items | tuple items | set items | frozenSet items =>
    have hitems := itemsNesting_le.mp hnesting
    exact takes_message rfl rfl fun b hb =>
      (yields_decodeObjectList (fun c hc => ih c hc room (hitems c hc)) hb).bind (yields_pure _)
  | namedTuple typeName fieldNames values =>
    have hitems := itemsNesting_le.mp hnesting
    exact takes_valueMessage rfl rfl fun b hb =>
      yields_decodeNamedTuple (fun c hc => ih c hc room (hitems c hc)) hb
  | dict pairs =>
    have hpairs := pairsNesting_le.mp hnesting
    exact takes_message rfl rfl fun b hb =>
      (yields_decodeDict (fun c hc => ih c hc room (hpairs c hc)) hb).bind (yields_pure _)
  | date x =>
    exact takes_valueMessage rfl rfl fun b hb =>
      ((takes_leaves (take_dateFields x)).readMessage hb).bind
        ((yields_ensure hallowed).bind (yields_pure _))
  | time x =>
    exact takes_valueMessage rfl rfl fun b hb =>
      ((takes_leaves (take_timeFields x)).readMessage hb).bind
        ((yields_ensure hallowed).bind (yields_pure _))
  | dateTime x =>
    exact takes_valueMessage rfl rfl fun b hb =>
      ((takes_leaves (take_dateTimeFields x)).readMessage hb).bind
        ((yields_ensure hallowed).bind (yields_pure _))
  | timeDelta x =>
    exact takes_valueMessage rfl rfl fun b hb =>
      ((takes_leaves (take_timeDeltaFields x)).readMessage hb).bind
        ((yields_ensure hallowed).bind (yields_pure _))
  | timeZone x =>
    exact takes_message rfl rfl fun b hb =>
      (((takes_leaves (take_timeZoneFields x)).readMessage hb).bind
        ((yields_ensure hallowed).bind (yields_pure x))).bind (yields_pure _)
  | exception x =>
    exact takes_valueMessage rfl rfl fun b hb =>
      ((takes_leaves (take_exceptionValueFields x)).readMessage hb).bind (yields_pure _)
  | type info attrs =>
    have hattrs := attrsNesting_le.mp hnesting
    exact takes_message rfl rfl fun b hb =>
      (yields_decodeType hencodable hallowed (fun c hc => ih c hc room (hattrs c hc)) hb).bind
        (yields_pure _)
  | classInstance pointer info typeAttrs id attrs =>
    rw [nesting, max_le_iff] at hnesting
    obtain ⟨htype, hattrs⟩ := hnesting
    rw [valueNode_classInstance]
    have htype := attrsNesting_le.mp htype
    have hattrs := attrsNesting_le.mp hattrs
    exact takes_valueMessage rfl rfl fun b hb =>
      yields_decodeInstance hencodable hallowed
        (fun c hc => ih c (List.mem_append_left _ hc) (room - 1) (by have := htype c hc; omega))
        (fun c hc => ih c (List.mem_append_right _ hc) room (hattrs c hc)) hb
  | function x =>
    exact takes_valueMessage rfl rfl fun b hb =>
      ((takes_leaves (take_functionFields x)).readMessage hb).bind (yields_pure _)
  | fileHandle pointer x =>
    exact takes_valueMessage rfl rfl fun b hb =>
      ((takes_leaves (take_fileHandleFields x)).readMessage hb).bind
        ((yields_ensure hallowed).bind (yields_pure _))
  | cycle x | other x => exact hencodable.elim

theorem turnsDown_level {level : ℕ} {c : Object} (hc : (level, c) ∈ levels v)
    (h : TurnsDown P (decodeWithin P (room + 1 - level)) c) :
    TurnsDown P (decodeWithin P (room + 1)) v := by
  intro b hreads
  rw [decodeWithin_succ]
  refine refuses_decodeObject ?_ hreads
  clear hreads
  cases v with
  | list items | tuple items | set items | frozenSet items =>
    obtain ⟨_, hc, ⟨⟩⟩ := List.mem_map.mp hc
    exact refusesNodes_of_mem List.mem_cons_self rfl rfl fun b s hb =>
      (RefusesNodes.readMessage (refusesNodes_items rfl rfl hc h) hb).bind
  | namedTuple typeName fieldNames values =>
    obtain ⟨_, hc, ⟨⟩⟩ := List.mem_map.mp hc
    have hitems : RefusesNodes P .namedTuple (namedTupleArms (decodeWithin P room))
        (itemNodes P 3 values) := refusesNodes_items rfl rfl hc h
    exact refusesNodes_of_mem List.mem_cons_self rfl rfl fun b s hb =>
      Refuses.bind (Refuses.bind (RefusesNodes.readMessage hitems.append_left hb))
  | dict pairs =>
    obtain ⟨_, hc, ⟨⟩⟩ := List.mem_map.mp hc
    exact refusesNodes_of_mem List.mem_cons_self rfl rfl fun b s hb =>
      (refuses_decodeDict hc h hb).bind
  | type info attrs =>
    obtain ⟨_, hc, ⟨⟩⟩ := List.mem_map.mp hc
    exact refusesNodes_of_mem List.mem_cons_self rfl rfl fun b s hb =>
      (refuses_decodeType hc h hb).bind
  | classInstance pointer info typeAttrs id attrs =>
    rw [valueNode_classInstance]
    refine refusesNodes_of_mem List.mem_cons_self rfl rfl fun b s hb =>
      Refuses.bind (Refuses.bind (RefusesNodes.readMessage ?_ hb))
    rcases List.mem_append.mp hc with hc | hc
    · obtain ⟨_, hc, ⟨⟩⟩ := List.mem_map.mp hc
      exact refusesNodes_of_mem List.mem_cons_self rfl rfl fun b s hb =>
        (refuses_decodeType hc h hb).bind
    · obtain ⟨_, hc, ⟨⟩⟩ := List.mem_map.mp hc
      exact refusesNodes_of_mem (List.mem_cons_of_mem _ (List.mem_cons_of_mem _
        List.mem_cons_self)) rfl rfl fun b s hb => (refuses_decodeDict hc h hb).bind
  | _ => cases hc

end Values

/-! ## The round trip -/

section RoundTrip

variable {v : Object} {out : Bytes}

theorem givesBack {room : ℕ} (hencodable : v.All Encodable) (hallowed : v.All Allowed)
    (hnesting : nesting v < room) : GivesBack P (decodeWithin P room) v := by
  induction v using Object.induction generalizing room with
  | h v ih =>
    obtain ⟨hencodable, hencodables⟩ := hencodable
    obtain ⟨hallowed, halloweds⟩ := hallowed
    obtain ⟨room, rfl⟩ : ∃ below, room = below + 1 := ⟨room - 1, by omega⟩
    exact givesBack_succ hencodable hallowed (by omega)
      fun c hc room => ih c hc (hencodables c hc) (halloweds c hc)

theorem turnsDown {room : ℕ} (hnesting : room ≤ nesting v) :
    TurnsDown P (decodeWithin P room) v := by
  induction v using Object.induction generalizing room with
  | h v ih =>
    cases room with
    | zero => exact fun b _ => refuses_fail _
    | succ room =>
      obtain ⟨level, c, hc, hdeep⟩ := exists_level_of_nesting hnesting
      exact turnsDown_level hc (ih c (mem_children_of_level hc) (by omega))

/-- **The decoder gives an encoded value back** in canonical form, under every budget that is
large enough, exactly when the value does not nest deeper than the decoder goes.  The depth check
keeps a value within that limit, except for the attributes of a builtin type, which it does not
look at. -/
theorem decodeValue_appendValue_iff (hencode : appendValue P [] v = .ok b)
    (hlen : b.length < 2 ^ 63) (hallowed : v.All Allowed) (hdepth : exceedsMaxDepth v = false) :
    ((∃ enough : ℤ, ∀ n, enough ≤ n → ∃ left, decodeValue P b 0 (some n) = .ok (canonical v) left) ↔
      nesting v ≤ maxDecodeNesting) ∧
    (v.All NoBuiltinAttrs → nesting v ≤ maxDecodeNesting) := by
  have hreads : Reads P schema .montyObject b [valueNode P v] := (encodes_value v).body hencode hlen
  refine ⟨⟨fun ⟨enough, hok⟩ => ?_, fun hnesting => ?_⟩, fun hbuiltin => ?_⟩
  · by_contra hdeep
    obtain ⟨left, hok⟩ := hok enough le_rfl
    exact turnsDown (Nat.lt_of_not_le hdeep) b hreads _ _ _ hok
  · obtain ⟨-, ⟨cost, henough⟩, -⟩ :=
      givesBack (encodable_of_appendValue hencode) hallowed (Nat.lt_succ_of_le hnesting) b hreads
    exact ⟨cost, fun n hn => ⟨_, henough n hn⟩⟩
  · have hhalf := nesting_of_depthExceeds hbuiltin _ hdepth
    simp only [maxProtoValueDepth, prostRecursionLimit, frameWrapperDepth, maxDecodeNesting] at *
    omega

/-- A list of a boolean. -/
theorem decodeValue_appendValue_iff_listTrue :
    appendValue standard [] (.list [.bool true]) = .ok [90, 4, 10, 2, 32, 1] ∧
      ∃ enough : ℤ, ∀ n, enough ≤ n →
        ∃ left, decodeValue standard [90, 4, 10, 2, 32, 1] 0 (some n) =
          .ok (.list [.bool true]) left := by
  have hencode : appendValue standard [] (.list [.bool true]) = .ok [90, 4, 10, 2, 32, 1] := rfl
  have hallowed : (Object.list [.bool true]).All Allowed := by
    refine ⟨trivial, fun c hc => ?_⟩
    rw [List.mem_singleton.mp hc]
    exact ⟨trivial, fun c hc => nomatch hc⟩
  exact ⟨hencode, (decodeValue_appendValue_iff hencode (by decide) hallowed rfl).1.mpr (by decide)⟩

/-! ### Attributes of a builtin type -/

/-- A builtin type with a deep attribute. -/
def deepType : Object := .type ⟨[], [], originBuiltin, false⟩ (some [(.none, nestedLists 100)])

theorem nestedLists_allowed (n : ℕ) : (nestedLists n).All Allowed := by
  induction n with
  | zero => exact ⟨trivial, fun c hc => nomatch hc⟩
  | succ n ih =>
    refine ⟨trivial, fun c hc => ?_⟩
    rw [List.mem_singleton.mp hc]
    exact ih

theorem deepType_allowed : deepType.All Allowed := by
  refine ⟨rfl, forall_pairObjects.mpr
    ⟨⟨trivial, fun c hc => nomatch hc⟩, nestedLists_allowed _, ?_⟩⟩
  intro c hc
  cases hc

set_option maxRecDepth 10000 in
theorem deepType_encodes : (match appendValue standard [] deepType with
      | .ok b => decide (b.length < 2 ^ 63)
      | .error _ => false) = true := by
  decide +kernel

set_option maxRecDepth 10000 in
/-- The depth check lets the type pass, and the decoder refuses it under every budget. -/
theorem decodeValue_refuses_deepType : exceedsMaxDepth deepType = false ∧ deepType.All Allowed ∧
      ∃ b, appendValue standard [] deepType = .ok b ∧ b.length < 2 ^ 63 ∧
        ∀ budget a left, decodeValue standard b 0 budget ≠ .ok a left := by
  refine ⟨by decide +kernel, deepType_allowed, ?_⟩
  have hencodes := deepType_encodes
  cases hencode : appendValue standard [] deepType with
  | error e =>
    rw [hencode] at hencodes
    cases hencodes
  | ok b =>
    rw [hencode] at hencodes
    have hlen : b.length < 2 ^ 63 := of_decide_eq_true hencodes
    have hdeep : maxDecodeNesting + 1 ≤ nesting deepType := by decide +kernel
    exact ⟨b, rfl, hlen, turnsDown hdeep b ((encodes_value deepType).body hencode hlen)⟩

end RoundTrip

end Montygo.Wire
