import Montygo.Wire.Uuid

/-!
# Values in canonical form

The form in which the decoder gives a value back: integers as `int64` when they fit, uuids in
lower case, empty attributes as none.  A value can make the way to the decoder when the encoder
takes it apart (`Encodable`), its parts pass the decoder's checks (`Allowed`), and it does not
nest deeper than the decoder goes (`nesting`).

The depth check of the sender keeps values within the last limit (`nesting_of_depthExceeds`), as
far as it looks: it does not look at the attributes of a builtin type.
-/

namespace Montygo.Wire

open Go Value WireFormat Outcome

/-! ## Canonical values -/

/-- A type with its id in lower case. -/
def canonicalInfo (info : TypeInfo) : TypeInfo := { info with id := lower info.id }

mutual

/-- The form in which the decoder gives a value back. -/
def canonical : Object → Object
  | .integer x =>
    match x.value with
    | some n => .integer (intValue n)
    | none => .none
  | .float32 x => .float64 (widen x)
  | .list items => .list (canonicalItems items)
  | .tuple items => .tuple (canonicalItems items)
  | .namedTuple typeName fieldNames values =>
    .namedTuple typeName fieldNames (canonicalItems values)
  | .dict pairs => .dict (canonicalPairs pairs)
  | .set items => .set (canonicalItems items)
  | .frozenSet items => .frozenSet (canonicalItems items)
  | .type info attrs => .type (canonicalInfo info) (canonicalAttrs attrs)
  | .classInstance _ info typeAttrs id attrs =>
    .classInstance false (canonicalInfo info) (canonicalAttrs typeAttrs) (lower id)
      (canonicalAttrs attrs)
  | .fileHandle _ x => .fileHandle true x
  | .none => .none
  | .ellipsis => .ellipsis
  | .notImplemented => .notImplemented
  | .bool x => .bool x
  | .float64 x => .float64 x
  | .str x => .str x
  | .bytes x => .bytes x
  | .date x => .date x
  | .time x => .time x
  | .dateTime x => .dateTime x
  | .timeDelta x => .timeDelta x
  | .timeZone x => .timeZone x
  | .exception x => .exception x
  | .function x => .function x
  | .builtinFunction name => .builtinFunction name
  | .path p => .path p
  | .cycle x => .cycle x
  | .other goType => .other goType

def canonicalItems : List Object → List Object
  | [] => []
  | item :: rest => canonical item :: canonicalItems rest

def canonicalPairs : List (Object × Object) → List (Object × Object)
  | [] => []
  | (key, value) :: rest => (canonical key, canonical value) :: canonicalPairs rest

/-- Empty attributes are none. -/
def canonicalAttrs : Option (List (Object × Object)) → Option (List (Object × Object))
  | some pairs => if 0 < pairs.length then some (canonicalPairs pairs) else none
  | none => none

end

/-! ## What the decoder checks -/

/-- What the encoder needs of a value, apart from the values in it: it knows the type, and ids
are uuids. -/
def Encodable : Object → Prop
  | .cycle _ | .other _ => False
  | .type info _ => info.id ≠ [] → ∃ raw, parseUUID info.id = .ok raw
  | .classInstance _ info _ id _ =>
    (info.id ≠ [] → ∃ raw, parseUUID info.id = .ok raw) ∧ ∃ raw, parseUUID id = .ok raw
  | _ => True

/-- The decoder's checks of a value, apart from the values in it. -/
def Allowed : Object → Prop
  | .date x => validateDate x.year x.month x.day = .ok ()
  | .time x => validateTime x = .ok ()
  | .dateTime x => validateDateTime x = .ok ()
  | .timeDelta x => validateTimeDelta x = .ok ()
  | .timeZone x => validateTimeZone x = .ok ()
  | .fileHandle _ x => validateFileHandle x = .ok ()
  | .type info _ => validateOrigin info.origin (decide (info.id ≠ [])) = .ok ()
  | .classInstance _ info _ _ _ =>
    validateOrigin info.origin (decide (info.id ≠ [])) = .ok () ∧ info.origin ≠ originBuiltin
  | _ => True

/-! ## Nesting -/

mutual

/-- How many levels the decoder goes down for the values in a value. -/
def nesting : Object → ℕ
  | .list items | .tuple items | .set items | .frozenSet items | .namedTuple _ _ items =>
    itemsNesting items
  | .dict pairs => pairsNesting 1 pairs
  | .type _ attrs => attrsNesting 1 attrs
  | .classInstance _ _ typeAttrs _ attrs => max (attrsNesting 2 typeAttrs) (attrsNesting 1 attrs)
  | .none | .ellipsis | .notImplemented | .bool _ | .integer _ | .float32 _ | .float64 _ | .str _
  | .bytes _ | .date _ | .time _ | .dateTime _ | .timeDelta _ | .timeZone _ | .exception _
  | .function _ | .builtinFunction _ | .path _ | .fileHandle _ _ | .cycle _ | .other _ => 0

def itemsNesting : List Object → ℕ
  | [] => 0
  | item :: rest => max (nesting item + 1) (itemsNesting rest)

def pairsNesting (level : ℕ) : List (Object × Object) → ℕ
  | [] => 0
  | (key, value) :: rest =>
    max (max (nesting key + level) (nesting value + level)) (pairsNesting level rest)

def attrsNesting (level : ℕ) : Option (List (Object × Object)) → ℕ
  | some pairs => pairsNesting level pairs
  | none => 0

end

theorem itemsNesting_le {items : List Object} {n : ℕ} :
    itemsNesting items ≤ n ↔ ∀ c ∈ items, nesting c + 1 ≤ n := by
  induction items with
  | nil => simp [itemsNesting]
  | cons item rest ih => rw [itemsNesting, max_le_iff, ih, List.forall_mem_cons]

variable {level : ℕ} {pairs : List (Object × Object)} {attrs : Option (List (Object × Object))}

theorem pairsNesting_le {n : ℕ} :
    pairsNesting level pairs ≤ n ↔ ∀ c ∈ pairObjects pairs, nesting c + level ≤ n := by
  induction pairs with
  | nil => simp [pairsNesting, pairObjects]
  | cons pair rest ih =>
    rw [pairsNesting, max_le_iff, max_le_iff, ih, forall_pairObjects, and_assoc]

theorem attrsNesting_le {n : ℕ} :
    attrsNesting level attrs ≤ n ↔ ∀ c ∈ pairObjects (attrs.getD []), nesting c + level ≤ n := by
  cases attrs with
  | none => simp [attrsNesting, pairObjects]
  | some pairs => exact pairsNesting_le

/-- The values in a value, with how many levels the decoder goes down for each. -/
def levels : Object → List (ℕ × Object)
  | .classInstance _ _ typeAttrs _ attrs =>
    (pairObjects (typeAttrs.getD [])).map (Prod.mk 2) ++
      (pairObjects (attrs.getD [])).map (Prod.mk 1)
  | v => v.children.map (Prod.mk 1)

variable {v : Object}

theorem mem_children_of_level {c : Object} (h : (level, c) ∈ levels v) : c ∈ v.children := by
  cases v with
  | classInstance pointer info typeAttrs id attrs =>
    rcases List.mem_append.mp h with h | h
    · obtain ⟨_, hc, ⟨⟩⟩ := List.mem_map.mp h
      exact List.mem_append_left _ hc
    · obtain ⟨_, hc, ⟨⟩⟩ := List.mem_map.mp h
      exact List.mem_append_right _ hc
  | _ =>
    obtain ⟨_, hc, ⟨⟩⟩ := List.mem_map.mp h
    exact hc

theorem exists_level_of_nesting {room : ℕ} (h : room < nesting v) :
    ∃ level c, (level, c) ∈ levels v ∧ room + 1 - level ≤ nesting c := by
  rw [← not_le] at h
  cases v with
  | list items | tuple items | set items | frozenSet items | namedTuple typeName names items =>
    simp only [nesting, itemsNesting_le, not_forall] at h
    obtain ⟨c, hc, hdeep⟩ := h
    exact ⟨1, c, List.mem_map_of_mem hc, by omega⟩
  | dict pairs =>
    simp only [nesting, pairsNesting_le, not_forall] at h
    obtain ⟨c, hc, hdeep⟩ := h
    exact ⟨1, c, List.mem_map_of_mem hc, by omega⟩
  | type info attrs =>
    simp only [nesting, attrsNesting_le, not_forall] at h
    obtain ⟨c, hc, hdeep⟩ := h
    exact ⟨1, c, List.mem_map_of_mem hc, by omega⟩
  | classInstance pointer info typeAttrs id attrs =>
    rw [nesting, max_le_iff, not_and_or] at h
    simp only [attrsNesting_le, not_forall] at h
    rcases h with ⟨c, hc, hdeep⟩ | ⟨c, hc, hdeep⟩
    · exact ⟨2, c, List.mem_append_left _ (List.mem_map_of_mem hc), by omega⟩
    · exact ⟨1, c, List.mem_append_right _ (List.mem_map_of_mem hc), by omega⟩
  | _ => exact absurd (Nat.zero_le _) h

/-! ## What is encoded is encodable -/

section Encodable

variable {P : Protowire} {b out : Bytes} {v : Object}

theorem encodes_of_appendItems {num : ℕ} {items : List Object}
    (h : appendItems P num b items = .ok out) :
    ∀ c ∈ items, ∃ enc, appendValue P [] c = .ok enc := by
  induction items generalizing b with
  | nil => simp
  | cons item rest ih =>
    rw [appendItems, bind_eq_ok] at h
    obtain ⟨enc, hitem, hrest⟩ := h
    exact List.forall_mem_cons.mpr ⟨⟨enc, hitem⟩, ih hrest⟩

theorem encodes_of_appendDictBody (h : appendDictBody P b pairs = .ok out) :
    ∀ c ∈ pairObjects pairs, ∃ enc, appendValue P [] c = .ok enc := by
  induction pairs generalizing b with
  | nil => simp [pairObjects]
  | cons pair rest ih =>
    obtain ⟨key, value⟩ := pair
    simp only [appendDictBody, bind_eq_ok] at h
    obtain ⟨keyEnc, hkey, valueEnc, hvalue, hrest⟩ := h
    exact forall_pairObjects.mpr ⟨⟨keyEnc, hkey⟩, ⟨valueEnc, hvalue⟩, ih hrest⟩

theorem parses_of_appendUUIDMessage {num : ℕ} {id : GoString}
    (h : appendUUIDMessage P b num id = .ok out) : ∃ raw, parseUUID id = .ok raw := by
  obtain ⟨raw, hraw, -⟩ := bind_eq_ok.mp h
  exact ⟨raw, hraw⟩

theorem parses_of_appendTypeInfo {info : TypeInfo} (h : appendTypeInfo P b info = .ok out) :
    info.id ≠ [] → ∃ raw, parseUUID info.id = .ok raw := by
  intro hid
  simp only [appendTypeInfo, hid, ne_eq, not_false_eq_true, if_true, bind_eq_ok] at h
  obtain ⟨b', huuid, -⟩ := h
  exact parses_of_appendUUIDMessage huuid

theorem encodes_of_appendTypeBody {info : TypeInfo} {attrs : Option (List (Object × Object))}
    (h : appendTypeBody P b info attrs = .ok out) :
    (info.id ≠ [] → ∃ raw, parseUUID info.id = .ok raw) ∧
      ∀ c ∈ pairObjects (attrs.getD []), ∃ enc, appendValue P [] c = .ok enc := by
  cases attrs with
  | none =>
    rw [appendTypeBody] at h
    exact ⟨parses_of_appendTypeInfo h, by simp [pairObjects]⟩
  | some pairs =>
    rw [appendTypeBody, bind_eq_ok] at h
    obtain ⟨b', hinfo, hattrs⟩ := h
    refine ⟨parses_of_appendTypeInfo hinfo, ?_⟩
    split at hattrs
    · obtain ⟨enc, hdict, -⟩ := bind_eq_ok.mp hattrs
      exact encodes_of_appendDictBody hdict
    · rename_i hempty
      rw [Nat.not_lt, Nat.le_zero, List.length_eq_zero_iff] at hempty
      simp [hempty, pairObjects]

theorem encodable_of_appendValue (h : appendValue P b v = .ok out) : v.All Encodable := by
  induction v using Object.induction generalizing b out with
  | h v ih =>
    have hinside : (∀ c ∈ v.children, ∃ enc, appendValue P [] c = .ok enc) →
        ∀ c ∈ v.children, c.All Encodable := by
      intro hchildren c hc
      obtain ⟨enc, henc⟩ := hchildren c hc
      exact ih c hc henc
    cases v with
    | list items | tuple items | set items | frozenSet items
    | namedTuple typeName fieldNames values =>
      rw [appendValue, bind_eq_ok] at h
      obtain ⟨body, hitems, -⟩ := h
      exact ⟨trivial, hinside (encodes_of_appendItems hitems)⟩
    | dict pairs =>
      rw [appendValue, bind_eq_ok] at h
      obtain ⟨body, hpairs, -⟩ := h
      exact ⟨trivial, hinside (encodes_of_appendDictBody hpairs)⟩
    | type info attrs =>
      rw [appendValue, bind_eq_ok] at h
      obtain ⟨body, hbody, -⟩ := h
      obtain ⟨hid, hattrs⟩ := encodes_of_appendTypeBody hbody
      exact ⟨hid, hinside hattrs⟩
    | classInstance pointer info typeAttrs id attrs =>
      obtain ⟨typ, htype, body, hid, hattrs⟩ : ∃ typ, appendTypeBody P [] info typeAttrs = .ok typ ∧
            ∃ body, appendUUIDMessage P (appendMessage P [] 1 typ) 2 id = .ok body ∧
              ∃ enc, appendDictBody P [] (attrs.getD []) = .ok enc := by
        cases attrs with
        | none =>
          simp only [appendValue, bind_eq_ok] at h
          obtain ⟨typ, htype, body, hid, -⟩ := h
          exact ⟨typ, htype, body, hid, [], rfl⟩
        | some pairs =>
          simp only [appendValue, bind_eq_ok] at h
          obtain ⟨typ, htype, body, hid, enc, hattrs, -⟩ := h
          exact ⟨typ, htype, body, hid, enc, hattrs⟩
      obtain ⟨enc, hattrs⟩ := hattrs
      obtain ⟨htypeid, htypeattrs⟩ := encodes_of_appendTypeBody htype
      refine ⟨⟨htypeid, parses_of_appendUUIDMessage hid⟩, hinside fun c hc => ?_⟩
      rcases List.mem_append.mp hc with hc | hc
      · exact htypeattrs c hc
      · exact encodes_of_appendDictBody hattrs c hc
    | cycle x | other x =>
      rw [appendValue] at h
      cases h
    | _ => exact ⟨trivial, fun c hc => absurd hc List.not_mem_nil⟩

end Encodable

/-! ## The depth check -/

/-- A builtin type carries no attributes. -/
def NoBuiltinAttrs : Object → Prop
  | .type info attrs => info.origin = originBuiltin → attrs.getD [] = []
  | _ => True

theorem nesting_of_pairsExceed {budget cost : ℕ} (hcost : 2 * level ≤ cost) (hle : cost ≤ budget)
    (hpairs : pairsExceed pairs (budget - cost) = false)
    (ih : ∀ c ∈ pairObjects pairs, ∀ budget, depthExceeds c budget = false →
      2 * nesting c ≤ budget) :
    pairsNesting level pairs ≤ budget / 2 := by
  refine pairsNesting_le.mpr fun c hc => ?_
  have := ih c hc _ (pairsExceed_eq_false.mp hpairs c hc)
  omega

theorem nesting_of_classTypeExceeds {budget cost : ℕ} (hcost : 2 * level ≤ cost + typeAttrsCost)
    (hle : cost ≤ budget) (hattrs : classTypeExceeds attrs (budget - cost) = false)
    (ih : ∀ c ∈ pairObjects (attrs.getD []), ∀ budget, depthExceeds c budget = false →
      2 * nesting c ≤ budget) :
    attrsNesting level attrs ≤ budget / 2 := by
  cases attrs with
  | none => exact Nat.zero_le _
  | some pairs =>
    cases pairs with
    | nil => exact Nat.zero_le _
    | cons pair rest =>
      simp only [classTypeExceeds, List.length_cons, Nat.succ_pos, decide_true, Bool.true_and,
        Bool.or_eq_false_iff, decide_eq_false_iff_not, Nat.sub_sub] at hattrs
      exact nesting_of_pairsExceed hcost (by omega) hattrs.2 ih

/-- **Every level costs the depth check at least two**, where it looks. -/
theorem nesting_of_depthExceeds (hbuiltin : v.All NoBuiltinAttrs) :
    ∀ budget, depthExceeds v budget = false → 2 * nesting v ≤ budget := by
  induction v using Object.induction with
  | h v ih =>
    obtain ⟨hbuiltin, hbuiltins⟩ := hbuiltin
    replace ih := fun c hc => ih c hc (hbuiltins c hc)
    intro budget hdepth
    suffices hhalf : nesting v ≤ budget / 2 by omega
    cases v with
    | list items | tuple items | set items | frozenSet items | namedTuple _ _ items =>
      rw [depthExceeds, Bool.or_eq_false_iff, decide_eq_false_iff_not] at hdepth
      obtain ⟨hle, hitems⟩ := hdepth
      refine itemsNesting_le.mpr fun c hc => ?_
      have := ih c hc _ (seqExceed_eq_false.mp hitems c hc)
      unfold listCost at *
      omega
    | dict pairs =>
      rw [depthExceeds, Bool.or_eq_false_iff, decide_eq_false_iff_not] at hdepth
      exact nesting_of_pairsExceed (by decide) (by omega) hdepth.2 ih
    | type info attrs =>
      rw [depthExceeds] at hdepth
      split at hdepth
      · rename_i horigin
        refine attrsNesting_le.mpr ?_
        rw [hbuiltin horigin]
        simp [pairObjects]
      · rw [Bool.or_eq_false_iff, decide_eq_false_iff_not] at hdepth
        exact nesting_of_classTypeExceeds (by decide) (by omega) hdepth.2 ih
    | classInstance pointer info typeAttrs id attrs =>
      obtain ⟨hle, htype, hle', hattrs⟩ := classInstance_of_depthExceeds hdepth
      rw [nesting, max_le_iff]
      constructor
      · exact nesting_of_classTypeExceeds (by decide) (by omega) htype
          fun c hc => ih c (List.mem_append_left _ hc)
      · refine attrsNesting_le.mpr (pairsNesting_le.mp ?_)
        exact nesting_of_pairsExceed (by decide) (by omega) hattrs
          fun c hc => ih c (List.mem_append_right _ hc)
    | _ => exact Nat.zero_le _

end Montygo.Wire
