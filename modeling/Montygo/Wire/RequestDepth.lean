import Montygo.Lib.WireStandard
import Montygo.Wire.Canonical
import Montygo.Wire.RequestTree

/-!
# How deep requests nest

A receiver counts the messages that nest below a request.  For a value that is `messageDepth`,
below the message of the value, and each kind of request wraps its values in a number of messages
of its own (`wrapperDepth`).  The depth check of the sender bounds `messageDepth` by
`MaxProtoValueDepth`, which leaves room for three wrappers; the results of futures have four.
-/

namespace Montygo.Wire

open Go Value WireFormat Protowire

/-! ## Values -/

/-- The uuid of a type is a message of its own. -/
def idDepth (level : ℕ) (id : GoString) : ℕ := if id ≠ [] then level else 0

mutual

/-- How many messages nest below the message of a value. -/
def messageDepth : Object → ℕ
  | .bool _ | .float32 _ | .float64 _ | .str _ | .bytes _ | .builtinFunction _ | .path _ => 0
  | .integer x =>
    match x.value with
    | some n => if isInt64 n then 0 else 1
    | none => 1
  | .none | .ellipsis | .notImplemented | .date _ | .time _ | .dateTime _ | .timeDelta _
  | .timeZone _ | .exception _ | .function _ | .fileHandle _ _ | .cycle _ | .other _ => 1
  | .list items | .tuple items | .set items | .frozenSet items | .namedTuple _ _ items =>
    max 1 (itemsDepth items)
  | .dict pairs => max 1 (pairsDepth 3 pairs)
  | .type info attrs => max (max 1 (idDepth 2 info.id)) (attrsDepth 2 attrs)
  | .classInstance _ info typeAttrs _ attrs =>
    max (max (max 2 (idDepth 3 info.id)) (attrsDepth 3 typeAttrs)) (instanceAttrsDepth attrs)

/-- The items of a list: below the list and the message of the item. -/
def itemsDepth : List Object → ℕ
  | [] => 0
  | item :: rest => max (2 + messageDepth item) (itemsDepth rest)

/-- The keys and values of pairs, at a level. -/
def pairsDepth (level : ℕ) : List (Object × Object) → ℕ
  | [] => 0
  | (key, value) :: rest =>
    max (max (level + messageDepth key) (level + messageDepth value)) (pairsDepth level rest)

/-- The attributes of a type, whose dict is at a level when there are any. -/
def attrsDepth (level : ℕ) : Option (List (Object × Object)) → ℕ
  | some pairs => if 0 < pairs.length then max level (pairsDepth (level + 2) pairs) else 0
  | none => 0

/-- The attributes of an instance, whose dict is always there. -/
def instanceAttrsDepth : Option (List (Object × Object)) → ℕ
  | some pairs => pairsDepth 4 pairs
  | none => 0

end

section Values

variable {P : Protowire} {level : ℕ} {items : List Object} {pairs : List (Object × Object)}
  {attrs : Option (List (Object × Object))} {v : Object}

theorem itemsDepth_le {n : ℕ} : itemsDepth items ≤ n ↔ ∀ c ∈ items, 2 + messageDepth c ≤ n := by
  induction items with
  | nil => simp [itemsDepth]
  | cons item rest ih => rw [itemsDepth, max_le_iff, ih, List.forall_mem_cons]

theorem pairsDepth_le {n : ℕ} :
    pairsDepth level pairs ≤ n ↔ ∀ c ∈ pairObjects pairs, level + messageDepth c ≤ n := by
  induction pairs with
  | nil => simp [pairsDepth, pairObjects]
  | cons pair rest ih =>
    rw [pairsDepth, max_le_iff, max_le_iff, ih, forall_pairObjects, and_assoc]

/-- The depth of the tree of a value is its depth. -/
def DepthOfTree (P : Protowire) (v : Object) : Prop := (valueNode P v).depth = messageDepth v

theorem depth_itemNodes (num : ℕ) (h : ∀ c ∈ items, DepthOfTree P c) :
    1 + nodesDepth (itemNodes P num items) = max 1 (itemsDepth items) := by
  induction items with
  | nil => rfl
  | cons item rest ih =>
    rw [List.forall_mem_cons] at h
    have hrest := ih h.2
    have hitem : (valueNode P item).depth = messageDepth item := h.1
    simp only [itemNodes, nodesDepth, Node.depth, itemsDepth, hitem]
    omega

theorem depth_dictNodes (h : ∀ c ∈ pairObjects pairs, DepthOfTree P c) :
    level + nodesDepth (dictNodes P pairs) = max level (pairsDepth (level + 2) pairs) := by
  induction pairs with
  | nil => simp [dictNodes, nodesDepth, pairsDepth]
  | cons pair rest ih =>
    obtain ⟨key, value⟩ := pair
    obtain ⟨hkey, hvalue, hrest⟩ := forall_pairObjects.mp h
    have hrest := ih hrest
    rw [DepthOfTree] at hkey hvalue
    simp only [dictNodes, nodesDepth, Node.depth, pairsDepth, hkey, hvalue]
    omega

theorem depth_typeInfoNodes (info : TypeInfo) :
    level + nodesDepth (typeInfoNodes info) = max level (idDepth (level + 1) info.id) := by
  simp only [typeInfoNodes, nodesDepth_append, nodesDepth_leaves, idDepth]
  split <;> simp [nodesDepth, Node.depth, uuidNode]

theorem depth_typeNodes (info : TypeInfo) (h : ∀ c ∈ pairObjects (attrs.getD []), DepthOfTree P c) :
    level + nodesDepth (typeNodes P info attrs) =
      max (max level (idDepth (level + 1) info.id)) (attrsDepth (level + 1) attrs) := by
  have hinfo : level + nodesDepth (typeInfoNodes info) = _ := depth_typeInfoNodes info
  cases attrs with
  | none =>
    simp only [typeNodes, attrsDepth]
    omega
  | some pairs =>
    have hpairs : level + 1 + nodesDepth (dictNodes P pairs) =
        max (level + 1) (pairsDepth (level + 1 + 2) pairs) := depth_dictNodes h
    simp only [typeNodes, attrsDepth, nodesDepth_append]
    split
    · simp only [nodesDepth, Node.depth]
      omega
    · simp only [nodesDepth]
      omega

/-- **The messages below the message of a value.** -/
theorem depth_valueNode (v : Object) : DepthOfTree P v := by
  refine v.induction fun v ih => ?_
  unfold DepthOfTree
  cases v with
  | list items | tuple items | set items | frozenSet items =>
    exact depth_itemNodes 1 ih
  | namedTuple typeName fieldNames values =>
    have hvalues : 1 + nodesDepth (itemNodes P 3 values) = max 1 (itemsDepth values) :=
      depth_itemNodes 3 ih
    simp only [valueNode, Node.depth, nodesDepth_append, nodesDepth_leaves, messageDepth]
    omega
  | dict pairs => exact depth_dictNodes ih
  | type info attrs => exact depth_typeNodes info ih
  | classInstance pointer info typeAttrs id attrs =>
    have htype : 2 + nodesDepth (typeNodes P info typeAttrs) =
        max (max 2 (idDepth 3 info.id)) (attrsDepth 3 typeAttrs) :=
      depth_typeNodes info fun c hc => ih c (List.mem_append_left _ hc)
    have hattrs : 2 + nodesDepth (dictNodes P (attrs.getD [])) =
        max 2 (pairsDepth 4 (attrs.getD [])) :=
      depth_dictNodes fun c hc => ih c (List.mem_append_right _ hc)
    rw [valueNode_classInstance]
    cases attrs <;> simp only [Node.depth, nodesDepth, messageDepth, uuidNode, Option.getD_none,
        Option.getD_some, instanceAttrsDepth, pairsDepth] at hattrs ⊢ <;> omega
  | integer x =>
    simp only [valueNode, messageDepth]
    cases x.value with
    | none => rfl
    | some n =>
      simp only [intNode]
      split <;> simp [Node.depth]
  | date | time | dateTime | timeDelta | timeZone | exception | function | fileHandle =>
    simp only [valueNode, Node.depth, nodesDepth_leaves, messageDepth]
  | _ => rfl

/-! ### The depth check -/

theorem pairsDepth_of_pairsExceed {budget cost : ℕ} (hlevel : level ≤ cost) (hle : cost ≤ budget)
    (hpairs : pairsExceed pairs (budget - cost) = false)
    (ih : ∀ c ∈ pairObjects pairs, ∀ budget, depthExceeds c budget = false →
      messageDepth c ≤ budget) : pairsDepth level pairs ≤ budget := by
  refine pairsDepth_le.mpr fun c hc => ?_
  have := ih c hc _ (pairsExceed_eq_false.mp hpairs c hc)
  omega

theorem attrsDepth_of_classTypeExceeds {budget cost : ℕ} (hlevel : level ≤ cost)
    (hle : cost ≤ budget) (hattrs : classTypeExceeds attrs (budget - cost) = false)
    (ih : ∀ c ∈ pairObjects (attrs.getD []), ∀ budget, depthExceeds c budget = false →
      messageDepth c ≤ budget) : attrsDepth level attrs ≤ budget := by
  cases attrs with
  | none => exact Nat.zero_le _
  | some pairs =>
    simp only [classTypeExceeds, Bool.and_eq_false_imp, decide_eq_true_eq, Bool.or_eq_false_iff,
      decide_eq_false_iff_not, Nat.sub_sub] at hattrs
    rw [attrsDepth]
    split
    · rename_i hpos
      obtain ⟨hcost, hpairs⟩ := hattrs hpos
      unfold typeAttrsCost at hcost hpairs
      exact max_le_iff.mpr ⟨by omega, pairsDepth_of_pairsExceed (by omega) (by omega) hpairs ih⟩
    · exact Nat.zero_le _

/-- **The depth check bounds the messages below a value**, where it looks. -/
theorem messageDepth_of_depthExceeds (hbuiltin : v.All NoBuiltinAttrs) :
    ∀ budget, depthExceeds v budget = false → messageDepth v ≤ budget := by
  induction v using Object.induction with
  | h v ih =>
    obtain ⟨hbuiltin, hbuiltins⟩ := hbuiltin
    replace ih := fun c hc => ih c hc (hbuiltins c hc)
    intro budget hdepth
    cases v with
    | list items | tuple items | set items | frozenSet items | namedTuple _ _ items =>
      rw [depthExceeds, Bool.or_eq_false_iff, decide_eq_false_iff_not] at hdepth
      obtain ⟨hle, hitems⟩ := hdepth
      unfold listCost at hle hitems
      refine max_le_iff.mpr ⟨by omega, itemsDepth_le.mpr fun c hc => ?_⟩
      have := ih c hc _ (seqExceed_eq_false.mp hitems c hc)
      omega
    | dict pairs =>
      rw [depthExceeds, Bool.or_eq_false_iff, decide_eq_false_iff_not] at hdepth
      unfold dictCost at hdepth
      exact max_le_iff.mpr ⟨by omega, pairsDepth_of_pairsExceed le_rfl (by omega) hdepth.2 ih⟩
    | type info attrs =>
      rw [depthExceeds] at hdepth
      unfold typeCost at hdepth
      have hid : ¬ budget < 2 → max 1 (idDepth 2 info.id) ≤ budget := by
        unfold idDepth
        split <;> omega
      split at hdepth
      · rename_i horigin
        rw [decide_eq_false_iff_not] at hdepth
        refine max_le_iff.mpr ⟨hid hdepth, ?_⟩
        cases attrs with
        | none => exact Nat.zero_le _
        | some pairs =>
          rw [show pairs = [] from hbuiltin horigin]
          exact Nat.zero_le _
      · rw [Bool.or_eq_false_iff, decide_eq_false_iff_not] at hdepth
        exact max_le_iff.mpr ⟨hid hdepth.1,
          attrsDepth_of_classTypeExceeds le_rfl (by omega) hdepth.2 ih⟩
    | classInstance pointer info typeAttrs id attrs =>
      obtain ⟨hle, htype, hle', hattrs⟩ := classInstance_of_depthExceeds hdepth
      unfold classInstanceTypeCost at hle htype
      unfold classInstanceCost at hle' hattrs
      have hid : idDepth 3 info.id ≤ budget := by
        unfold idDepth
        split <;> omega
      have htypeDepth := attrsDepth_of_classTypeExceeds (le_refl 3) (by omega) htype
        fun c hc => ih c (List.mem_append_left _ hc)
      have hattrsDepth := pairsDepth_of_pairsExceed (le_refl 4) (by omega) hattrs
        fun c hc => ih c (List.mem_append_right _ hc)
      refine max_le_iff.mpr ⟨max_le_iff.mpr ⟨max_le_iff.mpr ⟨by omega, hid⟩, htypeDepth⟩, ?_⟩
      cases attrs with
      | none => exact Nat.zero_le _
      | some pairs => exact hattrsDepth
    | integer x =>
      rw [depthExceeds, decide_eq_false_iff_not] at hdepth
      rw [messageDepth]
      cases x.value with
      | none => exact Nat.one_le_iff_ne_zero.mpr hdepth
      | some n =>
        simp only
        split <;> omega
    | bool | float32 | float64 | str | bytes | builtinFunction | path => exact Nat.zero_le _
    | _ =>
      rw [depthExceeds, decide_eq_false_iff_not] at hdepth
      exact Nat.one_le_iff_ne_zero.mpr hdepth

end Values

/-! ## Requests -/

/-- The messages around the message of a value in a request. -/
def wrapperDepth : Request → ℕ
  | .feed _ | .resumeCall _ _ => 3
  | .resumeNameLookup _ _ _ => 2
  | .resumeFutures _ => 4
  | .configure _ | .installDependencies _ | .dump | .load _ | .reset | .shutdown
  | .abortFeed _ => 1

section Requests

variable {P : Protowire} {limit : ℕ}

theorem depth_valueNode_message (num : ℕ) (v : Object) :
    (Node.message num [valueNode P v]).depth = 1 + messageDepth v := by
  rw [Node.depth, nodesDepth, depth_valueNode v, nodesDepth, Nat.max_zero]

theorem depth_frameNodes (f : Frame) : nodesDepth (frameNodes f) = 1 := by
  simp [frameNodes, nodesDepth_append, nodesDepth, Node.depth]

theorem depth_excDataNodes (d : ExcData) : nodesDepth (excDataNodes d) ≤ 1 := by
  unfold excDataNodes
  split <;> simp [nodesDepth, Node.depth]

theorem depth_exceptionNodes (e : RaisedException) : nodesDepth (exceptionNodes e) ≤ 2 := by
  have hframes : nodesDepth (e.traceback.map fun f => .message 3 (frameNodes f)) ≤ 2 := by
    refine nodesDepth_le.mpr fun node hnode => ?_
    obtain ⟨f, -, rfl⟩ := List.mem_map.mp hnode
    rw [Node.depth, depth_frameNodes]
  simp only [exceptionNodes, nodesDepth_append, nodesDepth_leaves, Nat.zero_max, max_le_iff]
  refine ⟨hframes, ?_⟩
  cases e.data with
  | none => exact Nat.zero_le _
  | some d =>
    have hdata := depth_excDataNodes d
    simp only [nodesDepth, Node.depth]
    omega

theorem depth_exceptionField (num : ℕ) (e : Option RaisedException) :
    nodesDepth (exceptionField num e) ≤ 3 := by
  cases e with
  | none => exact Nat.zero_le _
  | some e =>
    have he := depth_exceptionNodes e
    simp only [exceptionField, nodesDepth, Node.depth]
    omega

theorem depth_limitsField (l : Option Limits) : nodesDepth (limitsField l) ≤ 1 := by
  cases l <;> simp [limitsField, nodesDepth, Node.depth]

theorem depth_configureNodes (c : Configure) : nodesDepth (configureNodes c) ≤ 1 := by
  have hlimits := depth_limitsField c.limits
  simp only [configureNodes, nodesDepth_append, nodesDepth_leaves]
  omega

theorem depth_inputNodes (inputs : List NamedValue) : nodesDepth (inputNodes P inputs) ≤ limit ↔
      ∀ v ∈ inputs.map NamedValue.value, 2 + messageDepth v ≤ limit := by
  rw [nodesDepth_le, inputNodes, List.forall_mem_map, List.forall_mem_map]
  refine forall₂_congr fun input _ => ?_
  rw [Node.depth, nodesDepth_append, nodesDepth_leaves, nodesDepth, depth_valueNode_message,
    nodesDepth]
  omega

theorem depth_extResultNodes (hlimit : 3 ≤ limit) (r : ExtResult) :
    nodesDepth (extResultNodes P r) ≤ limit ↔
      (r.kind = extReturn → 1 + messageDepth r.value ≤ limit) := by
  have hexception := depth_exceptionField 2 r.error
  by_cases hreturn : r.kind = extReturn
  · simp only [extResultNodes, hreturn, if_true, nodesDepth, depth_valueNode_message, true_imp_iff,
      Nat.max_zero]
  · simp only [hreturn, false_imp_iff, iff_true, extResultNodes, if_false]
    split_ifs
    · omega
    all_goals
      simp only [nodesDepth, Node.depth]
      omega

theorem depth_callResultNodes (hlimit : 4 ≤ limit) (callID : UInt32) (r : ExtResult) :
    nodesDepth (callResultNodes P callID r) ≤ limit ↔
      (r.kind = extReturn → 2 + messageDepth r.value ≤ limit) := by
  have hresult : nodesDepth (extResultNodes P r) ≤ limit - 1 ↔ _ :=
    depth_extResultNodes (by omega) r
  simp only [callResultNodes, nodesDepth_append, nodesDepth_leaves, nodesDepth, Node.depth]
  constructor
  · intro h hreturn
    have := hresult.mp (by omega) hreturn
    omega
  · intro h
    have := hresult.mpr fun hreturn => by have := h hreturn; omega
    omega

theorem depth_requestNodes (hlimit : 6 ≤ limit) (req : Request) (traceParent : GoString) :
    nodesDepth (requestNodes P req traceParent) ≤ limit ↔
      ∀ v ∈ requestValues req, wrapperDepth req + messageDepth v ≤ limit := by
  obtain ⟨below, rfl⟩ : ∃ below, limit = 1 + below := ⟨limit - 1, by omega⟩
  have harm : nodesDepth (requestNodes P req traceParent) ≤ 1 + below ↔
      nodesDepth (bodyNodes P req) ≤ below := by
    simp only [requestNodes, nodesDepth, nodesDepth_leaves, Node.depth]
    omega
  rw [harm]
  cases req with
  | configure c =>
    have hdepth := depth_configureNodes c
    simp only [bodyNodes, requestValues, List.not_mem_nil, false_imp_iff, implies_true, iff_true]
    omega
  | installDependencies requirements => simp [bodyNodes, requestValues]
  | feed f =>
    simp only [bodyNodes, feedNodes, nodesDepth_append, nodesDepth_leaves, requestValues,
      wrapperDepth, Nat.zero_max, Nat.max_zero, depth_inputNodes]
    refine forall₂_congr fun v _ => ?_
    omega
  | resumeCall callID result =>
    rw [bodyNodes, depth_callResultNodes (by omega)]
    by_cases hreturn : result.kind = extReturn
    · simp only [hreturn, true_imp_iff, requestValues, if_true, List.mem_singleton, forall_eq,
        wrapperDepth]
      omega
    · simp [requestValues, hreturn]
  | resumeNameLookup kind value error =>
    have hexception := depth_exceptionField 3 error
    by_cases hvalue : kind = lookupValue
    · simp only [bodyNodes, nameLookupNodes, requestValues, wrapperDepth, hvalue, if_true,
        nodesDepth, depth_valueNode_message, List.mem_singleton, forall_eq]
      omega
    · simp only [bodyNodes, nameLookupNodes, requestValues, hvalue, if_false, List.not_mem_nil,
        false_imp_iff, implies_true, iff_true]
      split_ifs
      · simp only [nodesDepth, Node.depth]
        omega
      · omega
      · exact Nat.zero_le _
  | resumeFutures results =>
    simp only [bodyNodes, futureNodes, nodesDepth_le, List.forall_mem_map, requestValues,
      wrapperDepth, List.mem_filter, decide_eq_true_eq, and_imp]
    refine forall₂_congr fun fr _ => ?_
    have hresult : nodesDepth (callResultNodes P fr.callID fr.result) ≤ below - 1 ↔ _ :=
      depth_callResultNodes (by omega) fr.callID fr.result
    rw [Node.depth]
    constructor
    · intro h hreturn
      have := hresult.mp (by omega) hreturn
      omega
    · intro h
      have := hresult.mpr fun hreturn => by have := h hreturn; omega
      omega
  | load state => simp [bodyNodes, requestValues]
  | abortFeed exception =>
    have hexception := depth_exceptionField 1 exception
    simp only [bodyNodes, requestValues, List.not_mem_nil, false_imp_iff, implies_true, iff_true]
    omega
  | dump | reset | shutdown => simp [bodyNodes, requestValues, nodesDepth]

/-- **How deep a request nests.**  A request whose values pass the depth check nests at most as
deep as the receiver allows exactly when each of its values does in its wrappers.  The check is
enough for that where it looks at the whole value, in every request but `ResumeFutures`, whose
results stand in one message more than the check leaves room for. -/
theorem encodeRequest_nests_iff {req : Request} {traceParent : GoString} {frame : Bytes}
    (hencode : encodeRequest P req traceParent = .ok frame) (hlen : frame.length < 2 ^ 63)
    (hdepth : ∀ v ∈ requestValues req, exceedsMaxDepth v = false) :
    ((∀ k, Nests P schema .parentRequest frame k → k ≤ prostRecursionLimit) ↔
      ∀ v ∈ requestValues req, wrapperDepth req + messageDepth v ≤ prostRecursionLimit) ∧
    ((∀ results, req ≠ .resumeFutures results) → (∀ v ∈ requestValues req, v.All NoBuiltinAttrs) →
      ∀ v ∈ requestValues req, wrapperDepth req + messageDepth v ≤ prostRecursionLimit) := by
  constructor
  · rw [← depth_requestNodes (P := P) (by decide) req traceParent]
    simp only [(encodeRequest_reads hencode hlen).nests_iff]
    exact forall_le_iff_le
  · intro hkind hbuiltin v hv
    have hvalue := messageDepth_of_depthExceeds (hbuiltin v hv) _ (hdepth v hv)
    have hwrapper : wrapperDepth req ≤ frameWrapperDepth := by
      cases req with
      | resumeFutures results => exact absurd rfl (hkind results)
      | _ => simp [wrapperDepth, frameWrapperDepth]
    simp only [maxProtoValueDepth, prostRecursionLimit, frameWrapperDepth] at *
    omega

/-- A feed with one input. -/
theorem encodeRequest_nests_iff_oneInput :
    encodeRequest standard (.feed { inputs := [⟨[97], .bool true⟩] }) [] =
        .ok [26, 9, 18, 7, 10, 1, 97, 18, 2, 32, 1] ∧
      ∀ k, Nests standard schema .parentRequest [26, 9, 18, 7, 10, 1, 97, 18, 2, 32, 1] k →
        k ≤ prostRecursionLimit := by
  have hencode : encodeRequest standard (.feed { inputs := [⟨[97], .bool true⟩] }) [] =
      .ok [26, 9, 18, 7, 10, 1, 97, 18, 2, 32, 1] := rfl
  have hvalues : ∀ v ∈ requestValues (.feed { inputs := [⟨[97], .bool true⟩] }),
      exceedsMaxDepth v = false := by
    intro v hv
    rw [List.mem_singleton.mp hv]
    rfl
  refine ⟨hencode, (encodeRequest_nests_iff hencode (by decide) hvalues).1.mpr ?_⟩
  intro v hv
  rw [List.mem_singleton.mp hv]
  decide

/-! ### The result of a future -/

/-- A future that resolves to a value as deep as the depth check allows. -/
def deepFuture : Request := .resumeFutures [⟨0, { kind := extReturn, value := nestedLists 48 }⟩]

theorem deepFuture_encodes : (match encodeRequest standard deepFuture [] with
      | .ok frame => decide (frame.length < 2 ^ 63)
      | .error _ => false) = true := by
  decide +kernel

/-- The depth check lets the value pass, and the request nests deeper than the receiver allows. -/
theorem deepFuture_nests_too_deep : (∀ v ∈ requestValues deepFuture, exceedsMaxDepth v = false) ∧
      ∃ frame, encodeRequest standard deepFuture [] = .ok frame ∧
        Nests standard schema .parentRequest frame (prostRecursionLimit + 1) := by
  constructor
  · intro v hv
    rw [List.mem_singleton.mp hv]
    decide +kernel
  · have hencodes := deepFuture_encodes
    cases hencode : encodeRequest standard deepFuture [] with
    | error e =>
      rw [hencode] at hencodes
      cases hencodes
    | ok frame =>
      rw [hencode] at hencodes
      refine ⟨frame, rfl, ?_⟩
      rw [(encodeRequest_reads hencode (of_decide_eq_true hencodes)).nests_iff]
      decide +kernel

end Requests

end Montygo.Wire
