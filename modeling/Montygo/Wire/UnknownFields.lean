import Montygo.Lib.WireStandard
import Montygo.Wire.Event
import Montygo.Wire.Schema

/-!
# Fields that the schema does not know

A decoder skips the fields it does not know.  For most messages that is all: unknown fields may be
added anywhere and the message decodes to the same (`Conforms.stable`).  A `MontyObject` is the
exception: an unknown field takes back the mark that a kind has been read, so that a value is
refused exactly when its last field is unknown (`takeFields_seen`).

`Stable t d` puts both together for a decoder `d` of messages of kind `t`: what it accepts has no
value that ends in an unknown field, and when unknown fields are added such that this still holds,
it decodes to the same.  Every decoder is stable because the decoders of its fields are; the
recursion through values is an induction on the room that is left.
-/

namespace Montygo.Wire

open Go Value WireFormat Fallible Protowire

variable (P : Protowire)

/-- Somewhere in the message a value ends in a field that is not one of its kinds. -/
inductive EndsUnknown : MessageType → Bytes → Prop
  | last {b : Bytes} {fields : List Field} {f : Field} (hparse : P.Parses b (fields ++ [f]))
      (hunknown : f.num ∉ fieldTable .montyObject) : EndsUnknown .montyObject b
  | inside {t t' : MessageType} {b sub : Bytes} {fields : List Field} {num : ℕ}
      (hparse : P.Parses b fields) (hmem : ⟨num, .bytes sub⟩ ∈ fields)
      (hmessage : subMessage t num = some t') (hsub : EndsUnknown t' sub) : EndsUnknown t b

/-- A decoder of messages of one kind that skips unknown fields, apart from those a value ends
in. -/
structure Stable {α : Type} (t : MessageType) (d : Bytes → DecodeM α) : Prop where
  clean : ∀ {b budget a budget'}, d b budget = .ok a budget' → ¬ EndsUnknown P t b
  insert : ∀ {b b' budget a budget'}, Inserted P schema t b b' → ¬ EndsUnknown P t b' →
    d b budget = .ok a budget' → d b' budget = .ok a budget'

/-- An arm of a field that holds a message of one kind. -/
abbrev StableArm {σ : Type} (t : MessageType) (arm : Arm σ) : Prop :=
  ∃ f, arm = .bytes f ∧ ∀ s, Stable P t (f · s)

/-- A table of arms that follows the schema. -/
structure Conforms {σ : Type} (t : MessageType) (arms : ℕ → Arm σ) : Prop where
  unknown : ∀ num, num ∉ fieldTable t → arms num = .skip id
  message : ∀ num t', subMessage t num = some t' →
    ∃ f, arms num = .bytes f ∧ ∀ s, Stable P t' (f · s)

variable {P} {σ α β : Type} {t t' : MessageType} {b b' : Bytes} {fields fields' : List Field}
  {s s' : σ} {budget budget' : Budget} {arms : ℕ → Arm σ}

/-! ## Rules for decoders -/

variable {d : Bytes → DecodeM α}

theorem Stable.bind (h : Stable P t d) (k : α → DecodeM β) : Stable P t fun b => d b >>= k where
  clean hok := by
    obtain ⟨a, budget₁, hd, -⟩ := bind_eq_ok.mp hok
    exact h.clean hd
  insert hins hclean hok := by
    obtain ⟨a, budget₁, hd, hk⟩ := bind_eq_ok.mp hok
    exact bind_eq_ok.mpr ⟨a, budget₁, h.insert hins hclean hd, hk⟩

theorem Stable.replaceError (h : Stable P t d) (e : WireError) :
    Stable P t fun b => replaceError e (d b) := by
  have hok : ∀ {b budget a budget'}, Wire.replaceError e (d b) budget = .ok a budget' ↔
      d b budget = .ok a budget' := by
    intro b budget a budget'
    unfold Wire.replaceError
    cases d b budget <;> simp
  exact ⟨fun hd => h.clean (hok.mp hd),
    fun hins hclean hd => hok.mpr (h.insert hins hclean (hok.mp hd))⟩

theorem Stable.arm (h : Stable P t d) (k : σ → α → DecodeM σ) :
    StableArm P t (.bytes fun b s => d b >>= k s) :=
  ⟨_, rfl, fun s => h.bind (k s)⟩

section

variable (ht : t ≠ .montyObject) (hleaf : ∀ num, subMessage t num = none)
include ht hleaf

theorem not_endsUnknown_of_leaf : ¬ EndsUnknown P t b := by
  intro h
  cases h with
  | last => exact ht rfl
  | inside _ _ hmessage _ =>
    rw [hleaf] at hmessage
    cases hmessage

theorem stable_const (x : DecodeM α) : Stable P t fun _ => x where
  clean _ := not_endsUnknown_of_leaf ht hleaf
  insert _ _ hok := hok

theorem stableArm_const (x : σ → DecodeM σ) : StableArm P t (.bytes fun _ s => x s) :=
  ⟨_, rfl, fun s => stable_const ht hleaf (x s)⟩

end

/-! ## Loops -/

/-- The messages in a decoded message are clean when their decoders only accept clean ones. -/
theorem not_endsUnknown_field {num : ℕ} {sub : Bytes} {f : Bytes → σ → DecodeM σ}
    (harm : arms num = .bytes f) (hstable : ∀ s, Stable P t' (f · s))
    (hmem : ⟨num, .bytes sub⟩ ∈ fields) (h : takeFields P arms fields s budget = .ok s' budget') :
    ¬ EndsUnknown P t' sub := by
  obtain ⟨s₁, budget₁, s₂, budget₂, htake⟩ := takeFields_mem h hmem
  rw [harm] at htake
  obtain ⟨b, heq, hf⟩ := take_bytes_ok.mp htake
  cases heq
  exact (hstable s₁).clean hf

theorem Conforms.takeFields_inserted (harms : Conforms P t arms)
    (hins : InsertedFields P schema t fields fields')
    (hclean : ∀ num sub t', ⟨num, .bytes sub⟩ ∈ fields' → subMessage t num = some t' →
      ¬ EndsUnknown P t' sub)
    (h : takeFields P arms fields s budget = .ok s' budget') :
    takeFields P arms fields' s budget = .ok s' budget' := by
  induction hins generalizing s budget with
  | nil => exact h
  | unknown hunknown _ ih =>
    refine bind_eq_ok.mpr ⟨s, budget, ?_, ih harms
      (fun num sub t' hmem => hclean num sub t' (List.mem_cons_of_mem _ hmem)) h⟩
    rw [harms.unknown _ hunknown, take_skip]
    rfl
  | keep _ ih =>
    obtain ⟨s₁, budget₁, hfirst, hrest⟩ := bind_eq_ok.mp h
    exact bind_eq_ok.mpr ⟨s₁, budget₁, hfirst, ih harms
      (fun num sub t' hmem => hclean num sub t' (List.mem_cons_of_mem _ hmem)) hrest⟩
  | @inside _ t' num b b' _ _ _ _ hmessage hparse hparse' hinner _ _ ih =>
    obtain ⟨s₁, budget₁, hfirst, hrest⟩ := bind_eq_ok.mp h
    obtain ⟨f, harm, hstable⟩ := harms.message num t' hmessage
    rw [harm] at hfirst
    obtain ⟨_, heq, hf⟩ := take_bytes_ok.mp hfirst
    cases heq
    have hf' := (hstable s).insert ⟨_, _, hparse, hparse', hinner⟩
      (hclean num b' t' List.mem_cons_self hmessage) hf
    refine bind_eq_ok.mpr ⟨s₁, budget₁, ?_, ih harms
      (fun num sub t' hmem => hclean num sub t' (List.mem_cons_of_mem _ hmem)) hrest⟩
    rw [harm]
    exact take_bytes_ok.mpr ⟨b', rfl, hf'⟩

/-- **A decoder that follows the schema skips unknown fields.** -/
theorem Conforms.stable (harms : Conforms P t arms) (ht : t ≠ .montyObject) (s : σ) :
    Stable P t (readMessage P arms · s) where
  clean hok := by
    obtain ⟨fields, hparse, htake⟩ := readMessage_eq_ok.mp hok
    intro hends
    cases hends with
    | last => exact ht rfl
    | inside hparse' hmem hmessage hsub =>
      rw [hparse'.unique hparse] at hmem
      obtain ⟨f, harm, hstable⟩ := harms.message _ _ hmessage
      exact not_endsUnknown_field harm hstable hmem htake hsub
  insert := by
    rintro b b' budget a budget' ⟨fields, fields', hparse, hparse', hins⟩ hclean hok
    obtain ⟨fields₁, hparse₁, htake⟩ := readMessage_eq_ok.mp hok
    rw [hparse₁.unique hparse] at htake
    refine readMessage_eq_ok.mpr ⟨fields', hparse', harms.takeFields_inserted hins ?_ htake⟩
    intro num sub t' hmem hmessage hsub
    exact hclean (.inside hparse' hmem hmessage hsub)

/-! ## Messages without messages in them -/

/-- Where the fields are numbered from one on without a gap, only zero and what is above is
unknown. -/
theorem unknown_of_range (n : ℕ) (htable : fieldTable t = List.range' 1 n)
    (hzero : arms 0 = .skip id) (habove : ∀ k, arms (k + (n + 1)) = .skip id) (num : ℕ)
    (hnum : num ∉ fieldTable t) : arms num = .skip id := by
  rw [htable, List.mem_range'_1] at hnum
  rcases Nat.eq_zero_or_pos num with rfl | hpos
  · exact hzero
  · obtain ⟨k, rfl⟩ := Nat.exists_eq_add_of_le' (show n + 1 ≤ num by omega)
    exact habove k

theorem conforms_leaf (n : ℕ) (htable : fieldTable t = List.range' 1 n)
    (hzero : arms 0 = .skip id) (habove : (fun k => arms (k + (n + 1))) = fun _ => .skip id)
    (hleaf : subMessage t = fun _ => none) : Conforms P t arms := by
  refine ⟨unknown_of_range n htable hzero (congrFun habove), fun num t' hmessage => ?_⟩
  rw [hleaf] at hmessage
  cases hmessage

theorem conforms_uuid : Conforms P .uuid uuidArms := conforms_leaf 1 rfl rfl rfl rfl

theorem conforms_bigInt : Conforms P .bigInt bigArms := conforms_leaf 2 rfl rfl rfl rfl

theorem conforms_date : Conforms P .date dateArms := conforms_leaf 3 rfl rfl rfl rfl

theorem conforms_time : Conforms P .time timeArms := conforms_leaf 7 rfl rfl rfl rfl

theorem conforms_dateTime : Conforms P .dateTime dateTimeArms := conforms_leaf 9 rfl rfl rfl rfl

theorem conforms_timeDelta : Conforms P .timeDelta timeDeltaArms := conforms_leaf 3 rfl rfl rfl rfl

theorem conforms_timeZone : Conforms P .timeZone timeZoneArms := conforms_leaf 2 rfl rfl rfl rfl

theorem conforms_exception : Conforms P .exception exceptionValueArms :=
  conforms_leaf 2 rfl rfl rfl rfl

theorem conforms_function : Conforms P .function functionArms := conforms_leaf 2 rfl rfl rfl rfl

theorem conforms_fileHandle : Conforms P .fileHandle fileHandleArms :=
  conforms_leaf 3 rfl rfl rfl rfl

theorem conforms_cycle : Conforms P .cycle cycleArms := conforms_leaf 2 rfl rfl rfl rfl

theorem conforms_codeLoc : Conforms P .codeLoc codeLocArms := conforms_leaf 2 rfl rfl rfl rfl

theorem conforms_unicodeErrorData : Conforms P .unicodeErrorData unicodeArms :=
  conforms_leaf 6 rfl rfl rfl rfl

theorem conforms_jsonErrorData : Conforms P .jsonErrorData jsonArms :=
  conforms_leaf 5 rfl rfl rfl rfl

theorem conforms_osCallOpen : Conforms P .osCallOpen openArms := conforms_leaf 2 rfl rfl rfl rfl

theorem conforms_osCallMkdir : Conforms P .osCallMkdir mkdirArms := conforms_leaf 3 rfl rfl rfl rfl

theorem conforms_osCallRename : Conforms P .osCallRename renameArms :=
  conforms_leaf 2 rfl rfl rfl rfl

theorem conforms_printSegment : Conforms P .printSegment segmentArms :=
  conforms_leaf 2 rfl rfl rfl rfl

theorem conforms_resolveFutures : Conforms P .resolveFutures resolveFuturesArms :=
  conforms_leaf 1 rfl rfl rfl rfl

theorem conforms_typingError : Conforms P .typingError singleStringArms :=
  conforms_leaf 1 rfl rfl rfl rfl

theorem conforms_fatalError : Conforms P .fatalError singleStringArms :=
  conforms_leaf 1 rfl rfl rfl rfl

theorem conforms_dumpResult : Conforms P .dumpResult dumpResultArms :=
  conforms_leaf 1 rfl rfl rfl rfl

theorem conforms_shutdownDump : Conforms P .shutdownDump shutdownArms :=
  conforms_leaf 1 rfl rfl rfl rfl

theorem conforms_osCallTextWrite (num : ℕ) : Conforms P .osCallTextWrite (writeArms num) :=
  conforms_leaf 2 rfl rfl rfl rfl

theorem conforms_osCallBytesWrite (num : ℕ) : Conforms P .osCallBytesWrite (writeArms num) :=
  conforms_leaf 2 rfl rfl rfl rfl

/-! ## Messages with messages in them -/

theorem mem_fieldTable_of_subMessage {num : ℕ} (h : subMessage t num = some t') :
    num ∈ fieldTable t := by
  have htable : ∀ field ∈ messageTable t, field.1 ∈ fieldTable t := by
    cases t <;> decide
  exact htable (num, t') (mem_messageTable h)

theorem conforms_of_messages (hunknown : ∀ num, num ∉ fieldTable t → arms num = .skip id)
    (hmessage : (messageTable t).Forall fun m => StableArm P m.2 (arms m.1)) : Conforms P t arms :=
  ⟨hunknown, fun _ _ h => List.forall_iff_forall_mem.mp hmessage _ (mem_messageTable h)⟩

theorem conforms_range (n : ℕ) (htable : fieldTable t = List.range' 1 n)
    (hzero : arms 0 = .skip id) (habove : ∀ k, arms (k + (n + 1)) = .skip id)
    (hmessage : (messageTable t).Forall fun m => StableArm P m.2 (arms m.1)) : Conforms P t arms :=
  conforms_of_messages (unknown_of_range n htable hzero habove) hmessage

theorem stable_decodeUUIDMessage : Stable P .uuid (decodeUUIDMessage P) :=
  (conforms_uuid.stable (by decide) _).bind _

section Containers

variable {dec decBelow : Bytes → DecodeM Object} (hdec : Stable P .montyObject dec)

include hdec

theorem conforms_objectList : Conforms P .objectList (objectListArms dec) :=
  conforms_range 1 rfl rfl (fun _ => rfl) (hdec.arm _)

theorem conforms_namedTuple : Conforms P .namedTuple (namedTupleArms dec) :=
  conforms_range 3 rfl rfl (fun _ => rfl) (hdec.arm _)

theorem conforms_pair : Conforms P .pair (pairArms dec) :=
  conforms_range 2 rfl rfl (fun _ => rfl) (And.intro (hdec.arm _) (hdec.arm _))

theorem stable_decodePair : Stable P .pair (decodePair P dec) :=
  ((conforms_pair hdec).stable (by decide) _).bind _

theorem conforms_dict : Conforms P .dict (dictArms P dec) :=
  conforms_range 1 rfl rfl (fun _ => rfl) ((stable_decodePair hdec).arm _)

theorem stable_decodeDict : Stable P .dict (decodeDict P dec) :=
  (conforms_dict hdec).stable (by decide) _

theorem conforms_type : Conforms P .type (typeArms P dec) :=
  conforms_range 5 rfl rfl (fun _ => rfl)
    (And.intro (stable_decodeUUIDMessage.arm _) ((stable_decodeDict hdec).arm _))

theorem stable_decodeType : Stable P .type (decodeType P dec) :=
  ((conforms_type hdec).stable (by decide) _).bind _

theorem conforms_classInstance (hbelow : Stable P .montyObject decBelow) :
    Conforms P .classInstance (instanceArms P dec decBelow) :=
  conforms_range 3 rfl rfl (fun _ => rfl) (And.intro ((stable_decodeType hbelow).arm _)
    (And.intro (stable_decodeUUIDMessage.arm _) ((stable_decodeDict hdec).arm _)))

end Containers

/-! ## Values -/

section Values

variable {dec decBelow : Bytes → DecodeM Object} {x x' : Object × Bool}

theorem valueArms_message (hdec : Stable P .montyObject dec)
    (hbelow : Stable P .montyObject decBelow) {num : ℕ}
    (hmessage : subMessage .montyObject num = some t') :
    StableArm P t' (valueArms P dec decBelow num) := by
  have hlist : Stable P .objectList (decodeObjectList P dec) :=
    (conforms_objectList hdec).stable (by decide) _
  have harms : (messageTable .montyObject).Forall fun m =>
      StableArm P m.2 (valueArms P dec decBelow m.1) := by
    refine ⟨?_, ?_, ?_, ?_, ?_, ?_, ?_, ?_, ?_, ?_, ?_, ?_, ?_, ?_, ?_, ?_, ?_, ?_, ?_, ?_, ?_, ?_⟩
    · exact stableArm_const (by decide) (fun _ => rfl) _
    · exact stableArm_const (by decide) (fun _ => rfl) _
    · exact stableArm_const (by decide) (fun _ => rfl) _
    · exact ((conforms_bigInt.stable (by decide) _).bind _).arm _
    · exact stableArm_const (by decide) (fun _ => rfl) _
    · exact hlist.arm _
    · exact hlist.arm _
    · exact (((conforms_namedTuple hdec).stable (by decide) _).bind _).arm _
    · exact (stable_decodeDict hdec).arm _
    · exact hlist.arm _
    · exact hlist.arm _
    · exact ((conforms_date.stable (by decide) _).bind _).arm _
    · exact ((conforms_time.stable (by decide) _).bind _).arm _
    · exact ((conforms_dateTime.stable (by decide) _).bind _).arm _
    · exact ((conforms_timeDelta.stable (by decide) _).bind _).arm _
    · exact ((conforms_timeZone.stable (by decide) _).bind _).arm _
    · exact ((conforms_exception.stable (by decide) _).bind _).arm _
    · exact (stable_decodeType hdec).arm _
    · exact (((conforms_classInstance hdec hbelow).stable (by decide) _).bind _).arm _
    · exact ((conforms_function.stable (by decide) _).bind _).arm _
    · exact ((conforms_fileHandle.stable (by decide) _).bind _).arm _
    · exact ((conforms_cycle.stable (by decide) _).bind _).arm _
  exact List.forall_iff_forall_mem.mp harms _ (mem_messageTable hmessage)

theorem valueArms_unknown {num : ℕ} (hnum : num ∉ fieldTable .montyObject) :
    valueArms P dec decBelow num = .skip fun s => (s.1, false) := by
  unfold valueArms
  split <;> first | rfl | exact absurd (by decide) hnum

/-- A decoder that sets the mark. -/
def Marks (d : DecodeM (Object × Bool)) : Prop :=
  ∀ budget x budget', d budget = .ok x budget' → x.2 = true

theorem marks_pure {v : Object} : Marks (pure (v, true)) := by
  intro budget x budget' h
  rw [← (pure_eq_ok.mp h).1]

theorem marks_fail {e : WireError} : Marks (fail e) := by
  intro budget x budget' h
  exact absurd h fail_ne_ok

theorem marks_bind {d : DecodeM α} {k : α → Object} : Marks (d >>= fun v => pure (k v, true)) := by
  intro budget x budget' h
  obtain ⟨v, budget₁, -, hpure⟩ := bind_eq_ok.mp h
  exact marks_pure _ _ _ hpure

/-- An arm of a kind does not look at what was read before, and sets the mark. -/
def MarkingArm (arm : Arm (Object × Bool)) : Prop :=
  ∀ f x budget x' budget', arm.take P f x budget = .ok x' budget' →
    x'.2 = true ∧ ∀ y, arm.take P f y budget = .ok x' budget'

theorem markingArm_bytes {g : Bytes → DecodeM (Object × Bool)} (h : ∀ b, Marks (g b)) :
    MarkingArm (P := P) (.bytes fun b _ => g b) := by
  intro f x budget x' budget' htake
  obtain ⟨b, hb, hg⟩ := take_bytes_ok.mp htake
  exact ⟨h b _ _ _ hg, fun y => take_bytes_ok.mpr ⟨b, hb, hg⟩⟩

theorem markingArm_varint {g : UInt64 → DecodeM (Object × Bool)} (h : ∀ v, Marks (g v)) :
    MarkingArm (P := P) (.varint fun v _ => g v) := by
  intro f x budget x' budget' htake
  obtain ⟨v, hv, hg⟩ := take_varint_ok.mp htake
  exact ⟨h v _ _ _ hg, fun y => take_varint_ok.mpr ⟨v, hv, hg⟩⟩

theorem markingArm_fixed64 {g : UInt64 → DecodeM (Object × Bool)} (h : ∀ v, Marks (g v)) :
    MarkingArm (P := P) (.fixed64 fun v _ => g v) := by
  intro f x budget x' budget' htake
  obtain ⟨v, hv, hg⟩ := take_fixed64_ok.mp htake
  exact ⟨h v _ _ _ hg, fun y => take_fixed64_ok.mpr ⟨v, hv, hg⟩⟩

theorem valueArms_known {num : ℕ} (hnum : num ∈ fieldTable .montyObject) :
    MarkingArm (P := P) (valueArms P dec decBelow num) := by
  simp only [fieldTable, List.mem_cons, List.not_mem_nil, or_false] at hnum
  rcases hnum with rfl | rfl | rfl | rfl | rfl | rfl | rfl | rfl | rfl | rfl | rfl | rfl | rfl |
    rfl | rfl | rfl | rfl | rfl | rfl | rfl | rfl | rfl | rfl | rfl | rfl | rfl | rfl | rfl | rfl |
    rfl <;>
  first
  | exact markingArm_bytes fun b => marks_pure
  | exact markingArm_bytes fun b => marks_bind
  | exact markingArm_bytes fun b => marks_fail
  | exact markingArm_varint fun v => marks_pure
  | exact markingArm_fixed64 fun v => marks_pure

theorem takeFields_seen (h : takeFields P (valueArms P dec decBelow) fields x budget =
    .ok x' budget') {init : List Field} {f : Field} (hlast : fields = init ++ [f]) :
    x'.2 = true ↔ f.num ∈ fieldTable .montyObject := by
  induction fields generalizing x budget init with
  | nil => simp at hlast
  | cons g rest ih =>
    obtain ⟨x₁, budget₁, hfirst, hrest⟩ := bind_eq_ok.mp h
    cases init with
    | nil =>
      obtain ⟨rfl, rfl⟩ := List.cons.inj hlast
      obtain ⟨rfl, -⟩ := pure_eq_ok.mp hrest
      by_cases hknown : g.num ∈ fieldTable .montyObject
      · exact iff_of_true (valueArms_known hknown _ _ _ _ _ hfirst).1 hknown
      rw [valueArms_unknown hknown, take_skip] at hfirst
      obtain ⟨rfl, -⟩ := pure_eq_ok.mp hfirst
      exact iff_of_false Bool.false_ne_true hknown
    | cons g' init' =>
      obtain ⟨rfl, hlast'⟩ := List.cons.inj hlast
      exact ih hrest hlast'

/-- Added fields do not change the value read; whether they change the mark is another matter. -/
theorem takeFields_value_inserted (hdec : Stable P .montyObject dec)
    (hbelow : Stable P .montyObject decBelow)
    (hins : InsertedFields P schema .montyObject fields fields')
    (hclean : ∀ num sub t', ⟨num, .bytes sub⟩ ∈ fields' → subMessage .montyObject num = some t' →
      ¬ EndsUnknown P t' sub)
    (h : takeFields P (valueArms P dec decBelow) fields x budget = .ok x' budget')
    {y : Object × Bool} (hxy : x.1 = y.1) :
    ∃ y', takeFields P (valueArms P dec decBelow) fields' y budget = .ok y' budget' ∧
      x'.1 = y'.1 := by
  generalize ht : MessageType.montyObject = t at hins
  induction hins generalizing x y budget with
  | nil =>
    obtain ⟨rfl, rfl⟩ := pure_eq_ok.mp h
    exact ⟨y, rfl, hxy⟩
  | unknown hunknown _ ih =>
    subst ht
    obtain ⟨y', hrest, hvalue⟩ := ih
      (fun num sub t' hmem => hclean num sub t' (List.mem_cons_of_mem _ hmem)) h
      (y := (y.1, false)) hxy rfl
    refine ⟨y', bind_eq_ok.mpr ⟨_, budget, ?_, hrest⟩, hvalue⟩
    rw [valueArms_unknown hunknown, take_skip]
    rfl
  | @keep _ f _ _ _ ih =>
    subst ht
    have hclean' := fun num sub t' hmem => hclean num sub t' (List.mem_cons_of_mem f hmem)
    obtain ⟨x₁, budget₁, hfirst, hrest⟩ := bind_eq_ok.mp h
    by_cases hknown : f.num ∈ fieldTable .montyObject
    · have hfirst' := (valueArms_known hknown _ _ _ _ _ hfirst).2 y
      obtain ⟨y', hrest', hvalue⟩ := ih hclean' hrest (y := x₁) rfl rfl
      exact ⟨y', bind_eq_ok.mpr ⟨x₁, budget₁, hfirst', hrest'⟩, hvalue⟩
    · rw [valueArms_unknown hknown, take_skip] at hfirst
      obtain ⟨rfl, rfl⟩ := pure_eq_ok.mp hfirst
      obtain ⟨y', hrest', hvalue⟩ := ih hclean' hrest (y := (y.1, false)) hxy rfl
      refine ⟨y', bind_eq_ok.mpr ⟨_, budget, ?_, hrest'⟩, hvalue⟩
      rw [valueArms_unknown hknown, take_skip]
      rfl
  | @inside _ t' num b b' _ _ _ _ hmessage hparse hparse' hinner _ _ ih =>
    subst ht
    have hclean' := fun n sub t' hmem =>
      hclean n sub t' (List.mem_cons_of_mem (⟨num, .bytes b'⟩ : Field) hmem)
    obtain ⟨x₁, budget₁, hfirst, hrest⟩ := bind_eq_ok.mp h
    obtain ⟨f, harm, hstable⟩ := valueArms_message hdec hbelow hmessage
    have hfirst' := (valueArms_known (mem_fieldTable_of_subMessage hmessage) _ _ _ _ _ hfirst).2 y
    simp only [harm] at hfirst'
    obtain ⟨_, heq, hf⟩ := take_bytes_ok.mp hfirst'
    cases heq
    have hf' := (hstable y).insert ⟨_, _, hparse, hparse', hinner⟩
      (hclean num b' t' List.mem_cons_self hmessage) hf
    obtain ⟨y', hrest', hvalue⟩ := ih hclean' hrest (y := x₁) rfl rfl
    refine ⟨y', bind_eq_ok.mpr ⟨x₁, budget₁, ?_, hrest'⟩, hvalue⟩
    simp only [harm]
    exact take_bytes_ok.mpr ⟨b', rfl, hf'⟩

/-- **A value skips unknown fields, apart from one at its end.** -/
theorem stable_decodeObject (hdec : Stable P .montyObject dec)
    (hbelow : Stable P .montyObject decBelow) :
    Stable P .montyObject (decodeObject P dec decBelow) := by
  -- what an accepted value has read
  have hok : ∀ {b budget a budget'}, decodeObject P dec decBelow b budget = .ok a budget' ↔
      ∃ budget₁ fields, charge nodeHostSize budget = .ok () budget₁ ∧ P.Parses b fields ∧
        takeFields P (valueArms P dec decBelow) fields (.none, false) budget₁ =
          .ok (a, true) budget' := by
    intro b budget a budget'
    simp only [decodeObject, bind_eq_ok, readMessage_eq_ok]
    constructor
    · rintro ⟨⟨⟩, budget₁, hcharge, ⟨out, seen⟩, budget₂, ⟨fields, hparse, htake⟩, hend⟩
      cases seen with
      | false => exact absurd hend fail_ne_ok
      | true =>
        obtain ⟨rfl, rfl⟩ := pure_eq_ok.mp hend
        exact ⟨budget₁, fields, hcharge, hparse, htake⟩
    · rintro ⟨budget₁, fields, hcharge, hparse, htake⟩
      exact ⟨(), budget₁, hcharge, (a, true), budget', ⟨fields, hparse, htake⟩, rfl⟩
  refine ⟨fun hd hends => ?_, fun hins hclean hd => ?_⟩
  · obtain ⟨budget₁, fields, -, hparse, htake⟩ := hok.mp hd
    cases hends with
    | last hparse' hunknown =>
      exact hunknown ((takeFields_seen htake (hparse.unique hparse')).mp rfl)
    | inside hparse' hmem hmessage hsub =>
      rw [hparse'.unique hparse] at hmem
      obtain ⟨f, harm, hstable⟩ := valueArms_message hdec hbelow hmessage
      exact not_endsUnknown_field harm hstable hmem htake hsub
  · obtain ⟨budget₁, fields₁, hcharge, hparse₁, htake⟩ := hok.mp hd
    obtain ⟨fields, fields', hparse, hparse', hins⟩ := hins
    rw [hparse₁.unique hparse] at htake
    obtain ⟨⟨out, seen⟩, htake', hvalue⟩ := takeFields_value_inserted hdec hbelow hins
      (fun num sub t' hmem hmessage hsub => hclean (.inside hparse' hmem hmessage hsub)) htake
      (y := (.none, false)) rfl
    simp only at hvalue
    subst hvalue
    -- the last field decides about the mark, and the message has one
    have hseen : seen = true := by
      rcases List.eq_nil_or_concat' fields' with rfl | ⟨init, f, rfl⟩
      · rw [hins.eq_nil] at htake
        cases (pure_eq_ok.mp htake).1
      · refine (takeFields_seen htake' rfl).mpr ?_
        by_contra hunknown
        exact hclean (.last hparse' hunknown)
    rw [hseen] at htake'
    exact hok.mpr ⟨budget₁, fields', hcharge, hparse', htake'⟩

theorem stable_decodeWithin (room : ℕ) : Stable P .montyObject (decodeWithin P room) := by
  induction room using Nat.strong_induction_on with
  | _ room ih =>
    cases room with
    | zero =>
      exact ⟨fun hd => absurd hd fail_ne_ok, fun _ _ hd => absurd hd fail_ne_ok⟩
    | succ room =>
      rw [decodeWithin_succ]
      exact stable_decodeObject (ih room (by omega)) (ih (room - 1) (by omega))

theorem stable_decodeValue (depth : ℕ) : Stable P .montyObject (decodeValue P · depth) :=
  stable_decodeWithin _

end Values

/-! ## Events -/

theorem conforms_stackFrame : Conforms P .stackFrame (frameArms P) := by
  have hloc : Stable P .codeLoc (decodeCodeLoc P) := conforms_codeLoc.stable (by decide) _
  exact conforms_range 7 rfl rfl (fun _ => rfl) (And.intro (hloc.arm _) (hloc.arm _))

theorem conforms_excData : Conforms P .excData (excDataArms P) :=
  conforms_range 2 rfl rfl (fun _ => rfl)
    (And.intro ((conforms_unicodeErrorData.stable (by decide) _).arm _)
      ((conforms_jsonErrorData.stable (by decide) _).arm _))

theorem conforms_raisedException : Conforms P .raisedException (exceptionArms P) :=
  conforms_range 4 rfl rfl (fun _ => rfl)
    (And.intro ((conforms_stackFrame.stable (by decide) _).arm _)
      ((conforms_excData.stable (by decide) _).arm _))

theorem conforms_osCallGetenv : Conforms P .osCallGetenv (getenvArms P) :=
  conforms_range 2 rfl rfl (fun _ => rfl) ((stable_decodeValue 1).arm _)

theorem conforms_osCallDateTimeNow : Conforms P .osCallDateTimeNow (dateTimeNowArms P) :=
  conforms_range 1 rfl rfl (fun _ => rfl) (((conforms_timeZone.stable (by decide) _).bind _).arm _)

theorem conforms_osCall : Conforms P .osCall (osCallArms P) := by
  refine conforms_of_messages (fun num hnum => ?_) ⟨?_, ?_, ?_, ?_, ?_, ?_, ?_, ?_, ?_, ?_, ?_⟩
  · simp only [fieldTable, List.mem_cons, List.not_mem_nil, or_false, not_or] at hnum
    unfold osCallArms
    rw [if_neg (by omega), if_neg (by omega), if_neg (by omega), if_neg (by omega),
      if_neg (by omega), if_neg (by omega), if_neg (by omega), if_neg (by omega),
      if_neg (by omega)]
  · exact ⟨_, rfl, fun s => (conforms_osCallTextWrite _).stable (by decide) _⟩
  · exact ⟨_, rfl, fun s => (conforms_osCallTextWrite _).stable (by decide) _⟩
  · exact ⟨_, rfl, fun s => (conforms_osCallBytesWrite _).stable (by decide) _⟩
  · exact ⟨_, rfl, fun s => (conforms_osCallBytesWrite _).stable (by decide) _⟩
  · exact ⟨_, rfl, fun s => (conforms_osCallOpen.stable (by decide) _).bind _⟩
  · exact ⟨_, rfl, fun s => conforms_osCallMkdir.stable (by decide) _⟩
  · exact ⟨_, rfl, fun s => conforms_osCallRename.stable (by decide) _⟩
  · exact ⟨_, rfl, fun s => conforms_osCallGetenv.stable (by decide) _⟩
  · exact stableArm_const (by decide) (fun _ => rfl) _
  · exact stableArm_const (by decide) (fun _ => rfl) _
  · exact ⟨_, rfl, fun s => conforms_osCallDateTimeNow.stable (by decide) _⟩

theorem conforms_print : Conforms P .print (printArms P) := by
  refine conforms_of_messages (fun num hnum => ?_)
    ((conforms_printSegment.stable (by decide) _).arm _)
  unfold printArms
  split <;> first | rfl | exact absurd (by decide) hnum

theorem conforms_functionCall : Conforms P .functionCall (functionCallArms P) :=
  conforms_range 6 rfl rfl (fun _ => rfl) (And.intro ((stable_decodeValue 0).arm _)
    (And.intro ((stable_decodePair (stable_decodeValue 1)).arm _) (stable_decodeUUIDMessage.arm _)))

theorem conforms_nameLookup : Conforms P .nameLookup (nameLookupArms P) :=
  conforms_range 2 rfl rfl (fun _ => rfl) ((stable_decodeUUIDMessage.replaceError _).arm _)

theorem conforms_complete : Conforms P .complete (completeArms P) :=
  conforms_range 1 rfl rfl (fun _ => rfl) ((stable_decodeValue 0).arm _)

theorem conforms_error : Conforms P .error (errorArms P) :=
  conforms_range 1 rfl rfl (fun _ => rfl) ((conforms_raisedException.stable (by decide) _).arm _)

theorem conforms_childEvent : Conforms P .childEvent (eventArms P) := by
  refine conforms_of_messages (fun num hnum => ?_) ⟨?_, ?_, ?_, ?_, ?_, ?_, ?_, ?_, ?_, ?_, ?_, ?_⟩
  · unfold eventArms
    split <;> first | rfl | exact absurd (by decide) hnum
  · exact (conforms_print.stable (by decide) _).arm _
  · exact (conforms_functionCall.stable (by decide) _).arm _
  · exact (conforms_osCall.stable (by decide) _).arm _
  · exact (conforms_nameLookup.stable (by decide) _).arm _
  · exact (conforms_resolveFutures.stable (by decide) _).arm _
  · exact ⟨_, rfl, fun s => conforms_complete.stable (by decide) _⟩
  · exact ⟨_, rfl, fun s => conforms_error.stable (by decide) _⟩
  · exact (conforms_typingError.stable (by decide) _).arm _
  · exact ⟨_, rfl, fun s => conforms_dumpResult.stable (by decide) _⟩
  · exact stableArm_const (by decide) (fun _ => rfl) _
  · exact (conforms_fatalError.stable (by decide) _).arm _
  · exact ⟨_, rfl, fun s => conforms_shutdownDump.stable (by decide) _⟩

theorem stable_decodeEventWithBudget : Stable P .childEvent (decodeEventWithBudget P) :=
  conforms_childEvent.stable (by decide) _

theorem decodeEvent_eq_ok {ev : Event} : decodeEvent P b = .ok ev ↔
      ∃ budget', decodeEventWithBudget P b (some defaultMaxDecodeBytes) = .ok ev budget' := by
  unfold decodeEvent
  cases decodeEventWithBudget P b (some defaultMaxDecodeBytes) <;> simp

/-- **Unknown fields are ignored, unless a value ends in one.**  When an event is accepted and
unknown fields are added to its messages, it decodes to the same event exactly when no value in
it ends in an unknown field. -/
theorem decodeEvent_inserted_iff {payload payload' : Bytes} {ev : Event}
    (haccepted : decodeEvent P payload = .ok ev)
    (hinserted : Inserted P schema .childEvent payload payload') :
    decodeEvent P payload' = .ok ev ↔ ¬ EndsUnknown P .childEvent payload' := by
  constructor
  · intro h
    obtain ⟨budget', hok⟩ := decodeEvent_eq_ok.mp h
    exact stable_decodeEventWithBudget.clean hok
  · intro hclean
    obtain ⟨budget', hok⟩ := decodeEvent_eq_ok.mp haccepted
    exact decodeEvent_eq_ok.mpr ⟨budget', stable_decodeEventWithBudget.insert hinserted hclean hok⟩

/-! ## An event with a boolean -/

/-- A `Complete` event with the value `True`: the event, its `Complete` and its value. -/
theorem parses_completeTrue : standard.Parses [50, 4, 10, 2, 32, 1] [⟨6, .bytes [10, 2, 32, 1]⟩] ∧
      standard.Parses [10, 2, 32, 1] [⟨1, .bytes [32, 1]⟩] ∧
      standard.Parses [32, 1] [⟨4, .varint 1⟩] :=
  ⟨parses_singleton rfl rfl rfl, parses_singleton rfl rfl rfl, parses_singleton rfl rfl rfl⟩

set_option maxRecDepth 1000 in
theorem parses_unknown : standard.Parses [248, 1, 0] [⟨31, .varint 0⟩] :=
  parses_singleton rfl rfl rfl

/-- An unknown field behind the arm of the event. -/
theorem decodeEvent_inserted_iff_completeTrue : decodeEvent standard [50, 4, 10, 2, 32, 1] =
        .ok { kind := .complete, value := .bool true, hasValue := true } ∧
      (decodeEvent standard [50, 4, 10, 2, 32, 1, 248, 1, 0] =
          .ok { kind := .complete, value := .bool true, hasValue := true } ↔
        ¬ EndsUnknown standard .childEvent [50, 4, 10, 2, 32, 1, 248, 1, 0]) := by
  have haccepted : decodeEvent standard [50, 4, 10, 2, 32, 1] =
      .ok { kind := .complete, value := .bool true, hasValue := true } := rfl
  have hinserted : Inserted standard schema .childEvent [50, 4, 10, 2, 32, 1]
      [50, 4, 10, 2, 32, 1, 248, 1, 0] :=
    ⟨_, _, parses_completeTrue.1, parses_completeTrue.1.append parses_unknown,
      .keep (.unknown (by decide) .nil)⟩
  exact ⟨haccepted, decodeEvent_inserted_iff haccepted hinserted⟩

/-- An unknown field behind the kind of the value: the event is refused. -/
theorem decodeEvent_refuses_inserted : decodeEvent standard [50, 4, 10, 2, 32, 1] =
        .ok { kind := .complete, value := .bool true, hasValue := true } ∧
      Inserted standard schema .childEvent [50, 4, 10, 2, 32, 1] [50, 7, 10, 5, 32, 1, 248, 1, 0] ∧
      decodeEvent standard [50, 7, 10, 5, 32, 1, 248, 1, 0] =
        .error (.text "MontyObject carried no kind") := by
  obtain ⟨hevent, hcomplete, hvalue⟩ := parses_completeTrue
  have hcomplete' : standard.Parses [10, 5, 32, 1, 248, 1, 0] [⟨1, .bytes [32, 1, 248, 1, 0]⟩] :=
    parses_singleton rfl rfl rfl
  have hevent' : standard.Parses [50, 7, 10, 5, 32, 1, 248, 1, 0]
      [⟨6, .bytes [10, 5, 32, 1, 248, 1, 0]⟩] := parses_singleton rfl rfl rfl
  refine ⟨rfl, ⟨_, _, hevent, hevent', ?_⟩, rfl⟩
  refine .inside rfl hcomplete hcomplete' (.inside rfl hvalue (hvalue.append parses_unknown) ?_ .nil) .nil
  exact .keep (.unknown (by decide) .nil)

end Montygo.Wire
