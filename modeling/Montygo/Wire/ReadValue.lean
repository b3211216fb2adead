import Montygo.Lib.WireStandard
import Montygo.Wire.Readings
import Montygo.Wire.Schema

/-!
# What the numbers of a value are read as

A payload is accepted only if its last field is one of the kinds of a value, and the value is then
what that field holds.  `ValueReads P b v` says that `v` is the value of the payload `b`, part by
part: the items of a container belong to the messages in it, in their order, a pair has the last key
and the last value of its message, and each date, time, datetime, timedelta, timezone and type holds
the readings of the numbers of its own message, all of them in range.

Everything but the origin of a type is always read like that.  A message that a later field
replaces is not part of the value, but its decoder has accepted it too, and what it read is right
or wrong in the same way (`Faithful`, `decodeValue_readsAll`).
-/

namespace Montygo.Wire

open Go Value WireFormat Protowire Fallible

/-! ## Values and their payloads -/

/-- The messages in the fields with one number. -/
def messagesOf (num : ℕ) (fields : List Field) : List Bytes :=
  fields.filterMap fun f =>
    match f with
    | ⟨n, .bytes b⟩ => if n = num then some b else none
    | _ => none

/-- The value is neither a container nor a record with numbers. -/
def plain : Object → Bool
  | .list _ | .tuple _ | .namedTuple _ _ _ | .dict _ | .set _ | .frozenSet _ | .date _ | .time _
  | .dateTime _ | .timeDelta _ | .timeZone _ | .type _ _ | .classInstance _ _ _ _ _ => false
  | _ => true

/-- The fields of a payload that hold a plain value. -/
def plainFields : List ℕ := [1, 2, 3, 4, 5, 6, 7, 8, 9, 22, 25, 26, 27, 28, 29, 30]

mutual

/-- The value is that of the payload, and its numbers are the readings of those in the payload. -/
inductive ValueReads (P : Protowire) : Bytes → Object → Prop
  | plain {b : Bytes} {front : List Field} {num : ℕ} {payload : Payload} {v : Object}
      (hparse : P.Parses b (front ++ [⟨num, payload⟩])) (hnum : num ∈ plainFields)
      (hplain : plain v = true) : ValueReads P b v
  | date {b m : Bytes} {front fields : List Field} {d : Date}
      (hparse : P.Parses b (front ++ [⟨17, .bytes m⟩])) (hfields : P.Parses m fields)
      (hreads : DateReads fields d) : ValueReads P b (.date d)
  | time {b m : Bytes} {front fields : List Field} {t : Time}
      (hparse : P.Parses b (front ++ [⟨18, .bytes m⟩])) (hfields : P.Parses m fields)
      (hreads : TimeReads fields t) : ValueReads P b (.time t)
  | dateTime {b m : Bytes} {front fields : List Field} {d : DateTime}
      (hparse : P.Parses b (front ++ [⟨19, .bytes m⟩])) (hfields : P.Parses m fields)
      (hreads : DateTimeReads fields d) : ValueReads P b (.dateTime d)
  | timeDelta {b m : Bytes} {front fields : List Field} {t : TimeDelta}
      (hparse : P.Parses b (front ++ [⟨20, .bytes m⟩])) (hfields : P.Parses m fields)
      (hreads : TimeDeltaReads fields t) : ValueReads P b (.timeDelta t)
  | timeZone {b m : Bytes} {front fields : List Field} {t : TimeZone}
      (hparse : P.Parses b (front ++ [⟨21, .bytes m⟩])) (hfields : P.Parses m fields)
      (hreads : TimeZoneReads fields t) : ValueReads P b (.timeZone t)
  | type {b m : Bytes} {front : List Field} {info : TypeInfo}
      {attrs : Option (List (Object × Object))}
      (hparse : P.Parses b (front ++ [⟨23, .bytes m⟩])) (htype : TypeMessageReads P m info attrs) :
      ValueReads P b (.type info attrs)
  | classInstance {b m typ : Bytes} {front fields : List Field} {info : TypeInfo} {id : GoString}
      {typeAttrs attrs : Option (List (Object × Object))}
      (hparse : P.Parses b (front ++ [⟨24, .bytes m⟩])) (hfields : P.Parses m fields)
      (hlast : (messagesOf 1 fields).getLast? = some typ)
      (htype : TypeMessageReads P typ info typeAttrs)
      (hattrs : AttrsReads P (messagesOf 3 fields) attrs) :
      ValueReads P b (.classInstance false info typeAttrs id attrs)
  | items {b m : Bytes} {front fields : List Field} {num : ℕ} {make : List Object → Object}
      {items : List Object} (hparse : P.Parses b (front ++ [⟨num, .bytes m⟩]))
      (hnum : (num, make) ∈ [(11, .list), (12, .tuple), (15, .set), (16, .frozenSet)])
      (hfields : P.Parses m fields)
      (hitems : List.Forall₂ (ValueReads P) (messagesOf 1 fields) items) :
      ValueReads P b (make items)
  | namedTuple {b m : Bytes} {front fields : List Field} {typeName : GoString}
      {fieldNames : List GoString} {values : List Object}
      (hparse : P.Parses b (front ++ [⟨13, .bytes m⟩])) (hfields : P.Parses m fields)
      (hvalues : List.Forall₂ (ValueReads P) (messagesOf 3 fields) values) :
      ValueReads P b (.namedTuple typeName fieldNames values)
  | dict {b m : Bytes} {front fields : List Field} {pairs : List (Object × Object)}
      (hparse : P.Parses b (front ++ [⟨14, .bytes m⟩])) (hfields : P.Parses m fields)
      (hpairs : List.Forall₂ (PairReads P) (messagesOf 1 fields) pairs) :
      ValueReads P b (.dict pairs)

/-- The pair has the last key and the last value of its message. -/
inductive PairReads (P : Protowire) : Bytes → Object × Object → Prop
  | mk {b key value : Bytes} {fields : List Field} {pair : Object × Object}
      (hparse : P.Parses b fields) (hkey : (messagesOf 1 fields).getLast? = some key)
      (hvalue : (messagesOf 2 fields).getLast? = some value) (hfirst : ValueReads P key pair.1)
      (hsecond : ValueReads P value pair.2) : PairReads P b pair

/-- The attributes are those of one of the dicts. -/
inductive AttrsReads (P : Protowire) : List Bytes → Option (List (Object × Object)) → Prop
  | none {ms : List Bytes} : AttrsReads P ms none
  | some {ms : List Bytes} {m : Bytes} {fields : List Field} {pairs : List (Object × Object)}
      (hmem : m ∈ ms) (hparse : P.Parses m fields)
      (hpairs : List.Forall₂ (PairReads P) (messagesOf 1 fields) pairs) :
      AttrsReads P ms (some pairs)

/-- The origin of the type is the reading of its number, and one of the three. -/
inductive TypeMessageReads (P : Protowire) :
    Bytes → TypeInfo → Option (List (Object × Object)) → Prop
  | mk {b : Bytes} {fields : List Field} {info : TypeInfo}
      {attrs : Option (List (Object × Object))} (hparse : P.Parses b fields)
      (hreads : TypeReads fields info) (hattrs : AttrsReads P (messagesOf 5 fields) attrs) :
      TypeMessageReads P b info attrs

end

/-! ## What a decoder's loop has read -/

variable {P : Protowire} {fields : List Field} {budget budget' : Budget} {msg b : Bytes} {v : Object}
  {num : ℕ}

@[simp] theorem messagesOf_cons_bytes {rest : List Field} :
    messagesOf num (⟨num, .bytes b⟩ :: rest) = b :: messagesOf num rest := by
  simp [messagesOf]

theorem messagesOf_cons_of_ne {f : Field} {rest : List Field} (h : ∀ b, f ≠ ⟨num, .bytes b⟩) :
    messagesOf num (f :: rest) = messagesOf num rest := by
  obtain ⟨n, payload⟩ := f
  cases payload with
  | bytes b =>
    have hnum : n ≠ num := fun hn => h b (by rw [hn])
    simp [messagesOf, hnum]
  | varint | fixed64 | other => rfl

theorem mem_of_messagesOf (h : b ∈ messagesOf num fields) : ⟨num, .bytes b⟩ ∈ fields := by
  obtain ⟨⟨n, payload⟩, hmem, hsome⟩ := List.mem_filterMap.mp h
  cases payload with
  | bytes b' =>
    simp only [Option.ite_none_right_eq_some, Option.some.injEq] at hsome
    obtain ⟨rfl, rfl⟩ := hsome
    exact hmem
  | varint | fixed64 | other => cases hsome

section Loop

variable {σ β γ : Type} {arms : ℕ → Arm σ} {s s' : σ} {Good : Bytes → Prop}
  {R : Bytes → β → Prop}

/-- The last field is the last that the loop took. -/
theorem takeFields_last (h : takeFields P arms fields s budget = .ok s' budget') :
    fields = [] ∧ s' = s ∨ ∃ front num payload s₁ budget₁ budget₂,
      fields = front ++ [⟨num, payload⟩] ∧
        (arms num).take P ⟨num, payload⟩ s₁ budget₁ = .ok s' budget₂ := by
  refine takeFields_rec (fun _ => .inl ⟨rfl, rfl⟩) (fun num payload rest s s₁ s' _ _ hfirst hrest =>
    .inr ?_) h
  obtain ⟨rfl, rfl⟩ | ⟨front, num', payload', s₂, budget₁, budget₂, rfl, hlast⟩ := hrest
  · exact ⟨[], num, payload, s, _, _, rfl, hfirst⟩
  · exact ⟨_ :: front, num', payload', s₂, budget₁, budget₂, rfl, hlast⟩

/-- The fields with one number change what `get` reads of the state as `Run` says, and no others
do. -/
structure Gathers (P : Protowire) (arms : ℕ → Arm σ) (num : ℕ) (get : σ → γ)
    (Good : Bytes → Prop) (Run : List Bytes → γ → γ → Prop) : Prop where
  takes : ∀ b s budget s' budget', (arms num).take P ⟨num, .bytes b⟩ s budget = .ok s' budget' →
    Good b → Run [b] (get s) (get s')
  keeps : ∀ f s budget s' budget', (arms f.num).take P f s budget = .ok s' budget' →
    (∀ b, f ≠ ⟨num, .bytes b⟩) → get s' = get s

theorem Gathers.run {get : σ → γ} {Run : List Bytes → γ → γ → Prop}
    (harms : Gathers P arms num get Good Run) (hnil : ∀ g, Run [] g g)
    (hcons : ∀ b bs g g₁ g', Run [b] g g₁ → Run bs g₁ g' → Run (b :: bs) g g')
    (h : takeFields P arms fields s budget = .ok s' budget') :
    (∀ b ∈ messagesOf num fields, Good b) → Run (messagesOf num fields) (get s) (get s') := by
  refine takeFields_rec (fun s _ => hnil (get s))
    (fun num' payload rest s s₁ s' _ _ hfirst hrest hgood => ?_) h
  by_cases hf : ∃ b, (⟨num', payload⟩ : Field) = ⟨num, .bytes b⟩
  · obtain ⟨b, hb⟩ := hf
    cases hb
    rw [messagesOf_cons_bytes] at hgood ⊢
    exact hcons b _ _ _ _ (harms.takes _ _ _ _ _ hfirst (hgood b List.mem_cons_self))
      (hrest fun b hb => hgood b (List.mem_cons_of_mem _ hb))
  · push Not at hf
    rw [messagesOf_cons_of_ne hf] at hgood ⊢
    rw [← harms.keeps _ _ _ _ _ hfirst hf]
    exact hrest hgood

/-- Each message adds one element. -/
def Added (R : Bytes → β → Prop) (bs : List Bytes) (xs xs' : List β) : Prop :=
  ∃ ys, xs' = xs ++ ys ∧ List.Forall₂ R bs ys

theorem added_one {xs : List β} {x : β} (h : R b x) : Added R [b] xs (xs ++ [x]) :=
  ⟨[x], rfl, .cons h .nil⟩

theorem Gathers.runAdded {get : σ → List β} (harms : Gathers P arms num get Good (Added R)) :
    takeFields P arms fields s budget = .ok s' budget' →
      (∀ b ∈ messagesOf num fields, Good b) → Added R (messagesOf num fields) (get s) (get s') := by
  refine harms.run (fun xs => ⟨[], (List.append_nil xs).symm, .nil⟩) ?_
  rintro b bs xs _ _ ⟨ys, rfl, hys⟩ ⟨zs, rfl, hzs⟩
  exact ⟨ys ++ zs, List.append_assoc xs ys zs, List.rel_append hys hzs⟩

/-- The last message is the element. -/
def Replaced (R : Bytes → β → Prop) (bs : List Bytes) (x x' : Option β) : Prop :=
  bs = [] ∧ x' = x ∨ ∃ b y, bs.getLast? = some b ∧ x' = some y ∧ R b y

theorem replaced_one {x : Option β} {y : β} (h : R b y) : Replaced R [b] x (some y) :=
  .inr ⟨b, y, rfl, rfl, h⟩

theorem Gathers.runReplaced {get : σ → Option β}
    (harms : Gathers P arms num get Good (Replaced R)) :
    takeFields P arms fields s budget = .ok s' budget' →
      (∀ b ∈ messagesOf num fields, Good b) →
        Replaced R (messagesOf num fields) (get s) (get s') := by
  refine harms.run (fun _ => .inl ⟨rfl, rfl⟩) ?_
  rintro b bs x x₁ x' hfirst (⟨rfl, rfl⟩ | ⟨b', y, hlast, hy, hread⟩)
  · exact hfirst
  · exact .inr ⟨b', y, by rw [List.getLast?_cons, hlast]; rfl, hy, hread⟩

/-- One of the messages may be the element. -/
def Offered (R : Bytes → β → Prop) (bs : List Bytes) (x x' : Option β) : Prop :=
  x' = x ∨ ∃ b ∈ bs, ∃ y, x' = some y ∧ R b y

theorem Gathers.runOffered {get : σ → Option β}
    (harms : Gathers P arms num get Good (Offered R)) :
    takeFields P arms fields s budget = .ok s' budget' →
      (∀ b ∈ messagesOf num fields, Good b) →
        Offered R (messagesOf num fields) (get s) (get s') := by
  refine harms.run (fun _ => .inl rfl) ?_
  rintro b bs x x₁ x' hfirst (rfl | ⟨b', hb', hread⟩)
  · exact hfirst.imp_right fun ⟨b', hb', hread⟩ => ⟨b', by simp_all, hread⟩
  · exact .inr ⟨b', List.mem_cons_of_mem _ hb', hread⟩

end Loop

/-! ## Origins that fit -/

/-- The low half of the origin of each type in the message is a byte. -/
def OriginsFit (P : Protowire) (t : MessageType) (b : Bytes) : Prop :=
  ∀ b' fields, Inside P schema t b .type b' → P.Parses b' fields →
    uint32Reading (numberOf 3 fields) < 256

theorem OriginsFit.inside {t t' : MessageType} (h : OriginsFit P t msg)
    (hparse : P.Parses msg fields) (hmessage : subMessage t num = some t') :
    ∀ b ∈ messagesOf num fields, OriginsFit P t' b :=
  fun _ hmem b' fields' hinside => h b' fields'
    (.inside hparse (mem_of_messagesOf hmem) hmessage hinside)

/-! ## The value of a payload -/

section Values

variable {dec decBelow : Bytes → DecodeM Object}

/-- What is asked of the decoder of the values inside. -/
def ReadsValues (P : Protowire) (dec : Bytes → DecodeM Object) : Prop :=
  ∀ b budget v budget', dec b budget = .ok v budget' → OriginsFit P .montyObject b →
    ValueReads P b v

theorem ne_of_bytes {σ : Type} {g : Bytes → σ → DecodeM σ} {f : Field} {s s' : σ}
    (h : (Arm.bytes g).take P f s budget = .ok s' budget') : ∃ b, f = ⟨f.num, .bytes b⟩ := by
  obtain ⟨b, hb, -⟩ := take_bytes_ok.mp h
  exact ⟨b, by rw [← hb]⟩

/-- The pairs are those of the dict. -/
def DictReads (P : Protowire) (b : Bytes) (pairs : List (Object × Object)) : Prop :=
  ∃ fields, P.Parses b fields ∧ List.Forall₂ (PairReads P) (messagesOf 1 fields) pairs

theorem attrsReads_of_offered {attrs : Option (List (Object × Object))} {ms : List Bytes}
    (h : Offered (DictReads P) ms none attrs) : AttrsReads P ms attrs := by
  obtain rfl | ⟨b, hb, pairs, rfl, fields, hparse, hpairs⟩ := h
  · exact .none
  · exact .some hb hparse hpairs

variable (hdec : ReadsValues P dec)

include hdec

theorem adds_objectList : Gathers P (objectListArms dec) 1 id (OriginsFit P .montyObject)
    (Added (ValueReads P)) where
  takes b s budget s' budget' h hfit := by
    obtain ⟨_, v, budget₁, ⟨⟩, hv, rfl⟩ := take_bytes_bind h
    exact added_one (hdec b budget v budget₁ hv hfit)
  keeps f s budget s' budget' h hf := by
    obtain ⟨num, payload⟩ := f
    match num with
    | 1 =>
      obtain ⟨b, hb⟩ := ne_of_bytes h
      exact absurd hb (hf b)
    | 0 | n + 2 => exact (pure_eq_ok.mp (take_skip ▸ h)).1.symm

theorem reads_objectList {items : List Object}
    (h : decodeObjectList P dec msg budget = .ok items budget')
    (hfit : OriginsFit P .objectList msg) :
    ∃ fields, P.Parses msg fields ∧
      List.Forall₂ (ValueReads P) (messagesOf 1 fields) items := by
  obtain ⟨fields, hparse, htake⟩ := readMessage_eq_ok.mp h
  obtain ⟨xs, hxs, hreads⟩ := (adds_objectList hdec).runAdded htake (hfit.inside hparse rfl)
  rw [show items = xs from hxs]
  exact ⟨fields, hparse, hreads⟩

theorem adds_namedTuple : Gathers P (namedTupleArms dec) 3 (fun nt => nt.2.2)
    (OriginsFit P .montyObject) (Added (ValueReads P)) where
  takes b s budget s' budget' h hfit := by
    obtain ⟨_, v, budget₁, ⟨⟩, hv, rfl⟩ := take_bytes_bind h
    exact added_one (hdec b budget v budget₁ hv hfit)
  keeps f s budget s' budget' h hf := by
    obtain ⟨num, payload⟩ := f
    match num with
    | 1 | 2 =>
      obtain ⟨b, -, rfl⟩ := take_bytes_pure h
      rfl
    | 3 =>
      obtain ⟨b, hb⟩ := ne_of_bytes h
      exact absurd hb (hf b)
    | 0 | n + 4 =>
      obtain ⟨rfl, -⟩ := pure_eq_ok.mp (take_skip ▸ h)
      rfl

theorem replaces_key : Gathers P (pairArms dec) 1 (fun s => s.1) (OriginsFit P .montyObject)
    (Replaced (ValueReads P)) where
  takes b s budget s' budget' h hfit := by
    obtain ⟨_, v, budget₁, ⟨⟩, hv, rfl⟩ := take_bytes_bind h
    exact replaced_one (hdec b budget v budget₁ hv hfit)
  keeps f s budget s' budget' h hf := by
    obtain ⟨num, payload⟩ := f
    match num with
    | 1 =>
      obtain ⟨b, hb⟩ := ne_of_bytes h
      exact absurd hb (hf b)
    | 2 =>
      obtain ⟨b, v, budget₁, -, -, rfl⟩ := take_bytes_bind h
      rfl
    | 0 | n + 3 =>
      obtain ⟨rfl, -⟩ := pure_eq_ok.mp (take_skip ▸ h)
      rfl

theorem replaces_value : Gathers P (pairArms dec) 2 (fun s => s.2) (OriginsFit P .montyObject)
    (Replaced (ValueReads P)) where
  takes b s budget s' budget' h hfit := by
    obtain ⟨_, v, budget₁, ⟨⟩, hv, rfl⟩ := take_bytes_bind h
    exact replaced_one (hdec b budget v budget₁ hv hfit)
  keeps f s budget s' budget' h hf := by
    obtain ⟨num, payload⟩ := f
    match num with
    | 1 =>
      obtain ⟨b, v, budget₁, -, -, rfl⟩ := take_bytes_bind h
      rfl
    | 2 =>
      obtain ⟨b, hb⟩ := ne_of_bytes h
      exact absurd hb (hf b)
    | 0 | n + 3 =>
      obtain ⟨rfl, -⟩ := pure_eq_ok.mp (take_skip ▸ h)
      rfl

theorem reads_pair {pair : Object × Object} (h : decodePair P dec msg budget = .ok pair budget')
    (hfit : OriginsFit P .pair msg) : PairReads P msg pair := by
  obtain ⟨⟨key, value⟩, budget₁, hread, hmatch⟩ := bind_eq_ok.mp h
  obtain ⟨fields, hparse, htake⟩ := readMessage_eq_ok.mp hread
  obtain ⟨-, hkey⟩ | ⟨b₁, k, hlast, hkey, hreads⟩ :=
    (replaces_key hdec).runReplaced htake (hfit.inside hparse rfl)
  · obtain rfl : key = none := hkey
    exact absurd hmatch fail_ne_ok
  obtain ⟨-, hvalue⟩ | ⟨b₂, v, hlast', hvalue, hreads'⟩ :=
    (replaces_value hdec).runReplaced htake (hfit.inside hparse rfl)
  · obtain rfl : key = some k := hkey
    obtain rfl : value = none := hvalue
    exact absurd hmatch fail_ne_ok
  obtain rfl : key = some k := hkey
  obtain rfl : value = some v := hvalue
  obtain ⟨rfl, -⟩ := pure_eq_ok.mp hmatch
  exact ⟨hparse, hlast, hlast', hreads, hreads'⟩

theorem adds_dict : Gathers P (dictArms P dec) 1 id (OriginsFit P .pair)
    (Added (PairReads P)) where
  takes b s budget s' budget' h hfit := by
    obtain ⟨_, pair, budget₁, ⟨⟩, hpair, rfl⟩ := take_bytes_bind h
    exact added_one (reads_pair hdec hpair hfit)
  keeps f s budget s' budget' h hf := by
    obtain ⟨num, payload⟩ := f
    match num with
    | 1 =>
      obtain ⟨b, hb⟩ := ne_of_bytes h
      exact absurd hb (hf b)
    | 0 | n + 2 => exact (pure_eq_ok.mp (take_skip ▸ h)).1.symm

theorem reads_dict {pairs : List (Object × Object)}
    (h : decodeDict P dec msg budget = .ok pairs budget') (hfit : OriginsFit P .dict msg) :
    DictReads P msg pairs := by
  obtain ⟨fields, hparse, htake⟩ := readMessage_eq_ok.mp h
  obtain ⟨xs, hxs, hreads⟩ := (adds_dict hdec).runAdded htake (hfit.inside hparse rfl)
  rw [show pairs = xs from hxs]
  exact ⟨fields, hparse, hreads⟩

theorem offers_typeAttrs : Gathers P (typeArms P dec) 5 (fun t => t.attrs) (OriginsFit P .dict)
    (Offered (DictReads P)) where
  takes b s budget s' budget' h hfit := by
    obtain ⟨_, pairs, budget₁, ⟨⟩, hpairs, rfl⟩ := take_bytes_bind h
    split
    · exact .inr ⟨b, List.mem_cons_self, pairs, rfl, reads_dict hdec hpairs hfit⟩
    · exact .inl rfl
  keeps f s budget s' budget' h hf := by
    obtain ⟨num, payload⟩ := f
    match num with
    | 1 =>
      obtain ⟨b, -, rfl⟩ := take_bytes_pure h
      rfl
    | 2 =>
      obtain ⟨b, id, budget₁, -, -, rfl⟩ := take_bytes_bind h
      rfl
    | 3 | 4 =>
      obtain ⟨v, -, rfl⟩ := take_varint_pure h
      rfl
    | 5 =>
      obtain ⟨b, hb⟩ := ne_of_bytes h
      exact absurd hb (hf b)
    | 0 | n + 6 =>
      obtain ⟨rfl, -⟩ := pure_eq_ok.mp (take_skip ▸ h)
      rfl

theorem reads_type {info : TypeInfo} {attrs : Option (List (Object × Object))}
    (h : decodeType P dec msg budget = .ok (info, attrs) budget') (hfit : OriginsFit P .type msg) :
    TypeMessageReads P msg info attrs := by
  obtain ⟨fields, t, hparse, htake, -, heq⟩ := checked_eq_ok h
  have horigin := (decodeType_reads_iff hparse h).mpr (hfit msg fields .here hparse)
  have hattrs := (offers_typeAttrs hdec).runOffered htake (hfit.inside hparse rfl)
  cases heq
  exact ⟨hparse, horigin, attrsReads_of_offered hattrs⟩

theorem reads_namedTuple (h : decodeNamedTuple P dec msg budget = .ok v budget')
    (hfit : OriginsFit P .namedTuple msg) : ∃ fields typeName fieldNames values,
      P.Parses msg fields ∧ v = .namedTuple typeName fieldNames values ∧
        List.Forall₂ (ValueReads P) (messagesOf 3 fields) values := by
  obtain ⟨⟨typeName, fieldNames, values⟩, budget₁, hread, hmake⟩ := bind_eq_ok.mp h
  obtain ⟨rfl, -⟩ := pure_eq_ok.mp hmake
  obtain ⟨fields, hparse, htake⟩ := readMessage_eq_ok.mp hread
  obtain ⟨xs, hxs, hreads⟩ := (adds_namedTuple hdec).runAdded htake (hfit.inside hparse rfl)
  rw [← show values = xs from hxs] at hreads
  exact ⟨fields, typeName, fieldNames, values, hparse, rfl, hreads⟩

omit hdec

theorem replaces_instanceType (hbelow : ReadsValues P decBelow) :
    Gathers P (instanceArms P dec decBelow) 1 (fun s => s.type) (OriginsFit P .type)
      (Replaced fun b typ => TypeMessageReads P b typ.1 typ.2) where
  takes b s budget s' budget' h hfit := by
    obtain ⟨_, typ, budget₁, ⟨⟩, htyp, rfl⟩ := take_bytes_bind h
    exact replaced_one (reads_type hbelow htyp hfit)
  keeps f s budget s' budget' h hf := by
    obtain ⟨num, payload⟩ := f
    match num with
    | 1 =>
      obtain ⟨b, hb⟩ := ne_of_bytes h
      exact absurd hb (hf b)
    | 2 =>
      obtain ⟨b, id, budget₁, -, -, rfl⟩ := take_bytes_bind h
      rfl
    | 3 =>
      obtain ⟨b, pairs, budget₁, -, -, rfl⟩ := take_bytes_bind h
      split <;> rfl
    | 0 | n + 4 =>
      obtain ⟨rfl, -⟩ := pure_eq_ok.mp (take_skip ▸ h)
      rfl

theorem offers_instanceAttrs (hdec : ReadsValues P dec) :
    Gathers P (instanceArms P dec decBelow) 3 (fun s => s.attrs) (OriginsFit P .dict)
      (Offered (DictReads P)) where
  takes b s budget s' budget' h hfit := by
    obtain ⟨_, pairs, budget₁, ⟨⟩, hpairs, rfl⟩ := take_bytes_bind h
    split
    · exact .inr ⟨b, List.mem_cons_self, pairs, rfl, reads_dict hdec hpairs hfit⟩
    · exact .inl rfl
  keeps f s budget s' budget' h hf := by
    obtain ⟨num, payload⟩ := f
    match num with
    | 1 =>
      obtain ⟨b, typ, budget₁, -, -, rfl⟩ := take_bytes_bind h
      rfl
    | 2 =>
      obtain ⟨b, id, budget₁, -, -, rfl⟩ := take_bytes_bind h
      rfl
    | 3 =>
      obtain ⟨b, hb⟩ := ne_of_bytes h
      exact absurd hb (hf b)
    | 0 | n + 4 =>
      obtain ⟨rfl, -⟩ := pure_eq_ok.mp (take_skip ▸ h)
      rfl

theorem reads_instance (hdec : ReadsValues P dec) (hbelow : ReadsValues P decBelow)
    (h : decodeInstance P dec decBelow msg budget = .ok v budget')
    (hfit : OriginsFit P .classInstance msg) {front : List Field}
    (hb : P.Parses b (front ++ [⟨24, .bytes msg⟩])) : ValueReads P b v := by
  obtain ⟨⟨typ, id, attrs⟩, budget₁, hread, hmatch⟩ := bind_eq_ok.mp h
  obtain ⟨fields, hparse, htake⟩ := readMessage_eq_ok.mp hread
  have hattrs := (offers_instanceAttrs hdec).runOffered htake (hfit.inside hparse rfl)
  obtain ⟨-, hnone⟩ | ⟨b₁, x, hlast, hx, hreads⟩ :=
    (replaces_instanceType hbelow).runReplaced htake (hfit.inside hparse rfl)
  · obtain rfl : typ = none := hnone
    exact absurd hmatch fail_ne_ok
  obtain rfl : typ = some x := hx
  cases id with
  | none => exact absurd hmatch fail_ne_ok
  | some id =>
    dsimp only at hmatch
    split at hmatch
    · exact absurd hmatch fail_ne_ok
    obtain ⟨rfl, -⟩ := pure_eq_ok.mp hmatch
    exact .classInstance hb hparse hlast hreads (attrsReads_of_offered hattrs)

/-! ### The kinds of a value -/

theorem plain_decodeBig (h : decodeBig P msg budget = .ok v budget') : plain v = true := by
  obtain ⟨⟨neg, mag⟩, budget₁, -, hrest⟩ := bind_eq_ok.mp h
  obtain ⟨_, budget₂, -, hmake⟩ := bind_eq_ok.mp hrest
  obtain ⟨rfl, -⟩ := pure_eq_ok.mp hmake
  rfl

theorem plain_charged {make : Bytes → Object} (hmake : ∀ b, plain (make b) = true)
    (h : charged make msg budget = .ok v budget') : plain v = true := by
  obtain ⟨_, budget₁, -, hpure⟩ := bind_eq_ok.mp h
  obtain ⟨rfl, -⟩ := pure_eq_ok.mp hpure
  exact hmake msg

theorem plain_made {σ : Type} {arms : ℕ → Arm σ} {s : σ} {make : σ → Object}
    (hmake : ∀ s, plain (make s) = true)
    (h : (do let s' ← readMessage P arms msg s; pure (make s') : DecodeM Object) budget =
      .ok v budget') : plain v = true := by
  obtain ⟨s', budget₁, -, hpure⟩ := bind_eq_ok.mp h
  obtain ⟨rfl, -⟩ := pure_eq_ok.mp hpure
  exact hmake s'

theorem plain_decodeFileHandle (h : decodeFileHandle P msg budget = .ok v budget') :
    plain v = true := by
  obtain ⟨fields, x, -, -, -, rfl⟩ := checked_eq_ok h
  rfl

/-- **The last field of a payload is read as its kind.** -/
theorem reads_lastField (hdec : ReadsValues P dec) (hbelow : ReadsValues P decBelow)
    {front : List Field} {payload : Payload} {s : Object × Bool}
    (h : (valueArms P dec decBelow num).take P ⟨num, payload⟩ s budget = .ok (v, true) budget')
    (hb : P.Parses b (front ++ [⟨num, payload⟩])) (hfit : OriginsFit P .montyObject b) :
    ValueReads P b v := by
  have hsub : ∀ m t', payload = .bytes m → subMessage .montyObject num = some t' →
      OriginsFit P t' m := by
    rintro m t' rfl hmessage b' fields hinside
    exact hfit b' fields (.inside hb (List.mem_append_right _ List.mem_cons_self) hmessage hinside)
  match num with
  | 1 | 2 | 3 | 26 | 27 =>
    obtain ⟨m, rfl, heq⟩ := take_bytes_pure h
    cases heq
    exact .plain hb (by decide) rfl
  | 4 | 5 =>
    obtain ⟨x, rfl, heq⟩ := take_varint_pure h
    cases heq
    exact .plain hb (by decide) rfl
  | 7 =>
    obtain ⟨x, rfl, hset⟩ := take_fixed64_ok.mp h
    cases (pure_eq_ok.mp hset).1
    exact .plain hb (by decide) rfl
  | 6 =>
    obtain ⟨m, _, _, rfl, hread, ⟨⟩⟩ := take_bytes_bind h
    exact .plain hb (by decide) (plain_decodeBig hread)
  | 8 | 9 | 29 =>
    obtain ⟨m, _, _, rfl, hread, ⟨⟩⟩ := take_bytes_bind h
    exact .plain hb (by decide) (plain_charged (fun _ => rfl) hread)
  | 22 | 25 | 30 =>
    obtain ⟨m, _, _, rfl, hread, ⟨⟩⟩ := take_bytes_bind h
    exact .plain hb (by decide) (plain_made (fun _ => rfl) hread)
  | 28 =>
    obtain ⟨m, _, _, rfl, hread, ⟨⟩⟩ := take_bytes_bind h
    exact .plain hb (by decide) (plain_decodeFileHandle hread)
  | 10 =>
    obtain ⟨m, -, hfail⟩ := take_bytes_ok.mp h
    exact absurd hfail fail_ne_ok
  | 11 | 12 | 15 | 16 =>
    obtain ⟨m, items, _, rfl, hread, ⟨⟩⟩ := take_bytes_bind h
    obtain ⟨fields, hfields, hitems⟩ := reads_objectList hdec hread (hsub m _ rfl rfl)
    exact .items hb (by simp) hfields hitems
  | 13 =>
    obtain ⟨m, _, _, rfl, hread, ⟨⟩⟩ := take_bytes_bind h
    obtain ⟨fields, typeName, fieldNames, values, hfields, rfl, hvalues⟩ :=
      reads_namedTuple hdec hread (hsub m _ rfl rfl)
    exact .namedTuple hb hfields hvalues
  | 14 =>
    obtain ⟨m, pairs, _, rfl, hread, ⟨⟩⟩ := take_bytes_bind h
    obtain ⟨fields, hfields, hpairs⟩ := reads_dict hdec hread (hsub m _ rfl rfl)
    exact .dict hb hfields hpairs
  | 17 =>
    obtain ⟨m, _, _, rfl, hread, ⟨⟩⟩ := take_bytes_bind h
    obtain ⟨fields, d, hfields, rfl, hreads⟩ := decodeDate_reads hread
    exact .date hb hfields hreads
  | 18 =>
    obtain ⟨m, _, _, rfl, hread, ⟨⟩⟩ := take_bytes_bind h
    obtain ⟨fields, t, hfields, rfl, hreads⟩ := decodeTime_reads hread
    exact .time hb hfields hreads
  | 19 =>
    obtain ⟨m, _, _, rfl, hread, ⟨⟩⟩ := take_bytes_bind h
    obtain ⟨fields, d, hfields, rfl, hreads⟩ := decodeDateTime_reads hread
    exact .dateTime hb hfields hreads
  | 20 =>
    obtain ⟨m, _, _, rfl, hread, ⟨⟩⟩ := take_bytes_bind h
    obtain ⟨fields, t, hfields, rfl, hreads⟩ := decodeTimeDelta_reads hread
    exact .timeDelta hb hfields hreads
  | 21 =>
    obtain ⟨m, t, _, rfl, hread, ⟨⟩⟩ := take_bytes_bind h
    obtain ⟨fields, hfields, hreads⟩ := decodeTimeZone_reads hread
    exact .timeZone hb hfields hreads
  | 23 =>
    obtain ⟨m, ⟨info, attrs⟩, _, rfl, hread, ⟨⟩⟩ := take_bytes_bind h
    exact .type hb (reads_type hdec hread (hsub m _ rfl rfl))
  | 24 =>
    obtain ⟨m, _, _, rfl, hread, ⟨⟩⟩ := take_bytes_bind h
    exact reads_instance hdec hbelow hread (hsub m _ rfl rfl) hb
  | 0 | n + 31 =>
    -- such a field takes the mark of the kind before it away
    cases (pure_eq_ok.mp (take_skip ▸ h)).1

/-- **The value of an accepted payload holds the readings of its numbers**, where the origins
fit. -/
theorem readsValues_within (room : ℕ) : ReadsValues P (decodeWithin P room) := by
  induction room using Nat.strong_induction_on with
  | h room ih =>
    intro b budget v budget' h hfit
    cases room with
    | zero => exact absurd h fail_ne_ok
    | succ room =>
      rw [decodeWithin_succ] at h
      obtain ⟨_, budget₁, -, hrest⟩ := bind_eq_ok.mp h
      obtain ⟨⟨out, seen⟩, budget₂, hread, hseen⟩ := bind_eq_ok.mp hrest
      dsimp only at hseen
      split at hseen
      · rename_i hkind
        obtain ⟨rfl, -⟩ := pure_eq_ok.mp hseen
        obtain ⟨fields, hparse, htake⟩ := readMessage_eq_ok.mp hread
        obtain ⟨rfl, heq⟩ | ⟨front, num, payload, s, budget₃, budget₄, rfl, hlast⟩ :=
          takeFields_last htake
        · rw [hkind] at heq
          cases heq
        · rw [hkind] at hlast
          exact reads_lastField (ih room (by omega)) (ih (room - 1) (by omega)) hlast hparse hfit
      · exact absurd hseen fail_ne_ok

end Values

/-! ## The messages of a payload -/

section Messages

variable {t t' : MessageType} {num : ℕ} {σ α : Type} {b : Bytes}

/-- The record that the message is decoded to holds the readings of its numbers, and they are in
range. -/
def Faithful (P : Protowire) (t : MessageType) (b : Bytes) : Prop :=
  match t with
  | .date => ∃ fields d, P.Parses b fields ∧
      (∃ budget budget', decodeDate P b budget = .ok (.date d) budget') ∧ DateReads fields d
  | .time => ∃ fields t, P.Parses b fields ∧
      (∃ budget budget', decodeTime P b budget = .ok (.time t) budget') ∧ TimeReads fields t
  | .dateTime => ∃ fields d, P.Parses b fields ∧
      (∃ budget budget', decodeDateTime P b budget = .ok (.dateTime d) budget') ∧
        DateTimeReads fields d
  | .timeDelta => ∃ fields t, P.Parses b fields ∧
      (∃ budget budget', decodeTimeDelta P b budget = .ok (.timeDelta t) budget') ∧
        TimeDeltaReads fields t
  | .timeZone => ∃ fields t, P.Parses b fields ∧
      (∃ budget budget', decodeTimeZone P b budget = .ok t budget') ∧ TimeZoneReads fields t
  | .type => ∃ fields info attrs, P.Parses b fields ∧
      (∃ room budget budget',
        decodeType P (decodeWithin P room) b budget = .ok (info, attrs) budget') ∧
      TypeReads fields info
  | _ => True

/-- The message is read faithfully, if it is no type whose origin does not fit. -/
def Read (P : Protowire) (t : MessageType) (b : Bytes) : Prop :=
  (∀ fields, t = .type → P.Parses b fields → uint32Reading (numberOf 3 fields) < 256) →
    Faithful P t b

/-- Every message inside the message is read. -/
def ReadsAll (P : Protowire) (t : MessageType) (b : Bytes) : Prop :=
  ∀ t' b', Inside P schema t b t' b' → Read P t' b'

/-- The arm reads the message of its field, if the field holds one. -/
def ReadsArm (P : Protowire) (t : MessageType) (num : ℕ) (arm : Arm σ) : Prop :=
  ∀ b s budget s' budget', arm.take P ⟨num, .bytes b⟩ s budget = .ok s' budget' →
    ∀ t', subMessage t num = some t' → ReadsAll P t' b

theorem readsAll_readMessage {arms : ℕ → Arm σ} {s s' : σ} (hself : Read P t msg)
    (h : readMessage P arms msg s budget = .ok s' budget')
    (harms : (messageTable t).Forall fun m => ReadsArm P t m.1 (arms m.1)) :
    ReadsAll P t msg := by
  intro t' b' hinside
  cases hinside with
  | here => exact hself
  | inside hparse hmem hmessage hsub =>
    obtain ⟨fields', hparse', htake⟩ := readMessage_eq_ok.mp h
    cases hparse.unique hparse'
    obtain ⟨s₁, budget₁, s₂, budget₂, hfield⟩ := takeFields_mem htake hmem
    exact List.forall_iff_forall_mem.mp harms _ (mem_messageTable hmessage) _ _ _ _ _ hfield _
      hmessage _ _ hsub

theorem readsAll_leaf (hleaf : messageTable t = []) (hself : Read P t msg) :
    ReadsAll P t msg := by
  intro t' b' hinside
  cases hinside with
  | here => exact hself
  | inside hparse hmem hmessage hsub =>
    have hnone : subMessage t = fun _ => none := by
      funext num
      rw [subMessage, hleaf]
      rfl
    rw [show schema.message t = fun _ => none from hnone] at hmessage
    cases hmessage

theorem readsArm_message {d : Bytes → DecodeM α} {k : α → σ → DecodeM σ}
    (hmessage : subMessage t num = some t')
    (hd : ∀ b budget a budget', d b budget = .ok a budget' → ReadsAll P t' b) :
    ReadsArm P t num (.bytes fun b s => d b >>= fun a => k a s) := by
  intro b s budget s' budget' htake t'' ht''
  cases hmessage.symm.trans ht''
  obtain ⟨b', hb, hbind⟩ := take_bytes_ok.mp htake
  cases hb
  obtain ⟨a, budget₁, ha, -⟩ := bind_eq_ok.mp hbind
  exact hd b budget a budget₁ ha

theorem readsArm_leaf {arm : Arm σ} (hmessage : subMessage t num = some t')
    (hleaf : messageTable t' = []) (hself : ∀ b, Read P t' b) : ReadsArm P t num arm := by
  intro b s budget s' budget' _ t'' ht''
  cases hmessage.symm.trans ht''
  exact readsAll_leaf hleaf (hself b)

variable {dec : Bytes → DecodeM Object} {room below : ℕ}

/-- What is asked of the decoder of the values inside. -/
def ReadsInside (P : Protowire) (dec : Bytes → DecodeM Object) : Prop :=
  ∀ b budget v budget', dec b budget = .ok v budget' → ReadsAll P .montyObject b

variable (hdec : ReadsInside P dec)

include hdec

theorem readsAll_objectList {items : List Object}
    (h : decodeObjectList P dec msg budget = .ok items budget') : ReadsAll P .objectList msg :=
  readsAll_readMessage (fun _ => trivial) h (readsArm_message rfl hdec)

theorem readsAll_namedTuple (h : decodeNamedTuple P dec msg budget = .ok v budget') :
    ReadsAll P .namedTuple msg := by
  obtain ⟨s, budget₁, hread, -⟩ := bind_eq_ok.mp h
  exact readsAll_readMessage (fun _ => trivial) hread (readsArm_message rfl hdec)

theorem readsAll_pair {pair : Object × Object}
    (h : decodePair P dec msg budget = .ok pair budget') : ReadsAll P .pair msg := by
  obtain ⟨s, budget₁, hread, -⟩ := bind_eq_ok.mp h
  exact readsAll_readMessage (fun _ => trivial) hread
    (And.intro (readsArm_message rfl hdec) (readsArm_message rfl hdec))

theorem readsAll_dict {pairs : List (Object × Object)}
    (h : decodeDict P dec msg budget = .ok pairs budget') : ReadsAll P .dict msg :=
  readsAll_readMessage (fun _ => trivial) h
    (readsArm_message rfl fun _ _ _ _ hpair => readsAll_pair hdec hpair)

omit hdec

theorem readsAll_type {typ : TypeInfo × Option (List (Object × Object))}
    (hdec : ReadsInside P (decodeWithin P room))
    (h : decodeType P (decodeWithin P room) msg budget = .ok typ budget') :
    ReadsAll P .type msg := by
  obtain ⟨s, budget₁, hread, -⟩ := bind_eq_ok.mp h
  refine readsAll_readMessage (fun hfits => ?_) hread ⟨?_, ?_⟩
  · obtain ⟨fields, -, hparse, -⟩ := checked_eq_ok h
    exact ⟨fields, typ.1, typ.2, hparse, ⟨_, _, _, h⟩,
      (decodeType_reads_iff hparse h).mpr (hfits fields rfl hparse)⟩
  · exact readsArm_leaf rfl rfl fun _ _ => trivial
  · exact readsArm_message rfl fun _ _ _ _ hdict => readsAll_dict hdec hdict

theorem readsAll_instance (hdec : ReadsInside P (decodeWithin P room))
    (hbelow : ReadsInside P (decodeWithin P below))
    (h : decodeInstance P (decodeWithin P room) (decodeWithin P below) msg budget = .ok v budget') :
    ReadsAll P .classInstance msg := by
  obtain ⟨s, budget₁, hread, -⟩ := bind_eq_ok.mp h
  refine readsAll_readMessage (fun _ => trivial) hread ⟨?_, ?_, ?_⟩
  · exact readsArm_message rfl fun _ _ _ _ htype => readsAll_type hbelow htype
  · exact readsArm_leaf rfl rfl fun _ _ => trivial
  · exact readsArm_message rfl fun _ _ _ _ hdict => readsAll_dict hdec hdict

theorem read_date (h : decodeDate P b budget = .ok v budget') : Read P .date b := by
  obtain ⟨fields, d, hparse, rfl, hreads⟩ := decodeDate_reads h
  exact fun _ => ⟨fields, d, hparse, ⟨_, _, h⟩, hreads⟩

theorem read_time (h : decodeTime P b budget = .ok v budget') : Read P .time b := by
  obtain ⟨fields, t, hparse, rfl, hreads⟩ := decodeTime_reads h
  exact fun _ => ⟨fields, t, hparse, ⟨_, _, h⟩, hreads⟩

theorem read_dateTime (h : decodeDateTime P b budget = .ok v budget') : Read P .dateTime b := by
  obtain ⟨fields, d, hparse, rfl, hreads⟩ := decodeDateTime_reads h
  exact fun _ => ⟨fields, d, hparse, ⟨_, _, h⟩, hreads⟩

theorem read_timeDelta (h : decodeTimeDelta P b budget = .ok v budget') : Read P .timeDelta b := by
  obtain ⟨fields, t, hparse, rfl, hreads⟩ := decodeTimeDelta_reads h
  exact fun _ => ⟨fields, t, hparse, ⟨_, _, h⟩, hreads⟩

theorem read_timeZone {t : TimeZone} (h : decodeTimeZone P b budget = .ok t budget') :
    Read P .timeZone b := by
  obtain ⟨fields, hparse, hreads⟩ := decodeTimeZone_reads h
  exact fun _ => ⟨fields, t, hparse, ⟨_, _, h⟩, hreads⟩

theorem readsArm_record {d : Bytes → DecodeM α} {k : α → σ → DecodeM σ}
    (hmessage : subMessage t num = some t') (hleaf : messageTable t' = [])
    (hself : ∀ b budget a budget', d b budget = .ok a budget' → Read P t' b) :
    ReadsArm P t num (.bytes fun b s => d b >>= fun a => k a s) :=
  readsArm_message hmessage fun b budget a budget' h =>
    readsAll_leaf hleaf (hself b budget a budget' h)

theorem readsArm_value (hdec : ReadsInside P (decodeWithin P room))
    (hbelow : ReadsInside P (decodeWithin P below)) :
    (messageTable .montyObject).Forall fun m => ReadsArm P .montyObject m.1
      (valueArms P (decodeWithin P room) (decodeWithin P below) m.1) := by
  refine ⟨?_, ?_, ?_, ?_, ?_, ?_, ?_, ?_, ?_, ?_, ?_, ?_, ?_, ?_, ?_, ?_, ?_, ?_, ?_, ?_, ?_, ?_⟩
  · exact readsArm_leaf rfl rfl fun _ _ => trivial
  · exact readsArm_leaf rfl rfl fun _ _ => trivial
  · exact readsArm_leaf rfl rfl fun _ _ => trivial
  · exact readsArm_leaf rfl rfl fun _ _ => trivial
  · exact readsArm_leaf rfl rfl fun _ _ => trivial
  · exact readsArm_message rfl fun _ _ _ _ h => readsAll_objectList hdec h
  · exact readsArm_message rfl fun _ _ _ _ h => readsAll_objectList hdec h
  · exact readsArm_message rfl fun _ _ _ _ h => readsAll_namedTuple hdec h
  · exact readsArm_message rfl fun _ _ _ _ h => readsAll_dict hdec h
  · exact readsArm_message rfl fun _ _ _ _ h => readsAll_objectList hdec h
  · exact readsArm_message rfl fun _ _ _ _ h => readsAll_objectList hdec h
  · exact readsArm_record rfl rfl fun _ _ _ _ h => read_date h
  · exact readsArm_record rfl rfl fun _ _ _ _ h => read_time h
  · exact readsArm_record rfl rfl fun _ _ _ _ h => read_dateTime h
  · exact readsArm_record rfl rfl fun _ _ _ _ h => read_timeDelta h
  · exact readsArm_record rfl rfl fun _ _ _ _ h => read_timeZone h
  · exact readsArm_leaf rfl rfl fun _ _ => trivial
  · exact readsArm_message rfl fun _ _ _ _ h => readsAll_type hdec h
  · exact readsArm_message rfl fun _ _ _ _ h => readsAll_instance hdec hbelow h
  all_goals exact readsArm_leaf rfl rfl fun _ _ => trivial

/-- **Every message of an accepted payload is read by its own decoder.** -/
theorem readsInside_within (room : ℕ) : ReadsInside P (decodeWithin P room) := by
  induction room using Nat.strong_induction_on with
  | h room ih =>
    intro b budget v budget' h
    cases room with
    | zero => exact absurd h fail_ne_ok
    | succ room =>
      rw [decodeWithin_succ] at h
      obtain ⟨_, budget₁, -, hrest⟩ := bind_eq_ok.mp h
      obtain ⟨out, budget₂, hread, -⟩ := bind_eq_ok.mp hrest
      exact readsAll_readMessage (fun _ => trivial) hread
        (readsArm_value (ih room (by omega)) (ih (room - 1) (by omega)))

theorem decodeValue_readsAll {depth : ℕ} (h : decodeValue P msg depth budget = .ok v budget') :
    ReadsAll P .montyObject msg :=
  readsInside_within _ msg budget v budget' h

end Messages

/-! ## Payloads -/

/-- **What an accepted payload is read as.**  The value of an accepted payload holds, part by part,
the readings of the numbers in its messages, all in range, and so does the record of every message
inside that a later field replaced, exactly when the low half of the origin of each type in the
payload is a byte. -/
theorem decodeValue_reads_iff {depth : ℕ} (hok : decodeValue P msg depth budget = .ok v budget') :
    (ValueReads P msg v ∧ ∀ t b, Inside P schema .montyObject msg t b → Faithful P t b) ↔
      OriginsFit P .montyObject msg := by
  constructor
  · rintro ⟨-, h⟩ b fields hinside hparse
    obtain ⟨fields', info, attrs, hparse', ⟨room, budget₁, budget₂, hdecode⟩, hreads⟩ :=
      h .type b hinside
    cases hparse.unique hparse'
    exact (decodeType_reads_iff hparse hdecode).mp hreads
  · intro h
    refine ⟨readsValues_within _ msg budget v budget' hok h, fun t b hinside => ?_⟩
    refine decodeValue_readsAll hok t b hinside fun fields ht hparse => ?_
    subst ht
    exact h b fields hinside hparse

/-- A list of a date and of a builtin type. -/
def dateAndType : Bytes :=
  [90, 18, 10, 9, 138, 1, 6, 8, 1, 16, 1, 24, 1, 10, 5, 186, 1, 2, 24, 1]

/-- Its value. -/
def firstDay : Object := .list [.date ⟨1, 1, 1⟩, .type ⟨[], [], originBuiltin, false⟩ none]

theorem decodeValue_reads_dateAndType :
    decodeValue standard dateAndType 0 none = .ok firstDay none ∧
      ((ValueReads standard dateAndType firstDay ∧
          ∀ t b, Inside standard schema .montyObject dateAndType t b → Faithful standard t b) ↔
        OriginsFit standard .montyObject dateAndType) := by
  have hok : decodeValue standard dateAndType 0 none = .ok firstDay none := rfl
  exact ⟨hok, decodeValue_reads_iff hok⟩

set_option maxRecDepth 1000 in
theorem parses_wideOrigin : standard.Parses [186, 1, 3, 24, 129, 2] [⟨23, .bytes [24, 129, 2]⟩] :=
  parses_singleton rfl rfl rfl

/-- A type with the origin 257 is accepted as a builtin. -/
theorem origin_cut_to_builtin : decodeValue standard [186, 1, 3, 24, 129, 2] 1 none =
        .ok (.type ⟨[], [], originBuiltin, false⟩ none) none ∧
      standard.Parses [186, 1, 3, 24, 129, 2] [⟨23, .bytes [24, 129, 2]⟩] ∧
      standard.Parses [24, 129, 2] [⟨3, .varint 257⟩] ∧
      int32Reading (numberOf 3 [⟨3, .varint 257⟩]) = 257 ∧
      ¬ Faithful standard .type [24, 129, 2] := by
  have htype : standard.Parses [24, 129, 2] [⟨3, .varint 257⟩] := parses_singleton rfl rfl rfl
  have hnumber : int32Reading (numberOf 3 [⟨3, .varint 257⟩]) = 257 := rfl
  refine ⟨rfl, parses_wideOrigin, htype, hnumber, ?_⟩
  rintro ⟨fields, info, attrs, hparse, -, hreads⟩
  have hmem := hreads.origin_mem
  rw [← htype.unique hparse, hnumber] at hmem
  exact absurd hmem (by decide)

end Montygo.Wire
