import Montygo.Lib.WireTree
import Montygo.Wire.Schema
import Montygo.Wire.Fields
import Montygo.Wire.Decode

/-!
# What a decoder makes of a tree

A decoder `Yields` a result when it gives that result without a limit and under every budget that
is large enough, and no other result under any budget, and it `Refuses` when no budget makes it
succeed.  Both go along with the way decoders are put together, and with the tree of the message
that is decoded: `Takes` and `RefusesNodes` say what the arms of a decoder make of the nodes of a
message.
-/

namespace Montygo.Wire

open Go Value WireFormat Protowire Fallible

variable {α β σ : Type}

/-- The decoder gives `a`, whatever the budget is as long as it is large enough, and nothing
else. -/
structure Yields (x : DecodeM α) (a : α) : Prop where
  unlimited : x none = .ok a none
  enough : ∃ cost : ℕ, ∀ n : ℤ, cost ≤ n → x (some n) = .ok a (some (n - cost))
  agrees : ∀ budget a' budget', x budget = .ok a' budget' → a' = a

/-- The decoder fails under every budget. -/
def Refuses (x : DecodeM α) : Prop := ∀ budget a budget', x budget ≠ .ok a budget'

variable {x : DecodeM α} {f : α → DecodeM β} {a : α} {c : β}

theorem yields_pure (a : α) : Yields (pure a) a where
  unlimited := rfl
  enough := ⟨0, fun n _ => by simp [pure, EStateM.pure]⟩
  agrees _ _ _ h := (pure_eq_ok.mp h).1.symm

theorem yields_charge (n : ℕ) : Yields (charge n) () := by
  refine ⟨rfl, ⟨n, fun budget hle => ?_⟩, fun _ _ _ _ => rfl⟩
  rw [charge, if_neg (by omega)]

theorem Yields.bind (hx : Yields x a) (hf : Yields (f a) c) : Yields (x >>= f) c := by
  obtain ⟨hx, ⟨k, hk⟩, hagrees⟩ := hx
  obtain ⟨hf, ⟨k', hk'⟩, hagrees'⟩ := hf
  refine ⟨bind_eq_ok.mpr ⟨a, none, hx, hf⟩, ⟨k + k', fun n hn => ?_⟩, fun budget c' budget' h => ?_⟩
  · refine bind_eq_ok.mpr ⟨a, _, hk n (by omega), ?_⟩
    rw [hk' _ (by omega)]
    congr 2
    push_cast
    omega
  · obtain ⟨a', budget₁, ha', hc'⟩ := bind_eq_ok.mp h
    obtain rfl := hagrees _ _ _ ha'
    exact hagrees' _ _ _ hc'

theorem yields_ensure {check : Except WireError Unit} (h : check = .ok ()) :
    Yields (ensure check) () := by
  rw [h]
  exact yields_pure ()

theorem refuses_fail (e : WireError) : Refuses (fail e : DecodeM α) := fun _ _ _ => fail_ne_ok

theorem Refuses.bind (hx : Refuses x) : Refuses (x >>= f) := by
  intro budget b budget' h
  obtain ⟨a, budget₁, ha, -⟩ := bind_eq_ok.mp h
  exact hx _ _ _ ha

theorem refuses_bind (hf : ∀ a, Refuses (f a)) : Refuses (x >>= f) := by
  intro budget b budget' h
  obtain ⟨a, budget₁, -, hb⟩ := bind_eq_ok.mp h
  exact hf _ _ _ _ hb

/-! ## Messages -/

variable {P : Protowire} {arms : ℕ → Arm σ} {s s' s₁ : σ} {msg : Bytes} {fields fields' : List Field}

theorem takeFields_append (s : σ) : takeFields P arms (fields ++ fields') s =
      takeFields P arms fields s >>= takeFields P arms fields' := by
  induction fields generalizing s with
  | nil => rfl
  | cons f rest ih =>
    simp only [List.cons_append, takeFields, bind_assoc]
    exact congrArg _ (funext ih)

theorem yields_readMessage (hparse : P.Parses msg fields)
    (h : Yields (takeFields P arms fields s) s') : Yields (readMessage P arms msg s) s' := by
  obtain ⟨hnone, ⟨cost, henough⟩, hagrees⟩ := h
  refine ⟨readMessage_eq_ok.mpr ⟨fields, hparse, hnone⟩, ⟨cost,
    fun n hn => readMessage_eq_ok.mpr ⟨fields, hparse, henough n hn⟩⟩, fun _ _ _ hok => ?_⟩
  obtain ⟨fields', hparse', htake⟩ := readMessage_eq_ok.mp hok
  rw [hparse'.unique hparse] at htake
  exact hagrees _ _ _ htake

theorem refuses_readMessage (hparse : P.Parses msg fields)
    (h : Refuses (takeFields P arms fields s)) : Refuses (readMessage P arms msg s) := by
  intro budget s' budget' hok
  obtain ⟨fields', hparse', htake⟩ := readMessage_eq_ok.mp hok
  rw [hparse'.unique hparse] at htake
  exact h _ _ _ htake

/-! ### Fields that may be left out -/

theorem toInt32_toUInt64 (x : Int32) : toInt32 x.toInt64.toUInt64 = x := by
  apply Int32.toBitVec_inj.mp
  show BitVec.setWidth 32 (BitVec.signExtend 64 x.toBitVec) = x.toBitVec
  ext i hi
  simp
  grind

theorem clampU32_toUInt64 (x : UInt8) : clampU32 x.toUInt64 = x := by
  have hlt := x.toNat_lt
  rw [clampU32, if_neg, UInt8.toUInt8_toUInt64]
  rw [UInt64.lt_iff_toNat_lt, UInt8.toNat_toUInt64]
  simp
  omega

section Optional

variable {num : ℕ} {upd : UInt64 → σ → σ}

theorem take_uintFields (v : UInt64) (harm : arms num = .varint fun v s => pure (upd v s))
    (hzero : upd 0 s = s) :
    takeFields P arms (uintFields num v) s = pure (upd v s) := by
  unfold uintFields
  split
  · rename_i hv
    rw [hv, hzero]
    rfl
  · simp only [takeFields, harm]
    rfl

theorem take_boolFields (v : Bool) (harm : arms num = .varint fun v s => pure (upd v s))
    (hzero : upd 0 s = s) :
    takeFields P arms (boolFields num v) s = pure (upd (if v then 1 else 0) s) := by
  cases v with
  | false =>
    simp only [Bool.false_eq_true, if_false, hzero]
    rfl
  | true =>
    simp only [boolFields, if_true, takeFields, harm]
    rfl

theorem take_int32Fields (v : Int32) (harm : arms num = .varint fun v s => pure (upd v s))
    (hzero : upd 0 s = s) :
    takeFields P arms (int32Fields num v) s = pure (upd v.toInt64.toUInt64 s) := by
  unfold int32Fields
  split
  · rename_i hv
    rw [hv]
    exact congrArg pure hzero.symm
  · simp only [takeFields, harm]
    rfl

theorem take_stringFields {upd : Bytes → σ → σ} (v : GoString)
    (harm : arms num = .bytes fun v s => pure (upd v s)) (hzero : upd [] s = s) :
    takeFields P arms (stringFields num v) s = pure (upd v s) := by
  unfold stringFields
  split
  · rename_i hv
    rw [hv, hzero]
    rfl
  · simp only [takeFields, harm]
    rfl

theorem take_optionalString (upd : Option GoString → σ → σ) (v : Option GoString)
    (harm : arms num = .bytes fun v s => pure (upd (some v) s)) (hzero : upd none s = s) :
    takeFields P arms (optionalFields num .bytes v) s = pure (upd v s) := by
  cases v with
  | none => exact congrArg pure hzero.symm
  | some v =>
    simp only [optionalFields, takeFields, harm]
    rfl

theorem take_optionalInt32 (upd : Option Int32 → σ → σ) (v : Option Int32)
    (harm : arms num = .varint fun v s => pure (upd (some (toInt32 v)) s))
    (hzero : upd none s = s) :
    takeFields P arms (optionalFields num (fun v => .varint v.toInt64.toUInt64) v) s =
      pure (upd v s) := by
  cases v with
  | none => exact congrArg pure hzero.symm
  | some v =>
    simp only [optionalFields, takeFields, harm, Arm.take, pure_bind, toInt32_toUInt64]

theorem take_repeated {push : σ → Bytes → σ} (vs : List Bytes)
    (harm : arms num = .bytes fun v s => pure (push s v)) (s : σ) :
    takeFields P arms (vs.map fun v => ⟨num, .bytes v⟩) s = pure (vs.foldl push s) := by
  induction vs generalizing s with
  | nil => rfl
  | cons v rest ih =>
    simp only [List.map_cons, takeFields, harm, Arm.take, pure_bind, ih, List.foldl_cons]

end Optional

/-! ## Trees -/

variable {t t' : MessageType} {nodes nodes' : List Node} {num : ℕ}

/-- The arms take a message with these nodes from one state to the other. -/
def Takes (P : Protowire) (t : MessageType) (arms : ℕ → Arm σ) (nodes : List Node) (s s' : σ) :
    Prop :=
  ∀ fields, ReadsFields P schema t fields nodes → Yields (takeFields P arms fields s) s'

/-- The arms refuse every message with these nodes. -/
def RefusesNodes (P : Protowire) (t : MessageType) (arms : ℕ → Arm σ) (nodes : List Node) : Prop :=
  ∀ fields s, ReadsFields P schema t fields nodes → Refuses (takeFields P arms fields s)

theorem takes_nil (s : σ) : Takes P t arms [] s s := by
  intro fields h
  cases h
  exact yields_pure s

theorem Takes.append (h : Takes P t arms nodes s s₁) (h' : Takes P t arms nodes' s₁ s') :
    Takes P t arms (nodes ++ nodes') s s' := by
  intro fields hfields
  obtain ⟨fields₁, fields₂, rfl, h₁, h₂⟩ := hfields.split
  rw [takeFields_append]
  exact (h _ h₁).bind (h' _ h₂)

theorem takes_leaves (h : takeFields P arms fields s = pure s') :
    Takes P t arms (leaves fields) s s' := by
  intro fields' hfields
  rw [hfields.eq_of_leaves, h]
  exact yields_pure s'

theorem takes_leaf {f : Field} (h : Yields ((arms f.num).take P f s) s') :
    Takes P t arms [.leaf f] s s' := by
  intro fields hfields
  cases hfields with
  | leaf _ hrest =>
    cases hrest
    exact h.bind (yields_pure s')

theorem takes_message {g : Bytes → σ → DecodeM σ} (hmessage : subMessage t num = some t')
    (harm : arms num = .bytes g) (h : ∀ b, Reads P schema t' b nodes → Yields (g b s) s') :
    Takes P t arms [.message num nodes] s s' := by
  intro fields hfields
  obtain ⟨b, rfl, hreads⟩ := hfields.singleton hmessage
  simp only [takeFields, harm]
  exact (h b hreads).bind (yields_pure s')

theorem refusesNodes_of_mem {g : Bytes → σ → DecodeM σ} (hmem : .message num nodes' ∈ nodes)
    (hmessage : subMessage t num = some t') (harm : arms num = .bytes g)
    (h : ∀ b s, Reads P schema t' b nodes' → Refuses (g b s)) : RefusesNodes P t arms nodes := by
  intro fields s hfields
  obtain ⟨b, t₁, hfield, hmessage₁, hreads⟩ := hfields.field_of_node hmem
  rw [show schema.message t num = some t' from hmessage] at hmessage₁
  cases hmessage₁
  obtain ⟨before, after, rfl⟩ := List.append_of_mem hfield
  rw [takeFields_append]
  refine refuses_bind fun s₁ => ?_
  simp only [takeFields, harm]
  exact (h b s₁ hreads).bind

theorem RefusesNodes.append_left (h : RefusesNodes P t arms nodes) :
    RefusesNodes P t arms (nodes' ++ nodes) := by
  intro fields s hfields
  obtain ⟨before, after, rfl, -, hafter⟩ := hfields.split
  rw [takeFields_append]
  exact refuses_bind fun s₁ => h after s₁ hafter

theorem Takes.readMessage (h : Takes P t arms nodes s s') (hreads : Reads P schema t msg nodes) :
    Yields (readMessage P arms msg s) s' := by
  obtain ⟨fields, hparse, hfields⟩ := hreads
  exact yields_readMessage hparse (h fields hfields)

theorem RefusesNodes.readMessage (h : RefusesNodes P t arms nodes)
    (hreads : Reads P schema t msg nodes) : Refuses (readMessage P arms msg s) := by
  obtain ⟨fields, hparse, hfields⟩ := hreads
  exact refuses_readMessage hparse (h fields s hfields)

end Montygo.Wire
