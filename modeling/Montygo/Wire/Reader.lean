import Montygo.Lib.WireFormat
import Montygo.Lib.Fallible
import Montygo.Go.Strings

/-!
# Reading messages

The reader of the hand-written codec and the loop every decoder runs over it.  A decoder is a
table that gives for each field number an `Arm`: how the field is read and what is done with it.
The loop keeps the first error of the reader and ends there; an arm may also fail on its own,
which ends the decoding at once.

A loop succeeds exactly when its bytes are well-formed fields and the arms take them one after
the other (`readMessage_eq_ok`): the reader is gone from every statement after this module.
-/

namespace Montygo.Wire

open Go WireFormat Fallible Protowire

/-- The errors of the codec: of the reader, of the budget, and the texts of the checks. -/
inductive WireError where
  | parse (e : ParseError)
  /-- `field %d: wire type %d, expected %d`. -/
  | wireType (num : ℕ) (got want : WireType)
  /-- `ErrDecodeBudget`. -/
  | decodeBudget
  | text (message : String)
  /-- `invalid file handle mode %q`. -/
  | handleMode (mode : GoString)
  /-- `invalid open mode %q`. -/
  | openMode (mode : GoString)
  deriving DecidableEq

/-- `*Budget`: the bytes that remain, or nil for no limit. -/
abbrev Budget := Option ℤ

/-- A decoder charges the budget and may fail. -/
abbrev DecodeM := EStateM WireError Budget

/-- A decoder that fails. -/
def fail {α : Type} (e : WireError) : DecodeM α := fun budget => .error e budget

def charge (n : ℕ) : DecodeM Unit := fun budget =>
  match budget with
  | none => .ok () none
  | some remaining =>
    if remaining - n < 0 then .error .decodeBudget (some (remaining - n))
    else .ok () (some (remaining - n))

structure Reader where
  b : Bytes
  err : Option WireError

namespace Reader

variable (P : Protowire) (r : Reader)

def next : Option (ℕ × WireType) × Reader :=
  if r.err.isSome ∨ r.b = [] then (none, r)
  else
    match P.consumeTag r.b with
    | .error e => (none, { r with err := some (.parse e) })
    | .ok (tag, n) => (some tag, { r with b := r.b.drop n })

/-- `fail` keeps the first error. -/
def fail (e : WireError) : Reader := if r.err.isNone then { r with err := some e } else r

/-- Reads a value of the wanted wire type: the steps that `bytes`, `varint` and `fixed64`
share. -/
def value {α : Type} (consume : Bytes → Except ParseError (α × ℕ)) (want : WireType) (zero : α)
    (num : ℕ) (got : WireType) : α × Reader :=
  if got ≠ want then (zero, r.fail (.wireType num got want))
  else
    match consume r.b with
    | .error e => (zero, { r with err := some (.parse e) })
    | .ok (v, n) => (v, { r with b := r.b.drop n })

def bytes (num : ℕ) (typ : WireType) : Bytes × Reader := r.value P.consumeBytes .bytes [] num typ

def varint (num : ℕ) (typ : WireType) : UInt64 × Reader := r.value P.consumeVarint .varint 0 num typ

def fixed64 (num : ℕ) (typ : WireType) : UInt64 × Reader :=
  r.value P.consumeFixed64 .fixed64 0 num typ

def skip (num : ℕ) (typ : WireType) : Reader :=
  match P.consumeFieldValue num typ r.b with
  | .error e => { r with err := some (.parse e) }
  | .ok (_, n) => { r with b := r.b.drop n }

end Reader

variable (P : Protowire)

/-- The loop of `uint32s` over a packed field: the numbers read and the error it ends in.  Each
round takes at least one byte, so the length bounds the rounds. -/
def packed : ℕ → Bytes → List UInt32 × Option ParseError
  | 0, _ => ([], none)
  | rounds + 1, b =>
    if b = [] then ([], none)
    else
      match P.consumeVarint b with
      | .error e => ([], some e)
      | .ok (v, n) =>
        let (rest, err) := packed rounds (b.drop n)
        (v.toUInt32 :: rest, err)

/-- `uint32s`: the numbers it appends, in packed or unpacked form. -/
def Reader.uint32s (r : Reader) (num : ℕ) (typ : WireType) : List UInt32 × Reader :=
  if typ = .varint then
    ([(r.varint P num typ).1.toUInt32], (r.varint P num typ).2)
  else
    match packed P (r.bytes P num typ).1.length (r.bytes P num typ).1 with
    | (numbers, none) => (numbers, (r.bytes P num typ).2)
    | (numbers, some e) => (numbers, { (r.bytes P num typ).2 with err := some (.parse e) })

/-- How a decoder treats the fields with one number. -/
inductive Arm (σ : Type) where
  | varint (f : UInt64 → σ → DecodeM σ)
  | fixed64 (f : UInt64 → σ → DecodeM σ)
  | bytes (f : Bytes → σ → DecodeM σ)
  | uint32s (f : List UInt32 → σ → DecodeM σ)
  | skip (f : σ → σ)

/-- One round of a decoder's loop. -/
def Arm.run {σ : Type} (arm : Arm σ) (num : ℕ) (typ : WireType) (r : Reader) (s : σ) :
    DecodeM (Reader × σ) :=
  match arm with
  | .varint f => do
    let s' ← f (r.varint P num typ).1 s
    pure ((r.varint P num typ).2, s')
  | .fixed64 f => do
    let s' ← f (r.fixed64 P num typ).1 s
    pure ((r.fixed64 P num typ).2, s')
  | .bytes f => do
    let s' ← f (r.bytes P num typ).1 s
    pure ((r.bytes P num typ).2, s')
  | .uint32s f => do
    let s' ← f (r.uint32s P num typ).1 s
    pure ((r.uint32s P num typ).2, s')
  | .skip f => pure (r.skip P num typ, f s)

/-- The loop of a decoder.  Each round takes at least one byte, so the length bounds the
rounds. -/
def readFields {σ : Type} (arms : ℕ → Arm σ) : ℕ → Reader → σ → DecodeM (Reader × σ)
  | 0, r, s => pure (r, s)
  | rounds + 1, r, s =>
    match r.next P with
    | (none, r') => pure (r', s)
    | (some (num, typ), r') => do
      let (r'', s') ← (arms num).run P num typ r' s
      readFields arms rounds r'' s'

/-- A decoder's loop over a message, and its check of `r.err` afterwards. -/
def readMessage {σ : Type} (arms : ℕ → Arm σ) (msg : Bytes) (s : σ) : DecodeM σ := do
  let (r, s') ← readFields P arms (msg.length + 1) { b := msg, err := none } s
  match r.err with
  | some e => fail e
  | none => pure s'

/-! ## The loop over parsed fields -/

/-- The wire type of a value. -/
def payloadType : Payload → WireType
  | .varint _ => .varint
  | .fixed64 _ => .fixed64
  | .bytes _ => .bytes
  | .other typ _ => typ

variable {σ : Type}

/-- What an arm does with the value of a field.  A value of another wire type fails; which error
the loop then ends in depends on the arm. -/
def Arm.take (arm : Arm σ) (f : Field) (s : σ) : DecodeM σ :=
  match arm, f.payload with
  | .varint g, .varint v => g v s
  | .fixed64 g, .fixed64 v => g v s
  | .bytes g, .bytes b => g b s
  | .uint32s g, .varint v => g [v.toUInt32] s
  | .uint32s g, .bytes b =>
    match packed P b.length b with
    | (numbers, none) => g numbers s
    | (_, some e) => fail (.parse e)
  | .skip g, _ => pure (g s)
  | .varint _, payload => fail (.wireType f.num (payloadType payload) .varint)
  | .fixed64 _, payload => fail (.wireType f.num (payloadType payload) .fixed64)
  | .bytes _, payload | .uint32s _, payload =>
    fail (.wireType f.num (payloadType payload) .bytes)

/-- The fields of a message one after the other. -/
def takeFields (arms : ℕ → Arm σ) : List Field → σ → DecodeM σ
  | [], s => pure s
  | f :: rest, s => do
    let s' ← (arms f.num).take P f s
    takeFields arms rest s'

section Take

variable {P} {f : Field} {s s' : σ} {budget budget' : Budget} {e : WireError}

@[simp] theorem fail_ne_ok {α : Type} {a : α} : (fail e : DecodeM α) budget ≠ .ok a budget' := by
  simp [fail]

theorem take_varint_ok {g : UInt64 → σ → DecodeM σ} :
    (Arm.varint g).take P f s budget = .ok s' budget' ↔
      ∃ v, f.payload = .varint v ∧ g v s budget = .ok s' budget' := by
  unfold Arm.take
  cases f.payload <;> simp

theorem take_varint_pure {g : UInt64 → σ → σ}
    (h : (Arm.varint fun v s => pure (g v s)).take P f s budget = .ok s' budget') :
    ∃ v, f.payload = .varint v ∧ s' = g v s := by
  obtain ⟨v, hpayload, hset⟩ := take_varint_ok.mp h
  exact ⟨v, hpayload, (pure_eq_ok.mp hset).1.symm⟩

theorem take_fixed64_ok {g : UInt64 → σ → DecodeM σ} :
    (Arm.fixed64 g).take P f s budget = .ok s' budget' ↔
      ∃ v, f.payload = .fixed64 v ∧ g v s budget = .ok s' budget' := by
  unfold Arm.take
  cases f.payload <;> simp

theorem take_bytes_ok {g : Bytes → σ → DecodeM σ} :
    (Arm.bytes g).take P f s budget = .ok s' budget' ↔
      ∃ b, f.payload = .bytes b ∧ g b s budget = .ok s' budget' := by
  unfold Arm.take
  cases f.payload <;> simp

theorem take_bytes_pure {g : Bytes → σ → σ}
    (h : (Arm.bytes fun b s => pure (g b s)).take P f s budget = .ok s' budget') :
    ∃ b, f.payload = .bytes b ∧ s' = g b s := by
  obtain ⟨b, hpayload, hset⟩ := take_bytes_ok.mp h
  exact ⟨b, hpayload, (pure_eq_ok.mp hset).1.symm⟩

theorem take_bytes_bind {α : Type} {d : Bytes → DecodeM α} {g : α → σ → σ}
    (h : (Arm.bytes fun b s => d b >>= fun a => pure (g a s)).take P f s budget = .ok s' budget') :
    ∃ b a budget₁, f.payload = .bytes b ∧ d b budget = .ok a budget₁ ∧ s' = g a s := by
  obtain ⟨b, hb, hbind⟩ := take_bytes_ok.mp h
  obtain ⟨a, budget₁, ha, hset⟩ := bind_eq_ok.mp hbind
  exact ⟨b, a, budget₁, hb, ha, (pure_eq_ok.mp hset).1.symm⟩

theorem take_uint32s_ok {g : List UInt32 → σ → DecodeM σ} :
    (Arm.uint32s g).take P f s budget = .ok s' budget' ↔
      (∃ v, f.payload = .varint v ∧ g [v.toUInt32] s budget = .ok s' budget') ∨
      ∃ b numbers, f.payload = .bytes b ∧ packed P b.length b = (numbers, none) ∧
        g numbers s budget = .ok s' budget' := by
  unfold Arm.take
  cases f.payload with
  | bytes b =>
    rcases hpacked : packed P b.length b with ⟨numbers, _ | e⟩
    · simp [hpacked]
    · simp [hpacked]
  | varint v | fixed64 v | other typ raw => simp

@[simp] theorem take_skip {g : σ → σ} : (Arm.skip g).take P f s = pure (g s) := by
  unfold Arm.take
  cases f.payload <;> rfl

variable {arms : ℕ → Arm σ} {b : Bytes}

theorem takeFields_mem {fields : List Field}
    (h : takeFields P arms fields s budget = .ok s' budget') (hmem : f ∈ fields) :
    ∃ s₁ budget₁ s₂ budget₂, (arms f.num).take P f s₁ budget₁ = .ok s₂ budget₂ := by
  induction fields generalizing s budget with
  | nil => cases hmem
  | cons g rest ih =>
    obtain ⟨s₁, budget₁, hfirst, hrest⟩ := bind_eq_ok.mp h
    rcases List.mem_cons.mp hmem with rfl | hmem
    · exact ⟨s, budget, s₁, budget₁, hfirst⟩
    · exact ih hrest hmem

variable {r : Reader}

theorem value_ok {α : Type} {consume : Bytes → Except ParseError (α × ℕ)} {want got : WireType}
    {zero v : α} {num : ℕ} :
    Reader.value ⟨b, none⟩ consume want zero num got = (v, r) ∧ r.err = none ↔
      got = want ∧ ∃ k, consume b = .ok (v, k) ∧ r = ⟨b.drop k, none⟩ := by
  unfold Reader.value
  by_cases hwant : got = want
  · cases hconsume : consume b with
    | error e =>
      simp only [hwant, ne_eq, not_true_eq_false, if_false, Prod.mk.injEq]
      constructor
      · rintro ⟨⟨-, rfl⟩, herr⟩
        cases herr
      · rintro ⟨-, k, hok, -⟩
        cases hok
    | ok x =>
      obtain ⟨v', k⟩ := x
      simp only [hwant, ne_eq, not_true_eq_false, if_false, Prod.mk.injEq, Except.ok.injEq]
      constructor
      · rintro ⟨⟨rfl, rfl⟩, -⟩
        exact ⟨trivial, k, ⟨rfl, rfl⟩, rfl⟩
      · rintro ⟨-, k', ⟨rfl, rfl⟩, rfl⟩
        exact ⟨⟨rfl, rfl⟩, rfl⟩
  · simp only [hwant, ne_eq, not_false_eq_true, if_true, Reader.fail, Prod.mk.injEq]
    constructor
    · rintro ⟨⟨-, rfl⟩, herr⟩
      cases herr
    · rintro ⟨hfalse, -⟩
      exact absurd hfalse id

private theorem do_ok {α : Type} {x : α × Reader} {g : α → σ → DecodeM σ} : ((do
      let s' ← g x.1 s
      pure (x.2, s')) : DecodeM (Reader × σ)) budget = .ok (r, s') budget' ∧ r.err = none ↔
      ∃ v, (x = (v, r) ∧ r.err = none) ∧ g v s budget = .ok s' budget' := by
  obtain ⟨v, r'⟩ := x
  simp only [bind_eq_ok, pure_eq_ok, Prod.mk.injEq]
  constructor
  · rintro ⟨⟨s₁, b₁, hg, ⟨rfl, rfl⟩, rfl⟩, herr⟩
    exact ⟨v, ⟨⟨rfl, rfl⟩, herr⟩, hg⟩
  · rintro ⟨v', ⟨⟨rfl, rfl⟩, herr⟩, hg⟩
    exact ⟨⟨s', budget', hg, ⟨rfl, rfl⟩, rfl⟩, herr⟩

theorem uint32s_ok {num : ℕ} {typ : WireType} {numbers : List UInt32} :
    Reader.uint32s P ⟨b, none⟩ num typ = (numbers, r) ∧ r.err = none ↔
      (typ = .varint ∧ ∃ v k, P.consumeVarint b = .ok (v, k) ∧ numbers = [v.toUInt32] ∧
        r = ⟨b.drop k, none⟩) ∨
      (typ = .bytes ∧ ∃ v k, P.consumeBytes b = .ok (v, k) ∧
        packed P v.length v = (numbers, none) ∧ r = ⟨b.drop k, none⟩) := by
  unfold Reader.uint32s
  split
  · rename_i htyp
    constructor
    · rintro ⟨hread, herr⟩
      obtain ⟨rfl, rfl⟩ := Prod.mk.inj hread
      obtain ⟨-, k, hk, hr⟩ := value_ok.mp ⟨rfl, herr⟩
      exact .inl ⟨htyp, _, k, hk, rfl, hr⟩
    · rintro (⟨-, v, k, hk, rfl, rfl⟩ | ⟨hbytes, -⟩)
      · have hvalue : Reader.varint P ⟨b, none⟩ num typ = (v, ⟨b.drop k, none⟩) :=
          (value_ok.mpr ⟨htyp, k, hk, rfl⟩).1
        rw [hvalue]
        exact ⟨rfl, rfl⟩
      · rw [htyp] at hbytes
        cases hbytes
  · rename_i htyp
    constructor
    · rintro ⟨hread, herr⟩
      rcases hpacked : packed P (Reader.bytes P ⟨b, none⟩ num typ).1.length
        (Reader.bytes P ⟨b, none⟩ num typ).1 with ⟨numbers', _ | e⟩ <;> rw [hpacked] at hread <;>
        obtain ⟨rfl, rfl⟩ := Prod.mk.inj hread
      · obtain ⟨hbytes, k, hk, hr⟩ := value_ok.mp ⟨rfl, herr⟩
        exact .inr ⟨hbytes, _, k, hk, hpacked, hr⟩
      · cases herr
    · rintro (⟨hvarint, -⟩ | ⟨hbytes, v, k, hk, hpacked, rfl⟩)
      · exact absurd hvarint htyp
      have hvalue : Reader.bytes P ⟨b, none⟩ num typ = (v, ⟨b.drop k, none⟩) :=
        (value_ok.mpr ⟨hbytes, k, hk, rfl⟩).1
      rw [hvalue, hpacked]
      exact ⟨rfl, rfl⟩

/-- **One round of the loop** that ends without an error of the reader. -/
theorem run_ok {arm : Arm σ} {num : ℕ} {typ : WireType} :
    arm.run P num typ ⟨b, none⟩ s budget = .ok (r, s') budget' ∧ r.err = none ↔
      ∃ payload k, P.consumePayload num typ b = .ok (payload, k) ∧ r = ⟨b.drop k, none⟩ ∧
        arm.take P ⟨num, payload⟩ s budget = .ok s' budget' := by
  cases arm with
  | varint g =>
    simp only [Arm.run, do_ok, Reader.varint, value_ok, take_varint_ok]
    constructor
    · rintro ⟨v, ⟨rfl, k, hk, hr⟩, hg⟩
      exact ⟨_, k, consumePayload_varint.mpr ⟨rfl, hk⟩, hr, v, rfl, hg⟩
    · rintro ⟨_, k, hk, hr, v, rfl, hg⟩
      obtain ⟨htyp, hk⟩ := consumePayload_varint.mp hk
      exact ⟨v, ⟨htyp, k, hk, hr⟩, hg⟩
  | fixed64 g =>
    simp only [Arm.run, do_ok, Reader.fixed64, value_ok, take_fixed64_ok]
    constructor
    · rintro ⟨v, ⟨rfl, k, hk, hr⟩, hg⟩
      exact ⟨_, k, consumePayload_fixed64.mpr ⟨rfl, hk⟩, hr, v, rfl, hg⟩
    · rintro ⟨_, k, hk, hr, v, rfl, hg⟩
      obtain ⟨htyp, hk⟩ := consumePayload_fixed64.mp hk
      exact ⟨v, ⟨htyp, k, hk, hr⟩, hg⟩
  | bytes g =>
    simp only [Arm.run, do_ok, Reader.bytes, value_ok, take_bytes_ok]
    constructor
    · rintro ⟨v, ⟨rfl, k, hk, hr⟩, hg⟩
      exact ⟨_, k, consumePayload_bytes.mpr ⟨rfl, hk⟩, hr, v, rfl, hg⟩
    · rintro ⟨_, k, hk, hr, v, rfl, hg⟩
      obtain ⟨htyp, hk⟩ := consumePayload_bytes.mp hk
      exact ⟨v, ⟨htyp, k, hk, hr⟩, hg⟩
  | uint32s g =>
    simp only [Arm.run, do_ok, uint32s_ok, take_uint32s_ok]
    constructor
    · rintro ⟨_, ⟨rfl, v, k, hk, rfl, hr⟩ | ⟨rfl, v, k, hk, hpacked, hr⟩, hg⟩
      · exact ⟨_, k, consumePayload_varint.mpr ⟨rfl, hk⟩, hr, .inl ⟨v, rfl, hg⟩⟩
      · exact ⟨_, k, consumePayload_bytes.mpr ⟨rfl, hk⟩, hr, .inr ⟨v, _, rfl, hpacked, hg⟩⟩
    · rintro ⟨_, k, hk, hr, ⟨v, rfl, hg⟩ | ⟨v, numbers, rfl, hpacked, hg⟩⟩
      · obtain ⟨htyp, hk⟩ := consumePayload_varint.mp hk
        exact ⟨_, .inl ⟨htyp, v, k, hk, rfl, hr⟩, hg⟩
      · obtain ⟨htyp, hk⟩ := consumePayload_bytes.mp hk
        exact ⟨_, .inr ⟨htyp, v, k, hk, hpacked, hr⟩, hg⟩
  | skip g =>
    simp only [Arm.run, take_skip, pure_eq_ok, Prod.mk.injEq, Reader.skip]
    cases hskip : P.consumeFieldValue num typ b with
    | error e =>
      constructor
      · rintro ⟨⟨⟨rfl, -⟩, -⟩, herr⟩
        cases herr
      · rintro ⟨payload, k, hk, -⟩
        rw [exists_consumePayload.mp ⟨payload, hk⟩] at hskip
        cases hskip
    | ok x =>
      obtain ⟨⟨⟩, n⟩ := x
      constructor
      · rintro ⟨⟨⟨rfl, rfl⟩, rfl⟩, -⟩
        obtain ⟨payload, hpayload⟩ := exists_consumePayload.mpr hskip
        exact ⟨payload, n, hpayload, rfl, rfl, rfl⟩
      · rintro ⟨payload, k, hk, rfl, rfl, rfl⟩
        rw [exists_consumePayload.mp ⟨payload, hk⟩] at hskip
        cases hskip
        exact ⟨⟨⟨rfl, rfl⟩, rfl⟩, rfl⟩

theorem readFields_of_err {rounds : ℕ} (hr : r.err ≠ none) :
    readFields P arms rounds r s budget = .ok (r, s) budget := by
  cases rounds with
  | zero => rfl
  | succ rounds =>
    have hnext : r.next P = (none, r) := by
      rw [Reader.next, if_pos (.inl (Option.isSome_iff_ne_none.mpr hr))]
    simp only [readFields, hnext]
    rfl

/-- **The loop takes the fields of the message one after the other.** -/
theorem readFields_ok {rounds : ℕ} (hrounds : b.length < rounds) :
    (∃ r, readFields P arms rounds ⟨b, none⟩ s budget = .ok (r, s') budget' ∧ r.err = none) ↔
      ∃ fields, P.Parses b fields ∧ takeFields P arms fields s budget = .ok s' budget' := by
  induction rounds generalizing b s budget with
  | zero => omega
  | succ rounds ih =>
    rcases eq_or_ne b [] with rfl | hb
    · simp only [readFields, Reader.next, or_true, if_true, pure_eq_ok, Prod.mk.injEq]
      constructor
      · rintro ⟨r, ⟨⟨rfl, rfl⟩, rfl⟩, -⟩
        exact ⟨[], .nil, rfl⟩
      · rintro ⟨fields, hparse, htake⟩
        rw [Parses.nil_iff.mp hparse, takeFields, pure_eq_ok] at htake
        exact ⟨_, ⟨⟨rfl, htake.1⟩, htake.2⟩, rfl⟩
    cases htag : P.consumeTag b with
    | error e =>
      have hnext : Reader.next P ⟨b, none⟩ = (none, ⟨b, some (.parse e)⟩) := by
        simp [Reader.next, hb, htag]
      simp only [readFields, hnext, pure_eq_ok, Prod.mk.injEq]
      constructor
      · rintro ⟨r, ⟨⟨rfl, -⟩, -⟩, herr⟩
        cases herr
      · rintro ⟨fields, hparse, -⟩
        cases hparse with
        | nil => exact absurd rfl hb
        | cons htag' =>
          rw [htag] at htag'
          cases htag'
    | ok x =>
      obtain ⟨⟨num, typ⟩, n⟩ := x
      have hnext : Reader.next P ⟨b, none⟩ = (some (num, typ), ⟨b.drop n, none⟩) := by
        simp [Reader.next, hb, htag]
      have hpos := P.tag_pos _ _ _ htag
      have hle := (P.tag_front _ _ _ htag).1
      simp only [readFields, hnext, bind_eq_ok]
      constructor
      · rintro ⟨r, ⟨⟨r₁, s₁⟩, budget₁, hrun, hloop⟩, herr⟩
        -- an error of this round would end the loop
        have herr₁ : r₁.err = none := by
          by_contra hne
          have hover := hloop.symm.trans (readFields_of_err hne)
          cases hover
          exact hne herr
        obtain ⟨payload, k, hpayload, rfl, htake⟩ := run_ok.mp ⟨hrun, herr₁⟩
        rw [List.drop_drop] at hloop
        obtain ⟨fields, hparse, hrest⟩ := (ih (by simp; omega)).mp ⟨r, hloop, herr⟩
        exact ⟨_, .cons htag hpayload hparse, bind_eq_ok.mpr ⟨s₁, budget₁, htake, hrest⟩⟩
      · rintro ⟨fields, hparse, htake⟩
        cases hparse with
        | nil => exact absurd rfl hb
        | @cons _ num' n' k typ' payload rest htag' hpayload hrest =>
          rw [htag] at htag'
          cases htag'
          obtain ⟨s₁, budget₁, hfirst, hloop⟩ := bind_eq_ok.mp htake
          obtain ⟨hrun, -⟩ := run_ok.mpr ⟨payload, k, hpayload, rfl, hfirst⟩
          rw [← List.drop_drop] at hrest
          obtain ⟨r, hfields, herr⟩ := (ih (by simp; omega)).mpr ⟨rest, hrest, hloop⟩
          exact ⟨r, ⟨_, budget₁, hrun, hfields⟩, herr⟩

/-- **A message decodes when its bytes are well-formed fields that the arms take.** -/
theorem readMessage_eq_ok {msg : Bytes} : readMessage P arms msg s budget = .ok s' budget' ↔
      ∃ fields, P.Parses msg fields ∧ takeFields P arms fields s budget = .ok s' budget' := by
  rw [← readFields_ok (Nat.lt_succ_self _), readMessage, bind_eq_ok]
  constructor
  · rintro ⟨⟨r, s₁⟩, budget₁, hfields, hend⟩
    cases herr : r.err with
    | none =>
      simp only [herr, pure_eq_ok] at hend
      obtain ⟨rfl, rfl⟩ := hend
      exact ⟨r, hfields, herr⟩
    | some e =>
      simp only [herr] at hend
      exact absurd hend fail_ne_ok
  · rintro ⟨r, hfields, herr⟩
    refine ⟨_, _, hfields, ?_⟩
    simp only [herr, pure_eq_ok, and_self]

end Take

end Montygo.Wire
