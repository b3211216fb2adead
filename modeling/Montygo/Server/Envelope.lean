import Montygo.Wire.Event

/-!
# Signed dumps

The server wraps a worker's dump in an envelope: a magic number, a version, the id of the key, a tag
and the dump itself.  The tag is a keyed hash of everything else and of the interpreter's revision.
`verify` accepts the envelopes of the current and of the previous key and nothing else
(`verify_envelope`).

The two hash functions are variables: nothing is assumed of them but the length of what they return.
-/

namespace Montygo.Server

open Go Wire

abbrev Bytes := List UInt8

/-- A hash of `Sha256`. -/
abbrev Digest := { bytes : Bytes // bytes.length = 32 }

/-- `b"MTYD"`. -/
def magic : Bytes := [77, 84, 89, 68]

def version : UInt8 := 1
def headerLen : ℕ := 41
def minKeyLen : ℕ := 16

/-- `MONTY_REV`. -/
def montyRev : Bytes := lit "f8acf4fa8fff78dfd11dc5a2042e4fdf0ab36c28"

structure Key where
  secret : Bytes
  id : Bytes
  id_length : id.length = 4
  deriving DecidableEq

structure DumpKeys where
  current : Key
  previous : Option Key

inductive VerifyError where
  | tooShort
  | badMagic
  | unsupportedVersion (v : UInt8)
  | unknownKey
  | badMac
  deriving DecidableEq

variable (digest : Bytes → Digest) (hmac : Bytes → Bytes → Digest)

theorem length_take_digest (secret : Bytes) : ((digest secret).1.take 4).length = 4 := by
  rw [List.length_take, (digest secret).2]
  rfl

/-- `Key::new`. -/
def Key.new (secret : Bytes) : Key :=
  { secret, id := (digest secret).1.take 4, id_length := length_take_digest digest secret }

/-- The tag of a dump: `mac`, updated with the dump and finalized. -/
def Key.tag (key : Key) (state : Bytes) : Digest :=
  hmac key.secret (magic ++ [version] ++ key.id ++ montyRev ++ state)

/-- The envelope of a dump under a key. -/
def Key.envelope (key : Key) (state : Bytes) : Bytes :=
  magic ++ [version] ++ key.id ++ (key.tag hmac state).1 ++ state

namespace DumpKeys

/-- `DumpKeys::new`. -/
def new (current : Bytes) (previous : Option Bytes) : Except String DumpKeys :=
  if current.length < minKeyLen then .error "--dump-key must be at least 16 bytes"
  else
    match previous with
    | none => .ok { current := .new digest current, previous := none }
    | some previous =>
      if previous.length < minKeyLen ∨ previous = current then
        .error "--dump-key-previous must be at least 16 bytes and differ from --dump-key"
      else .ok { current := .new digest current, previous := some (.new digest previous) }

/-- `sign`. -/
def sign (keys : DumpKeys) (state : Bytes) : Option Bytes :=
  if maxFrameLen < state.length + headerLen then none
  else
    let tag := keys.current.tag hmac state
    some (magic ++ [version] ++ keys.current.id ++ tag.1 ++ state)

/-- The key that an envelope names. -/
def keyOf (keys : DumpKeys) (id : Bytes) : Option Key :=
  if id = keys.current.id then some keys.current
  else keys.previous.filter (id = ·.id)

/-- `verify`. -/
def verify (keys : DumpKeys) (envelope : Bytes) : Except VerifyError Bytes :=
  if envelope.length < headerLen then .error .tooShort
  else if envelope.take 4 ≠ magic then .error .badMagic
  else if envelope.getD 4 0 ≠ version then .error (.unsupportedVersion (envelope.getD 4 0))
  else
    match keys.keyOf ((envelope.drop 5).take 4) with
    | none => .error .unknownKey
    | some key =>
      let state := envelope.drop headerLen
      if (key.tag hmac state).1 = (envelope.drop 9).take 32 then .ok state
      else .error .badMac

/-- The current key and the previous one. -/
def Holds (keys : DumpKeys) (key : Key) : Prop := key = keys.current ∨ keys.previous = some key

/-- The previous key has an id of its own. -/
def Distinct (keys : DumpKeys) : Prop := ∀ key, keys.previous = some key → key.id ≠ keys.current.id

variable {digest hmac} {keys : DumpKeys} {key : Key} {e state : Bytes}

theorem keyOf_holds {id : Bytes} (h : keys.keyOf id = some key) : keys.Holds key ∧ key.id = id := by
  unfold keyOf at h
  split at h
  · rename_i hid
    cases h
    exact ⟨.inl rfl, hid.symm⟩
  · obtain ⟨hprevious, hid⟩ := Option.filter_eq_some_iff.mp h
    exact ⟨.inr hprevious, (of_decide_eq_true hid).symm⟩

theorem keyOf_id (hdistinct : keys.Distinct) (h : keys.Holds key) :
    keys.keyOf key.id = some key := by
  unfold keyOf
  rcases h with rfl | hprevious
  · rw [if_pos rfl]
  · rw [if_neg (hdistinct key hprevious), hprevious]
    simp

theorem parts_of_envelope (e : Bytes) (hlen : headerLen ≤ e.length) :
    e = e.take 4 ++ [e.getD 4 0] ++ (e.drop 5).take 4 ++ (e.drop 9).take 32 ++ e.drop headerLen := by
  have hversion : [e.getD 4 0] = (e.drop 4).take 1 := by
    have hlt : 4 < e.length := lt_of_lt_of_le (by decide) hlen
    rw [List.drop_eq_getElem_cons hlt, List.take_succ_cons, List.take_zero]
    simp [hlt]
  have hcut : ∀ i n, (e.drop i).take n ++ e.drop (i + n) = e.drop i := fun i n => by
    rw [← List.drop_drop, List.take_append_drop]
  rw [hversion, List.append_assoc, List.append_assoc, List.append_assoc, headerLen, hcut 9 32,
    hcut 5 4, hcut 4 1, List.take_append_drop]

theorem eq_envelope_of_verify (h : keys.verify hmac e = .ok state) :
    ∃ key, keys.Holds key ∧ e = key.envelope hmac state ∧
      (key.tag hmac state).1 = (e.drop 9).take 32 := by
  unfold verify at h
  split at h
  · cases h
  split at h
  · cases h
  split at h
  · cases h
  rename_i hlen hmagic hversion
  split at h
  · cases h
  rename_i key hkey
  obtain ⟨hholds, hid⟩ := keyOf_holds hkey
  simp only at h
  split at h
  · rename_i htag
    cases h
    refine ⟨key, hholds, ?_, htag⟩
    rw [Key.envelope, htag, hid, ← not_not.mp hmagic, ← not_not.mp hversion]
    exact parts_of_envelope e (not_lt.mp hlen)
  · cases h

theorem verify_of_holds (hdistinct : keys.Distinct) (h : keys.Holds key) (state : Bytes) :
    keys.verify hmac (key.envelope hmac state) = .ok state := by
  obtain ⟨a, b, c, d, hid⟩ : ∃ a b c d, key.id = [a, b, c, d] :=
    List.length_eq_four.mp key.id_length
  have htag : (key.tag hmac state).1.length = 32 := (key.tag hmac state).2
  have hshape : key.envelope hmac state =
      77 :: 84 :: 89 :: 68 :: 1 :: a :: b :: c :: d :: ((key.tag hmac state).1 ++ state) := by
    rw [Key.envelope, hid]
    simp [magic, version]
  have hkey : keys.keyOf [a, b, c, d] = some key := hid ▸ keyOf_id hdistinct h
  have hstate : (key.envelope hmac state).drop headerLen = state := by
    rw [hshape]
    exact List.drop_left' htag
  have htake : ((key.envelope hmac state).drop 9).take 32 = (key.tag hmac state).1 := by
    rw [hshape]
    exact List.take_left' htag
  have hlen : ¬(key.envelope hmac state).length < headerLen := by
    rw [hshape]
    simp only [List.length_cons, List.length_append, htag, headerLen]
    omega
  rw [verify, if_neg hlen, hstate, htake, hshape]
  simp [magic, version, hkey]

/-- **What `verify` accepts.** It returns a dump exactly for the envelope of the dump under the
current or the previous key.  So it accepts what any holder of either key signs, and a text that is
not that envelope only if it carries the tag of what it is read as. -/
theorem verify_envelope (hmac : Bytes → Bytes → Digest) (keys : DumpKeys)
    (hdistinct : keys.Distinct) :
    (∀ e state, keys.verify hmac e = .ok state ↔ e = keys.current.envelope hmac state ∨
        ∃ key, keys.previous = some key ∧ e = key.envelope hmac state) ∧
    (∀ (signer : DumpKeys) (e state : Bytes), keys.Holds signer.current →
      signer.sign hmac state = some e → keys.verify hmac e = .ok state) ∧
    ∀ (key : Key) (state changed state' : Bytes), changed ≠ key.envelope hmac state →
      keys.verify hmac changed = .ok state' →
      ∃ key', keys.Holds key' ∧ (key' ≠ key ∨ state' ≠ state) ∧
        (key'.tag hmac state').1 = (changed.drop 9).take 32 := by
  refine ⟨fun e state => ⟨fun h => ?_, ?_⟩, fun signer e state hholds hsign => ?_,
    fun key state changed state' hne h => ?_⟩
  · obtain ⟨key, rfl | hprevious, he, -⟩ := eq_envelope_of_verify h
    · exact .inl he
    · exact .inr ⟨key, hprevious, he⟩
  · rintro (rfl | ⟨key, hprevious, rfl⟩)
    · exact verify_of_holds hdistinct (.inl rfl) state
    · exact verify_of_holds hdistinct (.inr hprevious) state
  · unfold sign at hsign
    split at hsign
    · cases hsign
    · cases hsign
      exact verify_of_holds hdistinct hholds state
  -- With the same key and dump the text would be the envelope itself.
  · obtain ⟨key', hholds, he, htag⟩ := eq_envelope_of_verify h
    refine ⟨key', hholds, ?_, htag⟩
    by_contra hsame
    obtain ⟨rfl, rfl⟩ : key' = key ∧ state' = state := by
      simpa [not_or] using hsame
    exact hne he

/-- Two keys with ids `0000` and `1111`. -/
def twoKeys : DumpKeys :=
  { current := ⟨List.replicate 16 0, List.replicate 4 0, rfl⟩
    previous := some ⟨List.replicate 16 1, List.replicate 4 1, rfl⟩ }

theorem verify_envelope_twoKeys : twoKeys.verify (fun _ _ => ⟨List.replicate 32 7, rfl⟩)
      (magic ++ [version] ++ List.replicate 4 1 ++ List.replicate 32 7 ++ [5]) = .ok [5] :=
  ((verify_envelope (fun _ _ => ⟨List.replicate 32 7, rfl⟩) twoKeys
    (by rintro key ⟨⟩; decide)).1 _ _).mpr (.inr ⟨_, rfl, rfl⟩)

end DumpKeys

end Montygo.Server
