import Montygo.Lib.WireFormat
import Mathlib.Tactic.Ring

/-!
# The protobuf wire format

The wire format as it is documented, as an instance of `Protowire`: numbers in base 128 with
the lowest digits first and at most ten bytes, lengths in front of byte strings, eight bytes for
a fixed number, and groups that run to their end tag.
-/

namespace Montygo.WireFormat.Standard

open WireFormat

variable {b rest : List UInt8} {k v n : ℕ}

/-! ## Numbers -/

/-- The digits of a number in base 128; every byte but the last has its high bit set.  At most
`k` more bytes follow the first. -/
def writeVarint : ℕ → ℕ → List UInt8
  | 0, v => [UInt8.ofNat v]
  | k + 1, v =>
    if v < 128 then [UInt8.ofNat v] else UInt8.ofNat (v % 128 + 128) :: writeVarint k (v / 128)

/-- Reads a number.  The tenth byte of a number holds one bit. -/
def readVarint : ℕ → List UInt8 → Except ParseError (ℕ × ℕ)
  | _, [] => .error .unexpectedEOF
  | 0, y :: _ => if y.toNat < 2 then .ok (y.toNat, 1) else .error .overflow
  | k + 1, y :: rest =>
    if y.toNat < 128 then .ok (y.toNat, 1)
    else (readVarint k rest).map fun x => (y.toNat - 128 + 128 * x.1, x.2 + 1)

theorem readVarint_pos (h : readVarint k b = .ok (v, n)) : 0 < n := by
  cases b with
  | nil => cases k <;> cases h
  | cons y tail =>
    cases k with
    | zero =>
      simp only [readVarint] at h
      split at h
      · cases h
        exact Nat.one_pos
      · cases h
    | succ k =>
      simp only [readVarint] at h
      split at h
      · cases h
        exact Nat.one_pos
      · obtain ⟨⟨v', n'⟩, -, heq⟩ := map_eq_ok.mp h
        cases heq
        exact Nat.succ_pos n'

theorem readVarint_front (k : ℕ) : ReadsFront (readVarint k) := by
  induction k with
  | zero =>
    intro b v n h
    cases b with
    | nil => cases h
    | cons y tail =>
      simp only [readVarint] at h
      split at h
      · rename_i hy
        cases h
        simp [readVarint, hy]
      · cases h
  | succ k ih =>
    intro b v n h
    cases b with
    | nil => cases h
    | cons y tail =>
      simp only [readVarint] at h
      split at h
      · rename_i hy
        cases h
        simp [readVarint, hy]
      · rename_i hy
        obtain ⟨⟨v', n'⟩, hread, heq⟩ := map_eq_ok.mp h
        cases heq
        obtain ⟨hle, hfront⟩ := ih _ _ _ hread
        refine ⟨by simpa using hle, fun rest => ?_⟩
        rw [List.take_succ_cons, List.cons_append, readVarint, if_neg hy, hfront]
        rfl

theorem readVarint_back (k v : ℕ) (hv : v < 2 ^ (7 * k + 1)) (rest : List UInt8) :
    readVarint k (writeVarint k v ++ rest) = .ok (v, (writeVarint k v).length) := by
  induction k generalizing v with
  | zero =>
    have hbyte : (UInt8.ofNat v).toNat = v := by
      rw [UInt8.toNat_ofNat']
      omega
    simp only [writeVarint, List.cons_append, List.nil_append, readVarint, hbyte]
    rw [if_pos (by omega)]
    rfl
  | succ k ih =>
    simp only [writeVarint]
    split
    · rename_i hsmall
      have hbyte : (UInt8.ofNat v).toNat = v := by
        rw [UInt8.toNat_ofNat']
        omega
      simp only [List.cons_append, List.nil_append, readVarint, hbyte, if_pos hsmall]
      rfl
    · have hbyte : (UInt8.ofNat (v % 128 + 128)).toNat = v % 128 + 128 := by
        rw [UInt8.toNat_ofNat']
        omega
      have hdiv : v / 128 < 2 ^ (7 * k + 1) := by
        rw [Nat.div_lt_iff_lt_mul (by decide)]
        have hpow : 2 ^ (7 * k + 1) * 128 = 2 ^ (7 * (k + 1) + 1) := by ring
        omega
      rw [List.cons_append, readVarint, hbyte, if_neg (by omega), ih _ hdiv]
      simp only [Except.map, List.length_cons]
      congr 2
      omega

/-- Reads a `uint64`. -/
def consumeVarint (b : List UInt8) : Except ParseError (UInt64 × ℕ) :=
  (readVarint 9 b).map fun x => (UInt64.ofNat x.1, x.2)

theorem consumeVarint_back (v : UInt64) :
    ReadsBack (fun v : UInt64 => writeVarint 9 v.toNat) consumeVarint v := by
  intro rest
  simp only [consumeVarint, readVarint_back 9 v.toNat (by simpa using v.toNat_lt), Except.map,
    UInt64.ofNat_toNat]

/-! ## Tags -/

/-- The code of a wire type. -/
def code : WireType → ℕ
  | .varint => 0
  | .fixed64 => 1
  | .bytes => 2
  | .startGroup => 3
  | .endGroup => 4
  | .fixed32 => 5
  | .reserved6 => 6
  | .reserved7 => 7

/-- The wire type of a code. -/
def ofCode : ℕ → WireType
  | 0 => .varint
  | 1 => .fixed64
  | 2 => .bytes
  | 3 => .startGroup
  | 4 => .endGroup
  | 5 => .fixed32
  | 6 => .reserved6
  | _ => .reserved7

/-- A tag as a number. -/
def tag (t : ℕ × WireType) : List UInt8 := writeVarint 9 (8 * t.1 + code t.2)

/-- Reads a tag; the field number is positive and fits 31 bits. -/
def consumeTag (b : List UInt8) : Except ParseError ((ℕ × WireType) × ℕ) :=
  match readVarint 9 b with
  | .error e => .error e
  | .ok (v, n) =>
    if v / 8 < 1 ∨ 2 ^ 31 ≤ v / 8 then .error .fieldNumber else .ok ((v / 8, ofCode (v % 8)), n)

theorem consumeTag_eq_ok {t : ℕ × WireType} : consumeTag b = .ok (t, n) ↔
      ∃ v, readVarint 9 b = .ok (v, n) ∧ ¬ (v / 8 < 1 ∨ 2 ^ 31 ≤ v / 8) ∧
        t = (v / 8, ofCode (v % 8)) := by
  unfold consumeTag
  cases hread : readVarint 9 b with
  | error e => simp
  | ok x =>
    obtain ⟨v, n'⟩ := x
    simp only
    split
    · rename_i hbad
      simp only [reduceCtorEq, Except.ok.injEq, Prod.mk.injEq, false_iff, not_exists, not_and]
      rintro v' ⟨rfl, rfl⟩ hgood
      exact absurd hbad hgood
    · rename_i hgood
      simp only [Except.ok.injEq, Prod.mk.injEq]
      constructor
      · rintro ⟨rfl, rfl⟩
        exact ⟨v, ⟨rfl, rfl⟩, hgood, rfl⟩
      · rintro ⟨v', ⟨rfl, rfl⟩, -, rfl⟩
        exact ⟨rfl, rfl⟩

theorem consumeTag_front : ReadsFront consumeTag := by
  intro b t n h
  obtain ⟨v, hread, hgood, rfl⟩ := consumeTag_eq_ok.mp h
  obtain ⟨hle, hfront⟩ := readVarint_front 9 _ _ _ hread
  exact ⟨hle, fun rest => consumeTag_eq_ok.mpr ⟨v, hfront rest, hgood, rfl⟩⟩

theorem consumeTag_back (num : ℕ) (typ : WireType) (hnum : ValidNumber num) :
    ReadsBack tag consumeTag (num, typ) := by
  intro rest
  obtain ⟨hpos, hlt⟩ := hnum
  have hcode : code typ < 8 := by cases typ <;> decide
  have hofCode : ofCode (code typ) = typ := by cases typ <;> rfl
  have hread := readVarint_back 9 (8 * num + code typ) (by omega) rest
  refine consumeTag_eq_ok.mpr ⟨8 * num + code typ, hread, by omega, ?_⟩
  rw [show (8 * num + code typ) / 8 = num by omega,
    show (8 * num + code typ) % 8 = code typ by omega, hofCode]

/-! ## Values -/

/-- The low `k` digits of a number in base 256, lowest first. -/
def writeFixed : ℕ → ℕ → List UInt8
  | 0, _ => []
  | k + 1, v => UInt8.ofNat (v % 256) :: writeFixed k (v / 256)

/-- The number with these digits in base 256. -/
def fixedValue : List UInt8 → ℕ
  | [] => 0
  | y :: rest => y.toNat + 256 * fixedValue rest

theorem length_writeFixed : (writeFixed k v).length = k := by
  induction k generalizing v with
  | zero => rfl
  | succ k ih => rw [writeFixed, List.length_cons, ih]

theorem fixedValue_writeFixed (hv : v < 256 ^ k) : fixedValue (writeFixed k v) = v := by
  induction k generalizing v with
  | zero =>
    rw [pow_zero, Nat.lt_one_iff] at hv
    rw [hv]
    rfl
  | succ k ih =>
    have hdiv : v / 256 < 256 ^ k := by
      rw [Nat.div_lt_iff_lt_mul (by decide), ← pow_succ]
      exact hv
    have hbyte : (UInt8.ofNat (v % 256)).toNat = v % 256 := by
      rw [UInt8.toNat_ofNat']
      omega
    rw [writeFixed, fixedValue, ih hdiv, hbyte]
    omega

/-- Takes a fixed number of bytes. -/
def consumeFixed (k : ℕ) (b : List UInt8) : Except ParseError (ℕ × ℕ) :=
  if b.length < k then .error .unexpectedEOF else .ok (fixedValue (b.take k), k)

theorem consumeFixed_front (k : ℕ) : ReadsFront (consumeFixed k) := by
  intro b v n h
  unfold consumeFixed at h
  split at h
  · cases h
  rename_i hlen
  cases h
  refine ⟨by omega, fun rest => ?_⟩
  have hle : k ≤ (b.take k).length := by simp; omega
  rw [consumeFixed, if_neg (by simp; omega), List.take_append_of_le_length hle, List.take_take,
    Nat.min_self]

/-- Reads a `fixed64`. -/
def consumeFixed64 (b : List UInt8) : Except ParseError (UInt64 × ℕ) :=
  (consumeFixed 8 b).map fun x => (UInt64.ofNat x.1, x.2)

theorem consumeFixed64_back (v : UInt64) :
    ReadsBack (fun v : UInt64 => writeFixed 8 v.toNat) consumeFixed64 v := by
  intro rest
  have hlen : (writeFixed 8 v.toNat).length = 8 := length_writeFixed
  simp only [consumeFixed64, consumeFixed, List.length_append, hlen]
  rw [if_neg (by omega), List.take_append_of_le_length hlen.ge, List.take_of_length_le hlen.le,
    fixedValue_writeFixed (by simpa using v.toNat_lt)]
  simp only [Except.map, UInt64.ofNat_toNat]

/-- A byte string behind its length. -/
def writeBytes (v : List UInt8) : List UInt8 := writeVarint 9 (v.length % 2 ^ 64) ++ v

/-- Reads a byte string. -/
def consumeBytes (b : List UInt8) : Except ParseError (List UInt8 × ℕ) :=
  match readVarint 9 b with
  | .error e => .error e
  | .ok (m, n) =>
    if (b.drop n).length < m then .error .unexpectedEOF else .ok ((b.drop n).take m, n + m)

theorem consumeBytes_eq_ok {x : List UInt8} : consumeBytes b = .ok (x, k) ↔
      ∃ m n, readVarint 9 b = .ok (m, n) ∧ n + m ≤ b.length ∧ x = (b.drop n).take m ∧
        k = n + m := by
  unfold consumeBytes
  cases hread : readVarint 9 b with
  | error e => simp
  | ok y =>
    obtain ⟨m, n⟩ := y
    have hle := (readVarint_front 9 _ _ _ hread).1
    simp only [List.length_drop]
    split
    · rename_i hshort
      simp only [reduceCtorEq, Except.ok.injEq, Prod.mk.injEq, false_iff, not_exists, not_and]
      rintro m' n' ⟨rfl, rfl⟩ hfits
      omega
    · rename_i hfits
      simp only [Except.ok.injEq, Prod.mk.injEq]
      constructor
      · rintro ⟨rfl, rfl⟩
        exact ⟨m, n, ⟨rfl, rfl⟩, by omega, rfl, rfl⟩
      · rintro ⟨m', n', ⟨rfl, rfl⟩, -, rfl, rfl⟩
        exact ⟨rfl, rfl⟩

theorem consumeBytes_front : ReadsFront consumeBytes := by
  intro b x k h
  obtain ⟨m, n, hread, hle, rfl, rfl⟩ := consumeBytes_eq_ok.mp h
  refine ⟨hle, fun rest => consumeBytes_eq_ok.mpr ⟨m, n, ?_, ?_, ?_, rfl⟩⟩
  · rw [List.take_add, List.append_assoc]
    exact (readVarint_front 9 _ _ _ hread).2 _
  · simp
    omega
  · have hlen : (b.take n).length = n := by simp; omega
    rw [List.take_add, List.append_assoc, List.drop_append_of_le_length hlen.ge,
      List.drop_eq_nil_of_le hlen.le, List.nil_append, List.take_append_of_le_length (by simp; omega),
      List.take_take, Nat.min_self]

theorem consumeBytes_back (v : List UInt8) (hv : v.length < 2 ^ 63) :
    ReadsBack writeBytes consumeBytes v := by
  intro rest
  have hmod : v.length % 2 ^ 64 = v.length := Nat.mod_eq_of_lt (by omega)
  refine consumeBytes_eq_ok.mpr ⟨v.length, (writeVarint 9 v.length).length, ?_, ?_, ?_, ?_⟩
  · rw [writeBytes, hmod, List.append_assoc]
    exact readVarint_back 9 _ (by omega) _
  · simp only [writeBytes, hmod, List.length_append]
    omega
  · rw [writeBytes, hmod, List.append_assoc, List.drop_left, List.take_left]
  · rw [writeBytes, hmod, List.length_append]

/-! ## Values of any wire type -/

/-- The fields of a group, up to the end tag with the number of the group. -/
def consumeGroup (inner : ℕ → WireType → List UInt8 → Except ParseError (Unit × ℕ)) (num : ℕ) :
    ℕ → List UInt8 → Except ParseError (Unit × ℕ)
  | 0, _ => .error .unexpectedEOF
  | fuel + 1, b =>
    match consumeTag b with
    | .error e => .error e
    | .ok ((num', typ), n) =>
      if typ = .endGroup then if num = num' then .ok ((), n) else .error .endGroup
      else
        match inner num' typ (b.drop n) with
        | .error e => .error e
        | .ok (_, k) =>
          (consumeGroup inner num fuel (b.drop (n + k))).map fun x => ((), n + k + x.2)

/-- The length of a value; groups nest at most `depth` deep. -/
def consumeValue : ℕ → ℕ → WireType → List UInt8 → Except ParseError (Unit × ℕ)
  | _, _, .varint, b => (consumeVarint b).map fun x => ((), x.2)
  | _, _, .fixed64, b => (consumeFixed64 b).map fun x => ((), x.2)
  | _, _, .bytes, b => (consumeBytes b).map fun x => ((), x.2)
  | _, _, .fixed32, b => (consumeFixed 4 b).map fun x => ((), x.2)
  | 0, _, .startGroup, _ => .error .recursionDepth
  | depth + 1, num, .startGroup, b => consumeGroup (consumeValue depth) num (b.length + 1) b
  | _, _, .endGroup, _ => .error .endGroup
  | _, _, .reserved6, _ | _, _, .reserved7, _ => .error .reserved

/-- A group needs no more rounds than it has bytes. -/
theorem consumeGroup_front {inner : ℕ → WireType → List UInt8 → Except ParseError (Unit × ℕ)}
    (hinner : ∀ num typ, ReadsFront (inner num typ)) (num fuel : ℕ)
    (h : consumeGroup inner num fuel b = .ok ((), n)) :
    n ≤ b.length ∧ ∀ rest fuel', n ≤ fuel' →
      consumeGroup inner num fuel' (b.take n ++ rest) = .ok ((), n) := by
  induction fuel generalizing b n with
  | zero => cases h
  | succ fuel ih =>
    simp only [consumeGroup] at h
    split at h
    · cases h
    rename_i num' typ t htag
    have htpos := readVarint_pos (consumeTag_eq_ok.mp htag).choose_spec.1
    obtain ⟨htle, htfront⟩ := consumeTag_front _ _ _ htag
    split at h
    · rename_i hend
      split at h
      · rename_i hnum
        cases h
        refine ⟨htle, fun rest fuel' hfuel => ?_⟩
        obtain ⟨fuel', rfl⟩ : ∃ m, fuel' = m + 1 := ⟨fuel' - 1, by omega⟩
        simp only [consumeGroup, htfront, if_pos hend, if_pos hnum]
      · cases h
    · rename_i hend
      split at h
      · cases h
      rename_i k hvalue
      obtain ⟨hkle, hkfront⟩ := hinner _ _ _ _ _ hvalue
      obtain ⟨⟨_, m⟩, hrest, heq⟩ := map_eq_ok.mp h
      obtain rfl : t + k + m = n := (Prod.mk.inj heq).2
      obtain ⟨hmle, hmfront⟩ := ih hrest
      simp only [List.length_drop] at hkle hmle
      refine ⟨by omega, fun rest fuel' hfuel => ?_⟩
      obtain ⟨fuel', rfl⟩ : ∃ m, fuel' = m + 1 := ⟨fuel' - 1, by omega⟩
      -- the group is its first tag, the value behind it and the rest of the group
      have hlen : (b.take t).length = t := by simp; omega
      have hlen' : ((b.drop t).take k).length = k := by simp; omega
      have hsplit : b.take (t + k + m) ++ rest =
          b.take t ++ ((b.drop t).take k ++ ((b.drop (t + k)).take m ++ rest)) := by
        rw [List.take_add, List.take_add, List.append_assoc, List.append_assoc]
      have hdrop : (b.take (t + k + m) ++ rest).drop t =
          (b.drop t).take k ++ ((b.drop (t + k)).take m ++ rest) := by
        rw [hsplit, List.drop_left' hlen]
      have hdrop' : (b.take (t + k + m) ++ rest).drop (t + k) =
          (b.drop (t + k)).take m ++ rest := by
        rw [← List.drop_drop, hdrop, List.drop_left' hlen']
      have htag' : consumeTag (b.take (t + k + m) ++ rest) = .ok ((num', typ), t) := by
        rw [hsplit]
        exact htfront _
      simp only [consumeGroup, htag', if_neg hend, hdrop, hkfront, hdrop']
      rw [hmfront rest fuel' (by omega)]
      rfl

theorem consumeValue_front (depth num : ℕ) (typ : WireType) :
    ReadsFront (consumeValue depth num typ) := by
  induction depth generalizing num typ <;> cases typ
  case zero.varint | succ.varint =>
    exact ((readVarint_front 9).map fun v _ => UInt64.ofNat v).map fun _ _ => ()
  case zero.fixed64 | succ.fixed64 =>
    exact ((consumeFixed_front 8).map fun v _ => UInt64.ofNat v).map fun _ _ => ()
  case zero.bytes | succ.bytes => exact consumeBytes_front.map fun _ _ => ()
  case zero.fixed32 | succ.fixed32 => exact (consumeFixed_front 4).map fun _ _ => ()
  case succ.startGroup depth ih =>
    intro b a n h
    obtain ⟨hle, hfront⟩ := consumeGroup_front ih num _ h
    refine ⟨hle, fun rest => hfront rest _ ?_⟩
    simp
    omega
  all_goals
    intro b a n h
    cases h

/-! ## Signed numbers -/

/-- Signed numbers by their size: 0, -1, 1, -2, … -/
def encodeZigZag (x : Int64) : UInt64 :=
  if 0 ≤ x.toInt then UInt64.ofNat (2 * x.toInt).toNat else UInt64.ofNat (-2 * x.toInt - 1).toNat

/-- The signed number at a place. -/
def decodeZigZag (u : UInt64) : Int64 :=
  if u.toNat % 2 = 0 then Int64.ofInt (u.toNat / 2) else Int64.ofInt (-(u.toNat / 2) - 1)

theorem decodeZigZag_encodeZigZag (x : Int64) : decodeZigZag (encodeZigZag x) = x := by
  have hlow := x.le_toInt
  have hhigh := x.toInt_lt
  unfold encodeZigZag
  split
  · rename_i hpos
    obtain ⟨m, hm⟩ := Int.eq_ofNat_of_zero_le hpos
    have hnat : (UInt64.ofNat (2 * x.toInt).toNat).toNat = 2 * m := by
      rw [UInt64.toNat_ofNat']
      omega
    rw [decodeZigZag, hnat, if_pos (by omega), show ((2 * m : ℕ) : ℤ) / 2 = x.toInt by omega,
      Int64.ofInt_toInt]
  · rename_i hneg
    obtain ⟨m, hm⟩ : ∃ m : ℕ, x.toInt = -(m : ℤ) - 1 := ⟨(-x.toInt - 1).toNat, by omega⟩
    have hnat : (UInt64.ofNat (-2 * x.toInt - 1).toNat).toNat = 2 * m + 1 := by
      rw [UInt64.toNat_ofNat']
      omega
    rw [decodeZigZag, hnat, if_neg (by omega),
      show -(((2 * m + 1 : ℕ) : ℤ) / 2) - 1 = x.toInt by omega, Int64.ofInt_toInt]

end Montygo.WireFormat.Standard

namespace Montygo.WireFormat

open Standard

/-- The documented wire format; groups nest at most 10001 deep. -/
def standard : Protowire where
  tag := tag
  varint v := writeVarint 9 v.toNat
  fixed64 v := writeFixed 8 v.toNat
  bytes := writeBytes
  consumeTag := consumeTag
  consumeVarint := consumeVarint
  consumeFixed64 := consumeFixed64
  consumeBytes := consumeBytes
  consumeFieldValue := consumeValue 10001
  encodeZigZag := encodeZigZag
  decodeZigZag := decodeZigZag
  encodeBool x := if x then 1 else 0
  tag_front := consumeTag_front
  varint_front := (readVarint_front 9).map fun v _ => UInt64.ofNat v
  fixed64_front := (consumeFixed_front 8).map fun v _ => UInt64.ofNat v
  bytes_front := consumeBytes_front
  value_front := consumeValue_front 10001
  tag_pos b t n h := readVarint_pos (consumeTag_eq_ok.mp h).choose_spec.1
  tag_back := consumeTag_back
  varint_back := consumeVarint_back
  fixed64_back := consumeFixed64_back
  bytes_back := consumeBytes_back
  length_le_bytes v := by simp [writeBytes]
  value_varint _ _ := rfl
  value_fixed64 _ _ := rfl
  value_bytes _ _ := rfl
  zigZag := decodeZigZag_encodeZigZag
  encodeBool_ne_zero x := by cases x <;> decide

end Montygo.WireFormat
