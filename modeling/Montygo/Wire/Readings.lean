import Montygo.Wire.Decode
import Mathlib.Tactic.IntervalCases

/-!
# What the numbers of a message are read as

The numbers on the wire have 64 bits; a field of 32 bits is the low half of its number.  The
decoders of dates, times, datetimes, timedeltas and timezones either refuse a number or read it
like that, also where they clamp it to a byte first: the clamped number is out of range.  The origin
of a type is cut to its low eight bits before it is checked.
-/

namespace Montygo.Wire

open Go Value WireFormat Protowire Fallible

/-! ## Readings -/

/-- The low half of a number as a signed number; an enum is read the same way. -/
def int32Reading (v : UInt64) : ℤ := (BitVec.ofNat 32 v.toNat).toInt

/-- The low half of a number. -/
def uint32Reading (v : UInt64) : ℕ := v.toNat % 2 ^ 32

/-- What a field of the message is read as: its last number, or `old` if it has none. -/
def lastRead {β : Type} (num : ℕ) (conv : UInt64 → β) (old : β) : List Field → β
  | [] => old
  | ⟨n, .varint v⟩ :: rest => lastRead num conv (if n = num then conv v else old) rest
  | _ :: rest => lastRead num conv old rest

/-- The number of a field; a field that is not there is zero. -/
def numberOf (num : ℕ) (fields : List Field) : UInt64 := lastRead num id 0 fields

/-- The number of a field that may be left out. -/
def numberOf? (num : ℕ) (fields : List Field) : Option UInt64 := lastRead num some none fields

theorem lastRead_map {α β : Type} (num : ℕ) (g : α → β) (conv : UInt64 → α) (old : α)
    (fields : List Field) :
    lastRead num (fun v => g (conv v)) (g old) fields = g (lastRead num conv old fields) := by
  fun_induction lastRead num conv old fields with
  | case1 old => rfl
  | case2 old n v rest ih =>
    rw [← ih, lastRead]
    split <;> rfl
  | case3 old f rest hf ih =>
    rw [← ih, lastRead]
    exact hf

theorem toInt_toInt32 (v : UInt64) : (toInt32 v).toInt = int32Reading v := by
  rw [int32Reading, ← Int32.toInt_toBitVec]
  congr 1

theorem toNat_toUInt32 (v : UInt64) : v.toUInt32.toNat = uint32Reading v := by
  rw [UInt64.toNat_toUInt32, uint32Reading]

theorem toNat_clampU32 {v : UInt64} (h : (clampU32 v).toNat < 255) :
    (clampU32 v).toNat = uint32Reading v := by
  unfold clampU32 at h ⊢
  split at h
  · exact absurd h (by decide)
  rename_i hle
  have hsmall : v.toNat ≤ 255 := by
    have := UInt64.le_iff_toNat_le.mp (UInt64.not_lt.mp hle)
    simpa using this
  rw [if_neg hle, UInt64.toNat_toUInt8, uint32Reading]
  omega

theorem toNat_origin_iff (v : UInt64) :
    (v.toUInt8.toNat : ℤ) = int32Reading v ↔ uint32Reading v < 256 := by
  rw [UInt64.toNat_toUInt8, int32Reading, uint32Reading, BitVec.toInt_eq_toNat_cond,
    BitVec.toNat_ofNat]
  constructor
  · intro h
    split at h <;> omega
  · intro h
    rw [if_pos (by omega)]
    omega

/-! ### The fields of a record -/

variable {num : ℕ} {dec : Bytes → DecodeM Object}

theorem lastRead_of_ne {β : Type} {conv : UInt64 → β} {old : β} {f : Field} {rest : List Field}
    (h : f.num ≠ num) : lastRead num conv old (f :: rest) = lastRead num conv old rest := by
  obtain ⟨n, payload⟩ := f
  cases payload with
  | varint v => rw [lastRead, if_neg h]
  | bytes | fixed64 | other => rfl

variable {P : Protowire} {fields : List Field} {budget budget' : Budget}

@[elab_as_elim]
theorem takeFields_rec {σ : Type} {arms : ℕ → Arm σ} {R : List Field → σ → σ → Prop} {s s' : σ}
    (hnil : ∀ s, R [] s s)
    (hcons : ∀ num payload rest s s₁ s' budget budget₁,
      (arms num).take P ⟨num, payload⟩ s budget = .ok s₁ budget₁ → R rest s₁ s' →
        R (⟨num, payload⟩ :: rest) s s')
    (h : takeFields P arms fields s budget = .ok s' budget') : R fields s s' := by
  induction fields generalizing s budget with
  | nil =>
    obtain ⟨rfl, -⟩ := pure_eq_ok.mp h
    exact hnil s
  | cons f rest ih =>
    obtain ⟨s₁, budget₁, hfirst, hrest⟩ := bind_eq_ok.mp h
    exact hcons _ _ _ _ _ _ _ _ hfirst (ih hrest)

theorem take_date {d d' : Date} (h : takeFields P dateArms fields d budget = .ok d' budget') :
    d' = ⟨lastRead 1 toInt32 d.year fields, lastRead 2 clampU32 d.month fields,
      lastRead 3 clampU32 d.day fields⟩ := by
  refine takeFields_rec (fun _ => rfl) (fun num payload rest s s₁ s' _ _ hfirst hrest => ?_) h
  rw [hrest]
  match num with
  | 1 | 2 | 3 =>
    obtain ⟨v, rfl, rfl⟩ := take_varint_pure hfirst
    simp [lastRead]
  | 0 | n + 4 =>
    obtain ⟨rfl, -⟩ := pure_eq_ok.mp (take_skip ▸ hfirst)
    simp [lastRead_of_ne]

theorem take_time {t t' : Time} (h : takeFields P timeArms fields t budget = .ok t' budget') :
    ∃ name, t' = ⟨lastRead 1 clampU32 t.hour fields, lastRead 2 clampU32 t.minute fields,
      lastRead 3 clampU32 t.second fields, lastRead 4 UInt64.toUInt32 t.microsecond fields,
      lastRead 5 (fun v => some (toInt32 v)) t.offsetSeconds fields, name,
      lastRead 7 clampU32 t.fold fields⟩ := by
  refine takeFields_rec (fun _ => ⟨_, rfl⟩) (fun num payload rest s s₁ s' _ _ hfirst hrest => ?_) h
  obtain ⟨name, rfl⟩ := hrest
  match num with
  | 1 | 2 | 3 | 4 | 5 | 7 =>
    obtain ⟨v, rfl, rfl⟩ := take_varint_pure hfirst
    simp [lastRead]
  | 6 =>
    obtain ⟨b, rfl, rfl⟩ := take_bytes_pure hfirst
    simp [lastRead]
  | 0 | n + 8 =>
    obtain ⟨rfl, -⟩ := pure_eq_ok.mp (take_skip ▸ hfirst)
    simp [lastRead_of_ne]

theorem take_dateTime {d d' : DateTime}
    (h : takeFields P dateTimeArms fields d budget = .ok d' budget') :
    ∃ name, d' = ⟨lastRead 1 toInt32 d.year fields, lastRead 2 clampU32 d.month fields,
      lastRead 3 clampU32 d.day fields, lastRead 4 clampU32 d.hour fields,
      lastRead 5 clampU32 d.minute fields, lastRead 6 clampU32 d.second fields,
      lastRead 7 UInt64.toUInt32 d.microsecond fields,
      lastRead 8 (fun v => some (toInt32 v)) d.offsetSeconds fields, name⟩ := by
  refine takeFields_rec (fun _ => ⟨_, rfl⟩) (fun num payload rest s s₁ s' _ _ hfirst hrest => ?_) h
  obtain ⟨name, rfl⟩ := hrest
  match num with
  | 1 | 2 | 3 | 4 | 5 | 6 | 7 | 8 =>
    obtain ⟨v, rfl, rfl⟩ := take_varint_pure hfirst
    simp [lastRead]
  | 9 =>
    obtain ⟨b, rfl, rfl⟩ := take_bytes_pure hfirst
    simp [lastRead]
  | 0 | n + 10 =>
    obtain ⟨rfl, -⟩ := pure_eq_ok.mp (take_skip ▸ hfirst)
    simp [lastRead_of_ne]

theorem take_timeDelta {t t' : TimeDelta}
    (h : takeFields P timeDeltaArms fields t budget = .ok t' budget') :
    t' = ⟨lastRead 1 toInt32 t.days fields, lastRead 2 toInt32 t.seconds fields,
      lastRead 3 toInt32 t.microseconds fields⟩ := by
  refine takeFields_rec (fun _ => rfl) (fun num payload rest s s₁ s' _ _ hfirst hrest => ?_) h
  rw [hrest]
  match num with
  | 1 | 2 | 3 =>
    obtain ⟨v, rfl, rfl⟩ := take_varint_pure hfirst
    simp [lastRead]
  | 0 | n + 4 =>
    obtain ⟨rfl, -⟩ := pure_eq_ok.mp (take_skip ▸ hfirst)
    simp [lastRead_of_ne]

theorem take_timeZone {t t' : TimeZone}
    (h : takeFields P timeZoneArms fields t budget = .ok t' budget') :
    t'.offsetSeconds = lastRead 1 toInt32 t.offsetSeconds fields := by
  refine takeFields_rec (fun _ => rfl) (fun num payload rest s s₁ s' _ _ hfirst hrest => ?_) h
  rw [hrest]
  match num with
  | 1 =>
    obtain ⟨v, rfl, rfl⟩ := take_varint_pure hfirst
    simp [lastRead]
  | 2 =>
    obtain ⟨b, rfl, rfl⟩ := take_bytes_pure hfirst
    rfl
  | 0 | n + 3 =>
    obtain ⟨rfl, -⟩ := pure_eq_ok.mp (take_skip ▸ hfirst)
    simp [lastRead_of_ne]

theorem take_type {t t' : TypeState}
    (h : takeFields P (typeArms P dec) fields t budget = .ok t' budget') :
    t'.info.origin = lastRead 3 UInt64.toUInt8 t.info.origin fields := by
  refine takeFields_rec (fun _ => rfl) (fun num payload rest s s₁ s' _ _ hfirst hrest => ?_) h
  rw [hrest]
  match num with
  | 3 | 4 =>
    obtain ⟨v, rfl, rfl⟩ := take_varint_pure hfirst
    simp [lastRead]
  | 1 =>
    obtain ⟨b, rfl, rfl⟩ := take_bytes_pure hfirst
    rfl
  | 2 =>
    obtain ⟨b, id, _, rfl, -, rfl⟩ := take_bytes_bind hfirst
    rfl
  | 5 =>
    obtain ⟨b, pairs, _, rfl, -, rfl⟩ := take_bytes_bind hfirst
    rw [lastRead_of_ne (by simp)]
    split <;> rfl
  | 0 | n + 6 =>
    obtain ⟨rfl, -⟩ := pure_eq_ok.mp (take_skip ▸ hfirst)
    simp [lastRead_of_ne]

/-! ## Ranges -/

/-- The days of a month of the Gregorian calendar. -/
def monthDays (year : ℤ) (month : ℕ) : ℕ :=
  if month = 2 then if year % 4 = 0 ∧ (year % 100 ≠ 0 ∨ year % 400 = 0) then 29 else 28
  else if month ∈ [4, 6, 9, 11] then 30 else 31

structure DateInRange (year : ℤ) (month day : ℕ) : Prop where
  year_le : 1 ≤ year ∧ year ≤ 9999
  month_le : 1 ≤ month ∧ month ≤ 12
  day_le : 1 ≤ day ∧ day ≤ monthDays year month

structure ClockInRange (hour minute second micro : ℕ) (offset : Option ℤ) : Prop where
  hour_le : hour ≤ 23
  minute_le : minute ≤ 59
  second_le : second ≤ 59
  micro_le : micro ≤ 999999
  offset_lt : ∀ seconds ∈ offset, -86400 < seconds ∧ seconds < 86400

theorem toNat_daysOf {year : Int32} {month : UInt8} (h : 1 ≤ month.toNat ∧ month.toNat ≤ 12) :
    (daysOf year month).toNat = monthDays year.toInt month.toNat := by
  obtain ⟨hlo, hhi⟩ := h
  have hmonth : month = UInt8.ofNat month.toNat := by simp
  unfold daysOf monthDays
  generalize month.toNat = m at *
  subst hmonth
  rcases eq_or_ne m 2 with rfl | hfebruary
  · have htwo : UInt8.ofNat 2 = 2 := rfl
    simp only [htwo, true_and, if_true]
    split <;> rfl
  · interval_cases m <;> first | rfl | exact absurd rfl hfebruary

theorem validateDate_ok {year : Int32} {month day : UInt8}
    (h : validateDate year month day = .ok ()) :
    DateInRange year.toInt month.toNat day.toNat := by
  unfold validateDate at h
  split at h
  · cases h
  rename_i hyear
  split at h
  · cases h
  rename_i hmonth
  split at h
  · cases h
  rename_i hday
  simp only [not_or, Int32.lt_iff_toInt_lt, UInt8.lt_iff_toNat_lt, not_lt] at hyear hmonth hday
  have hrange : 1 ≤ month.toNat ∧ month.toNat ≤ 12 := by simpa using hmonth
  refine ⟨by simpa using hyear, hrange, by simpa using hday.1, ?_⟩
  rw [← toNat_daysOf hrange]
  exact hday.2

theorem DateInRange.day_le_31 {year : ℤ} {month day : ℕ} (h : DateInRange year month day) :
    day ≤ 31 := by
  refine h.day_le.2.trans ?_
  unfold monthDays
  split_ifs <;> decide

theorem validateClock_ok {hour minute second : UInt8} {micro : UInt32} {offset : Option Int32}
    {name : Option GoString} (h : validateClock hour minute second micro offset name = .ok ()) :
    ClockInRange hour.toNat minute.toNat second.toNat micro.toNat (offset.map Int32.toInt) := by
  unfold validateClock at h
  split at h
  · cases h
  rename_i hclock
  split at h
  · cases h
  rename_i hoffset
  simp only [not_or, UInt8.lt_iff_toNat_lt, UInt32.lt_iff_toNat_lt, not_lt] at hclock
  obtain ⟨hhour, hminute, hsecond, hmicro⟩ := hclock
  refine ⟨by simpa using hhour, by simpa using hminute, by simpa using hsecond,
    by simpa using hmicro, fun seconds hseconds => ?_⟩
  cases offset with
  | none => cases hseconds
  | some o =>
    cases hseconds
    simpa [Int32.le_iff_toInt_le] using hoffset

theorem validateTime_ok {t : Time} (h : validateTime t = .ok ()) :
    ClockInRange t.hour.toNat t.minute.toNat t.second.toNat t.microsecond.toNat
      (t.offsetSeconds.map Int32.toInt) ∧ t.fold.toNat ≤ 1 := by
  unfold validateTime at h
  obtain ⟨u, hclock, hfold⟩ := Outcome.bind_eq_ok.mp h
  refine ⟨validateClock_ok hclock, ?_⟩
  split at hfold
  · cases hfold
  · rename_i hle
    simpa [UInt8.lt_iff_toNat_lt] using hle

theorem validateDateTime_ok {d : DateTime} (h : validateDateTime d = .ok ()) :
    DateInRange d.year.toInt d.month.toNat d.day.toNat ∧
      ClockInRange d.hour.toNat d.minute.toNat d.second.toNat d.microsecond.toNat
        (d.offsetSeconds.map Int32.toInt) := by
  obtain ⟨u, hdate, hclock⟩ := Outcome.bind_eq_ok.mp h
  exact ⟨validateDate_ok hdate, validateClock_ok hclock⟩

theorem validateTimeDelta_ok {t : TimeDelta} (h : validateTimeDelta t = .ok ()) :
    (-999999999 ≤ t.days.toInt ∧ t.days.toInt ≤ 999999999) ∧
      (0 ≤ t.seconds.toInt ∧ t.seconds.toInt < 86400) ∧
      (0 ≤ t.microseconds.toInt ∧ t.microseconds.toInt < 1000000) := by
  unfold validateTimeDelta at h
  split at h
  · cases h
  rename_i hrange
  simp only [not_or, Int32.lt_iff_toInt_lt, Int32.le_iff_toInt_le, not_lt, not_le] at hrange
  obtain ⟨hseconds, hseconds', hmicro, hmicro', hdays, hdays'⟩ := hrange
  exact ⟨⟨hdays, hdays'⟩, ⟨hseconds, hseconds'⟩, hmicro, hmicro'⟩

theorem validateTimeZone_ok {t : TimeZone} (h : validateTimeZone t = .ok ()) :
    -86400 < t.offsetSeconds.toInt ∧ t.offsetSeconds.toInt < 86400 := by
  unfold validateTimeZone at h
  split at h
  · cases h
  rename_i hrange
  simp only [not_or, Int32.le_iff_toInt_le, not_le] at hrange
  exact hrange

theorem validateOrigin_ok {origin : TypeOrigin} {hasID : Bool}
    (h : validateOrigin origin hasID = .ok ()) :
    origin = originBuiltin ∨ origin = originSandbox ∨ origin = originHost := by
  unfold validateOrigin at h
  split at h
  · exact .inl ‹_›
  split at h
  · exact .inr ‹_›
  · cases h

/-! ## Records and their messages -/

/-- Each number of the date is the reading of its field. -/
structure DateReads (fields : List Field) (d : Date) : Prop where
  year : d.year.toInt = int32Reading (numberOf 1 fields)
  month : d.month.toNat = uint32Reading (numberOf 2 fields)
  day : d.day.toNat = uint32Reading (numberOf 3 fields)
  inRange : DateInRange d.year.toInt d.month.toNat d.day.toNat

structure TimeReads (fields : List Field) (t : Time) : Prop where
  hour : t.hour.toNat = uint32Reading (numberOf 1 fields)
  minute : t.minute.toNat = uint32Reading (numberOf 2 fields)
  second : t.second.toNat = uint32Reading (numberOf 3 fields)
  microsecond : t.microsecond.toNat = uint32Reading (numberOf 4 fields)
  offsetSeconds : t.offsetSeconds.map Int32.toInt = (numberOf? 5 fields).map int32Reading
  fold : t.fold.toNat = uint32Reading (numberOf 7 fields)
  inRange : ClockInRange t.hour.toNat t.minute.toNat t.second.toNat t.microsecond.toNat
    (t.offsetSeconds.map Int32.toInt)
  fold_le : t.fold.toNat ≤ 1

structure DateTimeReads (fields : List Field) (d : DateTime) : Prop where
  year : d.year.toInt = int32Reading (numberOf 1 fields)
  month : d.month.toNat = uint32Reading (numberOf 2 fields)
  day : d.day.toNat = uint32Reading (numberOf 3 fields)
  hour : d.hour.toNat = uint32Reading (numberOf 4 fields)
  minute : d.minute.toNat = uint32Reading (numberOf 5 fields)
  second : d.second.toNat = uint32Reading (numberOf 6 fields)
  microsecond : d.microsecond.toNat = uint32Reading (numberOf 7 fields)
  offsetSeconds : d.offsetSeconds.map Int32.toInt = (numberOf? 8 fields).map int32Reading
  date_inRange : DateInRange d.year.toInt d.month.toNat d.day.toNat
  clock_inRange : ClockInRange d.hour.toNat d.minute.toNat d.second.toNat d.microsecond.toNat
    (d.offsetSeconds.map Int32.toInt)

structure TimeDeltaReads (fields : List Field) (t : TimeDelta) : Prop where
  days : t.days.toInt = int32Reading (numberOf 1 fields)
  seconds : t.seconds.toInt = int32Reading (numberOf 2 fields)
  microseconds : t.microseconds.toInt = int32Reading (numberOf 3 fields)
  days_le : -999999999 ≤ t.days.toInt ∧ t.days.toInt ≤ 999999999
  seconds_lt : 0 ≤ t.seconds.toInt ∧ t.seconds.toInt < 86400
  microseconds_lt : 0 ≤ t.microseconds.toInt ∧ t.microseconds.toInt < 1000000

structure TimeZoneReads (fields : List Field) (t : TimeZone) : Prop where
  offsetSeconds : t.offsetSeconds.toInt = int32Reading (numberOf 1 fields)
  offset_lt : -86400 < t.offsetSeconds.toInt ∧ t.offsetSeconds.toInt < 86400

structure TypeReads (fields : List Field) (info : TypeInfo) : Prop where
  origin : (info.origin.toNat : ℤ) = int32Reading (numberOf 3 fields)
  origin_mem : int32Reading (numberOf 3 fields) ∈ [1, 2, 3]

theorem reads_int32 {x : Int32} (h : x = lastRead num toInt32 0 fields) :
    x.toInt = int32Reading (numberOf num fields) := by
  have heq : lastRead num toInt32 0 fields = toInt32 (numberOf num fields) :=
    lastRead_map num toInt32 id 0 fields
  rw [h, heq, toInt_toInt32]

theorem reads_uint32 {x : UInt32} (h : x = lastRead num UInt64.toUInt32 0 fields) :
    x.toNat = uint32Reading (numberOf num fields) := by
  have heq : lastRead num UInt64.toUInt32 0 fields = (numberOf num fields).toUInt32 :=
    lastRead_map num UInt64.toUInt32 id 0 fields
  rw [h, heq, toNat_toUInt32]

theorem reads_clamped {x : UInt8} (h : x = lastRead num clampU32 0 fields) (hlt : x.toNat < 255) :
    x.toNat = uint32Reading (numberOf num fields) := by
  have heq : lastRead num clampU32 0 fields = clampU32 (numberOf num fields) :=
    lastRead_map num clampU32 id 0 fields
  rw [h, heq] at hlt ⊢
  exact toNat_clampU32 hlt

theorem reads_offset {x : Option Int32}
    (h : x = lastRead num (fun v => some (toInt32 v)) none fields) :
    x.map Int32.toInt = (numberOf? num fields).map int32Reading := by
  have heq : lastRead num (fun v => some (toInt32 v)) none fields =
      (numberOf? num fields).map toInt32 :=
    lastRead_map num (Option.map toInt32) some none fields
  rw [h, heq, Option.map_map]
  exact congrFun (congrArg Option.map (funext toInt_toInt32)) _

theorem ensure_eq_ok {check : Except WireError Unit} {u : Unit} :
    ensure check budget = .ok u budget' ↔ check = .ok () ∧ budget = budget' := by
  cases check with
  | error e | ok u => simp [ensure]

theorem checked_eq_ok {σ α : Type} {arms : ℕ → Arm σ} {msg : Bytes} {s : σ}
    {check : σ → Except WireError Unit} {make : σ → α} {a : α}
    (h : (do let s' ← readMessage P arms msg s; ensure (check s'); pure (make s') : DecodeM α)
      budget = .ok a budget') :
    ∃ fields s', P.Parses msg fields ∧ takeFields P arms fields s budget = .ok s' budget' ∧
      check s' = .ok () ∧ a = make s' := by
  obtain ⟨s', budget₁, hread, hrest⟩ := bind_eq_ok.mp h
  obtain ⟨u, budget₂, hcheck, hmake⟩ := bind_eq_ok.mp hrest
  obtain ⟨hvalid, rfl⟩ := ensure_eq_ok.mp hcheck
  obtain ⟨rfl, rfl⟩ := pure_eq_ok.mp hmake
  obtain ⟨fields, hparse, htake⟩ := readMessage_eq_ok.mp hread
  exact ⟨fields, s', hparse, htake, hvalid, rfl⟩

variable {msg : Bytes} {v : Object}

theorem decodeDate_reads (h : decodeDate P msg budget = .ok v budget') :
    ∃ fields d, P.Parses msg fields ∧ v = .date d ∧ DateReads fields d := by
  obtain ⟨fields, d, hparse, htake, hcheck, rfl⟩ := checked_eq_ok h
  have hread := take_date htake
  have hrange := validateDate_ok hcheck
  have hmonth := hrange.month_le
  have hday := hrange.day_le_31
  exact ⟨fields, d, hparse, rfl, reads_int32 (by rw [hread]),
    reads_clamped (by rw [hread]) (by omega), reads_clamped (by rw [hread]) (by omega), hrange⟩

theorem decodeTime_reads (h : decodeTime P msg budget = .ok v budget') :
    ∃ fields t, P.Parses msg fields ∧ v = .time t ∧ TimeReads fields t := by
  obtain ⟨fields, t, hparse, htake, hcheck, rfl⟩ := checked_eq_ok h
  obtain ⟨name, hread⟩ := take_time htake
  obtain ⟨hrange, hfold⟩ := validateTime_ok hcheck
  obtain ⟨hhour, hminute, hsecond, -, -⟩ := id hrange
  exact ⟨fields, t, hparse, rfl, reads_clamped (by rw [hread]) (by omega),
    reads_clamped (by rw [hread]) (by omega), reads_clamped (by rw [hread]) (by omega),
    reads_uint32 (by rw [hread]), reads_offset (by rw [hread]),
    reads_clamped (by rw [hread]) (by omega), hrange, hfold⟩

theorem decodeDateTime_reads (h : decodeDateTime P msg budget = .ok v budget') :
    ∃ fields d, P.Parses msg fields ∧ v = .dateTime d ∧ DateTimeReads fields d := by
  obtain ⟨fields, d, hparse, htake, hcheck, rfl⟩ := checked_eq_ok h
  obtain ⟨name, hread⟩ := take_dateTime htake
  obtain ⟨hdate, hclock⟩ := validateDateTime_ok hcheck
  have hmonth := hdate.month_le
  have hday := hdate.day_le_31
  obtain ⟨hhour, hminute, hsecond, -, -⟩ := id hclock
  exact ⟨fields, d, hparse, rfl, reads_int32 (by rw [hread]),
    reads_clamped (by rw [hread]) (by omega), reads_clamped (by rw [hread]) (by omega),
    reads_clamped (by rw [hread]) (by omega), reads_clamped (by rw [hread]) (by omega),
    reads_clamped (by rw [hread]) (by omega), reads_uint32 (by rw [hread]),
    reads_offset (by rw [hread]), hdate, hclock⟩

theorem decodeTimeDelta_reads (h : decodeTimeDelta P msg budget = .ok v budget') :
    ∃ fields t, P.Parses msg fields ∧ v = .timeDelta t ∧ TimeDeltaReads fields t := by
  obtain ⟨fields, t, hparse, htake, hcheck, rfl⟩ := checked_eq_ok h
  have hread := take_timeDelta htake
  obtain ⟨hdays, hseconds, hmicro⟩ := validateTimeDelta_ok hcheck
  exact ⟨fields, t, hparse, rfl, reads_int32 (by rw [hread]), reads_int32 (by rw [hread]),
    reads_int32 (by rw [hread]), hdays, hseconds, hmicro⟩

theorem decodeTimeZone_reads {t : TimeZone} (h : decodeTimeZone P msg budget = .ok t budget') :
    ∃ fields, P.Parses msg fields ∧ TimeZoneReads fields t := by
  obtain ⟨fields, t', hparse, htake, hcheck, rfl⟩ := checked_eq_ok h
  exact ⟨fields, hparse, reads_int32 (take_timeZone htake), validateTimeZone_ok hcheck⟩

/-- **The origin of a type** is the reading of its field exactly when that is a byte. -/
theorem decodeType_reads_iff {info : TypeInfo} {attrs : Option (List (Object × Object))}
    (hparse : P.Parses msg fields) (h : decodeType P dec msg budget = .ok (info, attrs) budget') :
    TypeReads fields info ↔ uint32Reading (numberOf 3 fields) < 256 := by
  obtain ⟨fields', t, hparse', htake, hcheck, heq⟩ := checked_eq_ok h
  cases heq
  cases hparse.unique hparse'
  have hread : t.info.origin = (numberOf 3 fields).toUInt8 := by
    rw [take_type htake]
    exact lastRead_map 3 UInt64.toUInt8 id 0 fields
  have horigin := validateOrigin_ok hcheck
  constructor
  · intro hreads
    rw [← toNat_origin_iff, ← hread]
    exact hreads.origin
  · intro hlt
    have hsame : (t.info.origin.toNat : ℤ) = int32Reading (numberOf 3 fields) := by
      rw [hread, toNat_origin_iff]
      exact hlt
    refine ⟨hsame, ?_⟩
    rw [← hsame]
    rcases horigin with hone | htwo | hthree
    · simp [hone, originBuiltin]
    · simp [htwo, originSandbox]
    · simp [hthree, originHost]

end Montygo.Wire
