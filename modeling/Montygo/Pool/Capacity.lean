import Montygo.Pool.Sections
import Mathlib.Algebra.BigOperators.Group.List.Basic
import Mathlib.Algebra.Order.BigOperators.Group.List

/-!
# The capacity of the pool

Every unit of capacity is in one place: a spawn under way, a lease, an idle slot,
the reaper queue, a reaper, or a reservation.  `Accounted` says that the three
counters count those places, in every run.  From it follow the two capacity
results.

When checkouts go through `acquire` alone, every unit enters below
`MaxProcesses`, so the pool never holds more workers than that and the queue,
which holds some of them, has room for every send.

A reservation takes its capacity back after a failed bind without asking for
room, while the failed worker may still sit in the queue.  What can still reach the
queue is counted twice, with the units that reservations stand for and without them
(`committed`): a reservation is given out without asking for room, and turns into a
worker later.
-/

namespace Montygo.Pool

open Transition Outcome

attribute [local simp] System.setLease

variable {cfg : Config} {s s' : System} {a : Action}

/-! ## Sums over a list in which one element is replaced -/

/-- The total of `f` over a list. -/
def tally {α : Type*} (f : α → ℕ) (xs : List α) : ℕ := (xs.map f).sum

section Tally

variable {α : Type*} (f : α → ℕ)

@[simp] theorem tally_nil : tally f [] = 0 := rfl

@[simp] theorem tally_cons (x : α) (xs : List α) : tally f (x :: xs) = f x + tally f xs := by
  simp [tally]

@[simp] theorem tally_append (xs ys : List α) : tally f (xs ++ ys) = tally f xs + tally f ys := by
  simp [tally]

theorem tally_erase [DecidableEq α] {x : α} {xs : List α} (hx : x ∈ xs) :
    f x + tally f (xs.erase x) = tally f xs :=
  List.sum_map_erase f hx

theorem le_tally {x : α} {xs : List α} (hx : x ∈ xs) : f x ≤ tally f xs :=
  List.single_le_sum (by simp) _ (List.mem_map_of_mem hx)

end Tally

/-! ## Every unit is counted once -/

/-- The units of a reservation that `starting` counts. -/
def Reservation.starting : Reservation → ℕ
  | .held | .spawning => 1
  | .closing _ | .configuring _ | .dropping _ _ | .dropped => 0

/-- The units of a reservation that `active` counts. -/
def Reservation.active : Reservation → ℕ
  | .configuring _ | .dropping _ _ => 1
  | .held | .spawning | .closing _ | .dropped => 0

/-- The workers no counter holds: `Bind` left `starting` and found the pool closed. -/
def Reservation.uncounted : Reservation → ℕ
  | .closing _ => 1
  | .held | .spawning | .configuring _ | .dropping _ _ | .dropped => 0

/-- The counters count the places a unit of capacity can be in. -/
structure Accounted (s : System) : Prop where
  starting : s.pool.starting = s.spawning + tally Reservation.starting s.reservations
  active : s.pool.active = s.leases.length + tally Reservation.active s.reservations
  retiring : s.pool.retiring = s.pool.reaper.length + s.reaping.length

theorem accounted_initial (h : Initial cfg s) : Accounted s := by
  obtain ⟨slots, -, rfl⟩ := h
  constructor <;> simp

@[simp] theorem require_eq_ok {c : Prop} [Decidable c] {u : Unit} : require c = .ok u ↔ c := by
  unfold require
  split <;> simp_all

variable {old : Lease}

theorem length_setLease (new : List Lease) (hold : old ∈ s.leases) :
    (s.setLease old new).leases.length + 1 = s.leases.length + new.length := by
  have := List.length_erase_add_one hold
  simp only [System.setLease, List.length_append]
  omega

theorem tally_setReservation (f : Reservation → ℕ) {old : Reservation} (new : List Reservation)
    (hold : old ∈ s.reservations) :
    tally f (s.setReservation old new).reservations + f old =
      tally f s.reservations + tally f new := by
  have := tally_erase f hold
  simp only [System.setReservation, tally_append]
  omega

/-- The system moves by `d`: the counters do, and with them what they count. -/
structure Change (s s' : System) (d : Delta) : Prop where
  pool : Moved s.pool s'.pool d
  starting : (s'.spawning + tally Reservation.starting s'.reservations : ℤ) =
    s.spawning + tally Reservation.starting s.reservations + d.starting
  spawning : (s'.spawning : ℤ) = s.spawning + d.spawning
  active : (s'.leases.length + tally Reservation.active s'.reservations : ℤ) =
    s.leases.length + tally Reservation.active s.reservations + d.active
  reaping : (s'.reaping.length : ℤ) = s.reaping.length + d.received - d.exited
  uncounted : (tally Reservation.uncounted s'.reservations : ℤ) =
    tally Reservation.uncounted s.reservations + d.uncounted

variable {d : Delta}

theorem Change.accounted (h : Change s s' d) (hs : Accounted s) : Accounted s' where
  starting := by rw [h.pool.starting, hs.starting, h.starting]
  active := by rw [h.pool.active, hs.active, h.active]
  retiring := by rw [h.pool.retiring, hs.retiring, h.pool.reaper, h.reaping]; ring

theorem change_of_moved {p : Pool} (h : Moved s.pool p d) (hstarting : d.starting = 0)
    (hspawning : d.spawning = 0) (hactive : d.active = 0) (hexited : d.received = d.exited)
    (huncounted : d.uncounted = 0) : Change s { s with pool := p } d := by
  refine ⟨h, ?_, ?_, ?_, ?_, ?_⟩ <;> simp [*]

theorem change_setLease {p : Pool} {new : List Lease} (hold : old ∈ s.leases) (h : Moved s.pool p d)
    (hstarting : d.starting = 0) (hspawning : d.spawning = 0)
    (hactive : (new.length : ℤ) = 1 + d.active) (hexited : d.received = d.exited)
    (huncounted : d.uncounted = 0) : Change s { s.setLease old new with pool := p } d := by
  have hlength := length_setLease new hold
  refine ⟨h, by simp [hstarting], by simp [hspawning], ?_, by simp [hexited], by simp [huncounted]⟩
  simp only [System.setLease] at hlength ⊢
  omega

theorem change_setReservation {p : Pool} {old : Reservation} {new : List Reservation}
    (hold : old ∈ s.reservations) (h : Moved s.pool p d)
    (hstarting : (tally Reservation.starting new : ℤ) = old.starting + d.starting)
    (hspawning : d.spawning = 0)
    (hactive : (tally Reservation.active new : ℤ) = old.active + d.active)
    (hexited : d.received = d.exited)
    (huncounted : (tally Reservation.uncounted new : ℤ) = old.uncounted + d.uncounted) :
    Change s { s.setReservation old new with pool := p } d := by
  have h₁ := tally_setReservation Reservation.starting new hold
  have h₂ := tally_setReservation Reservation.active new hold
  have h₃ := tally_setReservation Reservation.uncounted new hold
  simp only [System.setReservation] at h₁ h₂ h₃
  refine ⟨h, ?_, by simp [System.setReservation, hspawning], ?_,
    by simp [System.setReservation, hexited], ?_⟩ <;>
    simp only [System.setReservation] <;> omega

/-- The change of the workers that count toward the capacity. -/
def Delta.live (d : Delta) : ℤ := d.starting + d.active + d.idle + d.sent - d.exited

/-- The change of the units that can still reach the reaper queue, or are in it, with the units
that reservations stand for or without them. -/
def Delta.committed (reserved : Bool) (d : Delta) : ℤ :=
  (if reserved then d.starting else d.spawning) + d.active + d.idle + d.sent - d.received +
    d.uncounted

/-- The moves that may commit one more unit without asking for room. -/
def Action.commits (reserved : Bool) (a : Action) : Bool :=
  if reserved then a.takesBack else a.brings

/-- New capacity was given out, below the limit and by an open pool. -/
def Admitted (cfg : Config) (s s' : System) (d : Delta) : Prop :=
  s.pool.closed = false ∧ s'.pool.live ≤ cfg.maxProcesses ∧ d.uncounted = 0

/-- No capacity was given out, apart from what a reservation takes back, and no worker came up,
apart from that of a reservation. -/
def Kept (a : Action) (d : Delta) : Prop :=
  (a.reserves = false → d.live ≤ 0) ∧
    ∀ reserved, d.committed reserved ≤ if a.commits reserved then 1 else 0

/-- What a step may do to the capacity. -/
def Explained (cfg : Config) (s s' : System) (a : Action) : Prop :=
  ∃ d, Change s s' d ∧ (0 < d.uncounted → s'.pool.closed = true) ∧ (Admitted cfg s s' d ∨ Kept a d)

attribute [local simp] Delta.live Delta.committed

theorem Change.explained (h : Change s s' d) (huncounted : d.uncounted ≤ 0)
    (hlive : a.reserves = false → d.live ≤ 0) (hcommitted : ∀ reserved, d.committed reserved ≤ 0) :
    Explained cfg s s' a := by
  refine ⟨d, h, fun hpos => absurd hpos (not_lt.mpr huncounted), .inr ⟨hlive, fun reserved => ?_⟩⟩
  have hle := hcommitted reserved
  split <;> omega

theorem explained_lease {new : Lease} (hold : old ∈ s.leases) :
    Explained cfg s (s.setLease old [new]) a :=
  (change_setLease hold (moved_self _) rfl rfl rfl rfl rfl).explained le_rfl (by simp) (by simp)

theorem explained_acquire {alive : WorkerId → Bool}
    (h : step cfg s (.acquire alive) = .ok s') : Explained cfg s s' (.acquire alive) := by
  simp only [step, bind_eq_ok, Prod.exists] at h
  obtain ⟨outcome, p, hp, h⟩ := h
  obtain ⟨dead, ⟨slot, rfl, hmoved⟩ | ⟨rfl, hopen, hlive, hmoved⟩ | ⟨houtcome, hmoved⟩⟩ :=
    moved_acquireLocked hp
  · cases h
    have hchange : Change s { s with pool := p, leases := .held slot :: s.leases } _ :=
      ⟨hmoved, by simp, by simp, by simp; ring, by simp, by simp⟩
    exact hchange.explained le_rfl (by simp) (by simp)
  · cases h
    exact ⟨_, ⟨hmoved.beside 1 0, by simp; ring, by simp, by simp, by simp, by simp⟩, by simp,
      .inl ⟨hopen, hlive, rfl⟩⟩
  · obtain rfl : s' = { s with pool := p } := by
      rcases houtcome with rfl | rfl <;> exact (Except.ok.inj h).symm
    exact (change_of_moved hmoved rfl rfl rfl rfl rfl).explained le_rfl (by simp) (by simp)

theorem explained_spawned {result : Option WorkerId}
    (h : step cfg s (.spawned result) = .ok s') : Explained cfg s s' (.spawned result) := by
  simp only [step, bind_eq_ok, require_eq_ok, Prod.exists] at h
  obtain ⟨-, hspawning, slot, p, hp, h⟩ := h
  cases h
  rcases moved_spawnedLocked hp with ⟨rfl, hmoved⟩ | ⟨rfl, hmoved⟩ | ⟨taken, rfl, hmoved⟩
  all_goals
    refine Change.explained ⟨hmoved.beside (-1) 0, ?_, ?_, ?_, by simp, by simp⟩ le_rfl (by simp)
      (by simp)
    · simp only
      omega
    · simp only
      omega
    · simp
      try omega

theorem explained_bindSpawned {result : Option WorkerId}
    (h : step cfg s (.bindSpawned result) = .ok s') :
    Explained cfg s s' (.bindSpawned result) := by
  simp only [step, bind_eq_ok, require_eq_ok] at h
  obtain ⟨-, hmem, h⟩ := h
  split at h
  · cases h
    exact (change_setReservation hmem (moved_self _) rfl rfl rfl rfl rfl).explained le_rfl
      (by simp) (by simp)
  · rcases hp : bindSpawned s.pool with ⟨closed, p⟩
    simp only [hp] at h
    rcases moved_bindSpawned hp with ⟨rfl, hclosed, hmoved⟩ | ⟨rfl, hmoved⟩
    · cases h
      refine ⟨_, change_setReservation hmem (hmoved.beside 0 1) rfl rfl rfl rfl rfl,
        fun _ => hclosed, .inr ⟨by simp [Action.reserves], ?_⟩⟩
      simp [Action.commits, Action.takesBack, Action.brings]
    · cases h
      refine ⟨_, change_setReservation hmem hmoved rfl rfl rfl rfl rfl, by simp,
        .inr ⟨by simp [Action.reserves], ?_⟩⟩
      simp [Action.commits, Action.takesBack, Action.brings]

/-- **Everything a step can do to the capacity.** -/
theorem step_explained (h : step cfg s a = .ok s') : Explained cfg s s' a := by
  cases a with
  | acquire alive => exact explained_acquire h
  | spawned result => exact explained_spawned h
  | finish slot served | terminate slot killed | handoff slot =>
    simp only [step, bind_eq_ok, require_eq_ok] at h
    obtain ⟨-, hmem, h⟩ := h
    cases h
    exact explained_lease hmem
  | release slot alive =>
    simp only [step, bind_eq_ok, require_eq_ok] at h
    obtain ⟨-, hmem, p, hp, h⟩ := h
    cases h
    rcases moved_release hp with hmoved | hmoved
    all_goals
      exact (change_setLease hmem hmoved rfl rfl rfl rfl rfl).explained le_rfl (by simp) (by simp)
  | retireLease w killed =>
    simp only [step, bind_eq_ok, require_eq_ok] at h
    obtain ⟨-, hmem, p, hp, h⟩ := h
    cases h
    exact (change_setLease hmem (moved_retireLease hp) rfl rfl rfl rfl rfl).explained le_rfl
      (by simp) (by simp)
  | receive =>
    simp only [step, bind_eq_ok, require_eq_ok] at h
    obtain ⟨-, -, h⟩ := h
    split at h
    · cases h
    rename_i w rest hqueue
    cases h
    have hmoved : Moved s.pool { s.pool with reaper := rest } { received := 1 } := by
      constructor <;> simp [hqueue]
    exact Change.explained ⟨hmoved, by simp, by simp, by simp, by simp, by simp⟩ le_rfl (by simp) (by simp)
  | reap w =>
    simp only [step, bind_eq_ok, require_eq_ok] at h
    obtain ⟨-, hmem, h⟩ := h
    cases h
    have hmoved : Moved s.pool (reapedLocked s.pool) { exited := 1 } := by
      constructor <;> simp [reapedLocked]
    have hlength := List.length_erase_add_one hmem
    exact Change.explained ⟨hmoved, by simp, by simp, by simp, by simp only; omega, by simp⟩ le_rfl
      (by simp) (by simp)
  | close =>
    simp only [step, bind_eq_ok] at h
    obtain ⟨p, hp, h⟩ := h
    cases h
    obtain ⟨closed, hmoved⟩ := moved_close hp
    exact (change_of_moved hmoved rfl rfl rfl rfl rfl).explained le_rfl (by simp) (by simp)
  | waitDrained =>
    simp only [step, bind_eq_ok, require_eq_ok] at h
    obtain ⟨-, -, h⟩ := h
    cases h
    exact Change.explained ⟨moved_self _, by simp, by simp, by simp, by simp, by simp⟩ le_rfl
      (by simp) (by simp)
  | stopReapers =>
    simp only [step, bind_eq_ok, require_eq_ok] at h
    obtain ⟨-, -, h⟩ := h
    cases h
    have hmoved : Moved s.pool (stopReapers s.pool) {} := by
      constructor <;> simp [stopReapers]
    exact Change.explained ⟨hmoved, by simp, by simp, by simp, by simp, by simp⟩ le_rfl (by simp) (by simp)
  | reserve =>
    simp only [step, bind_eq_ok, require_eq_ok] at h
    obtain ⟨-, -, h⟩ := h
    split at h
    · cases h
    rename_i p hp
    cases h
    simp only [reserveLocked] at hp
    split at hp
    · cases hp
    rename_i hopen
    split at hp
    · rename_i hlive
      cases hp
      have hmoved : Moved s.pool { s.pool with starting := s.pool.starting + 1 }
          { starting := 1 } := by
        constructor <;> simp
      refine ⟨_, ⟨hmoved, ?_, by simp, by simp [Reservation.active], by simp,
        by simp [Reservation.uncounted]⟩, by simp, .inl ⟨by simpa using hopen, ?_, rfl⟩⟩
      · simp [Reservation.starting]
        ring
      · simp only [live] at hlive ⊢
        omega
    · cases hp
  | releaseReservation =>
    simp only [step, bind_eq_ok, require_eq_ok] at h
    obtain ⟨-, hmem, h⟩ := h
    cases h
    have hmoved : Moved s.pool (releaseReservation s.pool) { starting := -1 } := by
      constructor <;> simp [releaseReservation, sub_eq_add_neg]
    exact (change_setReservation hmem hmoved rfl rfl rfl rfl rfl).explained le_rfl (by simp) (by simp)
  | bind | bindFailed slot killed =>
    simp only [step, bind_eq_ok, require_eq_ok] at h
    obtain ⟨-, hmem, h⟩ := h
    cases h
    exact (change_setReservation hmem (moved_self _) rfl rfl rfl rfl rfl).explained le_rfl
      (by simp) (by simp)
  | bindSpawned result => exact explained_bindSpawned h
  | bindClosed w =>
    simp only [step, bind_eq_ok, require_eq_ok] at h
    obtain ⟨-, hmem, p, hp, h⟩ := h
    cases h
    have hmoved := (moved_retireLocked hp).beside 0 (-1)
    exact (change_setReservation hmem hmoved rfl rfl rfl rfl rfl).explained (by simp)
      (by simp [Action.reserves]) (by simp)
  | bindSucceeded slot =>
    simp only [step, bind_eq_ok, require_eq_ok] at h
    obtain ⟨-, hmem, h⟩ := h
    cases h
    -- The unit moves from the reservation to the lease, and `active` counts both.
    have h₁ := tally_setReservation Reservation.starting [] hmem
    have h₂ := tally_setReservation Reservation.active [] hmem
    have h₃ := tally_setReservation Reservation.uncounted [] hmem
    simp only [Reservation.starting, Reservation.active, Reservation.uncounted, tally_nil]
      at h₁ h₂ h₃
    refine Change.explained ⟨moved_self _, ?_, by simp [System.setReservation], ?_,
      by simp [System.setReservation], ?_⟩ le_rfl
      (by simp) (by simp)
    · simp only [System.setReservation] at h₁ ⊢
      omega
    · simp only [System.setReservation, List.length_cons] at h₂ ⊢
      omega
    · simp only [System.setReservation] at h₃ ⊢
      omega
  | bindDropped w killed =>
    simp only [step, bind_eq_ok, require_eq_ok] at h
    obtain ⟨-, hmem, p, hp, h⟩ := h
    cases h
    exact (change_setReservation hmem (moved_retireLease hp) rfl rfl rfl rfl rfl).explained le_rfl
      (by simp) (by simp)
  | reReserve =>
    simp only [step, bind_eq_ok, require_eq_ok] at h
    obtain ⟨-, hmem, h⟩ := h
    cases h
    have hmoved : Moved s.pool (reReserveLocked s.pool) { starting := 1 } := by
      constructor <;> simp [reReserveLocked]
    exact ⟨_, change_setReservation hmem hmoved rfl rfl rfl rfl rfl, by simp,
      .inr ⟨by simp [Action.reserves], by simp [Action.commits, Action.takesBack, Action.brings]⟩⟩
  | handoffRetire slot =>
    simp only [step, bind_eq_ok, require_eq_ok] at h
    obtain ⟨-, hmem, p, hp, h⟩ := h
    cases h
    have hlength := length_setLease [] hmem
    refine ⟨_, ⟨moved_handoffLocked hp, ?_, by simp, ?_, by simp, ?_⟩, by simp,
      .inr ⟨by simp [Action.reserves], by simp [Action.commits, Action.takesBack, Action.brings]⟩⟩
    · simp [Reservation.starting]
      ring
    · simp only [System.setLease, Reservation.active, tally_cons] at hlength ⊢
      simp only [List.length_nil] at hlength
      omega
    · simp [Reservation.uncounted]

end Montygo.Pool
