import Montygo.Pool.Capacity

/-!
# Room in the reaper queue

A send to the reaper queue is made under the pool's mutex, and the reapers need
that mutex to finish with a worker.  So a send that blocks can block the pool for
good, and what has to be shown is that no action ever ends in `queueFull`.

The measure is `committed`: the units that can still reach the queue together
with those in it.  While it is at most `MaxProcesses`, the unit that a section is
about to send is one of them and is not in the queue yet, so the queue has room.
A reservation has no worker to send, so for the queue it is not counted.
-/

namespace Montygo.Pool

open Transition Outcome

variable {cfg : Config} {s s' : System} {a : Action}

/-- The units that can still reach the reaper queue, and those in it, with the units that
reservations stand for or without them. -/
def System.committed (reserved : Bool) (s : System) : ℤ :=
  (if reserved then s.pool.starting else s.spawning) + s.pool.active + s.pool.idle.length +
    s.pool.reaper.length + tally Reservation.uncounted s.reservations

theorem reaper_lt_of_unit (hs : Accounted s) (hroom : s.committed false ≤ cfg.maxProcesses)
    (hunit : 0 < s.spawning ∨ s.leases ≠ [] ∨ ∃ r ∈ s.reservations, 0 < r.active + r.uncounted) :
    s.pool.reaper.length < cfg.maxProcesses := by
  have hactive := hs.active
  simp only [System.committed, Bool.false_eq_true, if_false] at hroom
  rcases hunit with hspawning | hleases | ⟨r, hr, hunit⟩
  · omega
  · have := List.length_pos_iff.mpr hleases
    omega
  · have h₁ := le_tally Reservation.active hr
    have h₂ := le_tally Reservation.uncounted hr
    omega

theorem idle_add_reaper_le (hs : Accounted s) (hroom : s.committed false ≤ cfg.maxProcesses) :
    s.pool.idle.length + s.pool.reaper.length ≤ cfg.maxProcesses := by
  have hactive := hs.active
  simp only [System.committed, Bool.false_eq_true, if_false] at hroom
  omega

theorem require_bind_eq_queueFull {c : Prop} [Decidable c] {f : Unit → Except Stuck System} :
    (require c >>= f) = .error .queueFull ↔ c ∧ f () = .error .queueFull := by
  unfold require
  split <;> simp_all [bind, Except.bind]

/-- **No send blocks while the committed units fit into the queue.** -/
theorem step_ne_queueFull (hs : Accounted s) (hroom : s.committed false ≤ cfg.maxProcesses) :
    step cfg s a ≠ .error .queueFull := by
  have hroomLease : ∀ l ∈ s.leases, s.pool.reaper.length < cfg.maxProcesses := fun l hl =>
    reaper_lt_of_unit hs hroom (.inr (.inl (List.ne_nil_of_mem hl)))
  have hroomReservation : ∀ r ∈ s.reservations, 0 < r.active + r.uncounted →
      s.pool.reaper.length < cfg.maxProcesses := fun r hr hunit =>
    reaper_lt_of_unit hs hroom (.inr (.inr ⟨r, hr, hunit⟩))
  intro h
  cases a with
  | acquire alive =>
    simp only [step, bind_eq_error, Prod.exists] at h
    rcases h with h | ⟨outcome, p, -, h⟩
    · exact acquireLocked_ne_queueFull (idle_add_reaper_le hs hroom) h
    · cases outcome <;> cases h
  | spawned result =>
    simp only [step, require_bind_eq_queueFull] at h
    obtain ⟨hspawning, h⟩ := h
    rcases bind_eq_error.mp h with h | ⟨⟨slot, p⟩, -, h⟩
    · exact spawnedLocked_ne_queueFull (reaper_lt_of_unit hs hroom (.inl hspawning)) h
    · cases h
  | release slot alive =>
    simp only [step, require_bind_eq_queueFull, bind_pure_eq_error] at h
    obtain ⟨hmem, h⟩ := h
    exact release_ne_queueFull (hroomLease _ hmem) h
  | retireLease w killed =>
    simp only [step, require_bind_eq_queueFull, bind_pure_eq_error] at h
    obtain ⟨hmem, h⟩ := h
    exact retireLease_ne_queueFull (hroomLease _ hmem) h
  | close =>
    simp only [step, bind_pure_eq_error, close] at h
    split at h
    · cases h
    · refine retireAll_ne_queueFull ?_ h
      simpa using idle_add_reaper_le hs hroom
  | bindClosed w =>
    simp only [step, require_bind_eq_queueFull, bind_pure_eq_error] at h
    obtain ⟨hmem, h⟩ := h
    exact retireLocked_ne_queueFull (hroomReservation _ hmem Nat.one_pos) h
  | bindDropped w killed =>
    simp only [step, require_bind_eq_queueFull, bind_pure_eq_error] at h
    obtain ⟨hmem, h⟩ := h
    exact retireLease_ne_queueFull (hroomReservation _ hmem Nat.one_pos) h
  | handoffRetire slot =>
    simp only [step, require_bind_eq_queueFull, bind_pure_eq_error] at h
    obtain ⟨hmem, h⟩ := h
    exact handoffLocked_ne_queueFull (hroomLease _ hmem) h
  | receive | reserve =>
    simp only [step, require_bind_eq_queueFull] at h
    obtain ⟨-, h⟩ := h
    split at h <;> cases h
  | bindSpawned result =>
    simp only [step, require_bind_eq_queueFull] at h
    obtain ⟨-, h⟩ := h
    split at h
    · cases h
    · split at h <;> cases h
  | finish | terminate | reap | waitDrained | stopReapers | releaseReservation | bind
  | bindSucceeded | bindFailed | reReserve | handoff =>
    simp only [step, require_bind_eq_queueFull, pure_ne_error, and_false] at h

/-! ## Checkouts through `acquire` -/

/-- Without reservations the pool stays within its capacity. -/
structure Within (cfg : Config) (s : System) : Prop where
  accounted : Accounted s
  live : s.pool.live ≤ cfg.maxProcesses
  reservations : s.reservations = []

theorem within_initial (h : Initial cfg s) : Within cfg s := by
  refine ⟨accounted_initial h, ?_, ?_⟩
  all_goals obtain ⟨slots, hlength, rfl⟩ := h
  · have := cfg.minProcesses_le
    simp only [Pool.live]
    omega
  · rfl

theorem step_reservations_nil (hnil : s.reservations = []) (ha : a.reserves = false)
    (h : step cfg s a = .ok s') : s'.reservations = [] := by
  cases a with
  | acquire alive =>
    simp only [step, bind_eq_ok, Prod.exists] at h
    obtain ⟨outcome, p, -, h⟩ := h
    cases outcome <;> cases h <;> exact hnil
  | receive =>
    simp only [step, bind_eq_ok] at h
    obtain ⟨-, -, h⟩ := h
    split at h <;> cases h
    exact hnil
  | spawned | finish | release | terminate | retireLease | reap | close | waitDrained
  | stopReapers =>
    simp only [step, bind_eq_ok, pure_eq_ok, Prod.exists] at h
    grind [System.setLease]
  | reserve | releaseReservation | bind | bindSpawned | bindClosed | bindSucceeded | bindFailed
  | bindDropped | reReserve | handoff | handoffRetire => cases ha

theorem within_step (hs : Within cfg s) (ha : a.reserves = false)
    (h : step cfg s a = .ok s') : Within cfg s' := by
  obtain ⟨d, hchange, -, hcapacity⟩ := step_explained h
  refine ⟨hchange.accounted hs.accounted, ?_, step_reservations_nil hs.reservations ha h⟩
  rcases hcapacity with ⟨-, hlive, -⟩ | ⟨hkept, -⟩
  · exact hlive
  have hle := hs.live
  have hdelta := hkept ha
  simp only [Pool.live, Delta.live] at hle hdelta ⊢
  rw [hchange.pool.starting, hchange.pool.active, hchange.pool.idle, hchange.pool.retiring]
  omega

theorem Within.committed_le (hs : Within cfg s) : s.committed false ≤ cfg.maxProcesses := by
  have hlive := hs.live
  have hstarting := hs.accounted.starting
  have hretiring := hs.accounted.retiring
  simp only [System.committed, Pool.live, hs.reservations, tally_nil, Bool.false_eq_true,
    if_false] at hlive hstarting ⊢
  omega

/-- **The capacity of a pool without reservations.**  In every interleaving the
workers in all states stay within `MaxProcesses`, `active` is the number of
acquired workers not yet counted out, no counter is negative, and every send to
the reaper queue finds room. -/
theorem acquire_only_capacity
    (hreach : Reachable (step cfg) (Initial cfg) (fun _ a => a.reserves = false) s) :
    s.pool.starting + s.pool.active + s.pool.idle.length + s.pool.retiring ≤ cfg.maxProcesses ∧
      s.pool.active = s.leases.length ∧
      (0 ≤ s.pool.starting ∧ 0 ≤ s.pool.active ∧ 0 ≤ s.pool.retiring) ∧
      ∀ a, step cfg s a ≠ .error .queueFull := by
  have hs : Within cfg s :=
    hreach.invariant (fun _ h => within_initial h) (fun _ _ _ hs ha h => within_step hs ha h)
  have hactive := hs.accounted.active
  have hstarting := hs.accounted.starting
  have hretiring := hs.accounted.retiring
  simp only [hs.reservations, tally_nil] at hactive hstarting
  refine ⟨hs.live, by omega, by omega, fun a => step_ne_queueFull hs.accounted hs.committed_le⟩

/-- A pool of two workers that keeps one of them warm. -/
def warmPair : Config := (Config.new 1 2 0 false).get rfl

/-- The warm worker is taken, a second one is spawned and terminated, and the pool is
closed while its first reaper waits. -/
theorem acquire_only_capacity_warmPair :
    let s : System := {
      pool := { active := 1, retiring := 1, closed := true }
      leases := [.held { w := 0, served := 0 }]
      reaping := [{ w := 1, killed := true }] }
    s.pool.starting + s.pool.active + s.pool.idle.length + s.pool.retiring ≤ 2 ∧
      s.pool.active = s.leases.length ∧
      (0 ≤ s.pool.starting ∧ 0 ≤ s.pool.active ∧ 0 ≤ s.pool.retiring) ∧
      ∀ a, step warmPair s a ≠ .error .queueFull := by
  have hstart : Reachable (step warmPair) (Initial warmPair) (fun _ a => a.reserves = false)
      { pool := { idle := [{ w := 0, served := 0 }] } } := .initial ⟨_, rfl, rfl⟩
  exact acquire_only_capacity
    (hstart.of_run [.acquire fun _ => true, .acquire fun _ => true, .spawned (some 1),
        .terminate { w := 1, served := 0 } true, .retireLease 1 true, .receive, .close]
      (by simp [Action.reserves]) rfl)

/-! ## Reservations -/

variable {reserved : Bool} {n m : ℕ}

/-- The committed units are at most `n` over the capacity, and only a closed pool has uncounted
ones. -/
structure Over (cfg : Config) (reserved : Bool) (n : ℕ) (s : System) : Prop where
  accounted : Accounted s
  committed : s.committed reserved ≤ cfg.maxProcesses + n
  uncounted : 0 < tally Reservation.uncounted s.reservations → s.pool.closed = true

theorem over_initial (h : Initial cfg s) : Over cfg reserved 0 s := by
  refine ⟨accounted_initial h, ?_, ?_⟩
  all_goals obtain ⟨slots, hlength, rfl⟩ := h
  · have := cfg.minProcesses_le
    simp only [System.committed, tally_nil, List.length_nil]
    split <;> omega
  · simp

theorem committed_of_change {d : Delta} (h : Change s s' d) :
    s'.committed reserved = s.committed reserved + d.committed reserved := by
  simp only [System.committed, Delta.committed]
  rw [h.pool.starting, h.spawning, h.pool.active, h.pool.idle, h.pool.reaper, h.uncounted]
  split <;> ring

/-- Without uncounted units, what is committed is counted as live. -/
theorem committed_le_live (hs : Accounted s)
    (huncounted : tally Reservation.uncounted s.reservations = 0) :
    s.committed reserved ≤ s.pool.live := by
  have hstarting := hs.starting
  have hretiring := hs.retiring
  simp only [System.committed, Pool.live, huncounted]
  split <;> omega

/-- **A step keeps the committed units within a bound that has room for what it may commit.** -/
theorem over_step (hs : Over cfg reserved n s)
    (hroom : s.committed reserved + (if a.commits reserved then 1 else 0) ≤ cfg.maxProcesses + m)
    (h : step cfg s a = .ok s') : Over cfg reserved m s' := by
  obtain ⟨d, hchange, huncounted, hcapacity⟩ := step_explained h
  have hcounted := hchange.accounted hs.accounted
  have htally := hchange.uncounted
  refine ⟨hcounted, ?_, fun hpos => ?_⟩
  · rcases hcapacity with ⟨hopen, hlive, hzero⟩ | ⟨-, hkept⟩
    · -- Room was asked for: an open pool has no uncounted unit.
      have hnone : ¬ 0 < tally Reservation.uncounted s.reservations := fun hpos =>
        Bool.false_ne_true (hopen.symm.trans (hs.uncounted hpos))
      have hle : s'.committed reserved ≤ s'.pool.live := committed_le_live hcounted (by omega)
      omega
    · have hgain := hkept reserved
      rw [committed_of_change hchange]
      omega
  · by_cases hgrew : 0 < d.uncounted
    · exact huncounted hgrew
    · exact hchange.pool.closed (hs.uncounted (by omega))

/-- **The reaper queue never blocks while the workers of reservations have room.**  In every
interleaving in which each worker that a `Bind` spawned finds fewer units than `MaxProcesses`
(spawns of `acquire`, acquired workers and those a `Bind` configures, idle workers and those in the
queue or on the way to it), no goroutine blocks at a send to the reaper queue. -/
theorem reservation_send_finds_room (hreach : Reachable (step cfg) (Initial cfg)
      (fun s a => a.brings = true → s.committed false < cfg.maxProcesses) s) (a : Action) :
    step cfg s a ≠ .error .queueFull := by
  have hs : Over cfg false 0 s := by
    refine hreach.invariant (fun _ h => over_initial h) fun s a s' hs hroom h => over_step hs ?_ h
    have hle := hs.committed
    have hroom : a.commits false = true → s.committed false < cfg.maxProcesses := hroom
    split
    · have := hroom ‹_›
      omega
    · omega
  exact step_ne_queueFull hs.accounted (by simpa using hs.committed)

/-- A single-use pool of `n + 1` workers. -/
def singleUsePool (n : ℕ) : Config where
  minProcesses := 0
  maxProcesses := n + 1
  maxCheckoutsPerWorker := 0
  singleUse := true
  maxProcesses_pos := Nat.succ_pos n
  minProcesses_le := Nat.zero_le _
  singleUse_min := fun _ => rfl

/-- One bind attempt that spawns worker `w`, fails to configure it, and takes the
capacity back. -/
def failedBind (w : WorkerId) : List Action :=
  [.bind, .bindSpawned (some w), .bindFailed { w := w, served := 0 } false, .bindDropped w false,
    .reReserve]

/-- In a pool of one worker it is acquired and handed off.  The reaper takes it, and the bind of the
reservation fails. -/
def handedOff : List Action :=
  [.acquire fun _ => true, .spawned (some 0), .handoff { w := 0, served := 0 },
    .handoffRetire { w := 0, served := 0 }, .receive] ++ failedBind 1

theorem reservation_send_finds_room_handedOff :
    ∃ s, run (step (singleUsePool 0)) {} handedOff = .ok s ∧ s.pool.reaper.length = 1 ∧
      ∀ a, step (singleUsePool 0) s a ≠ .error .queueFull := by
  have hguarded : Guarded (step (singleUsePool 0))
      (fun s a => a.brings = true → s.committed false < (singleUsePool 0).maxProcesses) {}
      handedOff := by
    repeat (refine ⟨by decide, ?_⟩; rintro _ ⟨⟩)
    exact trivial
  exact ⟨_, rfl, rfl, reservation_send_finds_room
    (.of_guarded (.initial ⟨[], rfl, rfl⟩) handedOff hguarded rfl)⟩

/-- In a single-use pool of one worker two failed binds leave one worker with the only
reaper and one in the queue.  The third failed bind then blocks at its send, holding the
mutex that the reaper needs to finish. -/
theorem failed_binds_block_reaper_queue :
    ∃ s, Reachable (step (singleUsePool 0)) (Initial (singleUsePool 0)) (fun _ _ => True) s ∧
      s.reaping.length = (singleUsePool 0).reapers ∧
      step (singleUsePool 0) s (.bindDropped 2 false) = .error .queueFull := by
  have hstart : Reachable (step (singleUsePool 0)) (Initial (singleUsePool 0))
      (fun _ _ => True) {} := .initial ⟨[], rfl, rfl⟩
  exact ⟨_, hstart.of_run ([.reserve] ++ failedBind 0 ++ [.receive] ++ failedBind 1 ++
      [.bind, .bindSpawned (some 2), .bindFailed { w := 2, served := 0 } false])
    (fun _ _ => trivial) rfl, rfl, rfl⟩

end Montygo.Pool
