import Montygo.Pool.System
import Montygo.Lib.Outcome
import Mathlib.Algebra.Order.Ring.Int
import Mathlib.Tactic.Ring

/-!
# The critical sections as moves of capacity

Each critical section of the pool moves units of capacity between its counters
and the reaper queue.  `Moved` records by how much, and there is one lemma for
each section; the invariants of the pool are proved from these alone.  Beside
each section that sends to the queue stands the room under which its sends do
not block.
-/

namespace Montygo.Pool

variable {cfg : Config} {p p' : Pool} {slots : List Slot} {w : RetiredWorker}
  {alive : WorkerId → Bool} {slot : Slot}

theorem retireLocked_eq_ok (h : retireLocked cfg p w = .ok p') :
    p' = { p with retiring := p.retiring + 1, reaper := p.reaper ++ [w] } := by
  unfold retireLocked at h
  split at h
  · cases h
  split at h
  · exact (Except.ok.inj h).symm
  · cases h

theorem retireLocked_ne_queueFull (hroom : p.reaper.length < cfg.maxProcesses) :
    retireLocked cfg p w ≠ .error .queueFull := by
  unfold retireLocked
  split <;> simp_all

/-- How the units of capacity move in one step: the change of three counters, the
workers that were sent to the reaper queue, received from it and have exited, and
the change of the spawns of `acquire` and of the workers no counter holds. -/
structure Delta where
  starting : ℤ := 0
  active : ℤ := 0
  idle : ℤ := 0
  sent : ℤ := 0
  received : ℤ := 0
  exited : ℤ := 0
  spawning : ℤ := 0
  uncounted : ℤ := 0

/-- Between `p` and `p'` the counters and the queue moved by `d`. -/
structure Moved (p p' : Pool) (d : Delta) : Prop where
  starting : p'.starting = p.starting + d.starting
  active : p'.active = p.active + d.active
  idle : (p'.idle.length : ℤ) = p.idle.length + d.idle
  retiring : p'.retiring = p.retiring + d.sent - d.exited
  reaper : (p'.reaper.length : ℤ) = p.reaper.length + d.sent - d.received
  closed : p.closed = true → p'.closed = true

theorem Moved.trans {p'' : Pool} {d e : Delta} (h : Moved p p' d) (h' : Moved p' p'' e) :
    Moved p p'' {
      starting := d.starting + e.starting
      active := d.active + e.active
      idle := d.idle + e.idle
      sent := d.sent + e.sent
      received := d.received + e.received
      exited := d.exited + e.exited } where
  starting := by rw [h'.starting, h.starting, add_assoc]
  active := by rw [h'.active, h.active, add_assoc]
  idle := by rw [h'.idle, h.idle, add_assoc]
  retiring := by rw [h'.retiring, h.retiring]; ring
  reaper := by rw [h'.reaper, h.reaper]; ring
  closed := fun hclosed => h'.closed (h.closed hclosed)

theorem Moved.beside {d : Delta} (h : Moved p p' d) (n m : ℤ) :
    Moved p p' { d with spawning := n, uncounted := m } :=
  ⟨h.starting, h.active, h.idle, h.retiring, h.reaper, h.closed⟩

theorem moved_self (p : Pool) : Moved p p {} := by
  constructor <;> simp

theorem moved_retireLocked (h : retireLocked cfg p w = .ok p') : Moved p p' { sent := 1 } := by
  rw [retireLocked_eq_ok h]
  constructor <;> simp

/-- The idle loop takes `taken` slots off the idle list and sends all of them but the
live one it returns to the queue. -/
theorem moved_acquireIdle {found : Option Slot} (hidle : p.idle = slots)
    (h : acquireIdle cfg alive slots p = .ok (found, p')) :
    ∃ dead : ℕ, Moved p p' {
      active := found.toList.length
      idle := -(dead + found.toList.length)
      sent := dead } := by
  induction slots generalizing p with
  | nil =>
    simp only [acquireIdle, Except.ok.injEq, Prod.mk.injEq] at h
    obtain ⟨rfl, rfl⟩ := h
    exact ⟨0, by constructor <;> simp [hidle]⟩
  | cons slot rest ih =>
    simp only [acquireIdle] at h
    split at h
    · simp only [Except.ok.injEq, Prod.mk.injEq] at h
      obtain ⟨rfl, rfl⟩ := h
      exact ⟨0, by constructor <;> simp [hidle]⟩
    · split at h
      · rename_i next hnext
        have hpopped : Moved p { p with idle := rest } { idle := -1 } := by
          constructor <;> simp [hidle]
        obtain ⟨dead, hrest⟩ := ih (by rw [retireLocked_eq_ok hnext]) h
        refine ⟨dead + 1, ?_⟩
        have htotal := (hpopped.trans (moved_retireLocked hnext)).trans hrest
        convert htotal using 2 <;> push_cast <;> ring
      · cases h

theorem acquireIdle_ne_queueFull (hroom : slots.length + p.reaper.length ≤ cfg.maxProcesses) :
    acquireIdle cfg alive slots p ≠ .error .queueFull := by
  induction slots generalizing p with
  | nil => simp [acquireIdle]
  | cons slot rest ih =>
    simp only [List.length_cons] at hroom
    simp only [acquireIdle]
    split
    · simp
    split
    · rename_i next hnext
      apply ih
      rw [retireLocked_eq_ok hnext]
      simp only [List.length_append, List.length_cons, List.length_nil]
      omega
    · rename_i e herror
      intro h
      cases h
      exact retireLocked_ne_queueFull (by simp only; omega) herror

/-- What the first critical section of `acquire` does for each of its outcomes. -/
theorem moved_acquireLocked {outcome : Acquired}
    (h : acquireLocked cfg alive p = .ok (outcome, p')) :
    ∃ dead : ℕ, (∃ slot, outcome = .slot slot ∧
        Moved p p' { active := 1, idle := -(dead + 1), sent := dead }) ∨
      (outcome = .spawn ∧ p.closed = false ∧ p'.live ≤ cfg.maxProcesses ∧
        Moved p p' { starting := 1, idle := -dead, sent := dead }) ∨
      ((outcome = .closed ∨ outcome = .wait) ∧ Moved p p' { idle := -dead, sent := dead }) := by
  unfold acquireLocked at h
  split at h
  · cases h
    exact ⟨0, .inr (.inr ⟨.inl rfl, by simpa using moved_self p⟩)⟩
  · rename_i hopen
    split at h
    · cases h
    · rename_i slot next hnext
      cases h
      split at hnext
      · cases hnext
      · obtain ⟨dead, hmoved⟩ := moved_acquireIdle rfl hnext
        exact ⟨dead, .inl ⟨slot, rfl, by simpa using hmoved⟩⟩
    · rename_i next hnext
      obtain ⟨dead, hmoved⟩ : ∃ dead : ℕ, Moved p next { idle := -dead, sent := dead } := by
        split at hnext
        · cases hnext
          exact ⟨0, by simpa using moved_self p⟩
        · obtain ⟨dead, hmoved⟩ := moved_acquireIdle rfl hnext
          exact ⟨dead, by simpa using hmoved⟩
      split at h
      · rename_i hlive
        cases h
        have hstarted : Moved next { next with starting := next.starting + 1 } { starting := 1 } := by
          constructor <;> simp
        refine ⟨dead, .inr (.inl ⟨rfl, by simpa using hopen, ?_, ?_⟩)⟩
        · simp only [live] at hlive ⊢
          omega
        · simpa using hmoved.trans hstarted
      · cases h
        exact ⟨dead, .inr (.inr ⟨.inr rfl, hmoved⟩)⟩

theorem acquireLocked_ne_queueFull (hroom : p.idle.length + p.reaper.length ≤ cfg.maxProcesses) :
    acquireLocked cfg alive p ≠ .error .queueFull := by
  unfold acquireLocked
  split
  · simp
  split
  · rename_i e herror
    intro h
    cases h
    split at herror
    · cases herror
    · exact acquireIdle_ne_queueFull hroom herror
  · simp
  · split <;> simp

/-- After the spawn a unit of `starting` is gone, is active, or, once the pool is
closed, sits in the reaper queue. -/
theorem moved_spawnedLocked {result : Option WorkerId} {slot : Option Slot}
    (h : spawnedLocked cfg result p = .ok (slot, p')) :
    (slot = none ∧ Moved p p' { starting := -1 }) ∨
      (slot = none ∧ Moved p p' { starting := -1, sent := 1 }) ∨
      (∃ taken, slot = some taken ∧ Moved p p' { starting := -1, active := 1 }) := by
  have hstarted : Moved p { p with starting := p.starting - 1 } { starting := -1 } := by
    constructor <;> simp [sub_eq_add_neg]
  simp only [spawnedLocked] at h
  split at h
  · cases h
    exact .inl ⟨rfl, hstarted⟩
  · split at h
    · split at h
      · rename_i next hnext
        cases h
        exact .inr (.inl ⟨rfl, by simpa using hstarted.trans (moved_retireLocked hnext)⟩)
      · cases h
    · cases h
      exact .inr (.inr ⟨_, rfl, by constructor <;> simp [sub_eq_add_neg]⟩)

theorem spawnedLocked_ne_queueFull {result : Option WorkerId}
    (hroom : p.reaper.length < cfg.maxProcesses) :
    spawnedLocked cfg result p ≠ .error .queueFull := by
  simp only [spawnedLocked]
  split
  · simp
  split
  · split
    · simp
    rename_i e herror
    intro h
    cases h
    exact retireLocked_ne_queueFull (by simpa using hroom) herror
  · simp

theorem moved_release {alive : Bool} (h : release cfg slot alive p = .ok p') :
    Moved p p' { active := -1, sent := 1 } ∨ Moved p p' { active := -1, idle := 1 } := by
  have hreleased : Moved p { p with active := p.active - 1 } { active := -1 } := by
    constructor <;> simp [sub_eq_add_neg]
  simp only [release] at h
  split at h
  · exact .inl (by simpa using hreleased.trans (moved_retireLocked h))
  · cases h
    exact .inr (by constructor <;> simp [sub_eq_add_neg])

theorem release_ne_queueFull {alive : Bool} (hroom : p.reaper.length < cfg.maxProcesses) :
    release cfg slot alive p ≠ .error .queueFull := by
  simp only [release]
  split
  · exact retireLocked_ne_queueFull (by simpa using hroom)
  · simp

theorem moved_retireLease {w : WorkerId} {killed : Bool}
    (h : retireLease cfg w killed p = .ok p') : Moved p p' { active := -1, sent := 1 } := by
  have hreleased : Moved p { p with active := p.active - 1 } { active := -1 } := by
    constructor <;> simp [sub_eq_add_neg]
  simpa using hreleased.trans (moved_retireLocked h)

theorem retireLease_ne_queueFull {w : WorkerId} {killed : Bool}
    (hroom : p.reaper.length < cfg.maxProcesses) :
    retireLease cfg w killed p ≠ .error .queueFull :=
  retireLocked_ne_queueFull (by simpa using hroom)

theorem moved_retireAll (h : retireAll cfg slots p = .ok p') :
    Moved p p' { sent := slots.length } := by
  induction slots generalizing p with
  | nil =>
    cases h
    constructor <;> simp
  | cons slot rest ih =>
    simp only [retireAll] at h
    split at h
    · rename_i next hnext
      simpa [add_comm] using (moved_retireLocked hnext).trans (ih h)
    · cases h

theorem retireAll_ne_queueFull (hroom : slots.length + p.reaper.length ≤ cfg.maxProcesses) :
    retireAll cfg slots p ≠ .error .queueFull := by
  induction slots generalizing p with
  | nil => simp [retireAll]
  | cons slot rest ih =>
    simp only [List.length_cons] at hroom
    simp only [retireAll]
    split
    · rename_i next hnext
      apply ih
      rw [retireLocked_eq_ok hnext]
      simp only [List.length_append, List.length_cons, List.length_nil]
      omega
    · rename_i e herror
      intro h
      cases h
      exact retireLocked_ne_queueFull (by omega) herror

/-- `Close` moves every idle worker to the reaper queue. -/
theorem moved_close (h : close cfg p = .ok p') :
    ∃ closed : ℕ, Moved p p' { idle := -closed, sent := closed } := by
  unfold close at h
  split at h
  · cases h
    exact ⟨0, by constructor <;> simp⟩
  · have hclosed : Moved p { p with closed := true, idle := [] } { idle := -p.idle.length } := by
      constructor <;> simp
    exact ⟨p.idle.length, by simpa using hclosed.trans (moved_retireAll h)⟩

/-- `Bind` turns its unit of `starting` into an active one, or drops it when the pool
was closed. -/
theorem moved_bindSpawned {closed : Bool} (h : bindSpawned p = (closed, p')) :
    (closed = true ∧ p'.closed = true ∧ Moved p p' { starting := -1 }) ∨
      (closed = false ∧ Moved p p' { starting := -1, active := 1 }) := by
  simp only [bindSpawned] at h
  split at h
  · rename_i hclosed
    cases h
    exact .inl ⟨rfl, hclosed, by constructor <;> simp [sub_eq_add_neg]⟩
  · cases h
    exact .inr ⟨rfl, by constructor <;> simp [sub_eq_add_neg]⟩

theorem moved_handoffLocked (h : handoffLocked cfg slot p = .ok p') :
    Moved p p' { starting := 1, active := -1, sent := 1 } := by
  have hkept : Moved p { p with active := p.active - 1, starting := p.starting + 1 }
      { starting := 1, active := -1 } := by
    constructor <;> simp [sub_eq_add_neg]
  simpa using hkept.trans (moved_retireLocked h)

theorem handoffLocked_ne_queueFull (hroom : p.reaper.length < cfg.maxProcesses) :
    handoffLocked cfg slot p ≠ .error .queueFull :=
  retireLocked_ne_queueFull (by simpa using hroom)

end Montygo.Pool
