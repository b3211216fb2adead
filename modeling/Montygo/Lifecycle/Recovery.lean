import Montygo.Lib.Threads
import Mathlib.Algebra.Order.Ring.Nat
import Mathlib.Logic.Function.Basic

/-!
# Supervised dials

A dial against a supervised server makes a round of attempts, may have the server behind the last
failed endpoint restarted, and makes a second round.  Dials that fail at the same time share one
restart: `restarts` has the last one of each URL, and a dial starts another only if that one was
over before the dial's own failure.

The frames are those of `Do`, one a dial, and of the goroutine that calls `Restart`.  What
`Endpoint`, `bind`, `Restart` and the dial's context bring is in the choice that comes with a step.
The clock may stand still between two readings but never goes back.
-/

namespace Montygo.Recovery

open Threads Transition

attribute [local simp] Move.fresh

/-- `RecoveryPolicy`, with attempts that the pool's options have checked to be no less than `0`. -/
structure RecoveryPolicy where
  attemptsSet : ℕ := 0
  restartServer : Bool := false

def RecoveryPolicy.attempts (policy : RecoveryPolicy) : ℕ :=
  if policy.attemptsSet = 0 then 3 else policy.attemptsSet

/-- `restartFlight`. -/
structure RestartFlight where
  url : String
  failed : Bool := false
  completed : Option ℕ := none
  done : Bool := false

/-- `recoverer`, with the flights ever made and the clock. -/
structure Recoverer where
  restarts : String → Option ℕ := fun _ => none
  flight : ℕ → RestartFlight := fun _ => { url := "" }
  next : ℕ := 0
  now : ℕ := 0

/-- The local variables of `Do`, and the restarts it took part in. -/
structure Dial where
  round : ℕ := 0
  left : ℕ
  attempts : ℕ := 0
  lastEP : String := ""
  lastAt : ℕ := 0
  joined : List ℕ := []

inductive Frame where
  /-- The head of the inner loop of `Do`. -/
  | dial (d : Dial)
  | restartOnce (d : Dial)
  /-- The `select` of `restartOnce`. -/
  | waiting (d : Dial) (f : ℕ)
  | ended (d : Dial)
  /-- The goroutine of `restartOnce`, before it calls `Restart`. -/
  | launched (f : ℕ) (url : String)
  /-- `Restart` is under way. -/
  | restarting (f : ℕ) (url : String)
  | returned (f : ℕ) (url : String) (failed : Bool)
  | closing (f : ℕ)

/-- How `bind` ends: `retryable` is what `retryableDialError` says of its error. -/
inductive BindResult where
  | ok
  | retryable
  | failed

inductive Choice where
  | proceed
  /-- The dial's context is done. -/
  | cancelled
  | noEndpoint
  | bound (url : String) (result : BindResult)
  | restarted (failed : Bool)

variable (policy : RecoveryPolicy)

namespace Recoverer

/-- Goes on after a restart: with the second round, unless the restart failed. -/
def resume (r : Recoverer) (d : Dial) (f : ℕ) : Frame :=
  if (r.flight f).failed then .ended { d with joined := f :: d.joined }
  else .dial { d with round := 1, left := policy.attempts, joined := f :: d.joined }

/-- The default case of `restartOnce`. -/
def start (r : Recoverer) (d : Dial) : Move Recoverer Frame where
  shared := { r with
    restarts := Function.update r.restarts d.lastEP (some r.next)
    flight := Function.update r.flight r.next { url := d.lastEP }
    next := r.next + 1 }
  push := [.waiting d r.next]
  spawn := [[.launched r.next d.lastEP]]

/-- `restartOnce`, under the lock. -/
def restartOnce (r : Recoverer) (d : Dial) : Move Recoverer Frame :=
  match r.restarts d.lastEP with
  | none => r.start d
  | some f =>
    match (r.flight f).completed with
    | none => { shared := r, push := [.waiting d f] }
    | some completed =>
      if d.lastAt < completed then { shared := r, push := [r.resume policy d f] }
      else r.start d

/-- The `select` of `restartOnce`. -/
def wake (r : Recoverer) (d : Dial) (f : ℕ) : Choice → Option Frame
  | .cancelled => some (.ended { d with joined := f :: d.joined })
  | _ => if (r.flight f).done then some (r.resume policy d f) else none

/-- An attempt of `Do`. -/
def attempt (r : Recoverer) (d : Dial) : Choice → Option Frame
  | .cancelled => some (.ended d)
  | .noEndpoint =>
    some (.dial { d with attempts := d.attempts + 1, left := d.left - 1, lastAt := r.now })
  | .bound _ .ok => some (.ended { d with attempts := d.attempts + 1 })
  | .bound _ .failed => some (.ended { d with attempts := d.attempts + 1 })
  | .bound url .retryable =>
    some (.dial { d with
      attempts := d.attempts + 1, left := d.left - 1, lastEP := url, lastAt := r.now })
  | _ => none

/-- The end of a round. -/
def roundEnd (d : Dial) : Frame :=
  if !policy.restartServer ∨ d.round = 1 ∨ d.lastEP = "" then .ended d else .restartOnce d

/-- Changes a flight. -/
def setFlight (r : Recoverer) (f : ℕ) (flight : RestartFlight) : Recoverer :=
  { r with flight := Function.update r.flight f flight }

/-- What the goroutines do. -/
def advance (r : Recoverer) : Frame → Choice → Option (Move Recoverer Frame)
  | .dial d, c =>
    if d.left = 0 then some { shared := r, push := [roundEnd policy d] }
    else (r.attempt d c).map fun frame => { shared := r, push := [frame] }
  | .restartOnce d, _ => some (r.restartOnce policy d)
  | .waiting d f, c => (r.wake policy d f c).map fun frame => { shared := r, push := [frame] }
  | .ended _, _ => none
  | .launched f url, _ => some { shared := r, push := [.restarting f url] }
  | .restarting f url, .restarted failed =>
    some { shared := r, push := [.returned f url failed] }
  | .restarting _ _, _ => none
  | .returned f _ failed, _ =>
    some { shared := r.setFlight f { r.flight f with failed, completed := some r.now }
           push := [.closing f] }
  | .closing f, _ =>
    some { shared := r.setFlight f { r.flight f with done := true }, push := [] }

end Recoverer

/-- Where a dial starts. -/
def Frame.isStart : Frame → Bool
  | .dial d => d.round = 0 ∧ d.left = policy.attempts ∧ d.attempts = 0 ∧ d.lastEP = "" ∧ d.joined = []
  | _ => false

/-- Any number of dials, and a clock that goes on. -/
def program : Program Recoverer Frame Choice ℕ where
  entry := Frame.isStart policy
  advance := Recoverer.advance policy
  outside r n := { r with now := r.now + n }

/-- The dial that a frame belongs to. -/
def Frame.dial? : Frame → Option Dial
  | .dial d | .restartOnce d | .waiting d _ | .ended d => some d
  | _ => none

/-- The restart of a URL that a goroutine has under way, from its start until it is marked as
completed. -/
def Frame.restarts (url : String) : Frame → Option ℕ
  | .launched f u | .restarting f u | .returned f u _ => if u = url then some f else none
  | _ => none

/-- The flight is the last one of its URL, and is not over. -/
structure Recoverer.Flying (url : String) (r : Recoverer) (f : ℕ) : Prop where
  last : r.restarts url = some f
  url_eq : (r.flight f).url = url
  completed : (r.flight f).completed = none
  made : f < r.next

/-- No restart of a URL was completed after the last one, and none later than now. -/
def Recoverer.LastCovers (r : Recoverer) : Prop :=
  ∀ f t, (r.flight f).completed = some t → t ≤ r.now ∧ ∃ g, r.restarts (r.flight f).url = some g ∧
      ∀ t', (r.flight g).completed = some t' → t ≤ t'

/-- How far a dial has come, in attempts and in restarts. -/
def Frame.Within : Frame → Prop
  | .dial d => d.round ≤ 1 ∧ d.attempts + d.left ≤ (d.round + 1) * policy.attempts ∧
      d.joined.length ≤ d.round
  | .restartOnce d | .waiting d _ => d.round = 0 ∧ d.attempts ≤ policy.attempts ∧ d.joined = []
  | .ended d => d.attempts ≤ 2 * policy.attempts ∧ d.joined.length ≤ 1
  | _ => True

variable {policy} {cfg cfg' : Config Recoverer Frame} {a : Action Frame Choice ℕ} {r : Recoverer}
  {f : Frame} {c : Choice} {m : Move Recoverer Frame} {url : String} {others : List Frame}

/-! ## What a step can do -/

theorem roundEnd_restarts (d : Dial) : (Recoverer.roundEnd policy d).restarts url = none := by
  unfold Recoverer.roundEnd
  split <;> rfl

variable {d : Dial} {i : ℕ}

theorem attempt_restarts (h : r.attempt d c = some f) : f.restarts url = none := by
  unfold Recoverer.attempt at h
  split at h <;> cases h <;> rfl

theorem resume_restarts (d : Dial) (i : ℕ) : (r.resume policy d i).restarts url = none := by
  unfold Recoverer.resume
  split <;> rfl

theorem wake_restarts (h : r.wake policy d i c = some f) : f.restarts url = none := by
  unfold Recoverer.wake at h
  split at h
  · cases h
    rfl
  · split at h
    · cases h
      exact resume_restarts d i
    · cases h

theorem within_roundEnd (d : Dial) (h : (Frame.dial d).Within policy) :
    (Recoverer.roundEnd policy d).Within policy := by
  obtain ⟨hround, hattempts, hjoined⟩ := h
  have hbound : (d.round + 1) * policy.attempts ≤ 2 * policy.attempts :=
    Nat.mul_le_mul_right _ (by omega)
  unfold Recoverer.roundEnd
  split
  · exact ⟨by omega, by omega⟩
  rename_i hagain
  have hround : d.round = 0 := by
    have : d.round ≠ 1 := fun hone => hagain (.inr (.inl hone))
    omega
  rw [hround] at hattempts hjoined
  exact ⟨hround, by omega, List.eq_nil_of_length_eq_zero (Nat.le_zero.mp hjoined)⟩

theorem within_attempt (hleft : d.left ≠ 0) (h : r.attempt d c = some f)
    (hwithin : (Frame.dial d).Within policy) : f.Within policy := by
  obtain ⟨hround, hattempts, hjoined⟩ := hwithin
  have hbound : (d.round + 1) * policy.attempts ≤ 2 * policy.attempts :=
    Nat.mul_le_mul_right _ (by omega)
  have hgoes : d.attempts + 1 + (d.left - 1) = d.attempts + d.left := by omega
  unfold Recoverer.attempt at h
  split at h <;> cases h
  · exact ⟨by omega, by omega⟩
  · exact ⟨hround, hgoes ▸ hattempts, hjoined⟩
  · exact ⟨by show d.attempts + 1 ≤ _; omega, by show d.joined.length ≤ 1; omega⟩
  · exact ⟨by show d.attempts + 1 ≤ _; omega, by show d.joined.length ≤ 1; omega⟩
  · exact ⟨hround, hgoes ▸ hattempts, hjoined⟩

theorem within_resume (i : ℕ) (h : d.round = 0 ∧ d.attempts ≤ policy.attempts ∧ d.joined = []) :
    (r.resume policy d i).Within policy := by
  obtain ⟨-, hattempts, hjoined⟩ := h
  unfold Recoverer.resume
  split
  · exact ⟨by show d.attempts ≤ _; omega, by simp [hjoined]⟩
  · have hbound : d.attempts + policy.attempts ≤ (1 + 1) * policy.attempts := by omega
    exact ⟨le_refl 1, hbound, by simp [hjoined]⟩

theorem within_wake (h : r.wake policy d i c = some f)
    (hwithin : (Frame.waiting d i).Within policy) : f.Within policy := by
  unfold Recoverer.wake at h
  split at h
  · cases h
    obtain ⟨-, hattempts, hjoined⟩ := hwithin
    exact ⟨by show d.attempts ≤ _; omega, by simp [hjoined]⟩
  · split at h
    · cases h
      exact within_resume i hwithin
    · cases h

/-- **What a frame's step can do**: leave the recoverer as it is and bring in one frame, start a
restart, mark one as completed, or tell its waiters. -/
theorem advance_cases (h : Recoverer.advance policy r f c = some m) :
    (∃ g, m = { shared := r, push := [g] } ∧ (∀ url, g.restarts url = f.restarts url) ∧
      (f.Within policy → g.Within policy)) ∨
    (∃ d, f = .restartOnce d ∧ m = r.start d ∧
      ∀ g, r.restarts d.lastEP = some g → ∃ t, (r.flight g).completed = some t ∧ t ≤ d.lastAt) ∨
    (∃ i u failed, f = .returned i u failed ∧
      m = { shared := r.setFlight i { r.flight i with failed, completed := some r.now }
            push := [.closing i] }) ∨
    ∃ i, f = .closing i ∧
      m = { shared := r.setFlight i { r.flight i with done := true }, push := [] } := by
  cases f with
  | dial d =>
    simp only [Recoverer.advance] at h
    split at h
    · cases h
      exact .inl ⟨_, rfl, fun _ => roundEnd_restarts d, within_roundEnd d⟩
    · rename_i hleft
      obtain ⟨g, hg, rfl⟩ := Option.map_eq_some_iff.mp h
      exact .inl ⟨g, rfl, fun _ => attempt_restarts hg, within_attempt hleft hg⟩
  | restartOnce d =>
    simp only [Recoverer.advance, Option.some.injEq] at h
    subst h
    unfold Recoverer.restartOnce
    split
    · rename_i hnone
      exact .inr (.inl ⟨d, rfl, rfl, fun g hg => by rw [hnone] at hg; cases hg⟩)
    · rename_i i hi
      split
      · exact .inl ⟨_, rfl, fun _ => rfl, fun hwithin => hwithin⟩
      rename_i t ht
      split
      · exact .inl ⟨_, rfl, fun _ => resume_restarts d i, within_resume i⟩
      rename_i hlate
      refine .inr (.inl ⟨d, rfl, rfl, fun g hg => ⟨t, ?_, not_lt.mp hlate⟩⟩)
      rw [hi] at hg
      cases hg
      exact ht
  | waiting d i =>
    obtain ⟨g, hg, rfl⟩ := Option.map_eq_some_iff.mp h
    exact .inl ⟨g, rfl, fun _ => wake_restarts hg, within_wake hg⟩
  | ended d => cases h
  | launched i u =>
    cases h
    exact .inl ⟨_, rfl, fun _ => rfl, fun _ => trivial⟩
  | restarting i u =>
    cases c with
    | restarted failed =>
      cases h
      exact .inl ⟨_, rfl, fun _ => rfl, fun _ => trivial⟩
    | proceed | cancelled | noEndpoint | bound => cases h
  | returned i u failed =>
    cases h
    exact .inr (.inr (.inl ⟨i, u, failed, rfl, rfl⟩))
  | closing i =>
    cases h
    exact .inr (.inr (.inr ⟨i, rfl, rfl⟩))

/-! ## One restart at a time -/

theorem Recoverer.Flying.start (h : r.Flying url i) (hne : url ≠ d.lastEP) :
    (r.start d).shared.Flying url i := by
  have hflight : Function.update r.flight r.next { url := d.lastEP } i = r.flight i :=
    Function.update_of_ne (Nat.ne_of_lt h.made) _ _
  refine ⟨?_, ?_, ?_, Nat.lt_succ_of_lt h.made⟩
  · exact (Function.update_of_ne hne _ _).trans h.last
  · exact (congrArg RestartFlight.url hflight).trans h.url_eq
  · exact (congrArg RestartFlight.completed hflight).trans h.completed

theorem Recoverer.Flying.setFlight {j : ℕ} {flight : RestartFlight} (h : r.Flying url i)
    (hflight : i = j → flight.url = (r.flight j).url ∧ flight.completed = (r.flight j).completed) :
    (r.setFlight j flight).Flying url i := by
  by_cases hij : i = j
  · subst hij
    obtain ⟨hurl, hcompleted⟩ := hflight rfl
    have hnew : Function.update r.flight i flight i = flight := Function.update_self ..
    refine ⟨h.last, ?_, ?_, h.made⟩
    · exact ((congrArg RestartFlight.url hnew).trans hurl).trans h.url_eq
    · exact ((congrArg RestartFlight.completed hnew).trans hcompleted).trans h.completed
  · have hold : Function.update r.flight j flight i = r.flight i := Function.update_of_ne hij _ _
    refine ⟨h.last, ?_, ?_, h.made⟩
    · exact (congrArg RestartFlight.url hold).trans h.url_eq
    · exact (congrArg RestartFlight.completed hold).trans h.completed

/-- The restart of a URL passes from frame to frame, and a new one starts only beside none. -/
theorem passes_restart (h : Recoverer.advance policy r f c = some m)
    (hheld : ∀ url i, f.restarts url = some i → r.Flying url i) (url : String) :
    Passes (Frame.restarts url) (Recoverer.Flying url) r f m := by
  obtain ⟨g, rfl, hsame, -⟩ | ⟨d, rfl, rfl, hfree⟩ | ⟨i, u, failed, rfl, rfl⟩ | ⟨i, rfl, rfl⟩ :=
    advance_cases h
  · refine .keeps (fun _ h => h) ?_
    rw [← hsame url]
    cases hg : g.restarts url <;> simp [hg]
  -- A new flight: whatever was the last one of its URL is completed.
  · by_cases hurl : d.lastEP = url
    · subst hurl
      have hfresh : (r.start d).fresh.filterMap (Frame.restarts d.lastEP) = [r.next] := by
        simp [Recoverer.start, Frame.restarts, List.filterMap_cons]
      refine .passes (.inr fun i hi => ?_) (by rw [hfresh]; exact le_refl 1) fun i hi => ?_
      · obtain ⟨t, ht, -⟩ := hfree i hi.last
        rw [hi.completed] at ht
        cases ht
      · rw [hfresh, List.mem_singleton] at hi
        subst hi
        exact ⟨Function.update_self .., by simp [Recoverer.start], by simp [Recoverer.start],
          Nat.lt_succ_self _⟩
    · refine .keeps (fun i hi => hi.start (Ne.symm hurl)) ?_
      simp [Recoverer.start, Frame.restarts, List.filterMap_cons, hurl]
  -- The flight is completed, and with it nobody restarts this URL.
  · by_cases hurl : u = url
    · refine .passes (.inl ?_) ?_ ?_ <;> simp [Frame.restarts, List.filterMap_cons, hurl]
    · have hflying : r.Flying u i := hheld u i (if_pos rfl)
      refine .keeps (fun j hj => hj.setFlight ?_) ?_
      · rintro rfl
        exact absurd (hflying.url_eq.symm.trans hj.url_eq) hurl
      · simp [Frame.restarts, List.filterMap_cons, hurl]
  · refine .keeps (fun j hj => hj.setFlight fun _ => ⟨rfl, rfl⟩) ?_
    simp [Frame.restarts]

/-! ## The last restart of a URL -/

theorem Recoverer.LastCovers.start (h : r.LastCovers) : (r.start d).shared.LastCovers := by
  intro i t ht
  have hi : i ≠ r.next := by
    rintro rfl
    simp [Recoverer.start] at ht
  have hold : (r.start d).shared.flight i = r.flight i := Function.update_of_ne hi _ _
  rw [hold] at ht ⊢
  obtain ⟨hnow, g, hg, hafter⟩ := h i t ht
  refine ⟨hnow, ?_⟩
  -- A flight that is under way covers everything: it has no time of completion to compare.
  by_cases hurl : (r.flight i).url = d.lastEP
  · refine ⟨r.next, by simp [Recoverer.start, hurl], fun t' ht' => ?_⟩
    simp [Recoverer.start] at ht'
  · refine ⟨g, (Function.update_of_ne hurl _ _).trans hg, fun t' ht' => ?_⟩
    by_cases hgnext : g = r.next
    · subst hgnext
      simp [Recoverer.start] at ht'
    · exact hafter t' ((congrArg RestartFlight.completed
        (Function.update_of_ne hgnext _ _ : (r.start d).shared.flight g = r.flight g)) ▸ ht')

theorem Recoverer.LastCovers.complete {failed : Bool} (h : r.LastCovers)
    (hflying : r.Flying url i) :
    (r.setFlight i { r.flight i with failed, completed := some r.now }).LastCovers := by
  have hcovers : ∀ j t, (r.flight j).completed = some t → t ≤ r.now ∧ ∃ g,
      r.restarts (r.flight j).url = some g ∧ ∀ t',
        ((r.setFlight i { r.flight i with failed, completed := some r.now }).flight g).completed =
          some t' → t ≤ t' := by
    intro j t ht
    obtain ⟨hnow, g, hg, hafter⟩ := h j t ht
    refine ⟨hnow, g, hg, fun t' ht' => ?_⟩
    by_cases hgi : g = i
    · subst hgi
      simp only [Recoverer.setFlight, Function.update_self, Option.some.injEq] at ht'
      exact ht' ▸ hnow
    · simp only [Recoverer.setFlight, Function.update_of_ne hgi] at ht'
      exact hafter t' ht'
  intro j t ht
  by_cases hj : j = i
  · subst hj
    simp only [Recoverer.setFlight, Function.update_self, Option.some.injEq] at ht ⊢
    subst ht
    refine ⟨le_refl _, j, hflying.url_eq ▸ hflying.last, fun t' ht' => ?_⟩
    rw [Function.update_self] at ht'
    exact (Option.some.inj ht').le
  · simp only [Recoverer.setFlight, Function.update_of_ne hj] at ht ⊢
    exact hcovers j t ht

theorem Recoverer.LastCovers.close (h : r.LastCovers) :
    (r.setFlight i { r.flight i with done := true }).LastCovers := by
  have hsame : ∀ j, ((r.setFlight i { r.flight i with done := true }).flight j).completed =
      (r.flight j).completed ∧
      ((r.setFlight i { r.flight i with done := true }).flight j).url = (r.flight j).url := by
    intro j
    by_cases hj : j = i
    · subst hj
      simp [Recoverer.setFlight]
    · simp [Recoverer.setFlight, Function.update_of_ne hj]
  intro j t ht
  rw [(hsame j).1] at ht
  obtain ⟨hnow, g, hg, hafter⟩ := h j t ht
  refine ⟨hnow, g, (hsame j).2 ▸ hg, fun t' ht' => hafter t' ?_⟩
  rw [← (hsame g).1]
  exact ht'

/-! ## Every run -/

variable (policy) in
/-- What holds of the dials and the restarts at any time. -/
structure Sound (cfg : Config Recoverer Frame) : Prop where
  owned : ∀ url, OneOwner (Frame.restarts url) (Recoverer.Flying url) cfg
  covers : cfg.shared.LastCovers
  within : ∀ g ∈ cfg.frames, g.Within policy

theorem isStart_cases (h : f.isStart policy) : f.Within policy ∧ ∀ url, f.restarts url = none := by
  cases f with
  | dial d =>
    obtain ⟨hround, hleft, hattempts, -, hjoined⟩ :
        d.round = 0 ∧ d.left = policy.attempts ∧ d.attempts = 0 ∧ d.lastEP = "" ∧ d.joined = [] := by
      simpa [Frame.isStart] using h
    refine ⟨⟨by omega, ?_, by simp [hjoined]⟩, fun _ => rfl⟩
    rw [hround, hleft, hattempts]
    omega
  | _ => simp [Frame.isStart] at h

theorem Sound.step (h : Sound policy cfg) (hstep : (program policy).step cfg a = .ok cfg') :
    Sound policy cfg' := by
  refine ⟨fun url => ?_, ?_, ?_⟩
  -- The goroutine that restarts a URL owns the URL's last flight until it completes it.
  · refine step_ownership hstep (fun g hg => (isStart_cases hg).2 url) (fun g others m hran _ => ?_)
      (fun i n hi => ⟨hi.last, hi.url_eq, hi.completed, hi.made⟩) (h.owned url)
    obtain ⟨c, hc⟩ := hran.advance
    exact passes_restart hc (fun u i hi => (h.owned u).holds g hran.mem i hi) url
  · refine step_shared (P := Recoverer.LastCovers) hstep (fun g others m hran => ?_)
      (fun n i t ht => ?_) h.covers
    · obtain ⟨c, hc⟩ := hran.advance
      obtain ⟨_, rfl, -⟩ | ⟨d, rfl, rfl, -⟩ | ⟨i, u, failed, rfl, rfl⟩ | ⟨i, rfl, rfl⟩ :=
        advance_cases hc
      · exact h.covers
      · exact h.covers.start
      · exact h.covers.complete ((h.owned u).holds _ hran.mem i (if_pos rfl))
      · exact h.covers.close
    · obtain ⟨hnow, hlast⟩ := h.covers i t ht
      exact ⟨Nat.le_add_right_of_le hnow, hlast⟩
  · refine step_frames (Q := fun _ g => g.Within policy) hstep (fun g hg => (isStart_cases hg).1)
      (fun g others m hran => ⟨fun o ho => h.within o (hran.mem_others ho), ?_⟩)
      (fun _ => h.within) h.within
    obtain ⟨c, hc⟩ := hran.advance
    have hwithin : g.Within policy := h.within g hran.mem
    obtain ⟨g', rfl, -, hkeeps⟩ | ⟨d, rfl, rfl, -⟩ | ⟨i, u, failed, rfl, rfl⟩ | ⟨i, rfl, rfl⟩ :=
      advance_cases hc
    · simpa using hkeeps hwithin
    · simpa [Recoverer.start, Frame.Within] using hwithin
    · simp [Frame.Within]
    · simp

/-- **Recovery restarts a server once an incident.** In every run, with any number of dials: two
restarts of one URL are never under way together; a dial that starts a restart had its last failure
no earlier than any completed restart of that URL; and a dial makes at most two rounds of attempts
and takes part in at most one restart. -/
theorem recovery_restarts (policy : RecoveryPolicy) {cfg : Config Recoverer Frame}
    (hreach : Reachable (program policy).step (· = ⟨{}, []⟩) (fun _ _ => True) cfg) :
    (∀ url, (cfg.frames.filterMap (Frame.restarts url)).length ≤ 1) ∧
    (∀ d c m, Frame.restartOnce d ∈ cfg.frames →
      Recoverer.advance policy cfg.shared (.restartOnce d) c = some m → m.spawn ≠ [] →
      ∀ i t, (cfg.shared.flight i).url = d.lastEP → (cfg.shared.flight i).completed = some t →
        t ≤ d.lastAt) ∧
    ∀ g ∈ cfg.frames, ∀ d, g.dial? = some d →
      d.attempts ≤ 2 * policy.attempts ∧ d.joined.length ≤ 1 := by
  have hsound : Sound policy cfg := by
    refine hreach.invariant (fun cfg hcfg => ?_) fun _ _ _ h _ hstep => h.step hstep
    subst hcfg
    refine ⟨fun _ => ⟨by simp [Config.frames], by simp [Config.frames]⟩, ?_, by simp [Config.frames]⟩
    intro i t ht
    cases ht
  refine ⟨fun url => (hsound.owned url).single, fun d c m _ hm hspawn i t hurl ht => ?_,
    fun g hg d hd => ?_⟩
  · obtain ⟨_, rfl, -⟩ | ⟨d', hd, rfl, hfree⟩ | ⟨_, _, _, hf, -⟩ | ⟨_, hf, -⟩ := advance_cases hm
    · exact absurd rfl hspawn
    -- Only the last flight is compared with the failure, and it covers those before.
    · cases hd
      obtain ⟨-, last, hlast, hcovers⟩ := hsound.covers i t ht
      obtain ⟨t', ht', hlate⟩ := hfree last (hurl ▸ hlast)
      exact (hcovers t' ht').trans hlate
    · cases hf
    · cases hf
  · have hwithin : g.Within policy := hsound.within g hg
    cases g with
    | dial =>
      cases hd
      obtain ⟨hround, hattempts, hjoined⟩ := hwithin
      have hbound : (d.round + 1) * policy.attempts ≤ 2 * policy.attempts :=
        Nat.mul_le_mul_right _ (by omega)
      exact ⟨by omega, by omega⟩
    | restartOnce | waiting =>
      cases hd
      exact ⟨by have := hwithin.2.1; omega, by simp [hwithin.2.2]⟩
    | ended =>
      cases hd
      exact hwithin
    | launched | restarting | returned | closing => cases hd

/-- Two dials fail at their only attempt at one server.  The first has it restarted, the second
waits for the same restart, and both go on once it is over. -/
def failedDials : List (Action Frame Choice ℕ) :=
  [.call (.dial { left := 1 }), .call (.dial { left := 1 }), .run 0 (.bound "ws" .retryable),
    .run 1 (.bound "ws" .retryable), .run 0 .proceed, .run 1 .proceed, .run 0 .proceed,
    .run 1 .proceed, .run 2 .proceed, .run 2 (.restarted false), .run 2 .proceed, .run 2 .proceed,
    .run 0 .proceed, .run 1 .proceed]

theorem recovery_restarts_failedDials :
    ∃ cfg, run (program ⟨1, true⟩).step ⟨{}, []⟩ failedDials = .ok cfg ∧ cfg.shared.next = 1 ∧
      (cfg.frames.filterMap Frame.dial?).map (fun d => (d.round, d.joined)) =
        [(1, [0]), (1, [0])] ∧
      ∀ g ∈ cfg.frames, ∀ d, g.dial? = some d → d.attempts ≤ 2 ∧ d.joined.length ≤ 1 :=
  ⟨_, rfl, rfl, rfl, (recovery_restarts ⟨1, true⟩
    (.of_run (.initial rfl) failedDials (fun _ _ => trivial) rfl)).2.2⟩

end Montygo.Recovery
