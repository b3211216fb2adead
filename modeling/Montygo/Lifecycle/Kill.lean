import Montygo.Lifecycle.Leases
import Montygo.Lifecycle.Terminal

/-!
# The kill of a session

`Close` with `KillNow` sets the terminal cause, terminates the checkout and has the pool forget the
session, on the goroutine of its caller, whatever the others do.  A goroutine that has the pool
forget the session has found a terminal cause before.  While no rotation has begun, the session
has no lease but that of its checkout, so after the kill it has none.
-/

namespace Montygo.Lifecycle

open Threads Transition

variable {E V : Type} {s s' : Session E V} {sys sys' : System E V} {a : Act E V}

/-! ## What ends a session -/

/-- The goroutine has made its session terminal, or found it so. -/
def Frame.ending : Frame E V → Bool
  | .terminateCheckout _ _ => true
  | .untrack _ _ => true
  | .forceCheckout _ => true
  | .forceUntrack _ => true
  | _ => false

theorem terminateSession_terminal (s : Session E V) (err : Err E) :
    (s.terminateSession err).1.terminal.isSome := by
  rcases s.terminateSession_cases err with ⟨-, h⟩ | ⟨e, -, -, h⟩ | ⟨e, -, -, h⟩
  all_goals
    rw [h]
    simp

theorem forced_terminal {e : ℕ} {early : Bool}
    (h : .forceCheckout e ∈ (forced e (s.forceExecution e early)).fresh) :
    (forced e (s.forceExecution e early)).shared.terminal.isSome := by
  rcases s.forceExecution_cases e early with hforce | hforce | ⟨req, -, -, hforce⟩ |
    ⟨req, -, -, -, -, -, -, -, hforce⟩
  · simp [hforce, forced, Move.fresh] at h
  · simp [hforce, forced, Move.fresh] at h
  · simp [hforce, forced, Move.fresh] at h
  · simp [hforce, forced]

variable {f : Frame E V}

theorem not_ending_of_plain (h : f.plain) : f.ending = false := by
  cases f <;> first | rfl | cases h

theorem advance_ending {g : Frame E V} {c : Choice E V} {m : Outcome E V}
    (hm : advance s f c = some m) (hg : g ∈ m.fresh) (hending : g.ending) :
    m.shared.terminal.isSome ∨ f.ending ∧ m.shared.terminal = s.terminal := by
  cases advance_follows hm hg with
  | terminateCheckout =>
    cases hm
    exact .inl (terminateSession_terminal s _)
  | untrack | forceUntrack =>
    cases hm
    exact .inr ⟨rfl, rfl⟩
  | forceCheckout =>
    simp only [advance] at hm
    split at hm <;>
      · cases hm
        exact .inl (forced_terminal hg)
  | other hother => simp [not_ending_of_plain hother] at hending
  | _ => cases hending

/-- A goroutine that has the pool forget the session has a terminal cause behind it. -/
structure Told (sys : System E V) : Prop where
  ended : Ended sys.shared
  ending : ∀ g ∈ sys.frames, g.ending → sys.shared.terminal.isSome

theorem told_initial (p : StopPolicy E) : Told (initial p : System E V) where
  ended := ended_initial p
  ending := by simp [initial, Config.frames, Frame.ending]

theorem not_ending_of_entry (h : f.entry) : f.ending = false := by
  cases f <;> first | rfl | cases h

theorem step_told (htold : Told sys) (hstep : (program E V).step sys a = .ok sys') : Told sys' := by
  refine ⟨(step_ended htold.ended hstep).1, ?_⟩
  refine step_frames (Q := fun s g => g.ending → s.terminal.isSome) hstep ?_ ?_
    (fun _ => htold.ending) htold.ending
  · intro f hf hending
    simp [not_ending_of_entry hf] at hending
  · intro f others m hran
    obtain ⟨c, hm⟩ := hran.advance
    have hlasts (h : sys.shared.terminal.isSome) : m.shared.terminal.isSome := by
      obtain ⟨cause, hcause⟩ := Option.isSome_iff_exists.mp h
      have hkeeps := (effect_ended (advance_effect hm) htold.ended).2
      simp [hkeeps.terminal cause hcause]
    refine ⟨fun g hg hending => hlasts (htold.ending g (hran.mem_others hg) hending),
      fun g hg hending => ?_⟩
    rcases advance_ending hm hg hending with hterminal | ⟨hf, -⟩
    · exact hterminal
    · exact hlasts (htold.ending f hran.mem hf)

theorem step_stays_terminal (htold : Told sys) (hstep : (program E V).step sys a = .ok sys')
    (hterminal : sys.shared.terminal.isSome) : sys'.shared.terminal.isSome := by
  obtain ⟨cause, hcause⟩ := Option.isSome_iff_exists.mp hterminal
  simp [(step_ended htold.ended hstep).2.terminal cause hcause]

/-! ## A session without rotations -/

def Frame.rotation : Frame E V → Bool
  | .reserveRotation => true
  | .rotate => true
  | .handoff => true
  | .bind => true
  | .attach _ => true
  | _ => false

theorem not_handedOff_of_rotation (h : f.rotation = false) : f.handedOff = false := by
  cases f <;> first | rfl | cases h

theorem Follows.rotation {g : Frame E V} (h : Follows s f g) (hf : f.rotation = false) :
    g.rotation = false := by
  cases h with
  | rotate | handoff | bind | attach => cases hf
  | other hother => cases g <;> first | rfl | cases hother
  | _ => rfl

/-- A session on which no rotation has begun. -/
structure Unrotated (sys : System E V) : Prop where
  owned : Owned sys
  seen : SeenTo sys
  still : ∀ g ∈ sys.frames, g.rotation = false

theorem unrotated_initial (p : StopPolicy E) : Unrotated (initial p : System E V) where
  owned := owned_initial p
  seen := reaches_seenTo (.initial ⟨p, rfl⟩)
  still := by simp [initial, Config.frames, Frame.rotation]

/-- The step is not the call of a rotation. -/
def NoRotation (a : Act E V) : Prop := a ≠ .call .reserveRotation

section Step

variable (hun : Unrotated sys) (hstep : (program E V).step sys a = .ok sys')

include hun hstep

theorem step_still (hstays : NoRotation a) : ∀ g ∈ sys'.frames, g.rotation = false := by
  obtain ⟨f, rfl, hf, -, hframes⟩ | ⟨f, others, m, hran, -, hframes⟩ | ⟨k, -, -, hframes⟩ :=
    step_frames_cases hstep
  · intro g hg
    rw [hframes] at hg
    rcases List.mem_append.mp hg with hg | hg
    · exact hun.still g hg
    rw [List.mem_singleton.mp hg]
    cases f with
    | reserveRotation => exact absurd rfl hstays
    | rotate | handoff | bind | attach _ => cases hf
    | _ => rfl
  · intro g hg
    obtain ⟨c, hm⟩ := hran.advance
    rcases List.mem_append.mp (hframes.mem_iff.mp hg) with hg | hg
    · exact (advance_follows hm hg).rotation (hun.still f hran.mem)
    · exact hun.still g (hran.mem_others hg)
  · exact hframes ▸ hun.still

theorem step_unrotated (hstays : NoRotation a) : Unrotated sys' where
  owned := step_owned hun.owned hstep
  seen := by
    have hopen : AttachOpen sys a := attachOpen_of_none <| List.all_eq_true.mpr fun f hf => by
      simp [not_handedOff_of_rotation (hun.still f hf)]
    exact ⟨step_bounds hun.seen hstep, step_rotates hun.owned hun.seen hstep,
      step_attached hun.seen hstep, step_terminated hun.seen hstep hopen⟩
  still := step_still hun hstep hstays

theorem step_leases : sys'.shared.co = sys.shared.co ∧
    ∀ k, sys'.shared.lease k = true → sys.shared.lease k = true := by
  refine step_shared (P := fun s' => s'.co = sys.shared.co ∧
    ∀ k, s'.lease k = true → sys.shared.lease k = true) hstep ?_ ?_ ⟨rfl, fun _ h => h⟩
  · intro f others m hran
    obtain ⟨c, hm⟩ := hran.advance
    have hstill := hun.still f hran.mem
    cases (effect_rest (advance_effect hm)).lease with
    | attaches k hf h | binds hf h =>
      subst hf
      cases hstill
    | keeps hco _ h => exact ⟨hco, h⟩
  · intro k
    cases (effect_rest (f := .rotate) (.ended k : Effect sys.shared _ _)).lease with
    | attaches _ hf _ | binds hf _ => cases hf
    | keeps hco _ h => exact ⟨hco, h⟩

end Step

theorem Unrotated.lease_eq_false (hun : Unrotated sys)
    (hlease : sys.shared.lease sys.shared.co = false) (k : ℕ) : sys.shared.lease k = false := by
  by_contra hactive
  rw [Bool.not_eq_false] at hactive
  by_cases hk : k = sys.shared.co
  · simp [hk, hlease] at hactive
  · obtain ⟨g, hg, rfl⟩ := hun.seen.attached k ⟨hactive, hk⟩
    cases hun.still _ hg

/-! ## How far the kill is -/

/-- How far a `Close` with `KillNow` is that runs on a goroutine of its own. -/
inductive Killing (s : Session E V) : List (Frame E V) → Prop where
  | terminating : Killing s [.terminateSession .sessionClosed]
  | checkout (cause : Err E) (paused : Option ℕ) : Killing s [.terminateCheckout cause paused]
  | untracking (cause : Err E) (paused : Option ℕ) (h : s.lease s.co = false) :
      Killing s [.untrack cause paused]
  | finishing (e : ℕ) (err : Option (Err E)) (h : s.lease s.co = false) :
      Killing s [.finishExecution e none err]
  | done (h : s.lease s.co = false) : Killing s []

theorem Killing.keeps {st : List (Frame E V)} (h : Killing s st) (hco : s'.co = s.co)
    (hlease : ∀ k, s'.lease k = true → s.lease k = true) : Killing s' st := by
  have hkept (h : s.lease s.co = false) : s'.lease s'.co = false := by
    by_contra hactive
    rw [Bool.not_eq_false, hco] at hactive
    simp [hlease _ hactive] at h
  cases h with
  | terminating => exact .terminating
  | checkout cause paused => exact .checkout cause paused
  | untracking cause paused h => exact .untracking cause paused (hkept h)
  | finishing e err h => exact .finishing e err (hkept h)
  | done h => exact .done (hkept h)

theorem Killing.advance {rest : List (Frame E V)} {c : Choice E V} {m : Outcome E V}
    (h : Killing s (f :: rest)) (hm : advance s f c = some m) (hco : m.shared.co = s.co)
    (hlease : ∀ k, m.shared.lease k = true → s.lease k = true) :
    Killing m.shared (m.push ++ rest) := by
  cases h with
  | terminating =>
    cases hm
    exact .checkout _ _
  | checkout cause paused =>
    cases hm
    exact .untracking cause paused (by simp [Session.setLease])
  | untracking cause paused h =>
    cases hm
    cases paused with
    | none => exact .done h
    | some e => exact .finishing e _ h
  | finishing e err h =>
    have hdone := (Killing.done h).keeps hco hlease
    cases hm
    exact hdone

/-- How many steps the kill has left. -/
def killLeft : List (Frame E V) → ℕ
  | .terminateSession _ :: _ => 4
  | .terminateCheckout _ _ :: _ => 3
  | .untrack _ _ :: _ => 2
  | .finishExecution _ _ _ :: _ => 1
  | _ => 0

theorem Killing.goes_on {rest : List (Frame E V)} (h : Killing s (f :: rest)) (c : Choice E V) :
    ∃ m, Lifecycle.advance s f c = some m ∧ killLeft (m.push ++ rest) < killLeft (f :: rest) := by
  cases h with
  | terminating | checkout cause paused | finishing e err h => exact ⟨_, rfl, by simp [killLeft]⟩
  | untracking cause paused h =>
    refine ⟨_, rfl, ?_⟩
    cases paused <;> simp [killLeft]

theorem step_killing (hun : Unrotated sys) (hstep : (program E V).step sys a = .ok sys') {j : ℕ}
    {st : List (Frame E V)} (hj : sys.stackOf[j]? = some st) (hkilling : Killing sys.shared st) :
    ∃ st', sys'.stackOf[j]? = some st' ∧ Killing sys'.shared st' := by
  obtain ⟨hco, hlease⟩ := step_leases hun hstep
  rcases step_stack hstep hj with hsame | ⟨c, f, rest, m, -, rfl, hm, hshared, hnext⟩
  · exact ⟨st, hsame, hkilling.keeps hco hlease⟩
  · rw [hshared] at hco hlease ⊢
    exact ⟨_, hnext, hkilling.advance hm hco hlease⟩

end Montygo.Lifecycle
