import Montygo.Lifecycle.Kill

/-!
# The shutdown of a pool

A pool knows its open sessions by a set behind `sessionsMu`.  `Checkout` dials, attaches the
session, registers the host and tracks the session; a session that ends has the pool forget it.
`track` refuses when the pool is closed and when the session has ended, and `Shutdown` closes the
pool and takes the set in one section.  So a session that was handed out is in the set that is
taken, or had ended by then.

Each call of `Checkout` has a session of its own, and an entry here is the call with its session.
The session's goroutines run as in `Goroutines`, between and beside the steps of `Checkout`.
`track` reads the session's terminal cause under the session's own mutex while it has
`sessionsMu`.  It is one step, since only `untrack` and `Shutdown` look at the set, and both wait
for `sessionsMu`.
-/

namespace Montygo.Lifecycle

open Threads Transition

variable {E V : Type}

/-! ## A checkout and its session -/

/-- The error that `Checkout` returns. -/
inductive Refusal (E : Type) where
  | poolClosed
  | options
  | dial
  /-- The host refused the registration. -/
  | register
  | session (cause : Err E)
  deriving DecidableEq

/-- Where a call of `Checkout` stands. -/
inductive Point (E : Type) where
  /-- There was no call yet. -/
  | idle
  | start
  | configure
  | dial (p : StopPolicy E)
  | register
  | track
  /-- In `s.Close(ctx, KillNow)`, as goroutine `j` of the session. -/
  | closing (j : ℕ) (err : Refusal E)
  | failed (err : Refusal E)
  | returned
  deriving DecidableEq

/-- What decides how `Checkout` goes on. -/
inductive Dialling (E : Type) where
  | go
  /-- The options give a session with this policy. -/
  | configured (p : StopPolicy E)
  | failed
  deriving DecidableEq

/-- A call of `Checkout`, its session once there is one, and whether the pool tracks it. -/
structure Entry (E V : Type) where
  point : Point E := .idle
  session : Option (System E V) := none
  tracked : Bool := false

/-- The session has a terminal cause. -/
def Entry.terminal (e : Entry E V) : Bool := e.session.any fun sys => sys.shared.terminal.isSome

inductive EntryAct (E V : Type) where
  | call
  /-- `Checkout` goes on. -/
  | run (c : Dialling E)
  /-- A goroutine of the session, or a caller of it. -/
  | session (a : Act E V)

/-- Calls `Close` with `KillNow`. -/
def Entry.kill (e : Entry E V) (sys : System E V) (err : Refusal E) : Entry E V :=
  { e with
    point := .closing sys.stackOf.length err
    session := some { sys with stackOf := sys.stackOf ++ [[.terminateSession .sessionClosed]] } }

/-- `Pool.Checkout`, one step at a time. -/
def Entry.checkout (closed : Bool) (e : Entry E V) (c : Dialling E) : Except Blocked (Entry E V) :=
  match e.point, e.session, c with
  | .start, _, .failed => .ok { e with point := .failed .options }
  | .start, _, .go =>
    .ok { e with point := if closed then .failed .poolClosed else .configure }
  | .configure, _, .failed => .ok { e with point := .failed .options }
  | .configure, _, .configured p => .ok { e with point := .dial p }
  | .dial p, _, .go => .ok { e with point := .register, session := some (initial p) }
  | .dial _, _, .failed => .ok { e with point := .failed .dial }
  | .register, some _, .go => .ok { e with point := .track }
  | .register, some sys, .failed => .ok (e.kill sys .register)
  | .track, some sys, .go =>
    if closed then .ok (e.kill sys .poolClosed)
    else match sys.shared.terminal with
      | some cause => .ok (e.kill sys (.session cause))
      | none => .ok { e with point := .returned, tracked := true }
  | .closing j err, some sys, .go =>
    match sys.stackOf[j]? with
    | some [] => .ok { e with point := .failed err }
    | _ => .error .notEnabled
  | _, _, _ => .error .notEnabled

/-- The step has the pool forget the session. -/
def untracks (sys : System E V) : Act E V → Bool
  | .run i _ =>
    match sys.top i with
    | some (.untrack _ _) => true
    | some (.forceUntrack _) => true
    | _ => false
  | _ => false

def Entry.step (closed : Bool) (e : Entry E V) : EntryAct E V → Except Blocked (Entry E V)
  | .call =>
    match e.point with
    | .idle => .ok { e with point := .start }
    | _ => .error .notEnabled
  | .run c => e.checkout closed c
  | .session a =>
    match e.session with
    | some sys =>
      match (program E V).step sys a with
      | .ok sys' =>
        .ok { e with session := some sys', tracked := e.tracked && !untracks sys a }
      | .error b => .error b
    | none => .error .notEnabled

/-! ## The pool -/

/-- A pool.  `taken` has the entries as they were when `Shutdown` last took the set. -/
structure PoolState (E V : Type) where
  closed : Bool := false
  entry : ℕ → Entry E V := fun _ => {}
  taken : Option (ℕ → Entry E V) := none

inductive PoolAct (E V : Type) where
  | entry (n : ℕ) (a : EntryAct E V)
  /-- `Pool.Close`. -/
  | close
  /-- The section of `Shutdown`. -/
  | shutdown
  /-- `Shutdown` closes a session of the set it took, with a policy or at once. -/
  | closeTaken (n : ℕ) (policy : Option (StopPolicy E))

/-- The call that `Close` is. -/
def closeFrame : Option (StopPolicy E) → Frame E V
  | some p => .close p
  | none => .terminateSession .sessionClosed

def PoolState.stepEntry (st : PoolState E V) (n : ℕ) (a : EntryAct E V) :
    Except Blocked (PoolState E V) :=
  match (st.entry n).step st.closed a with
  | .ok e => .ok { st with entry := Function.update st.entry n e }
  | .error b => .error b

def PoolState.step (st : PoolState E V) : PoolAct E V → Except Blocked (PoolState E V)
  | .entry n a => st.stepEntry n a
  | .close => .ok { st with closed := true }
  | .shutdown => .ok { st with closed := true, taken := some st.entry }
  | .closeTaken n policy =>
    if st.taken.any fun t => (t n).tracked then
      st.stepEntry n (.session (.call (closeFrame policy)))
    else .error .notEnabled

abbrev PoolReaches (guard : PoolState E V → PoolAct E V → Prop) : PoolState E V → Prop :=
  Reachable PoolState.step (fun st => st = {}) guard

/-! ## What a checkout keeps -/

/-- What is known of a checkout and its session at each point: nothing is attached before the
dial, no rotation has begun before `Checkout` returns, the pool tracks what was returned until it
has ended, and a session that was killed has no lease. -/
inductive Kept : Entry E V → Prop where
  | idle : Kept ⟨.idle, none, false⟩
  | start : Kept ⟨.start, none, false⟩
  | configure : Kept ⟨.configure, none, false⟩
  | dial (p : StopPolicy E) : Kept ⟨.dial p, none, false⟩
  | refused (err : Refusal E) : Kept ⟨.failed err, none, false⟩
  | register {sys : System E V} (htold : Told sys) (hun : Unrotated sys) : Kept ⟨.register, some sys, false⟩
  | track {sys : System E V} (htold : Told sys) (hun : Unrotated sys) : Kept ⟨.track, some sys, false⟩
  | closing {sys : System E V} {j : ℕ} {frames : List (Frame E V)} (err : Refusal E)
      (htold : Told sys) (hun : Unrotated sys) (hj : sys.stackOf[j]? = some frames)
      (hkilling : Killing sys.shared frames) : Kept ⟨.closing j err, some sys, false⟩
  | failed {sys : System E V} (err : Refusal E) (htold : Told sys) (hun : Unrotated sys)
      (hleases : ∀ k, sys.shared.lease k = false) : Kept ⟨.failed err, some sys, false⟩
  | returned {sys : System E V} {tracked : Bool} (htold : Told sys)
      (hknown : tracked ∨ sys.shared.terminal.isSome) : Kept ⟨.returned, some sys, tracked⟩

variable {sys sys' : System E V} {a : Act E V} {e e' : Entry E V}

/-- A session is rotated only after its `Checkout` has returned it. -/
def Entry.RotatesReturned (e : Entry E V) : EntryAct E V → Prop
  | .session a => e.point = .returned ∨ NoRotation a
  | _ => True

theorem terminal_of_untracks (htold : Told sys) (h : untracks sys a) :
    sys.shared.terminal.isSome := by
  obtain ⟨g, hg, hending⟩ : ∃ g ∈ sys.frames, g.ending := by
    cases a with
    | run i c =>
      have hmem {f : Frame E V} (htop : sys.top i = some f) : f ∈ sys.frames := by
        obtain ⟨frames, hframes, hhead⟩ := Option.bind_eq_some_iff.mp htop
        exact List.mem_flatten.mpr ⟨frames, List.mem_of_getElem? hframes, List.mem_of_head? hhead⟩
      simp only [untracks] at h
      split at h
      · exact ⟨_, hmem ‹_›, rfl⟩
      · exact ⟨_, hmem ‹_›, rfl⟩
      · cases h
    | call f | outside k => cases h
  exact htold.ending g hg hending

/-- `Close` with `KillNow` is called on a session that was not rotated. -/
theorem kept_kill {point : Point E} (htold : Told sys) (hun : Unrotated sys) (err : Refusal E) :
    Kept (Entry.kill ⟨point, some sys, false⟩ sys err) := by
  have hcall : (program E V).step sys (.call (.terminateSession .sessionClosed)) =
      .ok ⟨sys.shared, sys.stackOf ++ [[.terminateSession .sessionClosed]]⟩ := rfl
  exact .closing err (step_told htold hcall) (step_unrotated hun hcall (by simp [NoRotation]))
    (by simp) .terminating

variable {closed : Bool} {act : EntryAct E V}

theorem step_session (hstep : e.step closed (.session a) = .ok e') :
    ∃ sys sys', e.session = some sys ∧ (program E V).step sys a = .ok sys' ∧
      e' = ⟨e.point, some sys', e.tracked && !untracks sys a⟩ := by
  simp only [Entry.step] at hstep
  split at hstep
  · rename_i sys hsys
    split at hstep
    · rename_i sys' hsys'
      cases hstep
      exact ⟨sys, sys', hsys, hsys', rfl⟩
    · cases hstep
  · cases hstep

theorem step_kept_session (hkept : Kept e) (ha : e.RotatesReturned (.session a))
    (hstep : e.step closed (.session a) = .ok e') : Kept e' := by
  have hnot (h : e.point ≠ .returned) : NoRotation a := ha.resolve_left h
  obtain ⟨sys, sys', hsys, hnext, rfl⟩ := step_session hstep
  cases hkept with
  | idle | start | configure | dial _ | refused _ => cases hsys
  | register htold hun =>
    cases hsys
    exact .register (step_told htold hnext) (step_unrotated hun hnext (hnot nofun))
  | track htold hun =>
    cases hsys
    exact .track (step_told htold hnext) (step_unrotated hun hnext (hnot nofun))
  | closing err htold hun hj hkilling =>
    cases hsys
    obtain ⟨frames, hframes, hnow⟩ := step_killing hun hnext hj hkilling
    exact .closing err (step_told htold hnext) (step_unrotated hun hnext (hnot nofun)) hframes hnow
  | failed err htold hun hleases =>
    cases hsys
    refine .failed err (step_told htold hnext) (step_unrotated hun hnext (hnot nofun)) fun k => ?_
    have hkeeps := (step_leases hun hnext).2 k
    rw [hleases k] at hkeeps
    exact Bool.eq_false_iff.mpr fun hlease => Bool.false_ne_true (hkeeps hlease)
  | returned htold hknown =>
    cases hsys
    refine .returned (step_told htold hnext) ?_
    by_cases huntracks : untracks sys a
    · exact .inr (step_stays_terminal htold hnext (terminal_of_untracks htold huntracks))
    rcases hknown with htracked | hterminal
    · simp [htracked, huntracks]
    · exact .inr (step_stays_terminal htold hnext hterminal)

theorem step_kept_run (hkept : Kept e) {c : Dialling E} (hstep : e.step closed (.run c) = .ok e') :
    Kept e' := by
  simp only [Entry.step, Entry.checkout] at hstep
  cases hkept with
  | idle | refused _ | failed _ _ _ _ | returned _ _ => cases hstep
  | start =>
    cases c with
    | configured _ => cases hstep
    | failed =>
      cases hstep
      exact .refused _
    | go =>
      cases hstep
      cases closed with
      | true => exact .refused _
      | false => exact .configure
  | configure =>
    cases c with
    | go => cases hstep
    | failed =>
      cases hstep
      exact .refused _
    | configured p =>
      cases hstep
      exact .dial p
  | dial p =>
    cases c with
    | configured _ => cases hstep
    | go =>
      cases hstep
      exact .register (told_initial p) (unrotated_initial p)
    | failed =>
      cases hstep
      exact .refused _
  | register htold hun =>
    cases c with
    | configured _ => cases hstep
    | go =>
      cases hstep
      exact .track htold hun
    | failed =>
      cases hstep
      exact kept_kill htold hun _
  | track htold hun =>
    cases c with
    | configured _ | failed => cases hstep
    | go =>
      simp only at hstep
      split at hstep
      · cases hstep
        exact kept_kill htold hun _
      · split at hstep
        · cases hstep
          exact kept_kill htold hun _
        · cases hstep
          exact .returned htold (.inl rfl)
  | closing err htold hun hj hkilling =>
    cases c with
    | configured _ | failed => cases hstep
    | go =>
      simp only [hj] at hstep
      split at hstep
      · rename_i hdone
        cases hstep
        cases hdone
        cases hkilling with
        | done hlease => exact .failed err htold hun (hun.lease_eq_false hlease)
      · cases hstep

/-- **A step keeps what is known of a checkout.** -/
theorem step_kept (hkept : Kept e) (ha : e.RotatesReturned act)
    (hstep : e.step closed act = .ok e') : Kept e' := by
  cases act with
  | call =>
    simp only [Entry.step] at hstep
    cases hkept with
    | idle =>
      cases hstep
      exact .start
    | _ => cases hstep
  | run c => exact step_kept_run hkept hstep
  | session a => exact step_kept_session hkept ha hstep

theorem step_returned (hstep : e.step true act = .ok e') (hreturned : e'.point = .returned) :
    e.point = .returned := by
  cases act with
  | call =>
    simp only [Entry.step] at hstep
    split at hstep
    · cases hstep
      cases hreturned
    · cases hstep
  | run c =>
    simp only [Entry.step, Entry.checkout] at hstep
    split at hstep
    case h_10 =>
      split at hstep
      · cases hstep
        cases hreturned
      · cases hstep
    all_goals
      cases hstep
      try cases hreturned
  | session a =>
    obtain ⟨sys, sys', -, -, rfl⟩ := step_session hstep
    exact hreturned

/-! ## A checkout of a closed pool comes to its end -/

/-- The steps that the goroutine of `Checkout` takes itself. -/
def Entry.Own (e : Entry E V) : EntryAct E V → Prop
  | .call => False
  | .run _ => True
  | .session (.run i _) => ∃ err, e.point = .closing i err
  | .session _ => False

/-- On a closed pool `Checkout` goes on by itself until it returns an error, whatever decides its
steps. -/
inductive Fails : Entry E V → Prop where
  | failed {e : Entry E V} (err : Refusal E) (h : e.point = .failed err) : Fails e
  | goesOn {e : Entry E V} (hgoes : ∃ act e', e.Own act ∧ e.step true act = .ok e')
      (hfails : ∀ act e', e.Own act → e.step true act = .ok e' → Fails e') : Fails e

theorem Entry.Own.rotatesReturned (h : e.Own act) : e.RotatesReturned act := by
  cases act with
  | call | run _ => exact trivial
  | session a =>
    cases a with
    | call | outside _ => exact h.elim
    | run i c => exact .inr (by simp [NoRotation])

theorem step_run_killing {j : ℕ} {f : Frame E V} {rest : List (Frame E V)}
    (hj : sys.stackOf[j]? = some (f :: rest)) (hkilling : Killing sys.shared (f :: rest))
    (c : Choice E V) :
    ∃ sys' frames, (program E V).step sys (.run j c) = .ok sys' ∧
      sys'.stackOf[j]? = some frames ∧ killLeft frames < killLeft (f :: rest) := by
  obtain ⟨m, hm, hleft⟩ := hkilling.goes_on c
  obtain ⟨hlt, -⟩ := List.getElem?_eq_some_iff.mp hj
  refine ⟨⟨m.shared, sys.stackOf.set j (m.push ++ rest) ++ m.spawn⟩, m.push ++ rest, ?_, ?_, hleft⟩
  · simp [Program.step, hj, program, hm]
  · rw [List.getElem?_append_left (by simpa using hlt), List.getElem?_set_self hlt]

theorem fails_closing {j : ℕ} {err : Refusal E} {tracked : Bool} {frames : List (Frame E V)}
    (hkept : Kept ⟨.closing j err, some sys, tracked⟩) (hj : sys.stackOf[j]? = some frames) :
    Fails (⟨.closing j err, some sys, tracked⟩ : Entry E V) := by
  -- Each step of the kill lowers the number of steps it has left.
  induction hleft : killLeft frames using Nat.strongRecOn generalizing sys tracked frames with
  | ind left ih =>
    obtain ⟨htold, hun, hkilling⟩ : Told sys ∧ Unrotated sys ∧ Killing sys.shared frames := by
      cases hkept with
      | closing _ htold hun hj' hkilling =>
        obtain rfl := Option.some.inj (hj'.symm.trans hj)
        exact ⟨htold, hun, hkilling⟩
    cases frames with
    | nil =>
      refine .goesOn ⟨.run .go, _, trivial, by simp [Entry.step, Entry.checkout, hj]; rfl⟩ ?_
      intro act e' hown hstep
      cases act with
      | call => exact hown.elim
      | run c =>
        cases c with
        | go =>
          simp only [Entry.step, Entry.checkout, hj] at hstep
          cases hstep
          exact .failed err rfl
        | configured _ | failed => cases hstep
      | session a =>
        obtain ⟨_, _, hsys, hnext, -⟩ := step_session hstep
        cases hsys
        cases a with
        | call _ | outside _ => exact hown.elim
        | run i c =>
          obtain ⟨_, hpoint⟩ := hown
          cases hpoint
          simp [Program.step, hj] at hnext
    | cons f rest =>
      have hruns := step_run_killing hj hkilling
      obtain ⟨sys', frames, hnext, -⟩ := hruns .go
      refine .goesOn ⟨.session (.run j .go), _, ⟨err, rfl⟩,
        by simp only [Entry.step, hnext]; rfl⟩ ?_
      intro act e' hown hstep
      have hkept' := step_kept hkept hown.rotatesReturned hstep
      cases act with
      | call => exact hown.elim
      | run c =>
        cases c with
        | go => simp [Entry.step, Entry.checkout, hj] at hstep
        | configured _ | failed => cases hstep
      | session a =>
        obtain ⟨_, sys', hsys, hnext, rfl⟩ := step_session hstep
        cases hsys
        cases a with
        | call _ | outside _ => exact hown.elim
        | run i c =>
          obtain ⟨_, hpoint⟩ := hown
          cases hpoint
          obtain ⟨_, frames', hran, hj', hless⟩ := hruns c
          obtain rfl := Except.ok.inj (hran.symm.trans hnext)
          exact ih _ (hleft ▸ hless) hkept' hj' rfl

/-- `Checkout` is before its end on a closed pool, and goes on to points from which it fails. -/
theorem fails_of_run (hgoes : ∃ c e', e.step true (.run c) = .ok e')
    (hopen : ∀ j err, e.point ≠ .closing j err)
    (hfails : ∀ c e', e.step true (.run c) = .ok e' → Fails e') : Fails e := by
  obtain ⟨c, e', hstep⟩ := hgoes
  refine .goesOn ⟨.run c, e', trivial, hstep⟩ fun act e' hown hstep => ?_
  cases act with
  | call => exact hown.elim
  | run c => exact hfails c e' hstep
  | session a =>
    cases a with
    | call _ | outside _ => exact hown.elim
    | run i c =>
      obtain ⟨err, hpoint⟩ := hown
      exact absurd hpoint (hopen i err)

theorem fails_kill {point : Point E} (htold : Told sys) (hun : Unrotated sys) (err : Refusal E) :
    Fails (Entry.kill ⟨point, some sys, false⟩ sys err) :=
  fails_closing (kept_kill htold hun err) List.getElem?_concat_length

theorem fails_track (htold : Told sys) (hun : Unrotated sys) :
    Fails (⟨.track, some sys, false⟩ : Entry E V) := by
  refine fails_of_run ⟨.go, _, rfl⟩ nofun fun c e' hstep => ?_
  cases c with
  | configured _ | failed => cases hstep
  | go =>
    cases hstep
    exact fails_kill htold hun _

theorem fails_register (htold : Told sys) (hun : Unrotated sys) :
    Fails (⟨.register, some sys, false⟩ : Entry E V) := by
  refine fails_of_run ⟨.go, _, rfl⟩ nofun fun c e' hstep => ?_
  cases c with
  | configured _ => cases hstep
  | go =>
    cases hstep
    exact fails_track htold hun
  | failed =>
    cases hstep
    exact fails_kill htold hun _

theorem fails_dial (p : StopPolicy E) : Fails (⟨.dial p, none, false⟩ : Entry E V) := by
  refine fails_of_run ⟨.go, _, rfl⟩ nofun fun c e' hstep => ?_
  cases c with
  | configured _ => cases hstep
  | go =>
    cases hstep
    exact fails_register (told_initial p) (unrotated_initial p)
  | failed =>
    cases hstep
    exact .failed _ rfl

theorem fails_configure : Fails (⟨.configure, none, false⟩ : Entry E V) := by
  refine fails_of_run ⟨.failed, _, rfl⟩ nofun fun c e' hstep => ?_
  cases c with
  | go => cases hstep
  | configured p =>
    cases hstep
    exact fails_dial p
  | failed =>
    cases hstep
    exact .failed _ rfl

theorem fails_start : Fails (⟨.start, none, false⟩ : Entry E V) := by
  refine fails_of_run ⟨.go, _, rfl⟩ nofun fun c e' hstep => ?_
  cases c with
  | configured _ => cases hstep
  | go | failed =>
    cases hstep
    exact .failed _ rfl

/-- A call of `Checkout` that a closed pool has not handed a session to returns an error. -/
theorem Kept.fails (hkept : Kept e) (hidle : e.point ≠ .idle) (hreturned : e.point ≠ .returned) :
    Fails e := by
  cases hkept with
  | idle => exact absurd rfl hidle
  | returned _ _ => exact absurd rfl hreturned
  | refused err | failed err _ _ _ => exact .failed err rfl
  | closing err htold hun hj hkilling => exact fails_closing (.closing err htold hun hj hkilling) hj
  | track htold hun => exact fails_track htold hun
  | register htold hun => exact fails_register htold hun
  | dial p => exact fails_dial p
  | configure => exact fails_configure
  | start => exact fails_start

/-! ## The pool -/

/-- What a pool keeps over its steps. -/
structure PoolKept (st : PoolState E V) : Prop where
  entries : ∀ n, Kept (st.entry n)
  taken : ∀ t, st.taken = some t → st.closed = true ∧ ∀ n,
    ((st.entry n).point = .returned → (t n).point = .returned) ∧
      ((t n).point = .returned → (t n).tracked ∨ (t n).terminal)

/-- A rotation is begun only on a session that `Checkout` has returned. -/
def RotatesReturned (st : PoolState E V) : PoolAct E V → Prop
  | .entry n a => (st.entry n).RotatesReturned a
  | _ => True

variable {st st' : PoolState E V}

theorem stepEntry_kept (hkept : PoolKept st) {n : ℕ} (ha : (st.entry n).RotatesReturned act)
    (hstep : st.stepEntry n act = .ok st') :
    PoolKept st' := by
  simp only [PoolState.stepEntry] at hstep
  split at hstep
  · rename_i e he
    cases hstep
    refine ⟨fun i => ?_, fun t ht => ?_⟩
    · by_cases hi : i = n
      · subst hi
        simpa using step_kept (hkept.entries i) ha he
      · simpa [hi] using hkept.entries i
    · obtain ⟨hclosed, hall⟩ := hkept.taken t ht
      refine ⟨hclosed, fun i => ⟨fun hreturned => ?_, (hall i).2⟩⟩
      by_cases hi : i = n
      · subst hi
        simp only [Function.update_self] at hreturned
        rw [hclosed] at he
        exact (hall i).1 (step_returned he hreturned)
      · simp only [Function.update_of_ne hi] at hreturned
        exact (hall i).1 hreturned
  · cases hstep

theorem Kept.known (hkept : Kept e) (hreturned : e.point = .returned) : e.tracked ∨ e.terminal := by
  cases hkept with
  | returned htold hknown => simpa [Entry.terminal] using hknown
  | _ => cases hreturned

theorem step_poolKept {act : PoolAct E V} (hkept : PoolKept st) (ha : RotatesReturned st act)
    (hstep : st.step act = .ok st') : PoolKept st' := by
  cases act with
  | entry n act => exact stepEntry_kept hkept ha hstep
  | close =>
    cases hstep
    exact ⟨hkept.entries, fun t ht => ⟨rfl, (hkept.taken t ht).2⟩⟩
  | shutdown =>
    cases hstep
    refine ⟨hkept.entries, fun t ht => ?_⟩
    cases ht
    exact ⟨rfl, fun n => ⟨id, (hkept.entries n).known⟩⟩
  | closeTaken n policy =>
    simp only [PoolState.step] at hstep
    split at hstep
    · have hclose : NoRotation (.call (closeFrame policy) : Act E V) := by
        cases policy <;> simp [closeFrame, NoRotation]
      have hreturns : (st.entry n).RotatesReturned (.session (.call (closeFrame policy))) :=
        .inr hclose
      exact stepEntry_kept hkept hreturns hstep
    · cases hstep

theorem reaches_poolKept (hreach : PoolReaches RotatesReturned st) : PoolKept st := by
  refine hreach.invariant ?_ fun _ _ _ hkept ha hstep => step_poolKept hkept ha hstep
  rintro _ rfl
  exact ⟨fun _ => .idle, nofun⟩

/-- **No session escapes a shutdown**: in every run in which rotations begin only on sessions that
`Checkout` has returned, a session that `Checkout` returned is in the set that `Shutdown` took or
had ended when it took it; and a call of `Checkout` that had not tracked its session then returns
no session, goes on by itself until it returns an error, and leaves its session without a lease. -/
theorem no_session_escapes_shutdown (hreach : PoolReaches RotatesReturned st)
    {t : ℕ → Entry E V} (htaken : st.taken = some t) (n : ℕ) :
    ((st.entry n).point = .returned → (t n).tracked ∨ (t n).terminal) ∧
    ((t n).point ≠ .returned → (st.entry n).point ≠ .returned ∧
      ((st.entry n).point ≠ .idle → Fails (st.entry n)) ∧
      ∀ err sys k, (st.entry n).point = .failed err → (st.entry n).session = some sys →
        sys.shared.lease k = false) := by
  obtain ⟨hentries, htakes⟩ := reaches_poolKept hreach
  obtain ⟨-, hall⟩ := htakes t htaken
  refine ⟨fun hreturned => (hall n).2 ((hall n).1 hreturned), fun hnot => ?_⟩
  have hreturned : (st.entry n).point ≠ .returned := fun h => hnot ((hall n).1 h)
  refine ⟨hreturned, fun hidle => (hentries n).fails hidle hreturned, ?_⟩
  intro err sys k hpoint hsys
  have hkept := hentries n
  generalize st.entry n = e at hkept hpoint hsys
  cases hkept with
  | failed _ htold hun hleases =>
    cases hsys
    exact hleases k
  | refused _ => cases hsys
  | _ => cases hpoint

/-- One call of `Checkout` returns its session, another has attached its own and not tracked it
when the pool is shut down, and fails. -/
def lateCheckout : List (PoolAct Unit Unit) :=
  [.entry 0 .call, .entry 0 (.run .go), .entry 0 (.run (.configured { reason := () })),
    .entry 0 (.run .go), .entry 0 (.run .go), .entry 0 (.run .go),
    .entry 1 .call, .entry 1 (.run .go), .entry 1 (.run (.configured { reason := () })),
    .entry 1 (.run .go), .shutdown, .closeTaken 0 none,
    .entry 1 (.run .go), .entry 1 (.run .go),
    .entry 1 (.session (.run 1 .go)), .entry 1 (.session (.run 1 .go)),
    .entry 1 (.session (.run 1 .go)), .entry 1 (.run .go)]

theorem no_session_escapes_shutdown_late :
    ∃ st t, run PoolState.step {} lateCheckout = .ok st ∧ st.taken = some t ∧
      (st.entry 0).point = .returned ∧ ((t 0).tracked ∨ (t 0).terminal) ∧
      (t 1).point = .register ∧ (st.entry 1).point = .failed .poolClosed ∧
      ∃ sys, (st.entry 1).session = some sys ∧ ∀ k, sys.shared.lease k = false := by
  obtain ⟨st, hrun, t, htaken, hreturned, hregister, hfailed, sys, hsys⟩ :
      ∃ st, run PoolState.step {} lateCheckout = .ok st ∧ ∃ t, st.taken = some t ∧
        (st.entry 0).point = .returned ∧ (t 1).point = .register ∧
        (st.entry 1).point = .failed .poolClosed ∧ ∃ sys, (st.entry 1).session = some sys :=
    ⟨_, rfl, _, rfl, rfl, rfl, rfl, _, rfl⟩
  have hguarded : Guarded PoolState.step RotatesReturned {} lateCheckout := by
    repeat
      refine ⟨by first | exact trivial | exact .inr nofun, ?_⟩
      rintro _ ⟨⟩
    exact trivial
  have hreach : PoolReaches RotatesReturned st := .of_guarded (.initial rfl) _ hguarded hrun
  have hlate := (no_session_escapes_shutdown hreach htaken 1).2 (by simp [hregister])
  exact ⟨st, t, hrun, htaken, hreturned,
    (no_session_escapes_shutdown hreach htaken 0).1 hreturned, hregister, hfailed, sys, hsys,
    fun k => hlate.2.2 _ sys k hfailed hsys⟩

/-- The timer that `attach` set begins a rotation while the host is being registered; the pool is
shut down, `Checkout` fails and kills its session, and then the rotation attaches the checkout it
has bound. -/
def rotatedCheckout : List (PoolAct Unit Unit) :=
  [.entry 0 .call, .entry 0 (.run .go), .entry 0 (.run (.configured { reason := () })),
    .entry 0 (.run .go),
    .entry 0 (.session (.call .reserveRotation)), .entry 0 (.session (.run 1 .go)),
    .entry 0 (.session (.run 1 .go)), .entry 0 (.session (.run 1 .go)),
    .entry 0 (.session (.run 1 .go)),
    .shutdown, .entry 0 (.run .go), .entry 0 (.run .go),
    .entry 0 (.session (.run 2 .go)), .entry 0 (.session (.run 2 .go)),
    .entry 0 (.session (.run 2 .go)), .entry 0 (.run .go),
    .entry 0 (.session (.run 1 .go)), .entry 0 (.session (.run 1 .go)),
    -- The watchers find the session ended.
    .entry 0 (.session (.run 0 .go)), .entry 0 (.session (.run 3 .go))]

/-- **A lease that a failed checkout leaves**: `Checkout` has returned its error, every goroutine
of its session has returned, and the session has a worker. -/
theorem lease_left_by_checkout :
    ∃ st t sys, run PoolState.step {} rotatedCheckout = .ok st ∧ st.taken = some t ∧
      (t 0).point = .register ∧ (st.entry 0).point = .failed .poolClosed ∧
      (st.entry 0).session = some sys ∧ sys.frames = [] ∧ sys.shared.lease sys.shared.co = true :=
  ⟨_, _, _, rfl, rfl, rfl, rfl, rfl, rfl, rfl⟩

end Montygo.Lifecycle
