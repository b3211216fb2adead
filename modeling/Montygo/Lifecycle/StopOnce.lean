import Montygo.Lifecycle.Terminal

/-!
# How a stop is resolved

The kill timer, the abort and the end of an execution can each resolve its stop, and
`forceExecution` claims a kill in one section and resolves it in another.  `finishExecution` and
`forceExecution` look at the claim before they resolve.  `abortExecution` does not: it looks at
the terminal cause once, and resolves the stop as finished at its end whatever came between.
-/

namespace Montygo.Lifecycle

open Threads Transition Session

variable {E V : Type} {s s' : Session E V} {e : ℕ}

/-! ## What a step does to a stop -/

/-- The stop with one more resolution. -/
def StopRequest.resolve (req : StopRequest E) (kind : StopKind) : StopRequest E :=
  { req with kind := kind, resolvedOnce := true, resolved := req.resolved + 1 }

/-- What a step at the frame `f` does to the stop of the execution `e`. -/
inductive StopStep (s : Session E V) (f : Frame E V) (e : ℕ) (s' : Session E V) : Prop where
  | kept (h : StopKept (s.execution e).stop (s'.execution e).stop)
  | fresh (h : (s'.execution e).stop = none)
  | resolves (req : StopRequest E) (kind : StopKind) (hstop : (s.execution e).stop = some req)
      (hopen : req.resolvedOnce = false)
      (hwho : req.forceClaimed = false ∨ f = .abortResolve e ∧ kind = .finished ∨
        f = .forceResolve e ∧ kind = .killed)
      (h : (s'.execution e).stop = some (req.resolve kind))
  | claims (req : StopRequest E) (hf : f = .forceExecution e)
      (hstop : (s.execution e).stop = some req) (hopen : req.resolvedOnce = false)
      (hclaimed : req.forceClaimed = false) (hterminal : s'.terminal.isSome)
      (h : (s'.execution e).stop = some { req with forceClaimed := true, kind := .killed })

variable {f : Frame E V} {req : StopRequest E}

/-- A change of one execution does to its stop what it does, and nothing to another's. -/
theorem StopStep.put {e' : ℕ} {x : Execution E V} (hs' : s'.execution = (s.put e' x).execution)
    (hx : x.stop = (s.execution e').stop) :
    StopStep s f e s' := by
  refine .kept ?_
  rw [hs', put_execution]
  split_ifs with he
  · rw [he, hx]
    exact .refl _
  · exact .refl _

theorem stopStep_resolve {e' : ℕ} {kind : StopKind}
    (hwho : ∀ req, (s.execution e').stop = some req → req.forceClaimed = false ∨
      f = .abortResolve e' ∧ kind = .finished ∨ f = .forceResolve e' ∧ kind = .killed) :
    StopStep s f e (s.resolveStopLocked e' kind) := by
  rcases s.resolveStopLocked_cases e' kind with h | ⟨req, hstop, hopen, h⟩
  · rw [h]
    exact .kept (.refl _)
  · rw [h]
    by_cases he : e = e'
    · subst he
      exact .resolves req kind hstop hopen (hwho req hstop) (by simp [StopRequest.resolve])
    · exact .kept (by simp [put_execution, he, StopKept])

theorem StopStep.congr {t : Session E V} (hsame : (t.execution e).stop = (s.execution e).stop)
    (h : StopStep t f e s') :
    StopStep s f e s' := by
  cases h with
  | kept h => exact .kept (hsame ▸ h)
  | fresh h => exact .fresh h
  | resolves req kind hstop hopen hwho h =>
    exact .resolves req kind (hsame ▸ hstop) hopen hwho h
  | claims req hf hstop hopen hclaimed hterminal h =>
    exact .claims req hf (hsame ▸ hstop) hopen hclaimed hterminal h

theorem stopStep_finish (e' : ℕ) (v : Option V) (err : Option (Err E)) :
    StopStep s f e (s.finishExecution e' v err) := by
  have hput (g : Execution E V → Execution E V) (hg : ∀ x, (g x).stop = x.stop)
      (current : Option ℕ) : (({ s with current := current }.modify e' g).execution e).stop =
        (s.execution e).stop := by
    rw [Session.modify, put_execution]
    split_ifs with he
    · rw [he, hg]
    · rfl
  simp only [Session.finishExecution]
  split
  · exact .kept (.refl _)
  split
  · rename_i hany
    refine StopStep.congr ?_ (stopStep_resolve fun req hreq => .inl ?_)
    · apply hput
      exact fun _ => rfl
    have hstop : (s.execution e').stop = some req := by simpa [Session.modify] using hreq
    rw [hstop] at hany
    simpa using (Bool.and_eq_true_iff.mp hany).2
  · refine .kept (.inl (congrArg _ ?_))
    apply hput
    exact fun _ => rfl

/-- **What a step can do to a stop**: leave it, register it, resolve it or claim its kill. -/
theorem effect_stop (h : Effect s f s') : StopStep s f e s' := by
  cases h with
  | nothing => exact .kept (.refl _)
  | @touched e' x abort htouched =>
    refine .kept ?_
    rw [put_execution]
    split_ifs with he
    · exact he ▸ htouched.stop
    · exact .refl _
  | @reserved e' _ hreserve =>
    obtain ⟨-, -, -, rfl⟩ := reserveExecution_eq_ok hreserve
    by_cases he : e = e'
    · exact .fresh (by simp [he])
    · exact .kept (by simp [put_execution, he, StopKept])
  | claimed _ hclaim =>
    obtain ⟨-, rfl⟩ := claimSnapshot_eq_ok hclaim
    exact StopStep.put rfl rfl
  | paused hpause =>
    obtain ⟨-, rfl⟩ := publishPause_eq_ok hpause
    exact StopStep.put rfl rfl
  | controlled hreserve =>
    rcases reserveControlFor_eq_ok hreserve with ⟨-, -, -, -, rfl⟩ | ⟨e', -, -, -, -, -, rfl⟩
    · exact .kept (.refl _)
    · exact StopStep.put rfl rfl
  | @released r _ =>
    rcases s.releaseControl_cases r with ⟨-, h⟩ | ⟨e', cause, -, -, h⟩ | ⟨e', -, -, -, h⟩ |
      ⟨e', -, -, -, h⟩
    · rw [h]
      exact .kept (.refl _)
    all_goals
      rw [h]
      exact StopStep.put rfl rfl
  | finished e' v err => exact stopStep_finish e' v err
  | resolved hf => exact stopStep_resolve fun _ _ => .inr hf
  | @terminated err _ =>
    rcases s.terminateSession_cases err with ⟨-, h⟩ | ⟨e', -, -, h⟩ | ⟨e', -, -, h⟩
    · rw [h]
      exact .kept (by simp [StopKept])
    all_goals
      rw [h]
      exact StopStep.congr (by simp) (StopStep.put rfl (by simp))
  | @forced e' early hf =>
    rcases s.forceExecution_cases e' early with h | h | ⟨req, hstop, hclaimed, h⟩ |
      ⟨req, hstop, hopen, hclaimed, -, -, -, -, h⟩
    · rw [h]
      exact .kept (.refl _)
    · rw [h]
      exact .kept (.refl _)
    · rw [h]
      refine stopStep_resolve fun req' hstop' => .inl ?_
      cases hstop.symm.trans hstop'
      exact hclaimed
    · rw [h]
      by_cases he : e = e'
      · subst he
        exact .claims req hf hstop hopen hclaimed (by simp) (by simp)
      · exact .kept (by simp [put_execution, he, StopKept])
  | closing hclose =>
    obtain rfl := close_eq_some hclose
    exact .kept (.refl _)
  | owned =>
    rcases s.closeOwned_cases with h | h | ⟨-, -, h⟩ | ⟨e', -, -, h⟩
    · rw [h]
      exact .kept (.refl _)
    · rw [h]
      exact .kept (.refl _)
    · rw [h]
      exact .kept (.refl _)
    · rw [h]
      exact StopStep.put rfl rfl
  | ended _ | bound _ | attached _ | freed | settled _ => exact .kept (.refl _)

/-! ## Resolved once -/

/-- The channel of a stop was closed once if it is resolved, and else never. -/
def CountsOnce (s : Session E V) : Prop :=
  ∀ e req, (s.execution e).stop = some req → req.resolved = if req.resolvedOnce then 1 else 0

theorem StopKept.standing {before : Option (StopRequest E)} (h : StopKept before (some req)) :
    req.standing = (.pending, false, false, 0) ∨
      ∃ old, before = some old ∧ req.standing = old.standing := by
  rcases h with h | ⟨-, h⟩
  · obtain ⟨old, hold, hstanding⟩ := Option.map_eq_some_iff.mp h.symm
    exact .inr ⟨old, hold, hstanding.symm⟩
  · exact .inl (Option.some.inj h)

theorem effect_countsOnce (h : Effect s f s') (hs : CountsOnce s) : CountsOnce s' := by
  intro e req hreq
  cases effect_stop (e := e) h with
  | kept hkept =>
    rw [hreq] at hkept
    rcases hkept.standing with hnew | ⟨old, hold, hsame⟩
    · simp only [StopRequest.standing, Prod.mk.injEq] at hnew
      simp [hnew]
    · simp only [StopRequest.standing, Prod.mk.injEq] at hsame
      rw [hsame.2.2.2, hsame.2.1]
      exact hs e old hold
  | fresh hnone => simp [hnone] at hreq
  | resolves old kind hstop hopen _ hresolve =>
    cases hreq.symm.trans hresolve
    have hcount := hs e old hstop
    simp [StopRequest.resolve, hcount, hopen]
  | claims old _ hstop hopen _ _ hclaim =>
    cases hreq.symm.trans hclaim
    simpa using hs e old hstop

/-! ## Claimed kills -/

/-- The execution whose failed abort has passed its check of the terminal cause and has not
resolved the stop yet. -/
def Frame.abortFailing : Frame E V → Option ℕ
  | .abortFailed e => some e
  | .abortResolve e => some e
  | _ => none

/-- The execution whose claimed kill a goroutine is carrying out. -/
def Frame.killing : Frame E V → Option ℕ
  | .forceCheckout e => some e
  | .forceUntrack e => some e
  | .forceResolve e => some e
  | _ => none

variable {sys sys' : System E V} {a : Act E V}

/-- The step claims the kill of `e`. -/
def ClaimsKill (sys : System E V) (a : Act E V) (e : ℕ) : Prop :=
  ∃ i c cause, a = .run i c ∧ sys.top i = some (.forceExecution e) ∧ c ≠ .refused ∧
    (sys.shared.forceExecution e false).2 = .claimed cause

/-- No kill is claimed while the abort of the execution is failing. -/
def ClaimsApart (sys : System E V) (a : Act E V) : Prop :=
  ∀ e, ClaimsKill sys a e → ∀ f ∈ sys.frames, f.abortFailing ≠ some e

theorem resolveStopLocked_resolved {kind : StopKind}
    (h : ((s.resolveStopLocked e kind).execution e).stop = some req) : req.resolvedOnce = true := by
  unfold Session.resolveStopLocked at h
  split at h
  · rename_i hnone
    simp [hnone] at h
  · rename_i old hold
    split_ifs at h with hresolved
    · cases hold.symm.trans h
      exact hresolved
    · simp only [Session.modify, put_execution_self, Option.some.injEq] at h
      rw [← h]

/-- A step that claims a kill is one of `forceExecution` at its deadline, and goes on to the
worker. -/
theorem advance_claims {c : Choice E V} {m : Outcome E V} {old : StopRequest E}
    (hm : advance s (.forceExecution e) c = some m) (hold : (s.execution e).stop = some old)
    (hbefore : old.forceClaimed = false) (hreq : (m.shared.execution e).stop = some req)
    (hafter : req.forceClaimed = true) :
    (c ≠ .refused ∧ ∃ cause, (s.forceExecution e false).2 = .claimed cause) ∧
      .forceCheckout e ∈ m.fresh := by
  have hclaims (early : Bool) (hshared : m.shared = (s.forceExecution e early).1) :
      early = false ∧ ∃ cause, s.forceExecution e early = (m.shared, .claimed cause) := by
    rcases s.forceExecution_cases e early with h | h | ⟨_, -, -, h⟩ |
      ⟨_, -, -, -, -, -, -, hearly, h⟩
    · rw [h] at hshared
      rw [hshared, hold] at hreq
      cases hreq
      simp [hbefore] at hafter
    · rw [h] at hshared
      rw [hshared, hold] at hreq
      cases hreq
      simp [hbefore] at hafter
    · rw [h] at hshared
      rw [hshared] at hreq
      rcases s.resolveStopLocked_cases e .finished with hsame | ⟨r, hr, -, hresolve⟩
      · rw [hsame, hold] at hreq
        cases hreq
        simp [hbefore] at hafter
      · cases hold.symm.trans hr
        rw [hresolve] at hreq
        simp only [put_execution_self, Option.some.injEq] at hreq
        simp [← hreq, hbefore] at hafter
    · rw [h] at hshared
      exact ⟨hearly, _, by rw [h, hshared]⟩
  have hforced (early : Bool) (hforced : m = forced e (s.forceExecution e early)) :
      m.shared = (s.forceExecution e early).1 := by
    rw [hforced]
    unfold forced
    split <;> simp_all
  simp only [advance] at hm
  split at hm
  · cases (hclaims true (hforced true (Option.some.inj hm).symm)).1
  rename_i hrefused
  obtain ⟨-, cause, hclaim⟩ := hclaims false (hforced false (Option.some.inj hm).symm)
  refine ⟨⟨hrefused, cause, by rw [hclaim]⟩, ?_⟩
  rw [← Option.some.inj hm, hclaim]
  simp [forced, Move.fresh]

/-- The frames of a failing abort come from one, or from the check when the session is not
terminal. -/
theorem Follows.abortFailing {g : Frame E V} (h : Follows s f g)
    (hfailing : g.abortFailing = some e) :
    f.abortFailing = some e ∨ f = .abortCheck e ∧ s.terminal = none := by
  cases h with
  | abortFailed hterminal =>
    cases hfailing
    exact .inr ⟨rfl, hterminal⟩
  | abortFailedAgain | abortResolve => exact .inl hfailing
  | other hother =>
    cases g with
    | abortFailed e' | abortResolve e' => cases hother
    | _ => cases hfailing
  | _ => cases hfailing

theorem claimed_before {c : Choice E V} {m : Outcome E V} (hm : advance s f c = some m)
    (hreq : (m.shared.execution e).stop = some req) (hclaimed : req.forceClaimed = true) :
    (∃ old, (s.execution e).stop = some old ∧ old.forceClaimed = true ∧
      (req.standing = old.standing ∨ old.resolvedOnce = false ∧ ∃ kind, req = old.resolve kind ∧
        (f = .abortResolve e ∨ kind = .killed))) ∨
    (f = .forceExecution e ∧ req.kind = .killed ∧ m.shared.terminal.isSome ∧
      (c ≠ .refused ∧ ∃ cause, (s.forceExecution e false).2 = .claimed cause) ∧
      .forceCheckout e ∈ m.fresh) := by
  cases effect_stop (e := e) (advance_effect hm) with
  | kept hkept =>
    rw [hreq] at hkept
    rcases hkept.standing with hnew | ⟨old, hold, hsame⟩
    · simp [StopRequest.standing, hclaimed] at hnew
    have hold' : old.forceClaimed = true := by
      rw [← hclaimed]
      exact (congrArg (·.2.2.1) hsame).symm
    exact .inl ⟨old, hold, hold', .inl hsame⟩
  | fresh hnone => simp [hnone] at hreq
  | resolves old kind hstop hopen hwho hresolve =>
    cases hreq.symm.trans hresolve
    have hold' : old.forceClaimed = true := hclaimed
    refine .inl ⟨old, hstop, hold', .inr ⟨hopen, kind, rfl, ?_⟩⟩
    rcases hwho with hwho | ⟨hf, -⟩ | ⟨-, hkind⟩
    · simp [hold'] at hwho
    · exact .inl hf
    · exact .inr hkind
  | claims old hf hstop _ hbefore hterminal hclaim =>
    subst hf
    cases hreq.symm.trans hclaim
    exact .inr ⟨rfl, rfl, hterminal, advance_claims hm hstop hbefore hreq rfl⟩

/-- The frame `g` is not of a failing abort whose execution has its kill claimed. -/
def Apart (s : Session E V) (g : Frame E V) : Prop :=
  ∀ e, g.abortFailing = some e → ∀ req, (s.execution e).stop = some req → req.forceClaimed = false

/-- A claimed kill that is not resolved yet. -/
def KillOpen (e : ℕ) (s : Session E V) : Prop :=
  ∃ req, (s.execution e).stop = some req ∧ req.forceClaimed = true ∧ req.resolvedOnce = false

/-- A claimed kill ends the session, stands as a kill, has no failing abort beside it, and is
resolved by the goroutine that claimed it. -/
structure KillsStand (sys : System E V) : Prop where
  terminal : ∀ e req, (sys.shared.execution e).stop = some req → req.forceClaimed = true →
    sys.shared.terminal.isSome
  killed : ∀ e req, (sys.shared.execution e).stop = some req → req.forceClaimed = true →
    req.kind = .killed
  apart : ∀ g ∈ sys.frames, Apart sys.shared g
  pays : ∀ e, KillOpen e sys.shared → ∃ g ∈ sys.frames, g.killing = some e

section Step

variable (hended : Ended sys.shared) (hstand : KillsStand sys)
  (hstep : (program E V).step sys a = .ok sys')

include hended hstand hstep

theorem step_terminal : ∀ e req, (sys'.shared.execution e).stop = some req →
    req.forceClaimed = true → sys'.shared.terminal.isSome := by
  refine step_shared (P := fun s' => ∀ e req, (s'.execution e).stop = some req →
    req.forceClaimed = true → s'.terminal.isSome) hstep ?_ (fun _ => hstand.terminal)
    hstand.terminal
  intro f others m hran e req hreq hclaimed
  obtain ⟨c, hm⟩ := hran.advance
  rcases claimed_before hm hreq hclaimed with ⟨old, hold, hold', -⟩ | ⟨-, -, hset, -⟩
  · obtain ⟨cause, hcause⟩ := Option.isSome_iff_exists.mp (hstand.terminal e old hold hold')
    have hkeeps := (effect_ended (advance_effect hm) hended).2
    simp [hkeeps.terminal cause hcause]
  · exact hset

omit hended

theorem step_killed : ∀ e req, (sys'.shared.execution e).stop = some req →
    req.forceClaimed = true → req.kind = .killed := by
  refine step_shared (P := fun s' => ∀ e req, (s'.execution e).stop = some req →
    req.forceClaimed = true → req.kind = .killed) hstep ?_ (fun _ => hstand.killed) hstand.killed
  intro f others m hran e req hreq hclaimed
  obtain ⟨c, hm⟩ := hran.advance
  rcases claimed_before hm hreq hclaimed with
    ⟨old, hold, hold', hsame | ⟨-, kind, rfl, rfl | hkind⟩⟩ | ⟨-, hkind, -⟩
  · exact (congrArg (·.1) hsame).trans (hstand.killed e old hold hold')
  · -- The abort that resolves is not there while the kill is claimed.
    simp [hstand.apart _ hran.mem e rfl old hold] at hold'
  · exact hkind
  · exact hkind

theorem step_apart (hapart : ClaimsApart sys a) : ∀ g ∈ sys'.frames, Apart sys'.shared g := by
  refine step_frames hstep ?_ ?_ (fun _ => hstand.apart) hstand.apart
  · intro f hf e hfailing
    cases f with
    | abortFailed e' | abortResolve e' => cases hf
    | _ => cases hfailing
  · intro f others m hran
    obtain ⟨i, c, ha, htop, hm⟩ := hran.acts
    change advance sys.shared f c = some m at hm
    -- A stop that is claimed now has no failing abort among the frames of before.
    have hnone (e : ℕ) (req : StopRequest E) (hreq : (m.shared.execution e).stop = some req)
        (hclaimed : req.forceClaimed = true) (g : Frame E V) (hg : g ∈ sys.frames) :
        g.abortFailing ≠ some e := by
      intro hfailing
      rcases claimed_before hm hreq hclaimed with ⟨old, hold, hold', -⟩ |
        ⟨rfl, -, -, ⟨hrefused, cause, hcause⟩, -⟩
      · simp [hstand.apart g hg e hfailing old hold] at hold'
      · exact hapart e ⟨i, c, cause, ha, htop, hrefused, hcause⟩ g hg hfailing
    refine ⟨fun g hg e hfailing req hreq => ?_, fun g hg e hfailing req hreq => ?_⟩
    · cases hclaimed : req.forceClaimed with
      | false => rfl
      | true => exact absurd hfailing (hnone e req hreq hclaimed g (hran.mem_others hg))
    · cases hclaimed : req.forceClaimed with
      | false => rfl
      | true =>
        rcases (advance_follows hm hg).abortFailing hfailing with hf | ⟨rfl, hterminal⟩
        · exact absurd hf (hnone e req hreq hclaimed f hran.mem)
        -- The check found the session not terminal, so no kill was claimed.
        rcases claimed_before hm hreq hclaimed with ⟨old, hold, hold', -⟩ | ⟨hf, -⟩
        · simpa [hterminal] using hstand.terminal e old hold hold'
        · cases hf

theorem step_pays : ∀ e, KillOpen e sys'.shared → ∃ g ∈ sys'.frames, g.killing = some e := by
  intro e
  refine step_debt (D := KillOpen e) hstep ?_ (fun _ h => h) (hstand.pays e)
  rintro f others m hran ⟨req, hreq, hclaimed, hopen⟩
  obtain ⟨c, hm⟩ := hran.advance
  by_cases hpays : f.killing = some e
  · -- The goroutine that kills goes on to its resolution.
    left
    cases f with
    | forceCheckout e' =>
      cases hpays
      cases hm
      exact ⟨.forceUntrack e, by simp [Move.fresh], rfl⟩
    | forceUntrack e' =>
      cases hpays
      cases hm
      exact ⟨.forceResolve e, by simp [Move.fresh], rfl⟩
    | forceResolve e' =>
      cases hpays
      cases hm
      simp [resolveStopLocked_resolved hreq] at hopen
    | _ => cases hpays
  · rcases claimed_before hm hreq hclaimed with
      ⟨old, hold, hold', hsame | ⟨-, kind, rfl, -⟩⟩ | ⟨-, -, -, -, hcheckout⟩
    · have hopen' : old.resolvedOnce = false := by
        rw [← hopen]
        exact (congrArg (·.2.1) hsame).symm
      exact .inr ⟨⟨old, hold, hold', hopen'⟩, hpays⟩
    · cases hopen
    · exact .inl ⟨_, hcheckout, rfl⟩

end Step

theorem reaches_killsStand (hreach : Reaches ClaimsApart sys) : KillsStand sys := by
  have hboth : Ended sys.shared ∧ KillsStand sys := by
    refine hreach.invariant (P := fun sys => Ended sys.shared ∧ KillsStand sys) ?_ ?_
    · rintro _ ⟨p, rfl⟩
      refine ⟨ended_initial p, ?_, ?_, ?_, ?_⟩
      · simp [initial]
      · simp [initial]
      · simp [initial, Config.frames, Apart, Frame.abortFailing]
      · simp [initial, KillOpen]
    · rintro sys a sys' ⟨hended, hstand⟩ hapart hstep
      exact ⟨(step_ended hended hstep).1, step_terminal hended hstand hstep,
        step_killed hstand hstep, step_apart hstand hstep hapart, step_pays hstand hstep⟩
  exact hboth.2

theorem reaches_countsOnce {guard : System E V → Act E V → Prop} (hreach : Reaches guard sys) :
    CountsOnce sys.shared := by
  refine hreach.invariant (P := fun sys => CountsOnce sys.shared) ?_ ?_
  · rintro _ ⟨p, rfl⟩
    simp [initial, CountsOnce]
  · intro sys a sys' hcounts _ hstep
    refine step_shared hstep (fun f others m hran => ?_) (fun k => hcounts) hcounts
    obtain ⟨c, hm⟩ := hran.advance
    exact effect_countsOnce (advance_effect hm) hcounts

/-- **A stop is resolved once, and a claimed kill as killed**: in every state that is reached the
channel of a stop was closed once if it is resolved and else never.  In every run in which no kill
is claimed while an abort of the same execution stands between its check of the terminal cause and
its last section, a stop whose kill was claimed is resolved as killed, or the goroutine that
claimed it is about to. -/
theorem stop_resolved_once : (∀ sys : System E V, Reaches (fun _ _ => True) sys → ∀ e req,
      (sys.shared.execution e).stop = some req →
      req.resolved = if req.resolvedOnce then 1 else 0) ∧
    ∀ sys : System E V, Reaches ClaimsApart sys → ∀ e req,
      (sys.shared.execution e).stop = some req → req.forceClaimed = true →
      if req.resolvedOnce then req.kind = .killed
      else ∃ f ∈ sys.frames, f.killing = some e := by
  refine ⟨fun sys hreach => reaches_countsOnce hreach, fun sys hreach e req hreq hclaimed => ?_⟩
  have hstand := reaches_killsStand hreach
  split_ifs with hresolved
  · exact hstand.killed e req hreq hclaimed
  · exact hstand.pays e ⟨req, hreq, hclaimed, by simpa using hresolved⟩

theorem claimsApart_of_none (h : sys.frames.all fun f => f.abortFailing.isNone) :
    ClaimsApart sys a := by
  intro e _ f hf hfailing
  have := List.all_eq_true.mp h f hf
  simp [hfailing] at this

/-- A feed that is stopped and does not answer until its kill deadline. -/
def killedFeed : List (Act Unit Unit) :=
  [.call .reserveExecution, .run 1 .go, .run 1 (.beginSend false),
    .call (.requestStop 1 { reason := () }), .run 2 .ended, .run 3 .go, .run 3 .go, .run 3 .go,
    .run 3 .go, .run 3 .go]

/-- Its stop is resolved as killed. -/
theorem stop_resolved_once_killedFeed :
    ∃ sys req, run (program Unit Unit).step (initial { reason := () }) killedFeed = .ok sys ∧
      (sys.shared.execution 1).stop = some req ∧ req.forceClaimed = true ∧ req.resolved = 1 ∧
      req.kind = .killed := by
  obtain ⟨sys, req, hrun, hstop, hclaimed, hresolved⟩ :
      ∃ sys req, run (program Unit Unit).step (initial { reason := () }) killedFeed = .ok sys ∧
        (sys.shared.execution 1).stop = some req ∧ req.forceClaimed = true ∧
        req.resolvedOnce = true := ⟨_, _, rfl, rfl, rfl, rfl⟩
  have hguarded : Guarded (program Unit Unit).step ClaimsApart (initial { reason := () })
      killedFeed := by
    repeat
      refine ⟨claimsApart_of_none (by decide), ?_⟩
      rintro _ ⟨⟩
    exact trivial
  have hreach : Reaches ClaimsApart sys := .of_guarded (.initial ⟨_, rfl⟩) _ hguarded hrun
  have hcount := stop_resolved_once.1 sys (reaches_of_run hrun) 1 req hstop
  have hkilled := stop_resolved_once.2 sys hreach 1 req hstop hclaimed
  rw [hresolved] at hcount hkilled
  exact ⟨sys, req, hrun, hstop, hclaimed, hcount, hkilled⟩

/-- A feed whose abort the worker answers with something else than its error, right before the
kill deadline. -/
def abortedAtDeadline : List (Act Unit Unit) :=
  [.call .reserveExecution, .run 1 .go, .run 1 (.beginSend false),
    .call (.requestStop 1 { reason := () }), .run 2 .ended,
    -- The driver finds the stop at a boundary and aborts.
    .run 1 .abort, .run 1 .go, .run 1 .go, .run 1 .refused,
    -- The timer of the stop fires and claims the kill.
    .run 3 .go, .run 3 .go,
    -- The abort ends the session, which has ended, and resolves the stop.
    .run 1 (.failed (.other ())), .run 1 .go, .run 1 .go, .run 1 .go, .run 1 .go,
    .run 3 .go, .run 3 .go, .run 3 .go]

/-- **A claimed kill that resolves as finished**: the abort resolves the stop between the claim
and its resolution. -/
theorem kill_resolved_as_finished :
    ∃ sys req, run (program Unit Unit).step (initial { reason := () }) abortedAtDeadline = .ok sys ∧
      (sys.shared.execution 1).stop = some req ∧ req.forceClaimed = true ∧
      sys.shared.terminal = some (.sessionKilled ()) ∧ sys.shared.lease 0 = false ∧
      req.resolvedOnce = true ∧ req.kind = .finished :=
  ⟨_, _, rfl, rfl, rfl, rfl, rfl, rfl, rfl⟩

end Montygo.Lifecycle
