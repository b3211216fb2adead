import Montygo.Lifecycle.Ownership

/-!
# Ownership and the tokens of snapshots

An abort runs on top of the driver or of `abortPaused`, which owns its execution, so the wire is
used by the one goroutine that owns the protocol.  A snapshot token is claimed under the same
mutex: the claim finds it unused, its sequence number current and its execution paused, and
nothing ever takes the mark of a claim back.
-/

namespace Montygo.Lifecycle

open Threads Transition

variable {E V : Type} {s s' : Session E V} {sys sys' : System E V} {a : Act E V}

/-! ## Aborts -/

/-- The execution an abort is about. -/
def Frame.abortsFor : Frame E V → Option Owner
  | .abortExecution e => some (.execution e)
  | .abortTurn e => some (.execution e)
  | .abortCheck e => some (.execution e)
  | .abortMark e => some (.execution e)
  | .abortFailed e => some (.execution e)
  | .abortResolve e => some (.execution e)
  | _ => none

attribute [local simp] Frame.abortsFor

abbrev AbortGrounded : List (Frame E V) → Prop := Grounded Frame.owner Frame.abortsFor

theorem abortGrounded_threads (st : Session.Started) (e : ℕ) :
    ∀ t ∈ (st.threads e : List (List (Frame E V))), AbortGrounded t := by
  intro t ht
  simp only [Session.Started.threads, List.mem_append] at ht
  rcases ht with ht | ht
  · split_ifs at ht
    · simp only [List.mem_singleton] at ht
      subst ht
      exact ⟨by simp, trivial⟩
    · cases ht
  · split_ifs at ht
    · simp only [List.mem_singleton] at ht
      subst ht
      exact ⟨by simp [Frame.owner], by simp, trivial⟩
    · cases ht

variable {f : Frame E V} {c : Choice E V} {m : Outcome E V}

theorem advance_abortsFor (hm : advance s f c = some m) (hf : ∀ e, f ≠ .drive e) :
    ∀ g ∈ m.push, g.abortsFor = none ∨ g.abortsFor = f.abortsFor := by
  cases f with
  | drive e => exact absurd rfl (hf e)
  | untrack cause paused =>
    cases hm
    cases paused <;> simp
  | closeRelease a r cause =>
    cases r <;>
      · cases hm
        simp
  | _ =>
    simp only [advance, failRotation, requested, watchStop, forced, aborting, released, closing,
      closeRound] at hm
    (repeat' split at hm) <;>
      · cases hm
        try simp

theorem advance_grounded {rest : List (Frame E V)} (hm : advance s f c = some m)
    (h : AbortGrounded (f :: rest)) :
    AbortGrounded (m.push ++ rest) := by
  by_cases hf : ∀ e, f ≠ .drive e
  · exact h.replace (advance_abortsFor hm hf)
  push Not at hf
  obtain ⟨e, rfl⟩ := hf
  -- The driver is the owner its abort works for.
  have hdrive : AbortGrounded (.drive e :: rest) := h
  simp only [advance, drive] at hm
  (repeat' split at hm) <;> cases hm
  all_goals first
  | exact hdrive
  | exact h.2
  | exact ⟨by simp [Frame.owner], hdrive⟩

theorem advance_spawn_grounded (hm : advance s f c = some m) :
    ∀ st ∈ m.spawn, AbortGrounded st := by
  have hnone (st : List (Frame E V)) (hst : st ∈ ([] : List (List (Frame E V)))) :
      AbortGrounded st := by cases hst
  have habort (e : ℕ) : AbortGrounded ([.abortExecution e, .abortPaused e] : List (Frame E V)) :=
    ⟨by simp [Frame.owner], by simp, trivial⟩
  cases f with
  | drive e =>
    simp only [advance, drive, driveOn] at hm
    (repeat' split at hm) <;> cases hm
    all_goals first
    | exact hnone
    | exact abortGrounded_threads _ e
  | requestStop e p =>
    simp only [advance, requested] at hm
    split at hm <;>
      · cases hm
        exact abortGrounded_threads _ e
  | watchStop e =>
    simp only [advance, watchStop] at hm
    (repeat' split at hm) <;> cases hm
    all_goals first
    | exact hnone
    | exact abortGrounded_threads _ e
  | releaseControl r =>
    cases hm
    unfold released
    split
    · exact hnone
    · exact hnone
    · exact fun st hst => List.mem_singleton.mp hst ▸ habort _
  | closeRelease a r cause =>
    cases r <;>
      · cases hm
        exact hnone
  | attach k =>
    cases hm
    exact fun st hst => List.mem_singleton.mp hst ▸ ⟨by simp, trivial⟩
  | closeStop a e =>
    simp only [advance] at hm
    split at hm
    · cases hm
      exact fun st hst => List.mem_singleton.mp hst ▸ ⟨by simp, trivial⟩
    · cases hm
      exact hnone
  | _ =>
    simp only [advance, failRotation, forced, aborting, closing, closeRound] at hm
    (repeat' split at hm) <;> cases hm
    all_goals exact hnone

theorem reaches_grounded {guard : System E V → Act E V → Prop} (hreach : Reaches guard sys) :
    ∀ st ∈ sys.stackOf, AbortGrounded st := by
  refine hreach.invariant (P := fun sys => ∀ st ∈ sys.stackOf, AbortGrounded st) ?_ ?_
  · rintro _ ⟨p, rfl⟩ st hst
    exact List.mem_singleton.mp hst ▸ ⟨by simp, trivial⟩
  · intro sys a sys' hsys _ hstep
    refine step_grounded hstep (fun f hf => ?_) (fun f c m rest hm => advance_grounded hm)
      (fun f c m hm => advance_spawn_grounded hm) hsys
    cases f <;> first | rfl | cases hf

/-! ## Tokens -/

/-- What a claim that succeeds found: an unused token of the current suspension of the current
execution. -/
theorem claimSnapshot_found {t : ℕ} (h : s.claimSnapshot t = .ok s') :
    (s.token t).used = false ∧ (s'.token t).used = true ∧ s.current = some (s.token t).exec ∧
      (s.token t).sequence = (s.execution (s.token t).exec).sequence ∧
      (s.execution (s.token t).exec).phase = .paused := by
  obtain ⟨hnone, rfl⟩ := Session.claimSnapshot_eq_ok h
  obtain ⟨hused, hcurrent, hsequence, hphase, -⟩ := Session.snapshotErrorLocked_eq_none.mp hnone
  exact ⟨hused, by simp, hcurrent, hsequence, hphase⟩

theorem advance_claimSnapshot {t : ℕ} (hm : advance s (.claimSnapshot t) c = some m) :
    m.shared = s ∧ m.push = [] ∨
      s.claimSnapshot t = .ok m.shared ∧ m.push = [.drive (s.token t).exec] := by
  simp only [advance] at hm
  split at hm
  · cases hm
    exact .inl ⟨rfl, rfl⟩
  · split at hm
    · rename_i hclaim
      cases hm
      exact .inr ⟨hclaim, rfl⟩
    · cases hm
      exact .inl ⟨rfl, rfl⟩

/-! ## The protocol of a session -/

/-- The goroutine works on the protocol as its owner, or aborts for the owner below. -/
def Frame.owns (f : Frame E V) : Bool := f.owner.isSome || f.abortsFor.isSome

theorem owner_of_owns {st : List (Frame E V)} (h : AbortGrounded st) (hf : f ∈ st)
    (howns : f.owns) : ∃ g ∈ st, g.owner.isSome := by
  rcases Bool.or_eq_true_iff.mp howns with ho | ho
  · exact ⟨f, hf, ho⟩
  obtain ⟨o, ho⟩ := Option.isSome_iff_exists.mp ho
  obtain ⟨g, hg, hgo⟩ := h.exists_owner hf ho
  exact ⟨g, hg, by simp [hgo]⟩

/-- **One owner, and one claim for each token**: in every state that interleaved operations reach
one goroutine at most has frames that own the protocol.  A step at a claim either leaves the
session as it was, or finds the token unused and of the current suspension of the current
execution, and marks it; no other step changes a token, so that no later claim succeeds. -/
theorem protocol_owned_once (hreach : Reaches (fun _ _ => True) sys) :
    (∀ (i j : ℕ) (st st' : List (Frame E V)) (f g : Frame E V), sys.stackOf[i]? = some st →
      sys.stackOf[j]? = some st' → f ∈ st → g ∈ st' → f.owns → g.owns → i = j) ∧
    ∀ a sys', (program E V).step sys a = .ok sys' →
      (∀ i c t, a = .run i c → sys.top i = some (.claimSnapshot t) → sys'.shared = sys.shared ∨
        (sys.shared.token t).used = false ∧ (sys'.shared.token t).used = true ∧
          sys.shared.current = some (sys.shared.token t).exec ∧
          (sys.shared.token t).sequence =
            (sys.shared.execution (sys.shared.token t).exec).sequence ∧
          (sys.shared.execution (sys.shared.token t).exec).phase = .paused ∧
          .drive (sys.shared.token t).exec ∈ sys'.frames) ∧
      ∀ t < sys.shared.tokens, sys'.shared.token t = sys.shared.token t ∨
        (sys.shared.token t).used = false ∧
          ∃ i c, a = .run i c ∧ sys.top i = some (.claimSnapshot t) := by
  have howned := reaches_owned hreach
  have hgrounded := reaches_grounded hreach
  refine ⟨?_, ?_⟩
  · intro i j st st' f g hi hj hf hg hfo hgo
    obtain ⟨f', hf', hfo'⟩ := owner_of_owns (hgrounded st (List.mem_of_getElem? hi)) hf hfo
    obtain ⟨g', hg', hgo'⟩ := owner_of_owns (hgrounded st' (List.mem_of_getElem? hj)) hg hgo
    exact howned.one.same_thread hi hj hf' hg' hfo' hgo'
  · intro a sys' hstep
    obtain ⟨f, -, -, hshared, -⟩ | ⟨f, others, m, hran, hshared, hframes⟩ |
      ⟨k, rfl, hshared, -⟩ := step_frames_cases hstep
    · exact ⟨fun _ _ _ _ _ => .inl hshared, fun _ _ => .inl (by rw [hshared])⟩
    · obtain ⟨i, c, rfl, htop, hm⟩ := hran.acts
      refine ⟨?_, ?_⟩
      · rintro i' c' t ⟨⟩ htop'
        cases htop.symm.trans htop'
        rcases advance_claimSnapshot hm with ⟨hsame, -⟩ | ⟨hclaim, hpush⟩
        · exact .inl (hshared.trans hsame)
        obtain ⟨hused, hused', hfound⟩ := claimSnapshot_found hclaim
        refine .inr ⟨hused, by rwa [hshared], hfound.1, hfound.2.1, hfound.2.2, ?_⟩
        exact hframes.mem_iff.mpr (by simp [Move.fresh, hpush])
      · intro t ht
        rw [hshared]
        rcases (effect_rest (advance_effect hm)).token ht with hsame | ⟨rfl, hclaim⟩
        · exact .inl hsame
        · exact .inr ⟨(claimSnapshot_found hclaim).1, i, c, rfl, htop⟩
    · refine ⟨?_, fun _ _ => .inl ?_⟩
      · intro i c t ha
        cases ha
      · rw [hshared]
        rfl

/-- A feed pauses, and two goroutines are about to claim its snapshot. -/
def pausedTwice : List (Act Unit Unit) :=
  [.call .reserveExecution, .run 1 .go, .run 1 .publishPause, .call (.claimSnapshot 0),
    .call (.claimSnapshot 0)]

/-- The first claim uses the token and the second leaves it. -/
theorem protocol_owned_once_pausedTwice : ∃ sys first second,
      run (program Unit Unit).step (initial { reason := () }) pausedTwice = .ok sys ∧
      (program Unit Unit).step sys (.run 2 .go) = .ok first ∧
      (program Unit Unit).step first (.run 3 .go) = .ok second ∧
      (sys.shared.token 0).used = false ∧ (first.shared.token 0).used = true ∧
      second.shared.token 0 = first.shared.token 0 := by
  obtain ⟨sys, first, second, hrun, hfirst, hsecond, hunused, htop, htokens, hclaimed⟩ :
      ∃ sys first second,
        run (program Unit Unit).step (initial { reason := () }) pausedTwice = .ok sys ∧
        (program Unit Unit).step sys (.run 2 .go) = .ok first ∧
        (program Unit Unit).step first (.run 3 .go) = .ok second ∧
        (sys.shared.token 0).used = false ∧ sys.top 2 = some (.claimSnapshot 0) ∧
        0 < first.shared.tokens ∧ (first.shared.token 0).used = true :=
    ⟨_, _, _, rfl, rfl, rfl, rfl, rfl, by decide, rfl⟩
  have hreach : Reaches (fun _ _ => True) sys := reaches_of_run hrun
  have hnext : Reaches (fun _ _ => True) first := .step hreach trivial hfirst
  have hkept := ((protocol_owned_once hnext).2 _ second hsecond).2 0 htokens
  refine ⟨sys, first, second, hrun, hfirst, hsecond, hunused, hclaimed, ?_⟩
  rcases hkept with hkept | ⟨hused, -⟩
  · exact hkept
  · simp [hclaimed] at hused

end Montygo.Lifecycle
