import Montygo.Lifecycle.Ownership

/-!
# Worker leases of an ended session

Whoever ends a session also terminates the checkout it finds in `s.co`.  A rotation gives up the
lease of the old checkout, binds a new one and attaches it, in steps between which the session can
end; the new checkout is in nobody's sight until it is attached.  As long as the session is not
terminal when that happens, every active lease of a terminal session has somebody on the way to
terminate it.
-/

namespace Montygo.Lifecycle

open Threads Transition

attribute [local simp] Session.setLease

variable {E V : Type} {s s' : Session E V} {sys sys' : System E V} {a : Act E V}

/-! ## Who ends the session -/

/-- The goroutine is about to terminate the checkout of the session. -/
def Frame.terminates : Frame E V → Bool
  | .terminateCheckout _ _ => true
  | .forceCheckout _ => true
  | _ => false

variable {f : Frame E V}

theorem advance_terminal {c : Choice E V} {m : Outcome E V} (hm : advance s f c = some m)
    (hterminal : m.shared.terminal ≠ s.terminal) :
    ∃ g ∈ m.fresh, g.terminates := by
  rcases (effect_rest (advance_effect hm)).terminal with hsame | ⟨err, rfl⟩ | ⟨e, rfl⟩
  · exact absurd hsame hterminal
  · cases hm
    exact ⟨_, List.mem_append_left _ List.mem_cons_self, rfl⟩
  · have hclaimed (early : Bool) (hm : forced e (s.forceExecution e early) = m) :
        ∃ g ∈ m.fresh, g.terminates := by
      subst hm
      rcases s.forceExecution_cases e early with h | h | ⟨req, -, -, h⟩ |
        ⟨req, -, -, -, -, -, -, -, h⟩
      · rw [h] at hterminal
        exact absurd rfl hterminal
      · rw [h] at hterminal
        exact absurd rfl hterminal
      · obtain ⟨stop, hresolve⟩ := s.resolveStopLocked_spec e .finished
        rw [h, hresolve] at hterminal
        exact absurd rfl hterminal
      · rw [h]
        exact ⟨_, List.mem_append_left _ List.mem_cons_self, rfl⟩
    simp only [advance] at hm
    split at hm <;> exact hclaimed _ (Option.some.inj hm)

/-! ## The leases somebody sees to -/

/-- The rotation is past its handoff. -/
def Frame.handedOff : Frame E V → Bool
  | .bind => true
  | .attach _ => true
  | _ => false

theorem owner_of_handedOff (h : f.handedOff) : f.owner.isSome := by
  cases f <;> first | rfl | cases h

/-- A rotation attaches its new checkout only while the session is not terminal. -/
def AttachOpen (sys : System E V) (a : Act E V) : Prop :=
  ∀ i c k, a = .run i c → sys.top i = some (.attach k) → sys.shared.terminal = none

/-- What is known of a rotation on its way. -/
def Rotates (s : Session E V) (g : Frame E V) : Prop :=
  (g.handedOff → s.lease s.co = false) ∧ ∀ k, g = .attach k → k < s.checkouts

variable {g : Frame E V}

theorem Rotates.of_not (h : g.handedOff = false) : Rotates s g := by
  refine ⟨by simp [h], ?_⟩
  rintro k rfl
  cases h

theorem Rotates.of_free (h : g.owner = none) : Rotates s g := by
  refine .of_not ?_
  by_contra hoff
  have := owner_of_handedOff (Bool.not_eq_false _ ▸ hoff)
  simp [h] at this

theorem Rotates.keeps (hg : Rotates s g) (hco : s'.co = s.co)
    (hcheckouts : s'.checkouts = s.checkouts) (h : ∀ k, s'.lease k = true → s.lease k = true) :
    Rotates s' g := by
  refine ⟨fun hoff => ?_, fun k hk => hcheckouts ▸ hg.2 k hk⟩
  have hlease := hg.1 hoff
  rw [hco]
  by_contra hactive
  rw [Bool.not_eq_false] at hactive
  simp [h _ hactive] at hlease

theorem Follows.handedOff (h : Follows s f g) :
    g.handedOff = false ∨ f = .handoff ∧ g = .bind ∨ f = .bind ∧ g = .attach s.checkouts := by
  cases h with
  | bind => exact .inr (.inl ⟨rfl, rfl⟩)
  | attach => exact .inr (.inr ⟨rfl, rfl⟩)
  | other hother =>
    cases g with
    | bind | attach k => cases hother
    | _ => exact .inl rfl
  | _ => exact .inl rfl

/-- The handoff has given the lease up, and the rotation that bound has a checkout to attach. -/
theorem advance_rotates {c : Choice E V} {m : Outcome E V} (hm : advance s f c = some m)
    (hg : g ∈ m.fresh) (hbounds : s.co < s.checkouts) (hf : Rotates s f) : Rotates m.shared g := by
  rcases (advance_follows hm hg).handedOff with hnot | ⟨rfl, rfl⟩ | ⟨rfl, rfl⟩
  · exact .of_not hnot
  · simp only [advance, failRotation] at hm
    (repeat' split at hm) <;> cases hm
    · simp [Move.fresh] at hg
    · exact ⟨fun _ => by simp, by simp⟩
  · simp only [advance, failRotation] at hm
    split at hm <;> cases hm
    · simp [Move.fresh] at hg
    refine ⟨fun _ => ?_, ?_⟩
    · have hco : s.co ≠ s.checkouts := by omega
      simpa [Function.update_of_ne hco] using hf.1 rfl
    · rintro k ⟨⟩
      simp

/-- Every lease but that of `s.co` is one that a rotation is about to attach, and that of a
terminal session is about to be terminated. -/
structure SeenTo (sys : System E V) : Prop where
  bounds : sys.shared.co < sys.shared.checkouts
  rotates : ∀ g ∈ sys.frames, Rotates sys.shared g
  attached : ∀ k, sys.shared.lease k = true ∧ k ≠ sys.shared.co → ∃ g ∈ sys.frames, g = .attach k
  terminated : sys.shared.terminal.isSome ∧ sys.shared.lease sys.shared.co = true →
    ∃ g ∈ sys.frames, g.terminates

section Step

variable (hown : Owned sys) (hseen : SeenTo sys) (hopen : AttachOpen sys a)
  (hstep : (program E V).step sys a = .ok sys')

include hseen hstep

theorem step_bounds : sys'.shared.co < sys'.shared.checkouts := by
  refine step_shared (P := fun s' => s'.co < s'.checkouts) hstep ?_ (fun _ => hseen.bounds)
    hseen.bounds
  intro f others m hran
  obtain ⟨c, hm⟩ := hran.advance
  cases (effect_rest (advance_effect hm)).lease with
  | attaches k hf h =>
    rw [h]
    exact (hseen.rotates f hran.mem).2 k hf
  | binds hf h =>
    rw [h]
    exact Nat.lt_succ_of_lt hseen.bounds
  | keeps hco hcheckouts h =>
    rw [hco, hcheckouts]
    exact hseen.bounds

include hown

theorem step_rotates : ∀ g ∈ sys'.frames, Rotates sys'.shared g := by
  refine step_frames hstep (fun f hf => .of_free (entry_owner hf)) ?_ ?_ hseen.rotates
  · intro f others m hran
    obtain ⟨c, hm⟩ := hran.advance
    refine ⟨?_, fun g hg => advance_rotates hm hg hseen.bounds (hseen.rotates f hran.mem)⟩
    intro g hg
    cases (effect_rest (advance_effect hm)).lease with
    -- A rotation that attaches or binds owns the protocol, so it is the only one.
    | attaches k hf h
    | binds hf h => exact .of_free (hown.one.alone hran (by simp [hf, Frame.owner]) g hg)
    | keeps hco hcheckouts h =>
      exact (hseen.rotates g (hran.mem_others hg)).keeps hco hcheckouts h
  · intro k g hg
    cases (effect_rest (f := .rotate) (.ended k : Effect sys.shared _ _)).lease with
    | attaches _ hf _ | binds hf _ => cases hf
    | keeps hco hcheckouts h => exact (hseen.rotates g hg).keeps hco hcheckouts h

omit hown

theorem step_attached : ∀ k, sys'.shared.lease k = true ∧ k ≠ sys'.shared.co →
    ∃ g ∈ sys'.frames, g = .attach k := by
  intro k
  refine step_debt (D := fun s => s.lease k = true ∧ k ≠ s.co) hstep ?_ ?_ (hseen.attached k)
  · rintro f others m hran ⟨hlease, hne⟩
    obtain ⟨c, hm⟩ := hran.advance
    cases (effect_rest (advance_effect hm)).lease with
    | attaches k' hf h =>
      subst hf
      rw [h] at hlease hne
      -- The old checkout has no lease any more, so `k` is another one to be attached.
      have hold : k ≠ sys.shared.co := by
        rintro rfl
        have hoff := (hseen.rotates _ hran.mem).1 rfl
        simp [hoff] at hlease
      exact .inr ⟨⟨hlease, hold⟩, by simpa using Ne.symm hne⟩
    | binds hf h =>
      subst hf
      by_cases hk : k = sys.shared.checkouts
      · left
        simp only [program, advance, failRotation] at hm
        split at hm <;> cases hm
        · have hsame := congrArg Session.checkouts h
          simp at hsame
        · exact ⟨_, by simp [Move.fresh, hk], rfl⟩
      · rw [h] at hlease hne
        refine .inr ⟨⟨?_, hne⟩, by simp⟩
        simpa [Function.update_of_ne hk] using hlease
    | keeps hco hcheckouts h =>
      refine .inr ⟨⟨h k hlease, hco ▸ hne⟩, ?_⟩
      rintro rfl
      cases hm
      exact hne rfl
  · rintro k' ⟨hlease, hne⟩
    refine ⟨?_, hne⟩
    by_contra hnot
    by_cases hk : k = k'
    · simp [program, hk] at hlease
    · simp [program, Function.update_of_ne hk, hnot] at hlease

theorem step_terminated (hopen : AttachOpen sys a) :
    sys'.shared.terminal.isSome ∧ sys'.shared.lease sys'.shared.co = true →
      ∃ g ∈ sys'.frames, g.terminates := by
  refine step_debt (D := fun s => s.terminal.isSome ∧ s.lease s.co = true) hstep ?_ ?_
    hseen.terminated
  · rintro f others m hran ⟨hterminal, hlease⟩
    obtain ⟨i, c, ha, htop, hm⟩ := hran.acts
    by_cases hset : m.shared.terminal = sys.shared.terminal
    · rw [hset] at hterminal
      right
      cases (effect_rest (advance_effect hm)).lease with
      | attaches k hf h =>
        simp [hopen i c k ha (hf ▸ htop)] at hterminal
      | binds hf h =>
        subst hf
        rw [h] at hlease
        have hco : sys.shared.co ≠ sys.shared.checkouts := by
          have := hseen.bounds
          omega
        refine ⟨⟨hterminal, ?_⟩, by simp [Frame.terminates]⟩
        simpa [Function.update_of_ne hco] using hlease
      | keeps hco hcheckouts h =>
        refine ⟨⟨hterminal, h _ (hco ▸ hlease)⟩, ?_⟩
        -- Who was about to terminate the checkout has done it.
        intro hpays
        cases f with
        | terminateCheckout cause paused | forceCheckout e =>
          cases hm
          simp at hlease
        | _ => cases hpays
    · exact .inl (advance_terminal hm hset)
  · rintro k ⟨hterminal, hlease⟩
    refine ⟨hterminal, ?_⟩
    by_contra hnot
    by_cases hk : sys.shared.co = k
    · simp [program, hk] at hlease
    · simp [program, Function.update_of_ne hk, hnot] at hlease

end Step

theorem reaches_seenTo (hreach : Reaches AttachOpen sys) : SeenTo sys := by
  have hboth : Owned sys ∧ SeenTo sys := by
    refine hreach.invariant (P := fun sys => Owned sys ∧ SeenTo sys) ?_ ?_
    · rintro _ ⟨p, rfl⟩
      refine ⟨owned_initial p, by simp [initial], ?_, ?_, by simp [initial]⟩
      · intro g hg
        simp only [Config.frames, initial, List.flatten_cons, List.flatten_nil, List.append_nil,
          List.mem_singleton] at hg
        exact hg ▸ .of_not rfl
      · rintro k ⟨hlease, hne⟩
        simp only [initial, beq_iff_eq] at hlease hne
        exact absurd hlease hne
    · rintro sys a sys' ⟨hown, hseen⟩ hopen hstep
      exact ⟨step_owned hown hstep, step_bounds hseen hstep, step_rotates hown hseen hstep,
        step_attached hseen hstep, step_terminated hseen hstep hopen⟩
  exact hboth.2

/-- The watchers of connections and stops, which outlive the operations. -/
def Frame.watches : Frame E V → Bool
  | .watchConnection _ => true
  | .watchStop _ => true
  | _ => false

/-- **No lease is left**: in every run in which rotations attach their checkouts only while the
session is not terminal, a terminal session on which every operation has returned has no checkout
with an active lease. -/
theorem no_lease_left (hreach : Reaches AttachOpen sys) (hterminal : sys.shared.terminal.isSome)
    (hreturned : ∀ f ∈ sys.frames, f.watches) (k : ℕ) : sys.shared.lease k = false := by
  have hseen := reaches_seenTo hreach
  by_contra hactive
  rw [Bool.not_eq_false] at hactive
  by_cases hk : k = sys.shared.co
  · subst hk
    obtain ⟨g, hg, hterminates⟩ := hseen.terminated ⟨hterminal, hactive⟩
    have hwatches := hreturned g hg
    cases g with
    | terminateCheckout _ _ | forceCheckout _ => cases hwatches
    | _ => cases hterminates
  · obtain ⟨g, hg, rfl⟩ := hseen.attached k ⟨hactive, hk⟩
    cases hreturned _ hg

/-- Nothing is attached to a session that has ended, when no rotation stands before its attach. -/
theorem attachOpen_of_none (h : sys.frames.all fun f => !f.handedOff) : AttachOpen sys a := by
  intro i c k _ htop
  have hmem : Frame.attach k ∈ sys.frames := by
    obtain ⟨st, hst, hhead⟩ := Option.bind_eq_some_iff.mp htop
    exact List.mem_flatten.mpr ⟨st, List.mem_of_getElem? hst, List.mem_of_head? hhead⟩
  have := List.all_eq_true.mp h _ hmem
  cases this

/-- A rotation fails at its dump, and `Close` with `KillNow` finds the session ended. -/
def failedRotation : List (Act Unit Unit) :=
  [.call .reserveRotation, .run 1 .go, .run 1 (.failed (.other ())), .run 1 .go,
    .call (.terminateSession .sessionClosed), .run 2 .go, .run 2 .go, .run 2 .go, .run 1 .go,
    .run 1 .go, .run 1 .go]

theorem no_lease_left_failedRotation :
    ∃ sys, run (program Unit Unit).step (initial { reason := () }) failedRotation = .ok sys ∧
      sys.shared.terminal = some (.other ()) ∧ ∀ k, sys.shared.lease k = false := by
  obtain ⟨sys, hrun, hterminal, hframes⟩ :
      ∃ sys, run (program Unit Unit).step (initial { reason := () }) failedRotation = .ok sys ∧
        sys.shared.terminal = some (.other ()) ∧ sys.frames = [.watchConnection 0] :=
    ⟨_, rfl, rfl, rfl⟩
  have hguarded : Guarded (program Unit Unit).step AttachOpen (initial { reason := () })
      failedRotation := by
    repeat
      refine ⟨attachOpen_of_none (by decide), ?_⟩
      rintro _ ⟨⟩
    exact trivial
  have hreach : Reaches AttachOpen sys := .of_guarded (.initial ⟨_, rfl⟩) _ hguarded hrun
  exact ⟨sys, hrun, hterminal, no_lease_left hreach (by simp [hterminal])
    (by simp [hframes, Frame.watches])⟩

/-- `Close` with `KillNow` comes between the handoff and the attach of a rotation. -/
def killedRotation : List (Act Unit Unit) :=
  [.call .reserveRotation, .run 1 .go, .run 1 .go, .run 1 .go, .run 1 .go,
    .call (.terminateSession .sessionClosed), .run 2 .go, .run 2 .go, .run 2 .go,
    -- The rotation attaches the checkout it has bound, and returns.
    .run 1 .go, .run 1 .go,
    -- The watchers find the session ended.
    .run 0 .go, .run 3 .go]

/-- **A lease that is left**: every goroutine has returned, and the checkout that was attached
after the end has its worker. -/
theorem lease_left_after_rotation :
    ∃ sys, run (program Unit Unit).step (initial { reason := () }) killedRotation = .ok sys ∧
      sys.shared.terminal = some .sessionClosed ∧ sys.frames = [] ∧ sys.shared.co = 1 ∧
      sys.shared.lease 1 = true :=
  ⟨_, rfl, rfl, rfl, rfl, rfl⟩

end Montygo.Lifecycle
