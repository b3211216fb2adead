import Montygo.TurnEngine.Observed

/-!
# How a turn ends

A turn ends in one of four ways (`Ended`): the checkout was not ready for it, its request was
rejected before anything was sent, the worker was given up, or an event of the worker was
dispatched.  What a call leaves behind (the pending suspension, the lease) is read off these four
cases and never off the loop.
-/

namespace Montygo.TurnEngine.Checkout

open Go Value WireFormat Wire

variable {cfg : Config} {c c' c₁ : Checkout} {env : Env} {ev : Event} {req : Request}
  {r : Except Error Event} {e : Error}

/-- The worker was given up, and the error is one of those that say so. -/
structure Lost (e : Error) (c : Checkout) : Prop where
  held : c.held = false
  pending : c.pending = {}
  preSend : e.preSend = false
  typing : e.kind ≠ .typing
  runtime : e.kind = .runtime → e.workerLost = true

theorem lost_protocolError {message : GoString} : Lost (protocolError message) c.discard where
  held := rfl
  pending := rfl
  preSend := rfl
  typing := ErrorKind.noConfusion
  runtime := ErrorKind.noConfusion

theorem lost_ioFailure {doing : GoString} {deadline : Option Duration} {failure : IoFailure} :
    Lost (c.ioFailure cfg doing deadline failure).1 (c.ioFailure cfg doing deadline failure).2 := by
  cases failure with
  | cancelled | timedOut =>
    exact ⟨rfl, rfl, rfl, ErrorKind.noConfusion, ErrorKind.noConfusion⟩
  | tooLarge err => exact lost_protocolError
  | broken memory =>
    simp only [ioFailure]
    split
    · exact ⟨rfl, rfl, rfl, ErrorKind.noConfusion, ErrorKind.noConfusion⟩
    split
    · exact ⟨rfl, rfl, rfl, ErrorKind.noConfusion, fun _ => rfl⟩
    · exact ⟨rfl, rfl, rfl, ErrorKind.noConfusion, ErrorKind.noConfusion⟩

/-! ## Dispatch -/

/-- The errors that end a feed and keep the worker. -/
structure Settled (req : Request) (e : Error) (c c' : Checkout) : Prop where
  kind : e.kind = .runtime ∨ e.kind = .typing
  preSend : e.preSend = false
  workerLost : e.workerLost = false
  held : c'.held = c.held
  cancelled : c'.cancelled = c.cancelled
  inFlight : c'.inFlight = c.inFlight
  /-- An error that answers a dump leaves the suspension where it is. -/
  pending : req = .dump ∧ c'.pending = c.pending ∨ c'.pending = {}

theorem dispatch_error (h : (dispatch cfg c ev req).1 = .error e) :
    Lost e (dispatch cfg c ev req).2 ∨ Settled req e c (dispatch cfg c ev req).2 := by
  unfold dispatch at h ⊢
  cases hkind : ev.kind with
  | functionCall | nameLookup | resolveFutures | ok | dumpResult => simp [hkind] at h
  | osCall =>
    simp only [hkind] at h ⊢
    split at h
    · rename_i hop
      rw [if_pos hop]
      cases h
      exact .inl lost_protocolError
    rename_i hop
    split at h
    · rename_i hpayload
      rw [if_neg hop, if_pos hpayload]
      cases h
      exact .inl lost_protocolError
    · cases h
  | complete =>
    simp only [hkind] at h ⊢
    split at h
    · cases h
    rename_i hvalue
    rw [if_neg hvalue]
    cases h
    exact .inl lost_protocolError
  | error =>
    simp only [hkind] at h ⊢
    cases hexc : ev.exception with
    | none =>
      simp only [hexc] at h
      cases h
      exact .inl lost_protocolError
    | some exc =>
      simp only [hexc] at h
      cases h
      refine .inr ?_
      cases req with
      | dump => exact ⟨.inl rfl, rfl, rfl, rfl, rfl, rfl, .inl ⟨rfl, rfl⟩⟩
      | configure | feed | resumeCall | resumeNameLookup | resumeFutures | load
      | installDependencies | reset | abortFeed | shutdown =>
        exact ⟨.inl rfl, rfl, rfl, rfl, rfl, rfl, .inr rfl⟩
  | typingError =>
    simp only [hkind] at h
    cases h
    exact .inr ⟨.inr rfl, rfl, rfl, rfl, rfl, rfl, .inr rfl⟩
  | fatalError =>
    simp only [hkind] at h
    cases h
    exact .inl ⟨rfl, rfl, rfl, ErrorKind.noConfusion, ErrorKind.noConfusion⟩
  | shutdown =>
    simp only [hkind] at h ⊢
    split at h
    · rename_i hremote
      rw [if_pos hremote]
      cases h
      exact .inl ⟨rfl, rfl, rfl, ErrorKind.noConfusion, ErrorKind.noConfusion⟩
    · rename_i hremote
      rw [if_neg hremote]
      cases h
      exact .inl lost_protocolError
  | none | print =>
    simp only [hkind] at h
    cases h
    exact .inl lost_protocolError

theorem lost_malformed (hkind : ev.kind = .osCall)
    (hbad : (ev.osCall.getD {}).op = 0 ∨ (ev.osCall.getD {}).payloadErr.isSome = true) :
    ∃ e c₁, Received.returned (dispatch cfg c ev req).1 (dispatch cfg c ev req).2 =
      .returned (.error e) c₁ ∧ Lost e c₁ := by
  unfold dispatch
  simp only [hkind]
  split
  · exact ⟨_, _, rfl, lost_protocolError⟩
  rename_i hop
  rw [if_pos (hbad.resolve_left hop)]
  exact ⟨_, _, rfl, lost_protocolError⟩

/-! ## The loop -/

/-- The same checkout, up to the budget and the state of the turn. -/
structure SameSuspension (c c₁ : Checkout) : Prop where
  held : c₁.held = c.held
  cancelled : c₁.cancelled = c.cancelled
  pending : c₁.pending = c.pending

theorem SameSuspension.trans {c₂ : Checkout} (h : SameSuspension c c₁) (h' : SameSuspension c₁ c₂) :
    SameSuspension c c₂ :=
  ⟨h'.held.trans h.held, h'.cancelled.trans h.cancelled, h'.pending.trans h.pending⟩

theorem received_cases (cfg : Config) (c : Checkout) (ev : Event) (req : Request) :
    received cfg c ev req = .again c ∨
    (∃ exc c₁, received cfg c ev req = .abort exc c₁ ∧ SameSuspension c c₁) ∨
    (∃ e c₁, received cfg c ev req = .returned (.error e) c₁ ∧ Lost e c₁) ∨
    ∃ c₁, received cfg c ev req = .returned (dispatch cfg c₁ ev req).1 (dispatch cfg c₁ ev req).2 ∧
      SameSuspension c c₁ ∧ c₁.inFlight = false := by
  unfold received
  split
  · exact .inl rfl
  right
  dsimp only
  split
  · split
    · exact .inr (.inr ⟨_, rfl, ⟨rfl, rfl, rfl⟩, rfl⟩)
    · exact .inr (.inl ⟨_, _, rfl, lost_protocolError⟩)
  split
  · split
    · rename_i hbad
      exact .inr (.inl (lost_malformed hbad.1 hbad.2))
    · exact .inl ⟨_, _, rfl, rfl, rfl, rfl⟩
  · exact .inr (.inr ⟨_, rfl, ⟨rfl, rfl, rfl⟩, rfl⟩)

theorem eq_of_receive {deadline : Option Duration} {abortSend : Option IoFailure}
    {replies : List Reply} (h : (receive cfg req deadline abortSend replies c).2 = some (r, c')) :
    (∃ e, r = .error e ∧ Lost e c') ∨
    ∃ ev c₁, ev ∈ events replies ∧ SameSuspension c c₁ ∧ c₁.inFlight = false ∧
      r = (dispatch cfg c₁ ev req).1 ∧ c' = (dispatch cfg c₁ ev req).2 := by
  induction replies generalizing c with
  | nil => cases h
  | cons reply rest ih =>
    cases reply with
    | lost failure =>
      obtain ⟨rfl, rfl⟩ := eq_of_failed h
      exact .inl ⟨_, rfl, lost_ioFailure⟩
    | invalid err =>
      cases h
      exact .inl ⟨_, rfl, lost_protocolError⟩
    | event ev =>
      rw [events_cons_event]
      unfold receive at h
      obtain heq | ⟨exc, c₁, heq, hsame⟩ | ⟨e, c₁, heq, hlost⟩ | ⟨c₁, heq, hsame, hidle⟩ :=
        received_cases cfg c ev req
      · simp only [heq] at h
        obtain hlost | ⟨ev', c₁, hmem, hrest⟩ := ih h
        · exact .inl hlost
        · exact .inr ⟨ev', c₁, List.mem_cons_of_mem _ hmem, hrest⟩
      · simp only [heq] at h
        cases abortSend with
        | some failure =>
          obtain ⟨rfl, rfl⟩ := eq_of_failed h
          exact .inl ⟨_, rfl, lost_ioFailure⟩
        | none =>
          have hflight : SameSuspension c { c₁ with abortFlight := true } :=
            hsame.trans ⟨rfl, rfl, rfl⟩
          obtain hlost | ⟨ev', c₂, hmem, hsame', hrest⟩ := ih h
          · exact .inl hlost
          · exact .inr ⟨ev', c₂, List.mem_cons_of_mem _ hmem, hflight.trans hsame', hrest⟩
      · simp only [heq, Option.some.injEq, Prod.mk.injEq] at h
        obtain ⟨rfl, rfl⟩ := h
        exact .inl ⟨e, rfl, hlost⟩
      · simp only [heq, Option.some.injEq, Prod.mk.injEq] at h
        exact .inr ⟨ev, c₁, List.mem_cons_self, hsame, hidle, h.1.symm, h.2.symm⟩

/-! ## Turns -/

/-- How a turn ends. -/
inductive Ended (cfg : Config) (c : Checkout) (env : Env) (req : Request) :
    Except Error Event → Checkout → Prop
  | unready {e : Error} {c' : Checkout}
      (h : ensureReady { c with held := c.held && env.held } = (some e, c')) :
      Ended cfg c env req (.error e) c'
  | rejected {e : Error} (hheld : c.held = true) (h : prepare cfg req = some (.error e)) :
      Ended cfg c env req (.error e) c
  | lost {e : Error} {c' : Checkout} (h : Lost e c') : Ended cfg c env req (.error e) c'
  | dispatched {ev : Event} {c₁ : Checkout} (hmem : ev ∈ events env.replies)
      (hsame : SameSuspension c c₁) (hidle : c₁.inFlight = false) (hheld : c.held = true) :
      Ended cfg c env req (dispatch cfg c₁ ev req).1 (dispatch cfg c₁ ev req).2

theorem ensureReady_error (h : c.ensureReady = (some e, c')) :
    (e.kind = .cancelled ∨ e.kind = .finished) ∧ e.preSend = false ∧ e.workerLost = false ∧
      (c.held = false → c'.held = false) := by
  unfold ensureReady at h
  split at h
  · cases h
    exact ⟨.inl rfl, rfl, rfl, id⟩
  split at h
  · cases h
    exact ⟨.inr rfl, rfl, rfl, id⟩
  split at h
  · cases h
    exact ⟨.inl rfl, rfl, rfl, fun _ => rfl⟩
  · cases h

/-- **How a turn ends.** -/
theorem ended_turn {control : Bool} (h : turn cfg c env req control = some (r, c')) :
    Ended cfg c env req r c' := by
  cases turned_of_turn h with
  | unready hready => exact .unready hready
  | rejected hheld hprepare => exact .rejected hheld hprepare
  | unsent hfailed =>
    obtain ⟨rfl, rfl⟩ := eq_of_failed hfailed
    exact .lost lost_ioFailure
  | sent hheld hreceive =>
    obtain ⟨e, rfl, hlost⟩ | ⟨ev, c₁, hmem, hsame, hidle, rfl, rfl⟩ := eq_of_receive hreceive
    · exact .lost hlost
    · exact .dispatched hmem ⟨hsame.held, hsame.cancelled, hsame.pending⟩ hidle hheld

theorem prepare_error (h : prepare cfg req = some (.error e)) :
    e.kind = .runtime ∧ e.preSend = true ∧ e.workerLost = false := by
  unfold prepare at h
  split at h
  · cases h
    exact ⟨rfl, rfl, rfl⟩
  split at h
  · cases h
    exact ⟨rfl, rfl, rfl⟩
  · cases h
  split at h
  · cases h
    exact ⟨rfl, rfl, rfl⟩
  · cases h

theorem held_of_workerLost (h : Ended cfg c env req (.error e) c') (hlost : e.workerLost = true) :
    c'.held = false := by
  generalize hr : Except.error e = r at h
  cases h with
  | unready hready =>
    cases hr
    rw [(ensureReady_error hready).2.2.1] at hlost
    cases hlost
  | rejected _ hprepare =>
    cases hr
    rw [(prepare_error hprepare).2.2] at hlost
    cases hlost
  | lost h =>
    cases hr
    exact h.held
  | dispatched =>
    obtain hgone | hsettled := dispatch_error hr.symm
    · exact hgone.held
    · rw [hsettled.workerLost] at hlost
      cases hlost

/-! ## A worker that is gone -/

theorem Ended.gone (h : Ended cfg c env req r c') (hheld : c.held = false) :
    (∃ e, r = .error e) ∧ c'.held = false := by
  cases h with
  | unready hready =>
    refine ⟨⟨_, rfl⟩, (ensureReady_error hready).2.2.2 ?_⟩
    simp [hheld]
  | rejected hheld' _ | dispatched _ _ _ hheld' =>
    rw [hheld] at hheld'
    cases hheld'
  | lost h => exact ⟨⟨_, rfl⟩, h.held⟩

theorem whenReady_gone {α : Type} {body : Checkout → Answer α} {r : Except Error α}
    (h : c.whenReady body = some (r, c')) (hheld : c.held = false) :
    (∃ e, r = .error e) ∧ c'.held = false := by
  unfold whenReady at h
  split at h
  · rename_i e c₁ hready
    cases h
    exact ⟨⟨e, rfl⟩, (ensureReady_error hready).2.2.2 hheld⟩
  · rename_i c₁ hready
    rw [(eq_of_ensureReady hready).2] at hheld
    cases hheld

theorem whenReady_ok {α : Type} {body : Checkout → Answer α} {a : α}
    (h : c.whenReady body = some (.ok a, c')) : c.held = true ∧ body c = some (.ok a, c') := by
  unfold whenReady at h
  split at h
  · cases h
  rename_i c₁ hready
  obtain ⟨rfl, hheld⟩ := eq_of_ensureReady hready
  exact ⟨hheld, h⟩

end Montygo.TurnEngine.Checkout
