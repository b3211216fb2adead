import Montygo.TurnEngine.Calls

/-!
# What a call observes

Said once for every call: the budget it leaves is the one it found, with some of the events it was
sent observed in their order, and a suspension it hands to the host is one of them and within the
limit (`Observed`).  Only `Restore` sets the budget back, and only there does a reader have to look
closer.
-/

namespace Montygo.TurnEngine

open Go Value WireFormat Wire

/-- The events among what is received. -/
def events (replies : List Reply) : List Event :=
  replies.filterMap fun reply =>
    match reply with
    | .event ev => some ev
    | _ => none

theorem events_cons_event {ev : Event} {rest : List Reply} :
    events (.event ev :: rest) = ev :: events rest := rfl

/-- Events observed one after the other. -/
def SessionBudget.observeAll (b : SessionBudget) (evs : List Event) : SessionBudget :=
  evs.foldl SessionBudget.observe b

/-- The budget goes from `b` to `b'` by events among the given ones, prints apart, and what is
handed over is one of them, if it is a suspension within the limit. -/
def Observed (events : List Event) (handed : Option Event) (b b' : SessionBudget) : Prop :=
  ∃ evs, evs.Sublist events ∧ (∀ ev ∈ evs, ev.kind ≠ .print) ∧ b' = b.observeAll evs ∧
    ∀ ev, handed = some ev →
      ev ∈ evs ∧ (ev.isSuspension = true → b'.suspensionsSeen ≤ b'.suspensionLimit)

variable {evs evs' : List Event} {handed : Option Event} {b b' b'' : SessionBudget}

theorem observed_refl (evs : List Event) (b : SessionBudget) : Observed evs none b b := by
  refine ⟨[], List.nil_sublist _, List.forall_mem_nil _, rfl, fun ev hev => ?_⟩
  cases hev

theorem Observed.drop (h : Observed evs handed b b') : Observed evs none b b' := by
  obtain ⟨taken, htaken, hprint, hb, -⟩ := h
  refine ⟨taken, htaken, hprint, hb, fun ev hev => ?_⟩
  cases hev

theorem Observed.mono (h : Observed evs handed b b') (hsub : evs.Sublist evs') :
    Observed evs' handed b b' := by
  obtain ⟨taken, htaken, hprint, hb, hhanded⟩ := h
  exact ⟨taken, htaken.trans hsub, hprint, hb, hhanded⟩

theorem Observed.cons {ev : Event} (hev : ev.kind ≠ .print)
    (h : Observed evs handed (b.observe ev) b') : Observed (ev :: evs) handed b b' := by
  obtain ⟨taken, htaken, hprint, hb, hhanded⟩ := h
  refine ⟨ev :: taken, htaken.cons_cons ev, List.forall_mem_cons.mpr ⟨hev, hprint⟩, hb,
    fun ev' hev' => ?_⟩
  obtain ⟨hmem, hle⟩ := hhanded ev' hev'
  exact ⟨List.mem_cons_of_mem _ hmem, hle⟩

theorem observed_last {ev : Event} (hev : ev.kind ≠ .print) (hb : b' = b.observe ev)
    (hhanded : ∀ ev', handed = some ev' →
      ev' = ev ∧ (ev.isSuspension = true → b'.suspensionsSeen ≤ b'.suspensionLimit)) :
    Observed (ev :: evs) handed b b' := by
  refine ⟨[ev], List.singleton_sublist.mpr List.mem_cons_self, by simpa using hev, hb,
    fun ev' hev' => ?_⟩
  obtain ⟨rfl, hle⟩ := hhanded ev' hev'
  exact ⟨List.mem_singleton_self _, hle⟩

/-- What the host gets of a result. -/
def handedBy {α : Type} (k : α → Option Event) : Except Error α → Option Event
  | .ok a => k a
  | .error _ => none

theorem Observed.trans (h : Observed evs none b b') (h' : Observed evs' handed b' b'') :
    Observed (evs ++ evs') handed b b'' := by
  obtain ⟨taken, htaken, hprint, rfl, -⟩ := h
  obtain ⟨taken', htaken', hprint', rfl, hhanded⟩ := h'
  refine ⟨taken ++ taken', htaken.append htaken', List.forall_mem_append.mpr ⟨hprint, hprint'⟩, ?_,
    fun ev hev => ?_⟩
  · simp [SessionBudget.observeAll]
  · obtain ⟨hmem, hle⟩ := hhanded ev hev
    exact ⟨List.mem_append_right _ hmem, hle⟩

/-! ## Turns -/

namespace Checkout

variable {cfg : Config} {c c' : Checkout} {ev : Event} {req : Request} {r : Except Error Event}

/-- A change beside the turns: nothing is sent, observed or awaited. -/
structure Steady (c c' : Checkout) : Prop where
  budget : c'.budget = c.budget
  cwdSet : c'.cwdSet = c.cwdSet
  held : c'.held = true → c.held = true
  pending : c'.pending = c.pending ∨ c'.pending = {}

theorem Steady.refl (c : Checkout) : Steady c c := ⟨rfl, rfl, id, .inl rfl⟩

theorem steady_discard (c : Checkout) : Steady c c.discard :=
  ⟨rfl, rfl, (fun h => by cases h), .inr rfl⟩

theorem steady_ensureReady {failure : Option Error} (h : c.ensureReady = (failure, c')) :
    Steady c c' := by
  unfold ensureReady at h
  split at h
  · cases h
    exact ⟨rfl, rfl, id, .inl rfl⟩
  split at h
  · cases h
    exact .refl c
  split at h
  · cases h
    exact steady_discard c
  · cases h
    exact .refl c

theorem eq_of_ensureReady (h : c.ensureReady = (none, c')) : c' = c ∧ c.held = true := by
  unfold ensureReady at h
  split at h
  · cases h
  split at h
  · cases h
  rename_i hheld
  split at h
  · cases h
  · cases h
    exact ⟨rfl, by simpa using hheld⟩
variable {deadline : Option Duration}

theorem budget_ioFailure {doing : GoString} {failure : IoFailure} :
    (c.ioFailure cfg doing deadline failure).2.budget = c.budget := by
  cases failure with
  | cancelled | timedOut | tooLarge => rfl
  | broken memory =>
    simp only [ioFailure]
    split
    · rfl
    split
    · rfl
    · rfl

theorem eq_of_failed {outcome : Error × Checkout} (h : failed outcome = some (r, c')) :
    r = .error outcome.1 ∧ c' = outcome.2 := by
  rw [failed, Option.some.injEq, Prod.mk.injEq] at h
  exact ⟨h.1.symm, h.2.symm⟩

theorem observed_failed {doing : GoString} {failure : IoFailure}
    (h : failed (c.ioFailure cfg doing deadline failure) = some (r, c')) :
    Observed evs (handedBy some r) c.budget c'.budget := by
  obtain ⟨rfl, rfl⟩ := eq_of_failed h
  rw [budget_ioFailure]
  exact observed_refl _ _

theorem budget_dispatch : (dispatch cfg c ev req).2.budget = c.budget := by
  unfold dispatch
  cases ev.kind with
  | functionCall | nameLookup | resolveFutures | typingError | ok | dumpResult | fatalError | none
  | print => rfl
  | osCall =>
    dsimp only
    split
    · rfl
    split
    · rfl
    · rfl
  | complete | shutdown =>
    dsimp only
    split
    · rfl
    · rfl
  | error =>
    cases req <;> cases ev.exception <;> rfl

/-- The event that `dispatch` returns is the one it was given. -/
theorem eq_of_dispatch_ok {ev' : Event} (h : (dispatch cfg c ev req).1 = .ok ev') : ev' = ev := by
  unfold dispatch at h
  cases hkind : ev.kind with
  | functionCall | nameLookup | resolveFutures | ok | dumpResult =>
    simp only [hkind, Except.ok.injEq] at h
    exact h.symm
  | typingError | fatalError | none | print => simp [hkind] at h
  | osCall =>
    simp only [hkind] at h
    split at h
    · cases h
    split at h
    · cases h
    · cases h
      rfl
  | complete =>
    simp only [hkind] at h
    split at h
    · cases h
      rfl
    · cases h
  | shutdown | error =>
    simp only [hkind] at h
    split at h
    · cases h
    · cases h

theorem dispatch_malformed (hkind : ev.kind = .osCall)
    (hbad : (ev.osCall.getD {}).op = 0 ∨ (ev.osCall.getD {}).payloadErr.isSome = true) :
    (∃ e, (dispatch cfg c ev req).1 = .error e) ∧ (dispatch cfg c ev req).2.held = false := by
  unfold dispatch
  simp only [hkind]
  split
  · exact ⟨⟨_, rfl⟩, rfl⟩
  rename_i hop
  rw [if_pos (hbad.resolve_left hop)]
  exact ⟨⟨_, rfl⟩, rfl⟩

theorem kind_ne_print (hsusp : ev.isSuspension = true) : ev.kind ≠ .print := by
  intro hkind
  simp [Event.isSuspension, hkind] at hsusp

/-- **What becomes of a suspension**: it is handed to the host within the limit, or answered with
`AbortFeed`, or it ends the checkout. -/
theorem received_suspension (hsusp : ev.isSuspension = true) :
    (∃ e c', received cfg c ev req = .abort e c' ∧ c'.budget = c.budget.observe ev) ∨
    (∃ c', received cfg c ev req = .returned (.ok ev) c' ∧ c'.budget = c.budget.observe ev ∧
      c'.budget.suspensionsSeen ≤ c'.budget.suspensionLimit) ∨
    (∃ e c', received cfg c ev req = .returned (.error e) c' ∧ c'.budget = c.budget.observe ev ∧
      c'.held = false) := by
  have hprint := kind_ne_print hsusp
  have hanswer : ¬ (ev.kind = .error ∨ ev.kind = .fatalError ∨ ev.kind = .shutdown) := by
    rintro (hkind | hkind | hkind) <;> simp [Event.isSuspension, hkind] at hsusp
  unfold received
  simp only [if_neg hprint, if_neg hanswer]
  split
  · exact .inr (.inr ⟨_, _, rfl, rfl, rfl⟩)
  split
  · split
    · rename_i hbad
      obtain ⟨⟨e, he⟩, hheld⟩ := dispatch_malformed
        (c := { c with budget := c.budget.observe ev }) hbad.1 hbad.2
      exact .inr (.inr ⟨e, _, by rw [he], budget_dispatch, hheld⟩)
    · exact .inl ⟨_, _, rfl, rfl⟩
  · rename_i hlimit
    have hle : (c.budget.observe ev).suspensionsSeen ≤ (c.budget.observe ev).suspensionLimit := by
      simpa [hsusp] using hlimit
    right
    cases hr : (dispatch cfg { c with budget := c.budget.observe ev, inFlight := false } ev req).1 with
    | ok ev' =>
      obtain rfl := eq_of_dispatch_ok hr
      exact .inl ⟨_, rfl, budget_dispatch, by rw [budget_dispatch]; exact hle⟩
    | error e =>
      refine .inr ⟨e, _, rfl, budget_dispatch, ?_⟩
      unfold dispatch at hr ⊢
      cases hkind : ev.kind <;> simp [Event.isSuspension, hkind] at hsusp hr ⊢
      split
      · rfl
      split
      · rfl
      · simp_all

theorem received_other (hsusp : ev.isSuspension = false) : received cfg c ev req = .again c ∨
      ev.kind ≠ .print ∧
      ∃ r c', received cfg c ev req = .returned r c' ∧ c'.budget = c.budget.observe ev ∧
        ∀ ev', r = .ok ev' → ev' = ev := by
  unfold received
  split
  · exact .inl rfl
  rename_i hprint
  refine .inr ⟨hprint, ?_⟩
  simp only [hsusp, Bool.false_eq_true, false_and, if_false]
  split
  · split
    · exact ⟨_, _, rfl, budget_dispatch, fun ev' h => eq_of_dispatch_ok h⟩
    · exact ⟨_, _, rfl, rfl, fun ev' h => by cases h⟩
  · exact ⟨_, _, rfl, budget_dispatch, fun ev' h => eq_of_dispatch_ok h⟩

theorem observed_receive {abortSend : Option IoFailure} {replies : List Reply}
    (h : (receive cfg req deadline abortSend replies c).2 = some (r, c')) :
    Observed (events replies) (handedBy some r) c.budget c'.budget := by
  induction replies generalizing c with
  | nil => cases h
  | cons reply rest ih =>
    cases reply with
    | lost failure => exact observed_failed h
    | invalid err =>
      cases h
      exact observed_refl _ _
    | event ev =>
      rw [events_cons_event]
      unfold receive at h
      cases hsusp : ev.isSuspension with
      | true =>
        obtain ⟨e, c₁, heq, hb⟩ | ⟨c₁, heq, hb, hle⟩ | ⟨e, c₁, heq, hb, hheld⟩ :=
          @received_suspension cfg c ev req hsusp
        · simp only [heq] at h
          refine Observed.cons (kind_ne_print hsusp) ?_
          rw [← hb]
          cases abortSend with
          | some failure => exact observed_failed h
          | none => exact ih (c := { c₁ with abortFlight := true }) h
        · simp only [heq, Option.some.injEq, Prod.mk.injEq] at h
          obtain ⟨rfl, rfl⟩ := h
          refine observed_last (kind_ne_print hsusp) hb fun ev' hev => ?_
          cases hev
          exact ⟨rfl, fun _ => hle⟩
        · simp only [heq, Option.some.injEq, Prod.mk.injEq] at h
          obtain ⟨rfl, rfl⟩ := h
          rw [hb]
          exact (observed_refl _ _).cons (kind_ne_print hsusp)
      | false =>
        obtain heq | ⟨hprint, r', c₁, heq, hb, hev⟩ :=
          @received_other cfg c ev req hsusp
        · simp only [heq] at h
          exact (ih h).mono (List.sublist_cons_self _ _)
        · simp only [heq, Option.some.injEq, Prod.mk.injEq] at h
          obtain ⟨rfl, rfl⟩ := h
          refine observed_last hprint hb fun ev' hhanded => ?_
          cases r' with
          | error e => cases hhanded
          | ok ev'' =>
            cases hhanded
            refine ⟨hev ev' rfl, fun hsusp' => ?_⟩
            rw [hsusp] at hsusp'
            cases hsusp'

/-- How a turn goes. -/
inductive Turned (cfg : Config) (c : Checkout) (env : Env) (req : Request) :
    Except Error Event → Checkout → Prop
  | unready {e : Error} {c' : Checkout}
      (h : ensureReady { c with held := c.held && env.held } = (some e, c')) :
      Turned cfg c env req (.error e) c'
  | rejected {e : Error} (hheld : c.held = true) (h : prepare cfg req = some (.error e)) :
      Turned cfg c env req (.error e) c
  | unsent {r : Except Error Event} {c' : Checkout} {deadline : Option Duration}
      {failure : IoFailure} (h : failed (ioFailure cfg { c with inFlight := true, sent := false }
        (lit "sending a request") deadline failure) = some (r, c')) : Turned cfg c env req r c'
  | sent {r : Except Error Event} {c' : Checkout} {deadline : Option Duration}
      (hheld : c.held = true) (h : (receive cfg req deadline env.abortSend env.replies
        { c with inFlight := true, sent := true }).2 = some (r, c')) : Turned cfg c env req r c'

variable {env : Env}

theorem turned_of_turn {control : Bool} (h : turn cfg c env req control = some (r, c')) :
    Turned cfg c env req r c' := by
  unfold turn turnWith at h
  split at h
  · rename_i hready
    cases h
    exact .unready hready
  rename_i c₁ hready
  obtain ⟨rfl, hheld⟩ := eq_of_ensureReady hready
  simp only [Bool.and_eq_true] at hheld
  have hsame : ({ c with held := c.held && env.held } : Checkout) = c := by
    rw [hheld.1, hheld.2]
    exact congrArg (fun held => { c with held := held }) hheld.1.symm
  rw [hsame] at h
  split at h
  · cases h
  · rename_i hprepare
    cases h
    exact .rejected hheld.1 hprepare
  dsimp only at h
  split at h
  · exact .unsent h
  · exact .sent hheld.1 h

/-- **What a turn observes.** -/
theorem observed_turn {control : Bool} (h : turn cfg c env req control = some (r, c')) :
    Observed (events env.replies) (handedBy some r) c.budget c'.budget := by
  cases turned_of_turn h with
  | unready h =>
    rw [(steady_ensureReady h).budget]
    exact observed_refl _ _
  | rejected => exact observed_refl _ _
  | unsent h => exact observed_failed (c := { c with inFlight := true, sent := false }) h
  | sent hheld h => exact observed_receive (c := { c with inFlight := true, sent := true }) h

/-! ## Calls -/

/-- Whatever the call returns, it observed some of the given events, and handed over `k` of its
result. -/
def Observes {α : Type} (evs : List Event) (c : Checkout) (k : α → Option Event) (x : Answer α) :
    Prop :=
  ∀ r c', x = some (r, c') → Observed evs (handedBy k r) c.budget c'.budget

/-- The call relates the checkout before it to the one after it. -/
def Relates {α : Type} (R : List Event → Option Event → Checkout → Checkout → Prop)
    (evs : List Event) (c : Checkout) (k : α → Option Event) (x : Answer α) : Prop :=
  ∀ r c', x = some (r, c') → R evs (handedBy k r) c c'

/-- A relation that turns and steady changes are in, and that composes.  Every call but a feed and a
restore is then in it. -/
structure Related (cfg : Config) (R : List Event → Option Event → Checkout → Checkout → Prop) :
    Prop where
  steady (evs : List Event) {c c' : Checkout} (h : Steady c c') : R evs none c c'
  turn {c c' : Checkout} {env : Env} {req : Request} {control : Bool} {r : Except Error Event}
    (h : c.turn cfg env req control = some (r, c')) :
    R (events env.replies) (handedBy some r) c c'
  drop {evs : List Event} {handed : Option Event} {c c' : Checkout} (h : R evs handed c c') :
    R evs none c c'
  mono {evs evs' : List Event} {handed : Option Event} {c c' : Checkout} (h : R evs handed c c')
    (hsub : evs.Sublist evs') : R evs' handed c c'
  trans {evs evs' : List Event} {handed : Option Event} {c c₁ c' : Checkout}
    (h : R evs none c c₁) (h' : R evs' handed c₁ c') : R (evs ++ evs') handed c c'

theorem observed_related (cfg : Config) :
    Related cfg fun evs handed c c' => Observed evs handed c.budget c'.budget where
  steady evs _ _ h := by
    rw [h.budget]
    exact observed_refl evs _
  turn h := observed_turn h
  drop h := h.drop
  mono h hsub := h.mono hsub
  trans h h' := h.trans h'

theorem steady_whenReady {α : Type} {body : Checkout → Answer α} {r : Except Error α}
    (hbody : ∀ c', body c = some (r, c') → Steady c c') (h : c.whenReady body = some (r, c')) :
    Steady c c' := by
  unfold whenReady at h
  split at h
  · rename_i hready
    cases h
    exact steady_ensureReady hready
  · rename_i hready
    obtain ⟨rfl, -⟩ := eq_of_ensureReady hready
    exact hbody c' h

theorem steady_handlePendingMount {answer : MountAnswer} {r : Except Error (Option ExtResult)}
    (h : c.handlePendingMount answer = some (r, c')) : Steady c c' := by
  refine steady_whenReady (fun c' h => ?_) h
  (repeat' split at h) <;>
    · cases h
      exact .refl c

theorem steady_handoff {r : Except Error Reservation} (h : c.handoff cfg = some (r, c')) :
    Steady c c' := by
  refine steady_whenReady (fun c' h => ?_) h
  split at h
  · cases h
    exact .refl c
  split at h
  · cases h
    exact .refl c
  · cases h
    exact ⟨rfl, rfl, (fun h => by cases h), .inr rfl⟩

namespace Related

variable {R : List Event → Option Event → Checkout → Checkout → Prop} (hR : Related cfg R)
  {α : Type} {k : α → Option Event} {c₁ : Checkout} {handed : Option Event}
include hR

theorem before (hsteady : Steady c c₁) (h : R evs handed c₁ c') : R evs handed c c' :=
  hR.trans (hR.steady [] hsteady) h

theorem after (h : R evs handed c c₁) (hsteady : Steady c₁ c') : R evs none c c' := by
  rw [← List.append_nil evs]
  exact hR.trans (hR.drop h) (hR.steady [] hsteady)

theorem silent {r : Except Error α} (hsteady : Steady c c₁) (hk : handedBy k r = none) :
    Relates R evs c k (some (r, c₁)) := by
  intro r' c' h
  cases h
  rw [hk]
  exact hR.steady evs hsteady

theorem same {r : Except Error α} (hk : handedBy k r = none) : Relates R evs c k (some (r, c)) :=
  hR.silent (.refl c) hk

theorem whenReady {body : Checkout → Answer α} (h : Relates R evs c k (body c)) :
    Relates R evs c k (c.whenReady body) := by
  intro r c' heq
  unfold Checkout.whenReady at heq
  split at heq
  · rename_i hready
    cases heq
    exact hR.steady evs (steady_ensureReady hready)
  · rename_i hready
    obtain ⟨rfl, -⟩ := eq_of_ensureReady hready
    exact h r c' heq

theorem controlTurn {name : String} {want : EventKind} {f : Event → α}
    (hk : ∀ ev, k (f ev) = none) :
    Relates R (events env.replies) c k (c.controlTurn cfg env req name want f) := by
  intro r c' h
  unfold Checkout.controlTurn at h
  split at h
  · cases h
  · rename_i hturn
    cases h
    exact hR.turn hturn
  · rename_i ev c₁ hturn
    split at h
    · cases h
      exact hR.after (hR.turn hturn) (steady_discard _)
    · cases h
      rw [handedBy, hk]
      exact hR.drop (hR.turn hturn)

theorem resume {result : ExtResult} :
    Relates R (events env.replies) c some (c.resume cfg env result) := by
  refine hR.whenReady ?_
  split
  · exact hR.same rfl
  split
  · exact hR.same rfl
  · exact fun _ _ => hR.turn

theorem resumeNameLookup {kind : LookupKind} {value : Object} {error : Option RaisedException} :
    Relates R (events env.replies) c some (c.resumeNameLookup cfg env kind value error) := by
  refine hR.whenReady ?_
  split
  · exact hR.same rfl
  · exact fun _ _ => hR.turn

theorem resumeFutures {results : List FutureResult} :
    Relates R (events env.replies) c some (c.resumeFutures cfg env results) := by
  refine hR.whenReady ?_
  split
  · exact hR.same rfl
  split
  · exact hR.same rfl
  · exact fun _ _ => hR.turn

theorem handlePendingMount {answer : MountAnswer} :
    Relates R evs c (fun _ => none) (c.handlePendingMount answer) := by
  intro r c' h
  have hsteady := hR.steady evs (steady_handlePendingMount h)
  cases r <;> exact hsteady

theorem resumeFromMounts {answer : MountAnswer} {retry : Env} :
    Relates R (events env.replies ++ events retry.replies) c id
      (c.resumeFromMounts cfg answer env retry) := by
  intro r c' h
  unfold Checkout.resumeFromMounts at h
  split at h
  · cases h
  · rename_i hmount
    cases h
    exact hR.steady _ (steady_handlePendingMount hmount)
  · rename_i hmount
    cases h
    exact hR.steady _ (steady_handlePendingMount hmount)
  · rename_i result c₁ hmount
    refine hR.before (steady_handlePendingMount hmount) ?_
    split at h
    · cases h
    · rename_i hresume
      cases h
      exact hR.mono (hR.resume _ _ hresume) (List.sublist_append_left _ _)
    · rename_i e c₂ hresume
      have hfirst : R (events env.replies) none c₁ c₂ := hR.resume _ _ hresume
      split at h
      · split at h
        · cases h
        all_goals
          rename_i hretry
          cases h
          exact hR.trans hfirst (hR.resume _ _ hretry)
      · cases h
        exact hR.mono hfirst (List.sublist_append_left _ _)

theorem dump : Relates R (events env.replies) c (fun _ => none) (c.dump cfg env) :=
  hR.controlTurn fun _ => rfl

theorem installDependencies {requirements : List GoString} :
    Relates R (events env.replies) c (fun _ => none)
      (c.installDependencies cfg env requirements) := by
  refine hR.whenReady ?_
  split
  · exact hR.same rfl
  split
  · exact hR.same rfl
  split
  · exact hR.same rfl
  · exact hR.controlTurn fun _ => rfl

theorem finish : Relates R (events env.replies) c (fun _ => none) (c.finish cfg env) := by
  unfold Checkout.finish
  split
  · exact hR.silent ⟨rfl, rfl, id, .inl rfl⟩ rfl
  split
  · exact hR.silent (steady_discard c) rfl
  split
  · exact hR.silent ⟨rfl, rfl, (fun h => by cases h), .inl rfl⟩ rfl
  intro r c' h
  split at h
  · cases h
  all_goals
    rename_i hturn
    have hreset := hR.controlTurn (k := fun _ => none) (fun _ => rfl) _ _ hturn
    cases h
    exact hR.after hreset ⟨rfl, rfl, (fun h => by cases h), .inr rfl⟩

theorem abort {exc : Option RaisedException} :
    Relates R (events env.replies) c (fun _ => none) (c.abort cfg env exc) := by
  refine hR.whenReady ?_
  split
  · exact hR.same rfl
  intro r c' h
  have hset : Steady c { c with pending := {}, abortFlight := true } := ⟨rfl, rfl, id, .inr rfl⟩
  dsimp only at h
  split at h
  · cases h
  · rename_i hturn
    cases h
    exact hR.before hset (hR.turn hturn)
  · rename_i hturn
    cases h
    exact hR.before hset (hR.after (hR.turn hturn) (steady_discard _))

end Related

/-- The end of a feed changes whether the directory is set, and nothing else. -/
theorem eq_of_feedDone {answer : Answer Event} {r : Except Error Event} {c' : Checkout}
    (h : feedDone answer = some (r, c')) :
    ∃ c₁ set, answer = some (r, c₁) ∧ c' = { c₁ with cwdSet := set } := by
  unfold feedDone at h
  split at h
  · cases h
  all_goals
    cases h
    exact ⟨_, _, rfl, rfl⟩

theorem observes_feed {code firstMount : GoString} {inputs : List NamedValue}
    {mounts : Option MountTable}
    {cwd : Option GoString} {skipTypeCheck : Bool} :
    Observes (events env.replies) c some
      (c.feed cfg env code inputs mounts firstMount cwd skipTypeCheck) := by
  refine (observed_related cfg).whenReady ?_
  split
  · exact (observed_related cfg).same rfl
  split
  · exact (observed_related cfg).same rfl
  intro r c' h
  obtain ⟨c₁, set, hturn, rfl⟩ := eq_of_feedDone h
  have hobserved := observed_turn hturn
  exact hobserved

end Checkout

end Montygo.TurnEngine
