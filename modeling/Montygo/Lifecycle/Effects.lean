import Montygo.Lifecycle.Goroutines

/-!
# What each section changes

One lemma for each section of `Sections`: when it succeeds, what it found and what it leaves.
The sections of a driver and those that only register a stop change a single execution, and
`Touched` says what they leave alone there; later modules read these lemmas and not the sections.
-/

namespace Montygo.Lifecycle

variable {E V : Type} {s s' : Session E V} {e : ℕ}

/-! ## One execution -/

namespace Session

theorem put_execution (s : Session E V) (e e' : ℕ) (x : Execution E V) :
    (s.put e x).execution e' = if e' = e then x else s.execution e' := by
  simp [put, Function.update_apply]

variable (s e) (x : Execution E V)

@[simp] theorem put_execution_self : (s.put e x).execution e = x := by
  simp [put]

@[simp] theorem put_self : s.put e (s.execution e) = s := by
  simp [put]

@[simp] theorem put_put (y : Execution E V) : (s.put e x).put e y = s.put e y := by
  simp [put]

@[simp] theorem put_terminal : (s.put e x).terminal = s.terminal := rfl

@[simp] theorem put_done : (s.put e x).done = s.done := rfl

@[simp] theorem put_current : (s.put e x).current = s.current := rfl

@[simp] theorem put_controlDone : (s.put e x).controlDone = s.controlDone := rfl

@[simp] theorem put_lease : (s.put e x).lease = s.lease := rfl

@[simp] theorem put_co : (s.put e x).co = s.co := rfl

@[simp] theorem put_token : (s.put e x).token = s.token := rfl


end Session

/-- What an execution reports, and to whom: its cause, its result and how often it was done. -/
def Execution.ends (x : Execution E V) :
    Option (Err E) × Option V × Option (Err E) × ℕ := (x.terminalCause, x.value, x.err, x.done)

/-- How a stop stands: its kind, whether it is resolved or claimed, and how often it was
resolved. -/
def StopRequest.standing (req : StopRequest E) : StopKind × Bool × Bool × ℕ :=
  (req.kind, req.resolvedOnce, req.forceClaimed, req.resolved)

/-- A stop stands as before, or is new. -/
def StopKept (before after : Option (StopRequest E)) : Prop :=
  after.map StopRequest.standing = before.map StopRequest.standing ∨
    before = none ∧ after.map StopRequest.standing = some (.pending, false, false, 0)

/-- What a section leaves of an execution when it neither ends it nor lets go of it.  With `abort`
it took a paused execution, for a goroutine of its own. -/
structure Touched (x x' : Execution E V) (abort : Bool) : Prop where
  ends : x'.ends = x.ends
  stop : StopKept x.stop x'.stop
  held : x.phase ≠ .paused → x.operationDone = true → x'.phase ≠ .paused ∧ x'.operationDone = true
  paused : x'.phase = .paused → x.phase = .paused
  aborts : abort = true → x.phase = .paused ∧ x'.phase ≠ .paused ∧ x'.operationDone = true

theorem StopKept.refl (r : Option (StopRequest E)) : StopKept r r := .inl rfl

theorem Touched.refl (x : Execution E V) : Touched x x false :=
  ⟨rfl, .refl _, fun hp ho => ⟨hp, ho⟩, id, by simp⟩

theorem StopKept.trans {r r' r'' : Option (StopRequest E)} (h : StopKept r r')
    (h' : StopKept r' r'') : StopKept r r'' := by
  rcases h with h | ⟨hnone, h⟩ <;> rcases h' with h' | ⟨hnone', h'⟩
  · exact .inl (h'.trans h)
  · subst hnone'
    exact .inr ⟨by simpa using h.symm, h'⟩
  · exact .inr ⟨hnone, h'.trans h⟩
  · subst hnone'
    cases h

variable {abort : Bool} {c : Choice E V} {m : Outcome E V}

theorem Touched.trans {x x' x'' : Execution E V} (h : Touched x x' false)
    (h' : Touched x' x'' abort) : Touched x x'' abort where
  ends := h'.ends.trans h.ends
  stop := h.stop.trans h'.stop
  held hp ho := (h.held hp ho).elim h'.held
  paused hp := h.paused (h'.paused hp)
  aborts ha := ⟨h.paused (h'.aborts ha).1, (h'.aborts ha).2⟩

/-- A phase other than `paused` may be set, and what none of the fields above reads. -/
theorem Touched.set {x x' x'' : Execution E V} (h : Touched x x' abort) (hends : x''.ends = x'.ends)
    (hstop : x''.stop = x'.stop) (hphase : x''.phase = x'.phase ∨ x''.phase ≠ .paused)
    (hoperation : x''.operationDone = x'.operationDone) : Touched x x'' abort := by
  have hnot : x'.phase ≠ .paused → x''.phase ≠ .paused := by grind
  refine ⟨hends.trans h.ends, hstop ▸ h.stop, fun hp ho => ?_, fun hp => ?_, fun ha => ?_⟩
  · obtain ⟨hp', ho'⟩ := h.held hp ho
    exact ⟨hnot hp', hoperation ▸ ho'⟩
  · exact h.paused (by grind)
  · obtain ⟨hp, hp', ho'⟩ := h.aborts ha
    exact ⟨hp, hnot hp', hoperation ▸ ho'⟩

namespace Session

/-! ## Stops -/

variable (s e)

theorem enterRequestLocked_spec : ∃ x, (s.enterRequestLocked e).1 = s.put e x ∧
      Touched (s.execution e) x (s.enterRequestLocked e).2 := by
  unfold enterRequestLocked
  split
  · exact ⟨_, (s.put_self e).symm, .refl _⟩
  rename_i req hreq
  have hkept : StopKept (s.execution e).stop (some { req with requested := true }) := by
    simp [StopKept, hreq, StopRequest.standing]
  split_ifs with hrequested hpaused
  · exact ⟨_, (s.put_self e).symm, .refl _⟩
  · exact ⟨_, rfl, rfl, hkept, fun hp => absurd hpaused hp, by simp, fun _ => by simp [hpaused]⟩
  · exact ⟨_, rfl, rfl, hkept, fun hp ho => ⟨hp, ho⟩, id, by simp⟩

theorem registerStop_spec (p : StopPolicy E) :
    ∃ x, s.registerStop e p = s.put e x ∧ Touched (s.execution e) x false := by
  unfold registerStop
  split_ifs with hnone
  · have hkept : StopKept (s.execution e).stop (some (newStopRequest p)) :=
      .inr ⟨by simpa using hnone, rfl⟩
    exact ⟨_, rfl, rfl, hkept, fun hp ho => ⟨hp, ho⟩, id, by simp⟩
  · exact ⟨_, (s.put_self e).symm, .refl _⟩

theorem registerStop_enterRequestLocked_spec (p : StopPolicy E) :
    ∃ x, ((s.registerStop e p).enterRequestLocked e).1 = s.put e x ∧
      Touched (s.execution e) x ((s.registerStop e p).enterRequestLocked e).2 := by
  obtain ⟨x, hx, htouched⟩ := s.registerStop_spec e p
  obtain ⟨y, hy, htouched'⟩ := (s.registerStop e p).enterRequestLocked_spec e
  refine ⟨y, by rw [hy, hx, put_put], htouched.trans ?_⟩
  simpa [hx] using htouched'

theorem requestStop_spec (p : StopPolicy E) (due : Bool) :
    ∃ x, (s.requestStop e p due).1 = s.put e x ∧
      Touched (s.execution e) x (s.requestStop e p due).2.abort := by
  simp only [requestStop]
  split_ifs
  · exact ⟨_, (s.put_self e).symm, .refl _⟩
  · exact s.registerStop_enterRequestLocked_spec e p
  · exact s.registerStop_spec e p

theorem stopEnded_spec (ended : Bool) : ∃ x, (s.stopEnded e ended).1 = s.put e x ∧
      Touched (s.execution e) x (s.stopEnded e ended).2.abort := by
  unfold stopEnded
  split_ifs
  · exact s.registerStop_enterRequestLocked_spec e s.stopPolicy
  · exact ⟨_, (s.put_self e).symm, .refl _⟩

theorem stopBeforeStartLocked_spec (ended : Bool) :
    ∃ x, (s.stopBeforeStartLocked e ended).1 = s.put e x ∧
      Touched (s.execution e) x (s.stopBeforeStartLocked e ended).2.1.abort := by
  obtain ⟨x, hx, htouched⟩ := s.stopEnded_spec e ended
  simp only [stopBeforeStartLocked]
  split
  · exact ⟨x, hx, htouched⟩
  split_ifs
  · refine ⟨{ x with beforeStart := true }, by simp [modify, hx], ?_⟩
    exact htouched.set rfl rfl (.inl rfl) rfl
  · exact ⟨x, hx, htouched⟩

/-! ## The driver -/

theorem beginExecution_spec (ended : Bool) : ∃ x, (s.beginExecution e ended).1 = s.put e x ∧
      Touched (s.execution e) x (s.beginExecution e ended).2.abort := by
  obtain ⟨x, hx, htouched⟩ := s.stopBeforeStartLocked_spec e ended
  simp only [beginExecution]
  split
  · exact ⟨_, (s.put_self e).symm, .refl _⟩
  split_ifs
  · exact ⟨x, hx, htouched⟩
  · refine ⟨{ x with phase := .preparing }, by simp [modify, hx], ?_⟩
    exact htouched.set rfl rfl (.inr (by simp)) rfl

theorem beginSend_spec (ended : Bool) : ∃ x, (s.beginSend e ended).1 = s.put e x ∧
      Touched (s.execution e) x (s.beginSend e ended).2.abort := by
  obtain ⟨x, hx, htouched⟩ := s.stopBeforeStartLocked_spec e ended
  simp only [beginSend]
  split
  · exact ⟨_, (s.put_self e).symm, .refl _⟩
  split_ifs
  · exact ⟨x, hx, htouched⟩
  · refine ⟨{ x with phase := .executing, turnDone := true }, by simp [modify, hx], ?_⟩
    exact htouched.set rfl rfl (.inr (by simp)) rfl

theorem beginCallback_spec :
    ∃ x, s.beginCallback e = s.put e x ∧ Touched (s.execution e) x false := by
  unfold beginCallback
  split
  · exact ⟨_, rfl, (Touched.refl _).set rfl rfl (.inr (by simp)) rfl⟩
  · exact ⟨_, (s.put_self e).symm, .refl _⟩

theorem endCallback_spec : ∃ x, s.endCallback e = s.put e x ∧ Touched (s.execution e) x false :=
  ⟨_, rfl, (Touched.refl _).set rfl rfl (.inr (by simp)) rfl⟩

theorem beforeResume_spec :
    ∃ x, s.beforeResume e = s.put e x ∧ Touched (s.execution e) x false := by
  unfold beforeResume
  split
  · exact ⟨_, rfl, (Touched.refl _).set rfl rfl (.inr (by simp)) rfl⟩
  · exact ⟨_, (s.put_self e).symm, .refl _⟩

theorem deliverStop_spec : ∃ x, s.deliverStop e = s.put e x ∧ Touched (s.execution e) x false :=
  ⟨_, rfl, (Touched.refl _).set rfl rfl (.inl rfl) rfl⟩

theorem markAborted_spec : ∃ x, s.markAborted e = s.put e x ∧ Touched (s.execution e) x false :=
  ⟨_, rfl, (Touched.refl _).set rfl rfl (.inl rfl) rfl⟩

variable {s e} in
theorem abortExecution_spec (h : s.abortExecution e = .ok s') :
    ∃ x, s' = s.put e x ∧ Touched (s.execution e) x false := by
  unfold abortExecution at h
  split at h
  · cases h
  split_ifs at h
  cases h
  exact ⟨_, rfl, (Touched.refl _).set rfl rfl (.inr (by simp)) rfl⟩

variable {s e}

/-! ## Admission -/

theorem admissionErrorLocked_eq_none :
    s.admissionErrorLocked = none ↔ s.terminal = none ∧ s.closeAttempt = none := by
  unfold admissionErrorLocked
  split <;> simp_all

theorem executionErrorLocked_eq_none :
    s.executionErrorLocked e = none ↔ s.terminal = none ∧ (s.execution e).terminalCause = none ∧
      s.current = some e ∧ (s.execution e).phase ≠ .finished := by
  unfold executionErrorLocked
  split
  · simp_all
  · split <;> simp_all

theorem snapshotErrorLocked_eq_none {t : SnapshotToken} :
    s.snapshotErrorLocked t = none ↔ t.used = false ∧ s.current = some t.exec ∧
      t.sequence = (s.execution t.exec).sequence ∧ (s.execution t.exec).phase = .paused ∧
      (s.execution t.exec).terminalCause = none ∧ s.terminal = none ∧ s.closeAttempt = none := by
  cases hused : t.used
  · cases hcause : (s.execution t.exec).terminalCause
    · by_cases hfinished : (s.execution t.exec).phase = .finished
      · cases herr : (s.execution t.exec).err <;>
          simp [snapshotErrorLocked, hused, hcause, hfinished, herr]
      · cases hterminal : s.terminal
        · simp only [snapshotErrorLocked, hused, hcause, hfinished, hterminal, Bool.false_eq_true,
            if_false]
          split_ifs <;> simp_all [admissionErrorLocked_eq_none]
          grind
        · simp [snapshotErrorLocked, hused, hcause, hfinished, hterminal]
    · simp [snapshotErrorLocked, hused, hcause]
  · simp [snapshotErrorLocked, hused]

theorem reserveExecution_eq_ok (h : s.reserveExecution = .ok (e, s')) :
    s.terminal = none ∧ s.current = none ∧ s.controlDone = false ∧
      s' = { s.put e { step := 1 } with nextID := e, current := some e } := by
  unfold reserveExecution at h
  split at h
  · cases h
  rename_i hadmission
  split_ifs at h with hbusy hlast
  cases h
  push Not at hbusy
  exact ⟨(admissionErrorLocked_eq_none.mp hadmission).1, by simpa using hbusy.1,
    by simpa using hbusy.2, rfl⟩

theorem claimSnapshot_eq_ok {t : ℕ} (h : s.claimSnapshot t = .ok s') :
    s.snapshotErrorLocked (s.token t) = none ∧
      s' = { s.put (s.token t).exec { s.execution (s.token t).exec with
          phase := .executing, operationDone := true
          step := (s.execution (s.token t).exec).step + 1 } with
        token := Function.update s.token t { s.token t with used := true } } := by
  unfold claimSnapshot at h
  split at h
  · cases h
  rename_i hnone
  cases h
  exact ⟨hnone, rfl⟩

theorem reserveControlFor_eq_ok {allowPaused : Bool} {t r : Option ℕ}
    (h : s.reserveControlFor allowPaused t = .ok (r, s')) :
    (s.terminal = none ∧ s.controlDone = false ∧ r = none ∧ s.current = none ∧
      s' = { s with controlDone := true }) ∨
    (∃ e, s.terminal = none ∧ allowPaused = true ∧ r = some e ∧ s.current = some e ∧
      (s.execution e).phase = .paused ∧
      s' = s.put e { s.execution e with
        phase := .control, turnDone := true, operationDone := true }) := by
  unfold reserveControlFor at h
  split at h
  · cases h
  split at h
  · cases h
  rename_i hadmission
  have hterminal := (admissionErrorLocked_eq_none.mp hadmission).1
  split_ifs at h with hcontrol
  split at h
  · rename_i hcurrent
    cases h
    exact .inl ⟨hterminal, by simpa using hcontrol, rfl, hcurrent, rfl⟩
  · rename_i e hcurrent
    split_ifs at h with hbusy
    cases h
    push Not at hbusy
    exact .inr ⟨e, hterminal, by simpa using hbusy.1, rfl, hcurrent, hbusy.2, rfl⟩

theorem publishPause_eq_ok (h : s.publishPause e = .ok s') : s.executionErrorLocked e = none ∧
      s' = { s.put e { s.execution e with
          sequence := (s.execution e).sequence + 1, phase := .paused, turnDone := false
          operationDone := false } with
        token := Function.update s.token s.tokens
          { exec := e, sequence := (s.execution e).sequence + 1 }
        tokens := s.tokens + 1 } := by
  unfold publishPause at h
  split at h
  · cases h
  rename_i hnone
  simp only at h
  split_ifs at h
  cases h
  exact ⟨hnone, rfl⟩

/-! ## Ends -/

variable (s e)

theorem resolveStopLocked_cases (kind : StopKind) : s.resolveStopLocked e kind = s ∨
    (∃ req, (s.execution e).stop = some req ∧ req.resolvedOnce = false ∧
      s.resolveStopLocked e kind = s.put e { s.execution e with
        stop := some { req with
          kind := kind, resolvedOnce := true, resolved := req.resolved + 1 } }) := by
  unfold resolveStopLocked
  split
  · exact .inl rfl
  rename_i req hreq
  split_ifs with hresolved
  · exact .inl rfl
  · exact .inr ⟨req, hreq, by simpa using hresolved, rfl⟩

theorem resolveStopLocked_spec (kind : StopKind) :
    ∃ stop, s.resolveStopLocked e kind = s.put e { s.execution e with stop := stop } := by
  rcases s.resolveStopLocked_cases e kind with h | ⟨req, -, -, h⟩
  · exact ⟨(s.execution e).stop, by rw [h]; exact (s.put_self e).symm⟩
  · exact ⟨_, h⟩

theorem finishExecution_cases (v : Option V) (err : Option (Err E)) :
    s.finishExecution e v err = s ∧ (s.execution e).phase = .finished ∨
    (∃ stop, s.finishExecution e v err = { s.put e { s.execution e with
          value := if (s.execution e).terminalCause.isSome then none else v
          err := if (s.execution e).terminalCause.isSome then (s.execution e).terminalCause
            else err
          phase := .finished, turnDone := false, operationDone := false
          done := (s.execution e).done + 1, stop := stop } with
        current := if s.current = some e then none else s.current }) := by
  simp only [finishExecution]
  split_ifs with hfinished hstop
  all_goals try exact .inl ⟨rfl, hfinished⟩
  all_goals
    right
    first
    | obtain ⟨stop, h⟩ := resolveStopLocked_spec _ e _
      exact ⟨stop, by rw [h]; simp [modify, put]⟩
    | exact ⟨(s.execution e).stop, rfl⟩

variable (err : Err E)

@[simp] theorem setTerminal_execution : (s.setTerminal err).execution = s.execution := by
  unfold setTerminal
  split <;> rfl

@[simp] theorem setTerminal_current : (s.setTerminal err).current = s.current := by
  unfold setTerminal
  split <;> rfl

@[simp] theorem setTerminal_controlDone : (s.setTerminal err).controlDone = s.controlDone := by
  unfold setTerminal
  split <;> rfl

@[simp] theorem setTerminal_lease : (s.setTerminal err).lease = s.lease := by
  unfold setTerminal
  split <;> rfl

@[simp] theorem setTerminal_co : (s.setTerminal err).co = s.co := by
  unfold setTerminal
  split <;> rfl

@[simp] theorem setTerminal_checkouts : (s.setTerminal err).checkouts = s.checkouts := by
  unfold setTerminal
  split <;> rfl

@[simp] theorem setTerminal_token : (s.setTerminal err).token = s.token := by
  unfold setTerminal
  split <;> rfl

@[simp] theorem setTerminal_terminal :
    (s.setTerminal err).terminal = some (s.terminal.getD err) := by
  unfold setTerminal
  split <;> simp_all

theorem setTerminal_done :
    (s.setTerminal err).done = if s.terminal.isSome then s.done else s.done + 1 := by
  unfold setTerminal
  split <;> simp_all

theorem terminateSession_cases : (s.current = none ∧
      s.terminateSession err = (s.setTerminal err, s.terminal.getD err, none)) ∨
    (∃ e, s.current = some e ∧ (s.execution e).phase ≠ .paused ∧
      s.terminateSession err = ((s.setTerminal err).put e { s.execution e with
        terminalCause := some (s.terminal.getD err) }, s.terminal.getD err, none)) ∨
    (∃ e, s.current = some e ∧ (s.execution e).phase = .paused ∧
      s.terminateSession err = ((s.setTerminal err).put e { s.execution e with
        terminalCause := some (s.terminal.getD err), phase := .aborting
        operationDone := true }, s.terminal.getD err, some e)) := by
  unfold terminateSession
  split
  · rename_i hcurrent
    exact .inl ⟨hcurrent, rfl⟩
  · rename_i e hcurrent
    split_ifs with hpaused
    · exact .inr (.inr ⟨e, hcurrent, hpaused, by simp [modify]⟩)
    · exact .inr (.inl ⟨e, hcurrent, hpaused, by simp [modify]⟩)

theorem forceExecution_cases (early : Bool) : (s.forceExecution e early = (s, .settled)) ∨
    (s.forceExecution e early = (s, .early)) ∨
    (∃ req, (s.execution e).stop = some req ∧ req.forceClaimed = false ∧
      s.forceExecution e early = (s.resolveStopLocked e .finished, .settled)) ∨
    (∃ req, (s.execution e).stop = some req ∧ req.resolvedOnce = false ∧
      req.forceClaimed = false ∧ s.current = some e ∧ (s.execution e).phase ≠ .finished ∧
      s.terminal = none ∧ early = false ∧
      s.forceExecution e early =
        ((s.setTerminal (.sessionKilled req.policy.reason)).put e { s.execution e with
          stop := some { req with forceClaimed := true, kind := .killed }
          terminalCause := some (.sessionKilled req.policy.reason) },
          .claimed (.sessionKilled req.policy.reason))) := by
  simp only [forceExecution]
  split
  · exact .inl rfl
  rename_i req hreq
  split_ifs with hsettled hended hearly
  · exact .inl rfl
  · exact .inr (.inr (.inl ⟨req, hreq, by grind, rfl⟩))
  · exact .inr (.inl rfl)
  push Not at hended
  refine .inr (.inr (.inr ⟨req, hreq, by grind, by grind, hended.1, hended.2.1, ?_, by grind,
    by simp [modify]⟩))
  simpa using hended.2.2

theorem releaseControl_cases (r : Option ℕ) :
    (r = none ∧ s.releaseControl r = ({ s with controlDone := false }, .nothing)) ∨
    (∃ e cause, r = some e ∧ s.terminal = some cause ∧
      s.releaseControl r = (s.put e { s.execution e with
        turnDone := false, phase := .aborting, operationDone := true }, .finish e cause)) ∨
    (∃ e, r = some e ∧ s.terminal = none ∧ (s.execution e).stop.isSome ∧
      s.releaseControl r = (s.put e { s.execution e with
        turnDone := false, phase := .aborting, operationDone := true }, .abort e)) ∨
    (∃ e, r = some e ∧ s.terminal = none ∧ (s.execution e).stop = none ∧
      s.releaseControl r = (s.put e { s.execution e with
        turnDone := false, phase := .paused, operationDone := false }, .nothing)) := by
  unfold releaseControl
  split
  · exact .inl ⟨rfl, rfl⟩
  rename_i e
  split
  · rename_i cause hcause
    exact .inr (.inl ⟨e, cause, rfl, hcause, rfl⟩)
  · rename_i hterminal
    split_ifs with hstop
    · exact .inr (.inr (.inl ⟨e, rfl, hterminal, hstop, rfl⟩))
    · exact .inr (.inr (.inr ⟨e, rfl, hterminal, by simpa using hstop, rfl⟩))

theorem closeOwned_cases : s.closeOwned = (s, .ended) ∨ s.closeOwned = (s, .waits) ∨
    (s.current = none ∧ s.controlDone = false ∧
      s.closeOwned = ({ s with controlDone := true }, .owns none)) ∨
    (∃ e, s.current = some e ∧ (s.execution e).operationDone = false ∧
      s.closeOwned = (s.put e { s.execution e with
        phase := .control, turnDone := true, operationDone := true }, .owns (some e))) := by
  unfold closeOwned
  split
  · exact .inl rfl
  split
  · rename_i hcurrent
    split_ifs with hcontrol
    · exact .inr (.inl rfl)
    · exact .inr (.inr (.inl ⟨hcurrent, by simpa using hcontrol, rfl⟩))
  · rename_i e hcurrent
    split_ifs with hoperation
    · exact .inr (.inl rfl)
    · exact .inr (.inr (.inr ⟨e, hcurrent, by simpa using hoperation, rfl⟩))

variable {s e} in
/-- The section of `Close` changes nothing but the attempts. -/
theorem close_eq_some {a : ℕ} {running : Option ℕ} (h : s.close = some (a, running, s')) :
    s' = { s with closeAttempt := some a, closeAttempts := a + 1 } := by
  unfold close at h
  split_ifs at h
  cases h
  rfl

end Session

/-! ## What a step does to the session -/

/-- The changes a step of a goroutine at the frame `f` can make to the session. -/
inductive Effect (s : Session E V) (f : Frame E V) : Session E V → Prop where
  | nothing : Effect s f s
  | touched {e : ℕ} {x : Execution E V} {abort : Bool} (h : Touched (s.execution e) x abort) :
      Effect s f (s.put e x)
  | reserved {e : ℕ} {s' : Session E V} (h : s.reserveExecution = .ok (e, s')) : Effect s f s'
  | claimed {t : ℕ} {s' : Session E V} (hf : f = .claimSnapshot t)
      (h : s.claimSnapshot t = .ok s') : Effect s f s'
  | paused {e : ℕ} {s' : Session E V} (h : s.publishPause e = .ok s') : Effect s f s'
  | controlled {allowPaused : Bool} {t r : Option ℕ} {s' : Session E V}
      (h : s.reserveControlFor allowPaused t = .ok (r, s')) : Effect s f s'
  | released {r : Option ℕ} (hf : f = .releaseControl r) : Effect s f (s.releaseControl r).1
  | finished (e : ℕ) (v : Option V) (err : Option (Err E)) :
      Effect s f (s.finishExecution e v err)
  | resolved {e : ℕ} {kind : StopKind}
      (hf : f = .abortResolve e ∧ kind = .finished ∨ f = .forceResolve e ∧ kind = .killed) :
      Effect s f (s.resolveStopLocked e kind)
  | terminated {err : Err E} (hf : f = .terminateSession err) :
      Effect s f (s.terminateSession err).1
  | forced {e : ℕ} (early : Bool) (hf : f = .forceExecution e) :
      Effect s f (s.forceExecution e early).1
  | ended (k : ℕ) : Effect s f (s.setLease k false)
  | bound (hf : f = .bind) :
      Effect s f { s.setLease s.checkouts true with checkouts := s.checkouts + 1 }
  | attached {k : ℕ} (hf : f = .attach k) : Effect s f { s with co := k }
  | closing {a : ℕ} {running : Option ℕ} {s' : Session E V}
      (h : s.close = some (a, running, s')) : Effect s f s'
  | owned : Effect s f s.closeOwned.1
  | freed : Effect s f { s with controlDone := false }
  | settled (a : ℕ) : Effect s f (s.settleClose a)

variable {f : Frame E V}

/-- A section that is known to change one execution as `Touched` allows. -/
theorem Effect.of_spec (h : ∃ x, s' = s.put e x ∧ Touched (s.execution e) x abort) :
    Effect s f s' := by
  obtain ⟨x, rfl, htouched⟩ := h
  exact .touched htouched

theorem drive_effect (h : drive s e c = some m) : Effect s (.drive e) m.shared := by
  unfold drive at h
  split at h
  · cases h
    exact .of_spec (s.beginExecution_spec e _)
  · cases h
    exact .of_spec (s.beginSend_spec e _)
  · split_ifs at h <;>
      · cases h
        exact .nothing
  · cases h
    exact .of_spec (s.beginCallback_spec e)
  · cases h
    exact .of_spec (s.endCallback_spec e)
  · cases h
    exact .of_spec (s.beforeResume_spec e)
  · cases h
    exact .of_spec (s.deliverStop_spec e)
  · cases h
    exact .nothing
  · cases h
    exact .nothing
  · split at h
    · rename_i s' hpause
      cases h
      exact .paused hpause
    · cases h
      exact .nothing
  · cases h
    exact .nothing
  · cases h

theorem forced_effect (s : Session E V) (e : ℕ) (early : Bool) :
    Effect s (.forceExecution e) (forced e (s.forceExecution e early)).shared := by
  have hshared : (forced e (s.forceExecution e early)).shared = (s.forceExecution e early).1 := by
    unfold forced
    split <;> simp_all
  rw [hshared]
  exact .forced early rfl

theorem watchStop_effect (h : watchStop s e = some m) : Effect s (.watchStop e) m.shared := by
  unfold watchStop at h
  split at h
  · cases h
  split_ifs at h
  · cases h
    exact .nothing
  · cases h
    exact .nothing
  · cases h
    exact .of_spec (s.enterRequestLocked_spec e)

theorem released_effect (s : Session E V) (r : Option ℕ) :
    Effect s (.releaseControl r) (released (s.releaseControl r)).shared := by
  have hshared : (released (s.releaseControl r)).shared = (s.releaseControl r).1 := by
    unfold released
    split <;> simp_all
  rw [hshared]
  exact .released rfl

theorem closing_effect (s : Session E V) (p : StopPolicy E) :
    Effect s (.close p) (closing s p).shared := by
  unfold closing
  split
  · exact .nothing
  all_goals
    rename_i h
    exact .closing h

theorem closeRound_effect (s : Session E V) (a : ℕ) :
    Effect s (.closeOwned a) (closeRound a s.closeOwned).shared := by
  have hshared : (closeRound a s.closeOwned).shared = s.closeOwned.1 := by
    unfold closeRound
    split <;> simp_all
  rw [hshared]
  exact .owned

theorem aborting_effect (s : Session E V) (e : ℕ) :
    Effect s (.abortExecution e) (aborting s e).shared := by
  unfold aborting
  split
  · rename_i s' h
    exact .of_spec (Session.abortExecution_spec h)
  · exact .nothing

/-- **What a step can do to the session**. -/
theorem advance_effect (h : advance s f c = some m) : Effect s f m.shared := by
  cases f with
  | reserveExecution =>
    simp only [advance] at h
    split at h
    · cases h
      exact .nothing
    · split at h
      · rename_i hreserve
        cases h
        exact .reserved hreserve
      · cases h
        exact .nothing
  | claimSnapshot t =>
    simp only [advance] at h
    split at h
    · cases h
      exact .nothing
    · split at h
      · rename_i hclaim
        cases h
        exact .claimed rfl hclaim
      · cases h
        exact .nothing
  | drive e => exact drive_effect h
  | finishExecution e v err =>
    cases h
    exact .finished e v err
  | abortExecution e =>
    cases h
    exact aborting_effect s e
  | abortMark e =>
    cases h
    exact .of_spec (s.markAborted_spec e)
  | abortResolve e =>
    cases h
    exact .resolved (.inl ⟨rfl, rfl⟩)
  | terminateSession err =>
    cases h
    exact .terminated rfl
  | terminateCheckout cause paused =>
    cases h
    exact .ended s.co
  | forceExecution e =>
    simp only [advance] at h
    split at h <;>
      · cases h
        exact forced_effect s e _
  | forceCheckout e =>
    cases h
    exact .ended s.co
  | forceResolve e =>
    cases h
    exact .resolved (.inr ⟨rfl, rfl⟩)
  | requestStop e p =>
    simp only [advance] at h
    split at h <;>
      · cases h
        exact .of_spec (s.requestStop_spec e p _)
  | watchStop e =>
    simp only [advance] at h
    split at h
    · split_ifs at h
      cases h
      exact .nothing
    · exact watchStop_effect h
  | reserveControl allowPaused t | reserveRotation =>
    simp only [advance] at h
    split at h
    · cases h
      exact .nothing
    · split at h
      · rename_i hreserve
        cases h
        exact .controlled hreserve
      · cases h
        exact .nothing
  | releaseControl e =>
    cases h
    exact released_effect s e
  | handoff =>
    simp only [advance] at h
    split at h
    · cases h
      exact .nothing
    · split_ifs at h
      cases h
      exact .ended s.co
  | bind =>
    simp only [advance] at h
    split at h
    · cases h
      exact .nothing
    · cases h
      exact .bound rfl
  | attach k =>
    cases h
    exact .attached rfl
  | close p =>
    simp only [advance] at h
    split at h
    · cases h
      exact .nothing
    · cases h
      exact closing_effect s p
  | closeOwned a =>
    simp only [advance] at h
    split at h
    · cases h
      exact .nothing
    · cases h
      exact closeRound_effect s a
  | closeFinish a e =>
    simp only [advance] at h
    split at h <;>
      · cases h
        exact .ended s.co
  | closeRelease a e cause =>
    cases e with
    | none =>
      cases h
      exact .freed
    | some e =>
      cases h
      exact .nothing
  | settleClose a =>
    cases h
    exact .settled a
  -- The other frames only go on to the next one.
  | abortTurn _ | abortCheck _ | abortFailed _ | abortPaused _ | untrack _ _ | forceUntrack _
  | requestStopForStep _ _ | control _ | rotate | watchConnection _ | closeStop _ _
  | finishClose _ _ =>
    simp only [advance] at h
    (repeat' split at h) <;>
      · cases h
        try exact .nothing

/-- A step at the frame `f` attaches, binds, or takes up no lease. -/
inductive LeaseStep (s : Session E V) (f : Frame E V) (s' : Session E V) : Prop where
  | attaches (k : ℕ) (hf : f = .attach k) (h : s' = { s with co := k })
  | binds (hf : f = .bind)
      (h : s' = { s.setLease s.checkouts true with checkouts := s.checkouts + 1 })
  | keeps (hco : s'.co = s.co) (hcheckouts : s'.checkouts = s.checkouts)
      (h : ∀ k, s'.lease k = true → s.lease k = true)

theorem LeaseStep.same (hco : s'.co = s.co) (hcheckouts : s'.checkouts = s.checkouts)
    (h : s'.lease = s.lease) : LeaseStep s f s' :=
  .keeps hco hcheckouts fun _ hk => h ▸ hk

/-- What a step does to the rest of the session: its end, its tokens and its leases. -/
structure RestStep (s : Session E V) (f : Frame E V) (s' : Session E V) : Prop where
  /-- Only `terminateSession` and `forceExecution` set the terminal cause. -/
  terminal : s'.terminal = s.terminal ∨ (∃ err, f = .terminateSession err) ∨
    ∃ e, f = .forceExecution e
  /-- A token that was given out changes by its own claim only. -/
  token {t : ℕ} (ht : t < s.tokens) :
    s'.token t = s.token t ∨ f = .claimSnapshot t ∧ s.claimSnapshot t = .ok s'
  lease : LeaseStep s f s'

theorem RestStep.same (hterminal : s'.terminal = s.terminal) (htoken : s'.token = s.token)
    (hco : s'.co = s.co) (hcheckouts : s'.checkouts = s.checkouts) (hlease : s'.lease = s.lease) :
    RestStep s f s' :=
  ⟨.inl hterminal, fun _ => .inl (congrFun htoken _), .same hco hcheckouts hlease⟩

theorem RestStep.ends {err : Err E}
    (hf : (∃ err, f = .terminateSession err) ∨ ∃ e, f = .forceExecution e)
    (htoken : s'.token = (s.setTerminal err).token) (hco : s'.co = (s.setTerminal err).co)
    (hcheckouts : s'.checkouts = (s.setTerminal err).checkouts)
    (hlease : s'.lease = (s.setTerminal err).lease) : RestStep s f s' := by
  rw [s.setTerminal_token err] at htoken
  rw [s.setTerminal_co err] at hco
  rw [s.setTerminal_checkouts err] at hcheckouts
  rw [s.setTerminal_lease err] at hlease
  exact ⟨.inr hf, fun _ => .inl (congrFun htoken _), .same hco hcheckouts hlease⟩

theorem effect_rest (h : Effect s f s') : RestStep s f s' := by
  cases h with
  | attached hf => exact ⟨.inl rfl, fun _ => .inl rfl, .attaches _ hf rfl⟩
  | bound hf => exact ⟨.inl rfl, fun _ => .inl rfl, .binds hf rfl⟩
  | ended k =>
    refine ⟨.inl rfl, fun _ => .inl rfl, .keeps rfl rfl fun k' hk' => ?_⟩
    by_cases heq : k' = k
    · simp [Session.setLease, heq] at hk'
    · simpa [Session.setLease, Function.update_of_ne heq] using hk'
  | @claimed t s' hf hclaim =>
    obtain ⟨-, rfl⟩ := Session.claimSnapshot_eq_ok hclaim
    refine ⟨.inl rfl, fun {t'} _ => ?_, .same rfl rfl rfl⟩
    by_cases heq : t' = t
    · subst heq
      exact .inr ⟨hf, hclaim⟩
    · exact .inl (Function.update_of_ne heq _ _)
  | paused hpause =>
    obtain ⟨-, rfl⟩ := Session.publishPause_eq_ok hpause
    exact ⟨.inl rfl, fun ht => .inl (Function.update_of_ne (by omega) _ _), .same rfl rfl rfl⟩
  | reserved hreserve =>
    obtain ⟨-, -, -, rfl⟩ := Session.reserveExecution_eq_ok hreserve
    exact .same rfl rfl rfl rfl rfl
  | controlled hreserve =>
    rcases Session.reserveControlFor_eq_ok hreserve with ⟨-, -, -, -, rfl⟩ |
      ⟨e, -, -, -, -, -, rfl⟩ <;> exact .same rfl rfl rfl rfl rfl
  | @released r _ =>
    rcases s.releaseControl_cases r with ⟨-, h⟩ | ⟨e, cause, -, -, h⟩ | ⟨e, -, -, -, h⟩ |
      ⟨e, -, -, -, h⟩
    all_goals
      rw [h]
      exact .same rfl rfl rfl rfl rfl
  | finished e v err =>
    rcases s.finishExecution_cases e v err with ⟨h, -⟩ | ⟨stop, h⟩
    all_goals
      rw [h]
      exact .same rfl rfl rfl rfl rfl
  | resolved _ =>
    obtain ⟨stop, h⟩ := s.resolveStopLocked_spec _ _
    rw [h]
    exact .same rfl rfl rfl rfl rfl
  | @terminated err hf =>
    rcases s.terminateSession_cases err with ⟨-, h⟩ | ⟨e, -, -, h⟩ | ⟨e, -, -, h⟩
    all_goals
      rw [h]
      exact .ends (.inl ⟨err, hf⟩) rfl rfl rfl rfl
  | @forced e early hf =>
    rcases s.forceExecution_cases e early with h | h | ⟨req, -, -, h⟩ |
      ⟨req, -, -, -, -, -, -, -, h⟩
    · rw [h]
      exact .same rfl rfl rfl rfl rfl
    · rw [h]
      exact .same rfl rfl rfl rfl rfl
    · obtain ⟨stop, hresolve⟩ := s.resolveStopLocked_spec e .finished
      rw [h, hresolve]
      exact .same rfl rfl rfl rfl rfl
    · rw [h]
      exact .ends (.inr ⟨e, hf⟩) rfl rfl rfl rfl
  | closing hclose =>
    obtain rfl := Session.close_eq_some hclose
    exact .same rfl rfl rfl rfl rfl
  | owned =>
    rcases s.closeOwned_cases with h | h | ⟨-, -, h⟩ | ⟨e, -, -, h⟩
    all_goals
      rw [h]
      exact .same rfl rfl rfl rfl rfl
  | nothing | touched _ | freed | settled _ => exact .same rfl rfl rfl rfl rfl

/-! ## The frames a step brings in -/

variable {g : Frame E V}

theorem mem_threads {st : Session.Started} (hg : g ∈ (st.threads e).flatten) :
    g = .watchStop e ∨ g = .abortExecution e ∨ g = .abortPaused e := by
  cases hwatch : st.watch <;> cases habort : st.abort <;>
    simp [Session.Started.threads, hwatch, habort] at hg <;> grind

/-- Frames that several steps lead to, and that need no care. -/
def Frame.plain : Frame E V → Bool
  | .abortFailed _ => false
  | .abortResolve _ => false
  | .terminateCheckout _ _ => false
  | .untrack _ _ => false
  | .forceCheckout _ => false
  | .forceUntrack _ => false
  | .reserveRotation => false
  | .rotate => false
  | .handoff => false
  | .bind => false
  | .attach _ => false
  | _ => true

/-- Where a step leads, but for the plain frames. -/
inductive Follows (s : Session E V) : Frame E V → Frame E V → Prop where
  | abortFailed {e : ℕ} (h : s.terminal = none) : Follows s (.abortCheck e) (.abortFailed e)
  | abortFailedAgain {e : ℕ} : Follows s (.abortFailed e) (.abortFailed e)
  | abortResolve {e : ℕ} : Follows s (.abortFailed e) (.abortResolve e)
  | terminateCheckout {err cause : Err E} {paused : Option ℕ} :
      Follows s (.terminateSession err) (.terminateCheckout cause paused)
  | untrack {cause : Err E} {paused : Option ℕ} :
      Follows s (.terminateCheckout cause paused) (.untrack cause paused)
  | forceCheckout {e : ℕ} : Follows s (.forceExecution e) (.forceCheckout e)
  | forceUntrack {e : ℕ} : Follows s (.forceCheckout e) (.forceUntrack e)
  | rotate : Follows s .reserveRotation .rotate
  | handoff : Follows s .rotate .handoff
  | bind : Follows s .handoff .bind
  | attach : Follows s .bind (.attach s.checkouts)
  | other {f g : Frame E V} (h : g.plain) : Follows s f g

theorem follows_threads {st : Session.Started} (hg : g ∈ (st.threads e).flatten) :
    Follows s f g := by
  refine .other ?_
  rcases mem_threads hg with rfl | rfl | rfl <;> rfl

theorem drive_follows (hm : drive s e c = some m) (hg : g ∈ m.fresh) : Follows s (.drive e) g := by
  unfold drive at hm
  (repeat' split at hm) <;> cases hm
  all_goals
    simp only [Threads.Move.fresh, driveOn, List.flatten_nil, List.append_nil, List.mem_append,
      List.mem_cons, List.not_mem_nil, or_false] at hg
  case h_1 | h_2 =>
    rcases hg with rfl | hg
    · exact .other rfl
    · exact follows_threads hg
  all_goals
    exact .other (by rcases hg with rfl | rfl <;> rfl)

theorem advance_follows (hm : advance s f c = some m) (hg : g ∈ m.fresh) : Follows s f g := by
  cases f with
  | drive e => exact drive_follows hm hg
  | requestStop e p =>
    simp only [advance, requested] at hm
    split at hm <;>
      · cases hm
        exact follows_threads hg
  | watchStop e =>
    simp only [advance, watchStop] at hm
    (repeat' split at hm) <;> cases hm
    all_goals
      simp only [Threads.Move.fresh, List.flatten_nil, List.append_nil, List.mem_append,
        List.mem_cons, List.not_mem_nil, or_false] at hg
    · exact .other (by rcases hg with rfl | rfl <;> rfl)
    · exact .other (by subst hg; rfl)
    rcases hg with rfl | hg
    · exact .other rfl
    · exact follows_threads hg
  | abortCheck e =>
    simp only [advance] at hm
    split at hm <;>
      · cases hm
        cases hterminal : s.terminal with
        | none =>
          simp only [Threads.Move.fresh, hterminal, List.flatten_nil, List.append_nil,
            Option.isSome_none, Bool.false_eq_true, if_false, List.mem_singleton] at hg
          subst hg
          first
          | exact .abortFailed hterminal
          | exact .other rfl
        | some cause => simp [Threads.Move.fresh, hterminal] at hg
  | untrack cause paused =>
    cases hm
    cases paused with
    | none => simp [Threads.Move.fresh] at hg
    | some e =>
      simp only [Threads.Move.fresh, Option.toList_some, List.map_cons, List.map_nil,
        List.flatten_nil, List.append_nil, List.mem_singleton] at hg
      exact .other (by subst hg; rfl)
  | closeRelease a r cause =>
    cases r <;>
      · cases hm
        simp only [Threads.Move.fresh, List.flatten_nil, List.append_nil, List.mem_cons,
          List.not_mem_nil, or_false] at hg
        exact .other (by rcases hg with rfl | rfl <;> rfl)
  | _ =>
    simp only [advance, failRotation, forced, aborting, released, closing, closeRound] at hm
    (repeat' split at hm) <;> cases hm
    all_goals
      simp only [Threads.Move.fresh, List.flatten_cons, List.flatten_nil, List.append_nil,
        List.mem_append, List.mem_cons, List.not_mem_nil, or_false, false_or] at hg
    all_goals grind [Follows, Frame.plain]

end Montygo.Lifecycle
