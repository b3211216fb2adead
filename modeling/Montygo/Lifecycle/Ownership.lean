import Montygo.Lifecycle.Effects

/-!
# One operation owns the protocol

A goroutine owns the protocol from the section that admits it to the one that lets go: the driver
of an execution, the holder of a control reservation, the closer, and whoever is to abort or
finish a paused execution it took.  The state shows an owner in two ways.  Either an execution is
current, not paused, with its `operationDone` open, or there is none and `controlDone` is open.
No section admits an operation in such a state, and none but the owner's leaves it.
-/

namespace Montygo.Lifecycle

open Threads Transition Session

variable {E V : Type} {s s' : Session E V}

/-! ## Owners -/

/-- What an operation owns the protocol by: the current execution, or the control reservation of
an idle session. -/
inductive Owner where
  | execution (e : ℕ)
  | control
  deriving DecidableEq

/-- A reservation on a paused execution, or on an idle session. -/
def Owner.reservation : Option ℕ → Owner
  | some e => .execution e
  | none => .control

/-- What the goroutine at a frame owns. -/
def Frame.owner : Frame E V → Option Owner
  | .drive e => some (.execution e)
  | .finishExecution e _ _ => some (.execution e)
  | .abortPaused e => some (.execution e)
  | .terminateCheckout _ paused => paused.map .execution
  | .untrack _ paused => paused.map .execution
  | .control e => some (.reservation e)
  | .releaseControl e => some (.reservation e)
  | .rotate => some .control
  | .handoff => some .control
  | .bind => some .control
  | .attach _ => some .control
  | .closeFinish _ e => some (.reservation e)
  | .closeRelease _ e _ => some (.reservation e)
  | _ => none

/-- How the state shows that something is owned. -/
def Holds (s : Session E V) : Owner → Prop
  | .execution e => s.current = some e ∧ (s.execution e).phase ≠ .paused ∧
      (s.execution e).operationDone = true
  | .control => s.current = none ∧ s.controlDone = true

/-- A paused execution is the current one. -/
def PausedCurrent (s : Session E V) : Prop :=
  ∀ e, (s.execution e).phase = .paused → s.current = some e

/-! ## States in which nothing is owned -/

theorem not_holds_of_idle (hcurrent : s.current = none) (hcontrol : s.controlDone = false)
    (o : Owner) : ¬ Holds s o := by
  cases o <;> simp [Holds, hcurrent, hcontrol]

variable {e : ℕ} {x : Execution E V} {o : Owner} {f : Frame E V} {m : Outcome E V}

theorem not_holds_of_paused (hcurrent : s.current = some e)
    (hpaused : (s.execution e).phase = .paused ∨ (s.execution e).operationDone = false)
    (o : Owner) : ¬ Holds s o := by
  cases o with
  | execution e' =>
    rintro ⟨hcurrent', hphase, hoperation⟩
    cases hcurrent.symm.trans hcurrent'
    rcases hpaused with hpaused | hpaused
    · exact hphase hpaused
    · simp [hpaused] at hoperation
  | control => simp [Holds, hcurrent]

/-! ## Changes that leave an owner alone -/

theorem Holds.put (hx : (s.execution e).phase ≠ .paused → (s.execution e).operationDone = true →
      x.phase ≠ .paused ∧ x.operationDone = true) (h : Holds s o) :
    Holds (s.put e x) o := by
  cases o with
  | execution e' =>
    obtain ⟨hcurrent, hphase, hoperation⟩ := h
    refine ⟨hcurrent, ?_⟩
    rw [put_execution]
    split_ifs with he
    · subst he
      exact hx hphase hoperation
    · exact ⟨hphase, hoperation⟩
  | control => exact h

theorem Holds.setTerminal {err : Err E} (h : Holds s o) : Holds (s.setTerminal err) o := by
  cases o <;> simpa [Holds] using h

theorem Holds.resolveStopLocked {kind : StopKind} (h : Holds s o) :
    Holds (s.resolveStopLocked e kind) o := by
  obtain ⟨stop, hresolve⟩ := s.resolveStopLocked_spec e kind
  rw [hresolve]
  refine h.put ?_
  exact fun hphase hoperation => ⟨hphase, hoperation⟩

/-! ## The goroutines a stop starts -/

theorem owners_threads (st : Session.Started) (e : ℕ) :
    (st.threads e : List (List (Frame E V))).flatten.filterMap Frame.owner =
      if st.abort then [.execution e] else [] := by
  cases hwatch : st.watch <;> cases habort : st.abort <;>
    · simp only [Session.Started.threads, hwatch, habort]
      rfl

theorem owners_driveOn (e : ℕ) (r : Session E V × Session.Started) :
    (driveOn e r).fresh.filterMap Frame.owner =
      [.execution e] ++ if r.2.abort then [.execution e] else [] := by
  rw [Move.fresh, List.filterMap_append]
  exact congrArg ([Owner.execution e] ++ ·) (owners_threads r.2 e)

/-- A section of the driver, or one that registers a stop: what is owned stays so, and with
`abort` a paused execution is taken that nobody owned. -/
theorem passes_touched {abort : Bool} (hpaused : PausedCurrent s)
    (hf : f.owner = none ∨ f.owner = some (.execution e))
    (hholds : ∀ o, f.owner = some o → Holds s o) (hshared : m.shared = s.put e x)
    (htouched : Touched (s.execution e) x abort)
    (hfresh : m.fresh.filterMap Frame.owner =
      f.owner.toList ++ if abort then [.execution e] else []) :
    Passes Frame.owner Holds s f m := by
  cases abort with
  | false =>
    refine .keeps (fun o ho => ?_) (by simpa using hfresh)
    rw [hshared]
    exact ho.put htouched.held
  | true =>
    obtain ⟨hphase, hphase', hoperation'⟩ := htouched.aborts rfl
    have hcurrent := hpaused e hphase
    have hfree := not_holds_of_paused hcurrent (.inl hphase)
    rcases hf with hf | hf
    · rw [hf] at hfresh
      refine .passes (.inr hfree) (by simp [hfresh]) fun o ho => ?_
      rw [hfresh] at ho
      simp only [Option.toList_none, if_true, List.nil_append, List.mem_singleton] at ho
      subst ho
      rw [hshared]
      exact ⟨hcurrent, by simpa using hphase', by simpa using hoperation'⟩
    · exact absurd (hholds _ hf) (hfree _)

theorem passes_flow (hshared : m.shared = s)
    (hfresh : m.fresh.filterMap Frame.owner = f.owner.toList) : Passes Frame.owner Holds s f m :=
  .keeps (fun _ ho => hshared ▸ ho) hfresh

theorem passes_released (hf : f.owner.isSome) (hfresh : m.fresh.filterMap Frame.owner = []) :
    Passes Frame.owner Holds s f m :=
  .passes (.inl hf) (by simp [hfresh]) (by simp [hfresh])

/-! ## Each frame -/

theorem drive_passes {c : Choice E V} (hpaused : PausedCurrent s)
    (hholds : ∀ o, (Frame.drive e : Frame E V).owner = some o → Holds s o)
    (hm : drive s e c = some m) : Passes Frame.owner Holds s (.drive e) m := by
  unfold drive at hm
  split at hm
  · cases hm
    obtain ⟨x, hx, htouched⟩ := s.beginExecution_spec e _
    exact passes_touched hpaused (.inr rfl) hholds hx htouched (owners_driveOn e _)
  · cases hm
    obtain ⟨x, hx, htouched⟩ := s.beginSend_spec e _
    exact passes_touched hpaused (.inr rfl) hholds hx htouched (owners_driveOn e _)
  · split_ifs at hm <;>
      · cases hm
        exact passes_flow rfl rfl
  · cases hm
    obtain ⟨x, hx, htouched⟩ := s.beginCallback_spec e
    exact passes_touched hpaused (.inr rfl) hholds hx htouched rfl
  · cases hm
    obtain ⟨x, hx, htouched⟩ := s.endCallback_spec e
    exact passes_touched hpaused (.inr rfl) hholds hx htouched rfl
  · cases hm
    obtain ⟨x, hx, htouched⟩ := s.beforeResume_spec e
    exact passes_touched hpaused (.inr rfl) hholds hx htouched rfl
  · cases hm
    obtain ⟨x, hx, htouched⟩ := s.deliverStop_spec e
    exact passes_touched hpaused (.inr rfl) hholds hx htouched rfl
  · cases hm
    exact passes_flow rfl rfl
  · cases hm
    exact passes_flow rfl rfl
  · split at hm
    · cases hm
      -- The pause lets go of the protocol.
      exact passes_released rfl rfl
    · cases hm
      exact passes_flow rfl rfl
  · cases hm
    exact passes_flow rfl rfl
  · cases hm

theorem reserveExecution_holds (h : s.reserveExecution = .ok (e, s')) :
    (∀ o, ¬ Holds s o) ∧ Holds s' (.execution e) := by
  obtain ⟨-, hcurrent, hcontrol, rfl⟩ := reserveExecution_eq_ok h
  exact ⟨not_holds_of_idle hcurrent hcontrol, rfl, by simp, by simp⟩

theorem claimSnapshot_holds {t : ℕ} (h : s.claimSnapshot t = .ok s') :
    (∀ o, ¬ Holds s o) ∧ Holds s' (.execution (s.token t).exec) := by
  obtain ⟨hnone, rfl⟩ := claimSnapshot_eq_ok h
  obtain ⟨-, hcurrent, -, hphase, -⟩ := snapshotErrorLocked_eq_none.mp hnone
  exact ⟨not_holds_of_paused hcurrent (.inl hphase), hcurrent, by simp, by simp⟩

theorem reserveControlFor_holds {allowPaused : Bool} {t r : Option ℕ}
    (h : s.reserveControlFor allowPaused t = .ok (r, s')) :
    (∀ o, ¬ Holds s o) ∧ Holds s' (.reservation r) := by
  rcases reserveControlFor_eq_ok h with ⟨-, hcontrol, rfl, hcurrent, rfl⟩ |
    ⟨e, -, -, rfl, hcurrent, hphase, rfl⟩
  · exact ⟨not_holds_of_idle hcurrent hcontrol, hcurrent, rfl⟩
  · exact ⟨not_holds_of_paused hcurrent (.inl hphase), hcurrent, by simp, by simp⟩

theorem passes_acquired (h : (∀ o, ¬ Holds s o) ∧ Holds m.shared o)
    (hfresh : m.fresh.filterMap Frame.owner = [o]) :
    Passes Frame.owner Holds s f m := by
  refine .passes (.inr h.1) (by simp [hfresh]) fun o' ho' => ?_
  rw [hfresh, List.mem_singleton] at ho'
  exact ho' ▸ h.2

theorem terminateSession_passes (err : Err E) : Passes Frame.owner Holds s (.terminateSession err)
      ({ shared := (s.terminateSession err).1
         push := [.terminateCheckout (s.terminateSession err).2.1 (s.terminateSession err).2.2] } :
        Outcome E V) := by
  rcases s.terminateSession_cases err with ⟨-, h⟩ | ⟨e, -, -, h⟩ | ⟨e, hcurrent, hphase, h⟩
  · rw [h]
    exact .keeps (fun o ho => ho.setTerminal) rfl
  · rw [h]
    refine .keeps (fun o ho => ho.setTerminal.put ?_) rfl
    simp only [setTerminal_execution]
    exact fun hphase hoperation => ⟨hphase, hoperation⟩
  · rw [h]
    have hfree := not_holds_of_paused hcurrent (.inl hphase)
    have hheld : Holds ((s.setTerminal err).put e { s.execution e with
        terminalCause := some (s.terminal.getD err), phase := .aborting
        operationDone := true }) (.execution e) :=
      ⟨by simpa using hcurrent, by simp, by simp⟩
    exact passes_acquired ⟨hfree, hheld⟩ rfl

theorem forced_passes (e : ℕ) (early : Bool) :
    Passes Frame.owner Holds s (.forceExecution e) (forced e (s.forceExecution e early)) := by
  rcases s.forceExecution_cases e early with h | h | ⟨req, -, -, h⟩ | ⟨req, -, -, -, -, -, -, -, h⟩
  · rw [h]
    exact passes_flow rfl rfl
  · rw [h]
    exact passes_flow rfl rfl
  · rw [h]
    exact .keeps (fun o ho => ho.resolveStopLocked) rfl
  · rw [h]
    refine .keeps (fun o ho => ho.setTerminal.put ?_) rfl
    simp only [setTerminal_execution]
    exact fun hphase hoperation => ⟨hphase, hoperation⟩

theorem released_passes (r : Option ℕ) :
    Passes Frame.owner Holds s (.releaseControl r) (released (s.releaseControl r)) := by
  rcases s.releaseControl_cases r with ⟨-, h⟩ | ⟨e, cause, rfl, -, h⟩ | ⟨e, rfl, -, -, h⟩ |
    ⟨e, rfl, -, -, h⟩
  · rw [h]
    exact passes_released rfl rfl
  · rw [h]
    exact .keeps (fun o ho => ho.put fun _ _ => by simp) rfl
  · rw [h]
    -- The reservation goes over to the goroutine that aborts the execution.
    exact .keeps (fun o ho => ho.put fun _ _ => by simp) rfl
  · rw [h]
    exact passes_released rfl rfl

theorem closeRound_passes (a : ℕ) :
    Passes Frame.owner Holds s (.closeOwned a) (closeRound a s.closeOwned) := by
  rcases s.closeOwned_cases with h | h | ⟨hcurrent, hcontrol, h⟩ | ⟨e, hcurrent, hoperation, h⟩
  · rw [h]
    exact passes_flow rfl rfl
  · rw [h]
    exact passes_flow rfl rfl
  · rw [h]
    have hfree := not_holds_of_idle hcurrent hcontrol
    exact passes_acquired (o := .control) ⟨hfree, hcurrent, rfl⟩ rfl
  · rw [h]
    have hfree := not_holds_of_paused hcurrent (.inr hoperation)
    exact passes_acquired (o := .execution e) ⟨hfree, hcurrent, by simp [closeRound],
      by simp [closeRound]⟩ rfl

/-- **Every step passes ownership on**, or takes it when nobody has it. -/
theorem advance_passes {c : Choice E V} (hpaused : PausedCurrent s)
    (hholds : ∀ o, f.owner = some o → Holds s o) (hm : advance s f c = some m) :
    Passes Frame.owner Holds s f m := by
  cases f with
  | reserveExecution =>
    simp only [advance] at hm
    split at hm
    · cases hm
      exact passes_flow rfl rfl
    · split at hm
      · rename_i hreserve
        cases hm
        exact passes_acquired (reserveExecution_holds hreserve) rfl
      · cases hm
        exact passes_flow rfl rfl
  | claimSnapshot t =>
    simp only [advance] at hm
    split at hm
    · cases hm
      exact passes_flow rfl rfl
    · split at hm
      · rename_i hclaim
        cases hm
        exact passes_acquired (claimSnapshot_holds hclaim) rfl
      · cases hm
        exact passes_flow rfl rfl
  | drive e => exact drive_passes hpaused hholds hm
  | finishExecution e v err =>
    cases hm
    exact passes_released rfl rfl
  | abortExecution e =>
    cases hm
    unfold aborting
    split
    · rename_i s' habort
      obtain ⟨x, hx, htouched⟩ := abortExecution_spec habort
      exact passes_touched hpaused (.inl rfl) hholds hx htouched rfl
    · exact passes_flow rfl rfl
  | abortMark e =>
    cases hm
    obtain ⟨x, hx, htouched⟩ := s.markAborted_spec e
    exact passes_touched hpaused (.inl rfl) hholds hx htouched rfl
  | abortResolve e | forceResolve e =>
    cases hm
    exact .keeps (fun o ho => ho.resolveStopLocked) rfl
  | terminateSession err =>
    cases hm
    exact terminateSession_passes err
  | terminateCheckout cause paused =>
    cases hm
    exact .keeps (fun o ho => by cases o <;> exact ho) (by cases paused <;> rfl)
  | untrack cause paused =>
    cases hm
    exact passes_flow rfl (by cases paused <;> rfl)
  | forceExecution e =>
    simp only [advance] at hm
    split at hm <;>
      · cases hm
        exact forced_passes e _
  | forceCheckout e | attach k | settleClose a =>
    cases hm
    exact .keeps (fun o ho => by cases o <;> exact ho) rfl
  | requestStop e p =>
    simp only [advance] at hm
    split at hm <;>
      · cases hm
        obtain ⟨x, hx, htouched⟩ := s.requestStop_spec e p _
        exact passes_touched hpaused (.inl rfl) hholds hx htouched (owners_threads _ e)
  | watchStop e =>
    simp only [advance] at hm
    split at hm
    · split_ifs at hm
      cases hm
      exact passes_flow rfl rfl
    · unfold watchStop at hm
      split at hm
      · cases hm
      split_ifs at hm
      · cases hm
        exact passes_flow rfl rfl
      · cases hm
        exact passes_flow rfl rfl
      · cases hm
        obtain ⟨x, hx, htouched⟩ := s.enterRequestLocked_spec e
        exact passes_touched hpaused (.inl rfl) hholds hx htouched (owners_threads _ e)
  | reserveControl allowPaused t =>
    simp only [advance] at hm
    split at hm
    · cases hm
      exact passes_flow rfl rfl
    · split at hm
      · rename_i hreserve
        cases hm
        exact passes_acquired (reserveControlFor_holds hreserve) rfl
      · cases hm
        exact passes_flow rfl rfl
  | releaseControl r =>
    cases hm
    exact released_passes r
  | reserveRotation =>
    simp only [advance] at hm
    split at hm
    · cases hm
      exact passes_flow rfl rfl
    · split at hm
      · rename_i r s' hreserve
        cases hm
        have hacquired := reserveControlFor_holds hreserve
        -- A rotation reserves an idle session only.
        rcases reserveControlFor_eq_ok hreserve with ⟨-, -, rfl, -⟩ | ⟨e, -, hallow, -⟩
        · exact passes_acquired (o := .control) hacquired rfl
        · cases hallow
      · cases hm
        exact passes_flow rfl rfl
  | handoff =>
    simp only [advance] at hm
    split at hm
    · cases hm
      exact passes_flow rfl rfl
    · split_ifs at hm
      cases hm
      exact .keeps (fun o ho => by cases o <;> exact ho) rfl
  | bind =>
    simp only [advance] at hm
    split at hm
    · cases hm
      exact passes_flow rfl rfl
    · cases hm
      exact .keeps (fun o ho => by cases o <;> exact ho) rfl
  | close p =>
    simp only [advance] at hm
    split at hm
    · cases hm
      exact passes_flow rfl rfl
    · cases hm
      unfold closing
      split
      · exact passes_flow rfl rfl
      all_goals
        rename_i hclose
        obtain rfl := close_eq_some hclose
        exact .keeps (fun o ho => by cases o <;> exact ho) rfl
  | closeOwned a =>
    simp only [advance] at hm
    split at hm
    · cases hm
      exact passes_flow rfl rfl
    · cases hm
      exact closeRound_passes a
  | closeFinish a r =>
    simp only [advance] at hm
    split at hm <;>
      · cases hm
        exact .keeps (fun o ho => by cases o <;> exact ho) rfl
  | closeRelease a r cause =>
    cases r with
    | none =>
      cases hm
      exact passes_released rfl rfl
    | some e =>
      cases hm
      exact passes_flow rfl rfl
  -- The other frames leave the session alone and go on to the next one.
  | abortTurn _ | abortCheck _ | abortFailed _ | abortPaused _ | forceUntrack _
  | requestStopForStep _ _ | control _ | rotate | watchConnection _ | closeStop _ _
  | finishClose _ _ =>
    simp only [advance] at hm
    (repeat' split at hm) <;>
      · cases hm
        try exact passes_flow rfl rfl

/-! ## Paused executions -/

theorem PausedCurrent.put (h : PausedCurrent s) (hx : x.phase = .paused → s.current = some e) :
    PausedCurrent (s.put e x) := by
  intro e' hphase
  rw [put_execution] at hphase
  split_ifs at hphase with he
  · exact he ▸ hx hphase
  · exact h e' hphase

theorem finishExecution_pausedCurrent (e : ℕ) (v : Option V) (err : Option (Err E))
    (h : PausedCurrent s) : PausedCurrent (s.finishExecution e v err) := by
  rcases s.finishExecution_cases e v err with ⟨hsame, -⟩ | ⟨stop, hfinish⟩
  · rwa [hsame]
  rw [hfinish]
  intro e' hphase
  by_cases he : e' = e
  · subst he
    simp at hphase
  · have hcurrent := h e' (by simpa [put_execution, he] using hphase)
    have hne : s.current ≠ some e := by
      rw [hcurrent]
      simpa using he
    simpa [hne] using hcurrent

theorem effect_pausedCurrent (h : Effect s f s') (hpaused : PausedCurrent s)
    (hholds : ∀ o, f.owner = some o → Holds s o) : PausedCurrent s' := by
  cases h with
  | touched htouched => exact hpaused.put fun hphase => hpaused _ (htouched.paused hphase)
  | reserved hreserve =>
    obtain ⟨-, hcurrent, -, rfl⟩ := reserveExecution_eq_ok hreserve
    intro e' hphase
    simp only [put_execution] at hphase
    split_ifs at hphase
    have hcurrent' := hpaused e' hphase
    simp [hcurrent] at hcurrent'
  | claimed _ hclaim =>
    obtain ⟨-, rfl⟩ := claimSnapshot_eq_ok hclaim
    exact hpaused.put (by simp)
  | paused hpause =>
    obtain ⟨hnone, rfl⟩ := publishPause_eq_ok hpause
    exact hpaused.put fun _ => (executionErrorLocked_eq_none.mp hnone).2.2.1
  | controlled hreserve =>
    rcases reserveControlFor_eq_ok hreserve with ⟨-, -, -, -, rfl⟩ | ⟨e, -, -, -, -, -, rfl⟩
    · exact hpaused
    · exact hpaused.put (by simp)
  | @released r hf =>
    subst hf
    rcases s.releaseControl_cases r with ⟨-, h⟩ | ⟨e, cause, -, -, h⟩ | ⟨e, -, -, -, h⟩ |
      ⟨e, rfl, -, -, h⟩
    · rw [h]
      exact hpaused
    · rw [h]
      exact hpaused.put (by simp)
    · rw [h]
      exact hpaused.put (by simp)
    · rw [h]
      exact hpaused.put fun _ => (hholds (.execution e) rfl).1
  | finished e v err => exact finishExecution_pausedCurrent e v err hpaused
  | resolved _ =>
    obtain ⟨stop, hresolve⟩ := s.resolveStopLocked_spec _ _
    rw [hresolve]
    exact hpaused.put (hpaused _)
  | @terminated err _ =>
    rcases s.terminateSession_cases err with ⟨-, h⟩ | ⟨e, hcurrent, -, h⟩ | ⟨e, -, -, h⟩
    all_goals
      rw [h]
      intro e' hphase
      simp only [put_execution, setTerminal_execution] at hphase
      simp only [put_current, setTerminal_current]
    · exact hpaused e' hphase
    · split_ifs at hphase with he
      · exact he ▸ hpaused e hphase
      · exact hpaused e' hphase
    · split_ifs at hphase with he
      exact hpaused e' hphase
  | forced early _ =>
    rcases s.forceExecution_cases _ early with h | h | ⟨req, -, -, h⟩ |
      ⟨req, -, -, -, hcurrent, -, -, -, h⟩
    · rw [h]
      exact hpaused
    · rw [h]
      exact hpaused
    · obtain ⟨stop, hresolve⟩ := s.resolveStopLocked_spec _ .finished
      rw [h, hresolve]
      exact hpaused.put (hpaused _)
    · rw [h]
      intro e' hphase
      simp only [put_execution, setTerminal_execution] at hphase
      simp only [put_current, setTerminal_current]
      split_ifs at hphase with he
      · exact he ▸ hcurrent
      · exact hpaused e' hphase
  | closing hclose =>
    obtain rfl := close_eq_some hclose
    exact hpaused
  | owned =>
    rcases s.closeOwned_cases with h | h | ⟨-, -, h⟩ | ⟨e, -, -, h⟩
    · rw [h]
      exact hpaused
    · rw [h]
      exact hpaused
    · rw [h]
      exact hpaused
    · rw [h]
      exact hpaused.put (by simp)
  | nothing | ended _ | bound _ | attached _ | freed | settled _ => exact hpaused

/-! ## Every step -/

variable {sys sys' : System E V} {a : Act E V}

/-- One owner, and paused executions only where the owner let go. -/
structure Owned (sys : System E V) : Prop where
  one : OneOwner Frame.owner Holds sys
  paused : PausedCurrent sys.shared

theorem owned_initial (p : StopPolicy E) : Owned (initial p : System E V) := by
  refine ⟨⟨Nat.zero_le 1, ?_⟩, ?_⟩
  · intro g hg o ho
    simp only [Config.frames, initial, List.flatten_cons, List.flatten_nil, List.append_nil,
      List.mem_singleton] at hg
    subst hg
    cases ho
  · intro e hphase
    cases hphase

theorem entry_owner (hf : f.entry) : f.owner = none := by
  cases f <;> first | rfl | cases hf

theorem step_owned (hown : Owned sys) (hstep : (program E V).step sys a = .ok sys') :
    Owned sys' := by
  refine ⟨step_ownership hstep (fun f hf => entry_owner hf) ?_ ?_ hown.one,
    step_shared hstep ?_ ?_ hown.paused⟩
  · intro f others m hran hholds
    obtain ⟨c, hm⟩ := hran.advance
    exact advance_passes hown.paused hholds hm
  · intro o k ho
    cases o <;> exact ho
  · intro f others m hran
    obtain ⟨c, hm⟩ := hran.advance
    exact effect_pausedCurrent (advance_effect hm) hown.paused (hown.one.holds f hran.mem)
  · intro k
    exact hown.paused

theorem reaches_owned {guard : System E V → Act E V → Prop} (hreach : Reaches guard sys) :
    Owned sys := by
  refine hreach.invariant ?_ fun _ _ _ hown _ hstep => step_owned hown hstep
  rintro _ ⟨p, rfl⟩
  exact owned_initial p

end Montygo.Lifecycle
