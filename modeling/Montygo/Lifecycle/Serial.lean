import Montygo.Lifecycle.Terminal

/-!
# The executions of a session

`Wait` on a run and every section that waits for an execution wait for its `done`.  An execution is
lost if it makes place for another one, or for none, while its `done` is open.  Only two sections
change which execution is current: the one that admits it, and the one that finishes it and closes
its `done` in the same step.
-/

namespace Montygo.Lifecycle

open Transition Session

variable {E V : Type} {s s' : Session E V}

/-- No execution is admitted, and only one that is done gives up its place. -/
structure Continues (s s' : Session E V) : Prop where
  nextID : s'.nextID = s.nextID
  current : ∀ e, s'.current = some e → s.current = some e
  done : ∀ e, (s.execution e).done ≤ (s'.execution e).done
  closed : ∀ e, s.current = some e → s'.current = some e ∨ 0 < (s'.execution e).done

theorem Continues.same (hnext : s'.nextID = s.nextID) (hcurrent : s'.current = s.current)
    (hdone : ∀ e, (s'.execution e).done = (s.execution e).done) : Continues s s' :=
  ⟨hnext, fun _ h => hcurrent ▸ h, fun e => (hdone e).ge, fun _ h => .inl (hcurrent.trans h)⟩

theorem Continues.refl (s : Session E V) : Continues s s := .same rfl rfl fun _ => rfl

theorem done_put {e : ℕ} {x : Execution E V} (hx : x.done = (s.execution e).done) (e' : ℕ) :
    ((s.put e x).execution e').done = (s.execution e').done := by
  rw [put_execution]
  split_ifs with he
  · rw [he, hx]
  · rfl

theorem continues_setTerminal (err : Err E) {e : ℕ} {x : Execution E V}
    (hx : x.done = (s.execution e).done) : Continues s ((s.setTerminal err).put e x) := by
  refine .same ?_ (by simp) fun e' => ?_
  · unfold setTerminal
    split <;> rfl
  · rw [done_put (by simpa using hx), setTerminal_execution]

theorem continues_resolveStopLocked (e : ℕ) (kind : StopKind) :
    Continues s (s.resolveStopLocked e kind) := by
  obtain ⟨stop, h⟩ := s.resolveStopLocked_spec e kind
  exact h ▸ .same rfl rfl (done_put rfl)

/-- The execution that is finished is done when it gives up its place. -/
theorem continues_finishExecution (e : ℕ) (v : Option V) (err : Option (Err E)) :
    Continues s (s.finishExecution e v err) := by
  rcases s.finishExecution_cases e v err with ⟨h, -⟩ | ⟨stop, h⟩ <;> rw [h]
  · exact .refl s
  refine ⟨rfl, fun e' he' => ?_, fun e' => ?_, fun e' hcurrent => ?_⟩
  · simp only at he'
    split_ifs at he'
    exact he'
  all_goals by_cases he : e' = e
  · simp [he]
  · simp [put_execution, he]
  · exact .inr (by simp [he])
  · exact .inl (by simp [hcurrent, he])

theorem effect_continues {f : Frame E V} (h : Effect s f s')
    (hnot : ∀ e, s.reserveExecution ≠ .ok (e, s')) : Continues s s' := by
  cases h with
  | reserved hreserve => exact absurd hreserve (hnot _)
  | finished e v err => exact continues_finishExecution e v err
  | @terminated err _ =>
    rcases s.terminateSession_cases err with ⟨-, h⟩ | ⟨e, -, -, h⟩ | ⟨e, -, -, h⟩ <;> rw [h]
    · rw [← (s.setTerminal err).put_self 0]
      exact continues_setTerminal err (by simp)
    all_goals exact continues_setTerminal err rfl
  | @forced e early _ =>
    rcases s.forceExecution_cases e early with h | h | ⟨_, -, -, h⟩ |
      ⟨_, -, -, -, -, -, -, -, h⟩ <;> rw [h]
    · exact .refl s
    · exact .refl s
    · exact continues_resolveStopLocked e .finished
    · exact continues_setTerminal _ rfl
  | touched htouched => exact .same rfl rfl (done_put (congrArg (·.2.2.2) htouched.ends))
  | resolved _ => exact continues_resolveStopLocked _ _
  | claimed _ hclaim =>
    obtain ⟨-, rfl⟩ := claimSnapshot_eq_ok hclaim
    refine .same rfl rfl (done_put ?_)
    rfl
  | paused hpause =>
    obtain ⟨-, rfl⟩ := publishPause_eq_ok hpause
    refine .same rfl rfl (done_put ?_)
    rfl
  | controlled hreserve =>
    rcases reserveControlFor_eq_ok hreserve with ⟨-, -, -, -, rfl⟩ | ⟨e, -, -, -, -, -, rfl⟩
    · exact .same rfl rfl fun _ => rfl
    · exact .same rfl rfl (done_put rfl)
  | @released r _ =>
    rcases s.releaseControl_cases r with ⟨-, h⟩ | ⟨e, cause, -, -, h⟩ | ⟨e, -, -, -, h⟩ |
      ⟨e, -, -, -, h⟩ <;> rw [h]
    · exact .same rfl rfl fun _ => rfl
    all_goals exact .same rfl rfl (done_put rfl)
  | owned =>
    rcases s.closeOwned_cases with h | h | ⟨-, -, h⟩ | ⟨e, -, -, h⟩ <;> rw [h]
    · exact .refl s
    · exact .refl s
    · exact .same rfl rfl fun _ => rfl
    · exact .same rfl rfl (done_put rfl)
  | closing hclose =>
    obtain rfl := close_eq_some hclose
    exact .same rfl rfl fun _ => rfl
  | nothing | ended _ | bound _ | attached _ | freed | settled _ => exact .same rfl rfl fun _ => rfl

variable {sys sys' : System E V} {a : Act E V} {acts : List (Act E V)}

theorem step_continues (hstep : (program E V).step sys a = .ok sys') :
    (∃ e, sys.shared.reserveExecution = .ok (e, sys'.shared)) ∨
      Continues sys.shared sys'.shared := by
  refine Threads.step_shared (P := fun s' => (∃ e, sys.shared.reserveExecution = .ok (e, s')) ∨
    Continues sys.shared s') hstep ?_ ?_ (.inr (.refl _))
  · intro f others m hran
    obtain ⟨c, hm⟩ := hran.advance
    rw [or_iff_not_imp_left, not_exists]
    exact effect_continues (advance_effect hm)
  · intro k
    exact .inr (.same rfl rfl fun _ => rfl)

/-- The last execution may be under way, and the others are done. -/
structure Serial (s : Session E V) : Prop where
  last : ∀ e, s.current = some e → e = s.nextID
  done : ∀ e, 0 < e → e ≤ s.nextID → s.current = some e ∨ 0 < (s.execution e).done

theorem Continues.serial (h : Continues s s') (hs : Serial s) : Serial s' where
  last e he := h.nextID ▸ hs.last e (h.current e he)
  done e hpos hle := by
    rcases hs.done e hpos (h.nextID ▸ hle) with hcurrent | hdone
    · exact h.closed e hcurrent
    · exact .inr (hdone.trans_le (h.done e))

/-- The new execution takes the next number, and there is no other. -/
theorem reserveExecution_serial {e : ℕ} (h : s.reserveExecution = .ok (e, s')) (hs : Serial s) :
    Serial s' := by
  have hnext : e = s.nextID + 1 := by
    unfold reserveExecution at h
    split at h
    · cases h
    · split_ifs at h
      cases h
      rfl
  obtain ⟨-, hnone, -, rfl⟩ := reserveExecution_eq_ok h
  refine ⟨fun e' he' => (Option.some.inj he').symm, fun e' hpos hle => ?_⟩
  by_cases he' : e' = e
  · exact .inl (he' ▸ rfl)
  · have hold := hs.done e' hpos (by simp only at hle; omega)
    exact .inr (by simpa [put_execution, he', hnone] using hold)

/-- **No execution is lost.**  In every state that interleaved operations reach, an admitted
execution whose `done` is still open is the current one and the last that was admitted, and the
current one's `done` is open.  So one execution at most is ever under way, and no `Wait` waits for
an execution that the session has forgotten. -/
theorem open_execution_is_current (hreach : Reaches (fun _ _ => True) sys) {e : ℕ} (hpos : 0 < e)
    (hadmitted : e ≤ sys.shared.nextID) :
    (sys.shared.execution e).done = 0 ↔ sys.shared.current = some e ∧ e = sys.shared.nextID := by
  have hs : Serial sys.shared := by
    refine hreach.invariant (P := fun sys => Serial sys.shared) ?_ fun _ _ _ hs _ hstep =>
      (step_continues hstep).elim (fun ⟨_, h⟩ => reserveExecution_serial h hs) (·.serial hs)
    rintro _ ⟨p, rfl⟩
    exact ⟨by simp [initial], fun e hpos hle => absurd hle (by simpa [initial] using hpos.ne')⟩
  constructor
  · intro hopen
    have hcurrent := (hs.done e hpos hadmitted).resolve_right (by omega)
    exact ⟨hcurrent, hs.last e hcurrent⟩
  · exact fun h => (reaches_ended hreach).running e h.1

/-- A feed has ended and a second one is under way. -/
def secondFeed : List (Act Unit Unit) :=
  [.call .reserveExecution, .run 1 .go, .run 1 (.finish (some ()) none), .run 1 .go,
    .call .reserveExecution, .run 2 .go]

theorem open_execution_is_current_secondFeed :
    ∃ sys, run (program Unit Unit).step (initial { reason := () }) secondFeed = .ok sys ∧
      (sys.shared.execution 1).done ≠ 0 ∧ (sys.shared.execution 2).done = 0 := by
  obtain ⟨sys, hrun, hnext, hcurrent⟩ :
      ∃ sys, run (program Unit Unit).step (initial { reason := () }) secondFeed = .ok sys ∧
        sys.shared.nextID = 2 ∧ sys.shared.current = some 2 := ⟨_, rfl, rfl, rfl⟩
  have hreach := reaches_of_run hrun
  refine ⟨sys, hrun, fun h => ?_, ?_⟩
  · have := (open_execution_is_current hreach Nat.one_pos (by omega)).mp h
    simp [hcurrent] at this
  · exact (open_execution_is_current hreach Nat.two_pos (by omega)).mpr ⟨hcurrent, hnext.symm⟩

/-- **A session that has ended starts nothing more.**  Whatever is called on it afterwards, no
execution is admitted, none becomes current that was not, and one that is done stays done. -/
theorem terminal_admits_nothing (hreach : Reaches (fun _ _ => True) sys)
    (hterminal : sys.shared.terminal ≠ none) (hrun : run (program E V).step sys acts = .ok sys') :
    sys'.shared.nextID = sys.shared.nextID ∧
      (∀ e, sys'.shared.current = some e → sys.shared.current = some e) ∧
      ∀ e, (sys.shared.execution e).done ≤ (sys'.shared.execution e).done := by
  induction acts generalizing sys with
  | nil =>
    cases hrun
    exact ⟨rfl, fun _ h => h, fun _ => le_rfl⟩
  | cons a rest ih =>
    obtain ⟨sys₁, hstep, hrest⟩ := exists_of_run_cons hrun
    obtain ⟨c, hc⟩ := Option.ne_none_iff_exists'.mp hterminal
    have hkept := (step_ended (reaches_ended hreach) hstep).2.terminal c hc
    obtain ⟨hnext, hcurrent, hdone⟩ := ih (hreach.step trivial hstep) (by simp [hkept]) hrest
    have hstays := (step_continues hstep).resolve_left fun ⟨_, h⟩ =>
      hterminal (reserveExecution_eq_ok h).1
    exact ⟨hnext.trans hstays.nextID, fun e he => hstays.current e (hcurrent e he),
      fun e => (hstays.done e).trans (hdone e)⟩

/-- `Close` with `KillNow` ends an idle session, and then a feed is tried. -/
theorem terminal_admits_nothing_closed :
    ∃ sys sys', run (program Unit Unit).step (initial { reason := () })
        [.call (.terminateSession .sessionClosed), .run 1 .go] = .ok sys ∧
      run (program Unit Unit).step sys [.call .reserveExecution, .run 2 .go] = .ok sys' ∧
      sys.shared.terminal = some .sessionClosed ∧ sys'.shared.nextID = sys.shared.nextID := by
  obtain ⟨sys, sys', hrun, hthen, hterminal⟩ :
      ∃ sys sys', run (program Unit Unit).step (initial { reason := () })
          [.call (.terminateSession .sessionClosed), .run 1 .go] = .ok sys ∧
        run (program Unit Unit).step sys [.call .reserveExecution, .run 2 .go] = .ok sys' ∧
        sys.shared.terminal = some .sessionClosed := ⟨_, _, rfl, rfl, rfl⟩
  exact ⟨sys, sys', hrun, hthen, hterminal,
    (terminal_admits_nothing (reaches_of_run hrun) (by simp [hterminal]) hthen).1⟩

end Montygo.Lifecycle
