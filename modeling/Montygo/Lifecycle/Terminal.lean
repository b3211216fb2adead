import Montygo.Lifecycle.Effects

/-!
# The terminal cause of a session

`terminateSession` and `forceExecution` both set the terminal cause, from any goroutine, and both
look at it first in the same section.  The cause is therefore set once, with the close of `done`
beside it, and whatever was the current execution then carries the cause to its own end.
-/

namespace Montygo.Lifecycle

open Transition Session

variable {E V : Type} {s s' : Session E V}

/-- How the terminal cause, the session's `done` and the executions fit together. -/
structure Ended (s : Session E V) : Prop where
  done : s.done = if s.terminal.isSome then 1 else 0
  cause : ∀ e c, (s.execution e).terminalCause = some c → s.terminal = some c
  current : ∀ e c, s.terminal = some c → s.current = some e → (s.execution e).terminalCause = some c
  running : ∀ e, s.current = some e → (s.execution e).done = 0
  reports : ∀ e c, (s.execution e).terminalCause = some c → 0 < (s.execution e).done →
    (s.execution e).err = some c ∧ (s.execution e).value = none

/-- What a step keeps of the terminal cause, and what comes with it when it is set. -/
structure KeepsCause (s s' : Session E V) : Prop where
  terminal : ∀ c, s.terminal = some c → s'.terminal = some c
  cause : ∀ e c, (s.execution e).terminalCause = some c → (s'.execution e).terminalCause = some c
  ends : ∀ e c, s.terminal = none → s'.terminal = some c → s.current = some e →
    (s'.execution e).terminalCause = some c

/-- A step that is not about ends: no cause, result or current execution changes. -/
structure SameEnds (s s' : Session E V) : Prop where
  terminal : s'.terminal = s.terminal
  done : s'.done = s.done
  current : s'.current = s.current
  ends : ∀ e, (s'.execution e).ends = (s.execution e).ends

theorem SameEnds.refl (s : Session E V) : SameEnds s s := ⟨rfl, rfl, rfl, fun _ => rfl⟩

theorem sameEnds_put (s : Session E V) {e : ℕ} {x : Execution E V}
    (hends : x.ends = (s.execution e).ends) : SameEnds s (s.put e x) := by
  refine ⟨rfl, rfl, rfl, fun e' => ?_⟩
  rw [put_execution]
  split_ifs with he
  · rw [he, hends]
  · rfl

theorem SameEnds.ended (h : SameEnds s s') (hs : Ended s) : Ended s' := by
  have hcause (e : ℕ) : (s'.execution e).terminalCause = (s.execution e).terminalCause :=
    congrArg (·.1) (h.ends e)
  have hdone (e : ℕ) : (s'.execution e).done = (s.execution e).done := congrArg (·.2.2.2) (h.ends e)
  refine ⟨?_, ?_, ?_, ?_, ?_⟩
  · rw [h.done, h.terminal]
    exact hs.done
  · intro e c hc
    rw [h.terminal]
    exact hs.cause e c (hcause e ▸ hc)
  · intro e c hc he
    rw [hcause]
    exact hs.current e c (h.terminal ▸ hc) (h.current ▸ he)
  · intro e he
    rw [hdone]
    exact hs.running e (h.current ▸ he)
  · intro e c hc hd
    have hresult := hs.reports e c (hcause e ▸ hc) (hdone e ▸ hd)
    exact ⟨(congrArg (·.2.2.1) (h.ends e)).trans hresult.1,
      (congrArg (·.2.1) (h.ends e)).trans hresult.2⟩

theorem SameEnds.keepsCause (h : SameEnds s s') : KeepsCause s s' where
  terminal c hc := h.terminal.trans hc
  cause e c hc := (congrArg (·.1) (h.ends e)).trans hc
  ends e c hnone hc := by simp [h.terminal, hnone] at hc

/-! ## The sections that end something -/

theorem reserveExecution_ended {e : ℕ} (h : s.reserveExecution = .ok (e, s')) (hs : Ended s) :
    Ended s' ∧ KeepsCause s s' := by
  obtain ⟨hterminal, hcurrent, -, rfl⟩ := reserveExecution_eq_ok h
  -- No execution has a cause yet, so the new one overwrites none.
  have hnone (e' : ℕ) : (s.execution e').terminalCause = none := by
    cases hc : (s.execution e').terminalCause with
    | none => rfl
    | some c =>
      have := hs.cause e' c hc
      simp [hterminal] at this
  refine ⟨⟨hs.done, ?_, ?_, ?_, ?_⟩, fun c hc => hc, ?_, ?_⟩
  · intro e' c hc
    simp only [put_execution] at hc
    split_ifs at hc
    exact hs.cause e' c hc
  · intro e' c hc
    simp [hterminal] at hc
  · intro e' he'
    cases he'
    simp
  · intro e' c hc
    simp only [put_execution] at hc
    split_ifs at hc
    simp [hnone] at hc
  · intro e' c hc
    simp [hnone] at hc
  · intro e' c _ hc
    simp [hterminal] at hc

theorem finishExecution_ended (e : ℕ) (v : Option V) (err : Option (Err E)) (hs : Ended s) :
    Ended (s.finishExecution e v err) ∧ KeepsCause s (s.finishExecution e v err) := by
  rcases s.finishExecution_cases e v err with ⟨h, -⟩ | ⟨stop, h⟩
  · rw [h]
    exact ⟨hs, (SameEnds.refl s).keepsCause⟩
  rw [h]
  have hcurrent {e' : ℕ} (he' : (if s.current = some e then none else s.current) = some e') :
      s.current = some e' ∧ e' ≠ e := by
    split_ifs at he' with hcur
    exact ⟨he', fun heq => hcur (heq ▸ he')⟩
  refine ⟨⟨hs.done, ?_, ?_, ?_, ?_⟩, fun c hc => hc, ?_, ?_⟩
  · intro e' c hc
    by_cases he' : e' = e
    · subst he'
      exact hs.cause e' c (by simpa using hc)
    · exact hs.cause e' c (by simpa [put_execution, he'] using hc)
  · intro e' c hc he'
    obtain ⟨he', hne⟩ := hcurrent he'
    simp only [put_execution, hne, if_false]
    exact hs.current e' c hc he'
  · intro e' he'
    obtain ⟨he', hne⟩ := hcurrent he'
    simp only [put_execution, hne, if_false]
    exact hs.running e' he'
  · intro e' c hc hd
    simp only [put_execution] at hc hd ⊢
    split_ifs at hc hd ⊢ with he'
    all_goals simp_all
    exact hs.reports e' c hc hd
  · intro e' c hc
    by_cases he' : e' = e
    · subst he'
      simpa using hc
    · simpa [put_execution, he'] using hc
  · intro e' c hnone hc
    exact absurd (hnone.symm.trans hc) (by simp)

theorem setTerminal_ended {e : ℕ} {err : Err E} {x : Execution E V} (hs : Ended s)
    (hcurrent : s.current = some e)
    (hx : x.ends = (some (s.terminal.getD err), (s.execution e).ends.2)) :
    Ended ((s.setTerminal err).put e x) ∧ KeepsCause s ((s.setTerminal err).put e x) := by
  have hcause : x.terminalCause = some (s.terminal.getD err) := congrArg (·.1) hx
  have hdone : x.done = 0 := (congrArg (·.2.2.2) hx).trans (hs.running e hcurrent)
  -- A cause that is there already is the terminal cause.
  have hold {e' : ℕ} {c : Err E} (hc : (s.execution e').terminalCause = some c) :
      s.terminal.getD err = c := by simp [hs.cause e' c hc]
  refine ⟨⟨?_, ?_, ?_, ?_, ?_⟩, ?_, ?_, ?_⟩
  · rw [put_done, setTerminal_done, hs.done, put_terminal, setTerminal_terminal]
    cases s.terminal <;> simp
  · intro e' c hc
    simp only [put_execution, setTerminal_execution] at hc
    split_ifs at hc with he'
    · simpa [hcause] using hc
    · simp [hold hc]
  · intro e' c hc he'
    simp only [put_current, setTerminal_current, hcurrent, Option.some.injEq] at he'
    subst he'
    simpa [hcause] using hc
  · intro e' he'
    simp only [put_current, setTerminal_current, hcurrent, Option.some.injEq] at he'
    subst he'
    simpa using hdone
  · intro e' c hc hd
    simp only [put_execution, setTerminal_execution] at hc hd ⊢
    split_ifs at hc hd ⊢ with he'
    · omega
    · exact hs.reports e' c hc hd
  · intro c hc
    simp [hc]
  · intro e' c hc
    simp only [put_execution, setTerminal_execution]
    split_ifs with he'
    · rw [hcause, hold hc]
    · exact hc
  · intro e' c hnone hc he'
    rw [hcurrent, Option.some.injEq] at he'
    subst he'
    simpa [hcause] using hc

theorem terminateSession_ended (err : Err E) (hs : Ended s) :
    Ended (s.terminateSession err).1 ∧ KeepsCause s (s.terminateSession err).1 := by
  rcases s.terminateSession_cases err with ⟨hcurrent, h⟩ | ⟨e, hcurrent, -, h⟩ | ⟨e, hcurrent, -, h⟩
  · rw [h]
    refine ⟨⟨?_, ?_, ?_, ?_, ?_⟩, ?_, ?_, ?_⟩
    · rw [setTerminal_done, hs.done, setTerminal_terminal]
      cases s.terminal <;> simp
    · intro e c hc
      simp [hs.cause e c (by simpa using hc)]
    · simp [hcurrent]
    · simp [hcurrent]
    · simpa using hs.reports
    · intro c hc
      simp [hc]
    · simp
    · simp [hcurrent]
  all_goals
    rw [h]
    exact setTerminal_ended hs hcurrent rfl

theorem resolveStopLocked_sameEnds (e : ℕ) (kind : StopKind) :
    SameEnds s (s.resolveStopLocked e kind) := by
  obtain ⟨stop, h⟩ := s.resolveStopLocked_spec e kind
  rw [h]
  exact sameEnds_put s rfl

theorem forceExecution_ended (e : ℕ) (early : Bool) (hs : Ended s) :
    Ended (s.forceExecution e early).1 ∧ KeepsCause s (s.forceExecution e early).1 := by
  rcases s.forceExecution_cases e early with h | h | ⟨req, -, -, h⟩ |
    ⟨req, -, -, -, hcurrent, -, hterminal, -, h⟩
  · rw [h]
    exact ⟨hs, (SameEnds.refl s).keepsCause⟩
  · rw [h]
    exact ⟨hs, (SameEnds.refl s).keepsCause⟩
  · rw [h]
    have hsame := resolveStopLocked_sameEnds (s := s) e .finished
    exact ⟨hsame.ended hs, hsame.keepsCause⟩
  · rw [h]
    exact setTerminal_ended hs hcurrent (by simp [hterminal, Execution.ends])

/-! ## Every step -/

theorem SameEnds.effect (h : SameEnds s s') (hs : Ended s) : Ended s' ∧ KeepsCause s s' :=
  ⟨h.ended hs, h.keepsCause⟩

theorem effect_ended {f : Frame E V} (h : Effect s f s') (hs : Ended s) : Ended s' ∧ KeepsCause s s' := by
  cases h with
  | reserved hreserve => exact reserveExecution_ended hreserve hs
  | finished e v err => exact finishExecution_ended e v err hs
  | @terminated err _ => exact terminateSession_ended err hs
  | forced early _ => exact forceExecution_ended _ early hs
  | nothing => exact (SameEnds.refl s).effect hs
  | touched htouched => exact (sameEnds_put s htouched.ends).effect hs
  | resolved _ => exact (resolveStopLocked_sameEnds _ _).effect hs
  | claimed _ hclaim =>
    obtain ⟨-, rfl⟩ := claimSnapshot_eq_ok hclaim
    refine SameEnds.effect ⟨rfl, rfl, rfl, (sameEnds_put s ?_).ends⟩ hs
    rfl
  | paused hpause =>
    obtain ⟨-, rfl⟩ := publishPause_eq_ok hpause
    refine SameEnds.effect ⟨rfl, rfl, rfl, (sameEnds_put s ?_).ends⟩ hs
    rfl
  | controlled hreserve =>
    refine SameEnds.effect ?_ hs
    rcases reserveControlFor_eq_ok hreserve with ⟨-, -, -, -, rfl⟩ | ⟨e, -, -, -, -, -, rfl⟩
    · exact ⟨rfl, rfl, rfl, fun _ => rfl⟩
    · exact sameEnds_put s rfl
  | @released r _ =>
    refine SameEnds.effect ?_ hs
    rcases s.releaseControl_cases r with ⟨-, h⟩ | ⟨e, cause, -, -, h⟩ | ⟨e, -, -, -, h⟩ |
      ⟨e, -, -, -, h⟩
    · rw [h]
      exact ⟨rfl, rfl, rfl, fun _ => rfl⟩
    all_goals
      rw [h]
      exact sameEnds_put s rfl
  | owned =>
    refine SameEnds.effect ?_ hs
    rcases s.closeOwned_cases with h | h | ⟨-, -, h⟩ | ⟨e, -, -, h⟩
    · rw [h]
      exact .refl s
    · rw [h]
      exact .refl s
    · rw [h]
      exact ⟨rfl, rfl, rfl, fun _ => rfl⟩
    · rw [h]
      exact sameEnds_put s rfl
  | closing hclose =>
    obtain rfl := close_eq_some hclose
    exact SameEnds.effect ⟨rfl, rfl, rfl, fun _ => rfl⟩ hs
  | ended _ | bound _ | attached _ | freed | settled _ =>
    exact SameEnds.effect ⟨rfl, rfl, rfl, fun _ => rfl⟩ hs

variable {sys sys' : System E V} {a : Act E V}

theorem step_ended (hs : Ended sys.shared) (hstep : (program E V).step sys a = .ok sys') :
    Ended sys'.shared ∧ KeepsCause sys.shared sys'.shared := by
  refine Threads.step_shared (P := fun s' => Ended s' ∧ KeepsCause sys.shared s') hstep ?_ ?_ ?_
  · intro f others m hran
    obtain ⟨c, hm⟩ := hran.advance
    exact effect_ended (advance_effect hm) hs
  · intro k
    exact effect_ended (f := .rotate) (.ended k) hs
  · exact (SameEnds.refl _).effect hs

theorem ended_initial (p : StopPolicy E) : Ended (initial p : System E V).shared :=
  ⟨rfl, by simp [initial], by simp [initial], by simp [initial], by simp [initial]⟩

theorem reaches_ended {guard : System E V → Act E V → Prop} (hreach : Reaches guard sys) :
    Ended sys.shared := by
  refine hreach.invariant ?_ fun _ _ _ hs _ hstep => (step_ended hs hstep).1
  rintro _ ⟨p, rfl⟩
  exact ended_initial p

/-- **The terminal cause is set once**: in every state that interleaved operations reach, `done`
was closed once if the session is terminal and never if not; from there on no step changes the
cause; the execution that is current when a step sets it gets the cause, no step takes it away
from an execution, and an execution that is done with a cause reports that of the session and no
value. -/
theorem terminal_cause_once (hreach : Reaches (fun _ _ => True) sys) :
    sys.shared.done = (if sys.shared.terminal.isSome then 1 else 0) ∧
    (∀ a sys', (program E V).step sys a = .ok sys' →
      (∀ c, sys.shared.terminal = some c → sys'.shared.terminal = some c) ∧
      (∀ c e, sys.shared.terminal = none → sys'.shared.terminal = some c →
        sys.shared.current = some e → (sys'.shared.execution e).terminalCause = some c) ∧
      ∀ c e, (sys.shared.execution e).terminalCause = some c →
        (sys'.shared.execution e).terminalCause = some c) ∧
    ∀ c e, (sys.shared.execution e).terminalCause = some c → sys.shared.terminal = some c ∧
      (0 < (sys.shared.execution e).done →
        (sys.shared.execution e).err = some c ∧ (sys.shared.execution e).value = none) := by
  have hended := reaches_ended hreach
  refine ⟨hended.done, fun a sys' hstep => ?_, fun c e hc =>
    ⟨hended.cause e c hc, hended.reports e c hc⟩⟩
  have hkeeps := (step_ended hended hstep).2
  exact ⟨hkeeps.terminal, fun c e => hkeeps.ends e c, fun c e => hkeeps.cause e c⟩

/-- A feed is under way when `Close` with `KillNow` ends the session, and then completes. -/
def killedWhileDriving : List (Act Unit Unit) :=
  [.call .reserveExecution, .run 1 .go, .call (.terminateSession .sessionClosed), .run 2 .go,
    .run 1 (.finish (some ()) none), .run 1 .go]

/-- The feed reports the cause, and not the value it completed with. -/
theorem terminal_cause_once_killedWhileDriving :
    ∃ sys, run (program Unit Unit).step (initial { reason := () }) killedWhileDriving = .ok sys ∧
      sys.shared.done = 1 ∧ (sys.shared.execution 1).done = 1 ∧
      (sys.shared.execution 1).err = some .sessionClosed ∧
      (sys.shared.execution 1).value = none := by
  obtain ⟨sys, hrun, hterminal, hcause, hdone⟩ :
      ∃ sys, run (program Unit Unit).step (initial { reason := () }) killedWhileDriving = .ok sys ∧
        sys.shared.terminal = some .sessionClosed ∧
        (sys.shared.execution 1).terminalCause = some .sessionClosed ∧
        (sys.shared.execution 1).done = 1 := ⟨_, rfl, rfl, rfl, rfl⟩
  have h := terminal_cause_once (reaches_of_run hrun)
  have hreports := (h.2.2 .sessionClosed 1 hcause).2 (by omega)
  exact ⟨sys, hrun, by simpa [hterminal] using h.1, hdone, hreports⟩

end Montygo.Lifecycle
