import Montygo.Server.TurnDeadline
import Mathlib.Data.List.Forall2

/-!
# What reaches the worker

A journal beside a connection notes every message that arrived and every request that the worker was
given.  In every run the worker gets requests in the order of their arrival, each at most once and
only while no turn is in progress, none before the session is configured and none once it drains
(`requests_in_order`).
-/

namespace Montygo.Server

open Transition

/-- The request of a turn. -/
def Phase.request : Phase → List Request
  | .turning r _ => [r]
  | _ => []

/-- The `Configure` of a checkout. -/
def Phase.configures : Phase → ℕ
  | .configuring _ => 1
  | _ => 0

/-- A connection and what has passed through it. -/
structure Journal where
  system : System
  arrived : List Decoded := []
  ran : List Request := []
  /-- How many `Configure` requests were run. -/
  configures : ℕ := 0

namespace Journal

/-- The journal after a step: another phase is another request. -/
def after (j : Journal) (a : Action) (s' : System) : Journal where
  system := s'
  arrived := j.arrived ++ received a
  ran := j.ran ++ if s'.phase = j.system.phase then [] else s'.phase.request
  configures := j.configures + if s'.phase = j.system.phase then 0 else s'.phase.configures

def step (cfg : Config) (j : Journal) (a : Action) : Except Refusal Journal :=
  (Server.step cfg j.system a).map (j.after a)

def Opened (cfg : Config) (j : Journal) : Prop := ∃ now, j = { system := opened cfg now }

/-- The worker was given requests of the messages, in order.  The last message may be waiting. -/
def Ordered (cfg : Config) (j : Journal) : Prop :=
  ∃ handled kept, j.arrived = handled ++ j.system.session.pending.toList ∧ kept.Sublist handled ∧
    List.Forall₂ (Forwards cfg) kept j.ran

/-- Before the session is configured nothing has run. -/
structure Fresh (j : Journal) : Prop where
  ran : j.ran = []
  checkout : j.system.checkout = false
  phase : j.system.phase.request = []
  configures : j.system.phase = .waiting → j.configures = 0

variable {cfg : Config} {j j' : Journal} {a : Action} {s' : System}

theorem moves_of_step (h : j.step cfg a = .ok j') :
    ∃ s', Move cfg j.system a s' ∧ j' = j.after a s' := by
  unfold step at h
  cases hstep : Server.step cfg j.system a with
  | error e =>
    rw [hstep] at h
    cases h
  | ok s' =>
    rw [hstep] at h
    cases h
    exact ⟨s', step_moves hstep, rfl⟩

theorem ran_after (h : s'.phase = j.system.phase ∨ s'.phase.request = []) :
    (j.after a s').ran = j.ran := by
  rcases h with h | h <;> simp [after, h]

theorem configures_after (h : s'.phase = j.system.phase ∨ s'.phase.configures = 0) :
    (j.after a s').configures = j.configures := by
  rcases h with h | h <;> simp [after, h]

theorem noted_same (kind : RequestKind) (event : Event) (s : System) :
    (noted cfg kind event s).pending = s.session.pending ∧
      (noted cfg kind event s).configured = s.session.configured ∧
      (noted cfg kind event s).draining = s.session.draining := by
  unfold noted
  split
  · split <;> simp
  · split <;> simp

/-! ## The order -/

theorem Ordered.untaken (h : j.Ordered cfg)
    (hphase : s'.phase = j.system.phase ∨ s'.phase.request = [])
    (hpending : j.system.session.pending.toList ++ received a = s'.session.pending.toList) :
    (j.after a s').Ordered cfg := by
  obtain ⟨handled, kept, harrived, hsub, hkept⟩ := h
  refine ⟨handled, kept, ?_, hsub, by rw [ran_after hphase]; exact hkept⟩
  show j.arrived ++ received a = handled ++ s'.session.pending.toList
  rw [harrived, List.append_assoc, hpending]

theorem Ordered.taken (h : j.Ordered cfg) {message : Decoded}
    (hmessage : j.system.session.pending.toList ++ received a = [message])
    (hpending : s'.session.pending = none)
    (hran : (j.after a s').ran = j.ran ∨
      ∃ r, Forwards cfg message r ∧ (j.after a s').ran = j.ran ++ [r]) :
    (j.after a s').Ordered cfg := by
  obtain ⟨handled, kept, harrived, hsub, hkept⟩ := h
  have harrived' : (j.after a s').arrived = (handled ++ [message]) ++ s'.session.pending.toList := by
    show j.arrived ++ received a = _
    rw [harrived, List.append_assoc, hmessage, hpending]
    simp
  rcases hran with hran | ⟨r, hr, hran⟩
  · exact ⟨_, kept, harrived', hsub.trans (List.sublist_append_left _ _), hran ▸ hkept⟩
  refine ⟨_, kept ++ [message], harrived', hsub.append (.refl _), ?_⟩
  rw [hran]
  exact List.rel_append hkept (.cons hr .nil)

theorem ordered_after (h : j.Ordered cfg) (hmove : Move cfg j.system a s') :
    (j.after a s').Ordered cfg := by
  cases hmove with
  | ticks | drains => exact h.untaken (.inl rfl) (List.append_nil _)
  | buffers hphase hnone => exact h.untaken (.inl rfl) (by rw [hnone]; rfl)
  | takes hphase hmessage hhandled =>
    cases hhandled with
    | ends | answers | checksOut => exact h.taken hmessage rfl (.inl (ran_after (.inr rfl)))
    | runs hr hopen hcheckout =>
      exact h.taken hmessage rfl (.inr ⟨_, hr, by simp [after, hphase, turn, Phase.request]⟩)
  | connects hphase => exact h.untaken (.inr rfl) (List.append_nil _)
  | returns hphase hfatal =>
    refine h.untaken (.inr rfl) ?_
    rw [armIdle, (noted_same _ _ _).1]
    exact List.append_nil _
  | ends hquiet why =>
    refine h.untaken (.inr rfl) ?_
    rw [hquiet]
    exact List.append_nil _

/-! ## The configuration -/

theorem Fresh.keep (h : j.Fresh) (hphase : s'.phase = j.system.phase ∨ s'.phase.request = [])
    (hcheckout : s'.checkout = j.system.checkout ∨ s'.checkout = false)
    (hwaiting : s'.phase = .waiting → j.system.phase = .waiting) : (j.after a s').Fresh where
  ran := by rw [ran_after hphase, h.ran]
  checkout := hcheckout.elim (·.trans h.checkout) id
  phase := hphase.elim (fun hsame => hsame ▸ h.phase) id
  configures := fun hphase' => by
    have hnone : s'.phase.configures = 0 := by
      rw [show s'.phase = .waiting from hphase']
      rfl
    rw [configures_after (.inr hnone), h.configures (hwaiting hphase')]

theorem fresh_after (h : j.system.session.configured = false → j.Fresh)
    (hmove : Move cfg j.system a s') (hfresh : s'.session.configured = false) :
    (j.after a s').Fresh := by
  cases hmove with
  | ticks | drains | buffers => exact (h hfresh).keep (.inl rfl) (.inl rfl) id
  | takes hphase hmessage hhandled =>
    cases hhandled with
    | ends why => exact (h hfresh).keep (.inr rfl) (.inr rfl) (by rintro ⟨⟩)
    | answers => exact (h hfresh).keep (.inr rfl) (.inl rfl) fun _ => hphase
    | checksOut => exact (h hfresh).keep (.inr rfl) (.inl rfl) (by rintro ⟨⟩)
    | runs hr hopen hcheckout => exact absurd ((h hfresh).checkout.symm.trans hcheckout) (by decide)
  | connects hphase => cases hfresh
  | returns hphase hfatal =>
    have hturning := (h ((noted_same _ _ _).2.1.symm.trans hfresh)).phase
    rw [hphase] at hturning
    cases hturning
  | ends hquiet why =>
    have hfresh : j.system.session.configured = false := hfresh
    exact (h hfresh).keep (.inr rfl) (.inr rfl) (by rintro ⟨⟩)

/-- The worker is given something only by a session that waits and does not drain, and a
`Configure` only by one that is not configured. -/
theorem gives_after (hmove : Move cfg j.system a s') :
    ((j.after a s').ran = j.ran ∧ (j.after a s').configures = j.configures) ∨
      (j.system.phase = .waiting ∧ j.system.session.draining = false) ∧
        ((j.after a s').configures = j.configures ∨ j.system.session.configured = false ∧
          (j.after a s').configures = j.configures + 1) := by
  cases hmove with
  | ticks | drains | buffers => exact .inl ⟨ran_after (.inl rfl), configures_after (.inl rfl)⟩
  | takes hphase hmessage hhandled =>
    cases hhandled with
    | ends | answers => exact .inl ⟨ran_after (.inr rfl), configures_after (.inr rfl)⟩
    | runs hr hopen hcheckout => exact .inr ⟨⟨hphase, hopen⟩, .inl (configures_after (.inr rfl))⟩
    | checksOut hopen hnew =>
      exact .inr ⟨⟨hphase, hopen⟩, .inr ⟨hnew, by simp [after, hphase, Phase.configures]⟩⟩
  | connects | returns | ends => exact .inl ⟨ran_after (.inr rfl), configures_after (.inr rfl)⟩

theorem draining_of_move {s : System} (hmove : Move cfg s a s')
    (hdraining : s.session.draining = true) : s'.session.draining = true := by
  cases hmove with
  | ticks | buffers | connects | ends => exact hdraining
  | drains => rfl
  | takes hphase hmessage hhandled => cases hhandled <;> exact hdraining
  | returns hphase hfatal => exact (noted_same _ _ _).2.2.trans hdraining

theorem once_after (h : j.configures ≤ 1) (hfresh : j.system.session.configured = false → j.Fresh)
    (hmove : Move cfg j.system a s') : (j.after a s').configures ≤ 1 := by
  obtain ⟨-, hsame⟩ | ⟨⟨hphase, -⟩, hsame | ⟨hnew, hone⟩⟩ := gives_after hmove
  · rwa [hsame]
  · rwa [hsame]
  · rw [hone, (hfresh hnew).configures hphase]

/-- **Requests reach the worker in order.**  In every run of a connection the worker was given
requests of the messages in the order of their arrival, each at most once, and at most one
`Configure`, which came first; and whenever it is given one, no turn is in progress and the session
does not drain, as it does for good once it has begun. -/
theorem requests_in_order (cfg : Config) {j : Journal}
    (hreach : Reachable (step cfg) (Opened cfg) (fun _ _ => True) j) :
    j.Ordered cfg ∧ (j.ran ≠ [] → j.system.session.configured = true) ∧ j.configures ≤ 1 ∧
      ∀ a j', j.step cfg a = .ok j' → (j'.ran ≠ j.ran ∨ j'.configures ≠ j.configures →
          j.system.phase = .waiting ∧ j.system.session.draining = false) ∧
        (j.system.session.draining = true → j'.system.session.draining = true) := by
  obtain ⟨hordered, hfresh, honce⟩ := hreach.invariant (P := fun j => j.Ordered cfg ∧
      (j.system.session.configured = false → j.Fresh) ∧ j.configures ≤ 1)
    (by
      rintro j ⟨now, rfl⟩
      exact ⟨⟨[], [], rfl, .refl _, .nil⟩, fun _ => ⟨rfl, rfl, rfl, fun _ => rfl⟩, Nat.zero_le 1⟩)
    (by
      rintro j a j' ⟨hordered, hfresh, honce⟩ - hstep
      obtain ⟨s', hmove, rfl⟩ := moves_of_step hstep
      exact ⟨ordered_after hordered hmove, fresh_after hfresh hmove, once_after honce hfresh hmove⟩)
  refine ⟨hordered, fun hran => ?_, honce, fun a j' hstep => ?_⟩
  · by_contra hnew
    exact hran (hfresh (by simpa using hnew)).ran
  · obtain ⟨s', hmove, rfl⟩ := moves_of_step hstep
    refine ⟨fun hgiven => ?_, draining_of_move hmove⟩
    rcases gives_after hmove with ⟨hran, hconfigures⟩ | ⟨hwaits, -⟩
    · exact absurd hgiven (by simp [hran, hconfigures])
    · exact hwaits

/-- A dump arrives during a feed, and is taken up after it. -/
def dumpDuringFeed : List Action :=
  [.inbound (.request (.request (.configure 1))) true, .checkedOut true true,
    .inbound (.request (.request .feed)) true, .inbound (.request (.request .dump)) true,
    .answer ⟨.complete, none⟩ none true, .takePending true]

theorem requests_in_order_dumpDuringFeed :
    ∃ j, run (step tenSeconds) { system := opened tenSeconds 0 } dumpDuringFeed = .ok j ∧
      j.ran = [.feed, .dump] ∧ j.Ordered tenSeconds := by
  have hopened : Reachable (step tenSeconds) (Opened tenSeconds) (fun _ _ => True)
      { system := opened tenSeconds 0 } := .initial ⟨0, rfl⟩
  have hreach := hopened.of_run dumpDuringFeed (fun _ _ => trivial) rfl
  exact ⟨_, rfl, rfl, (requests_in_order tenSeconds hreach).1⟩

end Journal

end Montygo.Server
