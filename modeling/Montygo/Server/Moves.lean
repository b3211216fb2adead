import Montygo.Server.Session

/-!
# What a step of a session can do

Seven things, whatever the action and the phase were (`step_moves`).  The properties of the server
are proved over these, and not over the branches of the source.
-/

namespace Montygo.Server

/-- The requests that go to the worker as they are. -/
def Request.plain : Request → Bool
  | .configure _ | .load _ | .reset | .shutdown => false
  | _ => true

/-- What the worker may be given for a message. -/
inductive Forwards (cfg : Config) : Decoded → Request → Prop
  | same {r : Request} (hr : r.plain = true) : Forwards cfg (.request r) r
  /-- A load has what its envelope holds. -/
  | load {state raw : Bytes} (h : cfg.verify state = some raw) :
      Forwards cfg (.request (.load state)) (.load raw)

/-- What becomes of a message that is taken up. -/
inductive Handled (cfg : Config) (message : Decoded) (s : System) : System → Prop
  | ends (why : SessionEnd) : Handled cfg message s (s.finish why)
  | runs {r : Request} (hr : Forwards cfg message r) (hopen : s.session.draining = false)
      (hcheckout : s.checkout = true) : Handled cfg message s (turn cfg r s)
  | checksOut (hopen : s.session.draining = false) (hfresh : s.session.configured = false) :
      Handled cfg message s { s with phase := .configuring (cfg.turnTimeout.map (s.now + ·)) }
  | answers : Handled cfg message s (armIdle cfg { s with phase := .waiting })

/-- The session before it takes up a message. -/
def System.taking (s : System) : System :=
  { s with session.pending := none, session.idleDeadline := none }

/-- The messages that an action receives. -/
def received : Action → List Decoded
  | .inbound (.request message) _ => [message]
  | _ => []

inductive Move (cfg : Config) (s : System) : Action → System → Prop
  | ticks (d : Time) : Move cfg s (.tick d) { s with now := s.now + d }
  | drains : Move cfg s .drain { s with session.draining := true }
  | buffers {message : Decoded} {sent starts : Bool} {r : Request}
      (hphase : s.phase = .turning r starts) (hnone : s.session.pending = none) :
      Move cfg s (.inbound (.request message) sent) { s with session.pending := some message }
  | takes {a : Action} {message : Decoded} {s' : System} (hphase : s.phase = .waiting)
      (hmessage : s.session.pending.toList ++ received a = [message])
      (hhandled : Handled cfg message s.taking s') : Move cfg s a s'
  | connects {fresh sent : Bool} {deadline : Option Time} (hphase : s.phase = .configuring deadline) :
      Move cfg s (.checkedOut fresh sent) (armIdle cfg
        { s with checkout := true, session.configured := true, phase := .waiting, feed := none })
  | returns {event : Event} {sent starts : Bool} {r : Request} {feed : Option Time}
      (hphase : s.phase = .turning r starts) (hfatal : event.kind ≠ .fatalError) :
      Move cfg s (.answer event feed sent) (armIdle cfg { s with
          feed := feed
          session := noted cfg (requestKind r) event { s with feed := feed }
          phase := .waiting })
  | ends {a : Action} (hquiet : received a = []) (why : SessionEnd) : Move cfg s a (s.finish why)

variable {cfg : Config} {s s' : System}

theorem onRequest_handled (message : Decoded) (sent : Bool) :
    Handled cfg message s (onRequest cfg message sent s) := by
  cases message with
  | malformed | empty => exact .ends _
  | request request =>
    unfold onRequest
    dsimp only
    split
    · exact .ends _
    rename_i hdraining
    have hopen : s.session.draining = false := by simpa using hdraining
    cases request with
    | configure protocolVersion =>
      dsimp only
      split
      · exact .ends _
      rename_i hfresh
      unfold configure
      split
      · exact .checksOut hopen (by simpa using hfresh)
      · exact .ends _
    | reset | shutdown => exact .ends _
    | load state =>
      dsimp only
      split
      · exact .ends _
      rename_i hcheckout
      split
      · rename_i raw hverify
        exact .runs (.load hverify) hopen (by simpa using hcheckout)
      · split
        · exact .answers
        · exact .ends _
    | installDependencies | feed | resumeCall | resumeNameLookup | resumeFutures | dump
    | abortFeed =>
      dsimp only
      split
      · exact .ends _
      · rename_i hcheckout
        exact .runs (.same rfl) hopen (by simpa using hcheckout)

theorem forward_cases (kind : RequestKind) (event : Event) (sent : Bool) (s : System) :
    (∃ why, forward cfg kind event sent s = s.finish why) ∨
      event.kind ≠ .fatalError ∧ forward cfg kind event sent s =
        armIdle cfg { s with session := noted cfg kind event s, phase := .waiting } := by
  unfold forward
  split
  · exact .inl ⟨_, rfl⟩
  rename_i hfatal
  split
  · exact .inl ⟨_, rfl⟩
  split
  · exact .inl ⟨_, rfl⟩
  · exact .inr ⟨fun h => hfatal (.inr h), rfl⟩

theorem receive_moves {message : Inbound} {sent : Bool}
    (h : receive cfg s message sent = .ok s') : Move cfg s (.inbound message sent) s' := by
  unfold receive at h
  split at h
  · rename_i decoded hphase
    split at h
    · cases h
    rename_i hnone
    have hpending : s.session.pending = none := by simpa using hnone
    cases h
    have htaking : s.taking = { s with session.idleDeadline := none } := by
      rw [System.taking, ← hpending]
    refine .takes hphase (by rw [hpending]; rfl) ?_
    rw [htaking]
    exact onRequest_handled decoded sent
  · rename_i hphase
    split at h
    · cases h
    rename_i hnone
    cases h
    exact .buffers hphase (by simpa using hnone)
  all_goals cases h
  all_goals exact .ends rfl _

/-- **Everything a step can do.** -/
theorem step_moves {a : Action} (h : step cfg s a = .ok s') : Move cfg s a s' := by
  cases a with
  | tick d =>
    cases h
    exact .ticks d
  | inbound message sent => exact receive_moves h
  | takePending sent =>
    simp only [step] at h
    split at h
    · rename_i decoded hphase hpending
      cases h
      exact .takes hphase (by rw [hpending]; rfl) (onRequest_handled decoded sent)
    · cases h
  | checkedOut fresh sent =>
    simp only [step] at h
    split at h
    · rename_i deadline hphase
      cases h
      unfold checkedOut
      split
      · split
        · exact .connects hphase
        · exact .ends rfl _
      · exact .ends rfl _
    · cases h
  | answer event feed sent =>
    simp only [step] at h
    split at h
    · rename_i r starts hphase
      cases h
      rcases forward_cases (requestKind r) event sent { s with feed := feed }
        with ⟨why, hends⟩ | ⟨hfatal, hforward⟩
      · rw [hends]
        exact .ends rfl why
      · rw [hforward]
        exact .returns hphase hfatal
    · cases h
  | drain =>
    simp only [step] at h
    split at h <;> cases h <;> exact .drains
  | workerLost | expire | drop =>
    simp only [step] at h
    (repeat' split at h) <;> cases h
    all_goals exact .ends rfl _

end Montygo.Server
