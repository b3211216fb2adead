import Montygo.Server.Moves

/-!
# The turn deadline over a feed

A feed may suspend and be resumed many times, and the turn timeout bounds it as a whole: the
deadline is armed when the feed starts and is kept over its suspensions.  The server takes any
answer but a suspension for the end of the feed.  A request that the worker refuses during a
suspension is answered with an `Error`, so the deadline is disarmed while the feed lives on, and no
later request arms it again.  Where the worker refuses nothing during a suspension but a dump, the
deadline holds.
-/

namespace Montygo.Server

open Go Transition

/-! ## The worker -/

/-- The feed in progress after the worker's answer to a request, as the protocol file describes it:
a request that does not fit a suspension is refused with an `Error`, and the suspension stays.
`none` if the worker does not answer so.  `refused` tells the `Error` for a request that does not
fit the suspension from the one that ends the feed. -/
def workerAnswers (now : Time) (feed : Option Time) (request : Request) (starts : Bool)
    (event : Event) (refused : Bool) : Option (Option Time) :=
  match event.kind with
  -- a worker that gives up answers anything with this
  | .fatalError => some none
  | kind =>
    match request, feed with
    | .dump, _ =>
      match kind with
      | .dumpResult _ | .error => some feed
      | _ => none
    | .load _, none =>
      if isSuspension event then some (some now)
      else if kind = .ok ∨ kind = .error then some none
      else none
    | .installDependencies, none => if kind = .ok ∨ kind = .error then some none else none
    | .feed, some since =>
      if starts then
        if isSuspension event then some (some since)
        else if kind = .complete ∨ kind = .error ∨ kind = .typingError then some none
        else none
      else if kind = .error then some (some since) else none
    | .resumeCall, some since | .resumeNameLookup, some since | .resumeFutures, some since =>
      if isSuspension event then some (some since)
      else if kind = .error then if refused then some (some since) else some none
      else if kind = .complete then some none
      else none
    | .abortFeed, some since =>
      if kind = .error then if refused then some (some since) else some none else none
    | _, feed => if kind = .error then some feed else none

/-! ## The deadline of a feed -/

/-- A feed in progress has a deadline, no later than its start or restore plus the timeout. -/
def Armed (limit : Time) (s : System) : Prop :=
  ∀ since, s.feed = some since →
    ∃ deadline, s.session.turnDeadline = some deadline ∧ deadline ≤ since + limit

/-- The worker answers with an `Error` a request that does not fit the suspension. -/
def isRefusal (feed : Option Time) (request : Request) (starts : Bool) (event : Event)
    (refused : Bool) : Bool :=
  feed.isSome && event.kind == .error &&
    match request with
    | .dump => false
    | .feed => !starts
    | .resumeCall | .resumeNameLookup | .resumeFutures | .abortFeed => refused
    | _ => true

/-- The worker answers as the protocol says, and refuses no request but a dump while a feed is
suspended. -/
def nothingRefused (s : System) : Action → Bool
  | .answer event feed _ =>
    match s.phase with
    | .turning request starts =>
      [true, false].any fun refused =>
        workerAnswers s.now s.feed request starts event refused == some feed &&
          !isRefusal s.feed request starts event refused
    | _ => true
  | _ => true

theorem answers_of_nothingRefused {s : System} {request : Request} {starts sent : Bool}
    {event : Event} {feed : Option Time} (hphase : s.phase = .turning request starts)
    (h : nothingRefused s (.answer event feed sent) = true) :
    ∃ refused, workerAnswers s.now s.feed request starts event refused = some feed ∧
      isRefusal s.feed request starts event refused = false := by
  simpa [nothingRefused, hphase, or_comm] using h

/-! ## What the worker's answer means for the feed -/

section Answers

variable {now : Time} {feed feed' : Option Time} {request : Request} {starts refused : Bool}
  {event : Event}

theorem workerAnswers_dump (h : workerAnswers now feed .dump starts event refused = some feed')
    (hfatal : event.kind ≠ .fatalError) : feed' = feed := by
  obtain ⟨kind, limits⟩ := event
  cases kind <;> simp_all [workerAnswers]

theorem workerAnswers_suspension
    (h : workerAnswers now feed request starts event refused = some feed')
    (hsuspension : isSuspension event = true) :
    requestKind request = .load ∧ feed' = some now ∨
      requestKind request ≠ .load ∧ feed'.isSome ∧ feed' = feed := by
  obtain ⟨kind, limits⟩ := event
  cases kind <;> simp [isSuspension] at hsuspension <;>
    cases request <;> cases feed <;> simp [workerAnswers, isSuspension, requestKind] at h ⊢ <;>
    grind

theorem workerAnswers_end (h : workerAnswers now feed request starts event refused = some feed')
    (hfatal : event.kind ≠ .fatalError) (hsuspension : isSuspension event = false)
    (hdump : requestKind request ≠ .dump)
    (haccepted : isRefusal feed request starts event refused = false) : feed' = none := by
  obtain ⟨kind, limits⟩ := event
  cases kind <;> simp [isSuspension] at hsuspension <;>
    cases request <;> simp [requestKind] at hdump <;> cases feed <;>
    simp [workerAnswers, isSuspension, isRefusal] at h haccepted hfatal <;> grind

end Answers

/-! ## The invariant -/

/-- Between turns the server knows whether a feed is suspended; during a turn it knows whether one
was when the turn began. -/
def Knows (s : System) : Prop :=
  match s.phase with
  | .waiting => s.session.suspended = s.feed.isSome
  | .configuring _ => s.session.suspended = false ∧ s.feed = none
  | .turning request starts =>
    s.session.suspended = (s.feed.isSome && !starts) ∧ (starts = true → request = .feed)
  | .ended _ => True

structure Inv (limit : Time) (s : System) : Prop where
  knows : Knows s
  armed : Armed limit s
  /-- Before it is configured the session has no checkout and no turn. -/
  fresh : s.session.configured = false →
    s.checkout = false ∧ s.feed = none ∧ ∀ request starts, s.phase ≠ .turning request starts

section Keeps

variable {cfg : Config} {limit : Time} {s s' : System}

theorem inv_finish (why : SessionEnd) : Inv limit (s.finish why) :=
  ⟨trivial, fun _ h => (by cases h), fun _ => ⟨rfl, rfl, fun _ _ h => (by cases h)⟩⟩

theorem inv_waiting (hphase : s.phase = .waiting)
    (hsuspended : s.session.suspended = s.feed.isSome) (harmed : Armed limit s)
    (hfresh : s.session.configured = false → s.checkout = false ∧ s.feed = none) :
    Inv limit s :=
  ⟨by simpa [Knows, hphase] using hsuspended, harmed,
    fun hfalse => ⟨(hfresh hfalse).1, (hfresh hfalse).2, by simp [hphase]⟩⟩

theorem inv_turn (hlimit : cfg.turnTimeout = some limit) (h : Inv limit s)
    (hphase : s.phase = .waiting) (hcheckout : s.checkout = true) (request : Request) :
    Inv limit (turn cfg request s) := by
  have hknows : s.session.suspended = s.feed.isSome := by simpa [Knows, hphase] using h.knows
  have hconfigured : s.session.configured ≠ false := fun hfalse => by
    simp [(h.fresh hfalse).1] at hcheckout
  refine ⟨?_, fun since hsince => ?_, fun hfalse => (hconfigured hfalse).elim⟩
  · by_cases hstarts : request = .feed ∧ s.feed = none
    all_goals simp [Knows, turn, hstarts, hknows]
  · by_cases hstarts : request = .feed ∧ s.feed = none
    · have hnow : s.now = since := by simpa [turn, hstarts] using hsince
      subst hnow
      exact ⟨s.now + limit, by simp [turn, hstarts, hknows, hlimit, requestKind], le_rfl⟩
    · have hfeed : s.feed = some since := by simpa [turn, hstarts] using hsince
      obtain ⟨deadline, hdeadline, hle⟩ := h.armed since hfeed
      exact ⟨deadline, by simp [turn, hknows, hfeed, hdeadline], hle⟩

theorem inv_handled (hlimit : cfg.turnTimeout = some limit) (h : Inv limit s)
    (hphase : s.phase = .waiting) {message : Decoded} (hhandled : Handled cfg message s s') :
    Inv limit s' := by
  have hknows : s.session.suspended = s.feed.isSome := by simpa [Knows, hphase] using h.knows
  cases hhandled with
  | ends why => exact inv_finish why
  | runs hr hopen hcheckout => exact inv_turn hlimit h hphase hcheckout _
  | checksOut hopen hfresh =>
    obtain ⟨hcheckout, hfeed, -⟩ := h.fresh hfresh
    refine ⟨⟨by rw [hknows, hfeed]; rfl, hfeed⟩, h.armed, fun _ => ?_⟩
    exact ⟨hcheckout, hfeed, fun _ _ hturning => by cases hturning⟩
  | answers =>
    refine inv_waiting rfl hknows h.armed fun hfalse => ?_
    exact ⟨(h.fresh hfalse).1, (h.fresh hfalse).2.1⟩

/-- The server notes a suspension exactly when the worker has a feed in progress, and the deadline
of that feed. -/
theorem noted_spec (hlimit : cfg.turnTimeout = some limit) (h : Inv limit s) {request : Request}
    {starts refused : Bool} {event : Event} {feed : Option Time}
    (hphase : s.phase = .turning request starts)
    (hanswer : workerAnswers s.now s.feed request starts event refused = some feed)
    (hfatal : event.kind ≠ .fatalError)
    (haccepted : isRefusal s.feed request starts event refused = false) :
    let session := noted cfg (requestKind request) event { s with feed := feed }
    session.suspended = feed.isSome ∧ session.configured = s.session.configured ∧
      ∀ since, feed = some since →
        ∃ deadline, session.turnDeadline = some deadline ∧ deadline ≤ since + limit := by
  obtain ⟨hknows, hstarts⟩ : s.session.suspended = (s.feed.isSome && !starts) ∧
      (starts = true → request = .feed) := by simpa [Knows, hphase] using h.knows
  by_cases hdump : requestKind request = .dump
  · have hrequest : request = .dump := by
      cases request <;> simp [requestKind] at hdump ⊢
    subst hrequest
    have hfeed : feed = s.feed := workerAnswers_dump hanswer hfatal
    subst hfeed
    have hstarts : starts = false := by simpa using hstarts
    subst hstarts
    by_cases hsuspended : s.session.suspended = true
    · have hkept : noted cfg (requestKind .dump) event s = s.session := by
        simp [noted, requestKind, hsuspended]
      rw [hkept]
      exact ⟨by simpa using hknows, rfl, h.armed⟩
    · have hnone : s.feed = none := by simpa [hsuspended] using hknows
      exact ⟨by simp [noted, requestKind, hsuspended, hnone],
        by simp [noted, requestKind, hsuspended], by simp [hnone]⟩
  · cases hsuspension : isSuspension event with
    | true =>
      rcases workerAnswers_suspension hanswer hsuspension with ⟨hload, rfl⟩ | ⟨hload, hsome, rfl⟩
      · refine ⟨by simp [noted, hsuspension, hload], by simp [noted, hsuspension, hload], ?_⟩
        rintro since ⟨⟩
        exact ⟨s.now + limit, by simp [noted, hsuspension, hload, hlimit], le_rfl⟩
      · refine ⟨by simpa [noted, hdump, hsuspension] using hsome.symm,
          by simp [noted, hdump, hsuspension], fun since hsince => ?_⟩
        simpa [noted, hdump, hsuspension, hload] using h.armed since hsince
    | false =>
      have hnone : feed = none := workerAnswers_end hanswer hfatal hsuspension hdump haccepted
      subst hnone
      exact ⟨by simp [noted, hdump, hsuspension], by simp [noted, hdump, hsuspension], by simp⟩

/-- **Every step keeps the invariant** that meets the condition on refusals. -/
theorem inv_step (hlimit : cfg.turnTimeout = some limit) {a : Action} (h : Inv limit s)
    (hguard : nothingRefused s a = true) (hstep : step cfg s a = .ok s') : Inv limit s' := by
  cases step_moves hstep with
  | ticks | drains | buffers => exact ⟨h.knows, h.armed, h.fresh⟩
  | takes hphase hmessage hhandled =>
    have htaking : Inv limit s.taking := ⟨h.knows, h.armed, h.fresh⟩
    exact inv_handled hlimit htaking hphase hhandled
  | connects hphase =>
    have hknows := h.knows
    simp only [Knows, hphase] at hknows
    exact inv_waiting rfl hknows.1 (fun _ hfeed => (by cases hfeed)) fun hfalse => (by cases hfalse)
  | returns hphase hfatal =>
    obtain ⟨refused, hanswer, haccepted⟩ := answers_of_nothingRefused hphase hguard
    obtain ⟨hsuspended, hconfigured, harmed⟩ :=
      noted_spec hlimit h hphase hanswer hfatal haccepted
    refine inv_waiting rfl hsuspended harmed fun hfalse => ?_
    exact ((h.fresh (hconfigured ▸ hfalse)).2.2 _ _ hphase).elim
  | ends hquiet why => exact inv_finish why

theorem inv_opened (h : Opened cfg s) : Inv limit s := by
  obtain ⟨now, rfl⟩ := h
  exact inv_waiting rfl rfl (fun _ hfeed => (by cases hfeed)) fun _ => ⟨rfl, rfl⟩

end Keeps

/-! ## The deadline -/

/-- **The turn deadline bounds a feed as a whole**, in every run in which the worker keeps to the
protocol and refuses nothing but dumps during a suspension. -/
theorem turn_deadline_armed {cfg : Config} {limit : Time} (hlimit : cfg.turnTimeout = some limit)
    {s : System} (hreach : Reachable (step cfg) (Opened cfg)
      (fun s a => nothingRefused s a = true) s) : Armed limit s := by
  have hinv : Inv limit s :=
    hreach.invariant (fun _ h => inv_opened h) fun _ _ _ h hguard hstep =>
      inv_step hlimit h hguard hstep
  exact hinv.armed

/-- A server with a turn timeout of ten. -/
def tenSeconds : Config where
  turnTimeout := some 10
  idleTimeout := none
  sessionTimeout := none
  maxDurationMicros := none
  supported := fun _ => true
  sign := some
  verify := some

/-- A feed that is suspended in a function call, three seconds after it was started. -/
def suspendedFeed : List Action :=
  [.inbound (.request (.request (.configure 1))) true, .checkedOut true true,
    .inbound (.request (.request .feed)) true, .tick 3, .answer ⟨.functionCall, none⟩ (some 0) true]

/-- A suspended feed, and a dump during the suspension. -/
def dumpedFeed : List Action :=
  suspendedFeed ++ [.inbound (.request (.request .dump)) true,
    .answer ⟨.dumpResult [], none⟩ (some 0) true]

theorem turn_deadline_armed_dumped :
    ∃ s, run (step tenSeconds) (opened tenSeconds 0) dumpedFeed = .ok s ∧ s.feed = some 0 ∧
      Armed 10 s := by
  have hopened : Reachable (step tenSeconds) (Opened tenSeconds)
      (fun s a => nothingRefused s a = true) (opened tenSeconds 0) := .initial ⟨0, rfl⟩
  have hguarded : Guarded (step tenSeconds) (fun s a => nothingRefused s a = true)
      (opened tenSeconds 0) dumpedFeed := by
    repeat
      refine ⟨rfl, ?_⟩
      rintro _ ⟨⟩
    exact trivial
  have hreach := hopened.of_guarded dumpedFeed hguarded rfl
  exact ⟨_, rfl, rfl, turn_deadline_armed rfl hreach⟩

/-- **A refused request disarms the deadline.**  A second feed during a suspension is refused; the
first is still suspended, without a deadline, and its resumption does not arm one. -/
theorem refused_feed_disarms : ∃ s s', run (step tenSeconds) (opened tenSeconds 0)
        (suspendedFeed ++ [.inbound (.request (.request .feed)) true,
          .answer ⟨.error, none⟩ (some 0) true]) = .ok s ∧
      workerAnswers 3 (some 0) .feed false ⟨.error, none⟩ true = some (some 0) ∧
      s.feed = some 0 ∧ s.session.turnDeadline = none ∧
      run (step tenSeconds) s [.inbound (.request (.request .resumeCall)) true,
        .answer ⟨.osCall, none⟩ (some 0) true] = .ok s' ∧
      s'.feed = some 0 ∧ s'.session.suspended = true ∧ s'.session.turnDeadline = none :=
  ⟨_, _, rfl, rfl, rfl, rfl, rfl, rfl, rfl, rfl⟩

end Montygo.Server
