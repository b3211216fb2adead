import Montygo.TurnEngine.Answered

/-!
# The directory of the first feed

A worker starts without a working directory, and the first feed gives it one.  `cwdSet` is set once
a feed reached the worker and was not refused by the type checker, or a dump was loaded.

Whether the feed reached the worker is read off `sent`, which a turn resets only after it has
checked and encoded its request.  A feed that is rejected before that leaves the value of the turn
before, and the next feed is sent without a directory (`rejected_feed_takes_directory`).
-/

namespace Montygo.TurnEngine

open Go Value WireFormat Wire Transition Checkout

namespace Checkout

variable {cfg : Config} {c c' : Checkout} {env : Env} {req : Request} {e : Error}

/-! ## Turns -/

/-- A turn sends its request and `AbortFeed`, nothing else. -/
theorem sent_receive {deadline : Option Duration} {abortSend : Option IoFailure} {req' : Request}
    {reached : Bool} (replies : List Reply)
    (h : .sent req' reached ∈ (receive cfg req deadline abortSend replies c).1) :
    ∃ exc, req' = .abortFeed exc := by
  induction replies generalizing c with
  | nil => cases h
  | cons reply rest ih =>
    cases reply with
    | lost failure | invalid err => cases h
    | event ev =>
      unfold receive at h
      split at h
      · obtain h | h := List.mem_cons.mp h
        · cases h
        · exact ih h
      · rename_i exc _ _
        split at h
        · simp only [List.mem_cons, reduceCtorEq, Signal.sent.injEq, List.not_mem_nil, or_false,
            false_or] at h
          exact ⟨some exc, h.1⟩
        · simp only [signalled, List.cons_append, List.nil_append, List.mem_cons, reduceCtorEq,
            Signal.sent.injEq, false_or] at h
          obtain ⟨h, -⟩ | h := h
          · exact ⟨some exc, h⟩
          · exact ih h
      · cases List.mem_singleton.mp h

theorem sent_turnSignals {req' : Request} {reached control : Bool}
    (h : .sent req' reached ∈ c.turnSignals cfg env req control) :
    req' = req ∨ ∃ exc, req' = .abortFeed exc := by
  unfold turnSignals turnWith at h
  split at h
  · cases h
  split at h
  · cases h
  · cases h
  split at h
  · simp only [List.mem_singleton, Signal.sent.injEq] at h
    exact .inl h.1
  · obtain h | h := List.mem_cons.mp h
    · exact .inl (Signal.sent.inj h).1
    · exact .inr (sent_receive _ h)

/-- The two flags of the directory are where they were. -/
structure SameFlags (c c' : Checkout) : Prop where
  cwdSet : c'.cwdSet = c.cwdSet
  sent : c'.sent = c.sent

variable {c₁ : Checkout} {ev : Event} {r : Except Error Event} {control : Bool} {α : Type}

theorem SameFlags.trans (h : SameFlags c c₁) (h' : SameFlags c₁ c') : SameFlags c c' :=
  ⟨h'.cwdSet.trans h.cwdSet, h'.sent.trans h.sent⟩

theorem SameFlags.of_eq (h : SameFlags c₁ c') (hcwdSet : c₁.cwdSet = c.cwdSet)
    (hsent : c₁.sent = c.sent) : SameFlags c c' :=
  SameFlags.trans ⟨hcwdSet, hsent⟩ h

theorem sameFlags_dispatch : SameFlags c (dispatch cfg c ev req).2 := by
  unfold dispatch
  cases ev.kind with
  | functionCall | nameLookup | resolveFutures | typingError | ok | dumpResult | fatalError | none
  | print => exact ⟨rfl, rfl⟩
  | osCall =>
    dsimp only
    split
    · exact ⟨rfl, rfl⟩
    split
    all_goals exact ⟨rfl, rfl⟩
  | complete =>
    dsimp only
    split
    all_goals exact ⟨rfl, rfl⟩
  | error =>
    cases ev.exception with
    | none => cases req <;> exact ⟨rfl, rfl⟩
    | some e => cases req <;> exact ⟨rfl, rfl⟩
  | shutdown =>
    dsimp only
    split
    all_goals exact ⟨rfl, rfl⟩

theorem sameFlags_ioFailure {doing : GoString} {deadline : Option Duration} {failure : IoFailure} :
    SameFlags c (c.ioFailure cfg doing deadline failure).2 := by
  cases failure with
  | cancelled | timedOut | tooLarge err => exact ⟨rfl, rfl⟩
  | broken memory =>
    simp only [ioFailure]
    split
    · exact ⟨rfl, rfl⟩
    split
    all_goals exact ⟨rfl, rfl⟩

/-- The checkout that the loop goes on with. -/
def Received.checkout : Received → Checkout
  | .again c | .abort _ c | .returned _ c => c

theorem sameFlags_received : SameFlags c (received cfg c ev req).checkout := by
  unfold received
  split
  · exact ⟨rfl, rfl⟩
  dsimp only
  split
  · split
    · exact sameFlags_dispatch.of_eq rfl rfl
    · exact ⟨rfl, rfl⟩
  split
  · split
    · exact sameFlags_dispatch.of_eq rfl rfl
    · exact ⟨rfl, rfl⟩
  · exact sameFlags_dispatch.of_eq rfl rfl

theorem sameFlags_receive {deadline : Option Duration} {abortSend : Option IoFailure}
    (replies : List Reply) (h : (receive cfg req deadline abortSend replies c).2 = some (r, c')) :
    SameFlags c c' := by
  induction replies generalizing c with
  | nil => cases h
  | cons reply rest ih =>
    cases reply with
    | lost failure =>
      obtain ⟨rfl, rfl⟩ := eq_of_failed h
      exact sameFlags_ioFailure
    | invalid err =>
      cases h
      exact ⟨rfl, rfl⟩
    | event ev =>
      have hreceived := @sameFlags_received cfg c req ev
      unfold receive at h
      split at h
      · rename_i c₁ heq
        rw [heq] at hreceived
        exact hreceived.trans (ih h)
      · rename_i exc c₁ heq
        rw [heq] at hreceived
        split at h
        · obtain ⟨rfl, rfl⟩ := eq_of_failed h
          exact hreceived.trans sameFlags_ioFailure
        · exact hreceived.trans ((ih h).of_eq rfl rfl)
      · rename_i heq
        rw [heq] at hreceived
        cases h
        exact hreceived

/-- The directory is where it was, and no worker has come back. -/
structure SameDir (c c' : Checkout) : Prop where
  cwdSet : c'.cwdSet = c.cwdSet
  held : c'.held = true → c.held = true

theorem sameDir_turn (h : c.turn cfg env req control = some (r, c')) : SameDir c c' := by
  refine ⟨?_, held_of_gone fun hheld => ((ended_turn h).gone hheld).2⟩
  cases turned_of_turn h with
  | unready hready => exact (steady_ensureReady hready).cwdSet
  | rejected => rfl
  | unsent hfailed =>
    obtain ⟨rfl, rfl⟩ := eq_of_failed hfailed
    exact sameFlags_ioFailure.cwdSet
  | sent hheld hreceive => exact (sameFlags_receive _ hreceive).cwdSet

theorem ensureReady_iff :
    c.ensureReady = (none, c) ↔ c.cancelled = false ∧ c.held = true ∧ c.inFlight = false := by
  unfold ensureReady
  cases c.cancelled <;> cases c.held <;> cases c.inFlight <;> simp

/-- The request of a turn reached the worker, or the turn failed before: the checkout was not ready,
the request was rejected, or sending it lost the worker. -/
theorem sent_or_failed (h : c.turn cfg env req control = some (r, c')) :
    .sent req true ∈ c.turnSignals cfg env req control ∨ ∃ e, r = .error e ∧
      (ensureReady { c with held := c.held && env.held } = (some e, c') ∨
        prepare cfg req = some (.error e) ∨ c'.held = false) := by
  unfold turn turnWith at h
  unfold turnSignals turnWith
  rcases hready : ensureReady { c with held := c.held && env.held } with ⟨failure, c₁⟩
  simp only [hready] at h ⊢
  cases failure with
  | some e =>
    cases h
    exact .inr ⟨e, rfl, .inl rfl⟩
  | none =>
    cases hprepare : prepare cfg req with
    | none => simp [hprepare] at h
    | some result =>
      simp only [hprepare] at h ⊢
      cases result with
      | error e =>
        cases h
        exact .inr ⟨e, rfl, .inr (.inl rfl)⟩
      | ok payload =>
        cases hsend : env.send with
        | some failure =>
          simp only [hsend] at h
          obtain ⟨rfl, rfl⟩ := eq_of_failed h
          exact .inr ⟨_, rfl, .inr (.inr lost_ioFailure.held)⟩
        | none => exact .inl List.mem_cons_self

/-- **A turn that keeps its worker** was rejected before it was sent, or its request reached the
worker. -/
theorem reached_turn (hidle : c.cancelled = false ∧ c.held = true ∧ c.inFlight = false)
    (h : c.turn cfg env req control = some (r, c')) (hheld : c'.held = true) :
    (∃ e, prepare cfg req = some (.error e) ∧ r = .error e) ∨
      .sent req true ∈ c.turnSignals cfg env req control := by
  obtain hsent | ⟨e, hr, hunready | hrejected | hgone⟩ := sent_or_failed h
  · exact .inr hsent
  · have hboth := (steady_ensureReady hunready).held hheld
    have hready : ensureReady { c with held := c.held && env.held } = (none, _) :=
      ensureReady_iff.mpr ⟨hidle.1, hboth, hidle.2.2⟩
    cases hready.symm.trans hunready
  · exact .inl ⟨e, hrejected, hr⟩
  · rw [hgone] at hheld
    cases hheld

theorem sent_of_turn_ok (h : c.turn cfg env req control = some (.ok ev, c')) :
    .sent req true ∈ c.turnSignals cfg env req control := by
  obtain hsent | ⟨e, hr, -⟩ := sent_or_failed h
  · exact hsent
  · cases hr

/-! ## Calls that leave the directory alone -/

/-- The call leaves the directory where it was. -/
def Stays {α : Type} (c : Checkout) (x : Answer α) : Prop := ∀ r c', x = some (r, c') → SameDir c c'

theorem SameDir.trans (h : SameDir c c₁) (h' : SameDir c₁ c') : SameDir c c' :=
  ⟨h'.cwdSet.trans h.cwdSet, fun hheld => h.held (h'.held hheld)⟩

theorem sameDir_related (cfg : Config) : Related cfg fun _ _ c c' => SameDir c c' where
  steady _ _ _ h := ⟨h.cwdSet, h.held⟩
  turn h := sameDir_turn h
  drop h := h
  mono h _ := h
  trans h h' := h.trans h'

theorem turn_of_controlTurn {name : String} {want : EventKind} {k : Event → α} {a : α}
    (h : c.controlTurn cfg env req name want k = some (.ok a, c')) :
    ∃ ev c₁, c.turn cfg env req true = some (.ok ev, c₁) := by
  unfold controlTurn at h
  split at h
  · cases h
  · cases h
  · rename_i ev c₁ hturn
    exact ⟨ev, c₁, hturn⟩

/-! ## Feeds and dumps -/

/-- The request that `Feed` sends. -/
def feedRequest (code : GoString) (inputs : List NamedValue) (skipTypeCheck : Bool)
    (dir : GoString) : Request :=
  .feed { code := code, inputs := inputs, skipTypeCheck := skipTypeCheck, cwd := dir }

theorem readySignals_eq {signals : Checkout → List Signal} (h : c.ensureReady = (none, c)) :
    c.readySignals signals = signals c := by
  unfold readySignals
  rw [h]

theorem feed_dir_turn (h : feedDone (some (r, c₁)) = some (r, c')) (hset : c'.cwdSet = true) :
    c₁.held = c'.held ∧ (c₁.cwdSet = true ∨ ∀ e, r = .error e → e.kind ≠ .typing) := by
  cases r with
  | error e =>
    cases h
    simp only [Bool.or_eq_true, Bool.and_eq_true, decide_eq_true_eq] at hset
    refine ⟨rfl, hset.imp_right fun hsent e' he => ?_⟩
    cases he
    exact hsent.2
  | ok ev =>
    cases h
    exact ⟨rfl, .inr fun e he => by cases he⟩

/-- A feed that keeps its worker and is not rejected before it is sent leaves the directory where it
was, or it reached the worker and was not refused by the type checker. -/
theorem feed_dir {code firstMount : GoString} {inputs : List NamedValue}
    {mounts : Option MountTable} {skipTypeCheck : Bool} {cwd : Option GoString}
    (hprepare : ∀ dir e, c.feedDir cfg firstMount cwd = .ok dir →
      prepare cfg (feedRequest code inputs skipTypeCheck dir) ≠ some (.error e))
    (h : c.feed cfg env code inputs mounts firstMount cwd skipTypeCheck = some (r, c'))
    (hheld : c'.held = true) (hset : c'.cwdSet = true) :
    c.held = true ∧ (c.cwdSet = true ∨ (∃ f, .sent (.feed f) true ∈
        c.feedSignals cfg env code inputs mounts firstMount cwd skipTypeCheck) ∧
      ∀ e, r = .error e → e.kind ≠ .typing) := by
  unfold feed whenReady at h
  split at h
  · rename_i hready
    have hsame := steady_ensureReady hready
    cases h
    exact ⟨hsame.held hheld, .inl (hsame.cwdSet ▸ hset)⟩
  rename_i c₁ hready
  obtain ⟨hc₁, hc⟩ := eq_of_ensureReady hready
  subst hc₁
  refine ⟨hc, ?_⟩
  unfold feedSignals
  rw [readySignals_eq hready]
  dsimp only at h ⊢
  split at h
  · cases h
    exact .inl hset
  rename_i hkind
  rw [if_neg hkind]
  cases hdir : c₁.feedDir cfg firstMount cwd with
  | error message =>
    rw [hdir] at h
    cases h
    exact .inl hset
  | ok dir =>
    rw [hdir] at h
    dsimp only at h ⊢
    cases hturn : turn cfg { c₁ with feedMounts := mounts } env
        (.feed { code := code, inputs := inputs, skipTypeCheck := skipTypeCheck, cwd := dir })
        false with
    | none =>
      rw [hturn] at h
      cases h
    | some answer =>
      obtain ⟨r₂, c₂⟩ := answer
      rw [hturn] at h
      have hr : r₂ = r := by
        cases r₂ with
        | error | ok => cases h; rfl
      subst hr
      obtain ⟨hheld₂, hdir₂⟩ := feed_dir_turn h hset
      rw [← hheld₂] at hheld
      have hidle := ensureReady_iff.mp hready
      obtain ⟨e, hrejected, -⟩ | hsent := reached_turn (c := { c₁ with feedMounts := mounts })
        hidle hturn hheld
      · exact absurd hrejected (hprepare dir e hdir)
      · refine hdir₂.imp (fun hset₂ => ?_) fun htyping => ⟨⟨_, hsent⟩, htyping⟩
        exact (sameDir_turn hturn).cwdSet ▸ hset₂

theorem restore_dir {state : Bytes} {mounts : Option MountTable} {r : Except Error (Option Event)}
    (h : c.restore cfg env state mounts = some (r, c'))
    (hheld : c'.held = true) (hset : c'.cwdSet = true) :
    c.held = true ∧ (c.cwdSet = true ∨
      .sent (.load state) true ∈ c.restoreSignals cfg env state mounts) := by
  unfold restore whenReady at h
  split at h
  · rename_i hready
    have hsame := steady_ensureReady hready
    cases h
    exact ⟨hsame.held hheld, .inl (hsame.cwdSet ▸ hset)⟩
  rename_i c₁ hready
  obtain ⟨hc₁, hc⟩ := eq_of_ensureReady hready
  subst hc₁
  refine ⟨hc, ?_⟩
  unfold restoreSignals
  rw [readySignals_eq hready]
  dsimp only at h ⊢
  split at h
  · cases h
  · rename_i hturn
    have hsame := sameDir_turn hturn
    left
    split at h
    all_goals
      cases h
      exact hsame.cwdSet ▸ hset
  · rename_i hturn
    exact .inr (sent_of_turn_ok hturn)

end Checkout

/-! ## Runs -/

/-- The call gave the worker its directory: a feed reached it and was not refused by the type
checker, or a dump did. -/
def Entry.Places (entry : Entry) : Prop :=
  (∃ f, .sent (.feed f) true ∈ entry.signals) ∧ (∀ e, entry.error = some e → e.kind ≠ .typing) ∨
    ∃ state, .sent (.load state) true ∈ entry.signals

/-- The directory of a feed without an explicit one. -/
def defaultDir (firstMount : GoString) : GoString :=
  if firstMount ≠ [] then firstMount else lit "/"

namespace Calls

variable {cfg : Config} {session : Configure} {s s' : Calls} {a : Call}

/-- No feed is rejected before it is sent. -/
def FeedsSent (cfg : Config) (s : Calls) (a : Call) : Prop :=
  match a with
  | .feed _ code inputs _ firstMount cwd skipTypeCheck =>
    ∀ c dir e, s.co = some c → c.feedDir cfg firstMount cwd = .ok dir →
      Checkout.prepare cfg (Checkout.feedRequest code inputs skipTypeCheck dir) ≠ some (.error e)
  | _ => True

/-- A checkout that counts its directory as set was given one, unless its worker is gone. -/
def DirGiven (s : Calls) : Prop :=
  ∀ c, s.co = some c → c.held = true → c.cwdSet = true → ∃ entry ∈ s.log, entry.Places

variable {α : Type} {x : Answer α} {k : α → Option Event} {error : Option Error}

theorem eq_of_outcome {c' : Checkout} (h : Checkout.outcome x = some (error, c')) :
    ∃ r, x = some (r, c') ∧ ∀ e, r = .error e ↔ error = some e := by
  cases x with
  | none => cases h
  | some answer =>
    obtain ⟨r, c₁⟩ := answer
    cases r with
    | error e | ok a =>
      cases h
      exact ⟨_, rfl, fun e' => by simp⟩

theorem outcome_handing : Checkout.outcome (handing k x) = Checkout.outcome x := by
  cases x with
  | none => rfl
  | some answer =>
    obtain ⟨r, c⟩ := answer
    cases r with
    | error e | ok a => rfl

theorem stays_outcome {c c' : Checkout} (hx : Checkout.Stays c x)
    (h : Checkout.outcome (handing k x) = some (error, c')) : Checkout.SameDir c c' := by
  rw [outcome_handing] at h
  obtain ⟨r, hr, -⟩ := eq_of_outcome h
  exact hx r c' hr

/-- A call other than a feed or a restore leaves the directory alone, and those give one. -/
theorem invoke_dir {c c' : Checkout} (hco : s.co = some c) (hfeeds : FeedsSent cfg s a)
    (h : c.invoke cfg a = some (error, c')) (hheld : c'.held = true) (hset : c'.cwdSet = true) :
    c.held = true ∧ (c.cwdSet = true ∨ Entry.Places ⟨c.signals cfg a, error⟩) := by
  have hstays (hsame : Checkout.SameDir c c') :
      c.held = true ∧ (c.cwdSet = true ∨ Entry.Places ⟨c.signals cfg a, error⟩) :=
    ⟨hsame.held hheld, .inl (hsame.cwdSet ▸ hset)⟩
  cases a with
  | feed env code inputs mounts firstMount cwd skipTypeCheck =>
    obtain ⟨r, hr, herror⟩ := eq_of_outcome (outcome_handing.symm.trans h)
    refine (feed_dir (fun dir e => hfeeds c dir e hco) hr hheld hset).imp_right
      (Or.imp_right fun hsent => .inl ⟨hsent.1, fun e he => ?_⟩)
    exact hsent.2 e ((herror e).mpr he)
  | resume => exact hstays (stays_outcome (sameDir_related cfg).resume h)
  | resumeNameLookup => exact hstays (stays_outcome (sameDir_related cfg).resumeNameLookup h)
  | resumeFutures => exact hstays (stays_outcome (sameDir_related cfg).resumeFutures h)
  | handlePendingMount =>
    refine hstays (stays_outcome (fun _ _ hmount => ?_) h)
    exact (sameDir_related cfg).steady [] (steady_handlePendingMount hmount)
  | resumeFromMounts => exact hstays (stays_outcome (sameDir_related cfg).resumeFromMounts h)
  | dump => exact hstays (stays_outcome (sameDir_related cfg).dump h)
  | restore env state mounts =>
    obtain ⟨r, hr, -⟩ := eq_of_outcome h
    exact (restore_dir hr hheld hset).imp_right (Or.imp_right fun hsent => .inr ⟨state, hsent⟩)
  | installDependencies => exact hstays (stays_outcome (sameDir_related cfg).installDependencies h)
  | finish => exact hstays (stays_outcome (sameDir_related cfg).finish h)
  | abort => exact hstays (stays_outcome (sameDir_related cfg).abort h)
  | terminate =>
    cases h
    cases hheld
  | handoff =>
    obtain ⟨r, hr, -⟩ := eq_of_outcome h
    exact hstays ((sameDir_related cfg).steady [] (steady_handoff hr))
  | dial | bind => cases h

theorem dirGiven_step (hs : DirGiven s) (hfeeds : FeedsSent cfg s a)
    (h : step cfg s a = .ok s') : DirGiven s' := by
  obtain ⟨c, error, hco, hlog, hresult⟩ := step_cases h
  intro c' hco' hheld hset
  obtain ⟨-, hnone, -⟩ | ⟨c₁, hinvoke, hsome⟩ := hresult
  · rw [hnone] at hco'
    cases hco'
  · rw [hsome] at hco'
    cases hco'
    rw [hlog]
    obtain ⟨hheld₀, hset₀ | hplaces⟩ := invoke_dir hco hfeeds hinvoke hheld hset
    · obtain ⟨entry, hmem, hplaces⟩ := hs c hco hheld₀ hset₀
      exact ⟨entry, List.mem_append_left _ hmem, hplaces⟩
    · exact ⟨_, List.mem_append_right _ List.mem_cons_self, hplaces⟩

theorem dirGiven_begun (h : Begun cfg session s) : DirGiven s := by
  cases h with
  | checkout h =>
    intro c hco _ hset
    cases hco
    rw [((sameDir_related cfg).controlTurn (k := fun _ => none) (fun _ => rfl) _ _ h).cwdSet] at hset
    cases hset
  | bind hconfigured h =>
    rename_i r env load c₀ c' state
    refine fun c hco _ _ => ⟨_, .tail _ (.head _), .inr ⟨state, ?_⟩⟩
    unfold Checkout.restoreCarried at h
    dsimp only at h
    split at h
    · rename_i hcontrol
      obtain ⟨ev, c₂, hturn⟩ := turn_of_controlTurn hcontrol
      exact sent_of_turn_ok hturn
    · rename_i hother
      exact absurd h (hother _ _)

/-- **The first feed gives the worker its directory.**  In every run on a checkout in which no feed
is rejected before it is sent: a feed without an explicit directory that reaches the worker carries
the first mount's path, or `/`, unless a feed that the type checker did not refuse, or a dump,
reached the worker before. -/
theorem first_feed_directory
    (hreach : Reachable (step cfg) (Begun cfg session) (FeedsSent cfg) s) {c : Checkout}
    (hco : s.co = some c) (hfirst : ∀ entry ∈ s.log, ¬ entry.Places) :
    ∀ env code inputs mounts firstMount skipTypeCheck f, .sent (.feed f) true ∈
          c.signals cfg (.feed env code inputs mounts firstMount none skipTypeCheck) →
        f.cwd = defaultDir firstMount := by
  intro env code inputs mounts firstMount skipTypeCheck f hsent
  have hgiven := hreach.invariant (P := DirGiven) (fun s => dirGiven_begun)
    fun s a s' => dirGiven_step
  simp only [Checkout.signals, Checkout.feedSignals, Checkout.readySignals] at hsent
  split at hsent
  · cases hsent
  rename_i c₁ hready
  obtain ⟨hc₁, hheld⟩ := eq_of_ensureReady hready
  subst hc₁
  have hset : c₁.cwdSet = false := by
    by_contra hset
    obtain ⟨entry, hmem, hplaces⟩ := hgiven c₁ hco hheld (by simpa using hset)
    exact hfirst entry hmem hplaces
  split at hsent
  · cases hsent
  simp only [Checkout.feedDir, hset, Bool.false_eq_true, if_false] at hsent
  obtain hreq | ⟨exc, hreq⟩ := sent_turnSignals hsent
  · cases hreq
    rfl
  · cases hreq

/-! ## A feed that is rejected -/

/-- A mount at `/data`. -/
def dataMount : GoString := lit "/data"

/-- A feed without an explicit directory. -/
def mountedFeed (inputs : List NamedValue) : Call :=
  .feed (answers { kind := .complete, hasValue := true }) [] inputs (some ⟨0⟩) dataMount none false

/-- Lists that are nested deeper than a value may be. -/
def deepList : Object := Nat.iterate (fun v => .list [v]) 100 .none

/-- The feed that is rejected for its input. -/
def rejectedFeed : Call := mountedFeed [⟨[], deepList⟩]

/-- The checkout that sends no directory any more. -/
def misplaced : Checkout := { unspent with feedMounts := some ⟨0⟩, cwdSet := true }

/-- The error of the feed. -/
def depthError : Error := runtimeError (lit "RuntimeError") (lit "Max input depth exceeded")

/-- The frame of the feed after it. -/
def bareFeed : Feed := { code := [], inputs := [], skipTypeCheck := false, cwd := [] }

theorem begun_log_places : ∀ entry ∈ begun.log, ¬ entry.Places := by
  intro entry hmem hplaces
  have hlog : begun.log = [⟨[.sent (remoteConfig.configure oneSuspension) true,
    .received { kind := .ok }], none⟩] := rfl
  rw [hlog, List.mem_singleton] at hmem
  subst hmem
  simp [Entry.Places, Config.configure] at hplaces

/-- A feed whose explicit directory is not absolute. -/
def relativeFeed : Call :=
  .feed (answers { kind := .complete, hasValue := true }) [] [] (some ⟨0⟩) dataMount
    (some (lit "data")) false

/-- Its error. -/
def relativeError : Error :=
  runtimeError (lit "ValueError") (lit "cwd must be an absolute POSIX path: data")

/-- The frame with the first mount's path. -/
def placedFeed : Feed := { bareFeed with cwd := dataMount }

theorem unplaced_append : ∀ entry ∈ begun.log ++ [⟨[], error⟩], ¬ entry.Places := by
  intro entry hmem hplaces
  obtain hmem | hmem := List.mem_append.mp hmem
  · exact begun_log_places entry hmem hplaces
  rw [List.mem_singleton] at hmem
  subst hmem
  simp [Entry.Places] at hplaces

theorem first_feed_directory_mounted :
    Reachable (step remoteConfig) (Begun remoteConfig oneSuspension) (FeedsSent remoteConfig)
        { co := unspent, log := begun.log ++ [⟨[], some relativeError⟩] } ∧
      .sent (.feed placedFeed) true ∈ unspent.signals remoteConfig (mountedFeed []) ∧
      placedFeed.cwd = defaultDir dataMount := by
  have hfeeds : FeedsSent remoteConfig begun relativeFeed := by
    intro c dir e hco hdir
    cases hco
    cases hdir
  have hreach := Reachable.step (.initial begun_unspent) hfeeds
    (show step remoteConfig begun relativeFeed =
      .ok { co := unspent, log := begun.log ++ [⟨[], some relativeError⟩] } from rfl)
  have hsent : .sent (.feed placedFeed) true ∈ unspent.signals remoteConfig (mountedFeed []) :=
    List.mem_cons_self
  exact ⟨hreach, hsent, first_feed_directory hreach rfl unplaced_append _ _ _ _ _ _ _ hsent⟩

/-- A feed that was rejected before anything was sent keeps the next one from carrying the first
mount's path. -/
theorem rejected_feed_takes_directory : Begun remoteConfig oneSuspension begun ∧
      run (step remoteConfig) begun [rejectedFeed] =
        .ok { co := misplaced, log := begun.log ++ [⟨[], some depthError⟩] } ∧
      (∀ entry ∈ begun.log ++ [⟨[], some depthError⟩], ¬ entry.Places) ∧
      .sent (.feed bareFeed) true ∈ misplaced.signals remoteConfig (mountedFeed []) ∧
      bareFeed.cwd ≠ defaultDir dataMount := by
  refine ⟨begun_unspent, ?_, unplaced_append, List.mem_cons_self, by decide⟩
  rw [run_cons (show step remoteConfig begun rejectedFeed =
    .ok { co := misplaced, log := begun.log ++ [⟨[], some depthError⟩] } from rfl)]
  rfl

end Calls

end Montygo.TurnEngine
