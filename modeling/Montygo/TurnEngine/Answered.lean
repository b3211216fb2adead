import Montygo.TurnEngine.Signals
import Montygo.TurnEngine.SuspensionLimit

/-!
# Every suspension is answered at most once

`Answered` reads the signals of a checkout and keeps the suspensions that have been received and
not been answered.  A resume or an `AbortFeed` takes away one of them, which it fits.

The checkout remembers the suspension that it awaits an answer for, and that one is always among
those not answered (`Backed`), as long as the worker answers no resume with `Ok` or `DumpResult`.
Those two leave the suspension where it is, and it can be answered again (`resumed_twice`).
-/

namespace Montygo.TurnEngine

open Go Value WireFormat Wire Transition

attribute [local simp] Event.isSuspension

/-! ## Answers -/

/-- The frames that answer a suspension. -/
def isAnswer : Request → Bool
  | .resumeCall _ _ | .resumeNameLookup _ _ _ | .resumeFutures _ | .abortFeed _ => true
  | _ => false

/-- The frame answers the suspension: its kind fits and its call id is the suspension's.  An eager
call may be answered as a future, `AbortFeed` answers any suspension. -/
def Fits (req : Request) (ev : Event) : Prop :=
  match req with
  | .resumeCall id result =>
    (ev.kind = .functionCall ∧ id = (ev.functionCall.getD {}).callID ∧ result.kind ≠ extNotHandled ∨
      ev.kind = .osCall ∧ id = (ev.osCall.getD {}).callID) ∧
    (result.kind = extFuture → result.futureCallID = id)
  | .resumeNameLookup _ _ _ => ev.kind = .nameLookup
  | .resumeFutures results =>
    ev.kind = .resolveFutures ∨
      ev.kind = .functionCall ∧ (ev.functionCall.getD {}).allowEagerAwait = true ∧
        results.map FutureResult.callID = [(ev.functionCall.getD {}).callID]
  | .abortFeed _ => ev.isSuspension = true
  | _ => False

/-- The suspensions not answered, after an event. -/
def opens (ev : Event) (l : List Event) : List Event := if ev.isSuspension then ev :: l else l

/-- The signals answer each suspension at most once, where the first list has the suspensions that
are not answered before and the second those that are not answered after. -/
inductive Answered : List Event → List Signal → List Event → Prop
  | nil (l : List Event) : Answered l [] l
  | received {ev : Event} {l l' : List Event} {rest : List Signal}
      (h : Answered (opens ev l) rest l') : Answered l (.received ev :: rest) l'
  | answer {req : Request} {reached : Bool} {ev : Event} {l₁ l₂ l' : List Event}
      {rest : List Signal} (hfits : Fits req ev) (h : Answered (l₁ ++ l₂) rest l') :
      Answered (l₁ ++ ev :: l₂) (.sent req reached :: rest) l'
  | request {req : Request} {reached : Bool} {l l' : List Event} {rest : List Signal}
      (hreq : isAnswer req = false) (h : Answered l rest l') :
      Answered l (.sent req reached :: rest) l'

variable {l l' : List Event} {t t' : List Signal} {p : Pending} {ev : Event} {req : Request}

theorem Answered.append {l'' : List Event} (h : Answered l t l') (h' : Answered l' t' l'') :
    Answered l (t ++ t') l'' := by
  induction h with
  | nil l => exact h'
  | received _ ih => exact .received (ih h')
  | answer hfits _ ih => exact .answer hfits (ih h')
  | request hreq _ ih => exact .request hreq (ih h')

/-- How many of the signals are answers. -/
def answerCount (t : List Signal) : ℕ :=
  t.countP fun
    | .sent req _ => isAnswer req
    | .received _ => false

/-- How many of the signals are suspensions. -/
def suspensionCount (t : List Signal) : ℕ :=
  t.countP fun
    | .sent _ _ => false
    | .received ev => ev.isSuspension

theorem isAnswer_of_fits (h : Fits req ev) : isAnswer req = true := by
  cases req with
  | resumeCall | resumeNameLookup | resumeFutures | abortFeed => rfl
  | configure | installDependencies | feed | dump | load | reset | shutdown => cases h

theorem length_opens : (opens ev l).length = l.length + if ev.isSuspension then 1 else 0 := by
  unfold opens
  split
  · rfl
  · rfl

theorem Answered.count (h : Answered l t l') :
    answerCount t + l'.length = suspensionCount t + l.length := by
  induction h with
  | nil l => rfl
  | received _ ih =>
    rw [length_opens] at ih
    simp only [answerCount, suspensionCount, List.countP_cons] at ih ⊢
    simp only [Bool.false_eq_true, if_false]
    omega
  | answer hfits _ ih =>
    simp only [answerCount, suspensionCount, List.countP_cons, List.length_append,
      List.length_cons] at ih ⊢
    simp only [isAnswer_of_fits hfits, Bool.false_eq_true, if_false, if_true]
    omega
  | request hreq _ ih =>
    simp only [answerCount, suspensionCount, List.countP_cons] at ih ⊢
    simp only [hreq, Bool.false_eq_true, if_false]
    omega

/-! ## The suspension that is awaited -/

/-- The pending state is that of the suspension. -/
def Awaits (p : Pending) (ev : Event) : Prop :=
  match p.kind with
  | .none => False
  | .call =>
    ev.kind = .functionCall ∧ p.callID = (ev.functionCall.getD {}).callID ∧
        p.allowEager = (ev.functionCall.getD {}).allowEagerAwait ∧ p.os = none ∨
      ev.kind = .osCall ∧ p.callID = (ev.osCall.getD {}).callID ∧ p.allowEager = false
  | .lookup => ev.kind = .nameLookup
  | .futures => ev.kind = .resolveFutures

/-- The suspension that is awaited is one of those not answered. -/
def Backed (l : List Event) (p : Pending) : Prop := p.kind ≠ .none → ∃ ev ∈ l, Awaits p ev

theorem backed_none : Backed l {} := fun h => absurd rfl h

theorem Backed.opens (h : Backed l p) : Backed (opens ev l) p := by
  intro hkind
  obtain ⟨ev', hmem, hawaits⟩ := h hkind
  refine ⟨ev', ?_, hawaits⟩
  unfold TurnEngine.opens
  split
  · exact List.mem_cons_of_mem _ hmem
  · exact hmem

theorem backed_of_awaits (hsusp : ev.isSuspension = true) (h : Awaits p ev) :
    Backed (opens ev l) p := by
  intro _
  refine ⟨ev, ?_, h⟩
  rw [opens, if_pos hsusp]
  exact List.mem_cons_self

/-- The reply ends a suspension, if it does not begin another. -/
def Settling (ev : Event) : Prop := ev.kind ≠ .ok ∧ ev.kind ≠ .dumpResult

/-- The calls that resume a suspension. -/
def Call.resumes : Call → Bool
  | .resume _ _ | .resumeNameLookup _ _ _ _ | .resumeFutures _ _ | .resumeFromMounts _ _ _ => true
  | _ => false

namespace Checkout

variable {cfg : Config} {c c' c₁ : Checkout} {env : Env} {e : Error}

theorem backed_dispatch (h : Backed l c.pending ∨ req ≠ .dump ∧ Settling ev) :
    Backed (opens ev l) (dispatch cfg c ev req).2.pending := by
  unfold dispatch
  cases hkind : ev.kind with
  | functionCall =>
    exact backed_of_awaits (by simp [hkind]) (.inl ⟨hkind, rfl, rfl, rfl⟩)
  | osCall =>
    dsimp only
    split
    · exact backed_none
    split
    · exact backed_none
    · exact backed_of_awaits (by simp [hkind]) (.inr ⟨hkind, rfl, rfl⟩)
  | nameLookup
  | resolveFutures => exact backed_of_awaits (by simp [hkind]) hkind
  | complete | shutdown =>
    dsimp only
    split
    · exact backed_none
    · exact backed_none
  | error =>
    cases ev.exception with
    | none => exact backed_none
    | some e =>
      cases req with
      | dump =>
        obtain hbacked | ⟨hdump, -⟩ := h
        · exact hbacked.opens
        · exact absurd rfl hdump
      | _ => exact backed_none
  | typingError | fatalError | none | print => exact backed_none
  | ok =>
    obtain hbacked | ⟨-, hsettling⟩ := h
    · exact hbacked.opens
    · exact absurd hkind hsettling.1
  | dumpResult =>
    obtain hbacked | ⟨-, hsettling⟩ := h
    · exact hbacked.opens
    · exact absurd hkind hsettling.2

/-! ## Turns -/

/-- The signals answer each suspension at most once, and the one that is awaited after them is not
answered. -/
def Keeps {α : Type} (l : List Event) (t : List Signal) (x : Answer α) : Prop :=
  ∃ l', Answered l t l' ∧ ∀ r c', x = some (r, c') → Backed l' c'.pending

theorem isSuspension_of_abort {exc : RaisedException} (h : received cfg c ev req = .abort exc c₁) :
    ev.isSuspension = true := by
  unfold received at h
  split at h
  · cases h
  dsimp only at h
  split at h
  · split at h
    · cases h
    · cases h
  split at h
  · rename_i hlimit
    exact hlimit.1
  · cases h

theorem backed_failed {x : Error × Checkout} {r : Except Error Event} (hlost : Lost x.1 x.2)
    (h : failed x = some (r, c')) : Backed l c'.pending := by
  cases h
  rw [hlost.pending]
  exact backed_none

theorem keeps_receive {deadline : Option Duration} {abortSend : Option IoFailure}
    (replies : List Reply)
    (h : Backed l c.pending ∨ req ≠ .dump ∧
      ∀ ev, .received ev ∈ (receive cfg req deadline abortSend replies c).1 → Settling ev) :
    Keeps l (receive cfg req deadline abortSend replies c).1
      (receive cfg req deadline abortSend replies c).2 := by
  induction replies generalizing c l with
  | nil =>
    refine ⟨l, .nil l, fun r c' h => ?_⟩
    cases h
  | cons reply rest ih =>
    cases reply with
    | lost failure =>
      exact ⟨l, .nil l, fun r c' h => backed_failed lost_ioFailure h⟩
    | invalid err =>
      refine ⟨l, .nil l, fun r c' h => ?_⟩
      cases h
      exact backed_none
    | event ev =>
      unfold receive at h ⊢
      obtain heq | ⟨exc, c₁, heq, hsame⟩ | ⟨e, c₁, heq, hlost⟩ | ⟨c₁, heq, hsame, -⟩ :=
        received_cases cfg c ev req
      · simp only [heq] at h ⊢
        obtain ⟨l', hrest, hback⟩ := ih (l := opens ev l)
          (h.imp Backed.opens (And.imp_right fun h ev' hmem => h ev' (.tail _ hmem)))
        exact ⟨l', .received hrest, hback⟩
      · have hsusp := isSuspension_of_abort heq
        have hopens : opens ev l = [] ++ ev :: l := by rw [opens, if_pos hsusp]; rfl
        simp only [heq] at h ⊢
        cases abortSend with
        | some failure =>
          refine ⟨l, .received ?_, fun r c' h => backed_failed lost_ioFailure h⟩
          rw [hopens]
          exact .answer hsusp (.nil l)
        | none =>
          have hnext : Backed l { c₁ with abortFlight := true }.pending ∨ req ≠ .dump ∧
              ∀ ev', .received ev' ∈ (receive cfg req deadline none rest
                { c₁ with abortFlight := true }).1 → Settling ev' := by
            refine h.imp (fun hbacked => ?_)
              (And.imp_right fun h ev' hmem => h ev' (.tail _ (.tail _ hmem)))
            rwa [← hsame.pending] at hbacked
          obtain ⟨l', hrest, hback⟩ := ih hnext
          refine ⟨l', .received ?_, hback⟩
          rw [hopens]
          exact .answer hsusp hrest
      · simp only [heq]
        refine ⟨opens ev l, .received (.nil _), fun r c' h => ?_⟩
        cases h
        rw [hlost.pending]
        exact backed_none
      · simp only [heq] at h ⊢
        refine ⟨opens ev l, .received (.nil _), fun r c' heq' => ?_⟩
        cases heq'
        refine backed_dispatch (h.imp (fun hbacked => ?_) (And.imp_right fun h => ?_))
        · rwa [← hsame.pending] at hbacked
        · exact h ev (.head _)

variable {α : Type} {x : Answer α} {results : List FutureResult}

theorem keeps_unready {r : Except Error α} (hl : Backed l c.pending)
    (hready : c.ensureReady = (some e, c₁)) : Keeps l [] (some (r, c₁)) := by
  refine ⟨l, .nil l, fun r c' h => ?_⟩
  cases h
  obtain hsame | hnone := (steady_ensureReady hready).pending
  · rwa [hsame]
  · rw [hnone]
    exact backed_none

/-- **A turn**: `l₁` has the suspensions that are not answered once the request is sent. -/
theorem keeps_turn (control : Bool) {l₁ : List Event} (hl : Backed l c.pending)
    (hsend : ∀ reached rest l', Answered l₁ rest l' → Answered l (.sent req reached :: rest) l')
    (hafter : Backed l₁ c.pending ∨ req ≠ .dump ∧
      ∀ ev, .received ev ∈ c.turnSignals cfg env req control → Settling ev) :
    Keeps l (c.turnSignals cfg env req control) (c.turn cfg env req control) := by
  unfold turnSignals at hafter ⊢
  unfold turn
  unfold turnWith at hafter ⊢
  rcases hready : ensureReady { c with held := c.held && env.held } with ⟨failure, c₁⟩
  rw [hready] at hafter
  cases failure with
  | some e => exact keeps_unready (c := { c with held := c.held && env.held }) hl hready
  | none =>
    have hc₁ : c₁.pending = c.pending := by rw [(eq_of_ensureReady hready).1]
    cases hprepare : prepare cfg req with
    | none =>
      refine ⟨l, .nil l, fun r c' h => ?_⟩
      cases h
    | some prepared =>
      rw [hprepare] at hafter
      cases prepared with
      | error e =>
        refine ⟨l, .nil l, fun r c' h => ?_⟩
        cases h
        rwa [hc₁]
      | ok payload =>
        dsimp only at hafter ⊢
        cases hsent : env.send with
        | some failure =>
          exact ⟨l₁, hsend false [] l₁ (.nil l₁), fun r c' h => backed_failed lost_ioFailure h⟩
        | none =>
          rw [hsent] at hafter
          obtain ⟨l', hrest, hback⟩ := keeps_receive (l := l₁)
            (c := { c₁ with inFlight := true, sent := true }) env.replies
            (hafter.imp (fun hbacked => by rwa [← hc₁] at hbacked)
              (And.imp_right fun h ev hmem => h ev (.tail _ hmem)))
          exact ⟨l', hsend true _ l' hrest, hback⟩

/-! ## Calls -/

theorem Keeps.of_pending {β : Type} {y : Answer β} (h : Keeps l t x)
    (hy : ∀ r c', y = some (r, c') →
      ∃ r₀ c₀, x = some (r₀, c₀) ∧ (c'.pending = c₀.pending ∨ c'.pending = {})) :
    Keeps l t y := by
  obtain ⟨l', hanswered, hback⟩ := h
  refine ⟨l', hanswered, fun r c' heq => ?_⟩
  obtain ⟨r₀, c₀, hx, hsame | hnone⟩ := hy r c' heq
  · rw [hsame]
    exact hback r₀ c₀ hx
  · rw [hnone]
    exact backed_none

theorem keeps_silent (hl : Backed l c.pending)
    (hx : ∀ r c', x = some (r, c') → c'.pending = c.pending ∨ c'.pending = {}) :
    Keeps l [] x :=
  Keeps.of_pending (x := some (.ok (), c)) ⟨l, .nil l, fun r c' h => by cases h; exact hl⟩
    fun r c' h => ⟨.ok (), c, rfl, hx r c' h⟩

theorem keeps_same {r : Except Error α} (hl : Backed l c.pending) : Keeps l [] (some (r, c)) :=
  keeps_silent hl fun r c' h => by cases h; exact .inl rfl

theorem keeps_whenReady {body : Checkout → Answer α} {signals : Checkout → List Signal}
    (hl : Backed l c.pending)
    (h : c.readySignals signals = signals c → Keeps l (signals c) (body c)) :
    Keeps l (c.readySignals signals) (c.whenReady body) := by
  unfold readySignals at h ⊢
  unfold whenReady
  rcases hready : ensureReady c with ⟨failure, c₁⟩
  rw [hready] at h
  cases failure with
  | some e => exact keeps_unready hl hready
  | none =>
    obtain ⟨rfl, -⟩ := eq_of_ensureReady hready
    exact h rfl

theorem keeps_request (control : Bool) (hl : Backed l c.pending) (hreq : isAnswer req = false) :
    Keeps l (c.turnSignals cfg env req control) (c.turn cfg env req control) :=
  keeps_turn control hl (fun _ _ _ => .request hreq) (.inl hl)

theorem keeps_resume {control : Bool} (hl : Backed l c.pending) (hkind : c.pending.kind ≠ .none)
    (hfits : ∀ ev, Awaits c.pending ev → Fits req ev)
    (hdump : req ≠ .dump)
    (hsettling : ∀ ev, .received ev ∈ c.turnSignals cfg env req control → Settling ev) :
    Keeps l (c.turnSignals cfg env req control) (c.turn cfg env req control) := by
  obtain ⟨ev, hmem, hawaits⟩ := hl hkind
  obtain ⟨l₁, l₂, rfl⟩ := List.append_of_mem hmem
  exact keeps_turn control hl (fun _ _ _ => .answer (hfits ev hawaits)) (.inr ⟨hdump, hsettling⟩)

theorem keeps_controlTurn (name : String) (want : EventKind) (k : Event → α)
    (hl : Backed l c.pending) (hreq : isAnswer req = false) :
    Keeps l (c.turnSignals cfg env req true) (c.controlTurn cfg env req name want k) := by
  refine Keeps.of_pending (keeps_request true hl hreq) fun r c' h => ?_
  unfold controlTurn at h
  split at h
  · cases h
  · rename_i e c₁ hturn
    cases h
    exact ⟨_, _, hturn, .inl rfl⟩
  · rename_i ev c₁ hturn
    split at h
    · cases h
      exact ⟨_, _, hturn, .inr rfl⟩
    · cases h
      exact ⟨_, _, hturn, .inl rfl⟩

theorem keeps_feed {code firstMount : GoString} {inputs : List NamedValue}
    {mounts : Option MountTable} {skipTypeCheck : Bool} {cwd : Option GoString}
    (hl : Backed l c.pending) :
    Keeps l (c.feedSignals cfg env code inputs mounts firstMount cwd skipTypeCheck)
      (c.feed cfg env code inputs mounts firstMount cwd skipTypeCheck) := by
  refine keeps_whenReady hl fun _ => ?_
  dsimp only
  split
  · exact keeps_same hl
  cases c.feedDir cfg firstMount cwd with
  | error message => exact keeps_same hl
  | ok dir =>
    refine Keeps.of_pending (keeps_request false (c := { c with feedMounts := mounts }) hl rfl)
      fun r c' h => ?_
    obtain ⟨c₁, set, hturn, rfl⟩ := eq_of_feedDone h
    exact ⟨_, _, hturn, .inl rfl⟩

theorem fits_resume {result : ExtResult} (hkind : c.pending.kind = .call)
    (hos : ¬ (result.kind = extNotHandled ∧ c.pending.os.isNone = true))
    (hawaits : Awaits c.pending ev) :
    Fits (.resumeCall c.pending.callID (c.resumeResult result)) ev := by
  have hresult : (c.resumeResult result).kind = result.kind := by
    unfold resumeResult
    split
    · rfl
    split
    · rfl
    · rfl
  refine ⟨?_, fun hfuture => ?_⟩
  · simp only [Awaits, hkind] at hawaits
    obtain ⟨hev, hid, -, hnone⟩ | ⟨hev, hid, -⟩ := hawaits
    · refine .inl ⟨hev, hid, fun hnot => hos ⟨hresult ▸ hnot, ?_⟩⟩
      rw [hnone]
      rfl
    · exact .inr ⟨hev, hid⟩
  · rw [hresult] at hfuture
    rw [resumeResult, if_pos hfuture]

theorem keeps_resumeCall {result : ExtResult} (hl : Backed l c.pending)
    (hsettling : ∀ ev, .received ev ∈ c.resumeSignals cfg env result → Settling ev) :
    Keeps l (c.resumeSignals cfg env result) (c.resume cfg env result) := by
  refine keeps_whenReady hl fun hready => ?_
  rw [resumeSignals, hready] at hsettling
  split
  · exact keeps_same hl
  rename_i hkind
  replace hkind := not_not.mp hkind
  split
  · exact keeps_same hl
  rename_i hos
  rw [if_neg (not_not.mpr hkind), if_neg hos] at hsettling
  exact keeps_resume hl (by rw [hkind]; exact PendingKind.noConfusion)
    (fun ev => fits_resume hkind hos) nofun hsettling

theorem keeps_resumeNameLookup {kind : LookupKind} {value : Object}
    {error : Option RaisedException} (hl : Backed l c.pending)
    (hsettling : ∀ ev, .received ev ∈ c.resumeNameLookupSignals cfg env kind value error →
      Settling ev) :
    Keeps l (c.resumeNameLookupSignals cfg env kind value error)
      (c.resumeNameLookup cfg env kind value error) := by
  refine keeps_whenReady hl fun hready => ?_
  rw [resumeNameLookupSignals, hready] at hsettling
  split
  · exact keeps_same hl
  rename_i hkind
  replace hkind := not_not.mp hkind
  rw [if_neg (not_not.mpr hkind)] at hsettling
  refine keeps_resume hl (by rw [hkind]; exact PendingKind.noConfusion) (fun ev hawaits => ?_) nofun
    hsettling
  simp only [Awaits, hkind] at hawaits
  exact hawaits

theorem fits_resumeFutures (hfutures : c.futuresError results = none)
    (hawaits : Awaits c.pending ev) : Fits (.resumeFutures results) ev := by
  unfold futuresError at hfutures
  split at hfutures
  · rename_i hkind
    simp only [Awaits, hkind] at hawaits
    exact .inl hawaits
  split at hfutures
  · rename_i hcall
    simp only [Awaits, hcall.1] at hawaits
    split at hfutures
    · rename_i r
      split at hfutures
      · rename_i hid
        obtain ⟨hev, hid', heager, -⟩ | ⟨-, -, heager⟩ := hawaits
        · refine .inr ⟨hev, heager ▸ hcall.2, ?_⟩
          rw [List.map_singleton, hid, hid']
        · rw [hcall.2] at heager
          cases heager
      · cases hfutures
    · cases hfutures
  · cases hfutures

theorem kind_of_futuresError (hfutures : c.futuresError results = none) :
    c.pending.kind ≠ .none := by
  intro hkind
  simp [futuresError, hkind] at hfutures

theorem keeps_resumeFutures (hl : Backed l c.pending)
    (hsettling : ∀ ev, .received ev ∈ c.resumeFuturesSignals cfg env results → Settling ev) :
    Keeps l (c.resumeFuturesSignals cfg env results) (c.resumeFutures cfg env results) := by
  refine keeps_whenReady hl fun hready => ?_
  rw [resumeFuturesSignals, hready] at hsettling
  cases hfutures : c.futuresError results with
  | some e => exact keeps_same hl
  | none =>
    rw [hfutures] at hsettling
    dsimp only at hsettling ⊢
    cases hfind : results.find? fun r =>
        r.result.kind ≠ extReturn ∧ r.result.kind ≠ extError with
    | some r => exact keeps_same hl
    | none =>
      rw [hfind] at hsettling
      exact keeps_resume hl (kind_of_futuresError hfutures)
        (fun ev => fits_resumeFutures hfutures) nofun hsettling

theorem Keeps.append {β : Type} {y : Answer β} {r₀ : Except Error α} {c₀ : Checkout}
    (h : Keeps l t x) (hx : x = some (r₀, c₀)) (h' : ∀ l', Backed l' c₀.pending → Keeps l' t' y) :
    Keeps l (t ++ t') y := by
  obtain ⟨l', hanswered, hback⟩ := h
  obtain ⟨l'', hanswered', hback'⟩ := h' l' (hback r₀ c₀ hx)
  exact ⟨l'', hanswered.append hanswered', hback'⟩

theorem keeps_resumeFromMounts {answer : MountAnswer} {retry : Env} (hl : Backed l c.pending)
    (hsettling : ∀ ev, .received ev ∈ c.resumeFromMountsSignals cfg answer env retry →
      Settling ev) :
    Keeps l (c.resumeFromMountsSignals cfg answer env retry)
      (c.resumeFromMounts cfg answer env retry) := by
  unfold resumeFromMountsSignals at hsettling ⊢
  unfold resumeFromMounts
  cases hmount : c.handlePendingMount answer with
  | none => exact keeps_silent hl fun r c' h => by cases h
  | some mounted =>
    obtain ⟨r, c₁⟩ := mounted
    have hl₁ : Backed l c₁.pending := by
      obtain hsame | hnone := (steady_handlePendingMount hmount).pending
      · rwa [hsame]
      · rw [hnone]
        exact backed_none
    rw [hmount] at hsettling
    match r with
    | .error e | .ok none => exact keeps_same hl₁
    | .ok (some result) =>
      have hfirst := keeps_resumeCall hl₁ fun ev hmem => hsettling ev (List.mem_append_left _ hmem)
      dsimp only at hsettling ⊢
      cases hresume : c₁.resume cfg env result with
      | none =>
        rw [List.append_nil]
        exact hfirst.of_pending fun r c' h => by cases h
      | some resumed =>
        obtain ⟨r₂, c₂⟩ := resumed
        rw [hresume] at hsettling
        cases r₂ with
        | ok ev =>
          refine hfirst.append hresume fun l' hl' => keeps_same hl'
        | error e =>
          dsimp only at hsettling ⊢
          split
          · rename_i hrejected
            rw [if_pos hrejected] at hsettling
            refine hfirst.append hresume fun l' hl' => ?_
            refine (keeps_resumeCall hl' fun ev hmem =>
              hsettling ev (List.mem_append_right _ hmem)).of_pending fun r c' h => ?_
            split at h
            · cases h
            all_goals
              rename_i hagain
              cases h
              exact ⟨_, _, hagain, .inl rfl⟩
          · exact hfirst.append hresume fun l' hl' => keeps_same hl'

theorem keeps_restore {state : Bytes} {mounts : Option MountTable} (hl : Backed l c.pending) :
    Keeps l (c.restoreSignals cfg env state mounts) (c.restore cfg env state mounts) := by
  refine keeps_whenReady hl fun _ => ?_
  refine (keeps_request true (c := { c with
      pending := {}
      budget := { c.budget with durationBudget := none, reportedExec := 0, suspensionsSeen := 0 }
      feedMounts := mounts }) backed_none rfl).of_pending fun r c' h => ?_
  dsimp only at h
  split at h
  · cases h
  · rename_i hturn
    split at h
    all_goals
      cases h
      exact ⟨_, _, hturn, .inl rfl⟩
  · rename_i hturn
    split at h
    · cases h
      exact ⟨_, _, hturn, .inl rfl⟩
    split at h
    · cases h
      exact ⟨_, _, hturn, .inl rfl⟩
    · cases h
      exact ⟨_, _, hturn, .inr rfl⟩

theorem keeps_installDependencies {requirements : List GoString} (hl : Backed l c.pending) :
    Keeps l (c.installDependenciesSignals cfg env requirements)
      (c.installDependencies cfg env requirements) := by
  refine keeps_whenReady hl fun _ => ?_
  split
  · exact keeps_same hl
  split
  · exact keeps_same hl
  cases requirements.findSome? (requirementError cfg) with
  | some message => exact keeps_same hl
  | none => exact keeps_controlTurn _ _ _ hl rfl

theorem keeps_finish (hl : Backed l c.pending) :
    Keeps l (c.finishSignals cfg env) (c.finish cfg env) := by
  unfold finishSignals finish
  split
  · exact keeps_silent hl fun r c' h => by cases h; exact .inl rfl
  split
  · exact keeps_silent hl fun r c' h => by cases h; exact .inr rfl
  split
  · exact keeps_silent hl fun r c' h => by cases h; exact .inl rfl
  refine (keeps_controlTurn "Reset" .ok (fun _ => ()) hl rfl).of_pending fun r c' h => ?_
  split at h
  · cases h
  all_goals
    rename_i hturn
    cases h
    exact ⟨_, _, hturn, .inr rfl⟩

theorem isSuspension_of_awaits (h : Awaits p ev) : ev.isSuspension = true := by
  unfold Awaits at h
  split at h
  · cases h
  · obtain ⟨hev, -⟩ | ⟨hev, -⟩ := h
    all_goals simp [hev]
  all_goals simp [h]

/-- `Abort` awaits nothing once it is sent, whatever the worker answers. -/
theorem keeps_abort {exc : Option RaisedException} (hl : Backed l c.pending) :
    Keeps l (c.abortSignals cfg env exc) (c.abort cfg env exc) := by
  refine keeps_whenReady hl fun _ => ?_
  dsimp only
  split
  · exact keeps_same hl
  rename_i hkind
  obtain ⟨ev, hmem, hawaits⟩ := hl hkind
  obtain ⟨l₁, l₂, rfl⟩ := List.append_of_mem hmem
  have hfits : Fits (.abortFeed exc) ev := isSuspension_of_awaits hawaits
  refine (keeps_turn false (c := { c with pending := {}, abortFlight := true })
    backed_none (fun _ _ _ => .answer hfits)
    (.inl backed_none)).of_pending fun r c' h => ?_
  split at h
  · cases h
  · rename_i hturn
    cases h
    exact ⟨_, _, hturn, .inl rfl⟩
  · rename_i hturn
    cases h
    exact ⟨_, _, hturn, .inr rfl⟩

theorem Keeps.handing {k : α → Option Event} (h : Keeps l t x) : Keeps l t (handing k x) := by
  refine h.of_pending fun r c' heq => ?_
  obtain ⟨r₀, rfl, -⟩ := eq_of_handing heq
  exact ⟨r₀, c', rfl, .inl rfl⟩

/-- What a call makes of the suspensions, whatever it returns. -/
def Leaves (l : List Event) (t : List Signal) (x : Option (Option Error × Checkout)) : Prop :=
  ∃ l', Answered l t l' ∧ ∀ e c', x = some (e, c') → Backed l' c'.pending

theorem Keeps.outcome (h : Keeps l t x) : Leaves l t (outcome x) := by
  obtain ⟨l', hanswered, hback⟩ := h
  refine ⟨l', hanswered, fun e c' heq => ?_⟩
  cases x with
  | none => cases heq
  | some answer =>
    obtain ⟨r, c₁⟩ := answer
    cases r with
    | error e | ok a =>
      cases heq
      exact hback _ c' rfl

/-- **Every call.** -/
theorem leaves_invoke {a : Call} (hl : Backed l c.pending)
    (hsettling : a.resumes = true → ∀ ev, .received ev ∈ c.signals cfg a → Settling ev) :
    Leaves l (c.signals cfg a) (c.invoke cfg a) := by
  cases a with
  | feed => exact (keeps_feed hl).handing.outcome
  | resume => exact (keeps_resumeCall hl (hsettling rfl)).handing.outcome
  | resumeNameLookup => exact (keeps_resumeNameLookup hl (hsettling rfl)).handing.outcome
  | resumeFutures => exact (keeps_resumeFutures hl (hsettling rfl)).handing.outcome
  | handlePendingMount =>
    exact (keeps_silent hl fun r c' h => (steady_handlePendingMount h).pending).handing.outcome
  | resumeFromMounts => exact (keeps_resumeFromMounts hl (hsettling rfl)).handing.outcome
  | dump => exact (keeps_controlTurn _ _ _ hl rfl).handing.outcome
  | restore => exact (keeps_restore hl).outcome
  | installDependencies => exact (keeps_installDependencies hl).handing.outcome
  | finish => exact (keeps_finish hl).handing.outcome
  | abort => exact (keeps_abort hl).handing.outcome
  | terminate => exact (keeps_silent hl fun r c' h => by cases h; exact .inl rfl).outcome
  | handoff => exact (keeps_silent hl fun r c' h => (steady_handoff h).pending).outcome
  | dial | bind => exact ⟨l, .nil l, fun e c' h => by cases h⟩

end Checkout

/-! ## Runs -/

namespace Calls

variable {cfg : Config} {session : Configure} {s s' : Calls} {a : Call}

/-- No resume is answered with `Ok` or `DumpResult`. -/
def Settles (cfg : Config) (s : Calls) (a : Call) : Prop :=
  a.resumes = true → ∀ c, s.co = some c → ∀ ev, .received ev ∈ c.signals cfg a → Settling ev

/-- The suspensions not answered, and the one that is awaited among them. -/
def AnswersOnce (s : Calls) : Prop :=
  ∃ l, Answered [] s.signals l ∧ ∀ c, s.co = some c → Backed l c.pending

theorem step_cases (h : step cfg s a = .ok s') :
    ∃ c error, s.co = some c ∧ s'.log = s.log ++ [⟨c.signals cfg a, error⟩] ∧
      ((c.invoke cfg a = none ∧ s'.co = none ∧ error = none) ∨
        ∃ c', c.invoke cfg a = some (error, c') ∧ s'.co = some c') := by
  unfold step at h
  split at h
  · cases h
  · cases h
  · cases h
  rename_i c _ _ hco
  split at h
  · rename_i hinvoke
    cases h
    exact ⟨c, none, hco, rfl, .inl ⟨hinvoke, rfl, rfl⟩⟩
  · rename_i error c' hinvoke
    cases h
    exact ⟨c, error, hco, rfl, .inr ⟨c', hinvoke, rfl⟩⟩

theorem answersOnce_step (hs : AnswersOnce s) (hsettles : Settles cfg s a)
    (h : step cfg s a = .ok s') : AnswersOnce s' := by
  obtain ⟨l, hanswered, hback⟩ := hs
  obtain ⟨c, error, hco, hlog, hresult⟩ := step_cases h
  obtain ⟨l', hcall, hback'⟩ :=
    Checkout.leaves_invoke (hback c hco) fun hresumes => hsettles hresumes c hco
  have hsignals : s'.signals = s.signals ++ c.signals cfg a := by
    simp [signals, hlog]
  refine ⟨l', hsignals ▸ hanswered.append hcall, fun c' hco' => ?_⟩
  obtain ⟨-, hnone, -⟩ | ⟨c₁, hinvoke, hsome⟩ := hresult
  · rw [hnone] at hco'
    cases hco'
  · rw [hsome] at hco'
    cases hco'
    exact hback' error c' hinvoke

theorem keeps_configured {env : Env} :
    Checkout.Keeps [] (configuredSignals cfg session env) (configured cfg session env) :=
  Checkout.keeps_controlTurn _ _ _ backed_none rfl

theorem keeps_restoreCarried {c : Checkout} {l : List Event} {load : Env} {state : Bytes}
    {r : Reservation} (hl : Backed l c.pending) :
    Checkout.Keeps l
      (Checkout.turnSignals cfg { c with budget := c.carriedBudget r } load (.load state) true)
      (c.restoreCarried cfg load state r) := by
  refine (Checkout.keeps_controlTurn "Load" .ok (fun _ => ())
    (c := { c with budget := c.carriedBudget r }) hl rfl).of_pending fun r c' h => ?_
  unfold Checkout.restoreCarried at h
  dsimp only at h
  split at h
  · rename_i hturn
    cases h
    exact ⟨_, _, hturn, .inl rfl⟩
  · exact ⟨_, _, h, .inl rfl⟩

theorem answersOnce_begun (h : Begun cfg session s) : AnswersOnce s := by
  cases h with
  | checkout h =>
    obtain ⟨l, hanswered, hback⟩ := keeps_configured
    refine ⟨l, ?_, fun c hco => ?_⟩
    · simpa [signals] using hanswered
    · cases hco
      exact hback _ _ h
  | bind hconfigured h =>
    obtain ⟨l, hanswered, hback⟩ := keeps_configured
    obtain ⟨l', hanswered', hback'⟩ := keeps_restoreCarried (hback _ _ hconfigured)
    refine ⟨l', ?_, fun c hco => ?_⟩
    · simpa [signals] using hanswered.append hanswered'
    · cases hco
      exact hback' _ _ h

/-- **Every suspension is answered at most once.**  In every run on a checkout in which no resume is
answered with `Ok` or `DumpResult`, each resume and each `AbortFeed` takes away one of the
suspensions received before it and not answered yet, which it fits; and there are at most as many
of these frames as suspensions. -/
theorem suspension_answered_once
    (hreach : Reachable (step cfg) (Begun cfg session) (Settles cfg) s) :
    (∃ l, Answered [] s.signals l) ∧ answerCount s.signals ≤ suspensionCount s.signals := by
  obtain ⟨l, hanswered, -⟩ := hreach.invariant (P := AnswersOnce) (fun s => answersOnce_begun)
    fun s a s' => answersOnce_step
  have hcount := hanswered.count
  rw [List.length_nil] at hcount
  exact ⟨⟨l, hanswered⟩, by omega⟩

/-! ## A resume that is answered with `Ok` -/

/-- A checkout that may suspend once, before its first feed. -/
def begun : Calls :=
  { co := unspent
    log := [⟨configuredSignals remoteConfig oneSuspension (answers { kind := .ok }), none⟩] }

theorem begun_unspent : Begun remoteConfig oneSuspension begun := .checkout rfl

/-- The feed has suspended at a function call. -/
def suspendedCalls : Calls :=
  { co := suspended, log := begun.log ++ [⟨unspent.signals remoteConfig suspendingFeed, none⟩] }

theorem step_begun : step remoteConfig begun suspendingFeed = .ok suspendedCalls := rfl

theorem suspension_answered_once_resumed :
    ∃ s, Reachable (step remoteConfig) (Begun remoteConfig oneSuspension) (Settles remoteConfig) s ∧
      answerCount s.signals = 1 ∧ answerCount s.signals ≤ suspensionCount s.signals := by
  have hfed : Reachable (step remoteConfig) (Begun remoteConfig oneSuspension)
      (Settles remoteConfig) suspendedCalls :=
    .step (.initial begun_unspent) (fun h => by cases h) step_begun
  have hsettles : Settles remoteConfig suspendedCalls completingResume := by
    rintro - c hc ev hev
    cases hc
    have hsignals : suspended.signals remoteConfig completingResume =
        [.sent (.resumeCall 0 { kind := extReturn }) true,
          .received { kind := .complete, hasValue := true }] := rfl
    rw [hsignals] at hev
    simp only [List.mem_cons, reduceCtorEq, Signal.received.injEq, List.not_mem_nil, or_false,
      false_or] at hev
    subst hev
    exact ⟨EventKind.noConfusion, EventKind.noConfusion⟩
  have hresumed := Reachable.step hfed hsettles rfl
  exact ⟨_, hresumed, rfl, (suspension_answered_once hresumed).2⟩

/-- A resume that the worker answers with `Ok`. -/
def misansweredResume : Call := .resume (answers { kind := .ok }) { kind := extReturn }

/-- After it the checkout is still suspended. -/
def misansweredCalls : Calls :=
  { co := suspended
    log := suspendedCalls.log ++ [⟨suspended.signals remoteConfig misansweredResume, none⟩] }

/-- The suspension is answered again, and the feed completes. -/
def resumedTwice : Calls :=
  { co := completed
    log := misansweredCalls.log ++ [⟨suspended.signals remoteConfig completingResume, none⟩] }

theorem step_suspendedCalls :
    step remoteConfig suspendedCalls misansweredResume = .ok misansweredCalls := rfl

theorem step_misansweredCalls :
    step remoteConfig misansweredCalls completingResume = .ok resumedTwice := rfl

/-- A worker that answers a resume with `Ok` has its suspension answered twice. -/
theorem resumed_twice : Begun remoteConfig oneSuspension begun ∧
      run (step remoteConfig) begun [suspendingFeed, misansweredResume, completingResume] =
        .ok resumedTwice ∧
      suspensionCount resumedTwice.signals = 1 ∧ answerCount resumedTwice.signals = 2 ∧
      ¬ ∃ l, Answered [] resumedTwice.signals l := by
  have hsuspensions : suspensionCount resumedTwice.signals = 1 := rfl
  have hanswers : answerCount resumedTwice.signals = 2 := rfl
  refine ⟨begun_unspent, ?_, hsuspensions, hanswers, ?_⟩
  · rw [run_cons step_begun, run_cons step_suspendedCalls, run_cons step_misansweredCalls]
    rfl
  · rintro ⟨l, hanswered⟩
    have hcount := hanswered.count
    rw [hsuspensions, hanswers, List.length_nil] at hcount
    omega

end Calls

end Montygo.TurnEngine
