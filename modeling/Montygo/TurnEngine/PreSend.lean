import Montygo.TurnEngine.SuspensionLimit

/-!
# Requests that are rejected before they are sent

A request that cannot be encoded, or is too large, fails with an error that says that nothing was
sent.  The suspension should then still be there to be answered.  It is for the resumes, a dump and
an installation.  `Feed`, `Abort` and `Restore` change the checkout before they ask whether the
request can be sent.
-/

namespace Montygo.TurnEngine

open Go Value WireFormat Wire

/-- A call that sends one request. -/
inductive Sending where
  | feed (env : Env) (code : GoString) (inputs : List NamedValue) (mounts : Option MountTable)
      (firstMount : GoString) (cwd : Option GoString) (skipTypeCheck : Bool)
  | resume (env : Env) (result : ExtResult)
  | resumeNameLookup (env : Env) (kind : LookupKind) (value : Object)
      (error : Option RaisedException)
  | resumeFutures (env : Env) (results : List FutureResult)
  | abort (env : Env) (exc : Option RaisedException)
  | dump (env : Env)
  | restore (env : Env) (state : Bytes) (mounts : Option MountTable)
  | installDependencies (env : Env) (requirements : List GoString)

/-- The call fails with this error and leaves this checkout. -/
def Sending.Fails (cfg : Config) (c : Checkout) (e : Error) (c' : Checkout) : Sending → Prop
  | .feed env code inputs mounts firstMount cwd skipTypeCheck =>
    c.feed cfg env code inputs mounts firstMount cwd skipTypeCheck = some (.error e, c')
  | .resume env result => c.resume cfg env result = some (.error e, c')
  | .resumeNameLookup env kind value error =>
    c.resumeNameLookup cfg env kind value error = some (.error e, c')
  | .resumeFutures env results => c.resumeFutures cfg env results = some (.error e, c')
  | .abort env exc => c.abort cfg env exc = some (.error e, c')
  | .dump env => c.dump cfg env = some (.error e, c')
  | .restore env state mounts => c.restore cfg env state mounts = some (.error e, c')
  | .installDependencies env requirements =>
    c.installDependencies cfg env requirements = some (.error e, c')

/-- The suspension, the abort flag, the mounts, the budget and the flag of the working directory are
as before. -/
structure Kept (c c' : Checkout) : Prop where
  pending : c'.pending = c.pending
  abortFlight : c'.abortFlight = c.abortFlight
  feedMounts : c'.feedMounts = c.feedMounts
  budget : c'.budget = c.budget
  cwdSet : c'.cwdSet = c.cwdSet

/-- Where the call changes nothing before its request is checked: a feed whose directory is refused,
or that has the mount table of the checkout and finds the directory set or the last request unsent;
a restore that has that table and finds no suspension; never an abort. -/
def Sending.Safe (cfg : Config) (c : Checkout) : Sending → Prop
  | .feed _ _ _ mounts firstMount cwd _ =>
    (∃ message, c.feedDir cfg firstMount cwd = .error message) ∨
      mounts = c.feedMounts ∧ (c.sent = true → c.cwdSet = true)
  | .abort _ _ => False
  | .restore _ _ mounts => c.pending = {} ∧ mounts = c.feedMounts
  | .resume _ _ | .resumeNameLookup _ _ _ _ | .resumeFutures _ _ | .dump _
  | .installDependencies _ _ => True

variable {cfg : Config} {c c' : Checkout} {env : Env} {req : Request} {e : Error} {control : Bool}

theorem Kept.refl (c : Checkout) : Kept c c := ⟨rfl, rfl, rfl, rfl, rfl⟩

namespace Checkout

theorem turn_preSend (h : turn cfg c env req control = some (.error e, c'))
    (hpre : e.preSend = true) : c' = c ∧ e.kind = .runtime ∧ e.workerLost = false := by
  have hended := ended_turn h
  generalize hr : Except.error e = r at hended
  cases hended with
  | unready hready =>
    cases hr
    rw [(ensureReady_error hready).2.1] at hpre
    cases hpre
  | rejected _ hprepare =>
    cases hr
    obtain ⟨hkind, -, hlost⟩ := prepare_error hprepare
    exact ⟨rfl, hkind, hlost⟩
  | lost hlost =>
    cases hr
    rw [hlost.preSend] at hpre
    cases hpre
  | dispatched =>
    obtain hlost | hsettled := dispatch_error hr.symm
    · rw [hlost.preSend] at hpre
      cases hpre
    · rw [hsettled.preSend] at hpre
      cases hpre

theorem whenReady_preSend {α : Type} {body : Checkout → Answer α}
    (h : c.whenReady body = some (.error e, c')) (hpre : e.preSend = true) :
    body c = some (.error e, c') := by
  unfold whenReady at h
  split at h
  · rename_i hready
    cases h
    rw [(ensureReady_error hready).2.1] at hpre
    cases hpre
  · rename_i hready
    obtain ⟨rfl, -⟩ := eq_of_ensureReady hready
    exact h

theorem controlTurn_preSend {α : Type} {name : String} {want : EventKind} {k : Event → α}
    (h : c.controlTurn cfg env req name want k = some (.error e, c')) (hpre : e.preSend = true) :
    c' = c := by
  unfold controlTurn at h
  split at h
  · cases h
  · rename_i hturn
    cases h
    exact (turn_preSend hturn hpre).1
  · split at h
    · cases h
      cases hpre
    · cases h

theorem feed_preSend {code : GoString} {inputs : List NamedValue} {mounts : Option MountTable}
    {firstMount : GoString} {cwd : Option GoString} {skipTypeCheck : Bool}
    (h : c.feed cfg env code inputs mounts firstMount cwd skipTypeCheck = some (.error e, c'))
    (hpre : e.preSend = true) :
    (∃ message, c.feedDir cfg firstMount cwd = .error message) ∧ c' = c ∨
      (¬∃ message, c.feedDir cfg firstMount cwd = .error message) ∧
        c' = { c with feedMounts := mounts, cwdSet := c.cwdSet || c.sent } := by
  have hbody := whenReady_preSend h hpre
  dsimp only at hbody
  split at hbody
  · cases hbody
    cases hpre
  cases hdir : c.feedDir cfg firstMount cwd with
  | error message =>
    rw [hdir] at hbody
    cases hbody
    exact .inl ⟨⟨message, rfl⟩, rfl⟩
  | ok dir =>
    rw [hdir] at hbody
    unfold feedDone at hbody
    dsimp only at hbody
    split at hbody
    · cases hbody
    · rename_i hturn
      cases hbody
      obtain ⟨rfl, hkind, -⟩ := turn_preSend hturn hpre
      refine .inr ⟨?_, ?_⟩
      · rintro ⟨message, hmessage⟩
        cases hmessage
      · rw [hkind]
        simp
    · cases hbody

theorem abort_preSend {exc : Option RaisedException} (h : c.abort cfg env exc = some (.error e, c'))
    (hpre : e.preSend = true) : c.pending.kind ≠ .none ∧ c'.pending = {} := by
  have hbody := whenReady_preSend h hpre
  dsimp only at hbody
  split at hbody
  · cases hbody
    cases hpre
  rename_i hkind
  refine ⟨hkind, ?_⟩
  split at hbody
  · cases hbody
  · rename_i hturn
    cases hbody
    obtain ⟨rfl, -⟩ := turn_preSend hturn hpre
    rfl
  · cases hbody
    cases hpre

theorem restore_preSend {state : Bytes} {mounts : Option MountTable}
    (h : c.restore cfg env state mounts = some (.error e, c')) (hpre : e.preSend = true) :
    c' = { c with pending := {}, feedMounts := mounts } := by
  have hbody := whenReady_preSend h hpre
  dsimp only at hbody
  split at hbody
  · cases hbody
  · rename_i e₁ c₁ hturn
    split at hbody
    · rename_i hlost
      cases hbody
      rw [(turn_preSend hturn hpre).2.2] at hlost
      cases hlost
    · cases hbody
      obtain ⟨rfl, -⟩ := turn_preSend hturn hpre
      simp [restoreBudget]
  · split at hbody
    · cases hbody
    split at hbody
    · cases hbody
    · cases hbody
      cases hpre

theorem installDependencies_preSend {requirements : List GoString}
    (h : c.installDependencies cfg env requirements = some (.error e, c'))
    (hpre : e.preSend = true) : c' = c := by
  have hbody := whenReady_preSend h hpre
  split at hbody
  · cases hbody
    cases hpre
  split at hbody
  · cases hbody
  split at hbody
  · cases hbody
    rfl
  · exact controlTurn_preSend hbody hpre

theorem resume_preSend {result : ExtResult} (h : c.resume cfg env result = some (.error e, c'))
    (hpre : e.preSend = true) : c' = c := by
  have hbody := whenReady_preSend h hpre
  split at hbody
  · cases hbody
    cases hpre
  split at hbody
  · cases hbody
    cases hpre
  · exact (turn_preSend hbody hpre).1

theorem resumeNameLookup_preSend {kind : LookupKind} {value : Object}
    {error : Option RaisedException}
    (h : c.resumeNameLookup cfg env kind value error = some (.error e, c'))
    (hpre : e.preSend = true) : c' = c := by
  have hbody := whenReady_preSend h hpre
  split at hbody
  · cases hbody
    cases hpre
  · exact (turn_preSend hbody hpre).1

theorem resumeFutures_preSend {results : List FutureResult}
    (h : c.resumeFutures cfg env results = some (.error e, c')) (hpre : e.preSend = true) :
    c' = c := by
  have hbody := whenReady_preSend h hpre
  split at hbody
  · cases hbody
    rfl
  split at hbody
  · cases hbody
    cases hpre
  · exact (turn_preSend hbody hpre).1

end Checkout

open Checkout

/-- **What a call that is rejected before sending leaves.** The suspension, the abort flag, the
mounts, the budget and the directory flag are kept exactly where the call changes nothing before its
request is checked. -/
theorem kept_iff_safe (call : Sending) (hfails : call.Fails cfg c e c') (hpre : e.preSend = true) :
    Kept c c' ↔ call.Safe cfg c := by
  have hsame (hc : c' = c) : Kept c c' ↔ True := ⟨fun _ => trivial, fun _ => hc ▸ .refl c⟩
  cases call with
  | feed env code inputs mounts firstMount cwd skipTypeCheck =>
    obtain ⟨hdir, rfl⟩ | ⟨hdir, rfl⟩ := feed_preSend hfails hpre
    · exact ⟨fun _ => .inl hdir, fun _ => .refl _⟩
    constructor
    · intro hkept
      refine .inr ⟨hkept.feedMounts, fun hsent => ?_⟩
      have hcwd : (c.cwdSet || c.sent) = c.cwdSet := hkept.cwdSet
      rwa [hsent, Bool.or_true, eq_comm] at hcwd
    · rintro (hsafe | ⟨hmounts, hcwd⟩)
      · exact absurd hsafe hdir
      refine ⟨rfl, rfl, hmounts, rfl, ?_⟩
      change (c.cwdSet || c.sent) = c.cwdSet
      cases hsent : c.sent with
      | false => rw [Bool.or_false]
      | true => rw [hcwd hsent, Bool.true_or]
  | abort env exc =>
    obtain ⟨hkind, hpending⟩ := abort_preSend hfails hpre
    refine ⟨fun hkept => hkind ?_, False.elim⟩
    rw [← hkept.pending, hpending]
  | restore env state mounts =>
    obtain rfl := restore_preSend hfails hpre
    exact ⟨fun hkept => ⟨hkept.pending.symm, hkept.feedMounts⟩,
      fun hsafe => ⟨hsafe.1.symm, rfl, hsafe.2, rfl, rfl⟩⟩
  | resume => exact hsame (resume_preSend hfails hpre)
  | resumeNameLookup => exact hsame (resumeNameLookup_preSend hfails hpre)
  | resumeFutures => exact hsame (resumeFutures_preSend hfails hpre)
  | dump => exact hsame (controlTurn_preSend hfails hpre)
  | installDependencies => exact hsame (installDependencies_preSend hfails hpre)

/-- A feed with this table and an input that cannot be sent. -/
def unsendable (mounts : MountTable) : Sending :=
  .feed {} [] [{ name := [], value := .other [] }] (some mounts) [] none false

/-- A checkout that such a feed left behind. -/
def fedBefore : Checkout := { unspent with feedMounts := some ⟨1⟩, cwdSet := true }

/-- The feed is rejected once more.  With the table of the first one nothing changes; with another
one the checkout has that. -/
theorem kept_iff_safe_unsendable : ∃ e c', e.preSend = true ∧
    (unsendable ⟨1⟩).Fails remoteConfig fedBefore e fedBefore ∧ Kept fedBefore fedBefore ∧
      (unsendable ⟨2⟩).Fails remoteConfig fedBefore e c' ∧ ¬Kept fedBefore c' := by
  obtain ⟨e, c', hpre, hsame, hother⟩ : ∃ (e : Error) (c' : Checkout), e.preSend = true ∧
      (unsendable ⟨1⟩).Fails remoteConfig fedBefore e fedBefore ∧
      (unsendable ⟨2⟩).Fails remoteConfig fedBefore e c' := ⟨_, _, rfl, rfl, rfl⟩
  refine ⟨e, c', hpre, hsame, (kept_iff_safe _ hsame hpre).mpr (.inr ⟨rfl, fun _ => rfl⟩), hother,
    fun hkept => ?_⟩
  obtain ⟨message, hdir⟩ | ⟨hmounts, -⟩ := (kept_iff_safe _ hother hpre).mp hkept
  · cases hdir
  · cases hmounts

/-- A feed whose input cannot be sent leaves its mounts and the directory flag behind. -/
theorem feed_rejected_changes : ∃ e c',
    (unsendable ⟨1⟩).Fails remoteConfig unspent e c' ∧
      e.preSend = true ∧ c'.feedMounts ≠ unspent.feedMounts ∧ c'.cwdSet ≠ unspent.cwdSet ∧
      ¬Kept unspent c' :=
  ⟨_, _, rfl, rfl, by decide, by decide, fun hkept => by cases hkept.feedMounts⟩

end Montygo.TurnEngine
