import Montygo.Lib.Transition
import Mathlib.Data.List.Nodup

/-!
# The futures of a feed

A host function may return a future.  Its call is registered and the worker goes on; when it reports
that it waits on some of the registered calls, the driver waits until one of them is settled and
answers those that are.  A stop that the sandbox may catch is delivered by the next answer, whatever
that was to be: also by the one that was to announce a future that was just registered.  That call
is then answered, and still registered (`answered_twice`).

The driver is one goroutine.  It takes its sections in turn; stops, the end of the session and the
futures may come between any two of them.  A call has a number of its own beside the id that the
worker gave it, since nothing keeps a worker from giving an id twice.
-/

namespace Montygo.TurnEngine.Futures

open Transition

/-- A call of a host function: the id from the worker, and which call of the feed it is. -/
structure Call where
  id : ℕ
  number : ℕ
  deriving DecidableEq

/-- What the driver is about to send. -/
inductive Answer where
  /-- The value or the exception of a call, or of anything else that the worker asked. -/
  | plain
  /-- The call is a future: the answer that follows its registration. -/
  | future (call : Call)
  /-- `resumeFutures`, for the calls that the worker reported. -/
  | futures (reported results : List Call)
  /-- `resumeFutures` of a call whose future was awaited at once. -/
  | eager (call : Call)
  deriving DecidableEq

/-- Where the driver stands. -/
inductive Place where
  /-- The worker has the turn. -/
  | running
  /-- Before `callHost` of a function call. -/
  | calling (call : Call) (eager : Bool)
  /-- `callHost` waits for the future of an eager call. -/
  | awaiting (call : Call)
  /-- `registerFuture`. -/
  | registering (call : Call)
  /-- The `select` of `answerResolveFutures`, under the context of this generation. -/
  | waiting (reported : List Call) (context : ℕ)
  /-- The loop of `answerResolveFutures` that collects what is settled. -/
  | collecting (reported rest results : List Call)
  /-- Before `beforeResume`. -/
  | resuming (answer : Answer)
  /-- After `beforeResume`, which found that a stop is to be delivered, or not. -/
  | sending (answer : Answer) (deliver : Bool)
  /-- The feed is over, but for `finishExecution`. -/
  | ended
  | finished
  deriving DecidableEq

/-- What was sent to the worker. -/
inductive Sent where
  | resume
  /-- A call was answered with the reason of a stop. -/
  | error (call : Call)
  | resumeFutures (reported results : List Call)
  | eager (call : Call)
  deriving DecidableEq

/-- An execution, with the futures that are settled and what was sent. -/
structure Execution where
  pending : List Call := []
  place : Place := .running
  /-- `executionErrorLocked` has an error: the session is terminal. -/
  terminal : Bool := false
  /-- A stop entered its request phase; whether the sandbox may catch it. -/
  requested : Option Bool := none
  delivered : Bool := false
  /-- The generation of the callback context, those to be cancelled and those that are. -/
  context : ℕ := 0
  cancelling : List ℕ := []
  cancelled : List ℕ := []
  settled : List Call := []
  calls : ℕ := 0
  registered : List Call := []
  sent : List Sent := []

/-- What the worker asks. -/
inductive Event where
  | call (id : ℕ) (eager : Bool)
  | resolveFutures (ids : List ℕ)
  | other
  | complete

/-- What a host function returns. -/
inductive Returned where
  | future
  | other

inductive Act where
  | receive (event : Event)
  /-- The host function returns. -/
  | returns (returned : Returned)
  /-- The driver's next section. -/
  | next
  | requestStop (catchable : Bool)
  | cancel (context : ℕ)
  | settle (call : Call)
  | terminate

namespace Execution

variable (limit : Option ℕ)

/-- The checks of `stopAtBoundary`: the driver may go on. -/
def mayGoOn (e : Execution) : Bool := !e.terminal && e.requested != some false

/-- Goes to a place, or ends. -/
def goOn (e : Execution) (place : Place) : Execution :=
  { e with place := if e.mayGoOn then place else .ended }

/-- The calls that the reported ids are registered for, if they are all known and no two are the
same. -/
def lookup (e : Execution) : List ℕ → Option (List Call)
  | [] => some []
  | id :: ids =>
    match e.pending.find? (·.id = id), e.lookup ids with
    | some call, some calls => if id ∈ calls.map Call.id then none else some (call :: calls)
    | _, _ => none

/-- `answer`. -/
def receive (e : Execution) : Event → Execution
  | .complete => { e with place := .ended }
  | .other => e.goOn (.resuming .plain)
  | .call id eager => { e with calls := e.calls + 1 }.goOn (.calling ⟨id, e.calls⟩ eager)
  | .resolveFutures ids =>
    match ids, e.lookup ids with
    | _ :: _, some calls => e.goOn (.waiting calls e.context)
    | _, _ => { e with place := .ended }

/-- `addFuture`. -/
def register (e : Execution) (call : Call) : Execution :=
  if e.terminal then e.goOn (.resuming .plain)
  else if call.id ∈ e.pending.map Call.id then { e with place := .ended }
  else if limit.any (· ≤ e.pending.length) then { e with place := .resuming .plain }
  else { e with
    pending := call :: e.pending
    registered := call :: e.registered
    place := .resuming (.future call) }

/-- `delete`, of the ids of some calls. -/
def delete (e : Execution) (calls : List Call) : Execution :=
  { e with pending := e.pending.filter fun p => p.id ∉ calls.map Call.id }

/-- `deliverStop`. -/
def deliverStop (e : Execution) : Execution :=
  { e with delivered := true, context := e.context + 1 }

/-- Sends a message; the worker has the turn. -/
def send (e : Execution) (sent : Sent) : Execution :=
  { e with sent := sent :: e.sent, place := .running }

/-- The answer, or the reason of the stop in its place. -/
def answer (e : Execution) : Answer → Bool → Execution
  | .plain, false => e.send .resume
  | .plain, true => e.deliverStop.send .resume
  | .future _, false => e.send .resume
  | .future call, true => e.deliverStop.send (.error call)
  | .futures reported results, false =>
    (e.delete results).send (.resumeFutures reported results)
  | .futures reported _, true =>
    (e.deliverStop.delete reported).send (.resumeFutures reported reported)
  | .eager call, false => (e.delete [call]).send (.eager call)
  | .eager call, true => (e.deliverStop.delete [call]).send (.eager call)

/-- The driver's next section. -/
def next (e : Execution) : Option Execution :=
  match e.place with
  | .registering call => some (e.register limit call)
  | .awaiting call =>
    if call ∈ e.settled ∨ e.context ∈ e.cancelled then some (e.goOn (.resuming (.eager call)))
    else none
  | .waiting reported context =>
    if (∃ call ∈ reported, call ∈ e.settled) ∨ context ∈ e.cancelled then
      some (e.goOn (.collecting reported reported []))
    else none
  | .collecting reported [] results => some { e with place := .resuming (.futures reported results) }
  | .collecting reported (call :: rest) results =>
    if call ∈ e.settled then
      some { e.delete [call] with place := .collecting reported rest (results ++ [call]) }
    else some { e with place := .collecting reported rest results }
  | .resuming a => some (e.goOn (.sending a (e.requested.isSome && !e.delivered)))
  | .sending a deliver => some (e.answer a deliver)
  | .ended => some { e with pending := [], terminal := true, place := .finished }
  | _ => none

/-- One step of the driver, or something that comes between two of them. -/
def step (e : Execution) : Act → Except Unit Execution
  | .receive event =>
    match e.place with
    | .running => .ok (if e.terminal then { e with place := .ended } else e.receive event)
    | _ => .error ()
  | .returns returned =>
    match e.place, returned with
    | .calling call true, .future => .ok (e.goOn (.awaiting call))
    | .calling call false, .future => .ok (e.goOn (.registering call))
    | .calling _ _, .other => .ok (e.goOn (.resuming .plain))
    | _, _ => .error ()
  | .next =>
    match e.next limit with
    | some e => .ok e
    | none => .error ()
  | .requestStop catchable =>
    match e.requested with
    | none => .ok { e with requested := some catchable, cancelling := e.context :: e.cancelling }
    | some _ => .error ()
  | .cancel context =>
    if context ∈ e.cancelling then .ok { e with cancelled := context :: e.cancelled }
    else .error ()
  | .settle call => .ok { e with settled := call :: e.settled }
  | .terminate =>
    .ok { e with terminal := true, pending := [], cancelling := e.context :: e.cancelling }

end Execution

/-! ## What holds at any time -/

/-- The calls that a message answers. -/
def Sent.answers : Sent → List Call
  | .resume => []
  | .error call | .eager call => [call]
  | .resumeFutures _ results => results

def Execution.answers (e : Execution) : List Call := e.sent.flatMap Sent.answers

/-- The calls that the driver has in hand. -/
def Place.held : Place → List Call
  | .calling call _ | .awaiting call | .registering call => [call]
  | .waiting reported _ | .collecting reported _ _ => reported
  | .resuming (.futures reported _) | .sending (.futures reported _) _ => reported
  | .resuming (.eager call) | .sending (.eager call) _ => [call]
  | _ => []

attribute [local simp] Place.held

/-- The session is over, or a stop is to be delivered. -/
def Execution.Stopping (e : Execution) : Prop :=
  e.terminal = true ∨ e.requested.isSome ∧ e.delivered = false

/-- The reported calls, of which no two have the same id, and some of them. -/
structure Reported (reported results : List Call) : Prop where
  some : reported ≠ []
  distinct : (reported.map Call.id).Nodup
  results : results.Sublist reported

/-- What the driver knows of the answer it sends. -/
def Answer.Ready (deliver : Bool) : Answer → Prop
  | .futures reported results => Reported reported results ∧ (results = [] → deliver = true)
  | .future _ => deliver = false
  | _ => True

/-- What the driver knows at a place.  If nothing is settled, a stop is to be delivered. -/
def Place.Known (e : Execution) : Place → Prop
  | .waiting reported context => Reported reported [] ∧ context = e.context
  | .collecting reported rest results => Reported reported (results ++ rest) ∧
      (results = [] → (∃ call ∈ rest, call ∈ e.settled) ∨ e.Stopping)
  | .resuming (.futures reported results) => Reported reported results ∧
      (results = [] → e.Stopping)
  | .sending answer deliver => (deliver = true → e.requested.isSome) ∧ answer.Ready deliver
  | .finished => e.terminal = true
  | _ => True

/-- A message about futures answers some of the reported calls, and each once. -/
def Sent.Good : Sent → Prop
  | .resumeFutures reported results => results ≠ [] ∧ (results.map Call.id).Nodup ∧
      results ⊆ reported
  | _ => True

/-- The invariant of the registered calls and of the answers. -/
structure Execution.Sound (limit : Option ℕ) (e : Execution) : Prop where
  bounded : ∀ n ∈ limit, e.pending.length ≤ n
  distinct : (e.pending.map Call.id).Nodup
  cleared : e.terminal = true → e.pending = []
  fresh : ∀ c ∈ e.pending ++ e.place.held, c ∉ e.answers
  numbered : ∀ c ∈ e.pending ++ e.place.held ++ e.answers, c.number < e.calls
  once : e.answers.Nodup
  known : e.place.Known e
  current : ∀ c ∈ e.cancelling, c ≤ e.context ∧ (c = e.context → e.Stopping)
  asked : e.cancelled ⊆ e.cancelling ∧ (e.delivered = true → e.requested.isSome)
  sent : ∀ m ∈ e.sent, m.Good

/-- No stop waits to be delivered when the driver is about to announce a future. -/
def Announced (e : Execution) (a : Act) : Prop :=
  ∀ call, a = .next → e.place = .resuming (.future call) → e.requested = none ∨ e.delivered = true

namespace Execution

variable {limit : Option ℕ} {e e' : Execution} {p : Place}

/-! ## Between the driver's sections -/

/-- A change beside the driver: it may clear the registered calls, settle futures and bring on a
stop. -/
structure Beside (e e' : Execution) : Prop where
  place : e'.place = e.place
  sent : e'.sent = e.sent
  calls : e'.calls = e.calls
  context : e'.context = e.context
  pending : e'.pending = e.pending ∧ e'.terminal = e.terminal ∨ e'.pending = [] ∧ e'.terminal = true
  settled : e.settled ⊆ e'.settled
  requested : e.requested.isSome → e'.requested.isSome
  stopping : e.Stopping → e'.Stopping

theorem Beside.known (h : Beside e e') (hknown : p.Known e) : p.Known e' := by
  have hover : e.terminal = true → e'.terminal = true := by
    rcases h.pending with ⟨-, hover⟩ | ⟨-, hover⟩
    · exact fun he => hover.trans he
    · exact fun _ => hover
  cases p with
  | waiting reported context => exact ⟨hknown.1, hknown.2.trans h.context.symm⟩
  | collecting reported rest results =>
    refine ⟨hknown.1, fun hempty => ?_⟩
    rcases hknown.2 hempty with ⟨call, hmem, hsettled⟩ | hstopping
    · exact .inl ⟨call, hmem, h.settled hsettled⟩
    · exact .inr (h.stopping hstopping)
  | resuming answer =>
    cases answer with
    | futures reported results => exact ⟨hknown.1, fun hempty => h.stopping (hknown.2 hempty)⟩
    | _ => trivial
  | sending answer deliver => exact ⟨fun hdeliver => h.requested (hknown.1 hdeliver), hknown.2⟩
  | finished => exact hover hknown
  | _ => trivial

section

variable (hs : e.Sound limit)
include hs

theorem Sound.beside (h : Beside e e')
    (hcurrent : ∀ c ∈ e'.cancelling, c ≤ e'.context ∧ (c = e'.context → e'.Stopping))
    (hasked : e'.cancelled ⊆ e'.cancelling ∧ (e'.delivered = true → e'.requested.isSome)) :
    e'.Sound limit := by
  have hanswers : e'.answers = e.answers := congrArg (List.flatMap Sent.answers) h.sent
  -- Nothing registers a call beside the driver; the end of the session drops them all.
  have hpending : e'.pending ⊆ e.pending := by
    rcases h.pending with ⟨hp, -⟩ | ⟨hp, -⟩
    · rw [hp]
      exact List.Subset.refl _
    · rw [hp]
      exact List.nil_subset _
  have hmem : ∀ c ∈ e'.pending ++ e'.place.held, c ∈ e.pending ++ e.place.held := by
    intro c hc
    rw [h.place] at hc
    rcases List.mem_append.mp hc with hc | hc
    · exact List.mem_append_left _ (hpending hc)
    · exact List.mem_append_right _ hc
  refine ⟨fun n hn => ?_, ?_, fun hover => ?_, fun c hc => ?_, fun c hc => ?_, ?_, ?_, hcurrent, hasked,
    ?_⟩
  · rcases h.pending with ⟨hp, -⟩ | ⟨hp, -⟩ <;> rw [hp]
    · exact hs.bounded n hn
    · exact Nat.zero_le n
  · rcases h.pending with ⟨hp, -⟩ | ⟨hp, -⟩ <;> rw [hp]
    · exact hs.distinct
    · exact .nil
  · rcases h.pending with ⟨hp, ho⟩ | ⟨hp, -⟩
    · rw [hp]
      exact hs.cleared (ho ▸ hover)
    · exact hp
  · rw [hanswers]
    exact hs.fresh c (hmem c hc)
  · rw [h.calls]
    rcases List.mem_append.mp hc with hc | hc
    · exact hs.numbered c (List.mem_append_left _ (hmem c hc))
    · exact hs.numbered c (List.mem_append_right _ (hanswers ▸ hc))
  · rw [hanswers]
    exact hs.once
  · rw [h.place]
    exact h.known hs.known
  · rw [h.sent]
    exact hs.sent

theorem Sound.requestStop {catchable : Bool} (hnone : e.requested = none) :
    Sound limit { e with requested := some catchable, cancelling := e.context :: e.cancelling } := by
  have hfirst : e.delivered = false := by
    rw [Bool.eq_false_iff]
    intro hdelivered
    have hsome := hs.asked.2 hdelivered
    rw [hnone] at hsome
    cases hsome
  refine hs.beside ⟨rfl, rfl, rfl, rfl, .inl ⟨rfl, rfl⟩, List.Subset.refl _, fun _ => rfl,
    fun _ => .inr ⟨rfl, hfirst⟩⟩ (fun c hc => ⟨?_, fun _ => .inr ⟨rfl, hfirst⟩⟩)
    ⟨fun c hc => List.mem_cons_of_mem _ (hs.asked.1 hc), fun _ => rfl⟩
  rcases List.mem_cons.mp hc with rfl | hc
  · exact Nat.le_refl _
  · exact (hs.current c hc).1

theorem Sound.terminate :
    Sound limit { e with terminal := true, pending := [], cancelling := e.context :: e.cancelling } := by
  refine hs.beside ⟨rfl, rfl, rfl, rfl, .inr ⟨rfl, rfl⟩, List.Subset.refl _, fun h => h,
    fun _ => .inl rfl⟩ (fun c hc => ⟨?_, fun _ => .inl rfl⟩)
    ⟨fun c hc => List.mem_cons_of_mem _ (hs.asked.1 hc), hs.asked.2⟩
  rcases List.mem_cons.mp hc with rfl | hc
  · exact Nat.le_refl _
  · exact (hs.current c hc).1

/-! ## The driver's sections -/

theorem Sound.move (p : Place) (hheld : ∀ c ∈ p.held, c ∉ e.answers ∧ c.number < e.calls)
    (hknown : p.Known e) : Sound limit { e with place := p } := by
  refine ⟨hs.bounded, hs.distinct, hs.cleared, fun c hc => ?_, fun c hc => ?_, hs.once, hknown,
    hs.current, hs.asked, hs.sent⟩
  · rcases List.mem_append.mp hc with hc | hc
    · exact hs.fresh c (List.mem_append_left _ hc)
    · exact (hheld c hc).1
  · rcases List.mem_append.mp hc with hc | hc
    · rcases List.mem_append.mp hc with hc | hc
      · exact hs.numbered c (List.mem_append_left _ (List.mem_append_left _ hc))
      · exact (hheld c hc).2
    · exact hs.numbered c (List.mem_append_right _ hc)

theorem Sound.held {c : Call} (hc : c ∈ e.pending ++ e.place.held) :
    c ∉ e.answers ∧ c.number < e.calls :=
  ⟨hs.fresh c hc, hs.numbered c (List.mem_append_left _ hc)⟩

theorem Sound.at_place (hplace : e.place = p) :
    p.Known e ∧ ∀ c ∈ p.held, c ∉ e.answers ∧ c.number < e.calls := by
  subst hplace
  exact ⟨hs.known, fun c hc => hs.held (List.mem_append_right _ hc)⟩

theorem Sound.goOn (p : Place) (hheld : ∀ c ∈ p.held, c ∉ e.answers ∧ c.number < e.calls)
    (hknown : e.mayGoOn = true → p.Known e) : (e.goOn p).Sound limit := by
  unfold Execution.goOn
  cases hmay : e.mayGoOn with
  | true => exact hs.move p hheld (hknown hmay)
  | false => exact hs.move .ended (by simp) trivial

theorem Sound.delete (calls : List Call) : (e.delete calls).Sound limit := by
  have hsub : (e.delete calls).pending.Sublist e.pending := List.filter_sublist
  refine ⟨fun n hn => Nat.le_trans hsub.length_le (hs.bounded n hn), hs.distinct.sublist (hsub.map _),
    fun hover => ?_, fun c hc => hs.fresh c ?_, fun c hc => hs.numbered c ?_, hs.once, hs.known,
    hs.current, hs.asked, hs.sent⟩
  · have hempty : e.pending = [] := hs.cleared hover
    exact List.eq_nil_of_length_eq_zero (Nat.le_zero.mp (by simpa [hempty] using hsub.length_le))
  · exact (hsub.append_right _).subset hc
  · exact ((hsub.append_right _).append_right _).subset hc

theorem Sound.send {m : Sent} (hgood : m.Good) (hnodup : m.answers.Nodup)
    (hnew : ∀ c ∈ m.answers, (c ∉ e.answers ∧ c.number < e.calls) ∧ c ∉ e.pending) :
    (e.send m).Sound limit := by
  have hanswers : (e.send m).answers = m.answers ++ e.answers := rfl
  refine ⟨hs.bounded, hs.distinct, hs.cleared, fun c hc => ?_, fun c hc => ?_, ?_, trivial,
    hs.current, hs.asked, fun m' hm' => ?_⟩
  · have hc : c ∈ e.pending := by simpa [Execution.send] using hc
    rw [hanswers]
    intro hmem
    rcases List.mem_append.mp hmem with hmem | hmem
    · exact (hnew c hmem).2 hc
    · exact hs.fresh c (List.mem_append_left _ hc) hmem
  · rcases List.mem_append.mp hc with hc | hc
    · have hc : c ∈ e.pending := by simpa [Execution.send] using hc
      exact hs.numbered c (List.mem_append_left _ (List.mem_append_left _ hc))
    · rw [hanswers] at hc
      rcases List.mem_append.mp hc with hc | hc
      · exact (hnew c hc).1.2
      · exact hs.numbered c (List.mem_append_right _ hc)
  · rw [hanswers]
    exact List.nodup_append.mpr ⟨hnodup, hs.once, fun a ha b hb hab => (hnew a ha).1.1 (hab ▸ hb)⟩
  · rcases List.mem_cons.mp hm' with rfl | hm'
    · exact hgood
    · exact hs.sent m' hm'

theorem Sound.deliverStop {answer : Answer} {deliver : Bool}
    (hplace : e.place = .sending answer deliver) (hsome : e.requested.isSome) :
    e.deliverStop.Sound limit := by
  obtain ⟨hknown, -⟩ := hs.at_place hplace
  refine ⟨hs.bounded, hs.distinct, hs.cleared, hs.fresh, hs.numbered, hs.once, ?_, fun c hc => ?_,
    ⟨hs.asked.1, fun _ => hsome⟩, hs.sent⟩
  · show Place.Known e.deliverStop e.place
    rw [hplace]
    exact hknown
  · have hle := (hs.current c hc).1
    refine ⟨Nat.le_succ_of_le hle, fun heq => ?_⟩
    have heq : c = e.context + 1 := heq
    omega

end

theorem not_mem_delete {calls : List Call} {c : Call} (hc : c ∈ calls) :
    c ∉ (e.delete calls).pending := by
  intro hmem
  have hid := (List.mem_filter.mp hmem).2
  simp only [decide_eq_true_eq] at hid
  exact hid (List.mem_map_of_mem hc)

variable {reported results : List Call} {call : Call}

theorem Sound.sendFutures (hs : e.Sound limit) (hreported : Reported reported results)
    (hsome : results ≠ []) (hheld : ∀ c ∈ reported, c ∉ e.answers ∧ c.number < e.calls) :
    ((e.delete results).send (.resumeFutures reported results)).Sound limit := by
  have hids : (results.map Call.id).Nodup := hreported.distinct.sublist (hreported.results.map _)
  refine (hs.delete results).send ⟨hsome, hids, hreported.results.subset⟩ (.of_map _ hids) ?_
  exact fun c hc => ⟨hheld c (hreported.results.subset hc), not_mem_delete hc⟩

theorem Sound.sendEager (hs : e.Sound limit) (hheld : call ∉ e.answers ∧ call.number < e.calls) :
    ((e.delete [call]).send (.eager call)).Sound limit := by
  refine (hs.delete [call]).send trivial (List.nodup_singleton call) fun c hc => ?_
  rw [List.mem_singleton.mp hc]
  exact ⟨hheld, not_mem_delete (List.mem_singleton_self call)⟩

theorem Sound.answer (hs : e.Sound limit) {answer : Answer} {deliver : Bool}
    (hplace : e.place = .sending answer deliver) : (e.answer answer deliver).Sound limit := by
  obtain ⟨⟨hrequested, hready⟩, hheld⟩ := hs.at_place hplace
  have hresume : ∀ {e : Execution}, e.Sound limit → (e.send .resume).Sound limit :=
    fun hs => hs.send trivial .nil (by simp [Sent.answers])
  cases deliver with
  | false =>
    cases answer with
    | plain | future call => exact hresume hs
    | futures reported results =>
      refine hs.sendFutures hready.1 (fun hempty => ?_) hheld
      cases hready.2 hempty
    | eager call => exact hs.sendEager (hheld call (List.mem_singleton_self call))
  | true =>
    -- The stop goes out in the place of the answer; a future is never in this place.
    have hdelivered : e.deliverStop.Sound limit := hs.deliverStop hplace (hrequested rfl)
    cases answer with
    | plain => exact hresume hdelivered
    | future call => cases hready
    | futures reported results =>
      exact hdelivered.sendFutures ⟨hready.1.some, hready.1.distinct, List.Sublist.refl _⟩
        hready.1.some hheld
    | eager call => exact hdelivered.sendEager (hheld call (List.mem_singleton_self call))

theorem Sound.register (hs : e.Sound limit) (hplace : e.place = .registering call) :
    (e.register limit call).Sound limit := by
  have hcall : call ∉ e.answers ∧ call.number < e.calls := (hs.at_place hplace).2 call (by simp)
  unfold Execution.register
  split
  · exact hs.goOn _ (by simp) fun _ => trivial
  rename_i hover
  split
  · exact hs.move _ (by simp) trivial
  rename_i hid
  split
  · exact hs.move _ (by simp) trivial
  rename_i hroom
  refine ⟨fun n hn => ?_, List.nodup_cons.mpr ⟨hid, hs.distinct⟩, fun h => absurd h hover,
    fun c hc => ?_, fun c hc => ?_, hs.once, trivial, hs.current, hs.asked, hs.sent⟩
  · rw [Option.mem_def.mp hn] at hroom
    have hroom : ¬n ≤ e.pending.length := by simpa using hroom
    exact Nat.succ_le_of_lt (Nat.lt_of_not_le hroom)
  · rcases List.mem_cons.mp (by simpa using hc) with rfl | hc
    · exact hcall.1
    · exact hs.fresh c (List.mem_append_left _ hc)
  · rcases List.mem_append.mp hc with hc | hc
    · rcases List.mem_cons.mp (by simpa using hc) with rfl | hc
      · exact hcall.2
      · exact hs.numbered c (List.mem_append_left _ (List.mem_append_left _ hc))
    · exact hs.numbered c (List.mem_append_right _ hc)

theorem lookup_reported {ids : List ℕ} {calls : List Call} (h : e.lookup ids = some calls) :
    calls ⊆ e.pending ∧ (calls.map Call.id).Nodup ∧ calls.length = ids.length := by
  induction ids generalizing calls with
  | nil =>
    cases h
    exact ⟨List.nil_subset _, .nil, rfl⟩
  | cons id ids ih =>
    unfold Execution.lookup at h
    split at h
    · rename_i call rest hfind hrest
      obtain ⟨hsub, hnodup, hlength⟩ := ih hrest
      have hid : call.id = id := by simpa using List.find?_some hfind
      split at h
      · cases h
      rename_i hnew
      cases h
      refine ⟨List.cons_subset.mpr ⟨List.mem_of_find?_eq_some hfind, hsub⟩, ?_, by simp [hlength]⟩
      rw [List.map_cons, hid]
      exact List.nodup_cons.mpr ⟨hnew, hnodup⟩
    · cases h

section

variable (hs : e.Sound limit)
include hs

theorem Sound.receive (event : Event) : (e.receive event).Sound limit := by
  cases event with
  | complete => exact hs.move _ (by simp) trivial
  | other => exact hs.goOn _ (by simp) fun _ => trivial
  | call id eager =>
    have hmore : Sound limit { e with calls := e.calls + 1 } :=
      ⟨hs.bounded, hs.distinct, hs.cleared, hs.fresh,
        fun c hc => Nat.lt_succ_of_lt (hs.numbered c hc), hs.once, hs.known, hs.current, hs.asked,
        hs.sent⟩
    refine hmore.goOn _ (fun c hc => ?_) fun _ => trivial
    rw [List.mem_singleton.mp hc]
    refine ⟨fun hmem => ?_, Nat.lt_succ_self _⟩
    exact absurd (hs.numbered _ (List.mem_append_right _ hmem)) (Nat.lt_irrefl _)
  | resolveFutures ids =>
    show (match ids, e.lookup ids with
      | _ :: _, some calls => e.goOn (.waiting calls e.context)
      | _, _ => { e with place := .ended }).Sound limit
    split
    · rename_i id ids calls hlookup
      obtain ⟨hsub, hnodup, hlength⟩ := lookup_reported hlookup
      refine hs.goOn _ (fun c hc => hs.held (List.mem_append_left _ (hsub hc))) fun _ => ?_
      refine ⟨⟨?_, hnodup, List.nil_sublist _⟩, rfl⟩
      rintro rfl
      cases hlength
    · exact hs.move _ (by simp) trivial

/-- The wait ends with a settled call, or with a cancelled context, and that only for a stop. -/
theorem Sound.wait {context : ℕ} (hplace : e.place = .waiting reported context)
    (hready : (∃ call ∈ reported, call ∈ e.settled) ∨ context ∈ e.cancelled) :
    (e.goOn (.collecting reported reported [])).Sound limit := by
  obtain ⟨⟨hreported, rfl⟩, hheld⟩ := hs.at_place hplace
  refine hs.goOn _ hheld fun _ =>
    ⟨⟨hreported.some, hreported.distinct, List.Sublist.refl _⟩, fun _ => ?_⟩
  rcases hready with hready | hcancelled
  · exact .inl hready
  · exact .inr ((hs.current _ (hs.asked.1 hcancelled)).2 rfl)

theorem Sound.collect {rest : List Call}
    (hplace : e.place = .collecting reported (call :: rest) results) : Sound limit
      { e.delete [call] with place := .collecting reported rest (results ++ [call]) } := by
  obtain ⟨hknown, hheld⟩ := hs.at_place hplace
  refine (hs.delete [call]).move _ hheld ⟨?_, fun hempty => ?_⟩
  · rw [List.append_assoc, List.singleton_append]
    exact hknown.1
  · simp at hempty

theorem Sound.passOver {rest : List Call}
    (hplace : e.place = .collecting reported (call :: rest) results) (hsettled : call ∉ e.settled) :
    Sound limit { e with place := .collecting reported rest results } := by
  obtain ⟨hknown, hheld⟩ := hs.at_place hplace
  refine hs.move _ hheld ⟨⟨hknown.1.some, hknown.1.distinct, ?_⟩, fun hempty => ?_⟩
  · exact ((List.sublist_cons_self call rest).append_left results).trans hknown.1.results
  rcases hknown.2 hempty with ⟨other, hmem, hother⟩ | hstopping
  · rcases List.mem_cons.mp hmem with rfl | hmem
    · exact absurd hother hsettled
    · exact .inl ⟨other, hmem, hother⟩
  · exact .inr hstopping

/-- `beforeResume` decides whether a stop is delivered. -/
theorem Sound.resume (hannounced : Announced e .next) {answer : Answer}
    (hplace : e.place = .resuming answer) :
    (e.goOn (.sending answer (e.requested.isSome && !e.delivered))).Sound limit := by
  obtain ⟨hknown, hheld⟩ := hs.at_place hplace
  refine hs.goOn _ (fun c hc => hheld c ?_) fun hmay => ⟨fun hdeliver => ?_, ?_⟩
  · cases answer <;> exact hc
  · exact (Bool.and_eq_true_iff.mp hdeliver).1
  cases answer with
  | plain | eager call => trivial
  | future call =>
    rcases hannounced call rfl hplace with hnone | hdelivered
    · simp [Answer.Ready, hnone]
    · simp [Answer.Ready, hdelivered]
  | futures reported results =>
    refine ⟨hknown.1, fun hempty => ?_⟩
    rcases hknown.2 hempty with hover | ⟨hrequested, hdelivered⟩
    · simp [Execution.mayGoOn, hover] at hmay
    · simp [hrequested, hdelivered]

theorem Sound.next (hannounced : Announced e .next) (h : e.next limit = some e') :
    e'.Sound limit := by
  unfold Execution.next at h
  split at h
  · rename_i call hplace
    cases h
    exact hs.register hplace
  -- an eager call, which is never registered
  · rename_i call hplace
    split at h
    · cases h
      exact hs.goOn _ (hs.at_place hplace).2 fun _ => trivial
    · cases h
  · rename_i reported context hplace
    split at h
    · rename_i hready
      cases h
      exact hs.wait hplace hready
    · cases h
  -- the loop is over, and found nothing only if there is a stop
  · rename_i reported results hplace
    obtain ⟨hknown, hheld⟩ := hs.at_place hplace
    cases h
    refine hs.move _ hheld ⟨by simpa using hknown.1, fun hempty => ?_⟩
    rcases hknown.2 hempty with ⟨call, hmem, -⟩ | hstopping
    · cases hmem
    · exact hstopping
  · rename_i reported call rest results hplace
    split at h
    · cases h
      exact hs.collect hplace
    · rename_i hsettled
      cases h
      exact hs.passOver hplace hsettled
  · rename_i answer hplace
    cases h
    exact hs.resume hannounced hplace
  · rename_i answer deliver hplace
    cases h
    exact hs.answer hplace
  -- `finishExecution` drops what is still registered
  · cases h
    refine ⟨fun n _ => Nat.zero_le n, .nil, fun _ => rfl, by simp, fun c hc => ?_,
      hs.once, rfl, fun c hc => ⟨(hs.current c hc).1, fun _ => .inl rfl⟩, hs.asked, hs.sent⟩
    exact hs.numbered c (List.mem_append_right _ hc)
  · cases h

theorem Sound.step {a : Act} (hannounced : Announced e a) (hstep : e.step limit a = .ok e') :
    e'.Sound limit := by
  unfold Execution.step at hstep
  cases a with
  | receive event =>
    dsimp only at hstep
    split at hstep
    · cases hstep
      split
      · exact hs.move _ (by simp) trivial
      · exact hs.receive event
    · cases hstep
  | returns returned =>
    dsimp only at hstep
    split at hstep
    · rename_i hplace
      cases hstep
      exact hs.goOn _ (hs.at_place hplace).2 fun _ => trivial
    · rename_i hplace
      cases hstep
      exact hs.goOn _ (hs.at_place hplace).2 fun _ => trivial
    · cases hstep
      exact hs.goOn _ (by simp) fun _ => trivial
    · cases hstep
  | next =>
    dsimp only at hstep
    split at hstep
    · rename_i hnext
      cases hstep
      exact hs.next hannounced hnext
    · cases hstep
  | requestStop catchable =>
    dsimp only at hstep
    split at hstep
    · rename_i hnone
      cases hstep
      exact hs.requestStop hnone
    · cases hstep
  | cancel context =>
    dsimp only at hstep
    split at hstep
    · rename_i hmem
      cases hstep
      exact hs.beside ⟨rfl, rfl, rfl, rfl, .inl ⟨rfl, rfl⟩, List.Subset.refl _, fun h => h,
        fun h => h⟩ hs.current ⟨List.cons_subset.mpr ⟨hmem, hs.asked.1⟩, hs.asked.2⟩
    · cases hstep
  | settle call =>
    cases hstep
    exact hs.beside ⟨rfl, rfl, rfl, rfl, .inl ⟨rfl, rfl⟩, List.subset_cons_self _ _, fun h => h,
      fun h => h⟩ hs.current hs.asked
  | terminate =>
    cases hstep
    exact hs.terminate

end

end Execution

open Execution

/-- **Futures are answered once.** In every run in which no stop waits to be delivered when a future
is announced: the registered calls are within the limit and have distinct ids, every call is
answered at most once, a message about futures answers some of the reported calls and each once, and
nothing is registered once the execution is finished. -/
theorem futures_answered_once (limit : Option ℕ) {e : Execution}
    (hreach : Reachable (Execution.step limit) (· = {}) Announced e) :
    (∀ n ∈ limit, e.pending.length ≤ n) ∧ (e.pending.map Call.id).Nodup ∧ e.answers.Nodup ∧
      (∀ reported results, .resumeFutures reported results ∈ e.sent →
        results ≠ [] ∧ (results.map Call.id).Nodup ∧ results ⊆ reported) ∧
      (e.place = .finished → e.pending = []) := by
  have hs : e.Sound limit := by
    refine hreach.invariant (fun e he => ?_) fun _ _ _ hs hannounced hstep => hs.step hannounced hstep
    subst he
    refine ⟨fun n _ => Nat.zero_le n, .nil, fun _ => rfl, by simp,
      by simp [Execution.answers], .nil, trivial, by simp, ⟨List.nil_subset _, ?_⟩, by simp⟩
    intro h
    cases h
  refine ⟨hs.bounded, hs.distinct, hs.once, fun reported results hmem => hs.sent _ hmem, fun hplace => ?_⟩
  exact hs.cleared (hs.at_place hplace).1

/-- A call with id `1` returns a future, which is settled, reported and answered. -/
def oneFuture : List Act :=
  [.receive (.call 1 false), .returns .future, .next, .next, .next, .settle ⟨1, 0⟩,
    .receive (.resolveFutures [1]), .next, .next, .next, .next, .next]

theorem futures_answered_once_oneFuture :
    ∃ e, run (Execution.step (some 1)) {} oneFuture = .ok e ∧ e.answers.Nodup := by
  refine ⟨_, rfl, (futures_answered_once (some 1) (.of_guarded (.initial rfl) oneFuture ?_ rfl)).2.2.1⟩
  unfold oneFuture
  iterate 12
    refine ⟨fun _ _ _ => .inl rfl, ?_⟩
    rintro _ ⟨⟩
  exact trivial

/-- A stop that the sandbox may catch comes while a host function runs.  The future that it returns
is registered, and its call is answered with the reason; the worker reports it all the same, and it
is answered again. -/
theorem answered_twice : (run (Execution.step none) {}
      [.receive (.call 1 false), .requestStop true, .returns .future, .next, .next, .next,
        .settle ⟨1, 0⟩, .receive (.resolveFutures [1]), .next, .next, .next, .next, .next]).map
      (fun e => (e.registered, e.sent)) =
    .ok ([⟨1, 0⟩], [.resumeFutures [⟨1, 0⟩] [⟨1, 0⟩], .error ⟨1, 0⟩]) := by
  rfl

end Montygo.TurnEngine.Futures
