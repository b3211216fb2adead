import Montygo.Lib.Transition
import Mathlib.Algebra.BigOperators.Group.Finset.Basic

/-!
# Admission of sessions

The server counts the sessions it has and those of each client.  A client gets a permit or is
refused; a permit that is dropped gives its slot back.  Both are done under one lock, so a run is
any sequence of them, by any clients.
-/

namespace Montygo.Server

open Transition

/-- The limits of `Admission`. -/
structure Quota where
  maxSessions : ℕ
  perClient : Option ℕ

/-- `AdmissionState`, with the map of counts as a partial function. -/
structure AdmissionState (Client : Type) where
  active : ℕ := 0
  byClient : Client → Option ℕ := fun _ => none

inductive Rejection where
  | capacity
  | clientQuota
  | draining
  deriving DecidableEq

variable {Client : Type} [DecidableEq Client]

namespace AdmissionState

/-- The count of a client, zero where there is no entry. -/
def count (s : AdmissionState Client) (client : Client) : ℕ := (s.byClient client).getD 0

/-- `try_admit`. -/
def tryAdmit (quota : Quota) (s : AdmissionState Client) (client : Client) (draining : Bool) :
    Except Rejection (AdmissionState Client) :=
  if draining then .error .draining
  else if quota.maxSessions ≤ s.active then .error .capacity
  else if quota.perClient.any (· ≤ s.count client) then .error .clientQuota
  else .ok
    { active := s.active + 1
      byClient := Function.update s.byClient client (some (s.count client + 1)) }

/-- `drop` of a permit; `none` where a subtraction would underflow. -/
def drop (s : AdmissionState Client) (client : Client) : Option (AdmissionState Client) :=
  if s.active = 0 then none
  else
    match s.byClient client with
    | none => some { s with active := s.active - 1 }
    | some 0 => none
    | some (count + 1) => some
      { active := s.active - 1
        byClient := Function.update s.byClient client (if count = 0 then none else some count) }

end AdmissionState

/-- The server, with the permits that are held. -/
structure Permits (Client : Type) where
  state : AdmissionState Client := {}
  live : List Client := []

inductive PermitAct (Client : Type) where
  | enter (client : Client) (draining : Bool)
  | drop (client : Client)

/-- A client asks for a permit, or one is dropped. -/
def Permits.step (quota : Quota) (p : Permits Client) :
    PermitAct Client → Except Unit (Permits Client)
  | .enter client draining =>
    match p.state.tryAdmit quota client draining with
    | .ok state => .ok { state, live := client :: p.live }
    | .error _ => .ok p
  | .drop client =>
    if client ∈ p.live then
      match p.state.drop client with
      | some state => .ok { state, live := p.live.erase client }
      | none => .error ()
    else .error ()

/-- The counts are those of the permits. -/
structure Permits.Counted (quota : Quota) (p : Permits Client) : Prop where
  active : p.state.active = p.live.length
  entry : ∀ c, p.state.byClient c = if p.live.count c = 0 then none else some (p.live.count c)
  capacity : p.live.length ≤ quota.maxSessions
  share : ∀ limit ∈ quota.perClient, ∀ c, p.live.count c ≤ limit

namespace Permits

variable {quota : Quota} {p p' : Permits Client} {client : Client}

theorem Counted.count_eq (h : p.Counted quota) (c : Client) : p.state.count c = p.live.count c := by
  rw [AdmissionState.count, h.entry]
  split
  · rename_i hzero
    exact hzero.symm
  · rfl

theorem Counted.enter {draining : Bool} {state : AdmissionState Client} (h : p.Counted quota)
    (htaken : p.state.tryAdmit quota client draining = .ok state) :
    Counted quota { state, live := client :: p.live } := by
  unfold AdmissionState.tryAdmit at htaken
  split_ifs at htaken with _ hroom hshare
  cases htaken
  rw [h.count_eq] at hshare
  refine ⟨by simp [h.active], fun c => ?_, ?_, fun limit hlimit c => ?_⟩
  · by_cases hc : c = client
    · simp [hc, h.count_eq]
    · simp [hc, Ne.symm hc, h.entry]
  · rw [List.length_cons, ← h.active]
    omega
  · have hless : p.live.count client < limit := by
      rw [Option.mem_def.mp hlimit] at hshare
      simpa using hshare
    by_cases hc : c = client
    · rw [hc, List.count_cons_self]
      exact hless
    · simpa [hc, Ne.symm hc] using h.share limit hlimit c

theorem Counted.drop (h : p.Counted quota) (hlive : client ∈ p.live) :
    ∃ state, p.state.drop client = some state ∧
      Counted quota { state, live := p.live.erase client } := by
  have hactive : p.state.active ≠ 0 := by
    rw [h.active]
    exact (List.length_pos_of_mem hlive).ne'
  obtain ⟨n, hn⟩ : ∃ n, p.live.count client = n + 1 :=
    Nat.exists_eq_succ_of_ne_zero (List.count_pos_iff.mpr hlive).ne'
  have hentry : p.state.byClient client = some (n + 1) := by simp [h.entry, hn]
  have hcount : ∀ c, (p.live.erase client).count c = p.live.count c - if client = c then 1 else 0 :=
    fun c => by simp [List.count_erase]
  refine ⟨_, by rw [AdmissionState.drop, if_neg hactive, hentry], ?_, fun c => ?_, ?_,
    fun limit hlimit c => ?_⟩
  · rw [List.length_erase_of_mem hlive, h.active]
  · by_cases hc : c = client
    · simp [hc, hn]
    · simp [hc, hcount, Ne.symm hc, h.entry]
  · exact List.length_erase_le.trans h.capacity
  · exact (List.erase_sublist.count_le c).trans (h.share limit hlimit c)

theorem Counted.step (h : p.Counted quota) {a : PermitAct Client}
    (hstep : p.step quota a = .ok p') : p'.Counted quota := by
  cases a with
  | enter client draining =>
    simp only [Permits.step] at hstep
    split at hstep
    · rename_i htaken
      cases hstep
      exact h.enter htaken
    · cases hstep
      exact h
  | drop client =>
    simp only [Permits.step] at hstep
    split_ifs at hstep with hlive
    obtain ⟨state, hdrop, hcounted⟩ := h.drop hlive
    rw [hdrop] at hstep
    cases hstep
    exact hcounted

/-- **The counts are those of the live permits.**  In every run the sessions and each client's
share are counted exactly and stay within the limits, no count underflows, a client without a permit
has no entry, and a client is refused only if the server drains or a limit would be broken. -/
theorem permits_counted (quota : Quota) {p : Permits Client}
    (hreach : Reachable (Permits.step quota) (· = {}) (fun _ _ => True) p) :
    (p.state.active = p.live.length ∧ ∑ c ∈ p.live.toFinset, p.state.count c = p.state.active ∧
      p.state.active ≤ quota.maxSessions) ∧
    (∀ c, p.state.count c = p.live.count c ∧ ∀ limit ∈ quota.perClient, p.state.count c ≤ limit) ∧
    (∀ c ∈ p.live, (p.state.drop c).isSome) ∧
    (∀ c ∉ p.live, p.state.byClient c = none) ∧
    ∀ c draining r, p.state.tryAdmit quota c draining = .error r → draining = true ∨
      quota.maxSessions < p.live.length + 1 ∨
      ∃ limit ∈ quota.perClient, limit < p.live.count c + 1 := by
  have h : p.Counted quota := by
    refine hreach.invariant (fun p hp => ?_) fun _ _ _ h _ hstep => h.step hstep
    subst hp
    exact ⟨rfl, fun _ => rfl, Nat.zero_le _, fun _ _ _ => Nat.zero_le _⟩
  refine ⟨⟨h.active, ?_, h.active ▸ h.capacity⟩, fun c => ⟨h.count_eq c, fun limit hlimit => ?_⟩,
    fun c hc => ?_, fun c hc => ?_, fun c draining r hrefused => ?_⟩
  · simp only [h.count_eq, h.active]
    exact List.sum_toFinset_count_eq_length p.live
  · rw [h.count_eq]
    exact h.share limit hlimit c
  · obtain ⟨state, hdrop, -⟩ := h.drop hc
    rw [hdrop]
    rfl
  · rw [h.entry, List.count_eq_zero.mpr hc, if_pos rfl]
  unfold AdmissionState.tryAdmit at hrefused
  split_ifs at hrefused with hdraining hfull hshare
  · exact .inl hdraining
  · rw [h.active] at hfull
    exact .inr (.inl (Nat.lt_succ_of_le hfull))
  · refine .inr (.inr ?_)
    cases hlimit : quota.perClient with
    | none => simp [hlimit] at hshare
    | some limit =>
      rw [hlimit, h.count_eq] at hshare
      exact ⟨limit, rfl, Nat.lt_succ_of_le (by simpa using hshare)⟩

/-- Two sessions, one for each client: the third client waits until one of them is gone. -/
def twoClients : List (PermitAct ℕ) :=
  [.enter 0 false, .enter 0 false, .enter 1 false, .enter 2 false, .drop 0, .enter 2 false]

theorem permits_counted_twoClients :
    ∃ p, run (Permits.step ⟨2, some 1⟩) {} twoClients = .ok p ∧ p.live = [2, 1] ∧
      p.state.active = p.live.length :=
  ⟨_, rfl, rfl, (permits_counted ⟨2, some 1⟩
    (.of_run (g := fun _ => True) (.initial rfl) twoClients (fun _ _ => trivial) rfl)).1.1⟩

end Permits

end Montygo.Server
