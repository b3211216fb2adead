import Montygo.Pool.Capacity
import Montygo.Pool.CheckoutLease
import Mathlib.Data.List.Perm.Basic

/-!
# A worker leaves its checkout once

The lease is the only place from which a worker can be taken, and it is taken with the slot.  So the
worker is always in one place: in the lease, in the hands of the call that took it out, or outside
(`Once.places`).

One kill does not go through the lease.  A turn that fails waits for its worker to exit and kills it
if it does not.  It holds the mutex then, without which nothing is released or handed off, and it
found the lease active before: the worker is not with the pool (`Once.turning`).

The other one is the kill that `Send` starts when its context ends while it writes.  The turn can
still succeed, and then nothing keeps the kill from running after the worker was released and
acquired again (`late_kill_hits_next`).  The worker is safe where that kill is over before the
release.  The checkouts that keep their workers are then as many as the leases of the pool with its
goroutines (`keeps_eq_leases`).
-/

namespace Montygo.Pool.CheckoutLease

open Transition Outcome

/-! ## The invariant -/

/-- The worker left the checkout. -/
def Happening.leaves : Happening → Bool
  | .retired _ | .released _ | .handedOff _ => true
  | .killed _ | .ended => false

/-- The worker went on living, with the pool. -/
def Happening.parts : Happening → Bool
  | .released _ | .handedOff _ => true
  | .retired _ | .killed _ | .ended => false

/-- The worker was killed or retired. -/
def Happening.destroys : Happening → Bool
  | .killed _ | .retired _ => true
  | .released _ | .handedOff _ | .ended => false

def Happening.worker : Happening → Option WorkerId
  | .killed w | .retired w | .released w | .handedOff w => some w
  | .ended => none

/-- The worker that the call under the mutex took out of the lease. -/
def Pc.carried : Pc → Option WorkerId
  | .killing _ _ w | .retiring _ _ w => some w
  | .releasing s | .handing s => some s.w
  | .checking _ | .ensuring _ | .turning _ | .discarding _ _ | .finishing _ => none

/-- The worker that a `Terminate` or an `Abandon` took out of the lease. -/
def Loose.carried : Loose → Option WorkerId
  | .terminating _ => none
  | .killing _ w | .retiring _ w => some w

/-- A turn is under way. -/
def Pc.inTurn : Pc → Bool
  | .turning _ => true
  | _ => false

namespace Checkout

variable {cfg : Config} {remote : Bool} {c c' : Checkout} {p p' : Pool} {pc pc' : Pc}

/-- The places where the worker can be: the lease, a call that took it out, or outside. -/
def places (c : Checkout) : List WorkerId :=
  (c.lease.slot.map Slot.w).toList ++ (c.owner.bind Pc.carried).toList ++
    c.loose.filterMap Loose.carried ++
    (c.log.filter Happening.leaves).filterMap Happening.worker

/-- What holds of a checkout at any time. -/
structure Once (c : Checkout) : Prop where
  /-- The worker is in one place. -/
  places : c.places = [c.lease.worker]
  /-- While a turn is under way the worker is not with the pool. -/
  turning : c.owner.any Pc.inTurn = true → ∀ h ∈ c.log, h.parts = false
  /-- While the kill of a `Send` is outstanding the worker is not with the pool. -/
  late : c.late = true → ∀ h ∈ c.log, h.parts = false
  /-- Nothing is killed or retired once it is with the pool. -/
  order : c.log.Pairwise fun h h' => h.parts = true → h'.destroys = false
  /-- A call that ends the checkout leaves no worker. -/
  ended : .ended ∈ c.log → c.lease.slot = none
  /-- Whatever was done was done to the worker of the checkout. -/
  own : ∀ h ∈ c.log, ∀ w, h.worker = some w → w = c.lease.worker

theorem Once.length (h : Once c) :
    c.lease.slot.toList.length + (c.owner.bind Pc.carried).toList.length +
      (c.loose.filterMap Loose.carried).length +
      ((c.log.filter Happening.leaves).filterMap Happening.worker).length = 1 := by
  have hlength := congrArg List.length h.places
  simp only [Checkout.places, List.length_append, List.length_singleton] at hlength
  have hslot : (c.lease.slot.map Slot.w).toList.length = c.lease.slot.toList.length := by
    cases c.lease.slot <;> rfl
  omega

theorem isSome_of_leaves {h : Happening} (hleaves : h.leaves = true) : h.worker.isSome = true := by
  cases h with
  | killed | ended => cases hleaves
  | retired | released | handedOff => rfl

theorem Once.not_left (h : Once c)
    (hheld : 0 < c.lease.slot.toList.length + (c.owner.bind Pc.carried).toList.length +
      (c.loose.filterMap Loose.carried).length) :
    ∀ e ∈ c.log, e.leaves = false := by
  intro e hmem
  by_contra hleaves
  have hlength := h.length
  have hfilter : e ∈ c.log.filter Happening.leaves :=
    List.mem_filter.mpr ⟨hmem, by simpa using hleaves⟩
  obtain ⟨w, hw⟩ := Option.isSome_iff_exists.mp (isSome_of_leaves (by simpa using hleaves))
  have hpos := List.length_pos_of_mem (List.mem_filterMap.mpr ⟨e, hfilter, hw⟩)
  omega

variable {e : Happening} {op : Op} {last : Bool} {w : WorkerId} {choice : Choice}

theorem not_parts_of_not_leaves (h : e.leaves = false) : e.parts = false := by
  cases e with
  | killed | ended | retired => rfl
  | released | handedOff => cases h

theorem Once.not_parted (h : Once c)
    (hheld : 0 < c.lease.slot.toList.length + (c.owner.bind Pc.carried).toList.length +
      (c.loose.filterMap Loose.carried).length) :
    ∀ e ∈ c.log, e.parts = false :=
  fun e hmem => not_parts_of_not_leaves (h.not_left hheld e hmem)

/-! ## Steps that leave the worker where it is -/

theorem logs_nil : c.logs [] = c := by
  simp [Checkout.logs]

theorem Once.goes {o : Option Pc} (h : Once c) (hcarried : o.bind Pc.carried = c.owner.bind Pc.carried)
    (hturn : o.any Pc.inTurn = true → ∀ e ∈ c.log, e.parts = false) : Once (c.goes o) where
  places := by
    have hplaces := h.places
    unfold Checkout.places at hplaces ⊢
    rw [← hcarried] at hplaces
    exact hplaces
  turning := hturn
  late := h.late
  order := h.order
  ended := h.ended
  own := h.own

theorem Once.goesEmpty {o : Option Pc} (h : Once c) (hcarried : c.owner.bind Pc.carried = none)
    (ho : o.bind Pc.carried = none) (hturn : o.any Pc.inTurn = false) : Once (c.goes o) :=
  h.goes (ho.trans hcarried.symm) fun hturn' => by rw [hturn] at hturn'; cases hturn'

/-- A checkout that goes on with one more entry in its log. -/
theorem Once.enter (h : Once c) (hlog : c'.log = c.log ++ [e])
    (hplaces : c'.places = [c.lease.worker]) (hsame : c'.lease.worker = c.lease.worker)
    (hturn : c'.owner.any Pc.inTurn = true → c.owner.any Pc.inTurn = true ∧ e.parts = false)
    (hlate : c'.late = true → c.late = true ∧ e.parts = false)
    (hdestroys : e.destroys = true → ∀ e ∈ c.log, e.parts = false)
    (hended : .ended ∈ c'.log → c'.lease.slot = none)
    (hworker : ∀ w, e.worker = some w → w = c.lease.worker) : Once c' where
  places := by rw [hplaces, hsame]
  turning hturn' := by
    rw [hlog]
    exact List.forall_mem_append.mpr ⟨h.turning (hturn hturn').1, by simpa using (hturn hturn').2⟩
  late hlate' := by
    rw [hlog]
    exact List.forall_mem_append.mpr ⟨h.late (hlate hlate').1, by simpa using (hlate hlate').2⟩
  order := by
    rw [hlog]
    refine List.pairwise_append.mpr ⟨h.order, List.pairwise_singleton _ _, ?_⟩
    intro e₁ hmem₁ e₂ hmem₂ hparts
    rw [List.mem_singleton.mp hmem₂]
    by_contra hdestroys'
    rw [hdestroys (by simpa using hdestroys') e₁ hmem₁] at hparts
    cases hparts
  ended := hended
  own := by
    rw [hlog, hsame]
    exact List.forall_mem_append.mpr ⟨h.own, by simpa using hworker⟩

theorem Once.logs (h : Once c) (hleaves : e.leaves = false)
    (hdestroys : e.destroys = true → ∀ e ∈ c.log, e.parts = false)
    (hended : e = .ended → c.lease.slot = none)
    (hworker : ∀ w, e.worker = some w → w = c.lease.worker) : Once (c.logs [e]) := by
  have hparts := not_parts_of_not_leaves hleaves
  refine h.enter rfl ?_ rfl (fun hturn => ⟨hturn, hparts⟩) (fun hlate => ⟨hlate, hparts⟩) hdestroys
    (fun hmem => ?_) hworker
  · have hplaces := h.places
    unfold Checkout.places at hplaces ⊢
    simpa [Checkout.logs, hleaves] using hplaces
  · obtain hmem | hmem := List.mem_append.mp hmem
    · exact h.ended hmem
    · exact hended (List.mem_singleton.mp hmem).symm

theorem Once.ends (h : Once c) (hcarried : c.owner.bind Pc.carried = none)
    (hslot : c.lease.slot = none) : Once c.ends :=
  (h.goes (o := none) hcarried.symm (fun hturn => by cases hturn)).logs rfl
    (fun hdestroys => by cases hdestroys) (fun _ => hslot) (fun w hw => by cases hw)

theorem Once.discarded (h : Once c) (hcarried : c.owner.bind Pc.carried = none)
    (hslot : c.lease.slot = none) :
    Once (c.discarded op last) := by
  unfold Checkout.discarded
  split
  · exact h.ends hcarried hslot
  · exact h.goesEmpty hcarried rfl rfl

/-! ## Steps that move the worker -/

theorem Once.of_perm {l : List WorkerId} (h : Once c) (hperm : l.Perm c.places) :
    l = [c.lease.worker] := by
  rw [h.places] at hperm
  exact List.perm_singleton.mp hperm

theorem Once.slot_eq {s : Slot} (h : Once c) (hslot : c.lease.slot = some s) :
    s.w = c.lease.worker := by
  have hplaces := h.places
  simp only [Checkout.places, hslot, Option.map_some, Option.toList_some, List.cons_append,
    List.nil_append] at hplaces
  exact (List.cons.inj hplaces).1

theorem Once.owner_eq (h : Once c) (hcarried : c.owner.bind Pc.carried = some w) :
    w = c.lease.worker := by
  have hmem : w ∈ c.places := by simp [Checkout.places, hcarried]
  rw [h.places] at hmem
  exact List.mem_singleton.mp hmem

theorem Once.slot_none (h : Once c) (htaken : 0 < (c.owner.bind Pc.carried).toList.length +
      (c.loose.filterMap Loose.carried).length) : c.lease.slot = none := by
  have hlength := h.length
  cases hslot : c.lease.slot with
  | none => rfl
  | some s =>
    rw [hslot, Option.toList_some, List.length_singleton] at hlength
    omega

theorem Once.take {s : Slot} {pc : Pc} (h : Once c) (hslot : c.lease.slot = some s)
    (hcarried : c.owner.bind Pc.carried = none) (hpc : pc.carried = some c.lease.worker)
    (hturn : pc.inTurn = false) :
    Once { c with lease := { c.lease with slot := none }, owner := some pc } where
  places := by
    have hplaces := h.places
    simp only [Checkout.places, hslot, hcarried, Option.map_some, h.slot_eq hslot] at hplaces
    simp only [Checkout.places, Option.bind_some, hpc]
    exact hplaces
  turning := by
    intro hturn'
    rw [Option.any_some, hturn] at hturn'
    cases hturn'
  late := h.late
  order := h.order
  ended := fun _ => rfl
  own := h.own

theorem Once.leave (h : Once c) (hcarried : c.owner.bind Pc.carried = some w)
    (hleaves : e.leaves = true) (hworker : e.worker = some w)
    (hlate : e.parts = true → c.late = false) : Once ((c.logs [e]).goes none) := by
  have htaken : 0 < (c.owner.bind Pc.carried).toList.length := by
    rw [hcarried]
    exact Nat.one_pos
  refine h.enter rfl (h.of_perm ?_) rfl (fun hturn => by cases hturn) (fun hlate' => ⟨hlate', ?_⟩)
    (fun _ => h.not_parted (by omega)) (fun _ => h.slot_none (by omega)) (fun w' hw' => ?_)
  · simp only [Checkout.places, Checkout.goes, Checkout.logs, hcarried, List.filter_append,
      List.filterMap_append, Option.bind_none, Option.toList_none, List.append_nil,
      Option.toList_some, List.append_assoc]
    rw [List.filter_cons_of_pos hleaves, List.filter_nil, List.filterMap_cons_some hworker,
      List.filterMap_nil]
    refine List.Perm.append_left _ ?_
    rw [← List.append_assoc]
    exact List.perm_append_comm
  · by_contra hparts
    have hnone : c.late = false := hlate (by simpa using hparts)
    exact Bool.false_ne_true (hnone.symm.trans hlate')
  · cases hworker.symm.trans hw'
    exact h.owner_eq hcarried

/-! ## `Terminate` and `Abandon` -/

section Loose

variable {others : List Loose} {x y : Loose}

theorem perm_loose (hperm : c.loose.Perm (x :: others)) : (c.loose.filterMap Loose.carried).Perm
      (x.carried.toList ++ others.filterMap Loose.carried) := by
  refine (hperm.filterMap Loose.carried).trans ?_
  rw [List.filterMap_cons]
  cases x.carried with
  | none | some w => exact .refl _

theorem Once.looseGoes (h : Once c) (hperm : c.loose.Perm (x :: others))
    (hcarried : y.carried = x.carried) : Once { c with loose := y :: others } where
  places := by
    refine h.of_perm ?_
    have hsame : ((y :: others).filterMap Loose.carried).Perm
        (c.loose.filterMap Loose.carried) := by
      refine .trans ?_ (perm_loose hperm).symm
      rw [List.filterMap_cons, hcarried]
      cases x.carried with
      | none | some w => exact .refl _
    exact (hsame.append_left _).append_right _
  turning := h.turning
  late := h.late
  order := h.order
  ended := h.ended
  own := h.own

theorem Once.looseEnds (h : Once c) (hperm : c.loose.Perm (x :: others))
    (hcarried : x.carried = none) : Once { c with loose := others } where
  places := by
    refine h.of_perm ?_
    have hsame := perm_loose hperm
    rw [hcarried, Option.toList_none, List.nil_append] at hsame
    exact (hsame.symm.append_left _).append_right _
  turning := h.turning
  late := h.late
  order := h.order
  ended := h.ended
  own := h.own

theorem Once.looseTake {s : Slot} (h : Once c) (hslot : c.lease.slot = some s)
    (hperm : c.loose.Perm (x :: others)) (hcarried : x.carried = none)
    (hy : y.carried = some c.lease.worker) :
    Once { c with lease := { c.lease with slot := none }, loose := y :: others } where
  places := by
    refine h.of_perm ?_
    have hsame := perm_loose hperm
    rw [hcarried, Option.toList_none, List.nil_append] at hsame
    simp only [Checkout.places, hslot, Option.map_some, h.slot_eq hslot, List.filterMap_cons_some hy,
      Option.map_none, Option.toList_none, List.nil_append, Option.toList_some, List.append_assoc,
      List.cons_append]
    refine List.perm_middle.trans (.cons _ (.append_left _ ?_))
    exact hsame.symm.append_right _
  turning := h.turning
  late := h.late
  order := h.order
  ended := fun _ => rfl
  own := h.own

theorem Once.looseLeave {w : WorkerId} (h : Once c) (hperm : c.loose.Perm (x :: others))
    (hcarried : x.carried = some w) :
    Once ({ c with loose := others }.logs [.retired w, .ended]) := by
  have hloose := perm_loose hperm
  rw [hcarried, Option.toList_some, List.singleton_append] at hloose
  have htaken : 0 < (c.loose.filterMap Loose.carried).length := by
    rw [hloose.length_eq]
    exact Nat.succ_pos _
  have hw : w = c.lease.worker := by
    have hmem : w ∈ c.places := by
      simp only [Checkout.places, List.mem_append]
      exact .inl (.inr (hloose.mem_iff.mpr List.mem_cons_self))
    rw [h.places] at hmem
    exact List.mem_singleton.mp hmem
  have hretired : Once ({ c with loose := others }.logs [.retired w]) := by
    refine h.enter rfl (h.of_perm ?_) rfl (fun hturn => ⟨hturn, rfl⟩) (fun hlate => ⟨hlate, rfl⟩)
      (fun _ => h.not_parted (by omega)) (fun _ => h.slot_none (by omega)) fun w' hw' => ?_
    · simp only [Checkout.places, Checkout.logs, List.filter_append, List.filterMap_append,
        List.append_assoc]
      refine .append_left _ (.append_left _ ?_)
      refine .trans ?_ (hloose.symm.append_right _)
      rw [← List.append_assoc, List.cons_append]
      exact List.perm_append_singleton _ _
    · cases hw'
      exact hw
  have hended := hretired.logs (e := .ended) rfl (fun hd => by cases hd)
    (fun _ => h.slot_none (by omega)) (fun w hw => by cases hw)
  unfold Checkout.logs at hended ⊢
  rwa [List.append_assoc] at hended

end Loose

/-! ## Departures -/

/-- How often the worker left the checkout. -/
def departures (c : Checkout) : ℕ := c.log.countP Happening.leaves

@[simp] theorem departures_logs {l : List Happening} :
    (c.logs l).departures = c.departures + l.countP Happening.leaves :=
  List.countP_append

@[simp] theorem departures_goes {o : Option Pc} : (c.goes o).departures = c.departures := rfl

@[simp] theorem departures_ends : c.ends.departures = c.departures := departures_logs

@[simp] theorem departures_discarded : (c.discarded op last).departures = c.departures := by
  unfold discarded
  split <;> simp

/-- The pool counts one worker less for each departure that the checkout enters. -/
def Balanced (c c' : Checkout) (p p' : Pool) : Prop :=
  p'.active + c'.departures = p.active + c.departures

theorem balanced_same (h : c'.departures = c.departures) : Balanced c c' p p := by
  unfold Balanced
  omega

theorem balanced_left {d : Delta} (hmoved : Moved p p' d) (hactive : d.active = -1)
    (h : c'.departures = c.departures + 1) : Balanced c c' p p' := by
  have hpool := hmoved.active
  unfold Balanced
  omega

/-! ## Every step -/

theorem once_newCheckout {s : Slot} : Once (newCheckout s) where
  places := rfl
  turning := fun hturn => by cases hturn
  late := fun hlate => by cases hlate
  order := .nil
  ended := fun hmem => by cases hmem
  own := fun _ hmem => by cases hmem

theorem slot_of_inactive (h : (!c.lease.active) = true) : c.lease.slot = none := by
  simpa [Lease.active] using h

theorem once_checking (h : Once c) (howner : c.owner = some (.checking op))
    (hstep : c.checking remote op choice = .ok c') : Once c' := by
  have hcarried : c.owner.bind Pc.carried = none := by rw [howner]; rfl
  unfold checking at hstep
  split at hstep
  · rename_i hinactive
    split at hstep
    · cases hstep
      exact h.ends hcarried (slot_of_inactive hinactive)
    · cases hstep
      exact h.goesEmpty hcarried rfl rfl
  · -- the lease still has its worker, and no branch hands it out
    (repeat' split at hstep) <;> cases hstep
    all_goals exact h.goesEmpty hcarried rfl rfl

theorem once_ensuring (h : Once c) (howner : c.owner = some (.ensuring op))
    (hstep : c.ensuring op choice = .ok c') : Once c' := by
  have hcarried : c.owner.bind Pc.carried = none := by rw [howner]; rfl
  unfold ensuring at hstep
  split at hstep
  · split at hstep
    all_goals
      cases hstep
      exact h.goesEmpty hcarried rfl rfl
  · rename_i hactive
    split at hstep
    · cases hstep
      exact h.goesEmpty hcarried rfl rfl
    · cases hstep
      refine h.goes hcarried.symm fun _ => h.not_parted ?_
      cases hslot : c.lease.slot with
      | none => simp [Lease.active, hslot] at hactive
      | some s =>
        rw [Option.toList_some, List.length_singleton]
        omega
    · cases hstep

theorem once_turning (h : Once c) (howner : c.owner = some (.turning op))
    (hstep : c.turning remote op choice = .ok c') : Once c' := by
  have hcarried : c.owner.bind Pc.carried = none := by rw [howner]; rfl
  unfold turning at hstep
  split at hstep <;> cases hstep
  case h_6 =>
    have hdiscarding := h.goesEmpty (o := some (.discarding op (op = .call))) hcarried rfl rfl
    split
    · -- the worker is killed without its lease, but only while the mutex keeps it from the pool
      exact hdiscarding.logs rfl (fun _ => h.turning (by rw [howner]; rfl)) (fun he => by cases he)
        (fun w hw => (Option.some.inj hw).symm)
    · rw [logs_nil]
      exact hdiscarding
  all_goals exact h.goesEmpty hcarried rfl rfl

theorem terminate_cases (l : Lease) : (l.slot = none ∧ l.terminate = (none, l)) ∨
      ∃ s, l.slot = some s ∧ l.terminate = (some l.worker, { l with slot := none }) := by
  unfold Lease.terminate
  split
  · rename_i hslot
    exact .inl ⟨hslot, rfl⟩
  · rename_i s hslot
    exact .inr ⟨s, hslot, rfl⟩

theorem Once.leaveEnds (h : Once c) (hcarried : c.owner.bind Pc.carried = some w)
    (hleaves : e.leaves = true) (hworker : e.worker = some w)
    (hlate : e.parts = true → c.late = false) : Once (c.logs [e]).ends := by
  have hslot : c.lease.slot = none :=
    h.slot_none (by rw [hcarried, Option.toList_some, List.length_singleton]; omega)
  exact (h.leave hcarried hleaves hworker hlate).ends rfl hslot

theorem once_discarding (h : Once c) (howner : c.owner = some (.discarding op last)) :
    Once (match c.lease.terminate with
      | (none, _) => c.discarded op last
      | (some w, l) => { c with lease := l, owner := some (.killing op last w) }) := by
  have hcarried : c.owner.bind Pc.carried = none := by rw [howner]; rfl
  obtain ⟨hslot, hterminate⟩ | ⟨s, hslot, hterminate⟩ := terminate_cases c.lease
  · rw [hterminate]
    exact h.discarded hcarried hslot
  · rw [hterminate]
    exact h.take hslot hcarried rfl rfl

theorem once_killing (h : Once c) (howner : c.owner = some (.killing op last w)) :
    Once ((c.goes (some (.retiring op last w))).logs (if remote then [] else [.killed w])) := by
  have hcarried : c.owner.bind Pc.carried = some w := by rw [howner]; rfl
  have hgoes : Once (c.goes (some (.retiring op last w))) :=
    h.goes hcarried.symm fun hturn => by cases hturn
  cases remote with
  | true =>
    rw [if_pos rfl, logs_nil]
    exact hgoes
  | false =>
    refine hgoes.logs rfl (fun _ => ?_) (fun he => by cases he) (fun w' hw' => ?_)
    · exact h.not_parted (by rw [hcarried, Option.toList_some, List.length_singleton]; omega)
    · cases hw'
      exact h.owner_eq hcarried

theorem once_retiring (h : Once c) (howner : c.owner = some (.retiring op last w)) :
    Once ((c.logs [.retired w]).discarded op last) := by
  have hcarried : c.owner.bind Pc.carried = some w := by rw [howner]; rfl
  have hslot : c.lease.slot = none :=
    h.slot_none (by rw [hcarried, Option.toList_some, List.length_singleton]; omega)
  have hleft := h.leave (e := .retired w) hcarried rfl rfl fun hparts => by cases hparts
  exact hleft.discarded rfl hslot

theorem once_finishing (h : Once c) (howner : c.owner = some (.finishing op))
    (hstep : c.ownerStep cfg remote p choice alive = .ok (c', p')) : Once c' := by
  have hcarried : c.owner.bind Pc.carried = none := by rw [howner]; rfl
  simp only [ownerStep, howner, Lease.finish] at hstep
  cases hslot : c.lease.slot with
  | none =>
    rw [hslot] at hstep
    cases hstep
    have hlease : ({ c with lease := { c.lease with slot := none } } : Checkout) = c := by
      rw [← hslot]
    have hends := h.ends hcarried hslot
    rw [← hlease] at hends
    exact hends
  | some s =>
    rw [hslot] at hstep
    have hw := h.slot_eq hslot
    dsimp only at hstep
    split at hstep
    · cases hstep
      exact h.take hslot hcarried (congrArg some hw) rfl
    · cases hstep
      refine h.take hslot hcarried ?_ rfl
      rw [← hw]
      cases remote with
      | true | false => rfl

/-- The next step of the call is the release or the handoff. -/
def parting (c : Checkout) : Bool :=
  match c.owner with
  | some (.releasing _) | some (.handing _) => true
  | _ => false

theorem balanced_checking (h : c.checking remote op choice = .ok c') : Balanced c c' p p := by
  unfold checking at h
  (repeat' split at h) <;> cases h
  all_goals exact balanced_same (by simp)

theorem balanced_ensuring (h : c.ensuring op choice = .ok c') : Balanced c c' p p := by
  unfold ensuring at h
  (repeat' split at h) <;> cases h
  all_goals exact balanced_same (by simp)

theorem balanced_turning (h : c.turning remote op choice = .ok c') : Balanced c c' p p := by
  unfold turning at h
  split at h <;> cases h
  case h_6 => exact balanced_same (by rw [departures_logs]; split <;> rfl)
  all_goals exact balanced_same (by simp)

/-- **Every step of the call under the mutex.** -/
theorem once_ownerStep {alive : Bool} (h : Once c) (hlate : c.parting = true → c.late = false)
    (hstep : c.ownerStep cfg remote p choice alive = .ok (c', p')) :
    Once c' ∧ Balanced c c' p p' := by
  cases howner : c.owner with
  | none =>
    simp only [ownerStep, howner] at hstep
    cases hstep
  | some pc =>
    cases pc with
    | checking op =>
      simp only [ownerStep, howner, bind_eq_ok, pure_eq_ok, Prod.mk.injEq] at hstep
      obtain ⟨c₁, hnext, rfl, rfl⟩ := hstep
      exact ⟨once_checking h howner hnext, balanced_checking hnext⟩
    | ensuring op =>
      simp only [ownerStep, howner, bind_eq_ok, pure_eq_ok, Prod.mk.injEq] at hstep
      obtain ⟨c₁, hnext, rfl, rfl⟩ := hstep
      exact ⟨once_ensuring h howner hnext, balanced_ensuring hnext⟩
    | turning op =>
      simp only [ownerStep, howner, bind_eq_ok, pure_eq_ok, Prod.mk.injEq] at hstep
      obtain ⟨c₁, hnext, rfl, rfl⟩ := hstep
      exact ⟨once_turning h howner hnext, balanced_turning hnext⟩
    | discarding op last =>
      have honce := once_discarding h howner
      simp only [ownerStep, howner] at hstep
      split at hstep
      all_goals
        rename_i hterminate
        rw [hterminate] at honce
        cases hstep
      · exact ⟨honce, balanced_same departures_discarded⟩
      · exact ⟨honce, balanced_same rfl⟩
    | killing op last w =>
      simp only [ownerStep, howner] at hstep
      cases hstep
      exact ⟨once_killing h howner, balanced_same (by rw [departures_logs]; split <;> rfl)⟩
    | retiring op last w =>
      simp only [ownerStep, howner] at hstep
      split at hstep <;> cases hstep
      rename_i hpool
      exact ⟨once_retiring h howner,
        balanced_left (moved_retireLease hpool) rfl (by simp [Happening.leaves])⟩
    | finishing op =>
      refine ⟨once_finishing h howner hstep, ?_⟩
      simp only [ownerStep, howner] at hstep
      (repeat' split at hstep) <;> cases hstep
      · exact balanced_same departures_ends
      all_goals exact balanced_same rfl
    | releasing s =>
      simp only [ownerStep, howner] at hstep
      split at hstep <;> cases hstep
      rename_i hpool
      refine ⟨h.leaveEnds (by rw [howner]; rfl) rfl rfl fun _ => hlate (by rw [parting, howner]), ?_⟩
      obtain hmoved | hmoved := moved_release hpool
      all_goals exact balanced_left hmoved rfl (by simp [Happening.leaves])
    | handing s =>
      simp only [ownerStep, howner] at hstep
      split at hstep <;> cases hstep
      rename_i hpool
      exact ⟨h.leaveEnds (by rw [howner]; rfl) rfl rfl fun _ => hlate (by rw [parting, howner]),
        balanced_left (moved_handoffLocked hpool) rfl (by simp [Happening.leaves])⟩

/-- **The end of a context, and the kill it starts.** -/
theorem once_cancel (h : Once c) (hstep : c.cancel remote = .ok c') :
    Once c' ∧ Balanced c c' p p := by
  unfold cancel at hstep
  split at hstep
  · rename_i howner
    split at hstep <;> cases hstep
    exact ⟨{ h with late := fun _ => h.turning (by rw [howner]; rfl) }, balanced_same rfl⟩
  · cases hstep

theorem once_lateKill (h : Once c) (hstep : c.lateKill = .ok c') :
    Once c' ∧ Balanced c c' p p := by
  unfold lateKill at hstep
  split at hstep <;> cases hstep
  rename_i hlate
  have hdone : Once { c with late := false } := { h with late := fun hlate => by cases hlate }
  exact ⟨hdone.logs rfl (fun _ => h.late hlate) (fun he => by cases he)
    (fun w hw => (Option.some.inj hw).symm), balanced_same departures_logs⟩

/-- **Every step of a `Terminate` or an `Abandon`.** -/
theorem once_looseStep {x : Loose} {others : List Loose} (h : Once c)
    (hperm : c.loose.Perm (x :: others))
    (hstep : c.looseStep cfg remote p x others = .ok (c', p')) :
    Once c' ∧ Balanced c c' p p' := by
  cases x with
  | terminating force =>
    simp only [looseStep] at hstep
    obtain ⟨hslot, hterminate⟩ | ⟨s, hslot, hterminate⟩ := terminate_cases c.lease
    · rw [hterminate] at hstep
      cases hstep
      exact ⟨(h.looseEnds hperm rfl).logs rfl (fun hd => by cases hd) (fun _ => hslot)
        (fun w hw => by cases hw), balanced_same departures_logs⟩
    · rw [hterminate] at hstep
      cases hstep
      exact ⟨h.looseTake hslot hperm rfl rfl, balanced_same rfl⟩
  | killing force w =>
    simp only [looseStep] at hstep
    cases hstep
    refine ⟨?_, balanced_same (by rw [departures_logs]; split <;> rfl)⟩
    have hgoes := h.looseGoes (y := .retiring (force || !remote) w) hperm rfl
    have hloose := (perm_loose hperm).length_eq
    rw [List.length_append] at hloose
    have htaken : 0 < (c.loose.filterMap Loose.carried).length := by
      rw [hloose]
      exact Nat.lt_of_lt_of_le Nat.one_pos (Nat.le_add_right _ _)
    split
    · refine hgoes.logs rfl (fun _ => h.not_parted (by omega)) (fun he => by cases he)
        (fun w' hw' => ?_)
      cases hw'
      have hmem : w ∈ c.places := by
        simp only [Checkout.places, List.mem_append]
        exact .inl (.inr ((perm_loose hperm).mem_iff.mpr List.mem_cons_self))
      rw [h.places] at hmem
      exact List.mem_singleton.mp hmem
    · rw [logs_nil]
      exact hgoes
  | retiring killed w =>
    simp only [looseStep] at hstep
    split at hstep <;> cases hstep
    rename_i hpool
    exact ⟨h.looseLeave hperm rfl,
      balanced_left (moved_retireLease hpool) rfl (by rw [departures_logs]; rfl)⟩

end Checkout

/-! ## Every run -/

variable {cfg : Config} {remote : Bool} {s s' : System} {a : Action}

/-- Every checkout's worker is in one place, and counts as active until it departs. -/
structure Sound (s : System) : Prop where
  once : ∀ c ∈ s.checkouts, c.Once
  active : s.pool.active + tally Checkout.departures s.checkouts = s.checkouts.length

theorem Sound.append {slot : Slot} {q : Pool} {n : ℕ} (h : Sound s)
    (hactive : q.active = s.pool.active + 1) :
    Sound { s with pool := q, spawning := n, checkouts := s.checkouts ++ [newCheckout slot] } where
  once := List.forall_mem_append.mpr ⟨h.once, by simpa using Checkout.once_newCheckout⟩
  active := by
    have hold := h.active
    have hnew : (newCheckout slot).departures = 0 := rfl
    simp only [tally_append, tally_cons, tally_nil, List.length_append, List.length_singleton, hnew]
    omega

theorem Sound.pool {q : Pool} {n : ℕ} (h : Sound s) (hactive : q.active = s.pool.active) :
    Sound { s with pool := q, spawning := n } :=
  ⟨h.once, by rw [hactive]; exact h.active⟩

theorem tally_set {α : Type} {f : α → ℕ} {xs : List α} {k : ℕ} {x y : α} (h : xs[k]? = some x) :
    tally f (xs.set k y) + f x = tally f xs + f y := by
  obtain ⟨hk, rfl⟩ := List.getElem?_eq_some_iff.mp h
  have hset := ((List.set_perm_cons_eraseIdx hk y).map f).sum_eq
  have hold := ((List.getElem_cons_eraseIdx_perm hk).map f).sum_eq
  simp only [List.map_cons, List.sum_cons] at hset hold
  unfold tally
  omega

theorem Sound.atCheckout {k : ℕ} {f : Checkout → Pool → Except Stuck (Checkout × Pool)}
    (h : Sound s)
    (hf : ∀ c p c' p', s.checkouts[k]? = some c → c.Once → f c p = .ok (c', p') →
      c'.Once ∧ c.Balanced c' p p')
    (hstep : s.atCheckout k f = .ok s') : Sound s' := by
  unfold System.atCheckout at hstep
  split at hstep
  · cases hstep
  rename_i c hc
  split at hstep
  · cases hstep
  rename_i x hx
  cases hstep
  obtain ⟨honce, hbalanced⟩ := hf c s.pool x.1 x.2 hc (h.once c (List.mem_of_getElem? hc)) hx
  refine ⟨fun c' hmem => ?_, ?_⟩
  · obtain hmem | rfl := List.mem_or_eq_of_mem_set hmem
    · exact h.once c' hmem
    · exact honce
  · have hset := tally_set (f := Checkout.departures) (y := x.1) hc
    have hold := h.active
    unfold Checkout.Balanced at hbalanced
    simp only [System.set, List.length_set]
    omega

/-- The worker is released or handed off only when no kill of a `Send` is outstanding. -/
def System.killsOver (s : System) : Action → Bool
  | .goOn k _ _ => s.checkouts[k]?.all fun c => !(c.parting && c.late)
  | _ => true

theorem sound_step (h : Sound s) (hover : s.killsOver a = true)
    (hstep : step cfg remote s a = .ok s') : Sound s' := by
  cases a with
  | acquire alive =>
    simp only [step] at hstep
    split at hstep
    · cases hstep
    all_goals
      rename_i hpool
      cases hstep
      obtain ⟨dead, ⟨slot', hout, hmoved⟩ | ⟨hout, -, -, hmoved⟩ | ⟨hout, hmoved⟩⟩ :=
        moved_acquireLocked hpool
    all_goals
      first
      | exact h.append hmoved.active
      | exact h.pool (by simpa using hmoved.active)
      | simp_all
  | spawned result =>
    simp only [step] at hstep
    split at hstep
    · cases hstep
    split at hstep
    · cases hstep
    all_goals
      rename_i hpool
      cases hstep
      obtain ⟨hout, hmoved⟩ | ⟨hout, hmoved⟩ | ⟨taken, hout, hmoved⟩ := moved_spawnedLocked hpool
    all_goals
      first
      | exact h.append hmoved.active
      | exact h.pool (by simpa using hmoved.active)
      | cases hout
  | reserve =>
    simp only [step] at hstep
    split at hstep <;> cases hstep
    rename_i hpool
    refine h.pool ?_
    unfold reserveLocked at hpool
    (repeat' split at hpool) <;> cases hpool
    rfl
  | close =>
    simp only [step] at hstep
    split at hstep <;> cases hstep
    rename_i hpool
    obtain ⟨closed, hmoved⟩ := moved_close hpool
    exact h.pool (by simpa using hmoved.active)
  | receive =>
    simp only [step] at hstep
    split at hstep <;> cases hstep
    exact h.pool rfl
  | releaseReservation | reReserve | reap =>
    cases hstep
    exact h.pool rfl
  | bound w =>
    simp only [step] at hstep
    split at hstep
    all_goals
      rename_i hbind
      obtain ⟨hclosed, -, hmoved⟩ | ⟨hclosed, hmoved⟩ := moved_bindSpawned hbind <;> cases hclosed
    · split at hstep <;> cases hstep
      rename_i hpool
      exact h.pool (by rw [(moved_retireLocked hpool).active, hmoved.active]; simp)
    · cases hstep
      exact h.append hmoved.active
  | begin k op =>
    simp only [step] at hstep
    refine h.atCheckout (fun c p c' p' _ hc hstep => ?_) hstep
    split at hstep <;> cases hstep
    rename_i hidle
    have howner : c.owner = none := by simpa using fun h => hidle (.inl h)
    exact ⟨hc.goesEmpty (by rw [howner]; rfl) rfl rfl, Checkout.balanced_same rfl⟩
  | goOn k choice alive =>
    refine h.atCheckout (fun c p c' p' hk hc => Checkout.once_ownerStep hc fun hparting => ?_) hstep
    simpa [System.killsOver, hk, hparting] using hover
  | cancel k =>
    simp only [step] at hstep
    refine h.atCheckout (fun c p c' p' _ hc hstep => ?_) hstep
    simp only [bind_eq_ok, pure_eq_ok, Prod.mk.injEq] at hstep
    obtain ⟨c₁, hcancel, rfl, rfl⟩ := hstep
    exact Checkout.once_cancel hc hcancel
  | lateKill k =>
    simp only [step] at hstep
    refine h.atCheckout (fun c p c' p' _ hc hstep => ?_) hstep
    simp only [bind_eq_ok, pure_eq_ok, Prod.mk.injEq] at hstep
    obtain ⟨c₁, hkill, rfl, rfl⟩ := hstep
    exact Checkout.once_lateKill hc hkill
  | terminate k force =>
    simp only [step] at hstep
    refine h.atCheckout (fun c p c' p' _ hc hstep => ?_) hstep
    cases hstep
    exact ⟨⟨hc.places, hc.turning, hc.late, hc.order, hc.ended, hc.own⟩, Checkout.balanced_same rfl⟩
  | goOnLoose k i =>
    simp only [step] at hstep
    refine h.atCheckout (fun c p c' p' _ hc hstep => ?_) hstep
    split at hstep
    · cases hstep
    rename_i x hx
    obtain ⟨hi, rfl⟩ := List.getElem?_eq_some_iff.mp hx
    exact Checkout.once_looseStep hc (List.getElem_cons_eraseIdx_perm hi).symm hstep

theorem sound_of_reachable
    (hreach : Reachable (step cfg remote) (Initial cfg) (fun s a => s.killsOver a = true) s) :
    Sound s := by
  refine hreach.invariant (fun s hinit => ?_) (fun s a s' hs hover => sound_step hs hover)
  obtain ⟨slots, -, rfl⟩ := hinit
  exact ⟨fun c hmem => absurd hmem List.not_mem_nil, rfl⟩

/-- Whether the worker is still with the checkout: in the lease, or in the hands of a call that
took it out and is about to release, retire or hand it off. -/
def Checkout.keeps (c : Checkout) : Bool :=
  c.lease.active || (c.owner.bind Pc.carried).isSome || c.loose.any fun x => x.carried.isSome

theorem Checkout.Once.departures_eq {c : Checkout} (h : c.Once) :
    c.departures = if c.keeps then 0 else 1 := by
  have hlength := h.length
  have hleft : ((c.log.filter Happening.leaves).filterMap Happening.worker).length =
      c.departures := by
    rw [List.length_filterMap_eq_countP, List.countP_filter, departures]
    refine List.countP_congr fun e _ => ?_
    simp only [Bool.and_eq_true, and_iff_right_iff_imp]
    exact isSome_of_leaves
  have hloose : (c.loose.any fun x => x.carried.isSome) =
      decide (0 < (c.loose.filterMap Loose.carried).length) := by
    rw [List.length_filterMap_eq_countP, Bool.eq_iff_iff, decide_eq_true_eq, List.countP_pos_iff,
      List.any_eq_true]
  rw [hleft] at hlength
  unfold keeps Lease.active
  rw [hloose]
  cases hslot : c.lease.slot with
  | some s =>
    rw [hslot, Option.toList_some, List.length_singleton] at hlength
    rw [if_pos (by simp)]
    omega
  | none =>
    cases hcarried : c.owner.bind Pc.carried with
    | some w =>
      rw [hcarried, Option.toList_some, List.length_singleton] at hlength
      rw [if_pos (by simp)]
      omega
    | none =>
      rw [hslot, hcarried] at hlength
      simp only [Option.toList_none, List.length_nil] at hlength
      simp only [Option.isSome_none, Bool.false_or, decide_eq_true_eq]
      split <;> omega

/-- **The checkouts that keep their workers are as many as the leases**, where the pool with its
goroutines and the checkouts have come to the same pool. -/
theorem keeps_eq_leases {t : Pool.System}
    (hs : Reachable (step cfg remote) (Initial cfg) (fun s a => s.killsOver a = true) s)
    (ht : Reachable (Pool.step cfg) (Pool.Initial cfg) (fun _ _ => True) t)
    (hpool : t.pool = s.pool) :
    s.checkouts.countP Checkout.keeps =
      t.leases.length + tally Reservation.active t.reservations := by
  have haccounted : Accounted t := by
    refine ht.invariant (fun _ => accounted_initial) fun _ _ _ h _ hstep => ?_
    obtain ⟨d, hchange, -⟩ := step_explained hstep
    exact hchange.accounted h
  have hlength : ∀ l : List Checkout, (∀ c ∈ l, c.Once) →
      tally Checkout.departures l + l.countP Checkout.keeps = l.length := by
    intro l hl
    induction l with
    | nil => rfl
    | cons c l ih =>
      have hrest := ih fun c hc => hl c (List.mem_cons_of_mem _ hc)
      have hfirst := (hl c List.mem_cons_self).departures_eq
      rw [tally_cons, List.countP_cons, List.length_cons]
      split at hfirst <;> simp_all <;> omega
  have hsound := sound_of_reachable hs
  have hkeeps := hlength s.checkouts hsound.once
  have hactive := hsound.active
  rw [← hpool, haccounted.active] at hactive
  omega

/-- **A worker leaves its checkout once.**  In every interleaving in which no kill that a `Send`
started is outstanding at the release, a worker that is not with its
checkout any more left it exactly once, by a release, a retirement or a handoff, and one that is
has not left; a call that ends the checkout returns only once the lease is empty; and nothing is
killed or retired after a release or a handoff. -/
theorem worker_leaves_once
    (hreach : Reachable (step cfg remote) (Initial cfg) (fun s a => s.killsOver a = true) s) :
    ∀ c ∈ s.checkouts, (c.departures = if c.keeps then 0 else 1) ∧
      (.ended ∈ c.log → c.lease.active = false) ∧
      (c.log.Pairwise fun h h' => h.parts = true → h'.destroys = false) ∧
      ∀ h ∈ c.log, ∀ w, h.worker = some w → w = c.lease.worker := by
  intro c hmem
  have hc := (sound_of_reachable hreach).once c hmem
  refine ⟨hc.departures_eq, fun hended => ?_, hc.order, hc.own⟩
  rw [Lease.active, hc.ended hended]
  rfl

/-- A pool of one local worker. -/
def oneWorker : Config where
  minProcesses := 1
  maxProcesses := 1
  maxCheckoutsPerWorker := 0
  singleUse := false
  maxProcesses_pos := Nat.one_pos
  minProcesses_le := le_rfl
  singleUse_min := fun h => by cases h

/-- Its worker is checked out, configured and released, checked out again, and then the first
checkout is terminated. -/
def terminatedLate : List Action :=
  [.acquire fun _ => true, .goOn 0 .go true, .goOn 0 .go true,
    .begin 0 .finish, .goOn 0 .go true, .goOn 0 .go true, .goOn 0 .go true, .goOn 0 .go true,
    .goOn 0 .go true, .acquire fun _ => true, .terminate 0 true, .goOnLoose 0 0]

/-- The first checkout at the end. -/
def firstCheckout : Checkout :=
  { lease := { slot := none, worker := 7 }, owner := none, log := [.released 7, .ended, .ended] }

/-- The second one has the worker. -/
def secondCheckout : Checkout := newCheckout { w := 7, served := 1 }

theorem run_terminatedLate :
    run (step oneWorker false) { pool := { idle := [{ w := 7, served := 0 }] } } terminatedLate =
      .ok { pool := { active := 1 }, checkouts := [firstCheckout, secondCheckout] } := rfl

theorem worker_leaves_once_terminatedLate :
    ∃ s, Reachable (step oneWorker false) (Initial oneWorker) (fun s a => s.killsOver a = true) s ∧
      firstCheckout ∈ s.checkouts ∧ firstCheckout.departures = 1 ∧
      firstCheckout.log.Pairwise fun h h' => h.parts = true → h'.destroys = false := by
  have hinit : Reachable (step oneWorker false) (Initial oneWorker)
      (fun s a => s.killsOver a = true) { pool := { idle := [{ w := 7, served := 0 }] } } :=
    .initial ⟨_, rfl, rfl⟩
  have hguarded : Guarded (step oneWorker false) (fun s a => s.killsOver a = true)
      { pool := { idle := [{ w := 7, served := 0 }] } } terminatedLate := by
    repeat (refine ⟨rfl, ?_⟩; rintro _ ⟨⟩)
    exact trivial
  have hreach := hinit.of_guarded terminatedLate hguarded run_terminatedLate
  obtain ⟨hdepartures, -, horder, -⟩ := worker_leaves_once hreach firstCheckout List.mem_cons_self
  exact ⟨_, hreach, List.mem_cons_self, hdepartures, horder⟩

/-- The worker is checked out and configured.  The context of `Finish` ends while `Send` writes the
`Reset`, whose reply comes all the same: the worker is released, and checked out again.  Then the
kill runs. -/
def cancelledFinish : List Action :=
  [.acquire fun _ => true, .goOn 0 .go true, .goOn 0 .go true,
    .begin 0 .finish, .goOn 0 .go true, .goOn 0 .go true, .cancel 0, .goOn 0 .go true,
    .goOn 0 .go true, .goOn 0 .go true, .acquire fun _ => true, .lateKill 0]

/-- The first checkout kills the worker of the second. -/
theorem late_kill_hits_next :
    run (step oneWorker false) { pool := { idle := [{ w := 7, served := 0 }] } } cancelledFinish =
      .ok { pool := { active := 1 }
            checkouts :=
              [{ lease := { slot := none, worker := 7 }, owner := none
                 log := [.released 7, .ended, .killed 7] },
                newCheckout { w := 7, served := 1 }] } := rfl

end Montygo.Pool.CheckoutLease
