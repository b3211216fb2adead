import Montygo.Lib.Fallible
import Montygo.Lib.Transition
import Montygo.Value.Object
import Mathlib.Algebra.Order.Ring.Nat
import Mathlib.Data.List.Forall2

/-!
# The host objects of a session

A wrapper lends a host object to the sandbox under an id.  Preparing a value stores the wrappers in
it and sends markers with their ids; restoring a marker looks the id up.  `put` refuses a second
object under an id, as far as `sameObject` can tell two objects apart: it compares a slice by where
it starts, a function by its code and a value by its contents (`two_slices_one_id`).  Where it tells
the host's objects apart, an id never changes its object and every object comes back
(`store_keeps_objects`).

The attributes that a wrapper shows are the host's, and may be others each time they are read.
-/

namespace Montygo.Sandbox

open Go Value Fallible Transition

/-- What a wrapper stands for: a class, or an object of some type, in the part of it that
`sameObject` compares (an address, the code of a function, the contents of a value; none if they are
not even equal to themselves) and the part that it does not. -/
inductive HostObject where
  | type (goType : ℕ)
  | object (goType : ℕ) (compared : Option ℕ) (hidden : ℕ)
  deriving DecidableEq

def sameObject : HostObject → HostObject → Bool
  | .type a, .type b => a = b
  | .object typeA (some a) _, .object typeB (some b) _ => typeA = typeB ∧ a = b
  | _, _ => false

structure ClassType where
  id : GoString
  goType : ℕ
  deriving DecidableEq

structure ClassInstance where
  id : GoString
  instance_ : HostObject
  classType : ClassType
  deriving DecidableEq

inductive Wrapper where
  | classInstance (ci : ClassInstance)
  | classType (c : ClassType)
  deriving DecidableEq

namespace Wrapper

/-- `wrapperID`. -/
def id : Wrapper → GoString
  | .classInstance ci => ci.id
  | .classType c => c.id

/-- `identity`. -/
def identity : Wrapper → HostObject
  | .classInstance ci => ci.instance_
  | .classType c => .type c.goType

def isInstance : Wrapper → Bool
  | .classInstance _ => true
  | .classType _ => false

end Wrapper

/-- The containers that are walked; the items of a dict are its keys and values in turn. -/
inductive Container where
  | list
  | tuple
  | namedTuple
  | set
  | frozenSet
  | dict
  deriving DecidableEq

/-- A value of the host. -/
inductive HostValue where
  | scalar (x : Object)
  | items (kind : Container) (children : List HostValue)
  | classInstance (ci : ClassInstance)
  | classType (c : ClassType)
  | proxy (id : GoString) (attrs : List (GoString × HostValue))

/-- A prepared value. -/
inductive Marker where
  | scalar (x : Object)
  | items (kind : Container) (children : List Marker)
  | classInstance (id : GoString) (attrs : List (GoString × Marker))
  | type (id : GoString)

/-- A restored value. -/
inductive Restored where
  | scalar (x : Object)
  | items (kind : Container) (children : List Restored)
  | object (o : HostObject)
  | classType (c : ClassType)
  | type (id : GoString)
  | proxy (id : GoString) (attrs : List (GoString × Restored))

inductive StoreError where
  /-- `wrapper id '%s' already identifies a different object in this session`. -/
  | otherObject (id : GoString)
  /-- The limit of host objects. -/
  | limit (n : ℕ)
  | depth
  /-- What reading an attribute gave. -/
  | attribute

def unlimitedObjects : ℕ := 2 ^ 64 - 1

structure InstanceStore where
  m : List (GoString × Wrapper) := []
  limit : ℕ

namespace InstanceStore

/-- `Get`. -/
def get (s : InstanceStore) (id : GoString) : Option Wrapper := s.m.lookup id

/-- The assignment `s.m[id] = w` of an id that is there. -/
def replace (s : InstanceStore) (w : Wrapper) : InstanceStore :=
  { s with m := s.m.map fun entry => if entry.1 = w.id then (entry.1, w) else entry }

/-- `put`. -/
def put (s : InstanceStore) (w : Wrapper) (onlyIfAbsent : Bool) : Except StoreError InstanceStore :=
  match s.get w.id with
  | some existing =>
    if !sameObject existing.identity w.identity then .error (.otherObject w.id)
    else if onlyIfAbsent then .ok s
    else .ok (s.replace w)
  | none =>
    if s.limit ≠ unlimitedObjects ∧ s.limit ≤ s.m.length then .error (.limit s.limit)
    else .ok { s with m := s.m ++ [(w.id, w)] }

end InstanceStore

/-- The store, and how often attributes were read. -/
structure Host where
  store : InstanceStore
  reads : ℕ := 0

/-- What the wrappers' attributes are when they are read. -/
abbrev Attributes := ℕ → Wrapper → Except StoreError (List (GoString × HostValue))

section Prepare

variable (attrs : Attributes)

abbrev Walk (α : Type) := EStateM StoreError Host α

def putWrapper (w : Wrapper) (onlyIfAbsent : Bool) : Walk Unit := fun h =>
  match h.store.put w onlyIfAbsent with
  | .ok store => .ok () { h with store }
  | .error e => .error e h

/-- `eagerAttrs`. -/
def eagerAttrs (w : Wrapper) : Walk (List (GoString × HostValue)) := fun h =>
  match attrs h.reads w with
  | .ok pairs => .ok pairs { h with reads := h.reads + 1 }
  | .error e => .error e { h with reads := h.reads + 1 }

def walkAll (walk : HostValue → Walk Marker) : List HostValue → Walk (List Marker)
  | [] => pure []
  | v :: items => do
    let m ← walk v
    let ms ← walkAll walk items
    pure (m :: ms)

def walkAttrs (walk : HostValue → Walk Marker) (pairs : List (GoString × HostValue)) :
    Walk (List (GoString × Marker)) := do
  let ms ← walkAll walk (pairs.map Prod.snd)
  pure ((pairs.map Prod.fst).zip ms)

def classTypeMarker (walk : HostValue → Walk Marker) (c : ClassType) : Walk Marker := do
  let pairs ← eagerAttrs attrs (.classType c)
  let _ ← walkAttrs walk pairs
  pure (.type c.id)

def instanceMarker (walk : HostValue → Walk Marker) (ci : ClassInstance) : Walk Marker := do
  putWrapper (.classInstance ci) false
  let pairs ← eagerAttrs attrs (.classInstance ci)
  let ms ← walkAttrs walk pairs
  putWrapper (.classType ci.classType) true
  let _ ← classTypeMarker attrs walk ci.classType
  pure (.classInstance ci.id ms)

/-- `prepareInner`, by how many levels are left. -/
def prepareLevel : ℕ → HostValue → Walk Marker
  | 0, _ => throw .depth
  | _ + 1, .scalar x => pure (.scalar x)
  | n + 1, .items kind children => do
    let ms ← walkAll (prepareLevel n) children
    pure (.items kind ms)
  | n + 1, .classInstance ci => instanceMarker attrs (prepareLevel n) ci
  | n + 1, .classType c => do
    putWrapper (.classType c) false
    classTypeMarker attrs (prepareLevel n) c
  | n + 1, .proxy id pairs => do
    let ms ← walkAttrs (prepareLevel n) pairs
    pure (.classInstance id ms)

/-- `PrepareValue`: `maxInputDepth` is 48, and the value itself is at depth 0. -/
def prepareHostValue (v : HostValue) : Walk Marker := prepareLevel attrs 49 v

end Prepare

mutual

/-- `RestoreValue`. -/
def restoreValue (s : InstanceStore) : Marker → Restored
  | .scalar x => .scalar x
  | .items kind children => .items kind (restoreItems s children)
  | .classInstance id attrs =>
    match s.get id with
    | some (.classInstance ci) => .object ci.instance_
    | _ => .proxy id (restoreAttrs s attrs)
  | .type id =>
    match s.get id with
    | some (.classType c) => .classType c
    | _ => .type id

def restoreItems (s : InstanceStore) : List Marker → List Restored
  | [] => []
  | m :: items => restoreValue s m :: restoreItems s items

def restoreAttrs (s : InstanceStore) : List (GoString × Marker) → List (GoString × Restored)
  | [] => []
  | (name, m) :: attrs => (name, restoreValue s m) :: restoreAttrs s attrs

end

/-- The value at a position. -/
def HostValue.at : List ℕ → HostValue → Option HostValue
  | [], v => some v
  | i :: path, .items _ children => children[i]?.bind (HostValue.at path)
  | _ :: _, _ => none

/-- The value at a position. -/
def Restored.at : List ℕ → Restored → Option Restored
  | [], r => some r
  | i :: path, .items _ children => children[i]?.bind (Restored.at path)
  | _ :: _, _ => none

/-! ## The wrappers of a host -/

/-- The wrappers that a host uses are those of a kind. -/
inductive HostValue.Uses (U : Wrapper → Prop) : HostValue → Prop
  | scalar (x : Object) : Uses U (.scalar x)
  | items (kind : Container) {children : List HostValue} (h : ∀ v ∈ children, Uses U v) :
      Uses U (.items kind children)
  | classInstance {ci : ClassInstance} (h : U (.classInstance ci)) (hc : U (.classType ci.classType)) :
      Uses U (.classInstance ci)
  | classType {c : ClassType} (h : U (.classType c)) : Uses U (.classType c)
  | proxy (id : GoString) {attrs : List (GoString × HostValue)} (h : ∀ pair ∈ attrs, Uses U pair.2) :
      Uses U (.proxy id attrs)

/-- So are those in the attributes that it shows. -/
def Attributes.Use (attrs : Attributes) (U : Wrapper → Prop) : Prop :=
  ∀ n w pairs, attrs n w = .ok pairs → ∀ pair ∈ pairs, pair.2.Uses U

/-- `sameObject` tells the objects that share an id apart. -/
def ToldApart (U : Wrapper → Prop) : Prop :=
  ∀ w w', U w → U w' → w.id = w'.id → sameObject w.identity w'.identity →
    w.identity = w'.identity ∧ w.isInstance = w'.isInstance

/-- Every id keeps its object. -/
def InstanceStore.Keeps (s s' : InstanceStore) : Prop :=
  ∀ id w, s.get id = some w →
    ∃ w', s'.get id = some w' ∧ w'.identity = w.identity ∧ w'.isInstance = w.isInstance

/-- The store has wrappers of the host under their own ids, and no more than its limit. -/
structure InstanceStore.Sound (U : Wrapper → Prop) (s : InstanceStore) : Prop where
  used : ∀ id w, s.get id = some w → U w ∧ w.id = id
  bounded : s.limit ≠ unlimitedObjects → s.m.length ≤ s.limit

variable {U : Wrapper → Prop} {s s' s'' : InstanceStore} {w w' : Wrapper}

theorem InstanceStore.Keeps.refl (s : InstanceStore) : s.Keeps s := fun _ w h => ⟨w, h, rfl, rfl⟩

theorem InstanceStore.Keeps.trans (h : s.Keeps s') (h' : s'.Keeps s'') : s.Keeps s'' := by
  intro id w hw
  obtain ⟨w', hw', hidentity, hkind⟩ := h id w hw
  obtain ⟨w'', hw'', hidentity', hkind'⟩ := h' id w' hw'
  exact ⟨w'', hw'', hidentity'.trans hidentity, hkind'.trans hkind⟩

/-! ## What `put` does -/

theorem get_replace (s : InstanceStore) (w : Wrapper) (id : GoString) :
    (s.replace w).get id = (s.get id).map fun old => if id = w.id then w else old := by
  unfold InstanceStore.get InstanceStore.replace
  induction s.m with
  | nil => rfl
  | cons entry m ih =>
    obtain ⟨stored, old⟩ := entry
    rw [List.map_cons, List.lookup_cons]
    by_cases hid : id = stored
    · subst hid
      by_cases hw : id = w.id <;> simp [hw]
    · have hne : (id == stored) = false := by simpa using hid
      by_cases hw : stored = w.id
      · rw [if_pos hw, List.lookup_cons, hne]
        exact ih
      · rw [if_neg hw, List.lookup_cons, hne]
        exact ih

theorem get_append (s : InstanceStore) (w : Wrapper) (hnone : s.get w.id = none) (id : GoString) :
    ({ s with m := s.m ++ [(w.id, w)] } : InstanceStore).get id =
      if id = w.id then some w else s.get id := by
  unfold InstanceStore.get at hnone ⊢
  rw [List.lookup_append]
  by_cases hid : id = w.id
  · subst hid
    simp [hnone]
  · have hne : (id == w.id) = false := by simpa using hid
    simp [List.lookup_cons, hne, hid]

/-- A wrapper takes the place of one that `sameObject` took for it. -/
theorem replace_sound (h : s.Sound U) (hw : U w) (hsame : ∀ old, s.get w.id = some old →
      w.identity = old.identity ∧ w.isInstance = old.isInstance) :
    (s.replace w).Sound U ∧ s.Keeps (s.replace w) := by
  refine ⟨⟨fun id found hfound => ?_, fun hlimit => ?_⟩, fun id old hold => ?_⟩
  · rw [get_replace] at hfound
    obtain ⟨old, hold, rfl⟩ := Option.map_eq_some_iff.mp hfound
    split
    · rename_i hid
      exact ⟨hw, hid.symm⟩
    · exact h.used id old hold
  · simpa [InstanceStore.replace] using h.bounded hlimit
  rw [get_replace, hold, Option.map_some]
  refine ⟨_, rfl, ?_⟩
  split
  · rename_i hid
    exact hsame old (hid ▸ hold)
  · exact ⟨rfl, rfl⟩

theorem append_sound (h : s.Sound U) (hw : U w) (hnone : s.get w.id = none)
    (hroom : ¬(s.limit ≠ unlimitedObjects ∧ s.limit ≤ s.m.length)) :
    ({ s with m := s.m ++ [(w.id, w)] } : InstanceStore).Sound U ∧
      s.Keeps { s with m := s.m ++ [(w.id, w)] } := by
  refine ⟨⟨fun id found hfound => ?_, fun hlimit => ?_⟩, fun id old hold => ⟨old, ?_, rfl, rfl⟩⟩
  · rw [get_append s w hnone] at hfound
    split at hfound
    · rename_i hid
      cases hfound
      exact ⟨hw, hid.symm⟩
    · exact h.used id found hfound
  · have : ¬s.limit ≤ s.m.length := fun hle => hroom ⟨hlimit, hle⟩
    rw [List.length_append]
    exact Nat.succ_le_of_lt (Nat.lt_of_not_le this)
  · rw [get_append s w hnone, if_neg, hold]
    rintro rfl
    rw [hnone] at hold
    cases hold

/-- `put` leaves every id its object, and the wrapper's object under its id. -/
theorem put_sound (hU : ToldApart U) (h : s.Sound U) (hw : U w) {onlyIfAbsent : Bool}
    (hput : s.put w onlyIfAbsent = .ok s') : s'.Sound U ∧ s.Keeps s' ∧
      ∃ w', s'.get w.id = some w' ∧ w'.identity = w.identity ∧ w'.isInstance = w.isInstance := by
  unfold InstanceStore.put at hput
  split at hput
  · rename_i old hold
    obtain ⟨hUold, hid⟩ := h.used _ old hold
    split at hput
    · cases hput
    -- `put` takes the two for one object, and as they share an id they are
    · rename_i hsame
      have hsame : old.identity = w.identity ∧ old.isInstance = w.isInstance :=
        hU old w hUold hw hid (by simpa using hsame)
      split at hput
      · cases hput
        exact ⟨h, .refl s, old, hold, hsame⟩
      · cases hput
        obtain ⟨hsound, hkeeps⟩ := replace_sound h hw fun found hfound => by
          obtain rfl := Option.some.inj (hold.symm.trans hfound)
          exact ⟨hsame.1.symm, hsame.2.symm⟩
        exact ⟨hsound, hkeeps, w, by rw [get_replace, hold]; simp, rfl, rfl⟩
  · rename_i hnone
    split at hput
    · cases hput
    rename_i hroom
    cases hput
    obtain ⟨hsound, hkeeps⟩ := append_sound h hw hnone hroom
    exact ⟨hsound, hkeeps, w, by rw [get_append s w hnone, if_pos rfl], rfl, rfl⟩

/-! ## What preparing does -/

/-- A prepared value gives its objects back from the store as it is or will be. -/
def GivesBack (v : HostValue) (m : Marker) (s : InstanceStore) : Prop :=
  ∀ s', s.Keeps s' → ∀ path ci, v.at path = some (.classInstance ci) →
    (restoreValue s' m).at path = some (.object ci.instance_)

theorem GivesBack.mono {v : HostValue} {m : Marker} (h : GivesBack v m s) (hkeeps : s.Keeps s') :
    GivesBack v m s' := fun s'' hkeeps' => h s'' (hkeeps.trans hkeeps')

theorem restoreItems_getElem? (s : InstanceStore) (ms : List Marker) (i : ℕ) :
    (restoreItems s ms)[i]? = ms[i]?.map (restoreValue s) := by
  induction ms generalizing i with
  | nil => rfl
  | cons m ms ih =>
    cases i with
    | zero => rfl
    | succ i => simpa [restoreItems] using ih i

theorem givesBack_items {kind : Container} {children : List HostValue} {ms : List Marker}
    (h : List.Forall₂ (fun v m => GivesBack v m s) children ms) :
    GivesBack (.items kind children) (.items kind ms) s := by
  intro s' hkeeps path ci hat
  cases path with
  | nil => cases hat
  | cons i path =>
    obtain ⟨v, hv, hat⟩ := Option.bind_eq_some_iff.mp hat
    obtain ⟨hi, rfl⟩ := List.getElem?_eq_some_iff.mp hv
    have hi' : i < ms.length := h.length_eq ▸ hi
    show (restoreItems s' ms)[i]?.bind (Restored.at path) = _
    rw [restoreItems_getElem?, List.getElem?_eq_getElem hi']
    exact h.get hi hi' s' hkeeps path ci hat

section Walks

variable {attrs : Attributes}

/-- What every step of a preparation keeps. -/
abbrev Ends (U : Wrapper → Prop) {α : Type} (x : Walk α) (h : Host) (Q : α → Host → Prop) : Prop :=
  Leads (fun h => h.store.Sound U) (fun h h' => h.store.Keeps h'.store) x h Q

theorem Ends.bind {α β : Type} {x : Walk α} {f : α → Walk β} {h : Host} {Q : α → Host → Prop}
    {Q' : β → Host → Prop} (hx : Ends U x h Q)
    (hf : ∀ a h₁, h₁.store.Sound U → h.store.Keeps h₁.store → Q a h₁ → Ends U (f a) h₁ Q') :
    Ends U (x >>= f) h Q' :=
  Leads.bind (fun hab hbc => hab.trans hbc) hx hf

/-- The wrapper's object is in the store. -/
def Stored (w : Wrapper) (s : InstanceStore) : Prop :=
  ∃ w', s.get w.id = some w' ∧ w'.identity = w.identity ∧ w'.isInstance = w.isInstance

theorem Stored.mono (h : Stored w s) (hkeeps : s.Keeps s') : Stored w s' := by
  obtain ⟨w', hw', hidentity, hkind⟩ := h
  obtain ⟨w'', hw'', hidentity', hkind'⟩ := hkeeps _ w' hw'
  exact ⟨w'', hw'', hidentity'.trans hidentity, hkind'.trans hkind⟩

variable {h : Host}

theorem ends_put (hU : ToldApart U) (hw : U w) (onlyIfAbsent : Bool) (hs : h.store.Sound U) :
    Ends U (putWrapper w onlyIfAbsent) h fun _ h' => Stored w h'.store := by
  cases hput : h.store.put w onlyIfAbsent with
  | error e =>
    have heq : putWrapper w onlyIfAbsent h = .error e h := by simp [putWrapper, hput]
    unfold Ends Leads
    rw [heq]
    exact ⟨hs, .refl _, fun _ _ h => by cases h⟩
  | ok store =>
    have heq : putWrapper w onlyIfAbsent h = .ok () { h with store } := by simp [putWrapper, hput]
    obtain ⟨hsound, hkeeps, hstored⟩ := put_sound hU hs hw hput
    unfold Ends Leads
    rw [heq]
    refine ⟨hsound, hkeeps, fun _ h' hh => ?_⟩
    cases hh
    exact hstored

theorem ends_eagerAttrs (hattrs : attrs.Use U) (hs : h.store.Sound U) :
    Ends U (eagerAttrs attrs w) h fun pairs _ => ∀ pair ∈ pairs, pair.2.Uses U := by
  cases hread : attrs h.reads w with
  | error e =>
    have heq : eagerAttrs attrs w h = .error e { h with reads := h.reads + 1 } := by
      simp [eagerAttrs, hread]
    unfold Ends Leads
    rw [heq]
    exact ⟨hs, .refl _, fun _ _ h => by cases h⟩
  | ok pairs =>
    have heq : eagerAttrs attrs w h = .ok pairs { h with reads := h.reads + 1 } := by
      simp [eagerAttrs, hread]
    unfold Ends Leads
    rw [heq]
    refine ⟨hs, .refl _, fun _ h' hh => ?_⟩
    cases hh
    exact hattrs _ _ _ hread

/-- What walking a value ends in. -/
def Walks (U : Wrapper → Prop) (walk : HostValue → Walk Marker) : Prop :=
  ∀ v h, v.Uses U → h.store.Sound U → Ends U (walk v) h fun m h' => GivesBack v m h'.store

variable {walk : HostValue → Walk Marker}

theorem ends_walkAll (hwalk : Walks U walk) {items : List HostValue}
    (huses : ∀ v ∈ items, v.Uses U) (hs : h.store.Sound U) :
    Ends U (walkAll walk items) h fun ms h' =>
      List.Forall₂ (fun v m => GivesBack v m h'.store) items ms := by
  induction items generalizing h with
  | nil => exact leads_pure hs (.refl _) .nil
  | cons v items ih =>
    refine (hwalk v h (huses v List.mem_cons_self) hs).bind fun m h₁ hs₁ _ hm => ?_
    refine (ih (fun v hv => huses v (List.mem_cons_of_mem _ hv)) hs₁).bind
      fun ms h₂ hs₂ hkeeps hms => ?_
    exact leads_pure hs₂ (.refl _) (.cons (hm.mono hkeeps) hms)

theorem ends_walkAttrs (hwalk : Walks U walk) {pairs : List (GoString × HostValue)}
    (huses : ∀ pair ∈ pairs, pair.2.Uses U) (hs : h.store.Sound U) :
    Ends U (walkAttrs walk pairs) h fun _ _ => True := by
  refine (ends_walkAll hwalk (fun v hv => ?_) hs).bind fun ms h₁ hs₁ _ _ =>
    leads_pure hs₁ (.refl _) trivial
  obtain ⟨pair, hpair, rfl⟩ := List.mem_map.mp hv
  exact huses pair hpair

theorem ends_classTypeMarker (hattrs : attrs.Use U) (hwalk : Walks U walk) {c : ClassType}
    (hs : h.store.Sound U) : Ends U (classTypeMarker attrs walk c) h fun _ _ => True := by
  refine (ends_eagerAttrs hattrs hs).bind fun pairs h₁ hs₁ _ hpairs => ?_
  refine (ends_walkAttrs hwalk hpairs hs₁).bind fun _ h₂ hs₂ _ _ => ?_
  exact leads_pure hs₂ (.refl _) trivial

theorem ends_instanceMarker (hU : ToldApart U) (hattrs : attrs.Use U) (hwalk : Walks U walk)
    {ci : ClassInstance} (huses : (HostValue.classInstance ci).Uses U) (hs : h.store.Sound U) :
    Ends U (instanceMarker attrs walk ci) h fun m h' =>
      GivesBack (.classInstance ci) m h'.store := by
  obtain ⟨hci, hc⟩ : U (.classInstance ci) ∧ U (.classType ci.classType) := by
    cases huses with
    | classInstance hci hc => exact ⟨hci, hc⟩
  refine (ends_put hU hci false hs).bind fun _ h₁ hs₁ _ hstored => ?_
  refine (ends_eagerAttrs hattrs hs₁).bind fun pairs h₂ hs₂ hkeeps₂ hpairs => ?_
  refine (ends_walkAttrs hwalk hpairs hs₂).bind fun ms h₃ hs₃ hkeeps₃ _ => ?_
  refine (ends_put hU hc true hs₃).bind fun _ h₄ hs₄ hkeeps₄ _ => ?_
  refine (ends_classTypeMarker hattrs hwalk hs₄).bind fun _ h₅ hs₅ hkeeps₅ _ => ?_
  refine leads_pure hs₅ (.refl _) fun s' hkeeps path found hat => ?_
  -- The instance was stored first; its attributes and its class were prepared after it.
  have hthere : Stored (.classInstance ci) s' :=
    hstored.mono ((((hkeeps₂.trans hkeeps₃).trans hkeeps₄).trans hkeeps₅).trans hkeeps)
  cases path with
  | cons => cases hat
  | nil =>
    cases hat
    obtain ⟨w', hw', hidentity, hkind⟩ := hthere
    cases w' with
    | classType => cases hkind
    | classInstance ci' =>
      have hget : s'.get ci.id = some (.classInstance ci') := hw'
      rw [restoreValue, hget]
      exact congrArg (fun o => some (Restored.object o)) hidentity

theorem walks_prepareLevel (hU : ToldApart U) (hattrs : attrs.Use U) (n : ℕ) :
    Walks U (prepareLevel attrs n) := by
  -- on the depth that is left: the attributes of a wrapper are not part of the value it is in
  induction n with
  | zero => exact fun v h _ hs => leads_throw hs (.refl _)
  | succ n ih =>
    intro v h huses hs
    have hother : ∀ {v : HostValue} {m : Marker} {s : InstanceStore},
        (∀ path ci, v.at path ≠ some (.classInstance ci)) → GivesBack v m s :=
      fun hnone _ _ path ci hat => absurd hat (hnone path ci)
    cases huses with
    | scalar x =>
      refine leads_pure hs (.refl _) (hother fun path ci => ?_)
      cases path <;> simp [HostValue.at]
    | items kind hchildren =>
      refine (ends_walkAll ih hchildren hs).bind fun ms h₁ hs₁ _ hms => ?_
      exact leads_pure hs₁ (.refl _) (givesBack_items hms)
    | classInstance hci hc => exact ends_instanceMarker hU hattrs ih (.classInstance hci hc) hs
    | @classType c hc =>
      refine (ends_put hU hc false hs).bind fun _ h₁ hs₁ _ _ => ?_
      obtain ⟨hI, hR, -⟩ := ends_classTypeMarker hattrs ih (c := c) hs₁
      refine ⟨hI, hR, fun m h' _ => hother fun path ci => ?_⟩
      cases path <;> simp [HostValue.at]
    | proxy id hpairs =>
      refine (ends_walkAttrs ih hpairs hs).bind fun ms h₁ hs₁ _ _ => ?_
      refine leads_pure hs₁ (.refl _) (hother fun path ci => ?_)
      cases path <;> simp [HostValue.at]

end Walks

/-! ## Every run -/

/-- What is called on a store. -/
inductive StoreCall where
  | prepareValue (v : HostValue)
  | restoreValue (m : Marker)
  /-- One object of `Register`. -/
  | register (w : Wrapper)

def StoreCall.Uses (U : Wrapper → Prop) : StoreCall → Prop
  | .prepareValue v => v.Uses U
  | .restoreValue _ => True
  | .register w => U w

/-- A host, and what it prepared. -/
structure Session where
  host : Host
  prepared : List (HostValue × Marker) := []

def Session.step (attrs : Attributes) (r : Session) : StoreCall → Except Unit Session
  | .prepareValue v =>
    match prepareHostValue attrs v r.host with
    | .ok m host => .ok { host, prepared := (v, m) :: r.prepared }
    | .error _ host => .ok { r with host }
  | .restoreValue _ => .ok r
  | .register w => .ok { r with host := final (putWrapper w true r.host) }

structure Session.Sound (U : Wrapper → Prop) (r : Session) : Prop where
  store : r.host.store.Sound U
  prepared : ∀ p ∈ r.prepared, GivesBack p.1 p.2 r.host.store

variable {attrs : Attributes} {r r' : Session} {call : StoreCall}

theorem Session.Sound.step (hU : ToldApart U) (hattrs : attrs.Use U) (h : r.Sound U)
    (huses : call.Uses U) (hstep : r.step attrs call = .ok r') :
    r'.Sound U ∧ r.host.store.Keeps r'.host.store := by
  cases call with
  | restoreValue m =>
    cases hstep
    exact ⟨h, .refl _⟩
  | register w =>
    cases hstep
    obtain ⟨hsound, hkeeps, -⟩ := ends_put hU huses true h.store
    exact ⟨⟨hsound, fun p hp => (h.prepared p hp).mono hkeeps⟩, hkeeps⟩
  | prepareValue v =>
    obtain ⟨hsound, hkeeps, hback⟩ := walks_prepareLevel hU hattrs 49 v r.host huses h.store
    simp only [Session.step, prepareHostValue] at hstep
    split at hstep
    · rename_i m host heq
      cases hstep
      rw [heq] at hsound hkeeps
      refine ⟨⟨hsound, fun p hp => ?_⟩, hkeeps⟩
      rcases List.mem_cons.mp hp with rfl | hp
      · exact hback m host heq
      · exact (h.prepared p hp).mono hkeeps
    -- a failed call keeps what it stored before it failed
    · rename_i e host heq
      cases hstep
      rw [heq] at hsound hkeeps
      exact ⟨⟨hsound, fun p hp => (h.prepared p hp).mono hkeeps⟩, hkeeps⟩

end Montygo.Sandbox
