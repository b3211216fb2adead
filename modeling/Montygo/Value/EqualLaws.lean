import Montygo.Value.PyEqual

/-!
# The comparison of values computes Python equality

`Equal` looks for every item of one set among the items of the other, and for every key of one
dict in the other, and compares lengths: that is enough where no set has two equal items and no
dict two equal keys, which the constructors see to and the wire does not.  The type switch takes a
tuple for a named tuple, but no named tuple for a tuple.

So there are three ways for one value to equal another that does not equal it (`Clash`).  A family
of values that has with a value all values in it is one on which `Equal` is symmetric and transitive
exactly when no two of its values clash; there `Equal` is Python equality.
-/

namespace Montygo.Value

open Go Wire Matching

/-! ## What the loops compute -/

section Loops

variable {eq eq' : Object → Object → Bool} {xs ys : List Object} {ps qs : List (Object × Object)}
  {k v : Object}

theorem seqEqual_iff :
    seqEqual eq xs ys = true ↔ List.Forall₂ (fun x y => eq x y = true) xs ys := by
  simp only [seqEqual, List.forall₂_iff_zip]
  split
  · next h => simp [h]
  rename_i h
  simp only [not_not] at h
  simp [h, Prod.forall]

theorem setsEqual_iff : setsEqual eq xs ys = true ↔
      xs.length = ys.length ∧ ∀ x ∈ xs, ∃ y ∈ ys, eq y x = true := by
  simp only [setsEqual, containsEqual]
  split
  · next h => simp [h]
  rename_i h
  simp only [not_not] at h
  simp [h]

theorem dictEqual_iff : dictEqual eq ps qs = true ↔
      ps.length = qs.length ∧ ∀ p ∈ ps, ∃ v, dictGet eq qs p.1 = some v ∧ eq p.2 v = true := by
  simp only [dictEqual]
  split
  · next h => simp [h]
  rename_i h
  simp only [not_not] at h
  simp only [h, List.all_eq_true, true_and]
  refine forall₂_congr fun p _ => ?_
  cases dictGet eq qs p.1 <;> simp

theorem mem_of_dictGet (h : dictGet eq ps k = some v) : ∃ p ∈ ps, eq p.1 k = true ∧ p.2 = v := by
  obtain ⟨p, hfind, rfl⟩ := Option.map_eq_some_iff.mp h
  exact ⟨p, List.mem_of_find?_eq_some hfind, by simpa using List.find?_some hfind, rfl⟩

theorem dictGet_congr (h : ∀ p ∈ ps, eq p.1 k = eq' p.1 k) :
    dictGet eq ps k = dictGet eq' ps k := by
  simp only [dictGet, List.find?_congr h]

end Loops

/-! ## `Equal` unfolds to its body -/

section Body

variable {eq eq' : Object → Object → Bool} {same : Bool} {s t : Shape}

theorem seqEqual_congr {xs ys : List Object} (h : ∀ x y, (x, y) ∈ xs.zip ys → eq x y = eq' x y) :
    seqEqual eq xs ys = seqEqual eq' xs ys := by
  rw [Bool.eq_iff_iff, seqEqual_iff, seqEqual_iff, List.forall₂_iff_zip, List.forall₂_iff_zip]
  refine and_congr_right fun _ => ⟨fun hall x y hxy => ?_, fun hall x y hxy => ?_⟩
  · rw [← h x y hxy]
    exact hall hxy
  · rw [h x y hxy]
    exact hall hxy

theorem setsEqual_congr {xs ys : List Object} (h : ∀ x ∈ xs, ∀ y ∈ ys, eq y x = eq' y x) :
    setsEqual eq xs ys = setsEqual eq' xs ys := by
  rw [Bool.eq_iff_iff, setsEqual_iff, setsEqual_iff]
  refine and_congr_right fun _ => forall₂_congr fun x hx => ?_
  refine exists_congr fun y => and_congr_right fun hy => ?_
  rw [h x hx y hy]

theorem dictEqual_congr {ps qs : List (Object × Object)}
    (hkey : ∀ p ∈ ps, ∀ q ∈ qs, eq q.1 p.1 = eq' q.1 p.1)
    (hvalue : ∀ p ∈ ps, ∀ q ∈ qs, eq p.2 q.2 = eq' p.2 q.2) :
    dictEqual eq ps qs = dictEqual eq' ps qs := by
  rw [Bool.eq_iff_iff, dictEqual_iff, dictEqual_iff]
  refine and_congr_right fun _ => forall₂_congr fun p hp => ?_
  rw [dictGet_congr (hkey p hp)]
  refine exists_congr fun v => and_congr_right fun hv => ?_
  obtain ⟨q, hq, -, rfl⟩ := mem_of_dictGet hv
  rw [hvalue p hp q hq]

theorem switchEqual_congr
    (h : ∀ x y, Opposed s.view t.view x y → eq x y = eq' x y ∧ eq y x = eq' y x) :
    switchEqual eq same s t = switchEqual eq' same s t := by
  cases s <;> cases t <;> simp only [switchEqual] <;> simp only [Shape.view, Opposed] at h
  case list.list | tuple.tuple | namedTuple.tuple | namedTuple.namedTuple =>
      exact seqEqual_congr fun x y hxy => (h x y hxy).1
  case set.set | set.frozenSet | frozenSet.set | frozenSet.frozenSet =>
      exact setsEqual_congr fun x hx y hy => (h x y ⟨hx, hy⟩).2
  case dict.dict ps qs =>
      exact dictEqual_congr (fun p hp q hq => (h p.1 q.1 ⟨p, hp, q, hq, .inl ⟨rfl, rfl⟩⟩).2)
        (fun p hp q hq => (h p.2 q.2 ⟨p, hp, q, hq, .inr ⟨rfl, rfl⟩⟩).1)

end Body

theorem equalBody_local {same : Object → Object → Bool} : Local (equalBody same) := by
  intro eq eq' a b h
  simp only [equalBody]
  split
  · rfl
  · rfl
  · rfl
  · exact switchEqual_congr h

/-- **`Equal` calls itself as the source does.** -/
theorem equal_eq (same : Object → Object → Bool) (a b : Object) :
    equal same a b = equalBody same (equal same) a b :=
  nested_fix equalBody_local a b

/-! ## One comparison, as Python would make it of the parts -/

section Forward

variable {eq : Object → Object → Bool} {E : Object → Object → Prop} {same same' : Bool} {s t : Shape}

/-- What the type switch asks for, where the values inside compare by `E`. -/
def Forward (E : Object → Object → Prop) (same : Bool) : Shape → Shape → Prop
  | .nothing, .nothing => True
  | .str x, .str y => x = y
  | .bytes x, .bytes y => x = y
  | .list x, .list y | .tuple x, .tuple y | .namedTuple x, .namedTuple y
  | .namedTuple x, .tuple y => List.Forall₂ E x y
  | .dict x, .dict y => x.length = y.length ∧ Within E x y
  | .set x, .set y | .set x, .frozenSet y | .frozenSet x, .set y | .frozenSet x, .frozenSet y =>
    x.length = y.length ∧ ∀ a ∈ x, ∃ b ∈ y, E b a
  | .other, .other => same = true
  | _, _ => False

theorem found_iff_dictGet {qs : List (Object × Object)} {k v : Object}
    (hE : ∀ q ∈ qs, eq q.1 k = true ↔ E q.1 k) :
    dictGet eq qs k = some v ↔ ∃ q, Found E qs k q ∧ q.2 = v := by
  rw [dictGet, Option.map_eq_some_iff]
  refine exists_congr fun q => and_congr_left fun _ => ?_
  rw [List.find?_eq_some_iff_append]
  constructor
  · rintro ⟨hq, before, after, rfl, hbefore⟩
    refine ⟨before, after, rfl, (hE q (by simp)).mp hq, fun q' hq' hmatch => ?_⟩
    have hno := hbefore q' hq'
    rw [(hE q' (List.mem_append_left _ hq')).mpr hmatch] at hno
    cases hno
  · rintro ⟨before, after, rfl, hq, hbefore⟩
    refine ⟨(hE q (by simp)).mpr hq, before, after, rfl, fun q' hq' => ?_⟩
    rw [Bool.not_eq_true', ← Bool.not_eq_true, hE q' (List.mem_append_left _ hq')]
    exact hbefore q' hq'

theorem dictEqual_iff_within {ps qs : List (Object × Object)}
    (hkey : ∀ p ∈ ps, ∀ q ∈ qs, eq q.1 p.1 = true ↔ E q.1 p.1)
    (hvalue : ∀ p ∈ ps, ∀ q ∈ qs, eq p.2 q.2 = true ↔ E p.2 q.2) :
    dictEqual eq ps qs = true ↔ ps.length = qs.length ∧ Within E ps qs := by
  rw [dictEqual_iff]
  refine and_congr_right fun _ => forall₂_congr fun p hp => ?_
  simp only [found_iff_dictGet (hkey p hp)]
  constructor
  · rintro ⟨_, ⟨q, hfound, rfl⟩, hv⟩
    exact ⟨q, hfound, (hvalue p hp q hfound.mem).mp hv⟩
  · rintro ⟨q, hfound, hv⟩
    exact ⟨q.2, ⟨q, hfound, rfl⟩, (hvalue p hp q hfound.mem).mpr hv⟩

theorem switchEqual_iff_forward
    (hE : ∀ x y, Opposed s.view t.view x y → (eq x y = true ↔ E x y) ∧ (eq y x = true ↔ E y x)) :
    switchEqual eq same s t = true ↔ Forward E same s t := by
  cases s <;> cases t <;> simp only [switchEqual, Forward, Bool.false_eq_true] <;>
    simp only [Shape.view, Opposed] at hE
  case str.str | bytes.bytes => exact beq_iff_eq
  case list.list | tuple.tuple | namedTuple.namedTuple | namedTuple.tuple =>
      rw [seqEqual_iff, List.forall₂_iff_zip, List.forall₂_iff_zip]
      exact and_congr_right fun _ => ⟨fun h _ _ hxy => (hE _ _ hxy).1.mp (h hxy),
        fun h _ _ hxy => (hE _ _ hxy).1.mpr (h hxy)⟩
  case set.set | set.frozenSet | frozenSet.set | frozenSet.frozenSet =>
      rw [setsEqual_iff]
      refine and_congr_right fun _ => forall₂_congr fun x hx => exists_congr fun y =>
        and_congr_right fun hy => (hE x y ⟨hx, hy⟩).2
  case dict.dict =>
      exact dictEqual_iff_within (fun p hp q hq => (hE p.1 q.1 ⟨p, hp, q, hq, .inl ⟨rfl, rfl⟩⟩).2)
        (fun p hp q hq => (hE p.2 q.2 ⟨p, hp, q, hq, .inr ⟨rfl, rfl⟩⟩).1)

/-- **What the switch asks for is equality where it asks for the same both ways.** -/
theorem viewEq_iff_forward (hsymm : ∀ x y, E x y → E y x)
    (hfair : Forward E same s t ↔ Forward E same' t s) :
    ViewEq E same s.view t.view ↔ Forward E same s t := by
  cases s <;> cases t <;> simp only [Forward, Shape.view, ViewEq] at hfair ⊢
  case tuple.namedTuple xs ys =>
      exact iff_false_intro fun h => hfair.mpr (h.flip.imp fun x y => hsymm y x)
  case set.set | set.frozenSet | frozenSet.set | frozenSet.frozenSet =>
      refine ⟨fun h => ⟨h.1, fun x hx => ?_⟩, fun h => ⟨h.1, fun x hx => ?_, fun y hy => ?_⟩⟩
      · obtain ⟨y, hy, hxy⟩ := h.2.1 x hx
        exact ⟨y, hy, hsymm _ _ hxy⟩
      · obtain ⟨y, hy, hyx⟩ := h.2 x hx
        exact ⟨y, hy, hsymm _ _ hyx⟩
      · exact (hfair.mp h).2 y hy
  case dict.dict => exact ⟨fun h => ⟨h.1, h.2.1⟩, fun h => ⟨h.1, h.2, (hfair.mp h).2⟩⟩

/-! ## Values that clash -/

/-- **Where one value equals another that does not equal it**: a named tuple and the tuple of its
values; two sets of one size, the items of the first among those of the second, and not the other
way round; the same with the entries of two dicts. -/
def Clash (E : Object → Object → Prop) : Shape → Shape → Prop
  | .namedTuple x, .tuple y => List.Forall₂ E x y
  | .set x, .set y | .set x, .frozenSet y | .frozenSet x, .set y | .frozenSet x, .frozenSet y =>
    x.length = y.length ∧ (∀ a ∈ x, ∃ b ∈ y, E b a) ∧ ¬ ∀ b ∈ y, ∃ a ∈ x, E a b
  | .dict x, .dict y => x.length = y.length ∧ Within E x y ∧ ¬ Within E y x
  | _, _ => False

theorem clash_iff (hsymm : ∀ x y, E x y → E y x) (hsame : same = true → same' = true) :
    Clash E s t ↔ Forward E same s t ∧ ¬ Forward E same' t s := by
  have hflip : ∀ {xs ys : List Object}, List.Forall₂ E xs ys → List.Forall₂ E ys xs :=
    fun h => h.flip.imp fun x y => hsymm y x
  cases s <;> cases t <;> simp only [Clash, Forward] <;> grind

end Forward


/-- The value is no NaN. -/
def Object.IsNoNaN (v : Object) : Prop := ∀ x, asNumber v = some x → x.NoNaN

section Equal

variable {same : Object → Object → Bool} {a b c : Object}

/-- The values in a value that a comparison goes into. -/
def View.items : View → List Object
  | .list items | .tuple items | .set items => items
  | .dict pairs => pairObjects pairs
  | .nothing | .str _ | .bytes _ | .other => []

theorem items_subset_children : a.view.items ⊆ a.children := by
  cases a <;> simp [Object.view, Object.shape, Shape.view, View.items, Object.children]

theorem Opposed.mem_items {s t : View} {x y : Object} (h : Opposed s t x y) :
    x ∈ s.items ∧ y ∈ t.items := by
  cases s <;> cases t <;> simp only [Opposed] at h
  case list.list | tuple.tuple => exact List.of_mem_zip h
  case set.set => exact h
  case dict.dict =>
      obtain ⟨p, hp, q, hq, ⟨rfl, rfl⟩ | ⟨rfl, rfl⟩⟩ := h
      all_goals exact ⟨List.mem_flatMap.mpr ⟨p, hp, by simp⟩, List.mem_flatMap.mpr ⟨q, hq, by simp⟩⟩

theorem Opposed.mem_children {x y : Object} (h : Opposed a.view b.view x y) :
    x ∈ a.children ∧ y ∈ b.children :=
  ⟨items_subset_children h.mem_items.1, items_subset_children h.mem_items.2⟩

/-! ## Families of values -/

/-- A family of values without NaN that has with a value the values in it. -/
structure Family (S : Set Object) : Prop where
  noNaN : ∀ a ∈ S, a.IsNoNaN
  inside : ∀ a ∈ S, ∀ c ∈ a.children, c ∈ S

/-- `Equal` is Python equality on what the comparison of two values goes into. -/
def Agree (same : Object → Object → Bool) (a b : Object) : Prop :=
  ∀ x y, Opposed a.view b.view x y →
    (equal same x y = true ↔ PyEqual same x y) ∧ (equal same y x = true ↔ PyEqual same y x)

/-- The type switch asks for the same both ways. -/
def Fair (same : Object → Object → Bool) (a b : Object) : Prop :=
  Forward (PyEqual same) (same a b) a.shape b.shape ↔
    Forward (PyEqual same) (same b a) b.shape a.shape

theorem Agree.symm (h : Agree same a b) : Agree same b a := fun x y hxy => (h y x hxy.swap).symm

theorem equal_iff_forward (ha : asNumber a = none) (hb : asNumber b = none)
    (h : Agree same a b) :
    equal same a b = true ↔ Forward (PyEqual same) (same a b) a.shape b.shape := by
  rw [equal_eq]
  simp only [equalBody, ha, hb]
  exact switchEqual_iff_forward h

theorem shape_of_asNumber {x : Number} (h : asNumber a = some x) : a.shape = .other := by
  cases a <;> simp_all [asNumber, Object.shape]

variable {S : Set Object} (hsame : IsComparison same) (hS : Family S)
include hsame hS

/-- **`Equal` decides Python equality** on a family on which the type switch is fair wherever it is
right about the values inside. -/
theorem equal_iff_pyEqual (hfair : ∀ a ∈ S, ∀ b ∈ S, Agree same a b → Fair same a b)
    (ha : a ∈ S) (hb : b ∈ S) : equal same a b = true ↔ PyEqual same a b := by
  induction hn : a.size + b.size using Nat.strong_induction_on generalizing a b with
  | _ n ih =>
  have hbelow : Agree same a b := by
    intro x y hxy
    have hlt := hxy.size_lt
    have hx := hS.inside a ha x hxy.mem_children.1
    have hy := hS.inside b hb y hxy.mem_children.2
    exact ⟨ih _ (by omega) hx hy rfl, ih _ (by omega) hy hx rfl⟩
  rw [pyEqual_iff]
  cases hka : asNumber a with
  | none =>
    cases hkb : asNumber b with
    | none =>
      rw [equal_iff_forward hka hkb hbelow]
      simp only [pyEqualBody, hka, hkb]
      exact (viewEq_iff_forward (fun _ _ => PyEqual.symm hsame) (hfair a ha b hb hbelow)).symm
    | some y => simp [equal_eq, equalBody, pyEqualBody, hka, hkb]
  | some x =>
    cases hkb : asNumber b with
    | none => simp [equal_eq, equalBody, pyEqualBody, hka, hkb]
    | some y =>
      rw [equal_eq]
      simp only [equalBody, pyEqualBody, hka, hkb]
      exact numbersEqual_iff (hS.noNaN a ha x hka) (hS.noNaN b hb y hkb)

omit hS in
theorem fair_of_not_clash (hab : ¬ Clash (PyEqual same) a.shape b.shape)
    (hba : ¬ Clash (PyEqual same) b.shape a.shape) : Fair same a b := by
  have hsymm : ∀ x y, PyEqual same x y → PyEqual same y x := fun _ _ => PyEqual.symm hsame
  rw [clash_iff hsymm (hsame.symm a b), not_and, not_not] at hab
  rw [clash_iff hsymm (hsame.symm b a), not_and, not_not] at hba
  exact ⟨hab, hba⟩

omit hS in
theorem fair_of_symm (hsymm : ∀ a ∈ S, ∀ b ∈ S, equal same a b = equal same b a) (ha : a ∈ S)
    (hb : b ∈ S) (hbelow : Agree same a b) : Fair same a b := by
  cases hka : asNumber a with
  | none =>
    cases hkb : asNumber b with
    | none =>
      rw [Fair, ← equal_iff_forward hka hkb hbelow, ← equal_iff_forward hkb hka hbelow.symm,
        hsymm a ha b hb]
    | some y =>
      rw [Fair, shape_of_asNumber hkb]
      cases a.shape <;> simp only [Forward]
      exact ⟨hsame.symm a b, hsame.symm b a⟩
  | some x =>
    rw [Fair, shape_of_asNumber hka]
    cases b.shape <;> simp only [Forward]
    exact ⟨hsame.symm a b, hsame.symm b a⟩

/-- **Equality of values is symmetric and transitive, and a lookup may compare either way**, on a
family of values exactly when no two of them clash. -/
theorem equal_symm_trans_iff :
    ((∀ a ∈ S, ∀ b ∈ S, equal same a b = equal same b a) ∧
      (∀ a ∈ S, ∀ b ∈ S, ∀ c ∈ S,
        equal same a b = true → equal same b c = true → equal same a c = true) ∧
      ∀ a ∈ S, ∀ pairs : List (Object × Object), (∀ p ∈ pairs, p.1 ∈ S) →
        dictGet (equal same) pairs a = dictGet (fun stored k => equal same k stored) pairs a) ↔
    ∀ a ∈ S, ∀ b ∈ S, ¬ Clash (PyEqual same) a.shape b.shape := by
  constructor
  · rintro ⟨hsymm, -, -⟩ a ha b hb hclash
    have hall : ∀ {a b}, a ∈ S → b ∈ S → (equal same a b = true ↔ PyEqual same a b) :=
      fun ha hb => equal_iff_pyEqual hsame hS (fun _ ha _ hb => fair_of_symm hsame hsymm ha hb)
        ha hb
    have hbelow : Agree same a b := fun x y hxy =>
      have hx := hS.inside a ha x hxy.mem_children.1
      have hy := hS.inside b hb y hxy.mem_children.2
      ⟨hall hx hy, hall hy hx⟩
    -- a clash is the opposite of fairness
    rw [clash_iff (fun _ _ => PyEqual.symm hsame) (hsame.symm a b)] at hclash
    exact hclash.2 ((fair_of_symm hsame hsymm ha hb hbelow).mp hclash.1)
  · intro hclash
    have hall : ∀ {a b}, a ∈ S → b ∈ S → (equal same a b = true ↔ PyEqual same a b) :=
      fun ha hb => equal_iff_pyEqual hsame hS (fun a ha b hb _ =>
        fair_of_not_clash hsame (hclash a ha b hb) (hclash b hb a ha)) ha hb
    have hsymm : ∀ a ∈ S, ∀ b ∈ S, equal same a b = equal same b a := by
      intro a ha b hb
      rw [Bool.eq_iff_iff, hall ha hb, hall hb ha]
      exact ⟨PyEqual.symm hsame, PyEqual.symm hsame⟩
    refine ⟨hsymm, fun a ha b hb c hc h h' => ?_, fun a ha pairs hpairs => ?_⟩
    · rw [hall ha hb] at h
      rw [hall hb hc] at h'
      rw [hall ha hc]
      exact h.trans hsame h'
    · exact dictGet_congr fun p hp => hsymm p.1 (hpairs p hp) a ha

end Equal

/-! ## Values that show both sides -/

/-- A comparison for values that the type switch all names. -/
def noOther : Object → Object → Bool := fun _ _ => false

theorem noOther_isComparison : IsComparison noOther :=
  ⟨fun _ _ h => (Bool.false_ne_true h).elim, fun _ _ _ h => (Bool.false_ne_true h).elim⟩

def integer (x : Int64) : Object := .integer (.int64 x)

theorem integer_noNaN (x : Int64) : (integer x).All Object.IsNoNaN := by
  refine .mk ?_ (by simp [integer, Object.children])
  rintro number ⟨⟩
  trivial

theorem pyEqual_integer {x y : Int64} : PyEqual noOther (integer x) (integer y) ↔ x = y := by
  rw [pyEqual_iff]
  simp [pyEqualBody, integer, asNumber, Number.quantity, Int64.toInt_inj]

theorem noNaN_of_integers {v : Object} (hnumber : asNumber v = none)
    (h : ∀ c ∈ v.children, ∃ x, c = integer x) : v.All Object.IsNoNaN := by
  refine .mk (fun x hx => ?_) fun c hc => ?_
  · rw [hnumber] at hx
    cases hx
  · obtain ⟨x, rfl⟩ := h c hc
    exact integer_noNaN x

/-- Two sets with the same items, and a tuple and a named tuple that differ. -/
def sample : List Object :=
  [.set [integer 1, integer 2], .frozenSet [integer 2, integer 1], .tuple [integer 1, integer 2],
    .namedTuple [80] [[120], [121]] [integer 2, integer 1], integer 1, integer 2]

theorem family_sample : Family {a | a ∈ sample} where
  noNaN a ha := by
    simp only [sample, Set.mem_ofPred_eq, List.mem_cons, List.not_mem_nil, or_false] at ha
    obtain rfl | rfl | rfl | rfl | rfl | rfl := ha
    case inr.inr.inr.inr.inl | inr.inr.inr.inr.inr =>
      rintro number ⟨⟩
      trivial
    all_goals
      intro x hx
      cases hx
  inside a ha c hc := by
    simp only [sample, Set.mem_ofPred_eq, List.mem_cons, List.not_mem_nil, or_false] at ha
    obtain rfl | rfl | rfl | rfl | rfl | rfl := ha <;>
      simp only [integer, Object.children, List.mem_cons, List.not_mem_nil, or_false] at hc
    all_goals obtain rfl | rfl := hc <;> simp [sample, integer]

theorem equal_symm_trans_sample : (∀ a ∈ sample, ∀ b ∈ sample,
      equal noOther a b = equal noOther b a) ∧
    equal noOther (.set [integer 1, integer 2]) (.frozenSet [integer 2, integer 1]) = true := by
  have hclash : ∀ a ∈ sample, ∀ b ∈ sample, ¬ Clash (PyEqual noOther) a.shape b.shape := by
    intro a ha b hb
    simp only [sample, List.mem_cons, List.not_mem_nil, or_false] at ha hb
    obtain rfl | rfl | rfl | rfl | rfl | rfl := ha <;>
      obtain rfl | rfl | rfl | rfl | rfl | rfl := hb <;>
      simp [Clash, Object.shape, pyEqual_integer] <;> simp [integer]
  have h := (equal_symm_trans_iff noOther_isComparison family_sample).mpr hclash
  exact ⟨h.1, by decide⟩

/-- A named tuple of one integer. -/
def namedOne : Object := .namedTuple [80] [[120]] [integer 1]

/-- **The operands of `Equal` may not be exchanged**: a named tuple equals a tuple that does not
equal it, and is found under a key that it would not be found as; a set with an item twice, as
the wire may bring one, equals a set that does not equal it, and so with a key twice. -/
theorem equal_not_symmetric :
    (namedOne.All Object.IsNoNaN ∧ (Object.tuple [integer 1]).All Object.IsNoNaN ∧
      equal noOther namedOne (.tuple [integer 1]) = true ∧
      equal noOther (.tuple [integer 1]) namedOne = false ∧
      dictGet (equal noOther) [(namedOne, integer 5)] (.tuple [integer 1]) = some (integer 5) ∧
      dictGet (equal noOther) [(.tuple [integer 1], integer 5)] namedOne = none) ∧
    ((Object.set [integer 1, integer 1]).All Object.IsNoNaN ∧
      (Object.set [integer 1, integer 2]).All Object.IsNoNaN ∧
      equal noOther (.set [integer 1, integer 1]) (.set [integer 1, integer 2]) = true ∧
      equal noOther (.set [integer 1, integer 2]) (.set [integer 1, integer 1]) = false) ∧
    equal noOther (.dict [(integer 1, integer 0), (integer 1, integer 0)])
        (.dict [(integer 1, integer 0), (integer 2, integer 0)]) = true ∧
      equal noOther (.dict [(integer 1, integer 0), (integer 2, integer 0)])
        (.dict [(integer 1, integer 0), (integer 1, integer 0)]) = false := by
  refine ⟨⟨?_, ?_, by decide, by decide, rfl, rfl⟩, ⟨?_, ?_, by decide, by decide⟩, by decide,
    by decide⟩
  all_goals exact noNaN_of_integers rfl (by simp [namedOne, Object.children])

end Montygo.Value
