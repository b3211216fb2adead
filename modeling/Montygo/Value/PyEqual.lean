import Montygo.Lib.Matching
import Montygo.Value.Equal

/-!
# What equality of values is for

`PyEqual` says when two values are equal in Python: numbers by the number they are, a named tuple
as the tuple of its values, a set and a frozenset by their members, a dict by its entries.  The
wire may bring a member or a key twice, which Python does not know; then the members have to be as
many, and a key stands for its first entry.  `PyEqual` is symmetric and transitive by its form,
since members and entries are matched in both directions.  How the code's comparison relates to it
is the subject of the next module.
-/

namespace Montygo.Value

open Go Wire Matching

/-! ## Numbers -/

/-- The number that a Go number is.  An infinity, and a float that is no integer, stands for
itself. -/
inductive Quantity where
  | integer (x : ℤ)
  | fraction (x : Float64)
  deriving DecidableEq

def Number.quantity : Number → Quantity
  | .int x => .integer x.toInt
  | .big x => .integer x
  | .float x =>
    if Binary64.isInf x || Binary64.isNaN x || !Binary64.isIntegral x then .fraction x
    else .integer (Binary64.trunc x)

def Number.NoNaN : Number → Prop
  | .float x => Binary64.isNaN x = false
  | .int _ | .big _ => True

theorem floatEqualsInt_iff {f : Float64} {i : ℤ} :
    floatEqualsInt f i = true ↔ (Number.float f).quantity = .integer i := by
  simp only [floatEqualsInt, Number.quantity]
  split <;> simp

theorem equal_iff_quantity {x y : Float64} (hx : Binary64.isNaN x = false)
    (hy : Binary64.isNaN y = false) :
    Binary64.equal x y = true ↔ (Number.float x).quantity = (Number.float y).quantity := by
  have hinf : ∀ {z : Float64}, Binary64.isZero z = true → Binary64.isInf z = false := by
    intro z hz
    have hfields := Binary64.mod_eq_fields (x := z)
    simp only [Binary64.isZero, beq_iff_eq] at hz
    simp only [Binary64.isInf, Bool.and_eq_false_iff, beq_eq_false_iff_ne]
    omega
  simp only [Number.quantity, hx, hy, Bool.or_false]
  by_cases hfx : Binary64.isInf x = true ∨ Binary64.isIntegral x = false
  · have hzx : ¬ Binary64.isZero x = true := by
      intro hz
      rcases hfx with h | h
      · simp [hinf hz] at h
      · simp [Binary64.isIntegral_of_isZero hz] at h
    have hcond : (Binary64.isInf x || !Binary64.isIntegral x) = true := by simpa using hfx
    rw [Binary64.equal_iff hx hy, if_pos hcond]
    constructor
    · rintro (rfl | ⟨hz, -⟩)
      · rw [if_pos hcond]
      · exact (hzx hz).elim
    · intro h
      split at h
      · exact .inl (by simpa using h)
      · cases h
  · push Not at hfx
    have hix : Binary64.isIntegral x = true := by simpa using hfx.2
    have hcond : (Binary64.isInf x || !Binary64.isIntegral x) = false := by simp [hix, hfx.1]
    rw [hcond, if_neg Bool.false_ne_true]
    by_cases hfy : Binary64.isInf y = true ∨ Binary64.isIntegral y = false
    · have hcondy : (Binary64.isInf y || !Binary64.isIntegral y) = true := by simpa using hfy
      rw [Binary64.equal_iff hx hy, if_pos hcondy]
      refine iff_of_false ?_ (by simp)
      rintro (rfl | ⟨-, hz⟩)
      · rw [hcond] at hcondy
        cases hcondy
      · rcases hfy with h | h
        · simp [hinf hz] at h
        · simp [Binary64.isIntegral_of_isZero hz] at h
    · push Not at hfy
      have hiy : Binary64.isIntegral y = true := by simpa using hfy.2
      have hcondy : (Binary64.isInf y || !Binary64.isIntegral y) = false := by simp [hiy, hfy.1]
      rw [hcondy, if_neg Bool.false_ne_true, Binary64.equal_iff_trunc_eq hx hy hix hiy]
      simp

/-- **Numbers of all Go types compare as the numbers they are.** -/
theorem numbersEqual_iff {x y : Number} (hx : x.NoNaN) (hy : y.NoNaN) :
    numbersEqual x y = true ↔ x.quantity = y.quantity := by
  cases x with
  | int x =>
    cases y with
    | int y => simp [numbersEqual, Number.quantity, Int64.toInt_inj]
    | big y => simp [numbersEqual, Number.quantity, Number.toBig]
    | float y => exact floatEqualsInt_iff.trans eq_comm
  | big x =>
    cases y with
    | int y | big y => simp [numbersEqual, Number.quantity, Number.toBig]
    | float y => exact floatEqualsInt_iff.trans eq_comm
  | float x =>
    cases y with
    | int y | big y => exact floatEqualsInt_iff
    | float y => exact equal_iff_quantity hx hy

/-! ## Values -/

/-- A value as Python compares it. -/
inductive View where
  | nothing
  | str (x : GoString)
  | bytes (x : Bytes)
  | list (items : List Object)
  | tuple (items : List Object)
  | dict (pairs : List (Object × Object))
  | set (items : List Object)
  | other

def Shape.view : Shape → View
  | .nothing => .nothing
  | .str x => .str x
  | .bytes x => .bytes x
  | .list items => .list items
  | .tuple items | .namedTuple items => .tuple items
  | .dict pairs => .dict pairs
  | .set items | .frozenSet items => .set items
  | .other => .other

def Object.view (v : Object) : View := v.shape.view

/-- The entry is the first with the key. -/
def Found (E : Object → Object → Prop) (qs : List (Object × Object)) (k : Object)
    (q : Object × Object) : Prop :=
  ∃ before after, qs = before ++ q :: after ∧ E q.1 k ∧ ∀ q' ∈ before, ¬ E q'.1 k

/-- Every entry is in the other dict: its key has its value there. -/
def Within (E : Object → Object → Prop) (ps qs : List (Object × Object)) : Prop :=
  ∀ p ∈ ps, ∃ q, Found E qs p.1 q ∧ E p.2 q.2

/-- Equality of two values whose contents compare by `E`. -/
def ViewEq (E : Object → Object → Prop) (same : Bool) : View → View → Prop
  | .nothing, .nothing => True
  | .str x, .str y => x = y
  | .bytes x, .bytes y => x = y
  | .list x, .list y => List.Forall₂ E x y
  | .tuple x, .tuple y => List.Forall₂ E x y
  | .dict x, .dict y => x.length = y.length ∧ Within E x y ∧ Within E y x
  | .set x, .set y => x.length = y.length ∧ Covers E x y
  | .other, .other => same = true
  | _, _ => False

section PyEqual

variable (same : Object → Object → Bool)

/-- One level of `PyEqual`. -/
def pyEqualBody (E : Object → Object → Prop) (a b : Object) : Prop :=
  match asNumber a, asNumber b with
  | some x, some y => x.quantity = y.quantity
  | some _, none | none, some _ => False
  | none, none => ViewEq E (same a b) a.view b.view

/-- **Python equality**. -/
def PyEqual (a b : Object) : Prop := nested False (pyEqualBody same) (a.size + b.size) a b

end PyEqual

/-! ## Which values meet in a comparison -/

/-- The values inside two values that are compared with each other. -/
def Opposed : View → View → Object → Object → Prop
  | .list xs, .list ys, x, y => (x, y) ∈ xs.zip ys
  | .tuple xs, .tuple ys, x, y => (x, y) ∈ xs.zip ys
  | .set xs, .set ys, x, y => x ∈ xs ∧ y ∈ ys
  | .dict ps, .dict qs, x, y =>
    ∃ p ∈ ps, ∃ q ∈ qs, x = p.1 ∧ y = q.1 ∨ x = p.2 ∧ y = q.2
  | _, _, _, _ => False

section Opposed

variable {s t : View} {a b x y : Object}

theorem mem_zip_swap {α β : Type*} {xs : List α} {ys : List β} {x : α} {y : β}
    (h : (x, y) ∈ xs.zip ys) : (y, x) ∈ ys.zip xs := by
  rw [← List.zip_swap]
  exact List.mem_map.mpr ⟨(x, y), h, rfl⟩

theorem Opposed.swap (h : Opposed s t x y) : Opposed t s y x := by
  cases s <;> cases t <;> simp only [Opposed] at h ⊢
  case list.list | tuple.tuple => exact mem_zip_swap h
  case set.set => exact h.symm
  case dict.dict =>
      obtain ⟨p, hp, q, hq, hpq⟩ := h
      exact ⟨q, hq, p, hp, hpq.imp And.symm And.symm⟩

theorem sum_le_sumItems {f : Object → ℕ} {items : List Object} (h : x ∈ items) :
    x.sum f ≤ sumItems f items := by
  induction items with
  | nil => cases h
  | cons item rest ih =>
    rcases List.mem_cons.mp h with rfl | h
    · exact Nat.le_add_right _ _
    · exact (ih h).trans (Nat.le_add_left _ _)

theorem sum_le_sumPairs {f : Object → ℕ} {pairs : List (Object × Object)} {p : Object × Object}
    (h : p ∈ pairs) : p.1.sum f + p.2.sum f ≤ sumPairs f pairs := by
  induction pairs with
  | nil => cases h
  | cons pair rest ih =>
    rcases List.mem_cons.mp h with rfl | h
    · exact Nat.le_add_right _ _
    · exact (ih h).trans (Nat.le_add_left _ _)

/-- The size of what stands in a value. -/
def View.contents : View → ℕ
  | .list items | .tuple items | .set items => sumItems (fun _ => 1) items
  | .dict pairs => sumPairs (fun _ => 1) pairs
  | .nothing | .str _ | .bytes _ | .other => 0

theorem contents_lt_size : a.view.contents < a.size := by
  cases a with
  | _ =>
    simp only [Object.view, Object.shape, Shape.view, View.contents, Object.size, Object.sum]
    omega

theorem Opposed.size_le (h : Opposed s t x y) : x.size ≤ s.contents ∧ y.size ≤ t.contents := by
  cases s <;> cases t <;> simp only [Opposed] at h
  case list.list | tuple.tuple =>
      obtain ⟨hx, hy⟩ := List.of_mem_zip h
      exact ⟨sum_le_sumItems hx, sum_le_sumItems hy⟩
  case set.set => exact ⟨sum_le_sumItems h.1, sum_le_sumItems h.2⟩
  case dict.dict =>
      obtain ⟨p, hp, q, hq, hpq⟩ := h
      have hp := sum_le_sumPairs (f := fun _ => 1) hp
      have hq := sum_le_sumPairs (f := fun _ => 1) hq
      simp only [Object.size, View.contents]
      rcases hpq with ⟨rfl, rfl⟩ | ⟨rfl, rfl⟩ <;> omega

theorem Opposed.size_lt (h : Opposed a.view b.view x y) : x.size < a.size ∧ y.size < b.size := by
  have hsize := h.size_le
  have ha := contents_lt_size (a := a)
  have hb := contents_lt_size (a := b)
  omega

end Opposed

/-- A comparison that only looks at the values that meet. -/
def Local {β : Type*} (body : (Object → Object → β) → Object → Object → β) : Prop :=
  ∀ ⦃eq eq' : Object → Object → β⦄ ⦃a b : Object⦄,
    (∀ x y, Opposed a.view b.view x y → eq x y = eq' x y ∧ eq y x = eq' y x) →
      body eq a b = body eq' a b

theorem nested_eq {β : Type*} {base : β} {body : (Object → Object → β) → Object → Object → β}
    (hlocal : Local body) {n m : ℕ} {a b : Object} (hn : a.size + b.size ≤ n)
    (hm : a.size + b.size ≤ m) : nested base body n a b = nested base body m a b := by
  have hpos := contents_lt_size (a := a)
  induction n generalizing m a b with
  | zero => omega
  | succ n ih =>
    obtain ⟨m, rfl⟩ : ∃ k, m = k + 1 := ⟨m - 1, by omega⟩
    refine hlocal fun x y hxy => ?_
    have hlt := hxy.size_lt
    have hx := contents_lt_size (a := x)
    have hy := contents_lt_size (a := y)
    exact ⟨ih (by omega) (by omega) hx, ih (by omega) (by omega) hy⟩

theorem nested_fix {β : Type*} {base : β} {body : (Object → Object → β) → Object → Object → β}
    (hlocal : Local body) (a b : Object) :
    nested base body (a.size + b.size) a b =
      body (fun x y => nested base body (x.size + y.size) x y) a b := by
  rw [nested_eq hlocal le_rfl (Nat.le_succ (a.size + b.size))]
  refine hlocal fun x y hxy => ?_
  have hlt := hxy.size_lt
  exact ⟨nested_eq hlocal (by omega) le_rfl, nested_eq hlocal (by omega) le_rfl⟩

/-! ## Symmetry and transitivity -/

variable {E : Object → Object → Prop}

theorem Found.mem {qs : List (Object × Object)} {k : Object} {q : Object × Object}
    (h : Found E qs k q) : q ∈ qs := by
  obtain ⟨before, after, rfl, -⟩ := h
  simp

theorem Found.congr {E' : Object → Object → Prop} {qs : List (Object × Object)} {k k' : Object}
    {q : Object × Object} (hE : ∀ q ∈ qs, E q.1 k ↔ E' q.1 k') (h : Found E qs k q) :
    Found E' qs k' q := by
  have hmem := h.mem
  obtain ⟨before, after, rfl, hq, hbefore⟩ := h
  refine ⟨before, after, rfl, (hE q hmem).mp hq, fun q' hq' h => hbefore q' hq' ?_⟩
  exact (hE q' (List.mem_append_left _ hq')).mpr h

theorem Within.congr {E' : Object → Object → Prop} {ps qs : List (Object × Object)}
    (hkey : ∀ p ∈ ps, ∀ q ∈ qs, E q.1 p.1 ↔ E' q.1 p.1)
    (hvalue : ∀ p ∈ ps, ∀ q ∈ qs, E p.2 q.2 → E' p.2 q.2) (h : Within E ps qs) :
    Within E' ps qs := by
  intro p hp
  obtain ⟨q, hfound, hq⟩ := h p hp
  exact ⟨q, hfound.congr (hkey p hp), hvalue p hp q hfound.mem hq⟩

theorem ViewEq.congr {E' : Object → Object → Prop} {same : Bool} {s t : View}
    (hE : ∀ x y, Opposed s t x y → (E x y ↔ E' x y) ∧ (E y x ↔ E' y x)) (h : ViewEq E same s t) :
    ViewEq E' same s t := by
  cases s <;> cases t <;> simp only [ViewEq] at h ⊢
  case str.str | bytes.bytes | other.other => exact h
  case list.list | tuple.tuple =>
      rw [List.forall₂_iff_zip] at h ⊢
      exact ⟨h.1, fun hxy => (hE _ _ hxy).1.mp (h.2 hxy)⟩
  case set.set => exact ⟨h.1, h.2.mono fun x hx y hy => (hE x y ⟨hx, hy⟩).1.mp⟩
  case dict.dict ps qs =>
      have hkey : ∀ p ∈ ps, ∀ q ∈ qs, Opposed (.dict ps) (.dict qs) p.1 q.1 :=
        fun p hp q hq => ⟨p, hp, q, hq, .inl ⟨rfl, rfl⟩⟩
      have hvalue : ∀ p ∈ ps, ∀ q ∈ qs, Opposed (.dict ps) (.dict qs) p.2 q.2 :=
        fun p hp q hq => ⟨p, hp, q, hq, .inr ⟨rfl, rfl⟩⟩
      refine ⟨h.1, h.2.1.congr (fun p hp q hq => (hE _ _ (hkey p hp q hq)).2) fun p hp q hq => ?_,
        h.2.2.congr (fun q hq p hp => (hE _ _ (hkey p hp q hq)).1) fun q hq p hp => ?_⟩
      · exact (hE _ _ (hvalue p hp q hq)).1.mp
      · exact (hE _ _ (hvalue p hp q hq)).2.mp

theorem ViewEq.symm (hE : ∀ x y, E x y → E y x) {same same' : Bool}
    (hsame : same = true → same' = true) {s t : View} (h : ViewEq E same s t) :
    ViewEq E same' t s := by
  cases s <;> cases t <;> simp only [ViewEq] at h ⊢
  case str.str | bytes.bytes => exact h.symm
  case other.other => exact hsame h
  case list.list | tuple.tuple => exact h.flip.imp fun x y => hE y x
  case set.set => exact ⟨h.1.symm, h.2.swap.mono fun x _ y _ => hE y x⟩
  case dict.dict => exact ⟨h.1.symm, h.2.2, h.2.1⟩

theorem forall₂_trans (hE : ∀ x y z, E x y → E y z → E x z) {xs ys zs : List Object}
    (h : List.Forall₂ E xs ys) (h' : List.Forall₂ E ys zs) : List.Forall₂ E xs zs := by
  induction h generalizing zs with
  | nil => exact h'
  | cons hxy _ ih =>
    cases h' with
    | cons hyz h' => exact .cons (hE _ _ _ hxy hyz) (ih h')

theorem Within.trans (hsymm : ∀ x y, E x y → E y x) (hE : ∀ x y z, E x y → E y z → E x z)
    {ps qs rs : List (Object × Object)} (h : Within E ps qs) (h' : Within E qs rs) :
    Within E ps rs := by
  intro p hp
  obtain ⟨q, hfound, hq⟩ := h p hp
  obtain ⟨r, hfound', hr⟩ := h' q hfound.mem
  obtain ⟨-, -, -, hkey, -⟩ := hfound
  -- the keys of `p` and `q` are equal, so that the same entries have them
  refine ⟨r, hfound'.congr fun r' _ => ⟨fun h => hE _ _ _ h hkey, fun h => ?_⟩, hE _ _ _ hq hr⟩
  exact hE _ _ _ h (hsymm _ _ hkey)

theorem ViewEq.trans (hsymm : ∀ x y, E x y → E y x) (hE : ∀ x y z, E x y → E y z → E x z)
    {same same' same'' : Bool}
    (hsame : same = true → same' = true → same'' = true) {s t u : View} (h : ViewEq E same s t)
    (h' : ViewEq E same' t u) : ViewEq E same'' s u := by
  cases s <;> cases t <;> simp only [ViewEq] at h <;> cases u <;> simp only [ViewEq] at h' ⊢
  case str.str.str | bytes.bytes.bytes => exact h.trans h'
  case other.other.other => exact hsame h h'
  case list.list.list | tuple.tuple.tuple => exact forall₂_trans hE h h'
  case set.set.set => exact ⟨h.1.trans h'.1, h.2.trans (fun x _ y _ z _ => hE x y z) h'.2⟩
  case dict.dict.dict =>
      exact ⟨h.1.trans h'.1, h.2.1.trans hsymm hE h'.2.1, h'.2.2.trans hsymm hE h.2.2⟩

/-- What is asked of the comparison of values that the type switch does not name. -/
structure IsComparison (same : Object → Object → Bool) : Prop where
  symm : ∀ a b, same a b = true → same b a = true
  trans : ∀ a b c, same a b = true → same b c = true → same a c = true

section Laws

variable {same : Object → Object → Bool} {E : Object → Object → Prop} {a b c : Object}

theorem pyEqualBody_local : Local (pyEqualBody same) := by
  intro E E' a b hE
  simp only [pyEqualBody]
  split
  · rfl
  · rfl
  · rfl
  refine propext ⟨ViewEq.congr fun x y hxy => ?_, ViewEq.congr fun x y hxy => ?_⟩
  · rw [(hE x y hxy).1, (hE x y hxy).2]
    exact ⟨.rfl, .rfl⟩
  · rw [(hE x y hxy).1, (hE x y hxy).2]
    exact ⟨.rfl, .rfl⟩

theorem pyEqual_iff : PyEqual same a b ↔ pyEqualBody same (PyEqual same) a b :=
  iff_of_eq (nested_fix pyEqualBody_local a b)

section

variable (hsame : IsComparison same)
include hsame

theorem pyEqualBody_symm (hE : ∀ x y, E x y → E y x) (h : pyEqualBody same E a b) :
    pyEqualBody same E b a := by
  cases ha : asNumber a <;> cases hb : asNumber b <;> simp only [pyEqualBody, ha, hb] at h ⊢
  · exact h.symm hE (hsame.symm a b)
  · exact h.symm

theorem pyEqualBody_trans (hsymm : ∀ x y, E x y → E y x) (hE : ∀ x y z, E x y → E y z → E x z)
    (h : pyEqualBody same E a b) (h' : pyEqualBody same E b c) : pyEqualBody same E a c := by
  cases ha : asNumber a <;> cases hb : asNumber b <;> simp only [pyEqualBody, ha, hb] at h <;>
    cases hc : asNumber c <;> simp only [pyEqualBody, ha, hb, hc] at h' ⊢
  · exact ViewEq.trans hsymm hE (hsame.trans a b c) h h'
  · exact h.trans h'

theorem nested_symm (n : ℕ) :
    ∀ a b, nested False (pyEqualBody same) n a b → nested False (pyEqualBody same) n b a := by
  induction n with
  | zero => exact fun _ _ h => h.elim
  | succ n ih => exact fun a b h => pyEqualBody_symm hsame ih h

theorem nested_trans (n : ℕ) :
    ∀ a b c, nested False (pyEqualBody same) n a b → nested False (pyEqualBody same) n b c →
      nested False (pyEqualBody same) n a c := by
  induction n with
  | zero => exact fun _ _ _ h => h.elim
  | succ n ih => exact fun a b c h h' => pyEqualBody_trans hsame (nested_symm hsame n) ih h h'

/-- **Python equality is symmetric.** -/
theorem PyEqual.symm (h : PyEqual same a b) : PyEqual same b a := by
  unfold PyEqual at h ⊢
  rw [Nat.add_comm]
  exact nested_symm hsame _ a b h

/-- **Python equality is transitive.** -/
theorem PyEqual.trans (h : PyEqual same a b) (h' : PyEqual same b c) : PyEqual same a c := by
  -- one depth that is enough for all three
  let n := a.size + b.size + c.size
  have hab : nested False (pyEqualBody same) n a b := by
    rwa [nested_eq pyEqualBody_local (show a.size + b.size ≤ n by omega) le_rfl]
  have hbc : nested False (pyEqualBody same) n b c := by
    rwa [nested_eq pyEqualBody_local (show b.size + c.size ≤ n by omega) le_rfl]
  have hac := nested_trans hsame n a b c hab hbc
  rwa [nested_eq pyEqualBody_local (show a.size + c.size ≤ n by omega) le_rfl] at hac

end

end Laws

end Montygo.Value
