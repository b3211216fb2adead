import Montygo.MountFs.Table

/-!
# Routing

A mount covers a path when its virtual path, name by name, is a prefix of the normalized path.  The
table finds a mount exactly for the covered paths, the closest one, and what is left of the path
below it is a list of ordinary names: routing and prefix stripping agree.
-/

namespace Montygo.MountFs

open Go Value Outcome

/-- The names of a virtual path are the first names of the normalized path. -/
def Covers (virtualPath path : GoString) : Prop :=
  ∃ q r, OrdinaryPath (q ++ r) ∧ virtualPath = absolute q ∧
    normalizeVirtualPath path = absolute (q ++ r)

section Strings

variable {p q r : Path}

theorem absolute_inj (hp : OrdinaryPath p) (hq : OrdinaryPath q) :
    absolute p = absolute q ↔ p = q := by
  simp only [absolute, List.cons.injEq, true_and]
  exact key_inj hp hq

theorem absolute_eq_root (hq : OrdinaryPath q) : absolute q = lit "/" ↔ q = [] := by
  have hroot : lit "/" = absolute [] := rfl
  rw [hroot]
  exact absolute_inj hq (by simp [OrdinaryPath])

theorem absolute_append (hq : q ≠ []) (hr : r ≠ []) :
    absolute (q ++ r) = absolute q ++ slash :: key r := by
  simp only [absolute, List.cons_append, List.cons.injEq, true_and]
  exact key_append hq hr

theorem pathMatchesMount_iff (hp : OrdinaryPath p) (hq : OrdinaryPath q) :
    pathMatchesMount (absolute p) (absolute q) = true ↔ ∃ r, p = q ++ r := by
  unfold pathMatchesMount
  split
  · rename_i h
    refine iff_of_true rfl ?_
    rcases h with hroot | heq
    · exact ⟨p, by rw [(absolute_eq_root hq).mp hroot, List.nil_append]⟩
    · exact ⟨[], by rw [(absolute_inj hp hq).mp heq, List.append_nil]⟩
  · rename_i h
    rw [not_or, absolute_eq_root hq, absolute_inj hp hq] at h
    obtain ⟨hroot, hne⟩ := h
    constructor
    · intro hmatch
      simp only [hasPrefix, Bool.and_eq_true, List.isPrefixOf_iff_prefix, decide_eq_true_eq,
        beq_iff_eq] at hmatch
      obtain ⟨⟨⟨rest, hrest⟩, -⟩, hslash⟩ := hmatch
      -- what follows the mount path starts with a slash
      rw [← hrest, List.getElem?_append_right le_rfl, Nat.sub_self] at hslash
      obtain ⟨tail, rfl⟩ : ∃ tail, rest = slash :: tail := by
        cases rest with
        | nil => simp at hslash
        | cons c tail =>
          simp only [List.getElem?_cons_zero, Option.some.injEq] at hslash
          exact ⟨tail, by rw [hslash]⟩
      have hpre : key q ++ [slash] <+: key p := by
        refine ⟨tail, ?_⟩
        have := List.tail_eq_of_cons_eq hrest
        simpa using this
      obtain ⟨r, -, rfl⟩ := (Segments.join_sep_prefix_iff hq.proper hp.proper hroot).mp hpre
      exact ⟨r, rfl⟩
    · rintro ⟨r, rfl⟩
      have hr : r ≠ [] := by
        rintro rfl
        exact hne (List.append_nil q)
      rw [absolute_append hroot hr]
      simp [hasPrefix]

theorem stripMountPrefix_covered (hpq : OrdinaryPath (q ++ r)) :
    stripMountPrefix (absolute (q ++ r)) (absolute q) = some (key r) := by
  have hq : OrdinaryPath q := (ordinaryPath_append.mp hpq).1
  unfold stripMountPrefix
  split
  · rename_i hroot
    rw [(absolute_eq_root hq).mp hroot, lit_slash]
    simp [trimPrefix, cutPrefix, hasPrefix, absolute]
  · rename_i hroot
    rw [absolute_eq_root hq] at hroot
    split
    · rename_i heq
      have hnil : r = [] := by
        have := (absolute_inj hpq hq).mp heq
        simpa using this
      rw [hnil, key_nil]
    · rename_i hne
      have hr : r ≠ [] := by
        rintro rfl
        exact hne (by rw [List.append_nil])
      rw [absolute_append hroot hr, lit_slash]
      simp [cutPrefix, hasPrefix]

end Strings

/-! ## The order of the mounts -/

/-- Longer virtual paths come first. -/
def Ordered (mounts : List Spec) : Prop :=
  mounts.Pairwise fun a b => b.root.virtualPath.length ≤ a.root.virtualPath.length

theorem push_perm (t : Table) (m : Spec) : (t.push m).mounts.Perm (m :: t.mounts) := by
  refine List.perm_middle.trans (List.Perm.cons m ?_)
  rw [List.takeWhile_append_dropWhile]

theorem push_ordered {t : Table} (h : Ordered t.mounts) (m : Spec) : Ordered (t.push m).mounts := by
  have hperm : ∀ mounts b, b ∈ (Table.push { mounts := mounts } m).mounts → b = m ∨ b ∈ mounts :=
    fun mounts b hb => List.mem_cons.mp ((push_perm { mounts := mounts } m).mem_iff.mp hb)
  obtain ⟨mounts, first⟩ := t
  simp only [Table.push, Ordered] at h hperm ⊢
  induction mounts with
  | nil => simp
  | cons x rest ih =>
    obtain ⟨hx, hrest⟩ := List.pairwise_cons.mp h
    simp only [List.takeWhile_cons, List.dropWhile_cons]
    by_cases hlonger : m.root.virtualPath.length < x.root.virtualPath.length
    · simp only [hlonger, decide_true, if_true, List.cons_append, List.pairwise_cons]
      refine ⟨fun b hb => ?_, ih hrest⟩
      rcases hperm rest b hb with rfl | hb
      · exact hlonger.le
      · exact hx b hb
    · simp only [hlonger, decide_false, Bool.false_eq_true, if_false, List.nil_append,
        List.pairwise_cons]
      refine ⟨fun b hb => ?_, hx, hrest⟩
      rcases List.mem_cons.mp hb with rfl | hb
      · omega
      · exact (hx b hb).trans (by omega)

theorem foldl_push (specs : List Spec) (t : Table) (h : Ordered t.mounts) :
    (specs.foldl Table.push t).mounts.Perm (specs ++ t.mounts) ∧
      Ordered (specs.foldl Table.push t).mounts := by
  induction specs generalizing t with
  | nil => exact ⟨.refl _, h⟩
  | cons m rest ih =>
    obtain ⟨hperm, hordered⟩ := ih (t.push m) (push_ordered h m)
    refine ⟨hperm.trans ?_, hordered⟩
    exact ((push_perm t m).append_left rest).trans List.perm_middle

theorem newTable_spec (specs : List Spec) :
    (newTable specs).mounts.Perm specs ∧ Ordered (newTable specs).mounts := by
  have h := foldl_push specs { firstPath := specs.head?.map (·.root.virtualPath) } .nil
  simpa [newTable] using h

/-! ## Which mount is found -/

section Find

variable {t : Table} {path : GoString} {m : Spec} {i : ℕ}

theorem matches_iff_covers :
    pathMatchesMount (normalizeVirtualPath path) m.root.virtualPath = true ↔
      Covers m.root.virtualPath path := by
  obtain ⟨p, hp, hnormal⟩ := exists_normalizeVirtualPath path
  obtain ⟨q, hq, hvirtual⟩ := m.root.normalized
  rw [hnormal, hvirtual, pathMatchesMount_iff hp hq]
  constructor
  · rintro ⟨r, rfl⟩
    exact ⟨q, r, hp, rfl, hnormal⟩
  · rintro ⟨q', r, hqr, hq', hnormal'⟩
    have hq'' : OrdinaryPath q' := (ordinaryPath_append.mp hqr).1
    rw [hnormal, absolute_inj hp hqr] at hnormal'
    rw [absolute_inj hq hq''] at hq'
    exact ⟨r, by rw [hnormal', hq']⟩

theorem findMount_isSome :
    (t.findMount path).isSome ↔ ∃ m ∈ t.mounts, Covers m.root.virtualPath path := by
  simp only [Table.findMount, List.findIdx?_isSome, List.any_eq_true, matches_iff_covers]

/-- The mount that is found covers the path, and no mount that does has a longer path. -/
theorem findMount_eq_some (hordered : Ordered t.mounts) (h : t.findMount path = some i) :
    ∃ m, t.mounts[i]? = some m ∧ Covers m.root.virtualPath path ∧
      ∀ other ∈ t.mounts, Covers other.root.virtualPath path →
        other.root.virtualPath.length ≤ m.root.virtualPath.length := by
  obtain ⟨hlt, hmatch, hbefore⟩ := List.findIdx?_eq_some_iff_getElem.mp h
  refine ⟨t.mounts[i], List.getElem?_eq_getElem hlt, matches_iff_covers.mp hmatch, ?_⟩
  intro other hother hcovers
  obtain ⟨j, hj, rfl⟩ := List.mem_iff_getElem.mp hother
  rcases lt_trichotomy i j with hij | rfl | hji
  · exact List.pairwise_iff_getElem.mp hordered i j hlt hj hij
  · exact le_rfl
  · exact (hbefore j hji (matches_iff_covers.mpr hcovers)).elim

end Find

/-! ## What is left of the path -/

/-- The names in a mount-relative path; the root has none. -/
def relativeNames (rel : GoString) : List GoString := if rel = [] then [] else split rel

/-- A mount-relative path joined to the virtual path of its mount. -/
def joinVirtual (virtualPath rel : GoString) : GoString :=
  if rel = [] then virtualPath else formatChildPath virtualPath rel

theorem relativeNames_key {r : Path} (hr : OrdinaryPath r) : relativeNames (key r) = r := by
  unfold relativeNames
  split
  · next h => exact ((key_eq_nil hr).mp h).symm
  rename_i h
  refine Segments.splitOn_join hr.proper fun hnil => h ?_
  rw [hnil, key_nil]

theorem not_hasPrefix_key {r : Path} (hr : OrdinaryPath r) :
    hasPrefix (key r) (lit "/") = false := by
  cases r with
  | nil => rfl
  | cons name rest =>
    have hname : Ordinary name := hr name List.mem_cons_self
    obtain ⟨c, cs, rfl⟩ := List.exists_cons_of_ne_nil hname.ne_nil
    have hc : c ≠ slash := fun h => hname.no_slash (by rw [h]; exact List.mem_cons_self)
    have hfirst : ∃ tail, key ((c :: cs) :: rest) = c :: tail := by
      rcases eq_or_ne rest [] with rfl | hrest
      · exact ⟨cs, key_singleton _⟩
      · exact ⟨cs ++ slash :: key rest, Segments.join_cons _ hrest⟩
    obtain ⟨tail, htail⟩ := hfirst
    rw [htail, lit_slash]
    have hbeq : (slash == c) = false := beq_eq_false_iff_ne.mpr (Ne.symm hc)
    simp only [hasPrefix, List.isPrefixOf, hbeq, Bool.false_and]

theorem hasSuffix_absolute {q : Path} (hq : OrdinaryPath q) (hne : q ≠ []) :
    hasSuffix (absolute q) (lit "/") = false := by
  obtain ⟨front, name, rfl⟩ := List.eq_nil_or_concat q |>.resolve_left hne
  rw [List.concat_eq_append] at hq ⊢
  have hname : Ordinary name := hq name (by simp)
  have hspelling : ∃ before, absolute (front ++ [name]) = before ++ name := by
    rcases eq_or_ne front [] with rfl | hfront
    · exact ⟨[slash], by simp [absolute]⟩
    refine ⟨absolute front ++ [slash], ?_⟩
    rw [absolute_append hfront (by simp), key_singleton]
    simp
  obtain ⟨before, hbefore⟩ := hspelling
  rw [hbefore, lit_slash, Bool.eq_false_iff]
  intro hsuffix
  have hlast := List.isSuffixOf_iff_suffix.mp hsuffix
  obtain ⟨start, hstart⟩ := hlast
  have hname_last : (before ++ name).getLast? = name.getLast? := by
    rw [List.getLast?_append_of_ne_nil _ hname.ne_nil]
  rw [← hstart, List.getLast?_append_of_ne_nil _ (by simp)] at hname_last
  exact hname.no_slash (List.mem_of_getLast? hname_last.symm)

theorem joinVirtual_key {q r : Path} (hqr : OrdinaryPath (q ++ r)) :
    joinVirtual (absolute q) (key r) = absolute (q ++ r) := by
  obtain ⟨hq, hr⟩ := ordinaryPath_append.mp hqr
  unfold joinVirtual
  split
  · next h => rw [(key_eq_nil hr).mp h, List.append_nil]
  rename_i h
  have hne : r ≠ [] := fun hnil => h (by rw [hnil, key_nil])
  rcases eq_or_ne q [] with rfl | hqne
  · rfl
  · rw [formatChildPath, hasSuffix_absolute hq hqne, absolute_append hqne hne]
    simp [lit_slash]

/-- A covered path does not fail for want of a mount; what it resolves to is spelled by ordinary
names, and leads back to the path. -/
theorem resolveVirtualPath_covered {virtualPath path : GoString} (h : Covers virtualPath path) :
    (∀ p, resolveVirtualPath path virtualPath ≠ .error (.noMountPoint p)) ∧
      ∀ rel, resolveVirtualPath path virtualPath = .ok rel →
        (∀ name ∈ relativeNames rel, name ≠ [] ∧ name ≠ lit "." ∧ name ≠ lit "..") ∧
          hasPrefix rel (lit "/") = false ∧
          joinVirtual virtualPath rel = normalizeVirtualPath path := by
  obtain ⟨q, r, hqr, rfl, hnormal⟩ := h
  have hr : OrdinaryPath r := (ordinaryPath_append.mp hqr).2
  have hresolve : resolveVirtualPath path (absolute q) = (do
      rejectNullBytes path
      rejectDriveOrUNCSegments (key r) (absolute (q ++ r))
      pure (key r)) := by
    simp only [resolveVirtualPath, hnormal, stripMountPrefix_covered hqr]
  constructor
  · intro p hp
    rw [hresolve] at hp
    unfold rejectNullBytes rejectDriveOrUNCSegments at hp
    repeat' split at hp
    all_goals cases hp
  · intro rel hrel
    rw [hresolve] at hrel
    simp only [bind_eq_ok, pure_eq_ok] at hrel
    obtain ⟨-, -, -, -, rfl⟩ := hrel
    refine ⟨fun name hname => ?_, not_hasPrefix_key hr, ?_⟩
    · rw [relativeNames_key hr] at hname
      exact ⟨(hr name hname).ne_nil, (hr name hname).ne_dot, (hr name hname).ne_dotdot⟩
    · rw [joinVirtual_key hqr, hnormal]

/-! ## The table -/

theorem route_executes {t : Table} {call : OsCall} {i : ℕ} (h : t.route call = .executes i) :
    t.findMount call.primary = some i ∧
      ∀ path dst, call = .rename path dst → t.findMount dst = some i := by
  cases call with
  | rename path dst =>
    simp only [Table.route, OsCall.primary] at h ⊢
    split at h
    · cases h
    split at h
    · cases h
    split at h
    · cases h
    · rename_i hsrc hdst
      split at h
      · rename_i heq
        cases h
        subst heq
        refine ⟨hsrc, ?_⟩
        rintro _ _ ⟨⟩
        exact hdst
      · cases h
    · cases h
  | _ =>
    simp only [Table.route] at h
    split at h
    · cases h
    rename_i hsrc
    cases h
    exact ⟨hsrc, fun _ _ hrename => (by cases hrename)⟩

/-- **A call is executed by the closest mount that covers its path**, under a path below that mount;
a rename only where both paths lead to it. -/
theorem table_routes (specs : List Spec) :
    let t := newTable specs
    (∀ path, (t.findMount path).isSome ↔ ∃ spec ∈ specs, Covers spec.root.virtualPath path) ∧
      (∀ path i, t.findMount path = some i →
        ∃ m ∈ specs, t.mounts[i]? = some m ∧ Covers m.root.virtualPath path ∧
          (∀ spec ∈ specs, Covers spec.root.virtualPath path →
            spec.root.virtualPath.length ≤ m.root.virtualPath.length) ∧
          (∀ p, resolveVirtualPath path m.root.virtualPath ≠ .error (.noMountPoint p)) ∧
          ∀ rel, resolveVirtualPath path m.root.virtualPath = .ok rel →
            (∀ name ∈ relativeNames rel, name ≠ [] ∧ name ≠ lit "." ∧ name ≠ lit "..") ∧
              hasPrefix rel (lit "/") = false ∧
              joinVirtual m.root.virtualPath rel = normalizeVirtualPath path) ∧
      ∀ call i, t.dispatch call = .executes i → t.findMount call.primary = some i ∧
          ∀ path dst, call = .rename path dst → t.findMount dst = some i := by
  obtain ⟨hperm, hordered⟩ := newTable_spec specs
  refine ⟨fun path => ?_, fun path i hfind => ?_, fun call i hdispatch => ?_⟩
  · rw [findMount_isSome]
    simp only [hperm.mem_iff]
  · obtain ⟨m, hm, hcovers, hlongest⟩ := findMount_eq_some hordered hfind
    obtain ⟨hnever, hresolves⟩ := resolveVirtualPath_covered hcovers
    refine ⟨m, hperm.mem_iff.mp (List.mem_of_getElem? hm), hm, hcovers, fun spec hspec => ?_,
      hnever, hresolves⟩
    exact hlongest spec (hperm.mem_iff.mpr hspec)
  · simp only [Table.dispatch] at hdispatch
    split at hdispatch
    · split at hdispatch <;> cases hdispatch
    · exact route_executes hdispatch

end Montygo.MountFs
