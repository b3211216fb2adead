import Montygo.MountFs.Accounting
import Montygo.MountFs.Looking

/-!
# What a rename of a directory does to the tree

A successful rename puts a deletion at every path it moves and the moved entry at its
new place.  `Moved` says what is moved: the source itself, every overlay entry below
it, and what the walk captured of the host tree.  From this the claim one expects of a
rename, that the whole tree shows at the destination and nothing at the source, is
equivalent to a condition on the state before.
-/

namespace Montygo.MountFs

open Go Value Outcome

variable {m : Mount} {host : Node} {srcV dstV : GoString} {now : Float64} {plan : RenamePlan}
  {src dst r : Path}

/-! ## Batches, key by key -/

variable {batch : List (GoString × OverlayEntry)} {srcIsDir : Bool}

theorem OverlayState.putAll_entries_not_mem (st : OverlayState) {k : GoString}
    (hk : k ∉ batch.map Prod.fst) : (st.putAll batch).entries k = st.entries k := by
  induction batch generalizing st with
  | nil => rfl
  | cons first rest ih =>
    rw [List.map_cons, List.mem_cons, not_or] at hk
    exact (ih _ hk.2).trans (Function.update_of_ne hk.1 _ _)

theorem OverlayState.putAll_entries_mem (st : OverlayState) {k : GoString}
    (hk : k ∈ batch.map Prod.fst) : ∃ e, (k, e) ∈ batch ∧ (st.putAll batch).entries k = some e := by
  induction batch generalizing st with
  | nil => cases hk
  | cons first rest ih =>
    by_cases hrest : k ∈ rest.map Prod.fst
    · obtain ⟨e, he, hentry⟩ := ih (st.insertUnchecked first.1 first.2) hrest
      exact ⟨e, List.mem_cons_of_mem first he, hentry⟩
    · have hfirst : k = first.1 := by simpa [hrest] using hk
      refine ⟨first.2, by simp [hfirst], ?_⟩
      have hkeep := OverlayState.putAll_entries_not_mem (st.insertUnchecked first.1 first.2) hrest
      exact hkeep.trans (by simp [OverlayState.insertUnchecked, hfirst])

/-! ## The captured moves of a plan -/

theorem dirOp_key {p : Path} (hp : OrdinaryPath p) (hne : p ≠ []) : dirOp (key p) = key p :=
  if_neg ((key_eq_nil hp).not.mpr hne)

theorem onTree_of_visible (hsrc : OrdinaryPath src) (hshown : (host.visibleAt src).isSome) :
    OnTree host src [] := by
  refine ⟨by simpa using hsrc, ?_⟩
  obtain ⟨node, hnode⟩ := Option.isSome_iff_exists.mp hshown
  rw [List.append_nil]
  exact meetsLink_of_chainLoop hsrc ((visibleAt_eq_some_iff [] hsrc).mp hnode).1

/-- **What `overlayRename` takes along of the host tree**: nothing, or everything the walk
captures, and that when every directory it comes to can be read. -/
theorem renameRealMoves_eq_ok (hhost : host.isDir = true) (hwf : host.WellFormed)
    (hsrc : OrdinaryPath src) (hne : src ≠ [])
    (hrel : resolveVirtualPath srcV m.root.virtualPath = .ok (key src)) {handled : List GoString}
    (hhandled : ∀ k ∈ handled, m.overlay.entries k ≠ none) {remaining : MemoryBudget}
    {children : List RealMove}
    (h : renameRealMoves m host srcV (key src ++ [slash]) handled remaining now = .ok children) :
    (∀ move ∈ children, (host.visibleAt src).isSome ∧ OnTree host src [] ∧
        Readable m host src ∧ ∃ q, Walked m host src q ∧ CapturedIn m host src now q move) ∧
      ∀ node, host.visibleAt src = some node → node.isDir = true → Readable m host src →
        ∀ q move, Walked m host src q → CapturedIn m host src now q move → move ∈ children := by
  unfold renameRealMoves at h
  cases hreal : m.resolveReal host srcV with
  | error e =>
    simp only [hreal, Except.ok.injEq] at h
    subst h
    refine ⟨by simp, ?_⟩
    intro node hshown
    rw [visibleAt_of_resolveReal_error hsrc hrel hreal] at hshown
    cases hshown
  | ok target =>
    obtain ⟨rfl, hstat, -, hseen⟩ := resolveReal_eq_ok hhost hsrc hrel hreal
    simp only [hreal] at h
    have hisDir : ∀ node, host.visibleAt src = some node →
        hostIsDir host (dirOp (key src)) = node.isDir := by
      intro node hshown
      simp [hostIsDir, hstat, (hseen node).mp hshown]
    split at h
    · rename_i hdir
      have hshown : (host.visibleAt src).isSome := by
        rw [hostIsDir, hstat] at hdir
        cases hdescend : host.descend src with
        | error err => simp [hdescend] at hdir
        | ok node => simp [(hseen node).mpr hdescend]
      have htree := onTree_of_visible hsrc hshown
      rw [dirOp_key hsrc hne] at h
      have hspec := @collectRealDescendants_spec host m src now srcV remaining handled hhost hwf
        hne htree hhandled
      split at h
      · rename_i found hfound
        rw [hfound] at hspec
        cases h
        refine ⟨?_, ?_⟩
        · intro move hmove
          exact ⟨hshown, htree, hspec.1, (hspec.2 move).mp hmove⟩
        · intro node _ _ _ q move hwalk hmove
          exact (hspec.2 move).mpr ⟨q, hwalk, hmove⟩
      · rename_i e he
        rw [he] at hspec
        split at h
        · cases h
        rename_i hreported
        cases h
        refine ⟨by simp, ?_⟩
        intro node _ _ hread
        rcases hspec with h | h
        · exact absurd h hreported
        · exact absurd hread h
    · rename_i hdir
      cases h
      refine ⟨by simp, ?_⟩
      intro node hshown hnode
      rw [hisDir node hshown] at hdir
      exact absurd hnode hdir

/-! ## What moves -/

/-- A plan with the two paths it is about. -/
structure Renames (m : Mount) (host : Node) (srcV dstV : GoString) (now : Float64)
    (plan : RenamePlan) (srcIsDir : Bool) (src dst : Path) : Prop
    extends Planned m host srcV dstV now plan srcIsDir where
  src_eq : plan.srcRel = key src
  dst_eq : plan.dstRel = key dst
  src_ord : OrdinaryPath src
  dst_ord : OrdinaryPath dst
  src_ne_nil : src ≠ []
  dst_ne_nil : dst ≠ []

theorem Planned.renames (hplan : Planned m host srcV dstV now plan srcIsDir) :
    ∃ src dst, Renames m host srcV dstV now plan srcIsDir src dst := by
  obtain ⟨src, hsrcOrd, hsrcEq⟩ := m.resolved hplan.srcOk
  obtain ⟨dst, hdstOrd, hdstEq⟩ := m.resolved hplan.dstOk
  have hne : plan.srcRel ≠ [] ∧ plan.dstRel ≠ [] := by
    have hroot := hplan.notRoot
    unfold rejectRenameOfRoot at hroot
    split at hroot
    · cases hroot
    split at hroot
    · cases hroot
    · exact ⟨‹_›, ‹_›⟩
  refine ⟨src, dst, hplan, hsrcEq, hdstEq, hsrcOrd, hdstOrd, ?_, ?_⟩
  · rintro rfl
    exact hne.1 (hsrcEq.trans key_nil)
  · rintro rfl
    exact hne.2 (hdstEq.trans key_nil)

theorem trimPrefix_key (hsrc : src ≠ []) (hr : r ≠ []) :
    trimPrefix (key (src ++ r)) (key src ++ [slash]) = key r := by
  rw [key_append_eq hsrc hr]
  simp [trimPrefix, cutPrefix, hasPrefix]

/-- `e` moves from `src ++ r` to `dst ++ r`. -/
inductive Moved (m : Mount) (host : Node) (src : Path) (now : Float64) (plan : RenamePlan)
    (srcIsDir : Bool) : Path → OverlayEntry → Prop
  | source : Moved m host src now plan srcIsDir [] plan.source
  | entry {r : Path} {e : OverlayEntry} (hdir : srcIsDir = true) (hr : r ≠ [])
      (hord : OrdinaryPath r) (hentry : m.overlay.entries (key (src ++ r)) = some e) :
      Moved m host src now plan srcIsDir r e
  | real {r q : Path} {move : RealMove} (hdir : srcIsDir = true) (hr : r ≠ [])
      (hord : OrdinaryPath r) (hkey : move.oldKey = key (src ++ r))
      (hshown : (host.visibleAt src).isSome) (hread : Readable m host src)
      (hwalk : Walked m host src q) (hmove : CapturedIn m host src now q move) :
      Moved m host src now plan srcIsDir r move.entry

theorem Moved.ordinary {e : OverlayEntry} (h : Moved m host src now plan srcIsDir r e) :
    OrdinaryPath r := by
  cases h with
  | source => simp [OrdinaryPath]
  | entry hdir hr hord hentry | real hdir hr hord hkey hshown hread hwalk hcaptured => exact hord

section Moves

variable {srcIsDir : Bool} (hm : m.Canonical) (hhost : host.isDir = true) (hwf : host.WellFormed)
  (hplan : Renames m host srcV dstV now plan srcIsDir src dst)

include hm hplan

variable {k : GoString} {e : OverlayEntry}

private theorem mem_srcKeys : k ∈ m.overlay.prefixKeys (plan.srcRel ++ [slash]) ↔
      ∃ r, r ≠ [] ∧ OrdinaryPath r ∧ k = key (src ++ r) ∧ m.overlay.entries k ≠ none := by
  have hpre : plan.srcRel ++ [slash] = directoryPrefix (key src) := by
    rw [hplan.src_eq, directoryPrefix, if_neg ((key_eq_nil hplan.src_ord).not.mpr hplan.src_ne_nil),
      lit_slash]
  rw [hpre]
  exact mem_prefixKeys hm hplan.src_ord

theorem mem_overlayMoves {move : GoString × GoString} :
    move ∈ plan.overlayMoves ↔ srcIsDir = true ∧ ∃ r, r ≠ [] ∧ OrdinaryPath r ∧
      move = (key (src ++ r), key (dst ++ r)) ∧ m.overlay.entries (key (src ++ r)) ≠ none := by
  rw [hplan.overlayMoves_eq]
  cases srcIsDir with
  | false => simp
  | true =>
    have hnew : ∀ r, r ≠ [] → plan.dstRel ++ slash ::
        (key (src ++ r)).drop (plan.srcRel.length + 1) = key (dst ++ r) := by
      intro r hr
      rw [hplan.src_eq, hplan.dst_eq, drop_key hplan.src_ne_nil hr, key_append hplan.dst_ne_nil hr]
    simp only [if_true, List.mem_map, true_and, mem_srcKeys hm hplan]
    constructor
    · rintro ⟨k, ⟨r, hr, hord, rfl, hentry⟩, rfl⟩
      exact ⟨r, hr, hord, by rw [hnew r hr], hentry⟩
    · rintro ⟨r, hr, hord, rfl, hentry⟩
      exact ⟨_, ⟨r, hr, hord, rfl, hentry⟩, by rw [hnew r hr]⟩

include hhost hwf

theorem mem_realMoves {move : RealMove} :
    (move, k) ∈ plan.realMoves ↔ srcIsDir = true ∧ ∃ r q, r ≠ [] ∧ OrdinaryPath r ∧
      move.oldKey = key (src ++ r) ∧ k = key (dst ++ r) ∧ (host.visibleAt src).isSome ∧
      Readable m host src ∧ Walked m host src q ∧ CapturedIn m host src now q move := by
  have hmoves := hplan.moves
  cases srcIsDir with
  | false =>
    have hnil : plan.realMoves = [] := (congrArg Prod.snd (Except.ok.inj hmoves)).symm
    simp [hnil]
  | true =>
    simp only [renameMoves, bind_eq_ok, Bool.not_true, Bool.false_eq_true, if_false, pure_eq_ok,
      lit_slash] at hmoves
    obtain ⟨available, -, remaining, -, children, hchildren, hpair⟩ := hmoves
    have hrel := hplan.srcOk
    rw [hplan.src_eq] at hrel hchildren
    have hhandled : ∀ k ∈ m.overlay.prefixKeys (key src ++ [slash]),
        m.overlay.entries k ≠ none := by
      intro k hk
      rw [← hplan.src_eq] at hk
      obtain ⟨_, _, _, _, hentry⟩ := (mem_srcKeys hm hplan).mp hk
      exact hentry
    obtain ⟨hsound, hall⟩ := renameRealMoves_eq_ok hhost hwf hplan.src_ord hplan.src_ne_nil hrel
      hhandled hchildren
    have hnew : ∀ r, r ≠ [] → plan.dstRel ++ [slash] ++
        trimPrefix (key (src ++ r)) (plan.srcRel ++ [slash]) = key (dst ++ r) := by
      intro r hr
      rw [hplan.src_eq, hplan.dst_eq, trimPrefix_key hplan.src_ne_nil hr,
        key_append_eq hplan.dst_ne_nil hr]
    rw [← (Prod.mk.inj hpair).2, List.mem_map]
    constructor
    · rintro ⟨child, hchild, hmove⟩
      obtain ⟨rfl, rfl⟩ := Prod.mk.inj hmove
      obtain ⟨hshown, htree, hread, q, hwalk, hcaptured⟩ := hsound child hchild
      obtain ⟨name, hord, hkey, -⟩ := hcaptured.seen hhost hwf hplan.src_ne_nil htree hread
        hshown hwalk
      refine ⟨rfl, q ++ [name], q, by simp, (ordinaryPath_append.mp hord).2, hkey, ?_, hshown,
        hread, hwalk, hcaptured⟩
      rw [hkey, hnew _ (by simp)]
    · rintro ⟨-, r, q, hr, -, hkey, rfl, hshown, hread, hwalk, hcaptured⟩
      obtain ⟨node, hnode⟩ := Option.isSome_iff_exists.mp hshown
      have hdir : node.isDir = true := by
        have htree := onTree_of_visible hplan.src_ord hshown
        have hroot : Walked m host src [] := .refl
        obtain ⟨_, _, _, hvisible, -⟩ := hroot.visible hhost hwf hplan.src_ne_nil htree hread hshown
        rw [List.append_nil, hnode] at hvisible
        cases hvisible
        rfl
      exact ⟨move, hall node hnode hdir hread q move hwalk hcaptured, by rw [hkey, hnew r hr]⟩

theorem exists_moved_of_mem_batch (h : (k, e) ∈ plan.batch m.overlay) :
    ∃ r e', Moved m host src now plan srcIsDir r e' ∧ OrdinaryPath r ∧
      (k = key (src ++ r) ∧ e = deletedEntry ∨ k = key (dst ++ r) ∧ e = e') := by
  simp only [RenamePlan.batch, List.mem_append, List.mem_cons, List.not_mem_nil, or_false,
    List.mem_flatMap, Prod.mk.injEq] at h
  have hroot : OrdinaryPath ([] : Path) := by simp [OrdinaryPath]
  rcases h with ((⟨rfl, rfl⟩ | ⟨rfl, rfl⟩) | ⟨move, hmove, h⟩) | ⟨⟨move, new⟩, hmove, h⟩
  · exact ⟨[], plan.source, .source, hroot, .inl ⟨by simpa using hplan.src_eq, rfl⟩⟩
  · exact ⟨[], plan.source, .source, hroot, .inr ⟨by simpa using hplan.dst_eq, rfl⟩⟩
  · obtain ⟨hdir, r, hr, hord, rfl, hentry⟩ := (mem_overlayMoves hm hplan).mp hmove
    obtain ⟨e', he'⟩ := Option.ne_none_iff_exists'.mp hentry
    refine ⟨r, e', .entry hdir hr hord he', hord, ?_⟩
    simpa [he'] using h
  · obtain ⟨hdir, r, q, hr, hord, hkey, rfl, hshown, hread, hwalk, hcaptured⟩ :=
      (mem_realMoves hm hhost hwf hplan).mp hmove
    refine ⟨r, move.entry, .real hdir hr hord hkey hshown hread hwalk hcaptured, hord, ?_⟩
    simpa [hkey] using h

theorem mem_batch_of_moved (h : Moved m host src now plan srcIsDir r e) :
    (key (src ++ r), deletedEntry) ∈ plan.batch m.overlay ∧
      (key (dst ++ r), e) ∈ plan.batch m.overlay := by
  simp only [RenamePlan.batch, List.mem_append, List.mem_cons, List.not_mem_nil, or_false,
    List.mem_flatMap, Prod.mk.injEq]
  cases h with
  | source => simp [hplan.src_eq, hplan.dst_eq]
  | entry hdir hr hord hentry =>
    have hmove : (key (src ++ r), key (dst ++ r)) ∈ plan.overlayMoves :=
      (mem_overlayMoves hm hplan).mpr ⟨hdir, r, hr, hord, rfl, by simp [hentry]⟩
    refine ⟨.inl (.inr ⟨_, hmove, .inl ⟨rfl, trivial⟩⟩), .inl (.inr ⟨_, hmove, .inr ⟨rfl, ?_⟩⟩)⟩
    simp [hentry]
  | real hdir hr hord hkey hshown hread hwalk hcaptured =>
    rename_i q move
    have hmove : (move, key (dst ++ r)) ∈ plan.realMoves :=
      (mem_realMoves hm hhost hwf hplan).mpr
        ⟨hdir, r, q, hr, hord, hkey, rfl, hshown, hread, hwalk, hcaptured⟩
    exact ⟨.inr ⟨_, hmove, .inl ⟨hkey.symm, trivial⟩⟩, .inr ⟨_, hmove, .inr ⟨rfl, rfl⟩⟩⟩

omit hm hwf in
theorem source_seen : plan.source.seen host = m.view host src := by
  have hsource := hplan.source
  rw [hplan.src_eq] at hsource
  have hrel := hplan.srcOk
  rw [hplan.src_eq] at hrel
  have hop := dirOp_key hplan.src_ord hplan.src_ne_nil
  unfold renameSource at hsource
  cases hentry : m.overlay.entries (key src) with
  | some entry =>
    simp only [hentry, Except.ok.injEq] at hsource
    rw [view_of_entry hentry, hsource]
  | none =>
    rw [view_of_none hentry]
    simp only [hentry, bind_eq_ok] at hsource
    obtain ⟨target, hreal, kind, hkind, hsource⟩ := hsource
    have hresolved := resolveReal_eq_ok hhost hplan.src_ord hrel hreal
    rw [hresolved.1] at hkind hsource
    have hshows := classifyTarget_shows hhost hplan.src_ord hrel hreal hkind
    rw [hop] at hsource
    cases kind with
    | symlink | absent => cases hsource
    | dir =>
      obtain ⟨node, hnode, hdir⟩ := hshows
      rw [← pure_eq_ok.mp hsource, hnode, Option.map_some, seen_of_isDir hdir]
      rfl
    | file =>
      obtain ⟨node, hnode, -, -⟩ := hshows
      have hlink := (onTree_of_visible hplan.src_ord (by rw [hnode]; rfl)).noLink
      rw [List.append_nil] at hlink
      have hdescend := (hresolved.2.2.2 node).mp hnode
      cases href : fileRefFromRelative host (key src) with
      | none => simp [href] at hsource
      | some ref =>
        simp only [href, pure_eq_ok] at hsource
        obtain ⟨content, mtime, refused, hfound, rfl⟩ := fileRefFromRelative_eq_some hhost
          hplan.src_ord hplan.src_ne_nil hlink href
        rw [hdescend] at hfound
        cases hfound
        rw [← hsource, hnode]
        simp [OverlayEntry.seen, refSeen_key hplan.src_ord hplan.src_ne_nil hnode, Node.seen]

omit hm in
/-- **What moves shows what stood at its place.** -/
theorem Moved.seen (h : Moved m host src now plan srcIsDir r e) :
    e.seen host = m.view host (src ++ r) := by
  cases h with
  | source =>
    rw [List.append_nil]
    exact source_seen hhost hplan
  | entry hdir hr hord hentry => rw [view_of_entry hentry]
  | real hdir hr hord hkey hshown hread hwalk hcaptured =>
    have htree := onTree_of_visible hplan.src_ord hshown
    obtain ⟨name, hordName, hold, hnone, hseen, -⟩ := hcaptured.seen hhost hwf hplan.src_ne_nil
      htree hread hshown hwalk
    have hpath := (key_inj (ordinaryPath_append.mpr ⟨hplan.src_ord, hord⟩) hordName).mp
      (hkey.symm.trans hold)
    rw [hkey] at hnone
    rw [hseen, ← hpath, view_of_none hnone]

/-- The mount after the rename. -/
def Mount.renamed (m : Mount) (plan : RenamePlan) : Mount :=
  { m with overlay := plan.commit m.overlay }

omit hhost hwf in
theorem renamed_entries : (m.renamed plan).overlay.entries =
    (m.overlay.putAll (plan.batch m.overlay)).entries :=
  commit_entries (hplan.toPlanned.sound hm.sorted)

/-- **What every path shows after a rename**: what it showed before when nothing moves from
or to it, nothing at an old place, and at a new place what stood at the old one.  A path
that is both may show either. -/
theorem view_renamed {p : Path} (hp : OrdinaryPath p) :
    ((m.renamed plan).view host p = m.view host p ∧
        ∀ r e, Moved m host src now plan srcIsDir r e → p ≠ src ++ r ∧ p ≠ dst ++ r) ∨
      (∃ r e, Moved m host src now plan srcIsDir r e ∧ p = src ++ r ∧
        (m.renamed plan).view host p = none) ∨
      ∃ r e, Moved m host src now plan srcIsDir r e ∧ p = dst ++ r ∧
        (m.renamed plan).view host p = m.view host (src ++ r) := by
  have hentries := renamed_entries hm hplan
  by_cases hk : key p ∈ (plan.batch m.overlay).map Prod.fst
  · obtain ⟨e, he, hentry⟩ := OverlayState.putAll_entries_mem m.overlay hk
    rw [← hentries] at hentry
    rw [view_of_entry hentry]
    obtain ⟨r, e', hmoved, hr, h⟩ := exists_moved_of_mem_batch hm hhost hwf hplan he
    refine .inr ?_
    rcases h with ⟨hkey, rfl⟩ | ⟨hkey, rfl⟩
    · have hpath := (key_inj hp (ordinaryPath_append.mpr ⟨hplan.src_ord, hr⟩)).mp hkey
      exact .inl ⟨r, e', hmoved, hpath, rfl⟩
    · have hpath := (key_inj hp (ordinaryPath_append.mpr ⟨hplan.dst_ord, hr⟩)).mp hkey
      exact .inr ⟨r, e, hmoved, hpath, hmoved.seen hhost hwf hplan⟩
  · refine .inl ⟨?_, ?_⟩
    · rw [Mount.view, hentries, OverlayState.putAll_entries_not_mem _ hk, Mount.view]
    intro r e hmoved
    obtain ⟨hold, hnew⟩ := mem_batch_of_moved hm hhost hwf hplan hmoved
    refine ⟨?_, ?_⟩
    · rintro rfl
      exact hk (List.mem_map.mpr ⟨_, hold, rfl⟩)
    · rintro rfl
      exact hk (List.mem_map.mpr ⟨_, hnew, rfl⟩)

end Moves

/-! ## The whole tree moves -/

/-- The path `src ++ r` is taken along: it is the source, it has an entry, or it is a file
or a directory that the walk comes to without meeting an entry or an unreadable
directory. -/
def Taken (m : Mount) (host : Node) (src r : Path) : Prop :=
  r = [] ∨ m.overlay.entries (key (src ++ r)) ≠ none ∨
    Readable m host src ∧ (∀ q, q ≠ [] → q <+: r → m.overlay.entries (key (src ++ q)) = none) ∧
      m.view host (src ++ r) ≠ some .special

/-- The path `src ++ r` stays, but an entry from further down lands on it, and the
destination shows the same as it anyway.  This takes a destination above the source. -/
def Doubled (m : Mount) (host : Node) (src dst r : Path) : Prop :=
  ∃ t, src = dst ++ t ∧ m.overlay.entries (key (src ++ (t ++ r))) ≠ none ∧
    m.view host (dst ++ r) = m.view host (src ++ r)

section Taking

variable (hm : m.Canonical) (hhost : host.isDir = true) (hwf : host.WellFormed)
  (hplan : Renames m host srcV dstV now plan true src dst)

include hhost hwf hplan

theorem Moved.taken {e : OverlayEntry} (h : Moved m host src now plan true r e) :
    Taken m host src r := by
  cases h with
  | source => exact .inl rfl
  | entry hdir hr hord hentry => exact .inr (.inl (by simp [hentry]))
  | real hdir hr hord hkey hshown hread hwalk hcaptured =>
    have hmoved : Moved m host src now plan true r _ :=
      .real hdir hr hord hkey hshown hread hwalk hcaptured
    have hseen := hmoved.seen hhost hwf hplan
    have htree := onTree_of_visible hplan.src_ord hshown
    obtain ⟨name, hordName, hold, hnone, -⟩ := hcaptured.seen hhost hwf hplan.src_ne_nil
      htree hread hshown hwalk
    have hpath := (key_inj (ordinaryPath_append.mpr ⟨hplan.src_ord, hord⟩) hordName).mp
      (hkey.symm.trans hold)
    have hpath := List.append_cancel_left hpath
    refine .inr (.inr ⟨hread, ?_, ?_⟩)
    · intro q hq hpre
      rw [hpath] at hpre
      rcases List.prefix_concat_iff.mp hpre with rfl | hpre
      · rw [← hold]
        exact hnone
      · exact hwalk.free q hq hpre
    · rw [← hseen]
      rcases hcaptured.kind with hkind | hkind
      · simp only [OverlayEntry.seen, hkind, refSeen]
        split <;> simp
      · simp [OverlayEntry.seen, hkind]

theorem exists_moved_of_taken (hr : OrdinaryPath r) (hshows : m.view host (src ++ r) ≠ none)
    (h : Taken m host src r) : ∃ e, Moved m host src now plan true r e := by
  by_cases hnil : r = []
  · subst hnil
    exact ⟨_, .source⟩
  cases hentry : m.overlay.entries (key (src ++ r)) with
  | some e => exact ⟨e, .entry rfl hnil hr hentry⟩
  | none =>
    have hreal : Readable m host src ∧
        (∀ q, q ≠ [] → q <+: r → m.overlay.entries (key (src ++ q)) = none) ∧
        m.view host (src ++ r) ≠ some .special := by
      rcases h with h | h | h
      · exact absurd h hnil
      · exact absurd hentry h
      · exact h
    obtain ⟨hread, hfree, hkind⟩ := hreal
    rw [view_of_none hentry] at hshows hkind
    obtain ⟨node, hnode⟩ := Option.ne_none_iff_exists'.mp (mt (congrArg (Option.map Node.seen)) hshows)
    rw [hnode, Option.map_some] at hkind
    have hshown : (host.visibleAt src).isSome := by
      rw [Node.visibleAt_append] at hnode
      obtain ⟨x, hx, -⟩ := Option.bind_eq_some_iff.mp hnode
      simp [hx]
    have htree := onTree_of_visible hplan.src_ord hshown
    obtain ⟨q, name, rfl⟩ := (List.eq_nil_or_concat' r).resolve_left hnil
    obtain ⟨hwalk, move, hmove, hkey⟩ : Walked m host src q ∧ ∃ move,
        CapturedIn m host src now q move ∧ move.oldKey = key (src ++ (q ++ [name])) :=
      exists_capturedIn hhost hwf hplan.src_ne_nil htree hread hshown
        (ordinaryPath_append.mpr ⟨hplan.src_ord, hr⟩) hfree hnode
        fun h => hkind (congrArg some h)
    exact ⟨_, .real rfl hnil hr hkey hshown hread hwalk hmove⟩

end Taking

/-- The tree below `src` shows below `dst`, and nothing below `src` any more. -/
def RenamesWhole (m m' : Mount) (host : Node) (src dst : Path) : Prop :=
  (∀ r, OrdinaryPath r → ∀ x, m.view host (src ++ r) = some x → m'.view host (dst ++ r) = some x) ∧
    ∀ r, OrdinaryPath r → m'.view host (src ++ r) = none

/-- Everything that shows below the source is taken along, and none of it lands below the
source itself. -/
structure TakesAll (m : Mount) (host : Node) (src dst : Path) : Prop where
  apart : ∀ r, OrdinaryPath r → m.view host (src ++ r) ≠ none → ¬ src <+: dst ++ r
  taken : ∀ r, OrdinaryPath r → m.view host (src ++ r) ≠ none →
    Taken m host src r ∨ Doubled m host src dst r

section Whole

variable (hm : m.Canonical) (hhost : host.isDir = true) (hwf : host.WellFormed)
  (hplan : Renames m host srcV dstV now plan true src dst)

include hm hhost hwf hplan

theorem renamesWhole_of_takesAll (h : TakesAll m host src dst) :
    RenamesWhole m (m.renamed plan) host src dst := by
  -- Where a move lands on the source, it is a deletion.
  have hland : ∀ r r' e, Moved m host src now plan true r e → src ++ r' = dst ++ r →
      m.view host (src ++ r) = none := by
    intro r r' e hmoved hpath
    by_contra hshows
    exact h.apart r hmoved.ordinary hshows ⟨r', hpath⟩
  refine ⟨?_, ?_⟩
  · intro r hr x hx
    have hshows : m.view host (src ++ r) ≠ none := by simp [hx]
    rcases view_renamed hm hhost hwf hplan (ordinaryPath_append.mpr ⟨hplan.dst_ord, hr⟩) with
      ⟨hsame, hnot⟩ | ⟨r', e, hmoved, hpath, -⟩ | ⟨r', e, hmoved, hpath, hview⟩
    · rcases h.taken r hr hshows with htaken | ⟨t, -, -, hdouble⟩
      · obtain ⟨e, hmoved⟩ := exists_moved_of_taken hhost hwf hplan hr hshows htaken
        exact absurd rfl (hnot r e hmoved).2
      · rw [hsame, hdouble, hx]
    · exact absurd ⟨r', hpath.symm⟩ (h.apart r hr hshows)
    · rw [hview, ← List.append_cancel_left hpath, hx]
  · intro r hr
    rcases view_renamed hm hhost hwf hplan (ordinaryPath_append.mpr ⟨hplan.src_ord, hr⟩) with
      ⟨hsame, hnot⟩ | ⟨r', e, -, -, hview⟩ | ⟨r', e, hmoved, hpath, hview⟩
    · rw [hsame]
      by_contra hshows
      rcases h.taken r hr hshows with htaken | ⟨t, ht, hentry, -⟩
      · obtain ⟨e, hmoved⟩ := exists_moved_of_taken hhost hwf hplan hr hshows htaken
        exact (hnot r e hmoved).1 rfl
      · have hne : r ≠ [] := by
          rintro rfl
          exact (hnot [] _ .source).1 rfl
        have hord : OrdinaryPath (t ++ r) := by
          have hsrc := hplan.src_ord
          rw [ht] at hsrc
          exact ordinaryPath_append.mpr ⟨(ordinaryPath_append.mp hsrc).2, hr⟩
        obtain ⟨e, he⟩ := Option.ne_none_iff_exists'.mp hentry
        refine (hnot (t ++ r) e (.entry rfl (by simp [hne]) hord he)).2 ?_
        rw [← List.append_assoc, ← ht]
    · exact hview
    · rw [hview]
      exact hland r' r e hmoved hpath

theorem takesAll_of_renamesWhole (hshown : m.view host src ≠ none)
    (h : RenamesWhole m (m.renamed plan) host src dst) : TakesAll m host src dst := by
  have hapart : ∀ r, OrdinaryPath r → m.view host (src ++ r) ≠ none → ¬ src <+: dst ++ r := by
    rintro r hr hshows ⟨r', hpath⟩
    obtain ⟨x, hx⟩ := Option.ne_none_iff_exists'.mp hshows
    have hord : OrdinaryPath (src ++ r') := by
      rw [hpath]
      exact ordinaryPath_append.mpr ⟨hplan.dst_ord, hr⟩
    have hnone := h.2 r' (ordinaryPath_append.mp hord).2
    rw [hpath, h.1 r hr x hx] at hnone
    cases hnone
  refine ⟨hapart, ?_⟩
  intro r hr hshows
  by_contra hnot
  obtain ⟨hnotTaken, hnotDoubled⟩ := not_or.mp hnot
  have hunmoved : ∀ e, ¬ Moved m host src now plan true r e := fun e hmoved =>
    hnotTaken (hmoved.taken hhost hwf hplan)
  -- The destination shows the path without anything having moved there.
  have hdouble : m.view host (dst ++ r) = m.view host (src ++ r) := by
    obtain ⟨x, hx⟩ := Option.ne_none_iff_exists'.mp hshows
    have hafter := h.1 r hr x hx
    rcases view_renamed hm hhost hwf hplan (ordinaryPath_append.mpr ⟨hplan.dst_ord, hr⟩) with
      ⟨hsame, -⟩ | ⟨r', e, -, hpath, -⟩ | ⟨r', e, hmoved, hpath, -⟩
    · rw [← hsame, hafter, hx]
    · exact absurd ⟨r', hpath.symm⟩ (hapart r hr hshows)
    · rw [← List.append_cancel_left hpath] at hmoved
      exact absurd hmoved (hunmoved e)
  rcases view_renamed hm hhost hwf hplan (ordinaryPath_append.mpr ⟨hplan.src_ord, hr⟩) with
    ⟨hsame, -⟩ | ⟨r', e, hmoved, hpath, -⟩ | ⟨r', e, hmoved, hpath, -⟩
  · rw [h.2 r hr] at hsame
    exact hshows hsame.symm
  · rw [← List.append_cancel_left hpath] at hmoved
    exact hunmoved e hmoved
  · -- Something lands on the path, so the destination is above the source.
    rcases List.append_eq_append_iff.mp hpath with ⟨t, hdst, -⟩ | ⟨t, hsrc, rfl⟩
    · refine hapart [] (by simp [OrdinaryPath]) (by simpa using hshown) ⟨t, ?_⟩
      rw [hdst, List.append_nil]
    · have hlands : ¬ m.view host (src ++ (t ++ r)) ≠ none := fun hvisible =>
        hapart (t ++ r) hmoved.ordinary hvisible ⟨r, hpath⟩
      have hseen := hmoved.seen hhost hwf hplan
      generalize hbelow : t ++ r = u at hmoved hseen hlands
      cases hmoved with
      | source =>
        obtain ⟨-, rfl⟩ := List.append_eq_nil_iff.mp hbelow
        exact hunmoved _ .source
      | entry hdir hne hord hentry =>
        exact hnotDoubled ⟨t, hsrc, by rw [hbelow]; simp [hentry], hdouble⟩
      | real hdir hne hord hkey hshown' hread hwalk hcaptured =>
        refine hlands ?_
        rw [← hseen]
        rcases hcaptured.kind with hkind | hkind <;> simp [OverlayEntry.seen, hkind]

end Whole

theorem renameSrcIsDir_of_view (hhost : host.isDir = true) (hsrc : OrdinaryPath src)
    (hrel : resolveVirtualPath srcV m.root.virtualPath = .ok (key src))
    (hdir : m.view host src = some .dir) (h : renameSrcIsDir m host (key src) srcV = .ok srcIsDir) :
    srcIsDir = true := by
  unfold renameSrcIsDir at h
  cases hentry : m.overlay.entries (key src) with
  | some entry =>
    rw [view_of_entry hentry] at hdir
    simp only [hentry] at h
    simpa [seen_eq_dir_iff.mp hdir] using h.symm
  | none =>
    rw [view_of_none hentry] at hdir
    obtain ⟨node, hnode, hseen⟩ := Option.map_eq_some_iff.mp hdir
    simp only [hentry, bind_eq_ok, pure_eq_ok] at h
    obtain ⟨target, hreal, h⟩ := h
    obtain ⟨rfl, hstat, -, hdescend⟩ := resolveReal_eq_ok hhost hsrc hrel hreal
    rw [hostIsDir, hstat, (hdescend node).mp hnode] at h
    rw [← h]
    cases node <;> simp_all [Node.seen, Node.isDir]

/-- **When a rename of a directory moves the whole tree.**  A rename that fails changes
nothing.  One that succeeds moves everything that shows below the source if and only if
all of it is taken along and none of it lands below the source itself. -/
theorem rename_directory_whole_iff (hm : m.Canonical) (hhost : host.isDir = true)
    (hwf : host.WellFormed) (hsrc : OrdinaryPath src)
    (hrel : resolveVirtualPath srcV m.root.virtualPath = .ok (key src))
    (hdir : m.view host src = some .dir) :
    match overlayExecute host (.rename srcV dstV) now m with
    | .error _ m' => m' = m
    | .ok _ m' => ∀ dst, OrdinaryPath dst →
        resolveVirtualPath dstV m.root.virtualPath = .ok (key dst) →
        (RenamesWhole m m' host src dst ↔ TakesAll m host src dst) := by
  cases hcall : overlayExecute host (.rename srcV dstV) now m with
  | error e m' =>
    rcases Fallible.bind_eq_error.mp hcall with h | ⟨_, _, -, h⟩
    · exact failsClean_overlayRename m e m' h
    · exact absurd h Fallible.pure_ne_error
  | ok result m' =>
    obtain ⟨_, m₁, hrename, hpure⟩ := Fallible.bind_eq_ok.mp hcall
    obtain ⟨-, rfl⟩ := Fallible.pure_eq_ok.mp hpure
    intro dst hdst hdstRel
    obtain ⟨plan, hplan, -, rfl⟩ := overlayRename_eq_ok hrename
    obtain ⟨srcIsDir, hplanned⟩ := renamePlan_eq_ok hplan
    obtain ⟨src', dst', hrenames⟩ := hplanned.renames
    have hsrcEq : src' = src := by
      refine (key_inj hrenames.src_ord hsrc).mp ?_
      rw [← hrenames.src_eq]
      exact Except.ok.inj (hrenames.srcOk.symm.trans hrel)
    have hdstEq : dst' = dst := by
      refine (key_inj hrenames.dst_ord hdst).mp ?_
      rw [← hrenames.dst_eq]
      exact Except.ok.inj (hrenames.dstOk.symm.trans hdstRel)
    subst hsrcEq hdstEq
    have hkind := hrenames.kind
    rw [hrenames.src_eq] at hkind
    obtain rfl := renameSrcIsDir_of_view hhost hsrc hrel hdir hkind
    exact ⟨takesAll_of_renamesWhole hm hhost hwf hrenames (by simp [hdir]),
      renamesWhole_of_takesAll hm hhost hwf hrenames⟩

/-- A host with a directory `d` that holds a file and a directory with a file. -/
def filledHost : Node :=
  .dir [(lit "d", .dir [(lit "f", .file (lit "x") 0 none),
    (lit "s", .dir [(lit "g", .file (lit "y") 0 none)] 0 {})] 0 {})] 0 {}

theorem ordinary_letter {name : GoString}
    (h : name ∈ [lit "d", lit "e", lit "f", lit "g", lit "s"]) :
    Ordinary name ∧ validString name = true := by
  simp only [List.mem_cons, List.not_mem_nil, or_false] at h
  obtain rfl | rfl | rfl | rfl | rfl := h <;>
    exact ⟨⟨by decide, by decide, by decide, by decide⟩, by decide⟩

theorem filledHost_plain : filledHost.Plain := by
  have hname : ∀ {children : List (GoString × Node)}, (∀ child ∈ children,
      child.1 ∈ [lit "d", lit "e", lit "f", lit "g", lit "s"]) → ∀ child ∈ children,
        Ordinary child.1 ∧ validString child.1 = true :=
    fun h child hchild => ordinary_letter (h child hchild)
  refine .dir (hname (by simp)) (by decide) ?_
  simp only [List.forall_mem_singleton]
  refine .dir (hname (by simp)) (by decide) ?_
  simp only [List.forall_mem_cons, List.not_mem_nil, false_implies, implies_true, and_true]
  refine ⟨.file (by decide), .dir (hname (by simp)) (by decide) ?_⟩
  simp only [List.forall_mem_singleton]
  exact .file (by decide)

/-- The walk comes to `d` and to the directory in it, and both list to their end. -/
theorem readable_filledHost {m : Mount} : Readable m filledHost [lit "d"] := by
  have hwalked : ∀ q, Walked m filledHost [lit "d"] q → q = [] ∨ q = [lit "s"] := by
    intro q h
    induction h with
    | refl => exact .inl rfl
    | tail _ hnext ih =>
      obtain ⟨f, hf, hq⟩ := hnext
      obtain rfl | rfl := ih
      · cases (show dirAt filledHost [lit "d"] [] = .ok _ from rfl).symm.trans hf
        obtain ⟨entry, hentry, hq⟩ := List.mem_flatMap.mp hq
        simp only [enterOf] at hq
        split at hq
        · rename_i hdir
          obtain rfl | rfl := List.mem_pair.mp hentry
          · cases hdir.2
          · exact .inr (List.mem_singleton.mp hq)
        · cases hq
      · cases (show dirAt filledHost [lit "d"] [lit "s"] = .ok _ from rfl).symm.trans hf
        simp [enterOf, Node.isDir] at hq
  intro q hq
  obtain rfl | rfl := hwalked q hq <;> exact ⟨_, rfl, rfl⟩

/-- A rename moves a directory with a file and a subdirectory whole. -/
theorem rename_directory_whole_iff_filledDir : ∃ m m' : Mount,
      overlayExecute filledHost (.rename (lit "/d") (lit "/e")) 0 m = .ok .none m' ∧
      RenamesWhole m m' filledHost [lit "d"] [lit "e"] ∧
      m'.view filledHost ([lit "e"] ++ [lit "s", lit "g"]) = some (.file (lit "y") none) := by
  let m := newMount (Root.open (lit "/")) none 1000000
  have hord : ∀ name ∈ [lit "d", lit "e"], OrdinaryPath [name] := by
    intro name hname x hx
    rw [List.mem_singleton.mp hx]
    obtain rfl | rfl := List.mem_pair.mp hname <;> exact (ordinary_letter (by simp)).1
  have htakes : TakesAll m filledHost [lit "d"] [lit "e"] := by
    refine ⟨fun r _ _ hpre => ?_, fun r _ _ => .inl (.inr (.inr
      ⟨readable_filledHost, fun _ _ _ => rfl, ?_⟩))⟩
    · exact absurd (List.cons_prefix_cons.mp hpre).1 (by decide)
    · rw [view_of_none (show m.overlay.entries _ = none from rfl)]
      intro h
      obtain ⟨node, hnode, hspecial⟩ := Option.map_eq_some_iff.mp h
      obtain hfile | hdir := filledHost_plain.visibleAt hnode <;> cases hspecial
  have hdir : m.view filledHost [lit "d"] = some .dir := by decide
  obtain ⟨m', hcall⟩ : ∃ m', overlayExecute filledHost (.rename (lit "/d") (lit "/e")) 0 m =
      .ok .none m' := ⟨_, rename_eq_ok (by decide)⟩
  have hwhole : RenamesWhole m m' filledHost [lit "d"] [lit "e"] := by
    -- the host stays a variable until the theorem is applied, so that the call is not evaluated
    obtain ⟨host, hhost⟩ : ∃ host, host = filledHost := ⟨_, rfl⟩
    rw [← hhost] at hdir hcall htakes ⊢
    have hiff := @rename_directory_whole_iff m host (lit "/d") (lit "/e") 0 [lit "d"]
      (canonical_newMount _ _ _) (hhost ▸ rfl) (hhost ▸ filledHost_plain.wellFormed)
      (hord (lit "d") (by simp)) rfl hdir
    rw [hcall] at hiff
    exact (hiff [lit "e"] (hord (lit "e") (by simp)) rfl).mpr htakes
  have hseen : m.view filledHost ([lit "d"] ++ [lit "s", lit "g"]) =
      some (.file (lit "y") none) := by decide
  refine ⟨m, m', hcall, hwhole, hwhole.1 [lit "s", lit "g"] ?_ _ hseen⟩
  intro name hname
  obtain rfl | rfl := List.mem_pair.mp hname <;> exact (ordinary_letter (by simp)).1

/-- A host with a directory `d` that holds a file `f` and a directory that cannot be
opened. -/
def lockedHost : Node :=
  .dir [(lit "d", .dir [(lit "f", .file (lit "x") 0 none), (lit "locked", .dir [] 0
      { opens := some ⟨.errno .eacces (lit "permission denied"), rfl⟩ })] 0 {})] 0 {}

/-- A rename of `/d` to `/e` succeeds although the walk could not open `/d/locked`: the
file `/d/f` stays at the source. -/
theorem rename_leaves_tree_beside_locked :
    ∃ m m' : Mount, m.Canonical ∧ m.view lockedHost [lit "d"] = some .dir ∧
      overlayExecute lockedHost (.rename (lit "/d") (lit "/e")) 0 m = .ok .none m' ∧
      m'.view lockedHost [lit "d", lit "f"] = some (.file (lit "x") none) ∧
      m'.view lockedHost [lit "e", lit "f"] = none ∧
      ¬ RenamesWhole m m' lockedHost [lit "d"] [lit "e"] := by
  let m := newMount (Root.open (lit "/")) none 1000000
  let m' := m.serve ⟨lockedHost, .rename (lit "/d") (lit "/e"), 0⟩
  have hstays : m'.view lockedHost [lit "d", lit "f"] = some (.file (lit "x") none) := by decide
  refine ⟨m, m', canonical_newMount _ _ _, by decide, rename_eq_ok (by decide), hstays,
    by decide, ?_⟩
  rintro ⟨-, hnone⟩
  have hgone := hnone [lit "f"] (by
    intro name hname
    rw [List.mem_singleton.mp hname]
    exact ⟨by decide, by decide, by decide, by decide⟩)
  rw [List.singleton_append, hstays] at hgone
  cases hgone

end Montygo.MountFs
