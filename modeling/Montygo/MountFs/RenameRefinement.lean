import Montygo.MountFs.Refinement

/-!
# A rename moves a subtree

A successful `overlayRename` over a plain host is a rename of the file tree.  The checks
give what POSIX asks for, and what the batch puts keeps the invariant of `Refines`: the
walk captures every real path below the source that has no entry yet, and the destination
was not a directory or an empty one, so nothing real below it is uncovered.
-/

namespace Montygo.MountFs

open Go Value Outcome OverlayState

variable {m : Mount} {host node : Node} {srcV dstV root : GoString} {now : Float64}
  {plan : RenamePlan} {src dst r : Path} {t : Tree} {srcIsDir : Bool} {e : OverlayEntry}

/-! ## The walk over a plain host -/

theorem Walked.plain (hhost : host.isDir = true) (hplain : host.Plain) (hne : src ≠ [])
    (hsrc : OrdinaryPath src) (hdir : node.isDir = true) (hshown : host.visibleAt src = some node)
    {q : Path} (h : Walked m host src q) : ∃ children mtime, OrdinaryPath (src ++ q) ∧
      host.visibleAt (src ++ q) = some (.dir children mtime {}) ∧
      dirAt host src q = .ok { entries := children, failure := none } := by
  have hopen : ∀ q children mtime, OrdinaryPath (src ++ q) →
      host.visibleAt (src ++ q) = some (.dir children mtime {}) →
      dirAt host src q = .ok { entries := children, failure := none } := by
    intro q children mtime hord hvisible
    have hstat := stat_of_visibleAt hhost hord hvisible
    rw [dirOp_key hord (by simp [hne])] at hstat
    rw [dirAt, openDir, hstat]
  induction h with
  | refl =>
    rw [List.append_nil]
    have hnode := hplain.visibleAt hshown
    cases hnode with
    | file size => cases hdir
    | @dir children mtime names unique below =>
      exact ⟨children, mtime, hsrc, hshown, hopen [] children mtime (by simpa using hsrc)
        (by simpa using hshown)⟩
  | @tail q₁ q₂ _ henter ih =>
    obtain ⟨children, mtime, hord, hvisible, hlist⟩ := ih
    obtain ⟨f, hf, hmem⟩ := henter
    rw [hlist] at hf
    cases hf
    obtain ⟨⟨name, child⟩, hentry, hq⟩ := List.mem_flatMap.mp hmem
    unfold enterOf at hq
    split at hq
    · rename_i hfree
      rw [List.mem_singleton.mp hq]
      cases hplain.visibleAt hvisible with
      | dir names unique below =>
        have hname := (names _ hentry).1
        have hchild := below _ hentry
        simp only at hname hchild hfree
        have hlookup : (Node.dir children mtime {}).child name = .ok child := by
          simp [Node.child, Node.find?_of_mem unique hentry]
        cases hchild with
        | file size => cases hfree.2
        | @dir grandchildren childtime _ _ _ =>
          have hord' : OrdinaryPath (src ++ (q₁ ++ [name])) := by
            rw [← List.append_assoc]
            exact ordinaryPath_append.mpr ⟨hord, by simpa [OrdinaryPath] using hname⟩
          have hvisible' : host.visibleAt (src ++ (q₁ ++ [name])) =
              some (.dir grandchildren childtime {}) := by
            rw [← List.append_assoc, Node.visibleAt_append, hvisible]
            simp [Node.visibleAt, hlookup]
          exact ⟨_, _, hord', hvisible', hopen _ _ _ hord' hvisible'⟩
    · cases hq

theorem readable_of_plain (hhost : host.isDir = true) (hplain : host.Plain) (hne : src ≠ [])
    (hsrc : OrdinaryPath src) (hdir : node.isDir = true)
    (hshown : host.visibleAt src = some node) : Readable m host src := by
  intro q hwalk
  obtain ⟨children, mtime, -, -, hlist⟩ := hwalk.plain hhost hplain hne hsrc hdir hshown
  exact ⟨_, hlist, rfl⟩

theorem CapturedIn.ref {q : Path} {move : RealMove} (h : CapturedIn m host src now q move)
    (hkind : move.entry.kind = .realFileRef) :
    fileRefFromRelative host move.oldKey = some move.entry := by
  refine h.ref_or_directory.resolve_right fun hdir => ?_
  rw [hkind] at hdir
  cases hdir

theorem ref_leads (hhost : host.isDir = true) (hplain : host.Plain) {p : Path}
    (hp : OrdinaryPath p) (hne : p ≠ []) (hshown : host.visibleAt p = some node)
    (href : fileRefFromRelative host (key p) = some e) :
    ∃ q content mtime, q ≠ [] ∧ OrdinaryPath q ∧ e.relative = key q ∧
      host.visibleAt q = some (.file content mtime none) ∧ e.size = content.length := by
  obtain ⟨hchain, hdescend⟩ := (visibleAt_eq_some_iff [] hp).mp hshown
  obtain ⟨content, mtime, refused, hfound, rfl⟩ := fileRefFromRelative_eq_some hhost hp hne
    (meetsLink_of_chainLoop hp hchain) href
  rw [hdescend] at hfound
  cases hfound
  have hfile := hplain.visibleAt hshown
  cases hfile with
  | file size => exact ⟨p, content, mtime, hne, hp, rfl, hshown, rfl⟩


/-! ## What the checks have established -/

section Checks

variable (h : Refines root host m t) (hhost : host.isDir = true) (hplain : host.Plain)
  (hplan : Renames m host srcV dstV now plan srcIsDir src dst)

include hhost hplan

omit hhost in
theorem source_kind : plan.source.kind ≠ .deleted := by
  have hsource := hplan.source
  have hkind := hplan.kind
  unfold renameSource at hsource
  unfold renameSrcIsDir at hkind
  cases hentry : m.overlay.entries plan.srcRel with
  | some entry =>
    simp only [hentry] at hsource hkind
    split at hkind
    · cases hkind
    · rw [← Except.ok.inj hsource]
      assumption
  | none =>
    simp only [hentry, bind_eq_ok] at hsource
    obtain ⟨target, -, kind, -, hsource⟩ := hsource
    cases kind with
    | symlink | absent => cases hsource
    | dir =>
      rw [← pure_eq_ok.mp hsource]
      simp [directoryEntry]
    | file =>
      simp only at hsource
      split at hsource
      · cases hsource
      rename_i ref href
      rw [← pure_eq_ok.mp hsource]
      unfold fileRefFromRelative at href
      split at href
      · cases href
      split at href
      · cases href
        simp
      · cases href

theorem source_shown : m.view host src ≠ none := by
  rw [← source_seen hhost hplan]
  have hkind := source_kind hplan
  cases hother : plan.source.kind <;> simp_all [OverlayEntry.seen]

theorem srcIsDir_iff : srcIsDir = true ↔ m.view host src = some .dir := by
  have hkind := hplan.kind
  have hrel := hplan.srcOk
  rw [hplan.src_eq] at hkind hrel
  refine ⟨?_, fun hdir => renameSrcIsDir_of_view hhost hplan.src_ord hrel hdir hkind⟩
  rintro rfl
  unfold renameSrcIsDir at hkind
  cases hentry : m.overlay.entries (key src) with
  | some entry =>
    rw [view_of_entry hentry, seen_eq_dir_iff]
    simp only [hentry] at hkind
    split at hkind
    · cases hkind
    · simpa using hkind
  | none =>
    rw [view_of_none hentry]
    simp only [hentry, bind_eq_ok, pure_eq_ok] at hkind
    obtain ⟨target, hreal, hdir⟩ := hkind
    obtain ⟨rfl, hstat, -, hseen⟩ := resolveReal_eq_ok hhost hplan.src_ord hrel hreal
    cases hdescend : host.descend src with
    | error err => simp [hostIsDir, hstat, hdescend] at hdir
    | ok node =>
      simp only [hostIsDir, hstat, hdescend] at hdir
      rw [(hseen node).mpr hdescend, Option.map_some, seen_of_isDir hdir]

/-- A destination without an entry resolves, and `Stat` tells what shows there. -/
private theorem dst_stat (hentry : m.overlay.entries (key dst) = none) :
    resolveVirtualPath dstV m.root.virtualPath = .ok (key dst) ∧
      stat host (dirOp (key dst)) = host.descend dst ∧
      ∀ node, host.visibleAt dst = some node ↔ host.descend dst = .ok node := by
  have hrel := hplan.dstOk
  have hreal := hplan.dstReal
  rw [hplan.dst_eq] at hrel hreal
  rw [rejectUnresolvedDst, hentry] at hreal
  cases hresolve : m.resolveReal host dstV with
  | error err => simp [hresolve, Except.map] at hreal
  | ok target =>
    obtain ⟨-, hstat, -, hseen⟩ := resolveReal_eq_ok hhost hplan.dst_ord hrel hresolve
    exact ⟨hrel, hstat, hseen⟩

theorem dst_kind (hplain : host.Plain) :
    if srcIsDir then m.view host dst = none ∨ m.view host dst = some .dir
    else m.view host dst ≠ some .dir := by
  have hsame := hplan.sameKind
  rw [hplan.dst_eq] at hsame
  unfold rejectRenameTypeMismatch at hsame
  cases hentry : m.overlay.entries (key dst) with
  | some entry =>
    rw [view_of_entry hentry]
    cases srcIsDir with
    | false =>
      intro hdir
      rw [seen_eq_dir_iff] at hdir
      simp [hentry, hdir] at hsame
    | true =>
      cases hkind : entry.kind with
      | directory => exact .inr (seen_eq_dir_iff.mpr hkind)
      | deleted => exact .inl (by simp [OverlayEntry.seen, hkind])
      | file | realFileRef => simp [hentry, hkind] at hsame
  | none =>
    obtain ⟨hrel, hstat, hseen⟩ := dst_stat hhost hplan hentry
    rw [view_of_none hentry]
    simp only [hentry, hrel, hostIsDir, hostExists, hstat] at hsame
    cases hdescend : host.descend dst with
    | error err =>
      rw [visibleAt_of_descend_error hplan.dst_ord hdescend]
      cases srcIsDir <;> simp
    | ok node =>
      have hshown := (hseen node).mpr hdescend
      rw [hshown]
      rw [hdescend] at hsame
      cases hplain.visibleAt hshown with
      | file size | dir names unique below => cases srcIsDir <;> simp_all [Node.isDir, Node.seen]

include h hplain

theorem dst_covered (hdir : m.view host dst = some .dir → srcIsDir = true) :
    m.Covered host dst ∧ (m.view host dst = some .dir → ∀ name, t (dst ++ [name]) = none) := by
  by_cases hview : m.view host dst = some .dir
  · have hofDir := hplan.ofDir
    rw [hdir hview, hplan.dst_eq] at hofDir
    simp only [rejectRenameOfDir, Bool.not_true, Bool.false_eq_true, if_false, bind_eq_ok] at hofDir
    obtain ⟨_, hempty, -⟩ := hofDir
    have honto : renameOntoDir m host (key dst) dstV = true := by
      unfold renameOntoDir
      cases hentry : m.overlay.entries (key dst) with
      | some entry =>
        rw [view_of_entry hentry, seen_eq_dir_iff] at hview
        simp [hview]
      | none =>
        obtain ⟨hrel, hstat, hseen⟩ := dst_stat hhost hplan hentry
        rw [view_of_none hentry] at hview
        obtain ⟨node, hnode, hdir⟩ := Option.map_eq_some_iff.mp hview
        simp only [hrel, hostIsDir, hstat, (hseen node).mp hnode]
        cases node <;> simp_all [Node.seen, Node.isDir]
    rw [rejectRenameOntoNonemptyDir, honto] at hempty
    simp only [Bool.not_true, Bool.false_eq_true, if_false] at hempty
    split at hempty
    · cases hempty
    rename_i hchildren
    have hcovered : m.Covered host dst := by
      cases hentry : m.overlay.entries (key dst) with
      | some entry => exact h.covers.of_entry (by simp [hentry])
      | none =>
        obtain ⟨hrel, hstat, hseen⟩ := dst_stat hhost hplan hentry
        rw [view_of_none hentry] at hview
        obtain ⟨node, hnode, hdir⟩ := Option.map_eq_some_iff.mp hview
        have hisDir : node.isDir = true := by
          cases node <;> simp_all [Node.seen, Node.isDir]
        simp only [hrel, hostIsDir, hstat, (hseen node).mp hnode, hisDir, if_true,
          bind_eq_ok] at hempty
        obtain ⟨visible, hvisible, hempty⟩ := hempty
        cases visible with
        | true => simp at hempty
        | false => exact h.covered_of_real hhost hplain hplan.dst_ord hnode hvisible
    exact ⟨hcovered, fun _ => h.empty hplan.dst_ord hcovered (by simpa using hchildren)⟩
  · exact ⟨h.covers.of_not_dir hview, fun hdir => absurd hdir hview⟩

/-- **The checks are those of a rename of the tree.** -/
theorem Renames.allows : FileTree.Allows t (.rename src dst) := by
  have hsrc := mt (h.none_iff hplan.src_ord).mpr (source_shown hhost hplan)
  have hkind := dst_kind hhost hplan hplain
  have hisDir := (srcIsDir_iff hhost hplan).trans (h.dir_iff hplan.src_ord)
  rcases eq_or_ne src dst with heq | hne
  · exact .inl ⟨heq, hsrc⟩
  have hparent := hplan.dstParent
  rw [hplan.dst_eq] at hparent
  refine .inr ⟨hsrc, hplan.src_ne_nil, h.hasParent hplan.dst_ord hplan.dst_ne_nil hparent, ?_, ?_⟩
  · intro hdir
    obtain rfl := hisDir.mpr hdir
    refine ⟨?_, ?_⟩
    · rintro ⟨r, hr⟩
      have hofDir := hplan.ofDir
      simp only [rejectRenameOfDir, Bool.not_true, Bool.false_eq_true, if_false,
        bind_eq_ok] at hofDir
      obtain ⟨_, -, hofDir⟩ := hofDir
      split at hofDir
      · cases hofDir
      rename_i hbelow
      refine hbelow ?_
      have hr' : r ≠ [] := by
        rintro rfl
        exact hne (by simpa using hr)
      rw [hplan.src_eq, hplan.dst_eq, ← hr, key_append_eq hplan.src_ne_nil hr', lit_slash,
        hasPrefix, List.isPrefixOf_iff_prefix]
      exact List.prefix_append _ _
    · rw [← h.none_iff hplan.dst_ord, ← h.dir_iff hplan.dst_ord]
      refine hkind.imp_right fun hview => ⟨hview, ?_⟩
      exact (dst_covered h hhost hplain hplan fun _ => rfl).2 hview
  · intro hfile
    have hnotDir : srcIsDir = false := by
      rw [← Bool.not_eq_true, hisDir]
      exact hfile
    rw [hnotDir] at hkind
    exact mt (h.dir_iff hplan.dst_ord).mpr hkind

end Checks


/-! ## The mount after the rename -/

section Renamed

variable (h : Refines root host m t) (hhost : host.isDir = true) (hplain : host.Plain)
  (hplan : Renames m host srcV dstV now plan srcIsDir src dst)

include h hhost hplain hplan

theorem Moved.ref (hmoved : Moved m host src now plan srcIsDir r e)
    (hkind : e.kind = .realFileRef) :
    ∃ q content mtime, q ≠ [] ∧ OrdinaryPath q ∧ e.relative = key q ∧
      host.visibleAt q = some (.file content mtime none) ∧ e.size = content.length := by
  cases hmoved with
  | source =>
    cases hentry : m.overlay.entries (key src) with
    | some entry =>
      have hsource := (hplan.toPlanned.sound h.canonical.sorted).source entry
        (by rw [hplan.src_eq]; exact hentry)
      rw [hsource] at hkind ⊢
      exact h.refs _ entry hentry hkind
    | none =>
      have hsource := hplan.source
      have hrel := hplan.srcOk
      rw [hplan.src_eq] at hsource hrel
      simp only [renameSource, hentry, bind_eq_ok] at hsource
      obtain ⟨target, hreal, kind, hclass, hsource⟩ := hsource
      obtain ⟨rfl, -, -, -⟩ := resolveReal_eq_ok hhost hplan.src_ord hrel hreal
      have hshows := classifyTarget_shows hhost hplan.src_ord hrel hreal hclass
      cases kind with
      | symlink | absent => cases hsource
      | dir =>
        rw [← pure_eq_ok.mp hsource] at hkind
        cases hkind
      | file =>
        obtain ⟨node, hnode, -, -⟩ := hshows
        simp only [dirOp_key hplan.src_ord hplan.src_ne_nil] at hsource
        split at hsource
        · cases hsource
        rename_i ref href
        rw [pure_eq_ok.mp hsource] at href
        exact ref_leads hhost hplain hplan.src_ord hplan.src_ne_nil hnode href
  | entry hdir hr hord hentry => exact h.refs _ _ hentry hkind
  | real hdir hr hord hkey hshown hread hwalk hcaptured =>
    have hwf := hplain.wellFormed
    obtain ⟨name, hordName, hold, -, -, hsome⟩ := hcaptured.seen hhost hwf hplan.src_ne_nil
      (onTree_of_visible hplan.src_ord hshown) hread hshown hwalk
    obtain ⟨node, hnode⟩ := Option.isSome_iff_exists.mp hsome
    have href := hcaptured.ref hkind
    rw [hold] at href
    exact ref_leads hhost hplain hordName (by simp) hnode href

theorem exists_moved (hr : OrdinaryPath r) (hshown : m.view host (src ++ r) ≠ none) :
    ∃ e, Moved m host src now plan srcIsDir r e := by
  rcases eq_or_ne r [] with rfl | hne
  · exact ⟨_, .source⟩
  have hord : OrdinaryPath (src ++ r) := ordinaryPath_append.mpr ⟨hplan.src_ord, hr⟩
  have hdir : m.view host src = some .dir := by
    rw [h.dir_iff hplan.src_ord]
    exact h.tree.above hne (mt (h.none_iff hord).mpr hshown)
  obtain rfl := (srcIsDir_iff hhost hplan).mpr hdir
  refine exists_moved_of_taken hhost hplain.wellFormed hplan hr hshown ?_
  cases hentry : m.overlay.entries (key (src ++ r)) with
  | some entry => exact .inr (.inl (by simp [hentry]))
  | none =>
    rw [view_of_none hentry] at hshown
    have hreal : host.visibleAt (src ++ r) ≠ none := by
      intro hnone
      simp [hnone] at hshown
    -- An entry on the way would cover the path.
    have hfree : ∀ q, q <+: r → m.overlay.entries (key (src ++ q)) = none := by
      rintro q ⟨s, rfl⟩
      by_contra hentry'
      rw [← List.append_assoc] at hord hreal hentry
      exact h.covers (src ++ q) s hord hentry' hreal hentry
    have hsrcFree := hfree [] (List.nil_prefix)
    rw [List.append_nil] at hsrcFree
    rw [view_of_none hsrcFree] at hdir
    obtain ⟨node, hnode, hseen⟩ := Option.map_eq_some_iff.mp hdir
    have hisDir : node.isDir = true := by
      cases node <;> simp_all [Node.seen, Node.isDir]
    refine .inr (.inr ⟨readable_of_plain hhost hplain hplan.src_ne_nil hplan.src_ord hisDir hnode,
      fun q _ => hfree q, ?_⟩)
    rw [view_of_none hentry]
    obtain ⟨x, hx⟩ := Option.ne_none_iff_exists'.mp hreal
    rw [hx]
    cases hplain.visibleAt hx <;> simp [Node.seen]

theorem renamed_covers : (m.renamed plan).Covers host := by
  have hentries := renamed_entries h.canonical hplan
  have hbatch : ∀ k, k ∈ (plan.batch m.overlay).map Prod.fst →
      (m.renamed plan).overlay.entries k ≠ none := by
    intro k hk
    obtain ⟨e, -, hentry⟩ := putAll_entries_mem m.overlay hk
    rw [hentries, hentry]
    simp
  have hgrows : ∀ k, m.overlay.entries k ≠ none → (m.renamed plan).overlay.entries k ≠ none := by
    intro k hk
    by_cases hmem : k ∈ (plan.batch m.overlay).map Prod.fst
    · exact hbatch k hmem
    · rw [hentries, putAll_entries_not_mem _ hmem]
      exact hk
  have hdst : m.Covered host dst := by
    refine (dst_covered h hhost hplain hplan fun hdir => ?_).1
    by_contra hfile
    have hkind := dst_kind hhost hplan hplain
    rw [Bool.not_eq_true] at hfile
    rw [hfile] at hkind
    exact hkind hdir
  intro p q hord hentry hshown
  obtain ⟨hp, hq⟩ := ordinaryPath_append.mp hord
  by_cases hold : m.overlay.entries (key p) = none
  · -- A key that is new stands below the source or the destination.
    have hmem : key p ∈ (plan.batch m.overlay).map Prod.fst := by
      by_contra hmem
      rw [hentries, putAll_entries_not_mem _ hmem] at hentry
      exact hentry hold
    obtain ⟨⟨k, e⟩, hpair, rfl⟩ := List.mem_map.mp hmem
    obtain ⟨r, e', hmoved, hr, hplace⟩ := exists_moved_of_mem_batch h.canonical hhost
      hplain.wellFormed hplan hpair
    rcases hplace with ⟨hkey, -⟩ | ⟨hkey, -⟩
    · obtain rfl := (key_inj hp (ordinaryPath_append.mpr ⟨hplan.src_ord, hr⟩)).mp hkey
      rw [List.append_assoc] at hord hshown ⊢
      by_cases hfree : m.overlay.entries (key (src ++ (r ++ q))) = none
      · have hview : m.view host (src ++ (r ++ q)) ≠ none := by
          rw [view_of_none hfree]
          simpa using hshown
        obtain ⟨e'', hmoved'⟩ := exists_moved h hhost hplain hplan
          (ordinaryPath_append.mpr ⟨hr, hq⟩) hview
        obtain ⟨hold', -⟩ := mem_batch_of_moved h.canonical hhost hplain.wellFormed hplan hmoved'
        exact hbatch _ (List.mem_map.mpr ⟨_, hold', rfl⟩)
      · exact hgrows _ hfree
    · obtain rfl := (key_inj hp (ordinaryPath_append.mpr ⟨hplan.dst_ord, hr⟩)).mp hkey
      rcases eq_or_ne (r ++ q) [] with hnil | hne
      · obtain ⟨rfl, rfl⟩ := List.append_eq_nil_iff.mp hnil
        simpa using hentry
      · rw [List.append_assoc] at hord hshown ⊢
        exact hgrows _ (hdst (r ++ q) hne hord hshown)
  · exact hgrows _ (h.covers p q hord hold hshown)

theorem renamed_canonical : (m.renamed plan).Canonical where
  sorted := commit_sorted (hplan.toPlanned.sound h.canonical.sorted) h.canonical.sorted
  path := by
    intro k hk
    by_cases hmem : k ∈ (plan.batch m.overlay).map Prod.fst
    · obtain ⟨⟨k, e⟩, hpair, rfl⟩ := List.mem_map.mp hmem
      obtain ⟨r, -, -, hr, ⟨hkey, -⟩ | ⟨hkey, -⟩⟩ := exists_moved_of_mem_batch h.canonical hhost
        hplain.wellFormed hplan hpair
      · exact ⟨_, by simp [hplan.src_ne_nil], ordinaryPath_append.mpr ⟨hplan.src_ord, hr⟩, hkey⟩
      · exact ⟨_, by simp [hplan.dst_ne_nil], ordinaryPath_append.mpr ⟨hplan.dst_ord, hr⟩, hkey⟩
    · rw [renamed_entries h.canonical hplan, putAll_entries_not_mem _ hmem] at hk
      exact h.canonical.path k hk

theorem renamed_refsLead : (m.renamed plan).RefsLead host := by
  intro k entry hentry hkind
  rw [renamed_entries h.canonical hplan] at hentry
  by_cases hmem : k ∈ (plan.batch m.overlay).map Prod.fst
  · obtain ⟨e, hpair, he⟩ := putAll_entries_mem m.overlay hmem
    obtain rfl := Option.some.inj (hentry.symm.trans he)
    obtain ⟨r, e', hmoved, -, ⟨-, rfl⟩ | ⟨-, rfl⟩⟩ := exists_moved_of_mem_batch h.canonical hhost
      hplain.wellFormed hplan hpair
    · cases hkind
    · exact hmoved.ref h hhost hplain hplan hkind
  · rw [putAll_entries_not_mem _ hmem] at hentry
    exact h.refs k entry hentry hkind

theorem view_moved (hne : src ≠ dst) {p : Path} (hp : OrdinaryPath p) :
    (m.renamed plan).view host p = (FileTree.move t src dst p).map itemSeen := by
  have hallows := (Renames.allows h hhost hplain hplan).resolve_left fun heq => hne heq.1
  obtain ⟨hbelow, habove⟩ := hallows.apart h.tree hne
  -- What does not move was not there.
  have hstays : ∀ r, OrdinaryPath r → (∀ e, ¬ Moved m host src now plan srcIsDir r e) →
      t (src ++ r) = none := by
    intro r hr hnot
    by_contra hthere
    obtain ⟨e, hmoved⟩ := exists_moved h hhost hplain hplan hr
      (mt (h.none_iff (ordinaryPath_append.mpr ⟨hplan.src_ord, hr⟩)).mp hthere)
    exact hnot e hmoved
  rcases view_renamed h.canonical hhost hplain.wellFormed hplan hp with
    ⟨hsame, hnot⟩ | ⟨r, e, hmoved, rfl, hnone⟩ | ⟨r, e, hmoved, rfl, hview⟩
  · rw [hsame, h.view p hp, FileTree.move]
    split
    · rename_i hpre
      obtain ⟨r, rfl⟩ := hpre
      have hr := (ordinaryPath_append.mp hp).2
      have hnil : r ≠ [] := by
        rintro rfl
        exact (hnot [] _ .source).2 rfl
      rw [List.drop_left, hallows.below_dst h.tree hnil,
        hstays r hr fun e hmoved => (hnot r e hmoved).2 rfl]
    · split
      · rename_i hpre
        obtain ⟨r, rfl⟩ := hpre
        rw [hstays r (ordinaryPath_append.mp hp).2 fun e hmoved => (hnot r e hmoved).1 rfl]
      · rfl
  · have hdst : ¬ dst <+: src ++ r := by
      intro hpre
      rcases List.prefix_or_prefix_of_prefix hpre (List.prefix_append src r) with h' | h'
      · exact habove h'
      · exact hbelow h'
    rw [hnone, FileTree.move, if_neg hdst, if_pos (List.prefix_append _ _)]
    rfl
  · rw [hview, FileTree.move, if_pos (List.prefix_append _ _), List.drop_left]
    exact h.view _ (ordinaryPath_append.mpr ⟨hplan.src_ord, hmoved.ordinary⟩)

end Renamed

/-! ## A rename onto itself -/

section Itself

variable (h : Refines root host m t) (hhost : host.isDir = true) (hplain : host.Plain)
  (hplan : Renames m host srcV dstV now plan srcIsDir src src)

include h hhost hplain hplan

omit h in
theorem entries_renamed_self (hm : m.Canonical) :
    (m.renamed plan).overlay.entries (key src) = some plan.source := by
  have hbelow : ∀ r, r ≠ [] → OrdinaryPath r → key (src ++ r) ≠ key src := by
    intro r hr hord hkey
    have hpath := (key_inj (ordinaryPath_append.mpr ⟨hplan.src_ord, hord⟩) hplan.src_ord).mp hkey
    exact hr (by simpa using hpath)
  rw [renamed_entries hm hplan, RenamePlan.batch, List.append_assoc, putAll_append,
    putAll_entries_not_mem]
  · simp [OverlayState.putAll, OverlayState.insertUnchecked, hplan.dst_eq]
  rw [List.map_append, List.mem_append, List.map_flatMap, List.map_flatMap, List.mem_flatMap,
    List.mem_flatMap]
  rintro (⟨move, hmove, hk⟩ | ⟨⟨move, new⟩, hmove, hk⟩)
  · obtain ⟨-, r, hr, hord, rfl, -⟩ := (mem_overlayMoves hm hplan).mp hmove
    simp only [List.map_cons, List.map_nil, List.mem_cons, List.not_mem_nil, or_false,
      or_self] at hk
    exact hbelow r hr hord hk.symm
  · obtain ⟨-, r, -, hr, hord, hold, rfl, -⟩ :=
      (mem_realMoves hm hhost hplain.wellFormed hplan).mp hmove
    simp only [List.map_cons, List.map_nil, List.mem_cons, List.not_mem_nil, or_false, hold,
      or_self] at hk
    exact hbelow r hr hord hk.symm

theorem view_renamed_self {p : Path} (hp : OrdinaryPath p) :
    (m.renamed plan).view host p = m.view host p := by
  rcases view_renamed h.canonical hhost hplain.wellFormed hplan hp with
    ⟨hsame, -⟩ | ⟨r, e, hmoved, rfl, hnone⟩ | ⟨r, e, -, rfl, hview⟩
  · exact hsame
  · rcases eq_or_ne r [] with rfl | hr
    · rw [List.append_nil, view_of_entry (entries_renamed_self hhost hplain hplan h.canonical),
        source_seen hhost hplan]
    · -- Only a directory has more than itself to move, and it is empty here.
      have hisDir : srcIsDir = true := by
        cases hmoved with
        | source => exact absurd rfl hr
        | entry hdir _ _ _ | real hdir _ _ _ _ _ _ _ => exact hdir
      have hempty := (dst_covered h hhost hplain hplan fun _ => hisDir).2
        ((srcIsDir_iff hhost hplan).mp hisDir)
      rw [hnone, h.view _ hp, h.tree.below_empty hempty hr]
      rfl
  · exact hview

end Itself

/-- **A rename that succeeds is a rename of the tree.** -/
theorem Refines.rename {m' : Mount} {u : Unit} (h : Refines root host m t)
    (hhost : host.isDir = true) (hplain : host.Plain)
    (hcall : overlayRename host srcV dstV now m = .ok u m') :
    ∃ src dst, OrdinaryPath src ∧ OrdinaryPath dst ∧
      resolveVirtualPath srcV m.root.virtualPath = .ok (key src) ∧
      resolveVirtualPath dstV m.root.virtualPath = .ok (key dst) ∧
      FileTree.Allows t (.rename src dst) ∧
      Refines root host m' (FileTree.apply t (.rename src dst)) := by
  obtain ⟨plan, hok, -, rfl⟩ := overlayRename_eq_ok hcall
  obtain ⟨srcIsDir, hplanned⟩ := renamePlan_eq_ok hok
  obtain ⟨src, dst, hplan⟩ := hplanned.renames
  have hallows := Renames.allows h hhost hplain hplan
  have hsrcRel := hplan.srcOk
  have hdstRel := hplan.dstOk
  rw [hplan.src_eq] at hsrcRel
  rw [hplan.dst_eq] at hdstRel
  refine ⟨src, dst, hplan.src_ord, hplan.dst_ord, hsrcRel, hdstRel, hallows, ?_⟩
  exact {
    root_eq := h.root_eq
    canonical := renamed_canonical h hhost hplain hplan
    covers := renamed_covers h hhost hplain hplan
    refs := renamed_refsLead h hhost hplain hplan
    tree := h.tree.apply hallows
    ordinary := by
      intro p hthere
      rw [FileTree.apply, FileTree.move] at hthere
      split at hthere
      · rename_i hpre
        obtain ⟨r, rfl⟩ := hpre
        rw [List.drop_left] at hthere
        exact ordinaryPath_append.mpr
          ⟨hplan.dst_ord, (ordinaryPath_append.mp (h.ordinary _ hthere)).2⟩
      · split at hthere
        · exact absurd rfl hthere
        · exact h.ordinary p hthere
    view := by
      intro p hp
      rcases eq_or_ne src dst with rfl | hne
      · rw [FileTree.apply, FileTree.move_self, ← h.view p hp]
        exact view_renamed_self h hhost hplain hplan hp
      · exact view_moved h hhost hplain hplan hne hp }

end Montygo.MountFs
