import Montygo.MountFs.Capture
import Mathlib.Data.List.Nodup

/-!
# What the looking calls tell

Over a host tree of readable directories and regular files, `read`, `stat` and
`iterdir` tell what the view has, as the predicates do: a call that returns tells the
content, the kind and size or the names that show, and a call that fails was stopped by
a limit or had nothing of its kind to look at.
-/

namespace Montygo.MountFs

open Go Value Outcome MemoryBudget

variable {m : Mount} {host node : Node} {p : Path} {rel vpath : GoString} {budget : MemoryBudget}

/-- A tree of readable directories and regular files whose names are valid UTF-8. -/
inductive Node.Plain : Node → Prop
  | file {content : Bytes} {mtime : Float64} (size : content.length < 2 ^ 63) :
      Plain (.file content mtime none)
  | dir {children : List (GoString × Node)} {mtime : Float64}
      (names : ∀ child ∈ children, Ordinary child.1 ∧ validString child.1 = true)
      (unique : (children.map Prod.fst).Nodup) (below : ∀ child ∈ children, Plain child.2) :
      Plain (.dir children mtime {})

theorem Node.Plain.wellFormed (h : node.Plain) : node.WellFormed := by
  induction h with
  | file size => exact .file _ _ _
  | dir names unique _ ih => exact .dir (fun child hchild => (names child hchild).1) unique ih

theorem Node.Plain.isSymlink (h : node.Plain) : node.isSymlink = false := by
  cases h <;> rfl

theorem Node.Plain.child {next : Node} {name : GoString} (h : node.Plain)
    (hchild : node.child name = .ok next) : next.Plain := by
  cases h with
  | file size => simp [Node.child] at hchild
  | dir names unique below => exact below _ (mem_of_child hchild)

theorem Node.Plain.visibleAt {x : Node} (h : node.Plain) (hx : node.visibleAt p = some x) :
    x.Plain := by
  induction p generalizing node with
  | nil =>
    cases hx
    exact h
  | cons name rest ih =>
    simp only [Node.visibleAt] at hx
    cases hchild : node.child name with
    | error err => simp [hchild] at hx
    | ok next =>
      have hnext := h.child hchild
      simp only [hchild] at hx
      cases hnext with
      | file size =>
        simp only [Option.ite_none_right_eq_some] at hx
        rw [← Option.some.inj hx.2]
        exact .file size
      | dir names unique below => exact ih (.dir names unique below) hx

/-! ## Limits -/

/-- The errors of a limit. -/
def MountError.isLimit : MountError → Bool
  | .memoryLimit _ | .writeLimit _ => true
  | .noMountPoint _ | .pathEscape _ | .value _ | .readOnly _ | .crossMount _ _ | .io _ _ _
  | .invalidUTF8 _ | .invalidMount _ => false

variable {e : MountError} {children : List (GoString × Node)}

theorem MemoryBudget.isLimit_of_check {n : UInt64} (h : budget.check n = .error e) :
    e.isLimit = true := by
  unfold MemoryBudget.check at h
  split at h <;> cases h
  rfl

theorem MemoryBudget.isLimit_of_shrink {n : UInt64} (h : budget.shrink n = .error e) :
    e.isLimit = true := by
  unfold MemoryBudget.shrink at h
  split at h <;> cases h
  rfl

theorem isLimit_of_availableMemory (h : m.availableMemory = .error e) : e.isLimit = true := by
  unfold Mount.availableMemory at h
  split at h <;> cases h
  rfl

/-- What a looking call tells: `shows` of what it returns, and `missing` when it fails, unless
a limit stopped it. -/
def Tells {α : Type} (result : Except MountError α) (shows : α → Prop) (missing : Prop) : Prop :=
  match result with
  | .ok a => shows a
  | .error e => e.isLimit = true ∨ missing

section Tells

variable {α β : Type} {shows : β → Prop} {missing : Prop}

variable {result : Except MountError β} {x : Except MountError α} {f : α → Except MountError β}

theorem Tells.of_ok {b : β} (h : Tells result shows missing) (hok : result = .ok b) : shows b := by
  rw [hok] at h
  exact h

theorem tells_error {e : MountError} (h : e.isLimit = true ∨ missing) :
    Tells (.error e) shows missing := h

theorem tells_bind (hx : ∀ e, x = .error e → e.isLimit = true)
    (hf : ∀ a, x = .ok a → Tells (f a) shows missing) :
    Tells (x >>= f) shows missing := by
  cases x with
  | error e => exact .inl (hx e rfl)
  | ok a => exact hf a rfl

theorem Tells.bind {found : α → Prop} (hx : Tells x found False)
    (hf : ∀ a, found a → Tells (f a) shows missing) :
    Tells (x >>= f) shows missing := by
  cases x with
  | error e => exact .inl (hx.resolve_right id)
  | ok a => exact hf a hx

theorem Tells.mono {shows' : β → Prop} {missing' : Prop} (h : Tells result shows missing)
    (hshows : ∀ b, shows b → shows' b) (hmissing : missing → missing') :
    Tells result shows' missing' := by
  cases result with
  | ok b => exact hshows b h
  | error e => exact h.imp_right hmissing

end Tells

/-! ## Reading -/

theorem readFileLimited_plain (vpath : GoString) (budget : MemoryBudget)
    (hstat : stat host rel = .ok node) (hplain : node.Plain) :
    Tells (readFileLimited host rel vpath budget) (fun content => node.seen = .file content none)
      (node.isDir = true) := by
  cases hplain with
  | dir names unique below =>
    have hread : readFileLimited host rel vpath budget = .error (isADirectory vpath) := by
      simp [readFileLimited, rejectNonRegular, hstat, Node.isDir, bind, Except.bind]
    rw [hread]
    exact .inr rfl
  | @file content mtime size =>
    have hread : readFileLimited host rel vpath budget = (do
        budget.check (UInt64.ofNat content.length)
        let content := content.take (satAdd budget.available 1).toNat
        budget.check (UInt64.ofNat content.length)
        pure content) := by
      simp [readFileLimited, rejectNonRegular, openRegular, openFile, hstat, Node.isDir,
        Node.isRegular, Node.size, Node.content, bind, Except.bind]
    rw [hread]
    refine tells_bind (fun e => isLimit_of_check) fun _ hcheck => ?_
    -- The content fits into the budget, so the bounded read sees all of it.
    have hfits : content.length ≤ budget.available.toNat := by
      unfold MemoryBudget.check at hcheck
      split at hcheck
      · cases hcheck
      rename_i hle
      rw [gt_iff_lt, UInt64.lt_iff_toNat_lt, UInt64.toNat_ofNat',
        Nat.mod_eq_of_lt (by omega)] at hle
      omega
    have htake : content.take (satAdd budget.available 1).toNat = content := by
      refine List.take_of_length_le ?_
      rw [toNat_satAdd]
      have := budget.available.toNat_lt
      simp only [UInt64.toNat_one]
      omega
    simp only [htake]
    exact tells_bind (fun e => isLimit_of_check) fun _ _ => rfl

theorem readFileLimited_missing {err : HostError} (hstat : stat host rel = .error err) :
    readFileLimited host rel vpath budget = .error (mapIo err vpath) := by
  simp [readFileLimited, rejectNonRegular, openRegular, openFile, hstat, bind, Except.bind]

/-- Every reference of the overlay leads to a regular file of its size. -/
def Mount.RefsLead (m : Mount) (host : Node) : Prop :=
  ∀ k entry, m.overlay.entries k = some entry → entry.kind = .realFileRef →
    ∃ q content mtime, q ≠ [] ∧ OrdinaryPath q ∧ entry.relative = key q ∧
      host.visibleAt q = some (.file content mtime none) ∧ entry.size = content.length

theorem ref_resolves {k : GoString} {entry : OverlayEntry} (hhost : host.isDir = true)
    (hplain : host.Plain) (hrefs : m.RefsLead host) (hentry : m.overlay.entries k = some entry)
    (hkind : entry.kind = .realFileRef) (v : GoString) :
    ∃ content mtime, Node.Plain (.file content mtime none) ∧
      Mount.checkedRefPath host entry v = .ok entry.relative ∧
      stat host entry.relative = .ok (.file content mtime none) ∧
      entry.seen host = some (.file content none) ∧ entry.size = content.length := by
  obtain ⟨q, content, mtime, hne, hq, hrelative, hnode, hsize⟩ := hrefs k entry hentry hkind
  have hop : dirOp (key q) = key q := if_neg ((key_eq_nil hq).not.mpr hne)
  have hstat := stat_of_visibleAt hhost hq hnode
  rw [hop] at hstat
  refine ⟨content, mtime, hplain.visibleAt hnode, ?_, by rw [hrelative, hstat], ?_, hsize⟩
  · rw [Mount.checkedRefPath, hrelative, rejectSymlinkChain_key hq,
      ((visibleAt_eq_some_iff v hq).mp hnode).1]
    rfl
  · simp [OverlayEntry.seen, hkind, hrelative, refSeen_key hq hne hnode]

theorem tells_resolveReal {α : Type} {look : GoString → Except MountError α} {shows : α → Prop}
    {missing : Prop} (hhost : host.isDir = true) (hp : OrdinaryPath p)
    (hrel : resolveVirtualPath vpath m.root.virtualPath = .ok (key p))
    (hmissing : host.visibleAt p = none → missing)
    (hgone : ∀ target err, stat host (dirOp target) = .error err → host.visibleAt p = none →
      Tells (look target) shows missing)
    (hfound : ∀ target node, stat host (dirOp target) = .ok node → host.visibleAt p = some node →
      Tells (look target) shows missing) :
    Tells (m.resolveReal host vpath >>= look) shows missing := by
  cases hreal : m.resolveReal host vpath with
  | error e => exact tells_error (.inr (hmissing (visibleAt_of_resolveReal_error hp hrel hreal)))
  | ok target =>
    obtain ⟨rfl, hstat, -, hseen⟩ := resolveReal_eq_ok hhost hp hrel hreal
    cases hdescend : host.descend p with
    | error err =>
      exact hgone _ err (hstat.trans hdescend) (visibleAt_of_descend_error hp hdescend)
    | ok node => exact hfound _ node (hstat.trans hdescend) ((hseen node).mpr hdescend)

section Looks

variable (hhost : host.isDir = true) (hplain : host.Plain) (hrefs : m.RefsLead host)
  (hp : OrdinaryPath p) (hrel : resolveVirtualPath vpath m.root.virtualPath = .ok (key p))

include hhost hplain hrefs hp hrel

/-- **`read` tells the content of the file that shows.** -/
theorem overlayRead_view : Tells (overlayRead m host (key p) vpath)
      (fun content => m.view host p = some (.file content none))
      (∀ content, m.view host p ≠ some (.file content none)) := by
  unfold overlayRead
  cases hentry : m.overlay.entries (key p) with
  | none =>
    rw [view_of_none hentry]
    refine tells_resolveReal hhost hp hrel (fun hnone => by simp [hnone])
      (fun target err hstat hnone => ?_) fun target node hstat hshown => ?_
    · refine tells_bind (fun e => isLimit_of_availableMemory) fun budget _ => ?_
      rw [readFileLimited_missing hstat, hnone]
      exact tells_error (.inr (by simp))
    · refine tells_bind (fun e => isLimit_of_availableMemory) fun budget _ => ?_
      rw [hshown]
      refine (readFileLimited_plain vpath budget hstat (hplain.visibleAt hshown)).mono ?_ ?_
      · intro content hcontent
        rw [Option.map_some, hcontent]
      · intro hdir
        simp [seen_of_isDir hdir]
  | some entry =>
    rw [view_of_entry hentry]
    cases hkind : entry.kind with
    | file =>
      simp only [hkind]
      refine tells_bind (fun e => isLimit_of_availableMemory) fun budget _ => ?_
      refine tells_bind (fun e => isLimit_of_check) fun _ _ => ?_
      exact (by simp [OverlayEntry.seen, hkind] : entry.seen host = some (.file entry.content none))
    | realFileRef =>
      obtain ⟨content, mtime, hfile, hpath, hstat, hseen, -⟩ :=
        ref_resolves hhost hplain hrefs hentry hkind vpath
      simp only [hkind, hpath, hseen]
      refine tells_bind (by simp) fun _ hrelative => ?_
      cases hrelative
      refine tells_bind (fun e => isLimit_of_availableMemory) fun budget _ => ?_
      refine (readFileLimited_plain vpath budget hstat hfile).mono ?_ ?_
      · intro found hfound
        simpa [Node.seen] using hfound
      · intro hdir
        cases hdir
    | directory | deleted =>
      simp only [hkind]
      refine tells_error (.inr ?_)
      simp [OverlayEntry.seen, hkind]

/-- **`stat` tells the kind of what shows, and the size of a file.** -/
theorem overlayStat_view : Tells (overlayStat m host (key p) vpath)
      (fun s => (∃ content mtime, m.view host p = some (.file content none) ∧
          s = fileStat content.length mtime) ∨
        ∃ mtime, m.view host p = some .dir ∧ s = dirStat mtime)
      (m.view host p = none) := by
  unfold overlayStat
  cases hentry : m.overlay.entries (key p) with
  | none =>
    rw [view_of_none hentry]
    refine tells_resolveReal hhost hp hrel (fun hnone => by simp [hnone])
      (fun target err hstat hnone => ?_) fun target node hstat hshown => ?_
    · rw [hostStat, hstat, hnone]
      exact tells_error (.inr rfl)
    · rw [hostStat, hstat, hshown]
      cases hplain.visibleAt hshown with
      | file size => exact .inl ⟨_, _, rfl, rfl⟩
      | dir names unique below => exact .inr ⟨_, rfl, rfl⟩
  | some entry =>
    rw [view_of_entry hentry]
    cases hkind : entry.kind with
    | file =>
      simp only [hkind]
      exact .inl ⟨entry.content, entry.mtime, by simp [OverlayEntry.seen, hkind], rfl⟩
    | realFileRef =>
      obtain ⟨content, mtime, -, hpath, -, hseen, hsize⟩ :=
        ref_resolves hhost hplain hrefs hentry hkind vpath
      simp only [hkind, hpath, hseen]
      exact .inl ⟨content, entry.mtime, rfl, by rw [hsize]⟩
    | directory =>
      simp only [hkind]
      exact .inr ⟨entry.mtime, by simp [OverlayEntry.seen, hkind], rfl⟩
    | deleted =>
      simp only [hkind]
      refine tells_error (.inr ?_)
      simp [OverlayEntry.seen, hkind]

end Looks


/-! ## Listing -/

/-- The name of the child that a key below a directory stands for, if it is a child. -/
def childName (prefixLen : ℕ) (k : GoString) : Option GoString :=
  if k.drop prefixLen = [] ∨ slash ∈ k.drop prefixLen then none else some (k.drop prefixLen)

/-- The name of the child that an overlay key lists. -/
def ownName (m : Mount) (prefixLen : ℕ) (k : GoString) : Option GoString :=
  if (m.overlay.entries k).any (·.kind ≠ .deleted) then childName prefixLen k else none

theorem listOverlayKeys_tells (prefixLen : ℕ) (keys : List GoString) (l : Listing) :
    Tells (listOverlayKeys m prefixLen vpath budget keys l) (fun l' => l'.entries = l.entries ++
          (keys.filterMap (ownName m prefixLen)).map (formatChildPath vpath) ∧
        ∀ name, name ∈ l'.seen ↔ name ∈ l.seen ∨ name ∈ keys.filterMap (childName prefixLen))
      False := by
  induction keys generalizing l with
  | nil => exact ⟨by simp, by simp⟩
  | cons k rest ih =>
    rw [listOverlayKeys]
    by_cases hchild : k.drop prefixLen = [] ∨ slash ∈ k.drop prefixLen
    · have hname : childName prefixLen k = none := if_pos hchild
      have hown : ownName m prefixLen k = none := by simp [ownName, hname]
      rw [if_pos hchild]
      simpa [hname, hown] using ih l
    · have hname : childName prefixLen k = some (k.drop prefixLen) := if_neg hchild
      rw [if_neg hchild]
      refine tells_bind (fun e => isLimit_of_check) fun _ _ => ?_
      by_cases hshown : (m.overlay.entries k).any (·.kind ≠ .deleted) = true
      · have hown : ownName m prefixLen k = some (k.drop prefixLen) := by
          rw [ownName, if_pos hshown, hname]
        simp only [hshown, if_true]
        refine tells_bind (fun e => isLimit_of_check) fun _ _ => ?_
        refine (ih _).mono ?_ id
        rintro l' ⟨hentries, hseen⟩
        refine ⟨by simp [hentries, hown], fun name => ?_⟩
        rw [hseen, List.filterMap_cons_some hname, List.mem_cons, List.mem_cons, or_assoc,
          or_left_comm]
      · have hown : ownName m prefixLen k = none := if_neg hshown
        simp only [hshown]
        refine (ih _).mono ?_ id
        rintro l' ⟨hentries, hseen⟩
        refine ⟨by simp [hentries, hown], fun name => ?_⟩
        rw [hseen, List.filterMap_cons_some hname, List.mem_cons, List.mem_cons, or_assoc,
          or_left_comm]

theorem listHostNames_tells (names : List GoString) (l : Listing) :
    Tells (listHostNames vpath budget names l) (fun l' => l'.entries = l.entries ++
        (names.filter (· ∉ l.seen)).map (formatChildPath vpath)) False := by
  induction names generalizing l with
  | nil => exact (List.append_nil _).symm
  | cons name rest ih =>
    rw [listHostNames]
    by_cases hseen : name ∈ l.seen
    · rw [if_pos hseen, List.filter_cons_of_neg (by simpa using hseen)]
      exact ih l
    · rw [if_neg hseen, List.filter_cons_of_pos (by simpa using hseen)]
      refine tells_bind (fun e => isLimit_of_check) fun _ _ => ?_
      refine (ih _).mono ?_ id
      intro l' hentries
      simp [hentries]

theorem hostListVisibleDirEntryNames_tells {mtime : Float64}
    (hplain : Node.Plain (.dir children mtime {}))
    (hstat : stat host rel = .ok (.dir children mtime {})) :
    Tells (hostListVisibleDirEntryNames host rel vpath budget)
      (fun names => names = children.map Prod.fst) False := by
  cases hplain with
  | dir names unique below =>
    rw [hostListVisibleDirEntryNames, hstat]
    simp only [openDir, hstat, eachDirEntry]
    generalize hfn : (fun (state : List GoString × UInt64) (entry : GoString × Node) => _) = fn
    -- Every entry is kept under its own name.
    have hkeep : ∀ child ∈ children, ∀ state : List GoString × UInt64,
        Tells (fn state child) (fun next => next.1 = state.1 ++ [child.1]) False := by
      intro child hchild state
      have hlink : child.2.isSymlink = false := (below child hchild).isSymlink
      rw [← hfn]
      simp only [hlink, Bool.false_and, Bool.false_eq_true, if_false,
        lossyUTF8_of_validString (names child hchild).2]
      exact tells_bind (fun e => isLimit_of_check) fun _ _ => rfl
    have hfold : ∀ listed : List (GoString × Node), (∀ child ∈ listed, child ∈ children) →
        ∀ state, Tells (listed.foldlM fn state)
          (fun last => last.1 = state.1 ++ listed.map Prod.fst) False := by
      intro listed
      induction listed with
      | nil => exact fun _ state => (List.append_nil _).symm
      | cons child rest ih =>
        intro hall state
        rw [List.foldlM_cons]
        refine (hkeep child (hall child List.mem_cons_self) state).bind fun next hnext => ?_
        refine (ih (fun c hc => hall c (List.mem_cons_of_mem child hc)) next).mono ?_ id
        intro last hlast
        rw [hlast, hnext]
        simp
    rw [bind_pure]
    exact (hfold children (fun _ h => h) ([], 0)).bind fun last hlast => hlast


/-! ## The children of a directory -/

section Children

variable {r : Path} {name : GoString}

theorem drop_directoryPrefix (hp : OrdinaryPath p) (hr : r ≠ []) :
    (key (p ++ r)).drop (directoryPrefix (key p)).length = key r := by
  rcases eq_or_ne p [] with rfl | hne
  · simp [directoryPrefix]
  · rw [directoryPrefix, if_neg ((key_eq_nil hp).not.mpr hne), lit_slash, List.length_append,
      List.length_singleton, drop_key hne hr]

theorem childName_key (hp : OrdinaryPath p) (hr : r ≠ []) (hord : OrdinaryPath r) :
    childName (directoryPrefix (key p)).length (key (p ++ r)) = some name ↔ r = [name] := by
  rw [childName, drop_directoryPrefix hp hr]
  have hkey : key r ≠ [] := (key_eq_nil hord).not.mpr hr
  match r, hr with
  | [only], _ =>
    have hslash : slash ∉ key [only] := by
      rw [key_singleton]
      exact (hord only (by simp)).no_slash
    rw [if_neg (not_or.mpr ⟨hkey, hslash⟩)]
    simp
  | first :: second :: rest, _ =>
    have hslash : slash ∈ key (first :: second :: rest) := by
      have hsplit : first :: second :: rest = [first] ++ (second :: rest) := rfl
      rw [hsplit, key_append (by simp) (by simp)]
      simp
    rw [if_pos (.inr hslash)]
    simp

variable (hm : m.Canonical) (hp : OrdinaryPath p)

include hm hp

theorem mem_childNames : name ∈ (m.overlay.prefixKeys (directoryPrefix (key p))).filterMap
        (childName (directoryPrefix (key p)).length) ↔
      Ordinary name ∧ m.overlay.entries (key (p ++ [name])) ≠ none := by
  simp only [List.mem_filterMap, mem_prefixKeys hm hp]
  constructor
  · rintro ⟨_, ⟨r, hr, hord, rfl, hentry⟩, hname⟩
    obtain rfl := (childName_key hp hr hord).mp hname
    exact ⟨hord name (by simp), hentry⟩
  · rintro ⟨hname, hentry⟩
    have hord : OrdinaryPath [name] := by simpa [OrdinaryPath] using hname
    exact ⟨_, ⟨[name], by simp, hord, rfl, hentry⟩, (childName_key hp (by simp) hord).mpr rfl⟩

theorem mem_ownNames : name ∈ (m.overlay.prefixKeys (directoryPrefix (key p))).filterMap
        (ownName m (directoryPrefix (key p)).length) ↔
      Ordinary name ∧ (m.overlay.entries (key (p ++ [name]))).any (·.kind ≠ .deleted) = true := by
  simp only [List.mem_filterMap, mem_prefixKeys hm hp, ownName]
  constructor
  · rintro ⟨_, ⟨r, hr, hord, rfl, hentry⟩, hname⟩
    rw [Option.ite_none_right_eq_some] at hname
    obtain rfl := (childName_key hp hr hord).mp hname.2
    exact ⟨hord name (by simp), hname.1⟩
  · rintro ⟨hname, hshown⟩
    have hord : OrdinaryPath [name] := by simpa [OrdinaryPath] using hname
    have hentry : m.overlay.entries (key (p ++ [name])) ≠ none := by
      intro hnone
      simp [hnone] at hshown
    refine ⟨_, ⟨[name], by simp, hord, rfl, hentry⟩, ?_⟩
    rw [if_pos hshown]
    exact (childName_key hp (by simp) hord).mpr rfl

theorem nodup_ownNames : ((m.overlay.prefixKeys (directoryPrefix (key p))).filterMap
      (ownName m (directoryPrefix (key p)).length)).Nodup := by
  have hkeys : (m.overlay.prefixKeys (directoryPrefix (key p))).Nodup := by
    have hall : m.overlay.keys.Nodup := hm.sorted.pairwise.imp fun h => ne_of_lt h
    rcases eq_or_ne p [] with rfl | hne
    · rw [key_nil, directoryPrefix, if_pos rfl, OverlayState.prefixKeys, if_pos rfl]
      exact hall
    · rw [directoryPrefix, if_neg ((key_eq_nil hp).not.mpr hne), lit_slash,
        OverlayState.prefixKeys_eq_filter hm.sorted.pairwise]
      exact hall.filter _
  -- The name determines the key.
  have hname : ∀ k ∈ m.overlay.prefixKeys (directoryPrefix (key p)), ∀ name,
      ownName m (directoryPrefix (key p)).length k = some name → k = key (p ++ [name]) := by
    intro k hk name hown
    obtain ⟨r, hr, hord, rfl, -⟩ := (mem_prefixKeys hm hp).mp hk
    rw [ownName, Option.ite_none_right_eq_some] at hown
    rw [(childName_key hp hr hord).mp hown.2]
  have hpairs := List.Pairwise.imp_of_mem (S := fun k k' => ∀ name,
    ownName m (directoryPrefix (key p)).length k = some name → ∀ name',
      ownName m (directoryPrefix (key p)).length k' = some name' → name ≠ name')
    (fun {k k'} hk hk' hne name hown name' hown' => by
      rintro rfl
      exact hne ((hname k hk name hown).trans (hname k' hk' name hown').symm)) hkeys
  exact hpairs.filterMap _ fun k k' h => h

end Children


/-- Every real path below one with an entry has an entry of its own. -/
def Mount.Covers (m : Mount) (host : Node) : Prop :=
  ∀ p q, OrdinaryPath (p ++ q) → m.overlay.entries (key p) ≠ none →
    host.visibleAt (p ++ q) ≠ none → m.overlay.entries (key (p ++ q)) ≠ none

theorem view_ne_none_iff :
    m.view host p ≠ none ↔ (m.overlay.entries (key p)).any (·.kind ≠ .deleted) = true ∨
      m.overlay.entries (key p) = none ∧ host.visibleAt p ≠ none := by
  cases hentry : m.overlay.entries (key p) with
  | none => simp [view_of_none hentry]
  | some entry =>
    rw [view_of_entry hentry]
    cases hkind : entry.kind <;> simp [OverlayEntry.seen, hkind]

theorem mem_names_iff {mtime : Float64} {name : GoString}
    (hplain : Node.Plain (.dir children mtime {})) :
    name ∈ children.map Prod.fst ↔ (Node.dir children mtime {}).visibleAt [name] ≠ none := by
  cases hplain with
  | dir names unique below =>
    constructor
    · intro hname
      obtain ⟨⟨first, next⟩, hmem, rfl⟩ := List.mem_map.mp hname
      have hchild : (Node.dir children mtime {}).child first = .ok next := by
        simp [Node.child, Node.find?_of_mem unique hmem]
      rw [Node.visibleAt, hchild]
      cases below _ hmem with
      | file size => simp
      | dir names unique below => simp [Node.visibleAt]
    · intro hshown
      obtain ⟨next, hnext⟩ := Option.ne_none_iff_exists'.mp hshown
      exact List.mem_map.mpr ⟨_, Node.mem_of_child (Node.child_of_visibleAt hnext), rfl⟩

section Iterdir

variable (hhost : host.isDir = true) (hplain : host.Plain) (hm : m.Canonical)
  (hcovers : m.Covers host) (hp : OrdinaryPath p)
  (hrel : resolveVirtualPath vpath m.root.virtualPath = .ok (key p))

include hhost hplain hp hrel in
/-- What `iterdir` finds at its target, and the host directory it merges. -/
theorem iterdirHost_view : Tells (iterdirHost m host (key p) vpath)
      (fun merge => m.view host p = some .dir ∧
        match merge with
        | none => m.overlay.entries (key p) ≠ none
        | some d => m.overlay.entries (key p) = none ∧ ∃ children mtime,
            host.visibleAt p = some (.dir children mtime {}) ∧
            stat host d = .ok (.dir children mtime {}))
      (m.view host p ≠ some .dir) := by
  unfold iterdirHost
  cases hentry : m.overlay.entries (key p) with
  | some entry =>
    rw [view_of_entry hentry]
    cases hkind : entry.kind with
    | directory =>
      simp only [hkind]
      exact ⟨by simp [OverlayEntry.seen, hkind], by simp⟩
    | file | realFileRef | deleted =>
      simp only [hkind]
      refine tells_error (.inr ?_)
      simp [seen_eq_dir_iff, hkind]
  | none =>
    rw [view_of_none hentry]
    refine tells_resolveReal hhost hp hrel (fun hnone => by simp [hnone])
      (fun target err hstat hnone => ?_) fun target node hstat hshown => ?_
    · simp only [hostIsDir, hostExists, hstat, hnone]
      exact tells_error (.inr (by simp))
    · simp only [hostIsDir, hostExists, hstat, hshown]
      cases hplain.visibleAt hshown with
      | file size => exact tells_error (.inr (by simp [Node.seen]))
      | dir names unique below => exact ⟨rfl, trivial, _, _, rfl, hstat⟩

include hhost hplain hm hcovers hp hrel in
/-- **`iterdir` lists what shows in the directory, every name once.** -/
theorem overlayIterdir_view : Tells (overlayIterdir m host (key p) vpath)
      (fun paths => m.view host p = some .dir ∧ ∃ names : List GoString,
        paths = names.map (formatChildPath vpath) ∧ names.Nodup ∧
        ∀ name, name ∈ names ↔ Ordinary name ∧ m.view host (p ++ [name]) ≠ none)
      (m.view host p ≠ some .dir) := by
  unfold overlayIterdir
  have hmerge := iterdirHost_view hhost hplain hp hrel
  cases hfound : iterdirHost m host (key p) vpath with
  | error e =>
    rw [hfound] at hmerge
    exact hmerge
  | ok merge =>
    rw [hfound] at hmerge
    obtain ⟨hdir, hmerge⟩ := hmerge
    refine tells_bind (by simp) fun _ hok => ?_
    cases hok
    refine tells_bind (fun e => isLimit_of_availableMemory) fun budget _ => ?_
    refine (listOverlayKeys_tells _ _ _).bind ?_
    rintro own ⟨hentries, hseen⟩
    rw [List.nil_append] at hentries
    have hseen : ∀ name, name ∈ own.seen ↔
        Ordinary name ∧ m.overlay.entries (key (p ++ [name])) ≠ none := by
      intro name
      rw [hseen, mem_childNames hm hp]
      simp
    cases merge with
    | none =>
      refine ⟨hdir, _, hentries, nodup_ownNames hm hp, fun name => ?_⟩
      rw [mem_ownNames hm hp, view_ne_none_iff]
      refine and_congr_right fun hname => ?_
      -- A real child of a directory with an entry has one of its own.
      have hord : OrdinaryPath (p ++ [name]) :=
        ordinaryPath_append.mpr ⟨hp, by simpa [OrdinaryPath] using hname⟩
      refine (or_iff_left ?_).symm
      rintro ⟨hnone, hshown⟩
      exact hcovers p [name] hord hmerge hshown hnone
    | some d =>
      obtain ⟨hnone, children, mtime, hshown, hstat⟩ := hmerge
      have hchildren := hplain.visibleAt hshown
      refine tells_bind (fun e => isLimit_of_shrink) fun remaining _ => ?_
      refine (hostListVisibleDirEntryNames_tells hchildren hstat).bind ?_
      rintro _ rfl
      refine (listHostNames_tells _ _).bind ?_
      intro all hall
      refine ⟨hdir, _, (hall.trans (congrArg (· ++ _) hentries)).trans List.map_append.symm, ?_,
        fun name => ?_⟩
      · refine List.Nodup.append (nodup_ownNames hm hp) ?_ ?_
        · cases hchildren with
          | dir names unique below => exact List.Nodup.filter _ unique
        · intro name hown hother
          rw [mem_ownNames hm hp] at hown
          rw [List.mem_filter, decide_eq_true_eq, hseen] at hother
          refine hother.2 ⟨hown.1, fun hentry => ?_⟩
          simp [hentry] at hown
      · have hordinary : name ∈ children.map Prod.fst → Ordinary name := by
          cases hchildren with
          | dir names unique below =>
            intro hname
            obtain ⟨child, hchild, rfl⟩ := List.mem_map.mp hname
            exact (names child hchild).1
        rw [List.mem_append, mem_ownNames hm hp, List.mem_filter, decide_eq_true_eq, hseen,
          view_ne_none_iff, Node.visibleAt_append, hshown, Option.bind_some,
          ← mem_names_iff hchildren]
        by_cases hname : Ordinary name
        · simp [hname, and_comm]
        · simp [hname, mt hordinary hname]

end Iterdir

end Montygo.MountFs
