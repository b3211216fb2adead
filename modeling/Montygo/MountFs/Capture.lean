import Montygo.MountFs.View
import Montygo.MountFs.Rename
import Mathlib.Logic.Relation

/-!
# The real tree a rename takes along

`collectRealDescendants` walks the host directories below the source with a stack.
`Enters` is one edge of that walk: from an open directory to a subdirectory that has
no overlay entry.  When the walk ends, it has opened every directory it can enter and
captured what these list; when it fails with an error that `overlayRename` drops,
one of them could not be opened or read to its end.
-/

namespace Montygo.MountFs

open Go Value Outcome Node

/-- A host tree as an operating system has it: the names in a directory are distinct and
none of them is special. -/
inductive Node.WellFormed : Node → Prop
  | file (content : Bytes) (mtime : Float64) (refused : Option HostError) :
      WellFormed (.file content mtime refused)
  | dir {children : List (GoString × Node)} {mtime : Float64} {access : DirAccess}
      (names : ∀ child ∈ children, Ordinary child.1) (unique : (children.map Prod.fst).Nodup)
      (below : ∀ child ∈ children, WellFormed child.2) : WellFormed (.dir children mtime access)
  | symlink (target : GoString) : WellFormed (.symlink target)
  | special (mtime : Float64) : WellFormed (.special mtime)

variable {host n node : Node} {p q : Path} {name : GoString}

namespace Node

variable {children : List (GoString × Node)}

theorem find?_of_mem (hunique : (children.map Prod.fst).Nodup) (hmem : (name, node) ∈ children) :
    children.find? (·.1 = name) = some (name, node) := by
  induction children with
  | nil => cases hmem
  | cons first rest ih =>
    rw [List.map_cons, List.nodup_cons] at hunique
    rcases List.mem_cons.mp hmem with rfl | hrest
    · simp
    have hne : first.1 ≠ name := by
      rintro rfl
      exact hunique.1 (List.mem_map.mpr ⟨_, hrest, rfl⟩)
    rw [List.find?_cons_of_neg (by simpa using hne)]
    exact ih hunique.2 hrest

theorem child_of_mem {mtime : Float64} {access : DirAccess}
    (hunique : (children.map Prod.fst).Nodup) (hmem : (name, node) ∈ children) :
    (Node.dir children mtime access).child name = .ok node ∨
      ∃ err, (Node.dir children mtime access).child name = .error err := by
  cases hlookup : access.lookup with
  | some err => exact .inr ⟨err, by simp [child, hlookup]⟩
  | none => exact .inl (by simp [child, hlookup, find?_of_mem hunique hmem])

theorem mem_of_child {mtime : Float64} {access : DirAccess}
    (h : (Node.dir children mtime access).child name = .ok node) : (name, node) ∈ children := by
  unfold child at h
  cases hlookup : access.lookup with
  | some err => simp [hlookup] at h
  | none =>
    simp only [hlookup] at h
    split at h
    · rename_i entry hfind
      cases h
      have hname : entry.1 = name := by simpa using List.find?_some hfind
      rw [← hname]
      exact List.mem_of_find?_eq_some hfind
    · cases h

theorem child_of_visibleAt (h : n.visibleAt [name] = some node) : n.child name = .ok node := by
  rw [visibleAt] at h
  cases hchild : n.child name with
  | error err => simp [hchild] at h
  | ok next =>
    simp only [hchild] at h
    cases next with
    | symlink target => cases h
    | file content mtime refused | special mtime => exact congrArg _ (Option.some.inj h)
    | dir children mtime access =>
      cases hopens : access.opens with
      | some refusal => simp [hopens] at h
      | none =>
        simp only [hopens] at h
        exact congrArg _ (Option.some.inj h)

theorem descend_append : n.descend (p ++ q) = n.descend p >>= fun x => x.descend q := by
  induction p generalizing n with
  | nil => rfl
  | cons name rest ih =>
    rw [List.cons_append, descend, descend]
    cases n.child name with
    | error err => rfl
    | ok next => exact ih

theorem descend_snoc : n.descend (p ++ [name]) = n.descend p >>= fun x => x.child name := by
  rw [descend_append]
  congr 1
  funext x
  rw [descend]
  cases x.child name <;> rfl

theorem meetsLink_snoc (hp : n.meetsLink p = false) {x : Node} (hx : n.descend p = .ok x)
    (hlink : ∀ y, x.child name = .ok y → y.isSymlink = false) :
    n.meetsLink (p ++ [name]) = false := by
  induction p generalizing n with
  | nil =>
    cases hx
    simp only [List.nil_append, meetsLink]
    cases hchild : x.child name with
    | error err => rfl
    | ok y => simp [hlink y hchild]
  | cons first rest ih =>
    rw [List.cons_append, meetsLink]
    rw [meetsLink] at hp
    rw [descend] at hx
    cases hchild : n.child first with
    | error err => rfl
    | ok next =>
      simp only [hchild, Bool.or_eq_false_iff] at hp hx ⊢
      exact ⟨hp.1, ih hp.2 hx⟩

theorem WellFormed.child (hn : n.WellFormed) (h : n.child name = .ok node) : node.WellFormed := by
  cases hn with
  | file | symlink | special => cases h
  | dir names unique below => exact below _ (mem_of_child h)

theorem WellFormed.descend (hn : n.WellFormed) (h : n.descend p = .ok node) : node.WellFormed :=
  descend_rec (fun _ _ _ => WellFormed.child) hn h

end Node

/-! ## The walk -/

section Walk

variable (m : Mount) (host : Node) (src : Path) (now : Float64)

/-- The directory at `src ++ p` as the walk reads it. -/
def dirAt (p : Path) : Except HostError DirStream := openDir host (key (src ++ p))

/-- What the walk captures for one listed entry of `src ++ p`. -/
def captureOf (p : Path) (entry : GoString × Node) : List RealMove :=
  let moved := key (src ++ p ++ [entry.1])
  if m.overlay.entries moved ≠ none then []
  else if entry.2.isRegular then
    match fileRefFromRelative host moved with
    | none => []
    | some ref => [{ oldKey := moved, entry := ref }]
  else if entry.2.isDir then
    [{ oldKey := moved, entry := directoryEntry (hostDirMtime host moved now) }]
  else []

/-- The subdirectory the walk enters for one listed entry of `src ++ p`. -/
def enterOf (p : Path) (entry : GoString × Node) : List Path :=
  if m.overlay.entries (key (src ++ p ++ [entry.1])) = none ∧ entry.2.isDir = true then
    [p ++ [entry.1]]
  else []

/-- The walk goes from the directory at `src ++ p` to the one at `src ++ q`. -/
def Enters (p q : Path) : Prop :=
  ∃ f, dirAt host src p = .ok f ∧ q ∈ f.entries.flatMap (enterOf m src p)

/-- The walk comes to the directory at `src ++ p`. -/
def Walked (p : Path) : Prop := Relation.ReflTransGen (Enters m host src) [] p

/-- The directory at `src ++ p` opens and lists to its end. -/
def Lists (p : Path) : Prop := ∃ f, dirAt host src p = .ok f ∧ f.failure = none

/-- The walk captures `move` in the directory at `src ++ p`. -/
def CapturedIn (p : Path) (move : RealMove) : Prop :=
  ∃ f, dirAt host src p = .ok f ∧ move ∈ f.entries.flatMap (captureOf m host src now p)

/-- The stack entry of the directory at `src ++ p`. -/
def pendingAt (p : Path) : Pending where
  rel := key (src ++ p)
  pre := key (src ++ p) ++ [slash]

end Walk

variable {m : Mount} {src : Path} {now : Float64} {vpath : GoString} {budget : MemoryBudget}
  {handled : List GoString}

theorem key_snoc (hp : p ≠ []) (name : GoString) : key (p ++ [name]) = key p ++ slash :: name := by
  rw [key_append hp (by simp), key_singleton]

theorem joinMountRelative_key (hp : OrdinaryPath p) (hne : p ≠ []) (name : GoString) :
    joinMountRelative (key p) name = key (p ++ [name]) := by
  rw [joinMountRelative, if_neg (not_or.mpr ⟨(key_eq_nil hp).not.mpr hne, key_ne_dot hp⟩),
    key_snoc hne]

/-- The callback of the walk on one entry: every error it raises is one that
`overlayRename` returns. -/
theorem collectEntry_eq (hsrc : OrdinaryPath (src ++ p)) (hne : src ≠ [])
    (hhandled : ∀ k ∈ handled, m.overlay.entries k ≠ none) (c : Collected)
    (entry : GoString × Node) :
    (∃ e, collectEntry m host handled vpath budget now (pendingAt src p) c entry = .error e ∧
        isReported e = true) ∨
      ∃ c', collectEntry m host handled vpath budget now (pendingAt src p) c entry = .ok c' ∧
        c'.result = c.result ++ captureOf m host src now p entry ∧
        c'.dirs = (enterOf m src p entry).map (pendingAt src) ++ c.dirs := by
  obtain ⟨name, node⟩ := entry
  have hne' : src ++ p ≠ [] := by simp [hne]
  have hkey : (pendingAt src p).pre ++ name = key (src ++ p ++ [name]) := by
    rw [key_snoc hne']
    simp [pendingAt]
  have hrel : joinMountRelative (pendingAt src p).rel name = key (src ++ p ++ [name]) :=
    joinMountRelative_key hsrc hne' name
  have hpending : pendingAt src (p ++ [name]) =
      { rel := key (src ++ p ++ [name]), pre := key (src ++ p ++ [name]) ++ lit "/" } := by
    rw [pendingAt, List.append_assoc, lit_slash]
  have hbudget : ∀ n, budget.check n = .ok () ∨ budget.check n = .error (.memoryLimit budget.limit) := by
    intro n
    unfold MemoryBudget.check
    split
    · exact .inr rfl
    · exact .inl rfl
  simp only [collectEntry, hkey, hrel, captureOf, enterOf]
  generalize key (src ++ p ++ [name]) = moved at hpending ⊢
  by_cases hvalid : validString name = true
  swap
  · exact .inl ⟨_, if_pos (by simpa using hvalid), rfl⟩
  by_cases hentry : m.overlay.entries moved = none
  swap
  · exact .inr ⟨c, by simp [hvalid, hentry], by simp [hentry], by simp [hentry]⟩
  have hnot : moved ∉ handled := fun h => hhandled _ h hentry
  rw [if_neg (by simpa using hvalid), if_neg (by simp [hentry, hnot])]
  cases node with
  | symlink target => exact .inl ⟨_, rfl, rfl⟩
  | special mtime =>
    refine .inr ⟨c, rfl, ?_, ?_⟩ <;> simp [Node.isRegular, Node.isDir]
  | file content mtime refused =>
    cases href : fileRefFromRelative host moved with
    | none => exact .inr ⟨c, rfl, by simp [Node.isRegular], by simp [Node.isDir]⟩
    | some ref =>
      have hregular : (Node.file content mtime refused).isRegular = true := rfl
      simp only [Node.isSymlink, Bool.false_eq_true, if_false, hregular, if_true]
      rcases hbudget (satAdd (satAdd (satAdd c.usage (UInt64.ofNat moved.length))
        (UInt64.ofNat ref.relative.length)) realDescendantMemoryUsage) with hb | hb
      · rw [hb]
        exact .inr ⟨_, rfl, by simp [hentry], by simp [Node.isDir]⟩
      · rw [hb]
        exact .inl ⟨_, rfl, rfl⟩
  | dir children mtime access =>
    have hdir : (Node.dir children mtime access).isDir = true := rfl
    simp only [Node.isSymlink, Bool.false_eq_true, if_false, Node.isRegular, hdir, if_true]
    rcases hbudget (satAdd (satAdd (satAdd c.usage (satMul (UInt64.ofNat moved.length) 2))
      (UInt64.ofNat moved.length)) realDescendantMemoryUsage) with hb | hb
    · rw [hb]
      exact .inr ⟨_, rfl, by simp [hentry], by simp [hentry, hpending]⟩
    · rw [hb]
      exact .inl ⟨_, rfl, rfl⟩

theorem collectEntries_eq (hsrc : OrdinaryPath (src ++ p)) (hne : src ≠ [])
    (hhandled : ∀ k ∈ handled, m.overlay.entries k ≠ none) {c : Collected}
    (entries : List (GoString × Node)) :
    (∃ e, entries.foldlM (collectEntry m host handled vpath budget now (pendingAt src p)) c =
        .error e ∧ isReported e = true) ∨
      ∃ c', entries.foldlM (collectEntry m host handled vpath budget now (pendingAt src p)) c =
          .ok c' ∧
        c'.result = c.result ++ entries.flatMap (captureOf m host src now p) ∧
        c'.dirs = (entries.flatMap (enterOf m src p)).reverse.map (pendingAt src) ++ c.dirs := by
  induction entries generalizing c with
  | nil => exact .inr ⟨c, rfl, by simp, by simp⟩
  | cons entry rest ih =>
    rw [List.foldlM_cons]
    rcases collectEntry_eq hsrc hne hhandled c entry with
      ⟨e, he, hreported⟩ | ⟨c₁, hc₁, hresult₁, hdirs₁⟩
    · exact .inl ⟨e, by rw [he]; rfl, hreported⟩
    rw [hc₁]
    rcases ih (c := c₁) with ⟨e, he, hreported⟩ | ⟨c₂, hc₂, hresult₂, hdirs₂⟩
    · exact .inl ⟨e, he, hreported⟩
    refine .inr ⟨c₂, hc₂, ?_, ?_⟩
    · rw [hresult₂, hresult₁, List.flatMap_cons, List.append_assoc]
    have hone : (enterOf m src p entry).reverse = enterOf m src p entry := by
      unfold enterOf
      split <;> rfl
    rw [hdirs₂, hdirs₁, List.flatMap_cons, List.reverse_append, hone, List.map_append,
      List.append_assoc]

/-- The walk is at a path of ordinary names without symbolic links. -/
structure OnTree (host : Node) (src p : Path) : Prop where
  ordinary : OrdinaryPath (src ++ p)
  noLink : host.meetsLink (src ++ p) = false

variable {f : DirStream}

theorem dirAt_eq_ok (hhost : host.isDir = true) (hne : src ≠ []) (hp : OnTree host src p)
    (h : dirAt host src p = .ok f) :
    ∃ children mtime access, host.descend (src ++ p) = .ok (.dir children mtime access) ∧
      access.opens = none ∧ f.entries <+: children ∧ (f.failure = none → f.entries = children) := by
  have hkey : key (src ++ p) ≠ [] := fun h => by
    simpa [hne] using (key_eq_nil hp.ordinary).mp h
  have hstat : stat host (key (src ++ p)) = host.descend (src ++ p) := by
    have := stat_dirOp_key hhost hp.ordinary hp.noLink
    rwa [dirOp, if_neg hkey] at this
  rw [dirAt, openDir, hstat] at h
  cases hdescend : host.descend (src ++ p) with
  | error err => simp [hdescend] at h
  | ok x =>
    cases x with
    | file | symlink | special => simp [hdescend] at h
    | dir children mtime access =>
      simp only [hdescend] at h
      cases hopens : access.opens with
      | some refusal => simp [hopens] at h
      | none =>
        simp only [hopens] at h
        refine ⟨children, mtime, access, rfl, hopens, ?_⟩
        cases hread : access.readDir with
        | none =>
          simp only [hread, Except.ok.injEq] at h
          subst h
          exact ⟨List.prefix_rfl, fun _ => rfl⟩
        | some stop =>
          simp only [hread, Except.ok.injEq] at h
          subst h
          exact ⟨List.take_prefix _ _, fun hnone => by cases hnone⟩

theorem OnTree.enter (hhost : host.isDir = true) (hwf : host.WellFormed) (hne : src ≠ [])
    (hp : OnTree host src p) (hf : dirAt host src p = .ok f) {entry : GoString × Node}
    (hentry : entry ∈ f.entries) (hdir : entry.2.isDir = true) :
    OnTree host src (p ++ [entry.1]) := by
  obtain ⟨children, mtime, access, hdescend, -, hpre, -⟩ := dirAt_eq_ok hhost hne hp hf
  have hmem : entry ∈ children := hpre.subset hentry
  have hnode := hwf.descend hdescend
  cases hnode with
  | dir names unique below =>
    refine ⟨?_, ?_⟩
    · rw [← List.append_assoc]
      refine ordinaryPath_append.mpr ⟨hp.ordinary, ?_⟩
      intro x hx
      rw [List.mem_singleton.mp hx]
      exact names entry hmem
    · rw [← List.append_assoc]
      refine meetsLink_snoc hp.noLink hdescend ?_
      intro y hy
      have hsame : y = entry.2 := by
        rcases child_of_mem unique (show (entry.1, entry.2) ∈ children from hmem) with h | ⟨err, h⟩
        · exact Except.ok.inj (hy.symm.trans h)
        · rw [h] at hy
          cases hy
      rw [hsame]
      cases hnode : entry.2 <;> simp_all [Node.isDir, Node.isSymlink]

/-! ## The number of rounds -/

/-- The nodes below a directory of the walk; 1 when it is not found. -/
def weight (host : Node) (src p : Path) : ℕ :=
  match host.descend (src ++ p) with
  | .ok x => x.nodes
  | .error _ => 1

theorem nodes_pos (n : Node) : 0 < n.nodes := by
  cases n <;>
    · simp only [Node.nodes]
      omega

theorem weight_pos (host : Node) (src p : Path) : 0 < weight host src p := by
  unfold weight
  split
  · exact nodes_pos _
  · exact Nat.one_pos

/-- The subdirectories the walk enters from `src ++ p` weigh less than `src ++ p`. -/
theorem weight_enter (hhost : host.isDir = true) (hwf : host.WellFormed) (hne : src ≠ [])
    (hp : OnTree host src p) (hf : dirAt host src p = .ok f) :
    ((f.entries.flatMap (enterOf m src p)).map (weight host src)).sum < weight host src p := by
  obtain ⟨children, mtime, access, hdescend, -, hpre, -⟩ := dirAt_eq_ok hhost hne hp hf
  have hunique : (children.map Prod.fst).Nodup := by
    cases hwf.descend hdescend with
    | dir names unique below => exact unique
  have hone : ∀ entry ∈ children,
      ((enterOf m src p entry).map (weight host src)).sum ≤ Node.nodesPair entry := by
    intro entry hentry
    unfold enterOf
    split
    · have hchild : (Node.dir children mtime access).child entry.1 = .ok entry.2 ∨
          ∃ err, (Node.dir children mtime access).child entry.1 = .error err :=
        child_of_mem hunique hentry
      have hnodes : Node.nodesPair entry = entry.2.nodes := by
        obtain ⟨name, node⟩ := entry
        rw [Node.nodesPair]
      simp only [List.map_cons, List.map_nil, List.sum_cons, List.sum_nil, Nat.add_zero, hnodes,
        weight, ← List.append_assoc, descend_snoc, hdescend]
      have hpos := nodes_pos entry.2
      rcases hchild with h | ⟨err, h⟩
      · simp [bind, Except.bind, h]
      · simp only [bind, Except.bind, h]
        omega
    · exact Nat.zero_le _
  have hsum : ∀ entries : List (GoString × Node), entries <+: children →
      ((entries.flatMap (enterOf m src p)).map (weight host src)).sum ≤ Node.nodesList entries := by
    intro entries hentries
    have hsubset := hentries.subset
    clear hentries
    induction entries with
    | nil => simp
    | cons entry rest ih =>
      have hrest := ih fun x hx => hsubset (List.mem_cons_of_mem entry hx)
      have hfirst := hone entry (hsubset List.mem_cons_self)
      rw [List.flatMap_cons, List.map_append, List.sum_append, Node.nodesList]
      omega
  have hlist : ∀ entries rest, Node.nodesList (entries ++ rest) =
      Node.nodesList entries + Node.nodesList rest := by
    intro entries rest
    induction entries with
    | nil => simp [Node.nodesList]
    | cons entry others ih =>
      rw [List.cons_append, Node.nodesList, Node.nodesList, ih, Nat.add_assoc]
  have hweight : weight host src p = 1 + Node.nodesList children := by
    simp [weight, hdescend, Node.nodes]
  obtain ⟨rest, rfl⟩ := hpre
  have hle := hsum f.entries (List.prefix_append _ _)
  rw [hlist] at hweight
  omega

/-! ## The loop -/

/-- The walk comes to the directory at `src ++ q` from one on the stack. -/
def Reached (m : Mount) (host : Node) (src : Path) (ps : List Path) (q : Path) : Prop :=
  ∃ p ∈ ps, Relation.ReflTransGen (Enters m host src) p q

theorem reached_cons {ps : List Path} (hf : dirAt host src p = .ok f) :
    Reached m host src (p :: ps) q ↔
      q = p ∨ Reached m host src ((f.entries.flatMap (enterOf m src p)).reverse ++ ps) q := by
  constructor
  · rintro ⟨a, ha, hwalk⟩
    rcases List.mem_cons.mp ha with rfl | ha
    · rcases Relation.ReflTransGen.cases_head hwalk with rfl | ⟨b, ⟨f', hf', hb⟩, hwalk⟩
      · exact .inl rfl
      rw [hf] at hf'
      cases hf'
      exact .inr ⟨b, List.mem_append_left _ (List.mem_reverse.mpr hb), hwalk⟩
    · exact .inr ⟨a, List.mem_append_right _ ha, hwalk⟩
  · rintro (rfl | ⟨a, ha, hwalk⟩)
    · exact ⟨q, List.mem_cons_self, .refl⟩
    rcases List.mem_append.mp ha with ha | ha
    · exact ⟨p, List.mem_cons_self, .head ⟨f, hf, List.mem_reverse.mp ha⟩ hwalk⟩
    · exact ⟨a, List.mem_cons_of_mem p ha, hwalk⟩

/-- **What the loop of `collectRealDescendants` returns.**  When it ends, it has opened
and listed every directory it came to and captured what they list; otherwise it fails
with an error that is reported, or because a directory it came to does not list. -/
theorem collectLoop_spec (hhost : host.isDir = true) (hwf : host.WellFormed) (hne : src ≠ [])
    (hhandled : ∀ k ∈ handled, m.overlay.entries k ≠ none) (fuel : ℕ) (ps : List Path)
    (c : Collected) (hps : ∀ p ∈ ps, OnTree host src p) (hdirs : c.dirs = ps.map (pendingAt src))
    (hfuel : (ps.map (weight host src)).sum ≤ fuel) :
    match collectLoop m host handled vpath budget now fuel c with
    | .ok result =>
      (∀ q, Reached m host src ps q → Lists host src q) ∧ ∀ move, move ∈ result ↔
          move ∈ c.result ∨ ∃ q, Reached m host src ps q ∧ CapturedIn m host src now q move
    | .error e => isReported e = true ∨ ∃ q, Reached m host src ps q ∧ ¬ Lists host src q := by
  induction fuel generalizing ps c with
  | zero =>
    cases ps with
    | nil =>
      rw [collectLoop, hdirs]
      simp [Reached]
    | cons p rest =>
      have hpos := weight_pos host src p
      simp only [List.map_cons, List.sum_cons] at hfuel
      omega
  | succ fuel ih =>
    cases ps with
    | nil =>
      rw [collectLoop, hdirs]
      simp [Reached]
    | cons p rest =>
      have hp := hps p List.mem_cons_self
      have hself : Reached m host src (p :: rest) p := ⟨p, List.mem_cons_self, .refl⟩
      have hopen : openDir host (pendingAt src p).rel = dirAt host src p := rfl
      rw [collectLoop, hdirs]
      simp only [List.map_cons, hopen]
      cases hf : dirAt host src p with
      | error err =>
        have hnot : ¬ Lists host src p := by
          rintro ⟨f, h, -⟩
          rw [hf] at h
          cases h
        exact .inr ⟨p, hself, hnot⟩
      | ok f =>
        simp only [eachDirEntry]
        rcases collectEntries_eq hp.ordinary hne hhandled
          (c := { c with dirs := rest.map (pendingAt src) }) f.entries with
          ⟨e, he, hreported⟩ | ⟨c₁, hc₁, hresult, hnext⟩
        · rw [he]
          exact .inl hreported
        · rw [hc₁]
          cases hfailure : f.failure with
          | some err =>
            have hnot : ¬ Lists host src p := by
              rintro ⟨f', h, hnone⟩
              rw [hf] at h
              cases h
              rw [hfailure] at hnone
              cases hnone
            exact .inr ⟨p, hself, hnot⟩
          | none =>
            -- The walk goes on with the subdirectories on top of the stack.
            have hstack : ∀ q ∈ (f.entries.flatMap (enterOf m src p)).reverse ++ rest,
                OnTree host src q := by
              intro q hq
              rcases List.mem_append.mp hq with hq | hq
              · obtain ⟨entry, hentry, hq⟩ := List.mem_flatMap.mp (List.mem_reverse.mp hq)
                unfold enterOf at hq
                split at hq
                · rename_i hdir
                  rw [List.mem_singleton.mp hq]
                  exact hp.enter hhost hwf hne hf hentry hdir.2
                · cases hq
              · exact hps q (List.mem_cons_of_mem p hq)
            have hweight := weight_enter (m := m) hhost hwf hne hp hf
            have hrest := ih _ c₁ hstack (by rw [hnext, List.map_append]) (by
              rw [List.map_append, List.sum_append, List.map_reverse, List.sum_reverse]
              simp only [List.map_cons, List.sum_cons] at hfuel
              omega)
            show match collectLoop m host handled vpath budget now fuel c₁ with
              | .ok result => _
              | .error e => _
            cases hloop : collectLoop m host handled vpath budget now fuel c₁ with
            | error e =>
              rw [hloop] at hrest
              rcases hrest with hreported | ⟨q, hq, hnot⟩
              · exact .inl hreported
              · exact .inr ⟨q, (reached_cons hf).mpr (.inr hq), hnot⟩
            | ok result =>
              rw [hloop] at hrest
              refine ⟨?_, ?_⟩
              · intro q hq
                rcases (reached_cons hf).mp hq with rfl | hq
                · exact ⟨f, hf, hfailure⟩
                · exact hrest.1 q hq
              · intro move
                rw [hrest.2, hresult, List.mem_append, or_assoc]
                refine or_congr_right ?_
                constructor
                · rintro (hmove | ⟨q, hq, hmove⟩)
                  · exact ⟨p, hself, f, hf, hmove⟩
                  · exact ⟨q, (reached_cons hf).mpr (.inr hq), hmove⟩
                · rintro ⟨q, hq, hmove⟩
                  rcases (reached_cons hf).mp hq with rfl | hq
                  · obtain ⟨f', hf', hmove⟩ := hmove
                    rw [hf] at hf'
                    cases hf'
                    exact .inl hmove
                  · exact .inr ⟨q, hq, hmove⟩

theorem nodes_le_of_child {next : Node} (h : n.child name = .ok next) : next.nodes ≤ n.nodes := by
  cases n with
  | file | symlink | special => cases h
  | dir children mtime access =>
    have hle : next.nodes ≤ Node.nodesList children := by
      have hmem := mem_of_child h
      clear h
      induction children with
      | nil => cases hmem
      | cons first others ih =>
        rw [Node.nodesList]
        rcases List.mem_cons.mp hmem with rfl | hmem
        · rw [Node.nodesPair]
          omega
        · have := ih hmem
          omega
    rw [Node.nodes]
    omega

theorem nodes_le_of_descend (h : n.descend p = .ok node) : node.nodes ≤ n.nodes :=
  descend_rec (fun _ _ _ hle hchild => (nodes_le_of_child hchild).trans hle) le_rfl h

/-- Every directory the walk comes to opens and lists to its end. -/
def Readable (m : Mount) (host : Node) (src : Path) : Prop :=
  ∀ q, Walked m host src q → Lists host src q

/-- **What `collectRealDescendants` returns.** -/
theorem collectRealDescendants_spec (hhost : host.isDir = true) (hwf : host.WellFormed)
    (hne : src ≠ []) (hsrc : OnTree host src [])
    (hhandled : ∀ k ∈ handled, m.overlay.entries k ≠ none) :
    match collectRealDescendants m host (key src) (key src ++ [slash]) handled vpath budget now with
    | .ok result =>
      Readable m host src ∧ ∀ move, move ∈ result ↔
        ∃ q, Walked m host src q ∧ CapturedIn m host src now q move
    | .error e => isReported e = true ∨ ¬ Readable m host src := by
  have hweight : weight host src [] ≤ host.nodes := by
    unfold weight
    rw [List.append_nil]
    cases hdescend : host.descend src with
    | error err => exact nodes_pos host
    | ok x => exact nodes_le_of_descend hdescend
  have hone : ∀ q, Reached m host src [[]] q ↔ Walked m host src q := by
    intro q
    simp [Reached, Walked]
  let start : Collected := {
    usage := satAdd (UInt64.ofNat (key src).length) (UInt64.ofNat (key src ++ [slash]).length)
    result := []
    dirs := [{ rel := key src, pre := key src ++ [slash] }] }
  have hloop := @collectLoop_spec host m src now vpath budget handled hhost hwf hne hhandled
    host.nodes [[]] start (by simpa using hsrc) (by simp [start, pendingAt]) (by simpa using hweight)
  unfold collectRealDescendants
  split at hloop
  · rename_i result hresult
    rw [hresult]
    simpa [hone, Readable, start] using hloop
  · rename_i e he
    rw [he]
    simpa [hone, Readable] using hloop

/-! ## References to real files -/

theorem refSeen_key (hp : OrdinaryPath p) (hne : p ≠ []) {content : Bytes} {mtime : Float64}
    {refused : Option HostError} (h : host.visibleAt p = some (.file content mtime refused)) :
    refSeen host (key p) = .file content refused := by
  rw [refSeen, split_key hp hne, h]

theorem fileRefFromRelative_eq_some (hhost : host.isDir = true) (hp : OrdinaryPath p)
    (hne : p ≠ []) (hlink : host.meetsLink p = false) {ref : OverlayEntry}
    (h : fileRefFromRelative host (key p) = some ref) :
    ∃ content mtime refused, host.descend p = .ok (.file content mtime refused) ∧
      ref = { kind := .realFileRef, relative := key p, mtime := mtime, size := content.length } := by
  have hlstat : lstat host (key p) = host.descend p := by
    have hdirOp := lstat_dirOp_key hhost hp hlink
    rwa [dirOp, if_neg ((key_eq_nil hp).not.mpr hne)] at hdirOp
  rw [fileRefFromRelative, hlstat] at h
  cases hdescend : host.descend p with
  | error err => simp [hdescend] at h
  | ok x =>
    cases x with
    | dir | symlink | special => simp [hdescend, Node.isRegular] at h
    | file content mtime refused =>
      simp only [hdescend, Node.isRegular, if_true, Option.some.injEq] at h
      exact ⟨content, mtime, refused, rfl, h.symm⟩

/-! ## What is captured is what shows -/

section Visible

variable (hhost : host.isDir = true) (hwf : host.WellFormed) (hne : src ≠ [])
  (hsrc : OnTree host src []) (hread : Readable m host src)

include hhost hwf hne hsrc

theorem Walked.onTree (h : Walked m host src q) : OnTree host src q := by
  induction h with
  | refl => exact hsrc
  | tail _ henter ih =>
    obtain ⟨f, hf, hmem⟩ := henter
    obtain ⟨entry, hentry, hq⟩ := List.mem_flatMap.mp hmem
    unfold enterOf at hq
    split at hq
    · rename_i hdir
      rw [List.mem_singleton.mp hq]
      exact ih.enter hhost hwf hne hf hentry hdir.2
    · cases hq

include hread

private theorem Walked.dir (h : Walked m host src q) :
    ∃ children mtime access, host.descend (src ++ q) = .ok (.dir children mtime access) ∧
      access.opens = none ∧ dirAt host src q = .ok { entries := children, failure := none } := by
  obtain ⟨⟨entries, failure⟩, hf, hfailure⟩ := hread q h
  obtain ⟨children, mtime, access, hdescend, hopens, -, hall⟩ :=
    dirAt_eq_ok hhost hne (h.onTree hhost hwf hne hsrc) hf
  simp only at hfailure hall
  rw [hfailure, hall hfailure] at hf
  exact ⟨children, mtime, access, hdescend, hopens, hf⟩

section

variable (hshown : (host.visibleAt src).isSome)
include hshown

theorem Walked.visible (h : Walked m host src q) :
    ∃ children mtime access, host.visibleAt (src ++ q) = some (.dir children mtime access) ∧
      dirAt host src q = .ok { entries := children, failure := none } := by
  have hsome : (host.visibleAt (src ++ q)).isSome := by
    induction h with
    | refl => simpa using hshown
    | tail hwalk henter ih =>
      rename_i q₁ q₂
      obtain ⟨x, hx⟩ := Option.isSome_iff_exists.mp ih
      have hwalk' : Walked m host src q₁ := hwalk
      have hord := (hwalk'.onTree hhost hwf hne hsrc).ordinary
      have hdescend₁ := ((visibleAt_eq_some_iff [] hord).mp hx).2
      obtain ⟨children, mtime, access, hdescend, hopens, -⟩ :=
        Walked.dir hhost hwf hne hsrc hread (hwalk'.tail henter)
      obtain ⟨f, -, hmem⟩ := henter
      obtain ⟨entry, -, hq⟩ := List.mem_flatMap.mp hmem
      unfold enterOf at hq
      split at hq
      · rw [List.mem_singleton.mp hq, ← List.append_assoc] at hdescend ⊢
        rw [descend_snoc, hdescend₁] at hdescend
        have hchild : x.child entry.1 = .ok (.dir children mtime access) := hdescend
        rw [visibleAt_append, hx]
        simp [Node.visibleAt, hchild, hopens]
      · cases hq
  obtain ⟨x, hx⟩ := Option.isSome_iff_exists.mp hsome
  have hord := (h.onTree hhost hwf hne hsrc).ordinary
  obtain ⟨children, mtime, access, hdescend, -, hf⟩ := Walked.dir hhost hwf hne hsrc hread h
  rw [((visibleAt_eq_some_iff [] hord).mp hx).2] at hdescend
  cases hdescend
  exact ⟨children, mtime, access, hx, hf⟩

/-- **A captured move shows what stood at its place.** -/
theorem CapturedIn.seen (hwalk : Walked m host src q) {move : RealMove}
    (hmove : CapturedIn m host src now q move) :
    ∃ name, OrdinaryPath (src ++ (q ++ [name])) ∧ move.oldKey = key (src ++ (q ++ [name])) ∧
      m.overlay.entries move.oldKey = none ∧
      move.entry.seen host = (host.visibleAt (src ++ (q ++ [name]))).map Node.seen ∧
      (host.visibleAt (src ++ (q ++ [name]))).isSome := by
  obtain ⟨children, mtime, access, hvisible, hdir⟩ := hwalk.visible hhost hwf hne hsrc hread hshown
  have htree := hwalk.onTree hhost hwf hne hsrc
  have hdescend := ((visibleAt_eq_some_iff [] htree.ordinary).mp hvisible).2
  obtain ⟨f, hf, hmem⟩ := hmove
  rw [hdir] at hf
  cases hf
  obtain ⟨⟨name, node⟩, hentry, hcapture⟩ := List.mem_flatMap.mp hmem
  have hname : Ordinary name := by
    cases hwf.descend hdescend with
    | dir names unique below => exact names _ hentry
  have hunique : (children.map Prod.fst).Nodup := by
    cases hwf.descend hdescend with
    | dir names unique below => exact unique
  have hord : OrdinaryPath (src ++ (q ++ [name])) := by
    rw [← List.append_assoc]
    refine ordinaryPath_append.mpr ⟨htree.ordinary, ?_⟩
    intro x hx
    rw [List.mem_singleton.mp hx]
    exact hname
  have hpath : src ++ (q ++ [name]) ≠ [] := by simp
  have hkey : key (src ++ (q ++ [name])) ≠ [] := (key_eq_nil hord).not.mpr hpath
  have hbelow : host.visibleAt (src ++ (q ++ [name])) =
      (Node.dir children mtime access).visibleAt [name] := by
    rw [← List.append_assoc, visibleAt_append, hvisible]
    rfl
  simp only [captureOf, List.append_assoc] at hcapture
  split at hcapture
  · cases hcapture
  rename_i hfree
  have hfree : m.overlay.entries (key (src ++ (q ++ [name]))) = none := not_not.mp hfree
  cases node with
  | symlink | special => simp [Node.isRegular, Node.isDir] at hcapture
  | dir subchildren submtime subaccess =>
    have henter : Enters m host src q (q ++ [name]) := by
      refine ⟨_, hdir, List.mem_flatMap.mpr ⟨_, hentry, ?_⟩⟩
      simp [enterOf, hfree, Node.isDir]
    have hsub : Walked m host src (q ++ [name]) := hwalk.tail henter
    obtain ⟨_, _, _, hshows, -⟩ := hsub.visible hhost hwf hne hsrc hread hshown
    simp only [Node.isRegular, Node.isDir, Bool.false_eq_true, if_false, if_true,
      List.mem_singleton] at hcapture
    subst hcapture
    refine ⟨name, hord, rfl, hfree, ?_, by simp [hshows]⟩
    rw [hshows]
    rfl
  | file content filemtime refused =>
    simp only [Node.isRegular, if_true] at hcapture
    split at hcapture
    · cases hcapture
    rename_i ref href
    rw [List.mem_singleton.mp hcapture]
    -- The reference is found, so the file is the one that is listed.
    have hlink : host.meetsLink (src ++ (q ++ [name])) = false := by
      rw [← List.append_assoc]
      refine meetsLink_snoc htree.noLink hdescend ?_
      intro y hy
      rcases child_of_mem hunique hentry with h | ⟨err, h⟩
      · rw [Except.ok.inj (hy.symm.trans h)]
        rfl
      · rw [h] at hy
        cases hy
    obtain ⟨found, foundTime, foundRefused, hfound, rfl⟩ :=
      fileRefFromRelative_eq_some hhost hord hpath hlink href
    rw [← List.append_assoc, descend_snoc, hdescend] at hfound
    have hchild : (Node.dir children mtime access).child name =
        .ok (.file found foundTime foundRefused) := hfound
    have hshows : host.visibleAt (src ++ (q ++ [name])) =
        some (.file found foundTime foundRefused) := by
      rw [hbelow]
      simp [Node.visibleAt, hchild]
    refine ⟨name, hord, rfl, hfree, ?_, by simp [hshows]⟩
    rw [hshows]
    simp [OverlayEntry.seen, refSeen_key hord hpath hshows, Node.seen]

/-- The walk comes to every directory that shows below the source, when no entry stands on
the way. -/
theorem walked_of_visible
    (hfree : ∀ r, r ≠ [] → r <+: q → m.overlay.entries (key (src ++ r)) = none)
    (hshows : host.visibleAt (src ++ q) = some node) (hdir : node.isDir = true) :
    Walked m host src q := by
  induction q using List.reverseRecOn generalizing node with
  | nil => exact .refl
  | append_singleton q name ih =>
    rw [← List.append_assoc, visibleAt_append] at hshows
    obtain ⟨x, hx, hchild⟩ := Option.bind_eq_some_iff.mp hshows
    have hchild := child_of_visibleAt hchild
    have hwalk : Walked m host src q := by
      refine ih ?_ hx (isDir_of_child hchild)
      intro r hr hpre
      exact hfree r hr (hpre.trans (List.prefix_append _ _))
    obtain ⟨children, mtime, access, hvisible, hopen⟩ :=
      hwalk.visible hhost hwf hne hsrc hread hshown
    rw [hx] at hvisible
    cases hvisible
    refine hwalk.tail ⟨_, hopen, List.mem_flatMap.mpr ⟨_, mem_of_child hchild, ?_⟩⟩
    have hnone := hfree (q ++ [name]) (by simp) List.prefix_rfl
    simp [enterOf, hnone, hdir]

/-- **What shows below the source is captured**, when no entry stands on the way and it is
a file or a directory. -/
theorem exists_capturedIn {name : GoString} (hord : OrdinaryPath (src ++ (q ++ [name])))
    (hfree : ∀ r, r ≠ [] → r <+: q ++ [name] → m.overlay.entries (key (src ++ r)) = none)
    (hshows : host.visibleAt (src ++ (q ++ [name])) = some node) (hkind : node.seen ≠ .special) :
    Walked m host src q ∧ ∃ move, CapturedIn m host src now q move ∧
      move.oldKey = key (src ++ (q ++ [name])) := by
  have hnone := hfree (q ++ [name]) (by simp) List.prefix_rfl
  have hsplit := hshows
  rw [← List.append_assoc, visibleAt_append] at hsplit
  obtain ⟨x, hx, hchild⟩ := Option.bind_eq_some_iff.mp hsplit
  have hchild := child_of_visibleAt hchild
  have hwalk : Walked m host src q := by
    refine walked_of_visible hhost hwf hne hsrc hread hshown ?_ hx (isDir_of_child hchild)
    intro r hr hpre
    exact hfree r hr (hpre.trans (List.prefix_append _ _))
  obtain ⟨children, mtime, access, hvisible, hopen⟩ := hwalk.visible hhost hwf hne hsrc hread hshown
  rw [hx] at hvisible
  cases hvisible
  have hcaptured : ∀ move, move ∈ captureOf m host src now q (name, node) →
      CapturedIn m host src now q move := fun move hmove =>
    ⟨_, hopen, List.mem_flatMap.mpr ⟨_, mem_of_child hchild, hmove⟩⟩
  refine ⟨hwalk, ?_⟩
  cases node with
  | symlink | special => exact absurd rfl hkind
  | dir subchildren submtime subaccess =>
    refine ⟨{
      oldKey := key (src ++ (q ++ [name]))
      entry := directoryEntry (hostDirMtime host (key (src ++ (q ++ [name]))) now) },
      hcaptured _ ?_, rfl⟩
    simp only [captureOf, List.append_assoc, hnone, ne_eq, not_true_eq_false, if_false,
      Node.isRegular, Bool.false_eq_true, Node.isDir, if_true]
    exact List.mem_singleton_self _
  | file content filemtime refused =>
    have hlstat := lstat_of_visibleAt hhost hord hshows
    rw [dirOp, if_neg ((key_eq_nil hord).not.mpr (by simp))] at hlstat
    refine ⟨{
      oldKey := key (src ++ (q ++ [name]))
      entry := {
        kind := .realFileRef
        relative := key (src ++ (q ++ [name]))
        mtime := filemtime
        size := content.length } }, hcaptured _ ?_, rfl⟩
    simp only [captureOf, List.append_assoc, hnone, ne_eq, not_true_eq_false, if_false,
      Node.isRegular, if_true, fileRefFromRelative, hlstat]
    exact List.mem_singleton_self _

end

end Visible

/-! ## What the walk leaves out -/

theorem Walked.free (h : Walked m host src q) :
    ∀ r, r ≠ [] → r <+: q → m.overlay.entries (key (src ++ r)) = none := by
  induction h with
  | refl =>
    intro r hr hpre
    exact absurd (List.prefix_nil.mp hpre) hr
  | tail _ henter ih =>
    obtain ⟨f, -, hmem⟩ := henter
    obtain ⟨entry, -, hq⟩ := List.mem_flatMap.mp hmem
    unfold enterOf at hq
    split at hq
    · rename_i hfree
      intro r hr hpre
      rw [List.mem_singleton.mp hq] at hpre
      rcases List.prefix_concat_iff.mp hpre with rfl | hpre
      · rw [← List.append_assoc]
        exact hfree.1
      · exact ih r hr hpre
    · cases hq

theorem CapturedIn.ref_or_directory {move : RealMove} (h : CapturedIn m host src now q move) :
    fileRefFromRelative host move.oldKey = some move.entry ∨ move.entry.kind = .directory := by
  obtain ⟨f, -, hmem⟩ := h
  obtain ⟨entry, -, hcapture⟩ := List.mem_flatMap.mp hmem
  simp only [captureOf] at hcapture
  split at hcapture
  · cases hcapture
  split at hcapture <;> split at hcapture
  · cases hcapture
  · rename_i href
    rw [List.mem_singleton.mp hcapture]
    exact .inl href
  · rw [List.mem_singleton.mp hcapture]
    exact .inr rfl
  · cases hcapture

theorem CapturedIn.kind {move : RealMove} (h : CapturedIn m host src now q move) :
    move.entry.kind = .realFileRef ∨ move.entry.kind = .directory := by
  refine h.ref_or_directory.imp_left fun href => ?_
  unfold fileRefFromRelative at href
  split at href
  · cases href
  split at href
  · rw [← Option.some.inj href]
  · cases href

end Montygo.MountFs
