import Montygo.MountFs.Mount

/-!
# What a mount sees of its host tree

The checks of a mount resolve a path several times, by the component walk and by
`os.Root` itself.  For a path of ordinary names all of this comes down to one
descent through the tree: `visibleAt` is the node a real path shows, and it is
found exactly when the walk accepts the path and `Stat` succeeds.
-/

namespace Montygo.MountFs

open Go Value Outcome

namespace Node

/-- The descent along a path, with symbolic links taken as they are. -/
def descend : Node → Path → Except HostError Node
  | n, [] => .ok n
  | n, name :: rest =>
    match n.child name with
    | .error err => .error err
    | .ok next => descend next rest

/-- A symbolic link stands on the path or at its end. -/
def meetsLink : Node → Path → Bool
  | _, [] => false
  | n, name :: rest =>
    match n.child name with
    | .error _ => false
    | .ok next => next.isSymlink || meetsLink next rest

/-- The node a real path shows: every directory on it can be opened, the last one
included, and no symbolic link stands on it. -/
def visibleAt : Node → Path → Option Node
  | n, [] => some n
  | n, name :: rest =>
    match n.child name with
    | .error _ => none
    | .ok (.symlink _) => none
    | .ok (.dir children mtime access) =>
      match access.opens with
      | some _ => none
      | none => visibleAt (.dir children mtime access) rest
    | .ok next => if rest = [] then some next else none

variable {n next : Node} {name : GoString} {p q : Path}

theorem child_of_not_isDir (hn : n.isDir = false) : n.child name = .error .enotdir := by
  cases n <;> simp_all [isDir, child]

theorem isDir_of_child (h : n.child name = .ok next) : n.isDir = true := by
  by_contra hn
  rw [child_of_not_isDir (by simpa using hn)] at h
  cases h

theorem descend_rec {motive : Node → Prop} {x : Node}
    (hpass : ∀ n name next, motive n → n.child name = .ok next → motive next) (hn : motive n)
    (h : n.descend p = .ok x) : motive x := by
  induction p generalizing n with
  | nil =>
    cases h
    exact hn
  | cons name rest ih =>
    rw [descend] at h
    cases hchild : n.child name with
    | error err => simp [hchild] at h
    | ok next =>
      simp only [hchild] at h
      exact ih (hpass n name next hn hchild) h

end Node

open Node

/-! ## Resolution without links -/

variable {follow : Bool} {links : ℕ} {vpath : GoString}

private theorem resolveFrom_eq_descend
    {onLink : Node → List Node → GoString → List GoString → Except HostError Node} {n : Node}
    {up : List Node} {p : Path} (hp : OrdinaryPath p) (hlink : n.meetsLink p = false) :
    resolveFrom onLink follow n up p = n.descend p := by
  induction p generalizing n up with
  | nil => rfl
  | cons name rest ih =>
    have hname := hp name List.mem_cons_self
    simp only [resolveFrom, descend, meetsLink] at hlink ⊢
    by_cases hdir : n.isDir = true
    · rw [if_neg (by simp [hdir]), if_neg (by simp [hname.ne_nil, hname.ne_dot]),
        if_neg hname.ne_dotdot]
      cases hchild : n.child name with
      | error err => rfl
      | ok next =>
        rw [hchild] at hlink
        simp only [Bool.or_eq_false_iff] at hlink
        cases next with
        | symlink target => simp [isSymlink] at hlink
        | file | dir | special => exact ih hp.tail hlink.2
    · rw [if_pos (by simpa using hdir), child_of_not_isDir (by simpa using hdir)]

theorem resolve_eq_descend {n : Node} {p : Path} (hp : OrdinaryPath p)
    (hlink : n.meetsLink p = false) :
    resolve follow links n [] p = n.descend p := by
  cases links <;> exact resolveFrom_eq_descend hp hlink

theorem split_key {p : Path} (hp : OrdinaryPath p) (hne : p ≠ []) : split (key p) = p :=
  Segments.splitOn_join hp.proper hne

private theorem resolve_dot {n : Node} (hn : n.isDir = true) :
    resolve follow links n [] [lit "."] = .ok n := by
  cases links <;> simp [resolve, resolveFrom, hn]

private theorem split_dot : split (lit ".") = [lit "."] := by
  decide

variable {host n : Node} {p : Path}

/-- `Stat` of an ordinary path without links is the descent along it. -/
theorem stat_dirOp_key (hhost : host.isDir = true) (hp : OrdinaryPath p)
    (hlink : host.meetsLink p = false) : stat host (dirOp (key p)) = host.descend p := by
  rcases eq_or_ne p [] with rfl | hne
  · rw [key_nil, dirOp, if_pos rfl, stat, split_dot, resolve_dot hhost]
    rfl
  · have hkey : key p ≠ [] := fun h => hne ((key_eq_nil hp).mp h)
    rw [dirOp, if_neg hkey, stat, split_key hp hne, resolve_eq_descend hp hlink]

/-- `Lstat` of an ordinary path without links is the descent along it. -/
theorem lstat_dirOp_key (hhost : host.isDir = true) (hp : OrdinaryPath p)
    (hlink : host.meetsLink p = false) : lstat host (dirOp (key p)) = host.descend p := by
  rcases eq_or_ne p [] with rfl | hne
  · rw [key_nil, dirOp, if_pos rfl, lstat, split_dot, resolve_dot hhost]
    rfl
  · have hkey : key p ≠ [] := fun h => hne ((key_eq_nil hp).mp h)
    rw [dirOp, if_neg hkey, lstat, split_key hp hne, resolve_eq_descend hp hlink]

/-! ## One step of the component walk -/

variable {name : GoString}

private theorem split_name (hname : Ordinary name) : split name = [name] :=
  List.splitOn_eq_singleton hname.no_slash

private theorem resolve_name {next : Node} (hname : Ordinary name)
    (hchild : n.child name = .ok next) (hlink : follow = false ∨ next.isSymlink = false) :
    resolve follow links n [] [name] = .ok next := by
  have hdir := isDir_of_child hchild
  cases links <;>
    · simp only [resolve, resolveFrom, hdir, hname.ne_nil, hname.ne_dot, hname.ne_dotdot, hchild]
      cases next <;> simp_all [isSymlink]

private theorem resolve_name_error {err : HostError} (hname : Ordinary name)
    (hchild : n.child name = .error err) : resolve follow links n [] [name] = .error err := by
  by_cases hdir : n.isDir = true
  · cases links <;>
      simp [resolve, resolveFrom, hdir, hname.ne_nil, hname.ne_dot, hname.ne_dotdot, hchild]
  · rw [child_of_not_isDir (by simpa using hdir)] at hchild
    cases hchild
    cases links <;> simp [resolve, resolveFrom, hdir]

/-- `Lstat` of one name is the lookup of it. -/
theorem lstat_name (hname : Ordinary name) : lstat n name = n.child name := by
  rw [lstat, split_name hname]
  cases hchild : n.child name with
  | error err => exact resolve_name_error hname hchild
  | ok next => exact resolve_name hname hchild (.inl rfl)

theorem stat_name {next : Node} (hname : Ordinary name) (hchild : n.child name = .ok next)
    (hlink : next.isSymlink = false) : stat n name = .ok next := by
  rw [stat, split_name hname]
  exact resolve_name hname hchild (.inr hlink)

theorem step_eq (hname : Ordinary name) :
    ComponentWalk.step { current := n, exhausted := false } name vpath =
      match n.child name with
      | .error err =>
        if isMissing err then .ok (.absent, { current := n, exhausted := true })
        else .error (mapIo err vpath)
      | .ok (.symlink _) => .ok (.symlink, { current := n, exhausted := true })
      | .ok (.dir children mtime access) =>
        match access.opens with
        | some refusal => .error (mapIo refusal.1 vpath)
        | none => .ok (.dir, { current := .dir children mtime access, exhausted := false })
      | .ok _ => .ok (.file, { current := n, exhausted := true }) := by
  simp only [ComponentWalk.step, classifyTarget, lstat_name hname]
  cases hchild : n.child name with
  | error err =>
    by_cases hmissing : isMissing err = true
    · simp [hmissing]
    · simp [hmissing]
  | ok next =>
    cases next with
    | file | symlink | special => simp [isSymlink, isDir]
    | dir children mtime access =>
      have hstat := stat_name hname hchild rfl
      simp only [isSymlink, isDir, openRoot, hstat]
      cases hroot : access.opens with
      | none => simp
      | some refusal => simp [refusal.2]

theorem step_exhausted : ComponentWalk.step { current := n, exhausted := true } name vpath =
      .ok (.absent, { current := n, exhausted := true }) := rfl

/-! ## The walk and the descent together -/

theorem meetsLink_of_chainLoop (hp : OrdinaryPath p)
    (h : chainLoop vpath { current := n, exhausted := false } p = .ok ()) :
    n.meetsLink p = false := by
  induction p generalizing n with
  | nil => rfl
  | cons name rest ih =>
    have hname := hp name List.mem_cons_self
    simp only [chainLoop, step_eq hname] at h
    simp only [meetsLink]
    cases hchild : n.child name with
    | error err => rfl
    | ok next =>
      simp only [hchild] at h
      cases next with
      | symlink target => simp at h
      | file content mtime refused | special mtime =>
        cases rest with
        | nil => rfl
        | cons second others => simp [meetsLink, child, isSymlink]
      | dir children mtime access =>
        cases hroot : access.opens with
        | some refusal => simp [hroot] at h
        | none =>
          simp only [hroot] at h
          simpa [isSymlink] using ih hp.tail h

/-- **A real path shows a node exactly when the walk accepts it and the descent ends
there.** -/
theorem visibleAt_eq_some_iff (vpath : GoString) (hp : OrdinaryPath p) {x : Node} :
    n.visibleAt p = some x ↔
      chainLoop vpath { current := n, exhausted := false } p = .ok () ∧ n.descend p = .ok x := by
  induction p generalizing n with
  | nil => simp [visibleAt, chainLoop, descend]
  | cons name rest ih =>
    have hname := hp name List.mem_cons_self
    simp only [visibleAt, chainLoop, descend, step_eq hname]
    cases hchild : n.child name with
    | error err => simp
    | ok next =>
      cases next with
      | symlink target => simp
      | file content mtime refused | special mtime =>
        cases rest with
        | nil => simp [descend]
        | cons second others => simp [descend, child]
      | dir children mtime access =>
        cases hroot : access.opens with
        | some refusal => simp [hroot]
        | none => simpa [hroot] using ih hp.tail

theorem visibleAt_of_descend_error (hp : OrdinaryPath p) {err : HostError}
    (h : n.descend p = .error err) : n.visibleAt p = none := by
  rw [Option.eq_none_iff_forall_ne_some]
  intro x hx
  rw [((visibleAt_eq_some_iff [] hp).mp hx).2] at h
  cases h

/-! ## The walk as a position in the tree -/

/-- The walk has taken the names of `p` from `host`: as long as it is not exhausted its
directory is the one `p` shows, and once it is, nothing is visible below `p`. -/
def WalkedTo (host : Node) (p : Path) (w : ComponentWalk) : Prop :=
  if w.exhausted then ∀ name rest, host.visibleAt (p ++ name :: rest) = none
  else ∀ rest, host.visibleAt (p ++ rest) = w.current.visibleAt rest

theorem walkedTo_start : WalkedTo host [] { current := host, exhausted := false } := by
  simp [WalkedTo]

/-- What the walk says about a target is what the host tree shows there. -/
def Shows (seen : Option Node) : RealTarget → Prop
  | .dir => ∃ node, seen = some node ∧ node.isDir = true
  | .file => ∃ node, seen = some node ∧ node.isDir = false ∧ node.isSymlink = false
  | .symlink | .absent => seen = none

/-- **A step of the walk moves its position by one name and tells what stands there.** -/
theorem WalkedTo.step {w next : ComponentWalk} {target : RealTarget} (hw : WalkedTo host p w)
    (hname : Ordinary name) (h : w.step name vpath = .ok (target, next)) :
    WalkedTo host (p ++ [name]) next ∧ Shows (host.visibleAt (p ++ [name])) target := by
  obtain ⟨current, exhausted⟩ := w
  cases exhausted with
  | true =>
    rw [step_exhausted] at h
    cases h
    have hnone : ∀ name rest, host.visibleAt (p ++ name :: rest) = none := hw
    refine ⟨?_, hnone name []⟩
    intro second rest
    rw [List.append_assoc]
    exact hnone name (second :: rest)
  | false =>
    have hseen : ∀ rest, host.visibleAt (p ++ rest) = current.visibleAt rest := hw
    have hbelow : ∀ rest, host.visibleAt (p ++ [name] ++ rest) = current.visibleAt (name :: rest) := by
      intro rest
      rw [List.append_assoc]
      exact hseen (name :: rest)
    rw [step_eq hname] at h
    rw [hseen [name]]
    simp only [WalkedTo, hbelow]
    cases hchild : current.child name with
    | error err =>
      simp only [hchild] at h
      split at h
      · cases h
        simp [visibleAt, hchild, Shows]
      · cases h
    | ok node =>
      simp only [hchild] at h
      cases node with
      | symlink link =>
        cases h
        simp [visibleAt, hchild, Shows]
      | file content mtime refused | special mtime =>
        cases h
        simp [visibleAt, hchild, Shows, isDir, isSymlink]
      | dir children mtime access =>
        cases hroot : access.opens with
        | some refusal => simp [hroot] at h
        | none =>
          simp only [hroot] at h
          cases h
          simp [visibleAt, hchild, hroot, Shows, isDir]

theorem Node.visibleAt_append {q : Path} :
    n.visibleAt (p ++ q) = (n.visibleAt p).bind fun x => x.visibleAt q := by
  induction p generalizing n with
  | nil => rfl
  | cons name rest ih =>
    rw [List.cons_append, visibleAt, visibleAt]
    cases hchild : n.child name with
    | error err => rfl
    | ok next =>
      cases next with
      | symlink target => rfl
      | file content mtime refused | special mtime =>
        cases rest with
        | cons second others => simp
        | nil =>
          cases q with
          | nil => simp [visibleAt]
          | cons first tail => simp [visibleAt, child]
      | dir children mtime access =>
        cases hopens : access.opens with
        | some refusal => simp [hopens]
        | none => simpa [hopens] using ih

end Montygo.MountFs
