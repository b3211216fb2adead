import Montygo.MountFs.Refinement

/-!
# What can go wrong on the way to a path

Over a host tree without symbolic links two things can: the host refuses a lookup or the opening of
a directory (`refuses`), and a name of the path is looked up in something that is no directory
(`crossesFile`).  This module says when the walk to the real path accepts.
-/

namespace Montygo.MountFs

open Go Value Outcome

/-! ## What the host says on the way -/

namespace Node

/-- The host refuses a lookup, or the opening of a directory, on the way along the path. -/
def refuses : Node → Path → Bool
  | _, [] => false
  | n, name :: rest =>
    match n.child name with
    | .error err => !isMissing err
    | .ok (.dir children mtime access) =>
      access.opens.isSome || refuses (.dir children mtime access) rest
    | .ok _ => false

/-- A name of the path is looked up in something that is no directory. -/
def crossesFile : Node → Path → Bool
  | _, [] => false
  | n, name :: rest =>
    match n.child name with
    | .error _ => false
    | .ok next => if next.isDir then crossesFile next rest else !rest.isEmpty

/-- There are no symbolic links in the tree. -/
def LinkFree (n : Node) : Prop := ∀ p, n.meetsLink p = false

/-- A tree of readable directories and regular files. -/
inductive Readable : Node → Prop
  | file {content : Bytes} {mtime : Float64} : Readable (.file content mtime none)
  | dir {children : List (GoString × Node)} {mtime : Float64}
      (below : ∀ child ∈ children, Readable child.2) : Readable (.dir children mtime {})

variable {n : Node} {p : Path}

theorem Readable.isSymlink (h : n.Readable) : n.isSymlink = false := by
  cases h <;> rfl

theorem Readable.child {next : Node} {name : GoString} (h : n.Readable)
    (hchild : n.child name = .ok next) : next.Readable := by
  cases h with
  | file => simp [Node.child] at hchild
  | dir below => exact below _ (mem_of_child hchild)

theorem Readable.descend {x : Node} (h : n.Readable) (hx : n.descend p = .ok x) : x.Readable :=
  descend_rec (fun _ _ _ => Readable.child) h hx

theorem Readable.linkFree (h : n.Readable) : n.LinkFree := by
  intro p
  induction p generalizing n with
  | nil => rfl
  | cons name rest ih =>
    rw [meetsLink]
    cases hchild : n.child name with
    | error err => rfl
    | ok next =>
      have hnext := h.child hchild
      simp [hnext.isSymlink, ih hnext]

theorem Readable.refuses (h : n.Readable) (hn : n.isDir = true) : n.refuses p = false := by
  induction p generalizing n with
  | nil => rfl
  | cons name rest ih =>
    cases h with
    | file => cases hn
    | dir below =>
      rw [Node.refuses, Node.child]
      cases hfind : List.find? _ _ with
      | none => simp
      | some entry =>
        have hentry := below entry (List.mem_of_find?_eq_some hfind)
        simp only
        cases hnode : entry.2 with
        | file | symlink | special => rfl
        | dir children mtime access =>
          rw [hnode] at hentry
          have hopens : access.opens = none := by
            cases hentry
            rfl
          simpa [hopens] using ih hentry rfl

theorem descend_of_crossesFile (h : n.crossesFile p = true) : n.descend p = .error .enotdir := by
  induction p generalizing n with
  | nil => cases h
  | cons name rest ih =>
    rw [crossesFile] at h
    rw [descend]
    cases hchild : n.child name with
    | error err => simp [hchild] at h
    | ok next =>
      simp only [hchild] at h ⊢
      split at h
      · exact ih h
      rename_i hdir
      cases rest with
      | nil => cases h
      | cons second others =>
        rw [descend, child_of_not_isDir (by simpa using hdir)]

/-- Where nothing is refused and no file is crossed, a descent ends at a node or finds nothing. -/
theorem isMissing_of_descend {err : HostError} (hrefuses : n.refuses p = false)
    (hcross : n.crossesFile p = false) (h : n.descend p = .error err) : isMissing err = true := by
  induction p generalizing n with
  | nil => cases h
  | cons name rest ih =>
    rw [refuses] at hrefuses
    rw [crossesFile] at hcross
    rw [descend] at h
    cases hchild : n.child name with
    | error err' =>
      simp only [hchild] at hrefuses h
      cases h
      simpa using hrefuses
    | ok next =>
      simp only [hchild] at hrefuses hcross h
      cases next with
      | file | symlink | special =>
        have hrest : rest = [] := by simpa [isDir] using hcross
        rw [hrest] at h
        cases h
      | dir children mtime access =>
        simp only [Bool.or_eq_false_iff] at hrefuses
        exact ih hrefuses.2 hcross h

end Node

open Node

variable {host n : Node} {p : Path} {name vpath : GoString} {m : Mount}

/-- **The walk accepts a path exactly when the host refuses nothing on it.** -/
theorem chainLoop_eq_ok_iff (hp : OrdinaryPath p) (hlink : n.meetsLink p = false) :
    chainLoop vpath { current := n, exhausted := false } p = .ok () ↔ n.refuses p = false := by
  induction p generalizing n with
  | nil => simp [chainLoop, refuses]
  | cons name rest ih =>
    have hname := hp name List.mem_cons_self
    rw [meetsLink] at hlink
    rw [chainLoop, step_eq hname, refuses]
    cases hchild : n.child name with
    | error err => cases hmissing : isMissing err <;> simp [hmissing]
    | ok next =>
      simp only [hchild, Bool.or_eq_false_iff] at hlink
      cases next with
      | symlink target => simp [isSymlink] at hlink
      | file content mtime refused | special mtime => simp
      | dir children mtime access =>
        cases hopens : access.opens with
        | some refusal => simp [hopens]
        | none => simpa [hopens] using ih hp.tail hlink.2

/-! ## The target -/

theorem resolveReal_of_refuses (hlinks : host.LinkFree) (hp : OrdinaryPath p)
    (hrel : resolveVirtualPath vpath m.root.virtualPath = .ok (key p)) (h : host.refuses p = false) :
    m.resolveReal host vpath = .ok (key p) := by
  rw [resolveReal_eq hp hrel, (chainLoop_eq_ok_iff hp (hlinks p)).mpr h]
  rfl

end Montygo.MountFs
