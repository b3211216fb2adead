import Mathlib.Data.List.Infix
import Mathlib.Logic.Function.Basic

/-!
# File trees

A file tree as a function of the path, with the commands a POSIX file system has on
it.  `Allows` says when a command may succeed and `apply` what it then does.  The
trees are over arbitrary names and contents; a file system whose visible state follows
`Step` is a POSIX file system for its callers.
-/

namespace Montygo.FileTree

variable {α β : Type*}

/-- What stands at a path. -/
inductive Item (β : Type*) where
  | file (content : List β)
  | dir
  deriving DecidableEq

/-- Whether an item is a file. -/
def Item.isFile : Item β → Bool
  | .file _ => true
  | .dir => false

/-- A tree of files: what stands at each path, given name by name from the root. -/
abbrev Tree (α β : Type*) := List α → Option (Item β)

/-- Whatever stands at a path stands in a directory. -/
structure WellFormed (t : Tree α β) : Prop where
  root : t [] = some .dir
  parent : ∀ p name, t (p ++ [name]) ≠ none → t p = some .dir

variable {t : Tree α β} {p q : List α}

/-- What has something below it is a directory. -/
theorem WellFormed.above (ht : WellFormed t) (hq : q ≠ []) (h : t (p ++ q) ≠ none) :
    t p = some .dir := by
  induction q using List.reverseRecOn generalizing p with
  | nil => exact absurd rfl hq
  | append_singleton rest name ih =>
    rw [← List.append_assoc] at h
    have hdir := ht.parent (p ++ rest) name h
    rcases eq_or_ne rest [] with rfl | hrest
    · simpa using hdir
    · exact ih hrest (by simp [hdir])

/-- Nothing stands below what is not a directory. -/
theorem WellFormed.below (ht : WellFormed t) (hp : t p ≠ some .dir) (hq : q ≠ []) :
    t (p ++ q) = none := by
  by_contra h
  exact hp (ht.above hq h)

/-- Nothing stands below an empty directory. -/
theorem WellFormed.below_empty (ht : WellFormed t) (hempty : ∀ name, t (p ++ [name]) = none)
    (hq : q ≠ []) : t (p ++ q) = none := by
  cases q with
  | nil => exact absurd rfl hq
  | cons name rest =>
    rcases eq_or_ne rest [] with rfl | hrest
    · exact hempty name
    have hsplit : p ++ name :: rest = p ++ [name] ++ rest := by simp
    rw [hsplit]
    exact ht.below (by simp [hempty name]) hrest

/-! ## Commands -/

/-- The commands; `keep` stands for everything that only looks. -/
inductive Command (α β : Type*) where
  | keep
  | write (p : List α) (content : List β)
  | append (p : List α) (content : List β)
  /-- Creates an empty file unless there is one. -/
  | touch (p : List α)
  /-- Opens a file for reading. -/
  | read (p : List α)
  | mkdir (p : List α) (parents existOK : Bool)
  | unlink (p : List α)
  | rmdir (p : List α)
  | rename (src dst : List α)

/-- The content of the file at `p`; nothing if there is none. -/
def content (t : Tree α β) (p : List α) : List β :=
  match t p with
  | some (.file content) => content
  | some .dir | none => []

/-- The directory that holds `p` is there. -/
def HasParent (t : Tree α β) (p : List α) : Prop := ∃ q name, p = q ++ [name] ∧ t q = some .dir

/-- Every path on the way to `p` is a directory or free. -/
def ClearTo (t : Tree α β) (p : List α) : Prop := ∀ q, q <+: p → t q = none ∨ t q = some .dir

/-- What has to hold for a rename of one path to another one. -/
structure Renames (t : Tree α β) (src dst : List α) : Prop where
  source : t src ≠ none
  src_ne_root : src ≠ []
  parent : HasParent t dst
  /-- A directory takes the place of nothing or of an empty directory, and not below itself. -/
  dir : t src = some .dir → ¬ src <+: dst ∧
    (t dst = none ∨ t dst = some .dir ∧ ∀ name, t (dst ++ [name]) = none)
  /-- A file takes the place of nothing or of a file. -/
  file : t src ≠ some .dir → t dst ≠ some .dir

/-- Source and destination of a rename to another place are not above one another. -/
theorem Renames.apart {src dst : List α} (h : Renames t src dst) (ht : WellFormed t)
    (hne : src ≠ dst) : ¬ src <+: dst ∧ ¬ dst <+: src := by
  refine ⟨?_, ?_⟩
  · intro hpre
    have hfile : t src ≠ some .dir := fun hdir => (h.dir hdir).1 hpre
    obtain ⟨above, last, rfl, habove⟩ := h.parent
    obtain ⟨r, rfl⟩ := (List.prefix_concat_iff.mp hpre).resolve_left hne
    rcases eq_or_ne r [] with rfl | hr
    · exact hfile (by simpa using habove)
    · exact hfile (ht.above hr (by simp [habove]))
  · rintro ⟨r, rfl⟩
    have hr : r ≠ [] := by
      rintro rfl
      exact hne (List.append_nil dst)
    have hdst : t dst = some .dir := ht.above hr h.source
    by_cases hdir : t (dst ++ r) = some .dir
    · rcases (h.dir hdir).2 with hnone | ⟨-, hempty⟩
      · rw [hnone] at hdst
        cases hdst
      · exact h.source (ht.below_empty hempty hr)
    · exact h.file hdir hdst

/-- Nothing stands below the destination of a rename. -/
theorem Renames.below_dst {src dst r : List α} (h : Renames t src dst) (ht : WellFormed t)
    (hr : r ≠ []) : t (dst ++ r) = none := by
  by_cases hdir : t src = some .dir
  · rcases (h.dir hdir).2 with hnone | ⟨-, hempty⟩
    · exact ht.below (by simp [hnone]) hr
    · exact ht.below_empty hempty hr
  · exact ht.below (h.file hdir) hr

/-- When a command may succeed. -/
def Allows (t : Tree α β) : Command α β → Prop
  | .keep => True
  | .write p _ | .append p _ | .touch p => HasParent t p ∧ t p ≠ some .dir
  | .read p | .unlink p => ∃ content, t p = some (.file content)
  | .mkdir p parents existOK =>
    existOK = true ∧ t p = some .dir ∨ t p = none ∧ if parents then ClearTo t p else HasParent t p
  | .rmdir p => p ≠ [] ∧ t p = some .dir ∧ ∀ name, t (p ++ [name]) = none
  | .rename src dst => src = dst ∧ t src ≠ none ∨ Renames t src dst

/-- What is there has a directory that holds it. -/
theorem WellFormed.hasParent (ht : WellFormed t) (hp : p ≠ []) (h : t p ≠ none) :
    HasParent t p := by
  obtain ⟨q, name, rfl⟩ := (List.eq_nil_or_concat' p).resolve_left hp
  exact ⟨q, name, rfl, ht.parent q name h⟩

section Apply

variable [DecidableEq α]

/-- Directories at all free paths on the way to `p`. -/
def makeDirs (t : Tree α β) (p : List α) : Tree α β := fun q =>
  if q <+: p then some ((t q).getD .dir) else t q

/-- The tree below `src` at `dst`, and nothing at `src`. -/
def move (t : Tree α β) (src dst : List α) : Tree α β := fun p =>
  if dst <+: p then t (src ++ p.drop dst.length)
  else if src <+: p then none
  else t p

/-- What a command does when it succeeds. -/
def apply (t : Tree α β) : Command α β → Tree α β
  | .keep | .read _ => t
  | .write p content => Function.update t p (some (.file content))
  | .append p content => Function.update t p (some (.file (FileTree.content t p ++ content)))
  | .touch p => Function.update t p (some (.file (FileTree.content t p)))
  | .mkdir p parents _ => if parents then makeDirs t p else Function.update t p (some .dir)
  | .unlink p | .rmdir p => Function.update t p none
  | .rename src dst => move t src dst

/-- One command of a run, and whether it succeeded.  A command that fails leaves the tree
as it was, except that a `mkdir` with `parents` may have made some of the directories
above its target. -/
inductive Step (t : Tree α β) : Option (Command α β) × Bool → Tree α β → Prop
  | succeeds {c : Command α β} (hallows : Allows t c) : Step t (some c, true) (apply t c)
  | fails {c : Option (Command α β)} : Step t (c, false) t
  | halfway {p q : List α} {existOK : Bool} (hbefore : q <+: p) (hne : q ≠ p)
      (hclear : ClearTo t q) : Step t (some (.mkdir p true existOK), false) (makeDirs t q)

/-! ## Every command leaves a tree -/

/-- An item may change at a path that stands in a directory, as long as nothing loses the
directory it stands in. -/
theorem WellFormed.update (ht : WellFormed t) (hparent : HasParent t p) {x : Option (Item β)}
    (hx : x = some .dir ∨ ∀ q, q ≠ [] → t (p ++ q) = none) :
    WellFormed (Function.update t p x) := by
  obtain ⟨above, last, rfl, habove⟩ := hparent
  refine ⟨?_, ?_⟩
  · rw [Function.update_of_ne (by simp)]
    exact ht.root
  · intro q name h
    rcases eq_or_ne q (above ++ [last]) with rfl | hq
    · rw [Function.update_of_ne (by simp)] at h
      rw [Function.update_self]
      exact hx.resolve_right fun hnone => h (hnone [name] (by simp))
    · rw [Function.update_of_ne hq]
      rcases eq_or_ne (q ++ [name]) (above ++ [last]) with heq | hne
      · rw [(List.append_inj' heq rfl).1]
        exact habove
      · rw [Function.update_of_ne hne] at h
        exact ht.parent q name h

theorem WellFormed.makeDirs (ht : WellFormed t) (hclear : ClearTo t p) :
    WellFormed (makeDirs t p) := by
  refine ⟨by simp [FileTree.makeDirs, ht.root], ?_⟩
  intro q name h
  by_cases hbelow : q ++ [name] <+: p
  · have hq : q <+: p := (List.prefix_append q [name]).trans hbelow
    rw [FileTree.makeDirs, if_pos hq]
    rcases hclear q hq with hnone | hdir
    · simp [hnone]
    · simp [hdir]
  · rw [FileTree.makeDirs, if_neg hbelow] at h
    simp [FileTree.makeDirs, ht.parent q name h]

/-- One more name on the way. -/
theorem makeDirs_snoc (t : Tree α β) (p : List α) (name : α) : FileTree.makeDirs t (p ++ [name]) =
      Function.update (FileTree.makeDirs t p) (p ++ [name]) (some ((t (p ++ [name])).getD .dir)) := by
  funext q
  rcases eq_or_ne q (p ++ [name]) with rfl | hq
  · rw [Function.update_self, FileTree.makeDirs, if_pos List.prefix_rfl]
  rw [Function.update_of_ne hq, FileTree.makeDirs, FileTree.makeDirs]
  refine if_congr ?_ rfl rfl
  rw [List.prefix_concat_iff]
  exact or_iff_right hq

/-- Where there is something, every directory on the way is there. -/
theorem WellFormed.makeDirs_eq (ht : WellFormed t) (h : t p ≠ none) : FileTree.makeDirs t p = t := by
  funext q
  unfold FileTree.makeDirs
  split
  · rename_i hpre
    obtain ⟨r, rfl⟩ := hpre
    have hq : t q ≠ none := by
      rcases eq_or_ne r [] with rfl | hr
      · simpa using h
      · simp [ht.above hr h]
    obtain ⟨x, hx⟩ := Option.ne_none_iff_exists'.mp hq
    simp [hx]
  · rfl

@[simp] theorem move_self (t : Tree α β) (p : List α) : move t p p = t := by
  funext q
  unfold move
  split
  · rename_i hpre
    obtain ⟨r, rfl⟩ := hpre
    simp
  · rfl

theorem WellFormed.move {src dst : List α} (ht : WellFormed t) (h : Renames t src dst) :
    WellFormed (move t src dst) := by
  obtain ⟨above, last, rfl, habove⟩ := h.parent
  -- The directory that holds the destination does not move.
  have hstays : ¬ src <+: above := by
    rintro ⟨r, rfl⟩
    have hdir : t src = some .dir := by
      rcases eq_or_ne r [] with rfl | hr
      · simpa using habove
      · exact ht.above hr (by simp [habove])
    exact (h.dir hdir).1 ⟨r ++ [last], by simp⟩
  refine ⟨?_, ?_⟩
  · simp [FileTree.move, h.src_ne_root, ht.root]
  intro p name hshown
  by_cases hbelow : above ++ [last] <+: p
  · obtain ⟨r, rfl⟩ := hbelow
    have hnext : above ++ [last] <+: above ++ [last] ++ r ++ [name] := by
      simp [List.append_assoc]
    rw [FileTree.move, if_pos hnext, List.append_assoc (above ++ [last]), List.drop_left] at hshown
    rw [FileTree.move, if_pos (List.prefix_append _ _), List.drop_left]
    exact ht.parent (src ++ r) name (by simpa using hshown)
  · rw [FileTree.move, if_neg hbelow]
    by_cases hdst : above ++ [last] <+: p ++ [name]
    · have heq := (List.prefix_concat_iff.mp hdst).resolve_right hbelow
      rw [← (List.append_inj' heq rfl).1, if_neg hstays]
      exact habove
    · rw [FileTree.move, if_neg hdst] at hshown
      split at hshown
      · exact absurd rfl hshown
      rename_i hsrc
      have hsrc' : ¬ src <+: p := fun hpre => hsrc (hpre.trans (List.prefix_append _ _))
      rw [if_neg hsrc']
      exact ht.parent p name hshown

/-- **A command that may succeed leaves a tree.** -/
theorem WellFormed.apply {c : Command α β} (ht : WellFormed t) (h : Allows t c) :
    WellFormed (apply t c) := by
  have hfile : ∀ p content, t p = some (.file content) → p ≠ [] := by
    rintro _ content hcontent rfl
    rw [ht.root] at hcontent
    cases hcontent
  cases c with
  | keep | read p => exact ht
  | write p content | append p content | touch p =>
    exact ht.update h.1 (.inr fun q => ht.below h.2)
  | unlink p =>
    obtain ⟨content, hcontent⟩ := h
    exact ht.update (ht.hasParent (hfile p content hcontent) (by simp [hcontent]))
      (.inr fun q => ht.below (by simp [hcontent]))
  | rmdir p =>
    exact ht.update (ht.hasParent h.1 (by simp [h.2.1])) (.inr fun q => ht.below_empty h.2.2)
  | mkdir p parents existOK =>
    have hclear : t p = some .dir → ClearTo t p := by
      rintro hdir q ⟨r, rfl⟩
      rcases eq_or_ne r [] with rfl | hr
      · exact .inr (by simpa using hdir)
      · exact .inr (ht.above hr (by simp [hdir]))
    cases parents with
    | true =>
      refine ht.makeDirs ?_
      rcases h with ⟨-, hdir⟩ | ⟨-, h⟩
      · exact hclear hdir
      · exact h
    | false =>
      rcases h with ⟨-, hdir⟩ | ⟨-, h⟩
      · rw [FileTree.apply, if_neg (by simp), ← hdir, Function.update_eq_self]
        exact ht
      · exact ht.update h (.inl rfl)
  | rename src dst =>
    rcases h with ⟨rfl, -⟩ | h
    · rw [FileTree.apply, move_self]
      exact ht
    · exact ht.move h

end Apply

end Montygo.FileTree
