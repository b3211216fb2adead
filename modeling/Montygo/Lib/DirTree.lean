import Mathlib.Data.List.Infix

/-!
# Trees of named directories

A directory is a sequence of entries in the order they were put in, each a file or a directory.
`walk` follows names from an entry down, `within` changes the directory at the end of a path, and
`setdefaults` makes the directories of a path that are missing until a file is in the way.  The last
part says which files there are after such a change.
-/

namespace Montygo.DirTree

/-- The entries of a directory. -/
inductive Dir (N F : Type) where
  | empty
  | file (name : N) (f : F) (rest : Dir N F)
  | dir (name : N) (sub rest : Dir N F)
  deriving DecidableEq

inductive Entry (N F : Type) where
  | file (f : F)
  | dir (d : Dir N F)
  deriving DecidableEq

variable {N F : Type} [DecidableEq N]

namespace Dir

/-- An entry in front of the others. -/
def cons (name : N) : Entry N F → Dir N F → Dir N F
  | .file f, rest => .file name f rest
  | .dir sub, rest => .dir name sub rest

def get : Dir N F → N → Option (Entry N F)
  | .empty, _ => none
  | .file n f rest, name => if name = n then some (.file f) else rest.get name
  | .dir n sub rest, name => if name = n then some (.dir sub) else rest.get name

/-- Puts an entry in the place of the one with its name, or at the end. -/
def set : Dir N F → N → Entry N F → Dir N F
  | .empty, name, e => cons name e .empty
  | .file n f rest, name, e => if name = n then cons name e rest else .file n f (rest.set name e)
  | .dir n sub rest, name, e => if name = n then cons name e rest else .dir n sub (rest.set name e)

/-- The entry of a name, or a new directory. -/
def setdefault (d : Dir N F) (name : N) : Entry N F := (d.get name).getD (.dir .empty)

/-- Makes the directories of a path that are missing, and returns the file that is in the way. -/
def setdefaults : Dir N F → List N → Dir N F × Option F
  | d, [] => (d, none)
  | d, name :: rest =>
    match d.setdefault name with
    | .file f => (d, some f)
    | .dir sub => (d.set name (.dir (sub.setdefaults rest).1), (sub.setdefaults rest).2)

/-- Changes the directory at the end of a path. -/
def within (g : Dir N F → Dir N F) : Dir N F → List N → Dir N F
  | d, [] => g d
  | d, name :: rest =>
    match d.get name with
    | some (.dir sub) => d.set name (.dir (within g sub rest))
    | some (.file _) | none => d

end Dir

/-- What stands at a path below an entry. -/
def walk : Entry N F → List N → Option (Entry N F)
  | e, [] => some e
  | .file _, _ :: _ => none
  | .dir d, name :: rest =>
    match d.get name with
    | some e => walk e rest
    | none => none

/-! ## One entry -/

variable {d sub : Dir N F} {name other : N} {e : Entry N F} {f i : F} {path q : List N}

open Dir

theorem get_cons : (cons name e d).get other = if other = name then some e else d.get other := by
  cases e <;> rfl

theorem get_set : (d.set name e).get other = if other = name then some e else d.get other := by
  induction d with
  | empty => exact get_cons
  | file n f rest ih | dir n sub rest _ ih =>
    rw [Dir.set]
    split
    · rename_i hname
      subst hname
      rw [get_cons, Dir.get]
      split <;> rfl
    · rename_i hname
      rw [Dir.get, Dir.get, ih]
      split
      · rename_i hother
        rw [if_neg fun h => hname (h.symm.trans hother)]
      · rfl

/-! ## Paths -/

@[simp] theorem walk_nil : walk e [] = some e := by
  cases e <;> rfl

@[simp] theorem walk_file_cons : walk (.file f : Entry N F) (name :: path) = none := rfl

theorem walk_cons : walk (.dir d) (name :: path) = (d.get name).bind fun e => walk e path := by
  rw [walk]
  cases d.get name <;> rfl

@[simp] theorem walk_empty_cons : walk (.dir (.empty : Dir N F)) (name :: path) = none := rfl

theorem walk_append : walk e (path ++ q) = (walk e path).bind fun e' => walk e' q := by
  induction path generalizing e with
  | nil => simp
  | cons name rest ih =>
    cases e with
    | file f => rfl
    | dir d =>
      rw [List.cons_append, walk_cons, walk_cons, Option.bind_assoc]
      simp only [ih]

/-! ## Changing a directory -/

section Within

variable {g : Dir N F → Dir N F}

/-- The directory at the end of the path is the changed one. -/
theorem walk_within (h : walk (.dir d) path = some (.dir sub)) :
    walk (.dir (d.within g path)) path = some (.dir (g sub)) := by
  induction path generalizing d with
  | nil =>
    cases h
    rfl
  | cons name rest ih =>
    rw [walk_cons] at h
    cases hget : d.get name with
    | none => simp [hget] at h
    | some e =>
      cases e with
      | file f =>
        cases rest <;> simp [hget] at h
      | dir below =>
        rw [hget] at h
        simp only [within, hget, walk_cons, get_set, ↓reduceIte, Option.bind_some]
        exact ih h

/-- A path that is not below the changed one leads to the same file. -/
theorem walk_within_of_not {r : N} (hg : ∀ d n, n ≠ r → (g d).get n = d.get n)
    (hq : ¬ path ++ [r] <+: q) :
    walk (.dir (d.within g path)) q = some (.file i) ↔ walk (.dir d) q = some (.file i) := by
  induction path generalizing d q with
  | nil =>
    cases q with
    | nil => simp
    | cons n rest =>
      have hn : n ≠ r := by
        rintro rfl
        exact hq ⟨rest, rfl⟩
      simp only [within, walk_cons, hg d n hn]
  | cons name below ih =>
    cases hget : d.get name with
    | none => simp only [within, hget]
    | some e =>
      cases e with
      | file f => simp only [within, hget]
      | dir under =>
        cases q with
        | nil => simp
        | cons n rest =>
          simp only [within, hget, walk_cons, get_set]
          split
          · rename_i hn
            subst hn
            simp only [hget, Option.bind_some]
            exact ih fun h => hq (List.cons_prefix_cons.mpr ⟨rfl, h⟩)
          · rfl

end Within

/-! ## Making the directories of a path -/

theorem setdefaults_empty : ((.empty : Dir N F).setdefaults path).2 = none := by
  induction path with
  | nil => rfl
  | cons name rest ih => exact ih

/-- The files are where they were. -/
theorem walk_setdefaults :
    walk (.dir (d.setdefaults path).1) q = some (.file i) ↔ walk (.dir d) q = some (.file i) := by
  induction path generalizing d q with
  | nil => rfl
  | cons name rest ih =>
    have hmade : ∀ sub, d.setdefault name = .dir sub →
        (walk (.dir (d.set name (.dir (sub.setdefaults rest).1))) q = some (.file i) ↔
          walk (.dir d) q = some (.file i)) := by
      intro sub hsub
      cases q with
      | nil => simp
      | cons n below =>
        rw [walk_cons, walk_cons, get_set]
        split
        · rename_i hn
          subst hn
          rw [Option.bind_some, ih]
          -- a directory that was made is empty
          cases hget : d.get n with
          | none =>
            rw [setdefault, hget] at hsub
            cases hsub
            cases below <;> simp
          | some e =>
            rw [setdefault, hget] at hsub
            cases hsub
            simp
        · rfl
    rw [setdefaults]
    split
    · rfl
    · rename_i sub hsub
      exact hmade sub hsub

/-- A file is in the way exactly if it stands at the path or above. -/
theorem setdefaults_hit :
    (d.setdefaults path).2 = some f ↔ ∃ q, q <+: path ∧ walk (.dir d) q = some (.file f) := by
  induction path generalizing d with
  | nil => simp [setdefaults]
  | cons name rest ih =>
    have hbelow : (∃ q, q <+: name :: rest ∧ walk (.dir d) q = some (.file f)) ↔
        ∃ q, q <+: rest ∧ ((d.get name).bind fun e => walk e q) = some (.file f) := by
      constructor
      · rintro ⟨q, hq, hw⟩
        cases q with
        | nil => simp at hw
        | cons n q =>
          obtain ⟨rfl, hbelow⟩ := List.cons_prefix_cons.mp hq
          exact ⟨q, hbelow, by rw [← walk_cons, hw]⟩
      · rintro ⟨q, hq, hw⟩
        exact ⟨name :: q, List.cons_prefix_cons.mpr ⟨rfl, hq⟩, by rw [walk_cons, hw]⟩
    rw [hbelow]
    cases hget : d.get name with
    | none => simp [setdefaults, setdefault, hget, setdefaults_empty]
    | some e =>
      cases e with
      | file i =>
        simp only [setdefaults, setdefault, hget, Option.getD_some, Option.bind_some]
        constructor
        · intro h
          cases h
          exact ⟨[], List.nil_prefix, rfl⟩
        · rintro ⟨q, -, hw⟩
          cases q with
          | nil => simpa using hw
          | cons n q => simp at hw
      | dir sub => simpa [setdefaults, setdefault, hget] using ih

/-- The path is one of directories afterwards. -/
theorem walk_setdefaults_self (h : (d.setdefaults path).2 = none) :
    ∃ sub, walk (.dir (d.setdefaults path).1) path = some (.dir sub) := by
  induction path generalizing d with
  | nil => exact ⟨d, rfl⟩
  | cons name rest ih =>
    rw [setdefaults] at h ⊢
    split at h
    · cases h
    rename_i sub hsub
    rw [walk_cons, get_set, if_pos rfl]
    exact ih h

/-- **Putting a file at a path.**  Its directories are made where they are missing, and what stood
at the path or below it is gone. -/
theorem walk_put (h : (d.setdefaults path).2 = none) :
    walk (.dir ((d.setdefaults path).1.within (·.set name (.file f)) path)) q = some (.file i) ↔
      (q = path ++ [name] ∧ i = f) ∨ (¬ path ++ [name] <+: q ∧ walk (.dir d) q = some (.file i)) := by
  obtain ⟨sub, hsub⟩ := walk_setdefaults_self h
  have hput : walk (.dir ((d.setdefaults path).1.within (·.set name (.file f)) path))
      (path ++ [name]) = some (.file f) := by
    rw [walk_append, walk_within hsub, Option.bind_some, walk_cons, get_set, if_pos rfl]
    rfl
  -- at the new file and below it, and everywhere else
  by_cases hq : path ++ [name] <+: q
  · obtain ⟨more, rfl⟩ := hq
    rw [walk_append, hput, Option.bind_some]
    cases more with
    | nil => simp [eq_comm]
    | cons n more => simp
  · have hother : ∀ (d : Dir N F) n, n ≠ name → (d.set name (.file f)).get n = d.get n := by
      intro d n hn
      rw [get_set, if_neg hn]
    rw [walk_within_of_not hother hq, walk_setdefaults]
    constructor
    · exact fun hw => .inr ⟨hq, hw⟩
    rintro (⟨rfl, -⟩ | ⟨-, hw⟩)
    · exact absurd List.prefix_rfl hq
    · exact hw

end Montygo.DirTree
