import Montygo.Go.Strings

/-!
# Virtual paths

`NormalizeVirtualPath` drops empty and `.` segments and resolves `..` without
climbing above the root.  The result is always the spelling of a list of
ordinary names, and this list is what the rest of the model calls a path.
-/

namespace Montygo.Value

open Go

/-- `isNormalizedVirtualPath`: the fast path of the normalization. -/
def isNormalizedVirtualPath (path : GoString) : Bool :=
  if path = lit "/" then true
  else if !hasPrefix path (lit "/") || hasSuffix path (lit "/") then false
  else (split (path.drop 1)).all fun seg => seg ≠ [] ∧ seg ≠ lit "." ∧ seg ≠ lit ".."

/-- The loop body of `NormalizeVirtualPath`: one segment is added to `out`. -/
def normalizeSegment (out seg : GoString) : GoString :=
  if seg = [] ∨ seg = lit "." then out
  else if seg = lit ".." then out.take ((lastIndexByte out slash).getD 0)
  else out ++ slash :: seg

/-- The loop of `NormalizeVirtualPath`, without the fast path. -/
def normalizeLoop (path : GoString) : GoString :=
  let out := (split path).foldl normalizeSegment []
  if out.length = 0 then lit "/" else out

def normalizeVirtualPath (path : GoString) : GoString :=
  if isNormalizedVirtualPath path then path else normalizeLoop path

/-! ## What normalization gives -/

/-- A name that can stand in a normalized path. -/
structure Ordinary (name : GoString) : Prop where
  ne_nil : name ≠ []
  no_slash : slash ∉ name
  ne_dot : name ≠ lit "."
  ne_dotdot : name ≠ lit ".."

/-- A list of ordinary names. -/
def OrdinaryPath (p : List GoString) : Prop := ∀ name ∈ p, Ordinary name

variable {p : List GoString}

theorem OrdinaryPath.proper (hp : OrdinaryPath p) : Segments.Proper slash p :=
  fun name hname => ⟨(hp name hname).ne_nil, (hp name hname).no_slash⟩

theorem ordinaryPath_append {q : List GoString} :
    OrdinaryPath (p ++ q) ↔ OrdinaryPath p ∧ OrdinaryPath q := by
  simp only [OrdinaryPath, List.forall_mem_append]

theorem OrdinaryPath.tail {name : GoString} (hp : OrdinaryPath (name :: p)) : OrdinaryPath p :=
  fun x hx => hp x (List.mem_cons_of_mem name hx)

theorem OrdinaryPath.split {name : GoString} {rest : List GoString}
    (hp : OrdinaryPath (p ++ name :: rest)) :
    OrdinaryPath p ∧ Ordinary name ∧ OrdinaryPath (p ++ [name] ++ rest) :=
  ⟨(ordinaryPath_append.mp hp).1, hp name (by simp), by simpa using hp⟩

/-- The absolute spelling of a path. -/
def absolute (p : List GoString) : GoString := slash :: joinSlash p

/-- What `NormalizeVirtualPath` has built once it read the names of `p`. -/
private def built (p : List GoString) : GoString := p.flatMap (slash :: ·)

private theorem built_append_singleton (p : List GoString) (name : GoString) :
    built (p ++ [name]) = built p ++ slash :: name := by
  simp [built]

private theorem built_eq_absolute (hp : p ≠ []) : built p = absolute p := by
  induction p with
  | nil => exact absurd rfl hp
  | cons name rest ih =>
    rcases eq_or_ne rest [] with rfl | hrest
    · simp [built, absolute]
    have hcons : built (name :: rest) = slash :: (name ++ built rest) := by simp [built]
    rw [hcons, ih hrest, absolute, absolute, joinSlash, joinSlash, Segments.join_cons name hrest]

/-- One segment on a stack of names: empty ones and `.` are skipped, and `..` takes the last name
away, if there is one. -/
def stackSegment (stack : List GoString) (seg : GoString) : List GoString :=
  if seg = [] ∨ seg = lit "." then stack
  else if seg = lit ".." then stack.dropLast
  else stack ++ [seg]

/-- The names that the segments of a path leave on the stack. -/
def stackNames (path : GoString) : List GoString := (split path).foldl stackSegment []

theorem stackSegment_ordinary (hp : OrdinaryPath p) {seg : GoString} (hseg : slash ∉ seg) :
    OrdinaryPath (stackSegment p seg) := by
  unfold stackSegment
  split
  · exact hp
  rename_i hplain
  rw [not_or] at hplain
  split
  · exact fun name hname => hp name (List.mem_of_mem_dropLast hname)
  rename_i hdotdot
  refine ordinaryPath_append.mpr ⟨hp, ?_⟩
  simpa [OrdinaryPath] using (⟨hplain.1, hseg, hplain.2, hdotdot⟩ : Ordinary seg)

private theorem normalizeSegment_built (hp : OrdinaryPath p) (seg : GoString) :
    normalizeSegment (built p) seg = built (stackSegment p seg) := by
  unfold normalizeSegment stackSegment
  split
  · rfl
  split
  · rcases List.eq_nil_or_concat p with rfl | ⟨q, name, rfl⟩
    · rfl
    rw [List.concat_eq_append] at hp ⊢
    obtain ⟨hq, hname⟩ := ordinaryPath_append.mp hp
    rw [built_append_singleton, List.dropLast_concat,
      lastIndexByte_append (hname name (by simp)).no_slash, Option.getD_some, List.take_left]
  · rw [built_append_singleton]

private theorem foldl_normalizeSegment (segs : List GoString) (hsegs : ∀ seg ∈ segs, slash ∉ seg) :
    ∀ p, OrdinaryPath p → OrdinaryPath (segs.foldl stackSegment p) ∧
        segs.foldl normalizeSegment (built p) = built (segs.foldl stackSegment p) := by
  induction segs with
  | nil =>
    intro p hp
    exact ⟨hp, rfl⟩
  | cons seg rest ih =>
    intro p hp
    rw [List.foldl_cons, List.foldl_cons, normalizeSegment_built hp]
    exact ih (fun s hs => hsegs s (List.mem_cons_of_mem seg hs)) _
      (stackSegment_ordinary hp (hsegs seg List.mem_cons_self))

theorem stackNames_ordinary (path : GoString) : OrdinaryPath (stackNames path) :=
  (foldl_normalizeSegment (split path) (Segments.not_mem_of_mem_splitOn path) []
    (by simp [OrdinaryPath])).1

theorem normalizeLoop_eq (path : GoString) : normalizeLoop path = absolute (stackNames path) := by
  have hfold : (split path).foldl normalizeSegment [] = built (stackNames path) :=
    (foldl_normalizeSegment (split path) (Segments.not_mem_of_mem_splitOn path) []
      (by simp [OrdinaryPath])).2
  simp only [normalizeLoop, hfold]
  rcases eq_or_ne (stackNames path) [] with hnil | hne
  · rw [hnil]
    rfl
  · rw [built_eq_absolute hne]
    simp [absolute]

theorem foldl_stackSegment_ordinary (hp : OrdinaryPath p) (q : List GoString) :
    p.foldl stackSegment q = q ++ p := by
  induction p generalizing q with
  | nil => simp
  | cons name rest ih =>
    have hname := hp name List.mem_cons_self
    have hpush : stackSegment q name = q ++ [name] := by
      simp [stackSegment, hname.ne_nil, hname.ne_dot, hname.ne_dotdot]
    rw [List.foldl_cons, hpush, ih fun other hother => hp other (List.mem_cons_of_mem name hother)]
    simp

theorem stackNames_absolute (hp : OrdinaryPath p) : stackNames (absolute p) = p := by
  have hsplit : split (absolute p) = [] :: split (joinSlash p) := by
    simp [split, absolute, List.splitOn_cons_eq_if_modifyHead]
  rw [stackNames, hsplit]
  rcases eq_or_ne p [] with rfl | hne
  · rfl
  · rw [joinSlash, split, Segments.splitOn_join hp.proper hne]
    exact foldl_stackSegment_ordinary hp []

private theorem exists_of_isNormalized {path : GoString} (h : isNormalizedVirtualPath path = true) :
    ∃ p, OrdinaryPath p ∧ path = absolute p := by
  unfold isNormalizedVirtualPath at h
  split at h
  · rename_i hroot
    exact ⟨[], by simp [OrdinaryPath], hroot⟩
  · split at h
    · cases h
    rename_i hends
    simp only [Bool.or_eq_true, Bool.not_eq_true', not_or, Bool.not_eq_false,
      Bool.not_eq_true] at hends
    obtain ⟨t, rfl⟩ := List.isPrefixOf_iff_prefix.mp hends.1
    refine ⟨split t, ?_, ?_⟩
    · intro name hname
      have hplain := (List.all_eq_true.mp h) name hname
      simp only [ne_eq, decide_eq_true_eq] at hplain
      exact ⟨hplain.1, Segments.not_mem_of_mem_splitOn t name hname, hplain.2.1, hplain.2.2⟩
    · rw [absolute, joinSlash, split, Segments.join, List.intercalate_splitOn]
      rfl

theorem normalizeLoop_of_isNormalized {path : GoString} (h : isNormalizedVirtualPath path = true) :
    normalizeLoop path = path := by
  obtain ⟨p, hp, rfl⟩ := exists_of_isNormalized h
  rw [normalizeLoop_eq, stackNames_absolute hp]

theorem normalizeVirtualPath_eq_absolute (path : GoString) :
    normalizeVirtualPath path = absolute (stackNames path) := by
  rw [normalizeVirtualPath, ← normalizeLoop_eq]
  split
  · rename_i hnormal
    exact (normalizeLoop_of_isNormalized hnormal).symm
  · rfl

theorem exists_normalizeVirtualPath (path : GoString) :
    ∃ p, OrdinaryPath p ∧ normalizeVirtualPath path = absolute p :=
  ⟨stackNames path, stackNames_ordinary path, normalizeVirtualPath_eq_absolute path⟩

/-- **Normalization is the fold over a stack**: the result spells the names that the segments
leave on a stack; the fast path accepts only paths that the loop does not change; and a second
normalization changes nothing. -/
theorem normalizeVirtualPath_stack (path : GoString) :
    normalizeVirtualPath path = absolute (stackNames path) ∧
      (isNormalizedVirtualPath path = true → normalizeLoop path = path) ∧
      normalizeVirtualPath (normalizeVirtualPath path) = normalizeVirtualPath path := by
  refine ⟨normalizeVirtualPath_eq_absolute path, normalizeLoop_of_isNormalized, ?_⟩
  rw [normalizeVirtualPath_eq_absolute (normalizeVirtualPath path),
    normalizeVirtualPath_eq_absolute path, stackNames_absolute (stackNames_ordinary path)]

example : normalizeVirtualPath (lit "a/../../b//./c") = lit "/b/c" := by decide

end Montygo.Value
