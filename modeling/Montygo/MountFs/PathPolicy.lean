import Montygo.MountFs.Error
import Montygo.Value.VirtualPath
import Montygo.Lib.Outcome

/-!
# From virtual paths to mount-relative keys

`resolveVirtualPath` turns the path of a call into the mount-relative key under
which the overlay and the host directory know it.  The key is the spelling of a
list of ordinary names: this list is the path the key stands for, and the root is
the empty list.
-/

namespace Montygo.MountFs

open Go Value Outcome

/-- `dirOp`: the mount root is spelled `.` for the host directory. -/
def dirOp (rel : GoString) : GoString := if rel = [] then lit "." else rel

def stripMountPrefix (normalized mountVirtual : GoString) : Option GoString :=
  if mountVirtual = lit "/" then some (trimPrefix normalized (lit "/"))
  else if normalized = mountVirtual then some []
  else
    match cutPrefix normalized mountVirtual with
    | none => none
    | some rest => cutPrefix rest (lit "/")

def isWindowsDrivePrefix : GoString → Bool
  | c :: 58 :: _ => (97 ≤ c && c ≤ 122) || (65 ≤ c && c ≤ 90)
  | _ => false

/-- `rejectDriveOrUNCSegments`; 92 is the backslash. -/
def rejectDriveOrUNCSegments (rel normalized : GoString) : Except MountError Unit :=
  if 92 ∈ rel then .error (.pathEscape normalized)
  else if (split rel).any isWindowsDrivePrefix then .error (.pathEscape normalized)
  else .ok ()

def containsNullByte (path : GoString) : Bool := decide (0 ∈ path)

def rejectNullBytes (path : GoString) : Except MountError Unit :=
  if containsNullByte path then .error (.value (lit "embedded null byte")) else .ok ()

def resolveVirtualPath (vpath mountVirtual : GoString) : Except MountError GoString := do
  rejectNullBytes vpath
  let normalized := normalizeVirtualPath vpath
  match stripMountPrefix normalized mountVirtual with
  | none => .error (.noMountPoint vpath)
  | some rel => do
    rejectDriveOrUNCSegments rel normalized
    pure rel

def formatChildPath (parent child : GoString) : GoString :=
  if hasSuffix parent (lit "/") then parent ++ child else parent ++ lit "/" ++ child

/-! ## Keys and paths -/

/-- A path below the mount root, name by name. -/
abbrev Path := List GoString

/-- The mount-relative key of a path. -/
abbrev key (p : Path) : GoString := joinSlash p

variable {p q : Path}

theorem key_inj (hp : OrdinaryPath p) (hq : OrdinaryPath q) : key p = key q ↔ p = q :=
  Segments.join_inj hp.proper hq.proper

@[simp] theorem key_nil : key [] = [] := Segments.join_nil

@[simp] theorem key_singleton (name : GoString) : key [name] = name := Segments.join_singleton name

theorem key_append (hp : p ≠ []) (hq : q ≠ []) : key (p ++ q) = key p ++ slash :: key q :=
  Segments.join_append hp hq

theorem key_eq_nil (hp : OrdinaryPath p) : key p = [] ↔ p = [] := by
  have hroot : OrdinaryPath [] := by simp [OrdinaryPath]
  rw [← key_inj hp hroot, key_nil]

theorem key_append_eq (hp : p ≠ []) (hq : q ≠ []) : key (p ++ q) = key p ++ [slash] ++ key q := by
  rw [key_append hp hq]
  simp

theorem drop_key (hp : p ≠ []) (hq : q ≠ []) :
    (key (p ++ q)).drop ((key p).length + 1) = key q := by
  rw [key_append_eq hp hq]
  exact List.drop_left' (by simp)

private theorem cutPrefix_eq_some {s p t : GoString} (h : cutPrefix s p = some t) : s = p ++ t := by
  unfold cutPrefix at h
  split at h
  · rename_i hpre
    obtain ⟨rest, rfl⟩ := List.isPrefixOf_iff_prefix.mp hpre
    simpa using h
  · cases h

theorem stripMountPrefix_eq_some {mount : Path} (hp : OrdinaryPath p) (hmount : OrdinaryPath mount)
    {rel : GoString} (h : stripMountPrefix (absolute p) (absolute mount) = some rel) :
    ∃ q, p = mount ++ q ∧ rel = key q := by
  unfold stripMountPrefix at h
  split at h
  · rename_i hroot
    have hmount : mount = [] := by
      have : key mount = [] := by simpa [absolute, lit] using List.tail_eq_of_cons_eq hroot
      exact (key_eq_nil hmount).mp this
    subst hmount
    refine ⟨p, rfl, ?_⟩
    rw [← Option.some.inj h, lit_slash]
    simp [trimPrefix, cutPrefix, hasPrefix, absolute]
  · rename_i hroot
    split at h
    · rename_i heq
      refine ⟨[], ?_, by simpa using h.symm⟩
      have : key p = key mount := List.tail_eq_of_cons_eq heq
      simpa using (key_inj hp hmount).mp this
    · split at h
      · cases h
      rename_i rest hrest
      have hsplit := cutPrefix_eq_some hrest
      rw [cutPrefix_eq_some h] at hsplit
      have hne : mount ≠ [] := by
        rintro rfl
        exact hroot rfl
      have htail : key p = key mount ++ slash :: rel := List.tail_eq_of_cons_eq hsplit
      have hpre : key mount ++ [slash] <+: key p := ⟨rel, by rw [htail]; simp⟩
      obtain ⟨q, hq, rfl⟩ := (Segments.join_sep_prefix_iff hmount.proper hp.proper hne).mp hpre
      refine ⟨q, rfl, ?_⟩
      rw [key_append hne hq] at htail
      have := List.append_cancel_left htail
      exact (List.tail_eq_of_cons_eq this).symm

/-- **A resolved path is the key of ordinary names.** -/
theorem resolveVirtualPath_eq_ok {vpath rel : GoString} {mount : Path} (hmount : OrdinaryPath mount)
    (h : resolveVirtualPath vpath (absolute mount) = .ok rel) :
    ∃ p, OrdinaryPath p ∧ rel = key p := by
  simp only [resolveVirtualPath, bind_eq_ok] at h
  obtain ⟨-, -, h⟩ := h
  obtain ⟨full, hfull, hnormal⟩ := exists_normalizeVirtualPath vpath
  split at h
  · cases h
  rename_i stripped hstrip
  simp only [bind_eq_ok, pure_eq_ok] at h
  obtain ⟨-, -, rfl⟩ := h
  rw [hnormal] at hstrip
  obtain ⟨q, rfl, hq⟩ := stripMountPrefix_eq_some hfull hmount hstrip
  exact ⟨q, (ordinaryPath_append.mp hfull).2, hq⟩

end Montygo.MountFs
