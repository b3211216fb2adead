import Montygo.Lib.Transition

/-!
# Threads over a shared state

A program of threads that share a state behind a lock: each thread is a stack of frames, the
frame on top says where it stands, and one step runs one critical section, or one call outside
the lock, from that frame.  A step replaces the frame, changes the shared state and may start
further threads; nothing fixes which thread runs next.

Three rules carry the invariants of such a program.  `step_shared` is about the shared state
alone, `step_frames` about every frame in relation to it, and `ownership` about frames that own
something of which there is only one.
-/

namespace Montygo.Threads

open Transition

variable {σ φ κ τ ω : Type*}

/-- A shared state and the threads, each a stack of frames with the running one on top. -/
structure Config (σ φ : Type*) where
  shared : σ
  stackOf : List (List φ)

/-- What one step of a thread does: the new state, the frames that replace the top one, and the
threads it starts. -/
structure Move (σ φ : Type*) where
  shared : σ
  push : List φ
  spawn : List (List φ) := []

/-- The frames a move brings in. -/
def Move.fresh (m : Move σ φ) : List φ := m.push ++ m.spawn.flatten

/-- What the threads run: where a new one may start, the steps, and what changes the shared
state from outside. -/
structure Program (σ φ κ τ : Type*) where
  entry : φ → Bool
  advance : σ → φ → κ → Option (Move σ φ)
  outside : σ → τ → σ

inductive Action (φ κ τ : Type*) where
  /-- A new thread starts. -/
  | call (f : φ)
  /-- Thread `i` takes a step, which `c` decides where the step alone does not. -/
  | run (i : ℕ) (c : κ)
  | outside (o : τ)

/-- Why a step is not taken. -/
inductive Blocked where
  | noEntry
  | noThread
  | notEnabled
  deriving DecidableEq

variable (p : Program σ φ κ τ)

def Program.step (cfg : Config σ φ) : Action φ κ τ → Except Blocked (Config σ φ)
  | .call f =>
    if p.entry f then .ok { cfg with stackOf := cfg.stackOf ++ [[f]] } else .error .noEntry
  | .run i c =>
    match cfg.stackOf[i]? with
    | some (f :: rest) =>
      match p.advance cfg.shared f c with
      | some m =>
        .ok { shared := m.shared, stackOf := cfg.stackOf.set i (m.push ++ rest) ++ m.spawn }
      | none => .error .notEnabled
    | _ => .error .noThread
  | .outside o => .ok { cfg with shared := p.outside cfg.shared o }

/-- The frames of all threads. -/
def Config.frames (cfg : Config σ φ) : List φ := cfg.stackOf.flatten

variable {p} {cfg cfg' : Config σ φ} {a : Action φ κ τ}

/-- **What a step can do**: start a thread at an entry, run the top frame of one thread, or change
the shared state from outside. -/
theorem step_cases (hstep : p.step cfg a = .ok cfg') :
    (∃ f, a = .call f ∧ p.entry f ∧ cfg' = ⟨cfg.shared, cfg.stackOf ++ [[f]]⟩) ∨
    (∃ c f rest before after m, a = .run before.length c ∧
      cfg.stackOf = before ++ (f :: rest) :: after ∧ p.advance cfg.shared f c = some m ∧
      cfg' = ⟨m.shared, before ++ (m.push ++ rest) :: after ++ m.spawn⟩) ∨
    (∃ o, a = .outside o ∧ cfg' = ⟨p.outside cfg.shared o, cfg.stackOf⟩) := by
  cases a with
  | call f =>
    simp only [Program.step] at hstep
    split at hstep
    · rename_i hentry
      cases hstep
      exact .inl ⟨f, rfl, hentry, rfl⟩
    · cases hstep
  | run i c =>
    simp only [Program.step] at hstep
    split at hstep
    · rename_i f rest hget
      split at hstep
      · rename_i m hm
        cases hstep
        obtain ⟨hi, hget⟩ := List.getElem?_eq_some_iff.mp hget
        have hlength : (cfg.stackOf.take i).length = i := List.length_take_of_le (Nat.le_of_lt hi)
        refine .inr (.inl ⟨c, f, rest, cfg.stackOf.take i, cfg.stackOf.drop (i + 1), m, ?_, ?_, hm,
          ?_⟩)
        · rw [hlength]
        · rw [← hget, ← List.drop_eq_getElem_cons hi, List.take_append_drop]
        · rw [List.set_eq_take_append_cons_drop, if_pos hi]
      · cases hstep
    · cases hstep
  | outside o =>
    cases hstep
    exact .inr (.inr ⟨o, rfl, rfl⟩)

/-- The frame a thread is about to run. -/
def Config.top (cfg : Config σ φ) (i : ℕ) : Option φ := cfg.stackOf[i]?.bind List.head?

/-- A step runs the frame `f` of some thread beside the frames `others`, with the outcome `m`. -/
structure Ran (p : Program σ φ κ τ) (cfg : Config σ φ) (a : Action φ κ τ) (f : φ)
    (others : List φ) (m : Move σ φ) : Prop where
  acts : ∃ i c, a = .run i c ∧ cfg.top i = some f ∧ p.advance cfg.shared f c = some m
  frames : cfg.frames.Perm (f :: others)

variable {others : List φ} {m : Move σ φ}

theorem Ran.mem {f : φ} (h : Ran p cfg a f others m) :
    f ∈ cfg.frames := h.frames.mem_iff.mpr List.mem_cons_self

theorem Ran.mem_others {f g : φ} (h : Ran p cfg a f others m) (hg : g ∈ others) :
    g ∈ cfg.frames := h.frames.mem_iff.mpr (List.mem_cons_of_mem f hg)

theorem Ran.advance {f : φ} (h : Ran p cfg a f others m) :
    ∃ c, p.advance cfg.shared f c = some m := by
  obtain ⟨_, c, -, -, hm⟩ := h.acts
  exact ⟨c, hm⟩

/-- The same without the order of the frames. -/
theorem step_frames_cases (hstep : p.step cfg a = .ok cfg') :
    (∃ f, a = .call f ∧ p.entry f ∧ cfg'.shared = cfg.shared ∧ cfg'.frames = cfg.frames ++ [f]) ∨
    (∃ f others m, Ran p cfg a f others m ∧ cfg'.shared = m.shared ∧
      cfg'.frames.Perm (m.fresh ++ others)) ∨
    (∃ o, a = .outside o ∧ cfg'.shared = p.outside cfg.shared o ∧ cfg'.frames = cfg.frames) := by
  obtain ⟨f, rfl, hentry, rfl⟩ | ⟨c, f, rest, before, after, m, rfl, hstacks, hm, rfl⟩ |
    ⟨o, rfl, rfl⟩ := step_cases hstep
  · exact .inl ⟨f, rfl, hentry, rfl, by simp [Config.frames]⟩
  · have htop : cfg.top before.length = some f := by simp [Config.top, hstacks]
    refine .inr (.inl ⟨f, before.flatten ++ (rest ++ after.flatten), m,
      ⟨⟨_, c, rfl, htop, hm⟩, ?_⟩, rfl, ?_⟩)
    · simp only [Config.frames, hstacks, List.flatten_append, List.flatten_cons, List.cons_append]
      exact List.perm_middle
    · classical
      rw [List.perm_iff_count]
      intro g
      simp only [Config.frames, Move.fresh, List.flatten_append, List.flatten_cons,
        List.count_append]
      omega
  · exact .inr (.inr ⟨o, rfl, rfl, rfl⟩)

/-- One thread under a step: it is left alone, or the step runs its top frame. -/
theorem step_stack (hstep : p.step cfg a = .ok cfg') {j : ℕ} {st : List φ}
    (hj : cfg.stackOf[j]? = some st) :
    cfg'.stackOf[j]? = some st ∨
      ∃ c f rest m, a = .run j c ∧ st = f :: rest ∧ p.advance cfg.shared f c = some m ∧
        cfg'.shared = m.shared ∧ cfg'.stackOf[j]? = some (m.push ++ rest) := by
  obtain ⟨hlt, -⟩ := List.getElem?_eq_some_iff.mp hj
  obtain ⟨f, -, -, rfl⟩ | ⟨c, f, rest, before, after, m, rfl, hstacks, hm, rfl⟩ | ⟨o, -, rfl⟩ :=
    step_cases hstep
  · exact .inl (by rw [List.getElem?_append_left hlt]; exact hj)
  · rw [hstacks] at hj hlt
    have hlt' : j < (before ++ (m.push ++ rest) :: after).length := by simpa using hlt
    simp only [List.getElem?_append_left hlt']
    by_cases heq : j = before.length
    · subst heq
      simp only [List.getElem?_append_right (Nat.le_refl _), Nat.sub_self,
        List.getElem?_cons_zero, Option.some.injEq] at hj
      exact .inr ⟨c, f, rest, m, rfl, hj.symm, hm, rfl, by simp⟩
    · left
      rcases Nat.lt_or_ge j before.length with hbefore | hafter
      · rwa [List.getElem?_append_left hbefore] at hj ⊢
      rw [List.getElem?_append_right hafter] at hj ⊢
      obtain ⟨d, hd⟩ : ∃ d, j - before.length = d + 1 := ⟨j - before.length - 1, by omega⟩
      rwa [hd, List.getElem?_cons_succ] at hj ⊢
  · exact .inl hj

/-! ## The shared state -/

/-- A step keeps what every move and every change from outside keeps. -/
theorem step_shared {P : σ → Prop} (hstep : p.step cfg a = .ok cfg')
    (hmove : ∀ f others m, Ran p cfg a f others m → P m.shared)
    (houtside : ∀ o, P (p.outside cfg.shared o)) (hcfg : P cfg.shared) : P cfg'.shared := by
  obtain ⟨f, -, -, hshared, -⟩ | ⟨f, others, m, hran, hshared, -⟩ | ⟨o, -, hshared, -⟩ :=
    step_frames_cases hstep
  · exact hshared ▸ hcfg
  · exact hshared ▸ hmove f others m hran
  · exact hshared ▸ houtside o

/-! ## Frames -/

/-- A step keeps a relation between the shared state and every frame, when each move keeps it for
the frames that stay and has it for those it brings in. -/
theorem step_frames {Q : σ → φ → Prop} (hstep : p.step cfg a = .ok cfg')
    (hentry : ∀ f, p.entry f → Q cfg.shared f)
    (hmove : ∀ f others m, Ran p cfg a f others m →
      (∀ g ∈ others, Q m.shared g) ∧ ∀ g ∈ m.fresh, Q m.shared g)
    (houtside : ∀ o, ∀ g ∈ cfg.frames, Q (p.outside cfg.shared o) g)
    (hcfg : ∀ g ∈ cfg.frames, Q cfg.shared g) : ∀ g ∈ cfg'.frames, Q cfg'.shared g := by
  obtain ⟨f, -, hf, hshared, hframes⟩ | ⟨f, others, m, hran, hshared, hframes⟩ |
    ⟨o, -, hshared, hframes⟩ := step_frames_cases hstep
  · rw [hshared, hframes]
    intro g hg
    rcases List.mem_append.mp hg with hg | hg
    · exact hcfg g hg
    · exact List.mem_singleton.mp hg ▸ hentry f hf
  · rw [hshared]
    intro g hg
    obtain ⟨hothers, hfresh⟩ := hmove f others m hran
    rcases List.mem_append.mp (hframes.mem_iff.mp hg) with hg | hg
    · exact hfresh g hg
    · exact hothers g hg
  · rw [hshared, hframes]
    exact houtside o

/-- A debt of the shared state that some frame is there to pay stays so: a move that leaves a debt
brings in a frame that pays it, or the debt was there before and the frame that moved was not the
one to pay. -/
theorem step_debt {D : σ → Prop} {pays : φ → Prop} (hstep : p.step cfg a = .ok cfg')
    (hmove : ∀ f others m, Ran p cfg a f others m → D m.shared →
      (∃ g ∈ m.fresh, pays g) ∨ D cfg.shared ∧ ¬ pays f)
    (houtside : ∀ o, D (p.outside cfg.shared o) → D cfg.shared)
    (hcfg : D cfg.shared → ∃ g ∈ cfg.frames, pays g) :
    D cfg'.shared → ∃ g ∈ cfg'.frames, pays g := by
  obtain ⟨f, -, hf, hshared, hframes⟩ | ⟨f, others, m, hran, hshared, hframes⟩ |
    ⟨o, -, hshared, hframes⟩ := step_frames_cases hstep
  · rw [hshared, hframes]
    intro hdebt
    obtain ⟨g, hg, hpays⟩ := hcfg hdebt
    exact ⟨g, List.mem_append_left _ hg, hpays⟩
  · rw [hshared]
    intro hdebt
    rcases hmove f others m hran hdebt with ⟨g, hg, hpays⟩ | ⟨hbefore, hnot⟩
    · exact ⟨g, hframes.mem_iff.mpr (List.mem_append_left _ hg), hpays⟩
    obtain ⟨g, hg, hpays⟩ := hcfg hbefore
    rcases List.mem_cons.mp (hran.frames.mem_iff.mp hg) with rfl | hg
    · exact absurd hpays hnot
    · exact ⟨g, hframes.mem_iff.mpr (List.mem_append_right _ hg), hpays⟩
  · rw [hshared, hframes]
    exact fun hdebt => hcfg (houtside o hdebt)

/-! ## Ownership -/

section Ownership

variable (owner : φ → Option ω) (Holds : σ → ω → Prop)

/-- At most one frame owns anything, and the state agrees that it does. -/
structure OneOwner (cfg : Config σ φ) : Prop where
  single : (cfg.frames.filterMap owner).length ≤ 1
  holds : ∀ g ∈ cfg.frames, ∀ o, owner g = some o → Holds cfg.shared o

/-- What a move may do with ownership: leave it where it is, or bring in at most one owner when
the frame that moved was the owner or nobody was. -/
inductive Passes (s : σ) (f : φ) (m : Move σ φ) : Prop where
  | keeps (hholds : ∀ o, Holds s o → Holds m.shared o)
      (hfresh : m.fresh.filterMap owner = (owner f).toList)
  | passes (hfree : (owner f).isSome ∨ ∀ o, ¬ Holds s o)
      (hsingle : (m.fresh.filterMap owner).length ≤ 1)
      (hholds : ∀ o ∈ m.fresh.filterMap owner, Holds m.shared o)

variable {owner Holds} {f : φ}

/-- Beside an owner no other frame owns anything. -/
theorem OneOwner.alone (hone : OneOwner owner Holds cfg) (hran : Ran p cfg a f others m)
    (hf : (owner f).isSome) : ∀ g ∈ others, owner g = none := by
  intro g hg
  obtain ⟨o, ho⟩ := Option.isSome_iff_exists.mp hf
  have hlength := (hran.frames.filterMap owner).length_eq ▸ hone.single
  rw [List.filterMap_cons_some ho, List.length_cons] at hlength
  have hempty : others.filterMap owner = [] := List.eq_nil_of_length_eq_zero (by omega)
  exact List.filterMap_eq_nil_iff.mp hempty g hg

theorem OneOwner.none_of_free (hone : OneOwner owner Holds cfg)
    (hfree : ∀ o, ¬ Holds cfg.shared o) : ∀ g ∈ cfg.frames, owner g = none := by
  intro g hg
  cases ho : owner g with
  | none => rfl
  | some o => exact absurd (hone.holds g hg o ho) (hfree o)

/-- **One owner at a time**: a step whose move passes ownership keeps a single owner. -/
theorem step_ownership (hstep : p.step cfg a = .ok cfg') (hentry : ∀ f, p.entry f → owner f = none)
    (hmove : ∀ f others m, Ran p cfg a f others m →
      (∀ o, owner f = some o → Holds cfg.shared o) → Passes owner Holds cfg.shared f m)
    (houtside : ∀ o x, Holds cfg.shared o → Holds (p.outside cfg.shared x) o)
    (hone : OneOwner owner Holds cfg) : OneOwner owner Holds cfg' := by
  obtain ⟨f, -, hf, hshared, hframes⟩ | ⟨f, others, m, hran, hshared, hframes⟩ |
    ⟨x, -, hshared, hframes⟩ := step_frames_cases hstep
  · have hnone : owner f = none := hentry f hf
    refine ⟨by simpa [hframes, hnone] using hone.single, ?_⟩
    rw [hshared, hframes]
    intro g hg o ho
    rcases List.mem_append.mp hg with hg | hg
    · exact hone.holds g hg o ho
    · rw [List.mem_singleton.mp hg, hnone] at ho
      cases ho
  · have hperm := hframes.filterMap owner
    rw [List.filterMap_append] at hperm
    have hbefore := hran.frames.filterMap owner
    cases hmove f others m hran (hone.holds f hran.mem) with
    | keeps hholds hfresh =>
      -- The owners are those of before, and each still holds what it owns.
      have hsame : (f :: others).filterMap owner = m.fresh.filterMap owner ++
          others.filterMap owner := by
        rw [hfresh]
        cases ho : owner f <;> simp [ho]
      refine ⟨(hperm.trans (hsame ▸ hbefore.symm)).length_eq ▸ hone.single, ?_⟩
      rw [hshared]
      intro g hg o ho
      have hmem : o ∈ cfg.frames.filterMap owner :=
        hbefore.mem_iff.mpr (hsame ▸ hperm.mem_iff.mp (List.mem_filterMap.mpr ⟨g, hg, ho⟩))
      obtain ⟨g', hg', ho'⟩ := List.mem_filterMap.mp hmem
      exact hholds o (hone.holds g' hg' o ho')
    | passes hfree hsingle hholds =>
      have hothers : others.filterMap owner = [] := by
        refine List.filterMap_eq_nil_iff.mpr fun g hg => ?_
        rcases hfree with hf | hfree
        · exact hone.alone hran hf g hg
        · exact hone.none_of_free hfree g (hran.mem_others hg)
      rw [hothers, List.append_nil] at hperm
      refine ⟨hperm.length_eq ▸ hsingle, ?_⟩
      rw [hshared]
      intro g hg o ho
      exact hholds o (hperm.mem_iff.mp (List.mem_filterMap.mpr ⟨g, hg, ho⟩))
  · refine ⟨hframes ▸ hone.single, ?_⟩
    rw [hshared, hframes]
    intro g hg o ho
    exact houtside o x (hone.holds g hg o ho)

/-- A list of lists with one element in all has it in one of them. -/
theorem pairwise_of_flatten_length {α : Type*} {l : List (List α)} (h : l.flatten.length ≤ 1) :
    l.Pairwise fun x y => x = [] ∨ y = [] := by
  induction l with
  | nil => exact .nil
  | cons x l ih =>
    rw [List.flatten_cons, List.length_append] at h
    refine .cons (fun y hy => ?_) (ih (by omega))
    cases x with
    | nil => exact .inl rfl
    | cons a x =>
      rw [List.length_cons] at h
      have hempty : l.flatten = [] := List.eq_nil_of_length_eq_zero (by omega)
      exact .inr (List.flatten_eq_nil_iff.mp hempty y hy)

/-- Two frames that own something are in the same thread. -/
theorem OneOwner.same_thread (hone : OneOwner owner Holds cfg) {i j : ℕ} {st st' : List φ}
    (hi : cfg.stackOf[i]? = some st) (hj : cfg.stackOf[j]? = some st') {g : φ} (hf : f ∈ st)
    (hg : g ∈ st') (hfo : (owner f).isSome) (hgo : (owner g).isSome) : i = j := by
  have hflat : (cfg.stackOf.map (List.filterMap owner)).flatten.length ≤ 1 := by
    rw [← List.filterMap_flatten]
    exact hone.single
  have hnonempty {st : List φ} {f : φ} (hf : f ∈ st) (hfo : (owner f).isSome) :
      st.filterMap owner ≠ [] := by
    intro hnil
    rw [List.filterMap_eq_nil_iff.mp hnil f hf] at hfo
    cases hfo
  obtain ⟨hi', rfl⟩ := List.getElem?_eq_some_iff.mp hi
  obtain ⟨hj', rfl⟩ := List.getElem?_eq_some_iff.mp hj
  have hpairs := List.pairwise_iff_getElem.mp (pairwise_of_flatten_length hflat)
  rcases Nat.lt_trichotomy i j with hlt | rfl | hlt
  · have := hpairs i j (by simpa using hi') (by simpa using hj') hlt
    simp only [List.getElem_map] at this
    exact (this.elim (hnonempty hf hfo) (hnonempty hg hgo)).elim
  · rfl
  have := hpairs j i (by simpa using hj') (by simpa using hi') hlt
  simp only [List.getElem_map] at this
  exact (this.elim (hnonempty hg hgo) (hnonempty hf hfo)).elim

/-- In a stack, every frame that works for an owner has it further down. -/
def Grounded (owner works : φ → Option ω) : List φ → Prop
  | [] => True
  | f :: rest => (∀ o, works f = some o → ∃ g ∈ rest, owner g = some o) ∧
      Grounded owner works rest

variable {works : φ → Option ω}

theorem Grounded.exists_owner {st : List φ} (h : Grounded owner works st) {o : ω} (hf : f ∈ st)
    (ho : works f = some o) : ∃ g ∈ st, owner g = some o := by
  induction st with
  | nil => cases hf
  | cons g st ih =>
    rcases List.mem_cons.mp hf with rfl | hf
    · obtain ⟨g, hg, hgo⟩ := h.1 o ho
      exact ⟨g, List.mem_cons_of_mem _ hg, hgo⟩
    · obtain ⟨g', hg', hgo⟩ := ih h.2 hf
      exact ⟨g', List.mem_cons_of_mem _ hg', hgo⟩

/-- The top frame may give way to frames that work for nobody, or for whom it worked. -/
theorem Grounded.replace {push rest : List φ} (h : Grounded owner works (f :: rest))
    (hpush : ∀ g ∈ push, works g = none ∨ works g = works f) :
    Grounded owner works (push ++ rest) := by
  induction push with
  | nil => exact h.2
  | cons g push ih =>
    refine ⟨fun o ho => ?_, ih fun g' hg' => hpush g' (List.mem_cons_of_mem g hg')⟩
    rcases hpush g List.mem_cons_self with hg | hg
    · rw [hg] at ho
      cases ho
    · obtain ⟨g', hg', hgo⟩ := h.1 o (hg ▸ ho)
      exact ⟨g', List.mem_append_right _ hg', hgo⟩

theorem step_grounded (hstep : p.step cfg a = .ok cfg') (hentry : ∀ f, p.entry f → works f = none)
    (hmove : ∀ f c m rest, p.advance cfg.shared f c = some m →
      Grounded owner works (f :: rest) → Grounded owner works (m.push ++ rest))
    (hspawn : ∀ f c m, p.advance cfg.shared f c = some m → ∀ st ∈ m.spawn, Grounded owner works st)
    (hcfg : ∀ st ∈ cfg.stackOf, Grounded owner works st) :
    ∀ st ∈ cfg'.stackOf, Grounded owner works st := by
  obtain ⟨f, -, hf, rfl⟩ | ⟨c, f, rest, before, after, m, -, hstacks, hm, rfl⟩ | ⟨o, -, rfl⟩ :=
    step_cases hstep
  · intro st hst
    rcases List.mem_append.mp hst with hst | hst
    · exact hcfg st hst
    · rw [List.mem_singleton.mp hst]
      exact ⟨fun o ho => by simp [hentry f hf] at ho, trivial⟩
  · intro st hst
    rcases List.mem_append.mp hst with hst | hst
    · rcases List.mem_append.mp hst with hst | hst
      · exact hcfg st (by simp [hstacks, hst])
      rcases List.mem_cons.mp hst with rfl | hst
      · exact hmove f c m rest hm (hcfg _ (by simp [hstacks]))
      · exact hcfg st (by simp [hstacks, hst])
    · exact hspawn f c m hm st hst
  · exact hcfg

end Ownership

end Montygo.Threads
