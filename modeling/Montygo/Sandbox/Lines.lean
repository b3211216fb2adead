import Montygo.Lib.Transition
import Mathlib.Data.List.Induction
import Mathlib.Logic.Function.Basic

/-!
# Printing line by line

A `Lines` target cuts what is printed into lines, for each stream on its own, and keeps what follows
the last newline until more is printed or the turn ends.  The lines do not depend on how the text
was cut into chunks (`lines_of_chunks`).

A feed wraps the target, and stops printing when the callback fails.  What the target kept is then
neither delivered nor dropped: the next feed that has the same target goes on with it
(`failed_line_left_behind`).  So it does where a snapshot chain is aborted at a suspension, since
`advance` returns there without `finish`.

The bytes are of an arbitrary type in which some are newlines, so that they can be marked with the
feed that printed them.
-/

namespace Montygo.Sandbox

open Transition

inductive Stream where
  | stdout
  | stderr
  deriving DecidableEq

variable {β : Type}

/-- `lineTarget`, with the lines that its callback was called with. -/
structure LineTarget (β : Type) where
  rest : Stream → List β := fun _ => []
  delivered : List (Stream × List β) := []

/-- The callback, which may look at what it was given before: whether it fails. -/
abbrev Callback (β : Type) := List (Stream × List β) → Stream → List β → Bool

namespace LineTarget

variable (newline : β → Bool) (fn : Callback β)

/-- Keeps what follows the last line of a stream. -/
def keep (t : LineTarget β) (stream : Stream) (buf : List β) : LineTarget β :=
  { t with rest := Function.update t.rest stream buf }

/-- Calls the callback. -/
def deliver (t : LineTarget β) (stream : Stream) (line : List β) : Bool × LineTarget β :=
  (fn t.delivered stream line, { t with delivered := t.delivered ++ [(stream, line)] })

/-- The loop of `Print`, where `line` is what was passed on the way to the next newline. -/
def printLoop (stream : Stream) : List β → List β → LineTarget β → Bool × LineTarget β
  | line, [], t => (false, t.keep stream line)
  | line, b :: buf, t =>
    if newline b then
      match t.deliver fn stream line with
      | (true, t) => (true, t.keep stream buf)
      | (false, t) => printLoop stream [] buf t
    else printLoop stream (line ++ [b]) buf t

/-- `Print`. -/
def print (t : LineTarget β) (stream : Stream) (text : List β) : Bool × LineTarget β :=
  printLoop newline fn stream [] (t.rest stream ++ text) t

/-- `Flush`, of one stream. -/
def flushStream (t : LineTarget β) (stream : Stream) : Bool × LineTarget β :=
  match t.rest stream with
  | [] => (false, t)
  | rest => (t.keep stream []).deliver fn stream rest

/-- `Flush`. -/
def flush (t : LineTarget β) : Bool × LineTarget β :=
  match t.flushStream fn .stdout with
  | (true, t) => (true, t)
  | (false, t) => t.flushStream fn .stderr

/-- The lines delivered for a stream. -/
def lines (t : LineTarget β) (stream : Stream) : List (List β) :=
  (t.delivered.filter (·.1 = stream)).map Prod.snd

/-! ## The lines of a text -/

/-- The pieces between the newlines. -/
def pieces : List β → List (List β)
  | [] => [[]]
  | b :: text =>
    if newline b then [] :: pieces text
    else
      match pieces text with
      | [] => [[b]]
      | piece :: rest => (b :: piece) :: rest

/-- The pieces, without a last one that is empty. -/
def linesOf (text : List β) : List (List β) :=
  match (pieces newline text).getLast? with
  | some [] => (pieces newline text).dropLast
  | _ => pieces newline text

/-- What was printed on a stream. -/
def printed (chunks : List (Stream × List β)) (stream : Stream) : List β :=
  ((chunks.filter (·.1 = stream)).map Prod.snd).flatten

/-- Some lines, each with its newline, and what follows them. -/
inductive Cut : List β → List (List β) → List β → Prop where
  | rest {text : List β} (h : ∀ b ∈ text, newline b = false) : Cut text [] text
  | line {line text rest : List β} {lines : List (List β)} {b : β}
      (h : ∀ b ∈ line, newline b = false) (hb : newline b = true) (hrest : Cut text lines rest) :
      Cut (line ++ b :: text) (line :: lines) rest

variable {newline} {fn} {t t' : LineTarget β} {stream : Stream} {text rest : List β}
  {found : List (List β)}

theorem pieces_append {line : List β} (h : ∀ b ∈ line, newline b = false) {b : β}
    (hb : newline b = true) :
    pieces newline (line ++ b :: text) = line :: pieces newline text := by
  induction line with
  | nil => rw [List.nil_append, pieces, if_pos hb]
  | cons c line ih =>
    rw [List.cons_append, pieces, if_neg (by simp [h c List.mem_cons_self]),
      ih fun b hb => h b (List.mem_cons_of_mem c hb)]

theorem pieces_of_no_newline (h : ∀ b ∈ text, newline b = false) :
    pieces newline text = [text] := by
  induction text with
  | nil => rfl
  | cons c text ih =>
    rw [pieces, if_neg (by simp [h c List.mem_cons_self]),
      ih fun b hb => h b (List.mem_cons_of_mem c hb)]

theorem Cut.pieces_eq (h : Cut newline text found rest) :
    pieces newline text = found ++ [rest] := by
  induction h with
  | rest h => exact pieces_of_no_newline h
  | line h hb _ ih => rw [pieces_append h hb, ih, List.cons_append]

theorem Cut.append {more : List (List β)} {last extra : List β} (h : Cut newline text found rest)
    (hmore : Cut newline (rest ++ extra) more last) :
    Cut newline (text ++ extra) (found ++ more) last := by
  induction h with
  | rest _ => exact hmore
  | line hline hb _ ih =>
    rw [List.append_assoc, List.cons_append]
    exact .line hline hb (ih hmore)

theorem Cut.linesOf_eq (h : Cut newline text found rest) :
    linesOf newline text = found ++ if rest = [] then [] else [rest] := by
  rw [linesOf, h.pieces_eq, List.getLast?_concat, List.dropLast_concat]
  cases rest with
  | nil => exact (List.append_nil found).symm
  | cons b rest => rfl

/-! ## A callback that never fails -/

/-- A callback that never fails. -/
def accepts : Callback β := fun _ _ _ => false

theorem lines_deliver (t : LineTarget β) (stream stream' : Stream) (line : List β) :
    ({ t with delivered := t.delivered ++ [(stream', line)] } : LineTarget β).lines stream =
      t.lines stream ++ if stream' = stream then [line] else [] := by
  by_cases hstream : stream' = stream
  all_goals simp [lines, hstream]

theorem printLoop_cut (t : LineTarget β) (stream : Stream) (line buf : List β)
    (h : ∀ b ∈ line, newline b = false) : ∃ found rest, Cut newline (line ++ buf) found rest ∧
      (printLoop newline accepts stream line buf t).2.rest = Function.update t.rest stream rest ∧
      (printLoop newline accepts stream line buf t).2.lines stream = t.lines stream ++ found ∧
      ∀ other ≠ stream, (printLoop newline accepts stream line buf t).2.lines other =
        t.lines other := by
  -- on what is still to be looked at; `line` has no newline and is what is kept if none follows
  induction buf generalizing line t with
  | nil =>
    refine ⟨[], line, ?_, rfl, (List.append_nil _).symm, fun _ _ => rfl⟩
    rw [List.append_nil]
    exact .rest h
  | cons b buf ih =>
    rw [printLoop]
    by_cases hb : newline b = true
    · rw [if_pos hb]
      obtain ⟨found, rest, hcut, hrest, hlines, hother⟩ :=
        ih (t.deliver accepts stream line).2 [] (by simp)
      refine ⟨line :: found, rest, .line h hb hcut, hrest, ?_, fun other hne => ?_⟩
      · refine hlines.trans ?_
        rw [deliver, lines_deliver, if_pos rfl, List.append_assoc, List.singleton_append]
      · refine (hother other hne).trans ?_
        rw [deliver, lines_deliver, if_neg (Ne.symm hne), List.append_nil]
    · rw [if_neg hb]
      have hline : ∀ c ∈ line ++ [b], newline c = false := by
        intro c hc
        rcases List.mem_append.mp hc with hc | hc
        · exact h c hc
        · rw [List.mem_singleton.mp hc]
          simpa using hb
      obtain ⟨found, rest, hcut, hafter⟩ := ih t (line ++ [b]) hline
      rw [List.append_assoc, List.singleton_append] at hcut
      exact ⟨found, rest, hcut, hafter⟩

/-- Prints chunks, with a callback that never fails. -/
def printAll (newline : β → Bool) (t : LineTarget β) (chunks : List (Stream × List β)) :
    LineTarget β :=
  chunks.foldl (fun t chunk => (t.print newline accepts chunk.1 chunk.2).2) t

theorem printAll_cut (chunks : List (Stream × List β)) (stream : Stream) :
    Cut newline (printed chunks stream) ((printAll newline {} chunks).lines stream)
      ((printAll newline {} chunks).rest stream) := by
  -- on the last chunk, whose text is printed after what the ones before it left
  induction chunks using List.reverseRecOn with
  | nil => exact .rest (by simp [printed])
  | append_singleton chunks chunk ih =>
    obtain ⟨other, text⟩ := chunk
    obtain ⟨found, rest, hcut, hrest, hlines, hothers⟩ :=
      printLoop_cut (printAll newline {} chunks) other []
        ((printAll newline {} chunks).rest other ++ text) (by simp)
    have hstep : printAll newline {} (chunks ++ [(other, text)]) =
        ((printAll newline {} chunks).print newline accepts other text).2 := by
      simp [printAll]
    rw [hstep, print, hrest]
    by_cases hother : other = stream
    · subst hother
      rw [hlines, Function.update_self]
      have htext : printed (chunks ++ [(other, text)]) other = printed chunks other ++ text := by
        simp [printed]
      rw [htext]
      exact ih.append hcut
    · rw [hothers stream (Ne.symm hother), Function.update_of_ne (Ne.symm hother)]
      have htext : printed (chunks ++ [(other, text)]) stream = printed chunks stream := by
        simp [printed, hother]
      rw [htext]
      exact ih

theorem lines_flushStream (t : LineTarget β) (stream stream' : Stream) :
    (t.flushStream accepts stream').1 = false ∧ (t.flushStream accepts stream').2.lines stream =
        (t.lines stream ++ if stream' = stream ∧ t.rest stream ≠ [] then [t.rest stream] else []) ∧
      (stream' ≠ stream → (t.flushStream accepts stream').2.rest stream = t.rest stream) := by
  unfold flushStream
  split
  · rename_i hrest
    refine ⟨rfl, ?_, fun _ => rfl⟩
    rw [if_neg (by rintro ⟨rfl, hne⟩; exact hne hrest), List.append_nil]
  · rename_i hrest
    refine ⟨rfl, ?_, fun hne => ?_⟩
    · rw [deliver, lines_deliver]
      by_cases hstream : stream' = stream
      · subst hstream
        rw [if_pos rfl, if_pos ⟨rfl, hrest⟩]
        rfl
      · rw [if_neg hstream, if_neg fun h => hstream h.1]
        rfl
    · exact Function.update_of_ne (Ne.symm hne) _ _

/-- **The lines do not depend on the chunks.** With a callback that never fails, the lines that
prints and a flush deliver for a stream are the lines of everything printed on it. -/
theorem lines_of_chunks (newline : β → Bool) (chunks : List (Stream × List β)) (stream : Stream) :
    ((printAll newline {} chunks).flush accepts).2.lines stream =
      linesOf newline (printed chunks stream) := by
  rw [(printAll_cut chunks stream).linesOf_eq]
  generalize printAll newline {} chunks = t
  obtain ⟨hok, hlines, hrest⟩ := t.lines_flushStream stream .stdout
  obtain ⟨-, hlines', -⟩ := (t.flushStream accepts .stdout).2.lines_flushStream stream .stderr
  have hflush : t.flush accepts = ((t.flushStream accepts .stdout).2.flushStream accepts .stderr) := by
    unfold flush
    split
    · rename_i h
      rw [h] at hok
      cases hok
    · rename_i h
      rw [h]
  rw [hflush, hlines', hlines]
  cases stream with
  | stdout => simp
  | stderr => simp [hrest]

/-! ## Where the bytes come from -/

variable (P : β → Prop)

/-- What the target keeps and what it delivered after `base` has only bytes of a kind. -/
structure Only (base : List (Stream × List β)) (t : LineTarget β) : Prop where
  rest : ∀ stream, ∀ b ∈ t.rest stream, P b
  delivered : ∃ extra, t.delivered = base ++ extra ∧ ∀ line ∈ extra, ∀ b ∈ line.2, P b

variable {P} {base : List (Stream × List β)}

theorem keep_rest (t : LineTarget β) (stream : Stream) (buf : List β) :
    (t.keep stream buf).rest = Function.update t.rest stream buf :=
  rfl

theorem Only.keep {buf : List β} (h : Only P base t) (hbuf : ∀ b ∈ buf, P b) :
    Only P base (t.keep stream buf) := by
  refine ⟨fun other => ?_, h.delivered⟩
  by_cases hother : other = stream
  · rw [hother, keep_rest, Function.update_self]
    exact hbuf
  · rw [keep_rest, Function.update_of_ne hother]
    exact h.rest other

theorem Only.deliver {line : List β} (h : Only P base t) (hline : ∀ b ∈ line, P b) :
    Only P base (t.deliver fn stream line).2 := by
  obtain ⟨extra, hextra, hall⟩ := h.delivered
  refine ⟨h.rest, extra ++ [(stream, line)], ?_, fun entry hentry => ?_⟩
  · rw [LineTarget.deliver, hextra, List.append_assoc]
  rcases List.mem_append.mp hentry with hentry | hentry
  · exact hall entry hentry
  · rw [List.mem_singleton.mp hentry]
    exact hline

theorem Only.printLoop {line buf : List β} (h : Only P base t) (hline : ∀ b ∈ line, P b)
    (hbuf : ∀ b ∈ buf, P b) : Only P base (printLoop newline fn stream line buf t).2 := by
  induction buf generalizing line t with
  | nil => exact h.keep hline
  | cons b buf ih =>
    have hrest : ∀ c ∈ buf, P c := fun c hc => hbuf c (List.mem_cons_of_mem b hc)
    rw [LineTarget.printLoop]
    split
    · have hafter : Only P base (t.deliver fn stream line).2 := h.deliver hline
      split
      · rename_i t' heq
        rw [heq] at hafter
        exact hafter.keep hrest
      · rename_i t' heq
        rw [heq] at hafter
        exact ih hafter (by simp) hrest
    · refine ih h (fun c hc => ?_) hrest
      rcases List.mem_append.mp hc with hc | hc
      · exact hline c hc
      · rw [List.mem_singleton.mp hc]
        exact hbuf b List.mem_cons_self

theorem Only.print (h : Only P base t) (htext : ∀ b ∈ text, P b) :
    Only P base (t.print newline fn stream text).2 := by
  refine h.printLoop (by simp) fun b hb => ?_
  rcases List.mem_append.mp hb with hb | hb
  · exact h.rest stream b hb
  · exact htext b hb

theorem Only.flushStream (h : Only P base t) : Only P base (t.flushStream fn stream).2 := by
  unfold LineTarget.flushStream
  split
  · exact h
  · exact (h.keep (by simp)).deliver (h.rest stream)

theorem Only.flush (h : Only P base t) : Only P base (t.flush fn).2 := by
  have hout : Only P base (t.flushStream fn .stdout).2 := h.flushStream
  unfold LineTarget.flush
  split
  · rename_i t' heq
    rw [heq] at hout
    exact hout
  · rename_i t' heq
    rw [heq] at hout
    exact hout.flushStream

theorem flushStream_rest (fn : Callback β) (t : LineTarget β) (stream : Stream) :
    (t.flushStream fn stream).2.rest = Function.update t.rest stream [] := by
  unfold flushStream
  split
  · rename_i hrest
    exact (Function.update_eq_self_iff.mpr hrest.symm).symm
  · rfl

theorem flush_rest (h : (t.flush fn).1 = false) (stream : Stream) :
    (t.flush fn).2.rest stream = [] := by
  unfold flush at h ⊢
  split at h
  · cases h
  rename_i t' heq
  have hout : t'.rest = Function.update t.rest .stdout [] := by
    rw [← flushStream_rest fn t, heq]
  show (t'.flushStream fn .stderr).2.rest stream = []
  rw [flushStream_rest, hout]
  cases stream with
  | stdout | stderr => rfl

end LineTarget

/-! ## Feeds that share a target -/

/-- `printTarget`: a feed's own view of the target. -/
structure PrintTarget (β : Type) where
  target : LineTarget β
  failure : Bool := false

namespace PrintTarget

variable (newline : β → Bool) (fn : Callback β)

/-- `onPrint`, for a `Lines` target. -/
def onPrint (p : PrintTarget β) (chunk : Stream × List β) : PrintTarget β :=
  if p.failure then p
  else
    let (failed, target) := p.target.print newline fn chunk.1 chunk.2
    { target, failure := failed }

/-- `finish`. -/
def finish (p : PrintTarget β) : PrintTarget β :=
  if p.failure then p
  else
    let (failed, target) := p.target.flush fn
    { target, failure := failed }

end PrintTarget

/-- How a feed ends. -/
inductive Ending where
  /-- With a result, an exception, a typing error, or an abort that finishes printing; the session
  stays usable. -/
  | settled
  /-- `snapshotDriver.advance` aborts the chain at a suspension, without `finish`; the session stays
  usable. -/
  | cut
  | lost
  deriving DecidableEq

/-- A feed of a session, with what it prints. -/
structure Feed where
  session : ℕ
  chunks : List (Stream × List UInt8)
  ending : Ending

/-- A byte with the number of the feed that printed it. -/
abbrev Marked := ℕ × UInt8

/-- `'\n'`. -/
def isNewline (b : Marked) : Bool := b.2 == 10

/-- The target that the feeds share, the number of feeds so far, and the sessions that are lost. -/
structure Shared where
  target : LineTarget Marked := {}
  feeds : ℕ := 0
  lost : List ℕ := []

namespace Shared

variable (fn : Callback Marked)

/-- The feed's chunks, marked. -/
def marked (s : Shared) (feed : Feed) : List (Stream × List Marked) :=
  feed.chunks.map fun chunk => (chunk.1, chunk.2.map (s.feeds, ·))

/-- What `drive`, or a snapshot chain, does with the target over a feed. -/
def drive (s : Shared) (feed : Feed) : PrintTarget Marked :=
  let p := (s.marked feed).foldl (PrintTarget.onPrint isNewline fn) { target := s.target }
  match feed.ending with
  | .settled => p.finish fn
  | .cut | .lost => p

/-- A feed, which a session that is lost refuses. -/
def step (s : Shared) (feed : Feed) : Except Unit Shared :=
  if feed.session ∈ s.lost then .error ()
  else .ok {
    target := (s.drive fn feed).target
    feeds := s.feeds + 1
    lost := match feed.ending with
      | .settled | .cut => s.lost
      | .lost => feed.session :: s.lost }

/-- The lines delivered during a feed. -/
def linesDuring (s : Shared) (feed : Feed) : List (Stream × List Marked) :=
  (s.drive fn feed).target.delivered.drop s.target.delivered.length

/-- The feed finishes printing, and the callback fails at none of its lines. -/
def Undisturbed (s : Shared) (feed : Feed) : Prop :=
  feed.ending = .settled ∧ (s.drive fn feed).failure = false

/-- Nothing is kept between feeds. -/
def Empty (s : Shared) : Prop := ∀ stream, s.target.rest stream = []

variable {fn} {s s' : Shared} {feed : Feed}

theorem drive_only (fn : Callback Marked) (feed : Feed) (h : s.Empty) :
    (s.drive fn feed).target.Only (·.1 = s.feeds) s.target.delivered := by
  have hprints : ∀ chunks : List (Stream × List Marked),
      (∀ chunk ∈ chunks, ∀ b ∈ chunk.2, b.1 = s.feeds) → ∀ p : PrintTarget Marked,
      p.target.Only (·.1 = s.feeds) s.target.delivered →
      (chunks.foldl (PrintTarget.onPrint isNewline fn) p).target.Only (·.1 = s.feeds)
        s.target.delivered := by
    intro chunks
    induction chunks with
    | nil => exact fun _ _ h => h
    | cons chunk chunks ih =>
      intro hchunks p hp
      refine ih (fun c hc => hchunks c (List.mem_cons_of_mem chunk hc)) _ ?_
      rw [PrintTarget.onPrint]
      split
      · exact hp
      · exact hp.print (hchunks chunk List.mem_cons_self)
  have hmarked : ∀ chunk ∈ s.marked feed, ∀ b ∈ chunk.2, b.1 = s.feeds := by
    intro chunk hchunk b hb
    obtain ⟨plain, -, rfl⟩ := List.mem_map.mp hchunk
    obtain ⟨byte, -, rfl⟩ := List.mem_map.mp hb
    rfl
  -- The target kept nothing, so whatever it delivers from here on was printed by this feed.
  have hstart : s.target.Only (·.1 = s.feeds) s.target.delivered :=
    ⟨fun stream b hb => by simp [h stream] at hb, [], by simp, by simp⟩
  have hend := hprints _ hmarked { target := s.target } hstart
  unfold drive
  cases feed.ending with
  | cut | lost => exact hend
  | settled =>
    simp only [PrintTarget.finish]
    split
    · exact hend
    · exact hend.flush

theorem Empty.step (hguard : s.Undisturbed fn feed) (hstep : s.step fn feed = .ok s') :
    s'.Empty := by
  obtain ⟨hending, hfailure⟩ := hguard
  unfold Shared.step at hstep
  split at hstep
  · cases hstep
  cases hstep
  intro stream
  show (s.drive fn feed).target.rest stream = []
  unfold drive at hfailure ⊢
  rw [hending] at hfailure ⊢
  simp only [PrintTarget.finish] at hfailure ⊢
  split at hfailure
  · rename_i hfailed
    rw [hfailed] at hfailure
    cases hfailure
  · rename_i hfailed
    rw [if_neg hfailed]
    exact LineTarget.flush_rest hfailure stream

/-- **A feed delivers its own text.** If every earlier feed that shared the target finished printing
and had no callback fail, every line delivered during a feed is the text of that feed. -/
theorem later_feed_own_text (hreach : Reachable (Shared.step fn) (· = {}) (Undisturbed fn) s)
    (feed : Feed) : ∀ line ∈ s.linesDuring fn feed, ∀ b ∈ line.2, b.1 = s.feeds := by
  have hempty : s.Empty :=
    hreach.invariant (fun s hs => by rw [hs]; exact fun _ => rfl)
      fun _ _ _ _ hguard hstep => Empty.step hguard hstep
  obtain ⟨extra, hextra, hall⟩ := (drive_only fn feed hempty).delivered
  rw [linesDuring, hextra, List.drop_left]
  exact hall

/-- A callback that fails at its first line. -/
def failsFirst : Callback Marked := fun delivered _ _ => delivered.isEmpty

/-- A feed of session `0` that prints on `stdout`. -/
def printing (text : List UInt8) : Feed :=
  { session := 0, chunks := [(.stdout, text)], ending := .settled }

/-- The two feeds of one session, with a callback that does not fail. -/
theorem later_feed_own_text_second : ∃ s : Shared, s.feeds = 1 ∧
      ∀ line ∈ s.linesDuring LineTarget.accepts (printing [99, 10]), ∀ b ∈ line.2, b.1 = s.feeds :=
  ⟨{ target := (Shared.drive LineTarget.accepts {} (printing [97, 10, 98])).target, feeds := 1 }, rfl,
    later_feed_own_text (.step (.initial rfl) ⟨rfl, by decide⟩
      (by rfl : Shared.step LineTarget.accepts {} (printing [97, 10, 98]) = _)) (printing [99, 10])⟩

/-- The callback fails at `a`, the first line of a feed that prints `a`, a newline and `b`.  The
session stays usable, and the line that its next feed ends is `bc`.  So it is, without a failure,
after a snapshot chain that printed `b` and was aborted. -/
theorem failed_line_left_behind :
    (Shared.step failsFirst {} (printing [97, 10, 98])).toOption.map
      (fun s => (s.lost, s.feeds, s.linesDuring failsFirst (printing [99, 10]))) =
        some ([], 1, [(.stdout, [(0, 98), (1, 99)])]) ∧
    (Shared.step LineTarget.accepts {} { printing [98] with ending := .cut }).toOption.map
      (fun s => (s.lost, s.feeds, s.linesDuring LineTarget.accepts (printing [99, 10]))) =
        some ([], 1, [(.stdout, [(0, 98), (1, 99)])]) :=
  ⟨rfl, rfl⟩

end Shared

end Montygo.Sandbox
