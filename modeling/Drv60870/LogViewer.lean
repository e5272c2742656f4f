/-
  Drv60870.LogViewer — the tail of a log (`log_viewer.py`).

  `read_last_lines` reads blocks backwards until they hold as many line ends as lines are
  asked for, goes back to the start of the last block and drops the line that begins there.
  The text of a log is ASCII without carriage returns (`Content`), so a position counts
  characters and no line end is translated.

  Dropping a line costs one: the tail is right only if the blocks hold more line ends than
  asked for. And where the scan arrives at the start of the file it does not go back: the
  file is left behind the last block read.

  Proved, for every log and every number of lines:
  - The tail ends with the requested lines exactly if the file is empty, or the block at which
    the scan stops is not the first of the file and takes the line ends from fewer to more than
    asked for (`readLastLines_iff`).
  - A file of one block gives nothing (`a_short_log_shows_nothing`).
-/

import Drv60870.Lib.Lines
import Drv60870.Lib.Str

namespace Drv60870.LogViewer

open Lib.Lines Lib.Str

/-! ## Text files -/

/-- The text of a log: ASCII, so that positions count characters, and without carriage returns, so
    that no newline is translated. -/
structure Content where
  text : Text
  ascii : Ascii text
  noReturn : '\r' ∉ text
  deriving DecidableEq

def Content.empty : Content := ⟨[], by decide, by decide⟩

def Content.append (c d : Content) : Content where
  text := c.text ++ d.text
  ascii := Ascii.append.mpr ⟨c.ascii, d.ascii⟩
  noReturn := fun h => (List.mem_append.mp h).elim c.noReturn d.noReturn

structure TextFile where
  content : Content
  pos : Nat

namespace TextFile

def seek (f : TextFile) (pos : Nat) : TextFile := { f with pos }
def seekEnd (f : TextFile) : TextFile := { f with pos := f.content.text.length }
def tell (f : TextFile) : Nat := f.pos

def rest (f : TextFile) : Text := f.content.text.drop f.pos

def read (f : TextFile) (n : Nat) : Text × TextFile :=
  (f.rest.take n, { f with pos := f.pos + (f.rest.take n).length })

def readline (f : TextFile) : Text × TextFile :=
  match cut '\n' f.rest with
  | some (l, _) => (l ++ ['\n'], { f with pos := f.pos + l.length + 1 })
  | none => (f.rest, f.seekEnd)

def readlines (f : TextFile) : List Text × TextFile := (Lib.Lines.readlines '\n' f.rest, f.seekEnd)

end TextFile

/-! ## read_last_lines -/

def blockSize : Nat := 8192

/-- The loop over blocks; with the file as it leaves it, and `pos`. -/
def scan (f : TextFile) (pos : Nat) (remaining : Int) : TextFile × Nat :=
  if 0 < pos ∧ 0 < remaining then
    let readSize := min pos blockSize
    let (chunk, f) := (f.seek (pos - readSize)).read readSize
    scan f (pos - readSize) (remaining - chunk.count '\n')
  else (f, pos)
termination_by pos
decreasing_by
  have : 0 < blockSize := by decide
  omega

def readLastLines (fileObj : Option TextFile) (numLines : Int) : List Text :=
  match fileObj with
  | none => []
  | some f =>
    let f := f.seekEnd
    let size := f.tell
    if size = 0 then []
    else
      let (f, pos) := scan f size numLines
      -- where the scan arrives at the start, the file stays where the last `read` left it
      let f := if 0 < pos then (f.seek pos).readline.2 else f
      f.readlines.1

/-! ## Logs -/

structure Line where
  text : Text
  ascii : Ascii text
  plain : '\n' ∉ text ∧ '\r' ∉ text

def logText (lines : List Line) : Text := terminated '\n' (lines.map Line.text)

theorem mem_logText {lines : List Line} {c : Char} (h : c ∈ logText lines) : c = '\n' ∨ ∃ l ∈ lines, c ∈ l.text := by
  obtain ⟨t, ht, hc⟩ := List.mem_flatten.mp h
  obtain ⟨u, hu, rfl⟩ := List.mem_map.mp ht
  obtain ⟨l, hl, rfl⟩ := List.mem_map.mp hu
  rcases List.mem_append.mp hc with hc | hc
  · exact .inr ⟨l, hl, hc⟩
  · exact .inl (List.mem_singleton.mp hc)

def logContent (lines : List Line) : Content where
  text := logText lines
  ascii := fun c hc => by
    rcases mem_logText hc with rfl | ⟨l, -, hc⟩
    · decide
    · exact l.ascii c hc
  noReturn := fun hc => by
    rcases mem_logText hc with he | ⟨l, -, hc⟩
    · cases he
    · exact l.plain.2 hc

def openLog (lines : List Line) : TextFile := ⟨logContent lines, 0⟩

/-- The list ends with the last lines of the log, in order: as many as asked for, or all. -/
def EndsWithLast (numLines : Nat) (lines : List Line) (result : List Text) : Prop :=
  ended '\n' ((lines.drop (lines.length - numLines)).map Line.text) <:+ result

def lastBlocks (content : Text) (k : Nat) : Text := content.drop (content.length - blockSize * k)

def newlines (content : Text) (k : Nat) : Nat := (lastBlocks content k).count '\n'

/-- A block that is not the first of the file takes the line ends from fewer to more than asked for. -/
def Passes (content : Text) (numLines : Nat) : Prop :=
  ∃ k, blockSize * (k + 1) < content.length ∧ newlines content k < numLines ∧ numLines < newlines content (k + 1)

/-! ## The scan -/

variable {content : Text} {n : Nat}

theorem newlines_mono {j k : Nat} (h : j ≤ k) : newlines content j ≤ newlines content k := by
  have hle : content.length - blockSize * k ≤ content.length - blockSize * j :=
    Nat.sub_le_sub_left (Nat.mul_le_mul_left blockSize h) _
  exact (List.drop_sublist_drop_left content hle).count_le '\n'

theorem newlines_zero : newlines content 0 = 0 := by
  rw [newlines, lastBlocks, Nat.mul_zero, Nat.sub_zero, List.drop_length]
  rfl

/-- One more block has the line ends of the chunk that is read. -/
theorem newlines_succ {k : Nat} (h : blockSize * (k + 1) ≤ content.length) : newlines content (k + 1) =
    ((content.drop (content.length - blockSize * (k + 1))).take blockSize).count '\n' + newlines content k := by
  have hk : content.length - blockSize * (k + 1) + blockSize = content.length - blockSize * k := by
    rw [Nat.mul_succ] at h ⊢
    omega
  rw [newlines, newlines, lastBlocks, lastBlocks, ← hk, ← List.drop_drop, ← List.count_append,
    List.take_append_drop]

/-- How the loop can end: short of the start with enough line ends, or at the start with too few
    in the blocks behind the first. -/
inductive Scanned (log : Content) (n : Nat) : TextFile × Nat → Prop
  | inside (m pos : Nat) : blockSize * m < log.text.length → n ≤ newlines log.text m →
      (∀ j < m, newlines log.text j < n) → Scanned log n (⟨log, pos⟩, log.text.length - blockSize * m)
  | atStart (m : Nat) : blockSize * m < log.text.length → log.text.length ≤ blockSize * (m + 1) →
      newlines log.text m < n → Scanned log n (⟨log, log.text.length - blockSize * m⟩, 0)

theorem scan_scanned {log : Content} {k : Nat} (hk : blockSize * k < log.text.length)
    (hprev : ∀ j < k, newlines log.text j < n) (pos : Nat) : Scanned log n
      (scan ⟨log, pos⟩ (log.text.length - blockSize * k) ((n : Int) - newlines log.text k)) := by
  induction hm : log.text.length - blockSize * k using Nat.strongRecOn generalizing k pos with
  | _ p ih =>
  have hp : 0 < p := by omega
  rw [scan]
  by_cases hn : newlines log.text k < n
  · rw [if_pos ⟨hp, by omega⟩]
    dsimp only [TextFile.seek, TextFile.read, TextFile.rest]
    have hprev' : ∀ j < k + 1, newlines log.text j < n := by
      intro j hj
      rcases Nat.lt_succ_iff_lt_or_eq.mp hj with hj | rfl
      · exact hprev j hj
      · exact hn
    by_cases hb : blockSize * (k + 1) < log.text.length
    · have hsize : min p blockSize = blockSize := by rw [Nat.mul_succ] at hb; omega
      have hpos : p - blockSize = log.text.length - blockSize * (k + 1) := by rw [Nat.mul_succ]; omega
      have hrem : (n : Int) - newlines log.text k -
          ((log.text.drop (log.text.length - blockSize * (k + 1))).take blockSize).count '\n' =
            (n : Int) - newlines log.text (k + 1) := by
        rw [newlines_succ (Nat.le_of_lt hb)]
        omega
      rw [hsize, hpos, hrem]
      refine ih _ ?_ hb hprev' _ rfl
      rw [← hpos]
      exact Nat.sub_lt hp (by decide)
    · have hsize : min p blockSize = p := by rw [Nat.mul_succ] at hb; omega
      have hlen : (log.text.take p).length = p := by rw [List.length_take]; omega
      rw [hsize, Nat.sub_self, List.drop_zero, hlen, Nat.zero_add, scan, if_neg fun h => Nat.lt_irrefl 0 h.1, ← hm]
      exact .atStart k hk (Nat.not_lt.mp hb) hn
  · rw [if_neg (by omega), ← hm]
    exact .inside k pos hk (Nat.not_lt.mp hn) hprev

/-- Short of the start, the block at which the scan stops passes if it goes beyond what is asked for. -/
theorem passes_iff_inside (hn : 1 ≤ n) {m : Nat} (hm : blockSize * m < content.length) (hle : n ≤ newlines content m)
    (hprev : ∀ j < m, newlines content j < n) : Passes content n ↔ n < newlines content m := by
  constructor
  · intro hp
    obtain ⟨k, -, hk, hk'⟩ := hp
    have hkm : k + 1 ≤ m := Nat.lt_of_not_le fun h => by
      have hmono : newlines content m ≤ newlines content k := newlines_mono h
      omega
    exact Nat.lt_of_lt_of_le hk' (newlines_mono hkm)
  · intro hlt
    cases m with
    | zero => rw [newlines_zero] at hle; omega
    | succ k => exact ⟨k, hm, hprev k (Nat.lt_succ_self k), hlt⟩

/-- No block passes where the scan arrives at the start. -/
theorem not_passes_atStart {m : Nat} (hstart : content.length ≤ blockSize * (m + 1)) (hlt : newlines content m < n) :
    ¬ Passes content n := by
  intro hp
  obtain ⟨k, hk, -, hk'⟩ := hp
  have hkm : k + 1 ≤ m := Nat.lt_of_not_le fun h => by
    have hmul : blockSize * (m + 1) ≤ blockSize * (k + 1) :=
      Nat.mul_le_mul_left blockSize (Nat.succ_le_succ h)
    omega
  have hmono : newlines content (k + 1) ≤ newlines content m := newlines_mono hkm
  omega

/-! ## The tail -/

theorem rest_readline {f : TextFile} {r t : Text} (hr : '\n' ∉ r) (h : f.rest = r ++ '\n' :: t) :
    f.readline.2.rest = t := by
  have hd : f.rest.drop (r.length + 1) = t := by
    rw [h, List.append_cons, List.drop_left' (by simp)]
  rw [TextFile.readline, h, cut_line '\n' hr]
  rw [TextFile.rest, List.drop_drop] at hd
  exact hd

section Tail

variable (lines : List Line)

theorem free_text : ∀ l ∈ lines.map Line.text, '\n' ∉ l := by
  intro l hl
  obtain ⟨line, -, rfl⟩ := List.mem_map.mp hl
  exact line.plain.1

theorem length_ended (ls : List Text) : (ended '\n' ls).length = ls.length := List.length_map _

/-- The last lines of a log are a suffix of its lines. -/
theorem last_suffix (k : Nat) :
    ended '\n' ((lines.drop k).map Line.text) <:+ ended '\n' (lines.map Line.text) :=
  (((List.drop_suffix k lines).map Line.text)).map _

/-- Whole lines from the end of the log: enough of them. -/
theorem endsWithLast_iff_length {result : List Text} (h : result <:+ ended '\n' (lines.map Line.text)) :
    EndsWithLast n lines result ↔ min n lines.length ≤ result.length := by
  have hlen : (ended '\n' ((lines.drop (lines.length - n)).map Line.text)).length = min n lines.length := by
    rw [length_ended, List.length_map, List.length_drop]
    omega
  constructor
  · intro he
    rw [← hlen]
    exact he.length_le
  · intro hle
    exact List.suffix_of_suffix_length_le (last_suffix lines _) h (by rw [hlen]; exact hle)

/-- Fewer lines than asked for, and not the whole text: some line is missing. -/
theorem not_endsWithLast {result : List Text} (hn : result.length < n)
    (hf : result.flatten.length < (logText lines).length) : ¬ EndsWithLast n lines result := by
  intro he
  have hle := he.length_le
  rw [length_ended, List.length_map, List.length_drop] at hle
  have hall : lines.length - n = 0 := by omega
  obtain ⟨p, hp⟩ := he
  rw [hall, List.drop_zero] at hp
  rw [← hp, List.flatten_append, List.length_append] at hf
  exact absurd hf (by rw [logText, terminated]; omega)

end Tail

theorem readLastLines_eq {log : Content} (pos : Nat) (h : log.text ≠ []) (k : Int) :
    readLastLines (some ⟨log, pos⟩) k =
    let out := scan ⟨log, log.text.length⟩ log.text.length k
    if 0 < out.2 then ((out.1.seek out.2).readline.2).readlines.1 else out.1.readlines.1 := by
  have hl : log.text.length ≠ 0 := fun h0 => h (List.length_eq_zero_iff.mp h0)
  unfold readLastLines
  dsimp only [TextFile.seekEnd, TextFile.tell]
  rw [if_neg hl]
  exact apply_ite (fun f : TextFile => f.readlines.1) _ _ _

/-- Short of the start, one line end of those counted is that of the line that is dropped. -/
theorem tail_inside {lines : List Line} {m : Nat} (pos : Nat) (hc : 0 < newlines (logText lines) m) :
    ∃ result, ((TextFile.seek ⟨logContent lines, pos⟩
          ((logContent lines).text.length - blockSize * m)).readline.2).readlines.1 = result ∧
      result <:+ ended '\n' (lines.map Line.text) ∧ result.length + 1 = newlines (logText lines) m ∧
      newlines (logText lines) m ≤ lines.length := by
  have hfree := free_text lines
  have hne : lastBlocks (logText lines) m ≠ [] := by
    intro he
    rw [newlines, he] at hc
    cases hc
  obtain ⟨ls₁, l, ls₂, r, hls, hr, hs⟩ := suffix_terminated (List.drop_suffix _ _) hne
  replace hs : lastBlocks (logText lines) m = r ++ '\n' :: terminated '\n' ls₂ := hs
  have hr' : '\n' ∉ r := fun hd => hfree l (by rw [hls]; simp) (hr.subset hd)
  have hls₂ : ∀ l ∈ ls₂, '\n' ∉ l := fun l' hl' => hfree l' (by rw [hls]; simp [hl'])
  have hcount : newlines (logText lines) m = ls₂.length + 1 := by
    rw [newlines, hs, List.count_append, List.count_eq_zero.mpr hr', List.count_cons_self, count_terminated hls₂,
      Nat.zero_add]
  have hlen : lines.length = ls₁.length + (ls₂.length + 1) := by
    rw [← List.length_map Line.text, hls, List.length_append, List.length_cons]
  refine ⟨ended '\n' ls₂, ?_, ?_, by rw [length_ended, hcount], by omega⟩
  · have hrest := rest_readline (f := ⟨logContent lines, (logContent lines).text.length - blockSize * m⟩) hr' hs
    rw [TextFile.seek, TextFile.readlines, hrest, readlines_terminated hls₂]
  · rw [hls, ended, ended, List.map_append, List.map_cons]
    exact (List.suffix_cons _ _).trans (List.suffix_append _ _)

/-- At the start, the lines are those behind the last block that was read: fewer than asked for. -/
theorem tail_atStart {lines : List Line} {m : Nat} (hm : blockSize * m < (logText lines).length)
    (hlt : newlines (logText lines) m < n) : ¬ EndsWithLast n lines
      (TextFile.readlines ⟨logContent lines, (logText lines).length - blockSize * m⟩).1 := by
  have hsuf : (logText lines).drop ((logText lines).length - blockSize * m) <:+ logText lines := List.drop_suffix _ _
  have hlen := length_readlines_suffix (free_text lines) hsuf
  refine not_endsWithLast lines (Nat.lt_of_le_of_lt (Nat.le_of_eq hlen) hlt) ?_
  rw [TextFile.readlines, readlines_flatten, TextFile.rest, List.length_drop]
  dsimp only [logContent]
  omega

/-- For every log and every number of lines. -/
theorem readLastLines_iff (lines : List Line) {n : Nat} (hn : 1 ≤ n) :
    EndsWithLast n lines (readLastLines (some (openLog lines)) n) ↔ lines = [] ∨ Passes (logText lines) n := by
  by_cases hnil : lines = []
  · subst hnil
    refine iff_of_true ?_ (.inl rfl)
    rw [EndsWithLast, List.drop_nil]
    exact List.nil_suffix
  have hne : logText lines ≠ [] := by
    intro he
    cases lines with
    | nil => exact hnil rfl
    | cons line lines =>
      rw [logText, List.map_cons, terminated_cons] at he
      exact absurd (List.append_eq_nil_iff.mp he).2 (List.cons_ne_nil _ _)
  have hscan : Scanned (logContent lines) n
      (scan ⟨logContent lines, (logContent lines).text.length⟩ (logContent lines).text.length n) := by
    have h0 : blockSize * 0 < (logContent lines).text.length := List.length_pos_iff.mpr hne
    have hscan := scan_scanned h0 (fun j hj => absurd hj (Nat.not_lt_zero j)) (n := n) (logContent lines).text.length
    rwa [Nat.mul_zero, Nat.sub_zero, newlines_zero, Int.ofNat_zero, Int.sub_zero] at hscan
  rw [openLog, readLastLines_eq 0 hne, or_iff_right hnil]
  dsimp only
  generalize scan ⟨logContent lines, (logContent lines).text.length⟩ (logContent lines).text.length n = out at hscan
  cases hscan with
  | inside m pos hm hle hprev =>
    obtain ⟨result, hres, hsuf, hlen, htotal⟩ := tail_inside pos (Nat.lt_of_lt_of_le hn hle)
    have hpass : Passes (logText lines) n ↔ n < newlines (logText lines) m := passes_iff_inside hn hm hle hprev
    rw [if_pos (by dsimp only; omega)]
    dsimp only
    rw [hres, endsWithLast_iff_length lines hsuf, hpass]
    -- one of the line ends counted is that of the dropped line
    omega
  | atStart m hm hstart hlt =>
    rw [if_neg (Nat.lt_irrefl 0)]
    exact iff_of_false (tail_atStart hm hlt) (not_passes_atStart hstart hlt)

/-! ## Short logs -/

def sampleLine : Line := ⟨['o', 'k'], by decide, by decide⟩

/-- A file of one block is at its end when it is read out. -/
theorem a_short_log_shows_nothing :
    readLastLines (some (openLog [sampleLine])) 1 = [] ∧ ¬ EndsWithLast 1 [sampleLine] [] := by
  constructor
  · have hscan : scan ⟨logContent [sampleLine], 3⟩ 3 1 = (⟨logContent [sampleLine], 3⟩, 0) := by
      rw [scan, if_pos (by decide)]
      dsimp only
      rw [scan, if_neg (by decide)]
      rfl
    rw [openLog, readLastLines_eq 0 (by decide)]
    rw [show (logContent [sampleLine]).text.length = 3 from rfl, hscan]
    exact readlines_none (by decide)
  · intro h
    exact absurd h.length_le (by decide)

def manyLines : List Line := List.replicate 9000 ⟨[], by decide, by decide⟩

theorem readLastLines_iff_many : EndsWithLast 10 manyLines (readLastLines (some (openLog manyLines)) 10) := by
  have htext : logText manyLines = List.replicate 9000 '\n' := by
    rw [logText, manyLines, List.map_replicate, terminated, ended, List.map_replicate]
    exact List.flatten_replicate_singleton
  have hcount : ∀ k, newlines (logText manyLines) k = 9000 - (9000 - blockSize * k) := by
    intro k
    rw [newlines, lastBlocks, htext, List.length_replicate, List.drop_replicate, List.count_replicate_self]
  refine (readLastLines_iff manyLines (by decide)).mpr (.inr ⟨0, ?_, ?_, ?_⟩)
  · rw [htext, List.length_replicate]
    decide
  · rw [hcount]
    decide
  · rw [hcount]
    decide

end Drv60870.LogViewer
