/-
  Drv60870.LogViewer.Follow — following a log that is being written and rotated.

  Actors. The handler of the log writes text, renames the full file and makes a new one.
  `run_viewer -f` keeps the file it has opened and asks the name for its size. It reads on where
  the name's file is longer than what it has read, and opens the name again, at the end, where it
  is shorter. What is written is ASCII without carriage returns (`Content`), as in `LogViewer`.

  So what a rotation leaves unread is passed over, and so is what the new file gets before it is
  opened; a new file that has outgrown the old one by the next look is not noticed at all.

  Proved:
  - What is read is always, in order, part of what is written, and it is all of it exactly if no
    write goes to a file that is not the one held and none is let go of unread (`followed_iff`).
  - A record is read back from its line exactly if its message does not end in white space
    (`parseLine_emitted`). Where every write is a record's line, the records read and those
    unread are among those written, in order, and the ones read that pass the filter are shown
    as they were written (`follows_records`).
  - A quick rotation is not noticed (`a_quick_rotation_is_not_noticed`).
-/

import Mathlib.Data.List.DropRight
import Mathlib.Data.List.Flatten
import Mathlib.Data.List.Infix
import Drv60870.Lib.Runs
import Drv60870.LogViewer

namespace Drv60870.LogViewer

open Lib.Lines Lib.Runs Lib.Str

/-! ## Records -/

/-- What the formatter of `setup_logging` is given, and `parse_line` returns. -/
structure Record where
  timestamp : Text
  name : Text
  level : Text
  message : Text
  deriving DecidableEq

/-- `%(asctime)s.%(msecs)03d\t%(name)s\t%(levelname)s\t%(message)s`, and what `display_entry` prints. -/
def Record.line (r : Record) : Text := ['\t'].intercalate [r.timestamp, r.name, r.level, r.message]

def isSpace (c : Char) : Bool :=
  let n := c.toNat
  (9 ≤ n && n ≤ 13) || (28 ≤ n && n ≤ 32) || n = 0x85 || n = 0xA0 || n = 0x1680 || (0x2000 ≤ n && n ≤ 0x200A) ||
    n = 0x2028 || n = 0x2029 || n = 0x202F || n = 0x205F || n = 0x3000

def strip (t : Text) : Text := (t.dropWhile isSpace).rdropWhile isSpace

def parseLine (line : Text) : Option Record :=
  let line := strip line
  if line = [] then none
  else
    match line.splitOn '\t' with
    | timestamp :: name :: level :: message :: more =>
      some ⟨timestamp, name, level, ['\t'].intercalate (message :: more)⟩
    | _ => none

/-- An empty set of levels and an empty name are no filter. -/
def shouldShow (entry : Record) (levels : Option (List Text)) (moduleFilter : Option Text) : Bool :=
  if levels.getD [] ≠ [] ∧ entry.level ∉ levels.getD [] then false
  else if moduleFilter.getD [] ≠ [] ∧ ¬ moduleFilter.getD [] <:+: entry.name then false
  else true

def shown (levels : Option (List Text)) (moduleFilter : Option Text) (lines : List Text) : List Text :=
  lines.filterMap fun line =>
    (parseLine line).bind fun entry => if shouldShow entry levels moduleFilter then some entry.line else none

/-- What the handler writes for a record. -/
def Record.emitted (r : Record) : Text := r.line ++ ['\n']

/-- The tabs of the header are those of the format. -/
structure Record.Headed (r : Record) : Prop where
  tabs : '\t' ∉ r.timestamp ∧ '\t' ∉ r.name ∧ '\t' ∉ r.level
  begins : ∃ c t, r.timestamp = c :: t ∧ isSpace c = false

def Record.Ends (r : Record) : Prop := ∃ m c, r.message = m ++ [c] ∧ isSpace c = false

structure Record.Tidy (r : Record) : Prop where
  headed : r.Headed
  ends : r.Ends
  oneLine : '\n' ∉ r.line

theorem line_eq (r : Record) :
    r.line = r.timestamp ++ '\t' :: (r.name ++ '\t' :: (r.level ++ '\t' :: r.message)) := by
  simp [Record.line, List.intercalate]

theorem strip_emitted {r : Record} (h : r.Headed) : strip r.emitted = r.line.rdropWhile isSpace := by
  obtain ⟨c, t, ht, hc⟩ := h.begins
  have hfront : r.emitted.dropWhile isSpace = r.emitted := by
    rw [Record.emitted, line_eq, ht]
    simp [hc]
  rw [strip, hfront, Record.emitted, List.rdropWhile_concat_pos _ _ _ (by decide)]

theorem split_line {r : Record} (h : r.Headed) :
    r.line.splitOn '\t' = r.timestamp :: r.name :: r.level :: r.message.splitOn '\t' := by
  obtain ⟨ht, hn, hl⟩ := h.tabs
  rw [line_eq, List.splitOn_append_cons_self_of_not_mem ht, List.splitOn_append_cons_self_of_not_mem hn,
    List.splitOn_append_cons_self_of_not_mem hl]

theorem rdropWhile_space {t : Text} {c : Char} (hc : isSpace c = true) :
    (t ++ [c]).rdropWhile isSpace ≠ t ++ [c] := by
  intro he
  have hle := (List.rdropWhile_prefix isSpace (l := t)).length_le
  rw [List.rdropWhile_concat_pos _ _ _ hc] at he
  rw [he, List.length_append, List.length_singleton] at hle
  omega

theorem rdropWhile_line (r : Record) : r.line.rdropWhile isSpace = r.line ↔ r.Ends := by
  rcases List.eq_nil_or_concat r.message with hnil | ⟨m, c, hm⟩
  · -- the last tab is white space
    have hline : r.line = (r.timestamp ++ '\t' :: (r.name ++ '\t' :: r.level)) ++ ['\t'] := by
      rw [line_eq, hnil]
      simp
    refine iff_of_false (by rw [hline]; exact rdropWhile_space (by decide)) ?_
    rintro ⟨m, c, hm, -⟩
    rw [hnil] at hm
    simp at hm
  · rw [List.concat_eq_append] at hm
    have hline : r.line = (r.timestamp ++ '\t' :: (r.name ++ '\t' :: (r.level ++ '\t' :: m))) ++ [c] := by
      rw [line_eq, hm]
      simp
    by_cases hc : isSpace c = true
    · refine iff_of_false (by rw [hline]; exact rdropWhile_space hc) ?_
      rintro ⟨m', c', hm', hc'⟩
      rw [hm] at hm'
      obtain ⟨-, hcc⟩ := List.append_inj' hm' rfl
      cases hcc
      rw [hc] at hc'
      cases hc'
    · refine iff_of_true ?_ ⟨m, c, hm, by simpa using hc⟩
      rw [hline]
      exact List.rdropWhile_concat_neg _ _ _ hc

/-- A record is read back as it was written exactly if its message does not end in white space. -/
theorem parseLine_emitted {r : Record} (h : r.Headed) : parseLine r.emitted = some r ↔ r.Ends := by
  rw [← rdropWhile_line, ← strip_emitted h]
  have hjoin : ['\t'].intercalate ((strip r.emitted).splitOn '\t') = strip r.emitted := List.intercalate_splitOn '\t'
  constructor
  · intro hp
    unfold parseLine at hp
    dsimp only at hp
    split at hp
    · cases hp
    · split at hp
      · rename_i timestamp name level message more hsplit
        rw [hsplit] at hjoin
        rw [← hjoin, ← Option.some.inj hp]
        simp [Record.line, List.intercalate]
      · cases hp
  · intro he
    obtain ⟨c, t, ht, -⟩ := h.begins
    have hne : r.line ≠ [] := by
      rw [line_eq, ht]
      simp
    cases hm : r.message.splitOn '\t' with
    | nil => exact absurd hm (List.splitOn_ne_nil _ _)
    | cons message more =>
      have hmessage : ['\t'].intercalate (message :: more) = r.message := by
        rw [← hm]
        exact List.intercalate_splitOn '\t'
      unfold parseLine
      dsimp only
      rw [he, if_neg hne, split_line h, hm]
      dsimp only
      rw [hmessage]

/-! ## The viewer and the handler -/

inductive Pc where
  | top
  /-- The name exists. -/
  | sizing
  /-- `current_size`. -/
  | sized (currentSize : Nat)
  /-- The file is closed and about to be opened again. -/
  | opening
  /-- An `AttributeError`: there is no file to read. -/
  | ended
  deriving DecidableEq

structure Follow where
  /-- The files the handler has rotated, oldest first, and the one it writes to. -/
  rotated : List Content
  current : Content
  /-- The name stands for the current file; not in the middle of a rollover. -/
  named : Bool
  /-- The file held, by its place among the rotated ones and the current one. -/
  fileObj : Option Nat
  lastSize : Nat
  pc : Pc
  /-- What `read_new_lines` has returned. -/
  read : List Text
  /-- What the handler has written since the viewer follows. -/
  written : List Text

inductive Follow.Act where
  /-- The handler writes; not always a whole line at once. -/
  | write (text : Content)
  /-- The two halves of `doRollover`. -/
  | rename
  | create
  /-- The next step of the viewer. -/
  | poll

def readNewLines (f : TextFile) (lastPos : Nat) : List Text × Nat :=
  let (lines, f) := (f.seek lastPos).readlines
  (lines, f.tell)

namespace Follow

def file (s : Follow) (i : Nat) : Content := (s.rotated[i]?).getD s.current

def pollStep (s : Follow) : Option Follow :=
  match s.pc with
  | .top => some { s with pc := if s.named then .sizing else .top }
  | .sizing =>
    -- without the name `getsize` raises an `OSError`
    some { s with pc := if s.named then .sized s.current.text.length else .top }
  | .sized currentSize =>
    if currentSize < s.lastSize then some { s with fileObj := none, pc := .opening }
    else if currentSize > s.lastSize then
      match s.fileObj with
      | none => some { s with pc := .ended }
      | some i =>
        let (newLines, lastSize) := readNewLines ⟨s.file i, s.lastSize⟩ s.lastSize
        some { s with lastSize, pc := .top, read := s.read ++ newLines }
    else some { s with pc := .top }
  | .opening =>
    if s.named then
      some { s with fileObj := some s.rotated.length, lastSize := s.current.text.length, pc := .top }
    else some { s with pc := .top }
  | .ended => none

def wrote (s : Follow) (text : Content) : Follow :=
  { s with current := s.current.append text, written := s.written ++ [text.text] }

def created (s : Follow) : Follow :=
  { s with rotated := s.rotated ++ [s.current], current := .empty, named := true }

def step (s : Follow) : Act → Option Follow
  | .write text => if s.named then some (s.wrote text) else none
  | .rename => if s.named then some { s with named := false } else none
  | .create => if s.named then none else some s.created
  | .poll => s.pollStep

def unread (s : Follow) : Text :=
  match s.fileObj with
  | some i => (s.file i).text.drop s.lastSize
  | none => []

end Follow

def follow (rotated : List Content) (current : Content) (named : Bool) (i : Nat) : Follow :=
  { rotated, current, named, fileObj := some i, lastSize := ((rotated[i]?).getD current).text.length, pc := .top,
    read := [], written := [] }

namespace Follow

/-! ## Every step -/

inductive Move : Follow → Act → Follow → Prop
  | write (s : Follow) (text) : Move s (.write text) (s.wrote text)
  | rename (s : Follow) : Move s .rename { s with named := false }
  | create (s : Follow) : Move s .create s.created
  | turn (s : Follow) (pc) : pc ≠ .opening → (∀ n, s.pc = .sized n → ¬ n < s.lastSize) → Move s .poll { s with pc }
  | letGo (s : Follow) (n) : s.pc = .sized n → n < s.lastSize → Move s .poll { s with fileObj := none, pc := .opening }
  | read (s : Follow) (n i) : s.pc = .sized n → s.lastSize < n → s.fileObj = some i →
      Move s .poll { s with
        lastSize := (s.file i).text.length
        pc := .top
        read := s.read ++ readlines '\n' ((s.file i).text.drop s.lastSize) }
  | reopen (s : Follow) : s.pc = .opening →
      Move s .poll { s with fileObj := some s.rotated.length, lastSize := s.current.text.length, pc := .top }

theorem pollStep_move {s s' : Follow} (h : s.pollStep = some s') : Move s .poll s' := by
  unfold pollStep at h
  split at h
  · rename_i hpc
    cases h
    exact .turn s _ (by split <;> simp) fun n hn => by rw [hpc] at hn; cases hn
  · rename_i hpc
    cases h
    exact .turn s _ (by split <;> simp) fun n hn => by rw [hpc] at hn; cases hn
  · rename_i n hpc
    by_cases hlt : n < s.lastSize
    · rw [if_pos hlt] at h
      cases h
      exact .letGo s n hpc hlt
    · have hno : ∀ m, s.pc = .sized m → ¬ m < s.lastSize := fun m hm => by
        rw [hpc] at hm
        cases hm
        exact hlt
      rw [if_neg hlt] at h
      by_cases hgt : n > s.lastSize
      · rw [if_pos hgt] at h
        cases hf : s.fileObj with
        | none =>
          rw [hf] at h
          cases h
          have hm := Move.turn s .ended (by simp) hno
          rw [hf] at hm
          exact hm
        | some i =>
          rw [hf] at h
          cases h
          have hm := Move.read s n i hpc hgt hf
          rw [hf] at hm
          exact hm
      · rw [if_neg hgt] at h
        cases h
        exact .turn s _ (by simp) hno
  · rename_i hpc
    split at h
    · cases h
      exact .reopen s hpc
    · cases h
      exact .turn s _ (by simp) fun n hn => by rw [hpc] at hn; cases hn
  · cases h

theorem step_move {s s' : Follow} {a : Act} (h : step s a = some s') : Move s a s' := by
  cases a with
  | write text =>
    simp only [step] at h
    split at h
    · cases h
      exact .write s text
    · cases h
  | rename =>
    simp only [step] at h
    split at h
    · cases h
      exact .rename s
    · cases h
  | create =>
    simp only [step] at h
    split at h
    · cases h
    · cases h
      exact .create s
  | poll => exact pollStep_move h

/-! ## The files -/

theorem file_wrote {s : Follow} {i : Nat} (text : Content) (hi : i ≤ s.rotated.length) :
    ((s.wrote text).file i).text =
      if i = s.rotated.length then (s.file i).text ++ text.text else (s.file i).text := by
  by_cases h : i = s.rotated.length
  · simp [file, wrote, Content.append, h]
  · have hlt : i < s.rotated.length := by omega
    simp [file, wrote, h, hlt]

theorem file_created {s : Follow} {i : Nat} (hi : i ≤ s.rotated.length) : s.created.file i = s.file i := by
  by_cases h : i = s.rotated.length
  · simp [file, created, h]
  · have hlt : i < s.rotated.length := by omega
    simp [file, created, hlt, List.getElem?_append_left]

/-! ## What is read -/

/-- What is read and what is waiting are, write by write, among what was written; each poll that read
    something has cut into lines what it found. -/
structure Following (s : Follow) : Prop where
  held : ∀ i, s.fileObj = some i → i ≤ s.rotated.length ∧ s.lastSize ≤ (s.file i).text.length
  opening : s.pc = .opening → s.fileObj = none
  parts : ∃ (polls : List (List Text)) (pending : List Text),
    s.read = polls.flatMap (fun texts => readlines '\n' texts.flatten) ∧ s.unread = pending.flatten ∧
      (polls.flatten ++ pending).Sublist s.written

theorem unread_some {s : Follow} {i : Nat} (h : s.fileObj = some i) : s.unread = (s.file i).text.drop s.lastSize := by
  rw [unread, h]

theorem unread_none {s : Follow} (h : s.fileObj = none) : s.unread = [] := by
  rw [unread, h]

theorem unread_wrote {s : Follow} (h : s.Following) (text : Content) :
    (s.wrote text).unread = if s.fileObj = some s.rotated.length then s.unread ++ text.text else s.unread := by
  cases hf : s.fileObj with
  | none =>
    rw [unread_none (s := s.wrote text) hf, unread_none hf]
    rfl
  | some i =>
    obtain ⟨hi, hle⟩ := h.held i hf
    rw [unread_some (s := s.wrote text) hf, unread_some hf, file_wrote text hi]
    by_cases he : i = s.rotated.length
    · rw [if_pos he, if_pos (by rw [he])]
      exact List.drop_append_of_le_length hle
    · rw [if_neg he, if_neg (by simpa using he)]
      rfl

theorem unread_created {s : Follow} (h : s.Following) : s.created.unread = s.unread := by
  cases hf : s.fileObj with
  | none => rw [unread_none (s := s.created) hf, unread_none hf]
  | some i =>
    rw [unread_some (s := s.created) hf, unread_some hf, file_created (h.held i hf).1]
    rfl

theorem unread_read {s : Follow} {i : Nat} (hf : s.fileObj = some i) : ({ s with
    lastSize := (s.file i).text.length
    pc := .top
    read := s.read ++ readlines '\n' ((s.file i).text.drop s.lastSize) } : Follow).unread = [] := by
  simp [unread, hf, file]

theorem unread_reopened (s : Follow) : ({ s with
    fileObj := some s.rotated.length, lastSize := s.current.text.length, pc := .top } : Follow).unread = [] := by
  simp [unread, file]

theorem following_start {rotated : List Content} {current : Content} {named : Bool} {i : Nat}
    (hi : i ≤ rotated.length) : (follow rotated current named i).Following := by
  refine ⟨fun j hj => ?_, fun h => (by cases h), [], [], rfl, ?_, List.nil_sublist _⟩
  · cases hj
    exact ⟨hi, Nat.le_refl _⟩
  · rw [unread_some rfl]
    exact List.drop_length

theorem following_step {s s' : Follow} {a : Act} (h : s.Following) (hs : step s a = some s') : s'.Following := by
  obtain ⟨polls, pending, hread, hunread, hsub⟩ := h.parts
  cases step_move hs with
  | write text =>
    have hu := unread_wrote h text
    refine ⟨fun i hi => ?_, h.opening, ?_⟩
    · obtain ⟨hle, hlen⟩ := h.held i hi
      refine ⟨hle, ?_⟩
      rw [file_wrote text hle]
      split
      · rw [List.length_append]
        exact Nat.le_add_right_of_le hlen
      · exact hlen
    · by_cases hf : s.fileObj = some s.rotated.length
      · rw [if_pos hf, hunread] at hu
        refine ⟨polls, pending ++ [text.text], hread, by rw [hu]; simp, ?_⟩
        rw [← List.append_assoc]
        exact hsub.append (List.Sublist.refl [text.text])
      · rw [if_neg hf, hunread] at hu
        exact ⟨polls, pending, hread, hu, hsub.trans (List.sublist_append_left _ _)⟩
  | rename => exact ⟨h.held, h.opening, h.parts⟩
  | create =>
    refine ⟨fun i hi => ?_, h.opening, polls, pending, hread, (unread_created h).trans hunread, hsub⟩
    obtain ⟨hle, hlen⟩ := h.held i hi
    rw [file_created hle]
    refine ⟨?_, hlen⟩
    rw [created, List.length_append]
    exact Nat.le_add_right_of_le hle
  | turn pc hpc => exact ⟨h.held, fun ho => absurd ho hpc, h.parts⟩
  | letGo n hpc hlt =>
    refine ⟨fun i hi => (by cases hi), fun _ => rfl, polls, [], hread, rfl, ?_⟩
    rw [List.append_nil]
    exact (List.sublist_append_left _ _).trans hsub
  | read n i hpc hgt hf =>
    refine ⟨fun j hj => ?_, fun ho => (by cases ho), polls ++ [pending], [], ?_, ?_, ?_⟩
    · rw [hf] at hj
      cases hj
      exact ⟨(h.held i hf).1, Nat.le_refl _⟩
    · rw [List.flatMap_append, ← hread, List.flatMap_singleton, ← hunread, unread_some hf]
    · exact unread_read hf
    · simpa using hsub
  | reopen hpc =>
    refine ⟨fun i hi => ?_, fun ho => (by cases ho), polls, [], hread, ?_, ?_⟩
    · cases hi
      exact ⟨Nat.le_refl _, by simp [file]⟩
    · exact unread_reopened s
    · rw [List.append_nil]
      exact (List.sublist_append_left _ _).trans hsub

/-! ## What is lost -/

/-- What a step makes the viewer pass over: a write to another file than the one held, and what is
    unread in a file that is let go of. -/
def lost (s : Follow) : Act → Text
  | .write text => if s.fileObj = some s.rotated.length then [] else text.text
  | .poll =>
    match s.pc with
    | .sized currentSize => if currentSize < s.lastSize then s.unread else []
    | _ => []
  | _ => []

def gap (s : Follow) : Nat := s.written.flatten.length - (s.read.flatten ++ s.unread).length

theorem Following.sublist {s : Follow} (h : s.Following) : (s.read.flatten ++ s.unread).Sublist s.written.flatten := by
  obtain ⟨polls, pending, hread, hunread, hsub⟩ := h.parts
  have hcut : s.read.flatten = polls.flatten.flatten := by
    rw [hread]
    clear hsub hread
    induction polls with
    | nil => rfl
    | cons texts polls ih =>
      rw [List.flatMap_cons, List.flatten_append, readlines_flatten, ih, List.flatten_cons, List.flatten_append]
  rw [hcut, hunread, ← List.flatten_append]
  exact hsub.flatten

theorem gap_step {s s' : Follow} {a : Act} (h : s.Following) (hs : step s a = some s') :
    s'.gap = s.gap + (s.lost a).length := by
  have hle := h.sublist.length_le
  rw [List.length_append] at hle
  cases step_move hs with
  | write text =>
    have hu := unread_wrote h text
    have hw : (s.wrote text).written.flatten.length = s.written.flatten.length + text.text.length := by simp [wrote]
    by_cases hf : s.fileObj = some s.rotated.length
    · rw [if_pos hf] at hu
      have hr : (s.wrote text).read = s.read := rfl
      simp only [gap, hw, hu, hr, lost, if_pos hf, List.length_append, List.length_nil]
      omega
    · rw [if_neg hf] at hu
      have hr : (s.wrote text).read = s.read := rfl
      simp only [gap, hw, hu, hr, lost, if_neg hf, List.length_append]
      omega
  | rename => rfl
  | create =>
    show s.written.flatten.length - (s.read.flatten ++ s.created.unread).length = _
    rw [unread_created h]
    rfl
  | turn pc hpc hno =>
    have hnone : s.lost .poll = [] := by
      cases hp : s.pc with
      | sized n => simp [lost, hp, hno n hp]
      | _ => simp [lost, hp]
    rw [hnone]
    rfl
  | letGo n hpc hlt =>
    have hall : s.lost .poll = s.unread := by simp [lost, hpc, hlt]
    have hnew : ({ s with fileObj := none, pc := .opening } : Follow).unread = [] := rfl
    simp only [gap, hall, hnew, List.append_nil, List.length_append]
    omega
  | read n i hpc hgt hf =>
    have hnone : s.lost .poll = [] := by simp [lost, hpc, Nat.not_lt.mpr (Nat.le_of_lt hgt)]
    rw [hnone, gap, unread_read hf, gap, unread_some hf, List.flatten_append, readlines_flatten, List.append_nil]
    rfl
  | reopen hpc =>
    have hnone : s.lost .poll = [] := by simp [lost, hpc]
    rw [hnone, gap, unread_reopened, gap, unread_none (h.opening hpc)]
    rfl

def Complete (s : Follow) : Prop := s.read.flatten ++ s.unread = s.written.flatten

theorem Following.complete_iff {s : Follow} (h : s.Following) : s.Complete ↔ s.gap = 0 := by
  have hle := h.sublist.length_le
  constructor
  · intro hc
    rw [gap, hc, Nat.sub_self]
  · intro hg
    refine h.sublist.eq_of_length ?_
    unfold gap at hg
    omega

end Follow

/-! ## Runs -/

variable {s : Follow} {rotated : List Content} {current : Content} {named : Bool} {i : Nat} {as : List Follow.Act}

theorem following_run (hi : i ≤ rotated.length) (hr : run Follow.step (follow rotated current named i) as = some s) :
    s.Following :=
  (reach_of_run hr).inv (Follow.following_start hi) fun _ _ _ h _ hs => Follow.following_step h hs

theorem complete_iff_obeys (hi : i ≤ rotated.length)
    (hr : run Follow.step (follow rotated current named i) as = some s) :
    s.Complete ↔ Obeys Follow.step (fun s a => s.lost a = []) (follow rotated current named i) as := by
  have h0 : (follow rotated current named i).Following := Follow.following_start hi
  have hend : s.gap = 0 ↔ (follow rotated current named i).gap = 0 ∧
      Obeys Follow.step (fun s a => s.lost a = []) (follow rotated current named i) as :=
    last_iff_obeys (I := Follow.Following) (P := fun s => s.gap = 0) (fun _ _ _ h hs => Follow.following_step h hs)
      (fun s a s' h hs => by
        rw [Follow.gap_step h hs, Nat.add_eq_zero_iff, List.length_eq_zero_iff]) h0 hr
  rw [(following_run hi hr).complete_iff, hend, and_iff_right]
  exact Nat.zero_sub _

/-- In every run of the handler and the viewer, what is read and what is unread in the file held are in order
    part of what was written since; and all of it exactly if no step loses anything. -/
theorem followed_iff (rotated : List Content) (current : Content) (named : Bool) (i : Nat) (hi : i ≤ rotated.length)
    (as : List Follow.Act) (s : Follow) (hr : run Follow.step (follow rotated current named i) as = some s) :
    (s.read.flatten ++ s.unread).Sublist s.written.flatten ∧
      (s.read.flatten ++ s.unread = s.written.flatten ↔
        Obeys Follow.step (fun s a => s.lost a = []) (follow rotated current named i) as) :=
  ⟨(following_run hi hr).sublist, complete_iff_obeys hi hr⟩

def record (level : Char) (message : Text) : Record := ⟨['0'], ['s'], [level], message⟩

def lineUp : Content := ⟨(record 'I' ['u', 'p']).emitted, by decide, by decide⟩
def lineNo : Content := ⟨(record 'E' ['n', 'o']).emitted, by decide, by decide⟩
def lineNone : Content := ⟨(record 'E' ['n', 'o', 'n', 'e']).emitted, by decide, by decide⟩

def writeAndRead (line : Content) : List Follow.Act := .write line :: List.replicate 3 .poll

/-- The viewer opens the new file before it is written to. -/
def timelyRotation : List Follow.Act :=
  writeAndRead lineUp ++ [.rename, .create] ++ List.replicate 4 .poll ++
    writeAndRead lineNo

theorem followed_iff_timelyRotation : ∃ s : Follow, s.rotated.length = 1 ∧ s.read.length = 2 ∧
    Obeys Follow.step (fun s a => s.lost a = []) (follow [] .empty true 0) timelyRotation := by
  have hrun : (run Follow.step (follow [] .empty true 0) timelyRotation).map (fun s =>
      decide (s.rotated.length = 1 ∧ s.read.length = 2 ∧ s.read.flatten ++ s.unread = s.written.flatten)) =
        some true := by decide +kernel
  obtain ⟨s, hs, hg⟩ := Option.map_eq_some_iff.mp hrun
  obtain ⟨hrotated, hread, hall⟩ := of_decide_eq_true hg
  exact ⟨s, hrotated, hread, (followed_iff [] .empty true 0 (by decide) timelyRotation s hs).2.mp hall⟩

/-- The new file is longer than the old one when the viewer looks at the name. -/
def quickRotation : List Follow.Act :=
  writeAndRead lineUp ++ [.rename, .create] ++ writeAndRead lineNone

/-- The viewer has found the new file longer, and read on in the old one. -/
theorem a_quick_rotation_is_not_noticed : ∃ s, run Follow.step (follow [] .empty true 0) quickRotation = some s ∧
    s.fileObj = some 0 ∧ s.unread = [] ∧ s.read = [(record 'I' ['u', 'p']).emitted] := by
  have hrun : (run Follow.step (follow [] .empty true 0) quickRotation).map (fun s =>
      decide (s.fileObj = some 0 ∧ s.unread = [] ∧ s.read = [(record 'I' ['u', 'p']).emitted])) = some true := by
    decide +kernel
  obtain ⟨s, hs, hg⟩ := Option.map_eq_some_iff.mp hrun
  exact ⟨s, hs, of_decide_eq_true hg⟩

/-! ## Records followed -/

/-- Every poll that found whole lines has returned them. -/
theorem readlines_emitted {polls : List (List Text)} {taken : List Record} (hlines : ∀ r ∈ taken, '\n' ∉ r.line)
    (h : polls.flatten = taken.map Record.emitted) :
    polls.flatMap (fun texts => readlines '\n' texts.flatten) = taken.map Record.emitted := by
  induction polls generalizing taken with
  | nil => exact h
  | cons texts polls ih =>
    rw [List.flatten_cons] at h
    obtain ⟨first, rest, rfl, htexts, hrest⟩ := List.append_eq_map_iff.mp h
    have hfree : ∀ l ∈ first.map Record.line, '\n' ∉ l := by
      intro l hl
      obtain ⟨r, hr, rfl⟩ := List.mem_map.mp hl
      exact hlines r (List.mem_append_left _ hr)
    have hended : ended '\n' (first.map Record.line) = first.map Record.emitted := List.map_map
    have hread := readlines_terminated hfree
    rw [terminated, hended] at hread
    rw [List.flatMap_cons, ← htexts, hread, ih (fun r hr => hlines r (List.mem_append_right _ hr)) hrest.symm,
      List.map_append]

theorem shown_emitted {levels : Option (List Text)} {moduleFilter : Option Text} {taken : List Record}
    (h : ∀ r ∈ taken, r.Tidy) : shown levels moduleFilter (taken.map Record.emitted) =
      (taken.filter fun r => shouldShow r levels moduleFilter).map Record.line := by
  induction taken with
  | nil => rfl
  | cons r taken ih =>
    obtain ⟨hr, hrest⟩ := List.forall_mem_cons.mp h
    have hparse := (parseLine_emitted hr.headed).mpr hr.ends
    have hih := ih hrest
    unfold shown at hih ⊢
    rw [List.map_cons, List.filterMap_cons, hparse, hih]
    by_cases hs : shouldShow r levels moduleFilter = true
    · simp [hs]
    · simp [hs]

/-- Some of the texts, none of them empty, with all the characters of all. -/
theorem eq_of_flatten_length {as bs : List Text} (h : as.Sublist bs) (hne : ∀ b ∈ bs, b ≠ [])
    (hl : as.flatten.length = bs.flatten.length) : as = bs := by
  induction h with
  | slnil => rfl
  | @cons as bs b hsub ih =>
    have hb := List.length_pos_iff.mpr (hne b List.mem_cons_self)
    have hle := hsub.flatten.length_le
    rw [List.flatten_cons, List.length_append] at hl
    omega
  | @cons_cons as bs b hsub ih =>
    simp only [List.flatten_cons, List.length_append, Nat.add_left_cancel_iff] at hl
    rw [ih (fun b hb => hne b (List.mem_cons_of_mem _ hb)) hl]

/-- In every run in which the handler writes whole records: those read and those unread are in order among
    those written, the ones read that pass the filter are shown as they were written, and none is missing
    exactly if no step loses anything. -/
theorem follows_records (levels : Option (List Text)) (moduleFilter : Option Text) (rotated : List Content)
    (current : Content) (named : Bool) (i : Nat) (hi : i ≤ rotated.length) (as : List Follow.Act) (s : Follow)
    (hr : run Follow.step (follow rotated current named i) as = some s) (records : List Record)
    (hw : s.written = records.map Record.emitted) (htidy : ∀ r ∈ records, r.Tidy) :
    ∃ taken waiting : List Record, (taken ++ waiting).Sublist records ∧
      s.read = taken.map Record.emitted ∧ s.unread = (waiting.map Record.emitted).flatten ∧
      shown levels moduleFilter s.read =
        (taken.filter fun r => shouldShow r levels moduleFilter).map Record.line ∧
      (taken ++ waiting = records ↔
        Obeys Follow.step (fun s a => s.lost a = []) (follow rotated current named i) as) := by
  obtain ⟨polls, pending, hread, hunread, hsub⟩ := (following_run hi hr).parts
  rw [hw] at hsub
  obtain ⟨among, hamong, he⟩ := List.sublist_map_iff.mp hsub
  obtain ⟨taken, waiting, rfl, htaken, hwaiting⟩ := List.append_eq_map_iff.mp he
  have htidy' : ∀ r ∈ taken, r.Tidy := fun r hr => htidy r (hamong.subset (List.mem_append_left _ hr))
  have hread' : s.read = taken.map Record.emitted := by
    rw [hread]
    exact readlines_emitted (fun r hr => (htidy' r hr).oneLine) htaken.symm
  refine ⟨taken, waiting, hamong, hread', by rw [hunread, ← hwaiting], by rw [hread']; exact shown_emitted htidy',
    ?_⟩
  have htext : s.read.flatten ++ s.unread = ((taken ++ waiting).map Record.emitted).flatten := by
    rw [hread', hunread, ← hwaiting, List.map_append, List.flatten_append]
  rw [← complete_iff_obeys hi hr]
  refine ⟨fun hall => ?_, fun hcomplete => ?_⟩
  · rw [hall, ← hw] at htext
    exact htext
  -- all the characters are there, so all the records
  have hmap : (taken ++ waiting).map Record.emitted = records.map Record.emitted := by
    refine eq_of_flatten_length (hamong.map _) (fun b hb => ?_) ?_
    · obtain ⟨r, -, rfl⟩ := List.mem_map.mp hb
      simp [Record.emitted]
    · rw [← htext, ← hw]
      exact congrArg List.length hcomplete
  exact hamong.eq_of_length (by simpa using congrArg List.length hmap)

/-- Only the error is asked for. -/
theorem follows_records_timelyRotation : ∃ (s : Follow) (taken waiting : List Record), s.read.length = 2 ∧
    (taken ++ waiting).Sublist [record 'I' ['u', 'p'], record 'E' ['n', 'o']] ∧
    shown (some [['E']]) none s.read = (taken.filter fun r => shouldShow r (some [['E']]) none).map Record.line := by
  have hrun : (run Follow.step (follow [] .empty true 0) timelyRotation).map (fun s =>
      decide (s.read.length = 2 ∧
        s.written = [record 'I' ['u', 'p'], record 'E' ['n', 'o']].map Record.emitted)) = some true := by
    decide +kernel
  obtain ⟨s, hs, hg⟩ := Option.map_eq_some_iff.mp hrun
  obtain ⟨hread, hwritten⟩ := of_decide_eq_true hg
  have hup : (record 'I' ['u', 'p']).Tidy :=
    ⟨⟨⟨by decide, by decide, by decide⟩, '0', [], rfl, by decide⟩, ⟨['u'], 'p', rfl, by decide⟩, by decide⟩
  have hno : (record 'E' ['n', 'o']).Tidy :=
    ⟨⟨⟨by decide, by decide, by decide⟩, '0', [], rfl, by decide⟩, ⟨['n'], 'o', rfl, by decide⟩, by decide⟩
  obtain ⟨taken, waiting, hamong, -, -, hshown, -⟩ := follows_records (some [['E']]) none [] .empty true 0 (by decide)
    timelyRotation s hs _ hwritten (by simp [hup, hno])
  exact ⟨s, taken, waiting, hread, hamong, hshown⟩

end Drv60870.LogViewer
