/-
  Drv60870.Server.Enforced — what an I-frame with a wrong number does.

  `handle_i_frame` compares `N(S)` with the expected number, writes an error and goes on:
  "Connection should be terminated". `SequenceEnforced` is what a run looks like when it is:
  such a frame has no effect, what is acknowledged came in sequence, and a command comes
  with the next number. Beside the run `Handled` is kept for every I-frame taken: the number
  it was met with, the one it left, the commands it caused and its answer.

  Proved:
  - A run is so exactly when no I-frame with another number was taken (`enforced_iff`).
  - The account says what the run did: its frames are those taken, in order, each met with
    the count of those before it (`Noted`), and the header alone moves that count
    (`procFrame_recSq`).
  - Without it the same frame twice operates the switch twice and is confirmed twice
    (`a_repeated_command_is_obeyed`).
-/

import Mathlib.Data.List.Induction
import Drv60870.Protocol.Commands
import Drv60870.Server.Frames
import Drv60870.Server.Sequence

namespace Drv60870.Server

open Lib.Octets Lib.Calendar Lib.Python Lib.Runs Drv60870.Const Protocol Conn

variable {σ : Type} {cb : Callbacks σ}

/-! ## The account -/

/-- What was made of an I-frame: the number it was met with and the one it left, and what it
    caused. -/
structure Handled where
  frame : Bytes
  expected : Nat
  next : Nat
  calls : List Command
  puts : List IecEvent
  result : Option (FrameType × Option Bytes)
  deriving DecidableEq

def Handled.of (cb : Callbacks σ) (s : Conn σ) (frame : Bytes) (now : Datetime) : Handled :=
  let r := procFrame cb now frame ⟨s.st, s.store, [], []⟩
  { frame
    expected := s.st.recSq
    next := r.2.st.recSq
    calls := commands cb now frame s.st s.store
    puts := r.2.puts
    result := r.1.toOption }

def Handled.note (cb : Callbacks σ) (s : Conn σ) (a : Act σ) (hs : List Handled) : List Handled :=
  match a with
  | .recv frame now => if numberedI frame then hs ++ [.of cb s frame now] else hs
  | _ => hs

/-! ## The rule -/

/-- No command, no interrogation, no answer, and no number taken for one; `client_rec` ends. -/
structure Handled.Ignored (h : Handled) : Prop where
  calls : h.calls = []
  puts : h.puts = []
  result : h.result = none
  next : h.next = h.expected

/-- How far a peer's frames got in sequence. -/
def inSequence (fs : List Bytes) : Nat :=
  fs.foldl (fun n f => if numberedI f ∧ nS f = n % seqMod then n + 1 else n) 0

/-- A written frame acknowledges what came in sequence. -/
def AcksInSequence (pre : List Obs) (o : Obs) : Prop :=
  ∀ f, o.written = some f → isI f = true ∨ isS f = true → nR f = inSequence (taken pre) % seqMod

/-- A command comes with the next number. -/
def CommandsInSequence (pre : List Handled) (h : Handled) : Prop :=
  h.calls ≠ [] → nS h.frame = inSequence (pre.map Handled.frame) % seqMod

structure SequenceEnforced (log : List Obs) (hs : List Handled) : Prop where
  ignored : ∀ h ∈ hs, nS h.frame ≠ h.expected → h.Ignored
  acks : Always AcksInSequence log
  commands : Always CommandsInSequence hs
  /-- No number of the sequence triggers twice. -/
  once : ∀ pre h mid h' post, hs = pre ++ h :: (mid ++ h' :: post) → h.calls ≠ [] → h'.calls ≠ [] →
    inSequence (pre.map Handled.frame) < inSequence ((pre ++ h :: mid).map Handled.frame)

/-! ## Sequences -/

theorem inSequence_snoc (fs : List Bytes) (f : Bytes) : inSequence (fs ++ [f]) =
    if numberedI f ∧ nS f = inSequence fs % seqMod then inSequence fs + 1 else inSequence fs := by
  rw [inSequence, List.foldl_append]
  rfl

theorem inSequence_mono (fs gs : List Bytes) : inSequence fs ≤ inSequence (fs ++ gs) := by
  induction gs using List.reverseRecOn with
  | nil => rw [List.append_nil]
  | append_singleton gs f ih =>
    rw [← List.append_assoc, inSequence_snoc]
    split
    · omega
    · exact ih

def Consecutive (fs : List Bytes) : Prop := Always (fun pre f => nS f = pre.length % seqMod) fs

theorem inSequence_filter (fs : List Bytes) : inSequence (fs.filter numberedI) = inSequence fs := by
  induction fs using List.reverseRecOn with
  | nil => rfl
  | append_singleton fs f ih =>
    rw [inSequence_snoc, List.filter_append]
    cases hn : numberedI f with
    | false => simpa [hn] using ih
    | true => simp only [List.filter_cons, hn, if_true, List.filter_nil, inSequence_snoc, ih]

theorem inSequence_consecutive {fs : List Bytes} (hn : ∀ f ∈ fs, numberedI f = true) (h : Consecutive fs) :
    inSequence fs = fs.length := by
  induction fs using List.reverseRecOn with
  | nil => rfl
  | append_singleton fs f ih =>
    obtain ⟨hfs, hf⟩ := always_snoc.mp h
    have ih := ih (fun g hg => hn g (List.mem_append_left _ hg)) hfs
    have hfn : numberedI f = true := hn f (List.mem_append_right _ (List.mem_singleton.mpr rfl))
    rw [inSequence_snoc, ih, if_pos ⟨hfn, hf⟩, List.length_append, List.length_singleton]

/-- A command under `CommandsInSequence` uses its number up. -/
theorem once_of_commands {hs : List Handled} (hn : ∀ h ∈ hs, numberedI h.frame = true)
    (hc : Always CommandsInSequence hs) : ∀ pre h mid h' post, hs = pre ++ h :: (mid ++ h' :: post) →
      h.calls ≠ [] → h'.calls ≠ [] →
      inSequence (pre.map Handled.frame) < inSequence ((pre ++ h :: mid).map Handled.frame) := by
  intro pre h mid h' post he hcmd _
  have hnext := hc pre h _ he hcmd
  have hfn : numberedI h.frame = true := hn h (by rw [he]; simp)
  rw [List.map_append, List.map_cons, List.append_cons]
  apply Nat.lt_of_lt_of_le _ (inSequence_mono _ _)
  rw [inSequence_snoc, if_pos ⟨hfn, hnext⟩]
  exact Nat.lt_succ_self _

/-! ## The invariant -/

/-- The account of a run: every I-frame taken, met with the count of those before it. -/
structure Noted (s : Conn σ) (hs : List Handled) : Prop where
  numbered : Numbered s
  frames : hs.map Handled.frame = (taken s.log).filter numberedI
  expected : Always (fun pre h => h.expected = pre.length % seqMod) hs
  next : ∀ h ∈ hs, h.next = (h.expected + 1) % seqMod

theorem iTaken_eq (log : List Obs) : iTaken log = ((taken log).filter numberedI).length := by
  rw [← List.countP_eq_length_filter, taken, List.countP_filterMap, iTaken]
  apply List.countP_congr
  intro o _
  cases o <;> simp [Obs.takesI, Obs.taken]

theorem note_takes (s : Conn σ) (a : Act σ) (hs : List Handled) :
    (Handled.note cb s a hs).map Handled.frame = hs.map Handled.frame ++ a.takes.filter numberedI := by
  cases a with
  | recv frame now =>
    rw [Handled.note]
    cases hn : numberedI frame with
    | true => simp [Act.takes, hn, Handled.of]
    | false => simp [Act.takes, hn]
  | _ => exact (List.append_nil _).symm

/-- The header of an I-frame takes its number, whatever becomes of it. -/
theorem procFrame_recSq {frame : Bytes} {now : Datetime} {c : Ctx σ} (hn : numberedI frame = true) :
    (procFrame cb now frame c).2.st.recSq = (c.st.recSq + 1) % seqMod := by
  have hnoted : (noted frame c.st).recSq = (c.st.recSq + 1) % seqMod := by rw [noted, hn]; rfl
  have hr : procFrame cb now frame c = ((procFrame cb now frame c).1, (procFrame cb now frame c).2) := rfl
  rcases procFrame_cases hr with ⟨-, -, hst⟩ | ⟨-, hst⟩
  · rw [hst]
    exact hnoted
  · rw [hst]
    exact hnoted

theorem noted_move {s s' : Conn σ} {a : Act σ} {hs : List Handled} (h : Noted s hs)
    (hstep : step cb s a = some s') : Noted s' (Handled.note cb s a hs) := by
  have hm := step_move hstep
  obtain ⟨os, hlog, hos⟩ := hm.log
  have hframes : (Handled.note cb s a hs).map Handled.frame = (taken s'.log).filter numberedI := by
    rw [note_takes, hlog, taken_append, hos, List.filter_append, h.frames]
  have hlen : hs.length = iTaken s.log := by
    rw [iTaken_eq, ← h.frames, List.length_map]
  refine ⟨numbered_move h.numbered hm, hframes, ?_, ?_⟩
  · unfold Handled.note
    split
    · split
      · refine always_snoc.mpr ⟨h.expected, ?_⟩
        rw [hlen]
        exact h.numbered.recSq
      · exact h.expected
    · exact h.expected
  · unfold Handled.note
    split
    · split
      · rename_i frame now hn
        intro x hx
        rcases List.mem_append.mp hx with hx | hx
        · exact h.next x hx
        · rw [List.mem_singleton.mp hx]
          exact procFrame_recSq hn
      · exact h.next
    · exact h.next

theorem noted_start (conf : Conf) (ca : Int) (store : σ) (que : List IecEvent) :
    Noted (start (createClientState conf ca) store que) [] :=
  ⟨numbered_start rfl rfl store que, by rw [taken_start]; rfl, always_nil, fun x hx => by cases hx⟩

theorem noted_run {conf : Conf} {ca : Int} {store : σ} {que : List IecEvent} {s : Conn σ} {hs : List Handled}
    (h : Reach (audited (step cb) (Handled.note cb)) anyway (start (createClientState conf ca) store que, []) (s, hs)) :
    Noted s hs := by
  refine h.inv (P := fun p => Noted p.1 p.2) (noted_start conf ca store que) ?_
  intro p a p' hp _ hstep
  obtain ⟨hs, hg⟩ := audited_some hstep
  rw [hg]
  exact noted_move hp hs

/-- In every run of a connection. -/
theorem enforced_iff (cb : Callbacks σ) (conf : Conf) (ca : Int) (store : σ) (que : List IecEvent) (s : Conn σ)
    (hs : List Handled)
    (h : Reach (audited (step cb) (Handled.note cb)) anyway (start (createClientState conf ca) store que, []) (s, hs)) :
    SequenceEnforced s.log hs ↔ ∀ h ∈ hs, nS h.frame = h.expected := by
  have hinv := noted_run h
  constructor
  · intro he x hx
    by_cases hne : nS x.frame = x.expected
    · exact hne
    · have hnext := (he.ignored x hx hne).next
      rw [hinv.next x hx] at hnext
      simp only [seqMod] at hnext
      omega
  · intro hall
    have hnum : ∀ x ∈ hs, numberedI x.frame = true := by
      intro x hx
      have hm : x.frame ∈ (taken s.log).filter numberedI := by
        rw [← hinv.frames]
        exact List.mem_map_of_mem hx
      exact (List.mem_filter.mp hm).2
    have hcons : ∀ pre post, hs = pre ++ post → inSequence (pre.map Handled.frame) = pre.length := by
      intro pre post he
      rw [inSequence_consecutive, List.length_map]
      · intro f hf
        obtain ⟨x, hx, rfl⟩ := List.mem_map.mp hf
        exact hnum x (by rw [he]; exact List.mem_append_left _ hx)
      · intro p f q hpq
        obtain ⟨p', q', rfl, hp', hq'⟩ := List.map_eq_append_iff.mp hpq
        obtain ⟨x, q'', rfl, rfl, -⟩ := List.map_eq_cons_iff.mp hq'
        have hexp := hinv.expected p' x (q'' ++ post) (by rw [he, List.append_assoc, List.cons_append])
        rw [hall x (by rw [he]; simp), hexp, ← hp', List.length_map]
    have hcmds : Always CommandsInSequence hs := by
      intro pre x post he _
      rw [hcons pre _ he, hall x (by rw [he]; simp)]
      exact hinv.expected pre x post he
    refine ⟨fun x hx hne => absurd (hall x hx) hne, ?_, hcmds, once_of_commands hnum hcmds⟩
    intro pre o post he f hf hIS
    rw [(hinv.numbered.wire pre o post he f hf).2 hIS]
    -- the frames taken before it are the first of the account
    have hpre : hs.map Handled.frame = (taken pre).filter numberedI ++ (taken (o :: post)).filter numberedI := by
      rw [hinv.frames, he, taken_append, List.filter_append]
    obtain ⟨p, q, hpq, hp, -⟩ := List.map_eq_append_iff.mp hpre
    rw [iTaken_eq, ← inSequence_filter, ← hp, hcons p q hpq, List.length_map]

def obedient : Callbacks Unit := ⟨some fun _ _ store => (true, [], store), none⟩

def closeSwitch (n : UInt8) : Bytes :=
  [0x68, 0x0E, 2 * n, 0x00, 0x00, 0x00, 0x2D, 0x01, 0x06, 0x00, 0x01, 0x00, 0x31, 0x00, 0x00, 0x01]

/-- The same frame twice: the switch is operated twice, and confirmed twice. -/
theorem a_repeated_command_is_obeyed :
    ¬ ∀ (cb : Callbacks Unit) (s : Conn Unit) (hs : List Handled),
      Reach (audited (step cb) (Handled.note cb)) anyway (start (createClientState kp1Conf 1) () [], []) (s, hs) →
      SequenceEnforced s.log hs := by
  intro hall
  have hrun : (run (audited (step obedient) (Handled.note obedient)) (start (createClientState kp1Conf 1) () [], [])
      [.recv (closeSwitch 0) sampleTime, .handle, .recv (closeSwitch 0) sampleTime]).map
        (fun p => p.2.map fun h => (nS h.frame, h.expected, h.calls)) =
      some [(0, 0, [(.int 1, 49)]), (0, 1, [(.int 1, 49)])] := by decide
  obtain ⟨⟨s, hs⟩, hr, he⟩ := exists_of_run _ hrun
  obtain ⟨h, l, rfl, -, hl⟩ := List.map_eq_cons_iff.mp he
  obtain ⟨h', l', rfl, hh', -⟩ := List.map_eq_cons_iff.mp hl
  simp only [Prod.mk.injEq] at hh'
  have hi := (hall obedient s _ hr).ignored h' (by simp) (by rw [hh'.1, hh'.2.1]; decide)
  have hc := hi.calls
  rw [hh'.2.2] at hc
  cases hc

theorem enforced_iff_numbered : ∃ (s : Conn Unit) (hs : List Handled), hs.length = 2 ∧
    (SequenceEnforced s.log hs ↔ ∀ h ∈ hs, nS h.frame = h.expected) := by
  have hrun : (run (audited (step obedient) (Handled.note obedient)) (start (createClientState kp1Conf 1) () [], [])
      [.recv (closeSwitch 0) sampleTime, .handle, .recv (closeSwitch 1) sampleTime]).map
        (fun p => p.2.length) = some 2 := by decide
  obtain ⟨⟨s, hs⟩, hr, hl⟩ := exists_of_run _ hrun
  exact ⟨s, hs, hl, enforced_iff obedient kp1Conf 1 () [] s hs hr⟩

end Drv60870.Server
