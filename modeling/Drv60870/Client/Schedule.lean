/-
  Drv60870.Client.Schedule — when a session acknowledges (`client.py`, `process_frame`).

  An S-frame answers every `prot_w`-th I-frame, whatever S- and U-frames come between, and
  carries the number of I-frames so far; the two counters are that number modulo `prot_w`
  and modulo 32768 (`Counting`). `answers` says what is sent from the frames alone.

  Proved:
  - One frame keeps the counters (`process_counting`), and an S-frame says how many I-frames
    were taken (`answer_numbers`).
  - For every sequence of frames the session sends exactly these answers (`on_schedule`).
-/

import Mathlib.Data.List.Intervals
import Drv60870.Lib.Cyclic
import Drv60870.Client.SessionProofs

namespace Drv60870.Client

open Lib.Octets Lib.Cyclic Lib.Python Drv60870.Const Protocol

def processAll (onData : Bool) (st : ClientState) : List Bytes → Except PyErr (ClientState × List (Option Bytes))
  | [] => return (st, [])
  | f :: fs => do
    let p := processFrame onData st f
    p.result
    let (st, replies) ← processAll onData p.st fs
    return (st, p.reply :: replies)

/-! ## The schedule -/

def iFrames (frames : List Bytes) : Nat := frames.countP isI

theorem iFrames_single (f : Bytes) : iFrames [f] = if isI f then 1 else 0 := by
  rw [iFrames, List.countP_singleton]

theorem iFrames_cons (f : Bytes) (fs : List Bytes) : iFrames (f :: fs) = iFrames [f] + iFrames fs := by
  rw [iFrames, iFrames, iFrames, ← List.countP_append]
  rfl

def answer (w n : Nat) (f : Bytes) : Option Bytes :=
  if isI f then if n % w = 0 then some (sFrame (n % seqMod)) else none
  else if uFunction f = some .testfrAct then uResp .testfrAct
  else none

structure OnSchedule (w : Nat) (frames : List Bytes) (st : ClientState) (replies : List (Option Bytes)) : Prop where
  length : replies.length = frames.length
  /-- An S-frame after every `w`-th I-frame and at no other time, and a test frame confirmed. -/
  answered : ∀ i f, frames[i]? = some f → replies[i]? = some (answer w (iFrames (frames.take (i + 1))) f)
  /-- The S-frames that are sent, by their `N(R)`. -/
  numbers : ((replies.filterMap id).filter isS).map nR =
    (List.range (iFrames frames / w)).map fun j => (j + 1) * w % seqMod
  pending : st.recCountSinceSend = iFrames frames % w
  pending_lt : st.recCountSinceSend < w
  recSq : st.recSq = iFrames frames % seqMod

/-! ## One frame -/

structure Counting (w n : Nat) (st : ClientState) : Prop where
  conf : st.conf.protW = w
  recSq : st.recSq = n % seqMod
  pending : st.recCountSinceSend = n % w

/-- A U- or S-frame is answered if it is a test frame. -/
theorem process_other (onData : Bool) (st : ClientState) {f : Bytes} (h6 : 6 ≤ f.length) (hI : isI f = false)
    (w n : Nat) :
    (processFrame onData st f).result = .ok () ∧ (processFrame onData st f).reply = answer w n f := by
  have hans : answer w n f = if uFunction f = some .testfrAct then uResp .testfrAct else none := by
    rw [answer, hI]
    rfl
  rw [hans]
  cases control_cases f with
  | information hn =>
    rw [numberedI, hI] at hn
    cases hn
  | supervisory hS =>
    have hU : isU f = false := by
      simp only [numberedS, Bool.and_eq_true] at hS
      exact (only_S hS.1).2
    have hfun : uFunction f = none := by rw [uFunction, hU]; rfl
    rw [processFrame_S onData st hS, hfun]
    exact ⟨rfl, rfl⟩
  | unnumbered hU =>
    rw [processFrame_U onData st hU]
    exact ⟨rfl, rfl⟩
  | short hU hshort => omega

theorem succ_mod {w n : Nat} (hw : 0 < w) : (n + 1) % w = if n % w + 1 ≥ w then 0 else n % w + 1 := by
  have hlt : n % w < w := Nat.mod_lt n hw
  rw [← advance]
  split
  · have he : n % w + 1 = w := by omega
    rw [he, Nat.mod_self]
  · exact Nat.mod_eq_of_lt (by omega)

theorem process_counting {w n : Nat} (hw : 0 < w) {onData : Bool} {st : ClientState} {f : Bytes} (h : Counting w n st)
    (h6 : 6 ≤ f.length) (hdec : onData = true → isI f = true → ∃ objs, decodeIFrameObjects f = .ok objs) :
    (processFrame onData st f).result = .ok () ∧
      Counting w (n + iFrames [f]) (processFrame onData st f).st ∧
      (processFrame onData st f).reply = answer w (n + iFrames [f]) f := by
  cases hI : isI f with
  | true =>
    have hone : iFrames [f] = 1 := by rw [iFrames_single, if_pos hI]
    have hn : numberedI f = true := by rw [numberedI, hI, decide_eq_true h6]; rfl
    have hdel : delivered onData f = .ok () := by
      unfold delivered
      split
      · rename_i hon
        obtain ⟨objs, hobjs⟩ := hdec hon hI
        rw [hobjs]
        rfl
      · rfl
    have hrec : (st.recSq + 1) % seqMod = (n + 1) % seqMod := by rw [h.recSq, advance]
    rw [processFrame_I onData st hn, hone, answer, if_pos hI, h.pending, h.conf, succ_mod hw]
    by_cases hack : n % w + 1 ≥ w
    · rw [if_pos hack, if_pos hack, if_pos rfl]
      exact ⟨hdel, ⟨h.conf, hrec, by rw [succ_mod hw, if_pos hack]⟩, by rw [← hrec]; rfl⟩
    · rw [if_neg hack, if_neg hack, if_neg (Nat.succ_ne_zero _)]
      exact ⟨hdel, ⟨h.conf, hrec, by rw [succ_mod hw, if_neg hack, ← h.pending]; rfl⟩, rfl⟩
  | false =>
    have hzero : iFrames [f] = 0 := by rw [iFrames_single, if_neg (by rw [hI]; decide)]
    have hn : numberedI f = false := by rw [numberedI, hI]; rfl
    obtain ⟨hok, hreply⟩ := process_other onData st h6 hI w n
    obtain ⟨hconf, -, hrec, hcount⟩ := (processFrame_other onData st hn).1
    rw [hzero, Nat.add_zero]
    exact ⟨hok, ⟨by rw [hconf]; exact h.conf, by rw [hrec]; exact h.recSq, by rw [hcount]; exact h.pending⟩, hreply⟩

/-! ## All frames -/

def answers (w : Nat) : Nat → List Bytes → List (Option Bytes)
  | _, [] => []
  | n, f :: fs => answer w (n + iFrames [f]) f :: answers w (n + iFrames [f]) fs

theorem length_answers (w : Nat) : ∀ (fs : List Bytes) (n : Nat), (answers w n fs).length = fs.length := by
  intro fs
  induction fs with
  | nil => exact fun n => rfl
  | cons f fs ih => intro n; rw [answers, List.length_cons, ih, List.length_cons]

theorem answers_get (w : Nat) : ∀ (fs : List Bytes) (n i : Nat) (f : Bytes), fs[i]? = some f →
    (answers w n fs)[i]? = some (answer w (n + iFrames (fs.take (i + 1))) f) := by
  intro fs
  induction fs with
  | nil => intro n i f h; cases h
  | cons g fs ih =>
    intro n i f h
    cases i with
    | zero =>
      cases h
      rfl
    | succ i =>
      rw [answers, List.getElem?_cons_succ, ih _ i f h, List.take_succ_cons, iFrames_cons g (fs.take (i + 1)),
        Nat.add_assoc]

/-- One frame's part in the S-frames that are sent. -/
theorem answer_numbers (w n : Nat) (f : Bytes) :
    (([answer w (n + iFrames [f]) f].filterMap id).filter isS).map nR =
      (List.Ico (n / w) ((n + iFrames [f]) / w)).map fun j => (j + 1) * w % seqMod := by
  rw [iFrames_single]
  cases hI : isI f with
  | true =>
    rw [if_pos rfl, answer, if_pos hI]
    by_cases hm : (n + 1) % w = 0
    · have hd : w ∣ n + 1 := Nat.dvd_of_mod_eq_zero hm
      have hdiv : (n + 1) / w = n / w + 1 := Nat.succ_div_of_dvd hd
      have hmul : (n / w + 1) * w = n + 1 := by rw [← hdiv, Nat.div_mul_cancel hd]
      have hlt : (n + 1) % seqMod < seqMod := Nat.mod_lt _ (by decide)
      have hone : ([some (sFrame ((n + 1) % seqMod))].filterMap id).filter isS = [sFrame ((n + 1) % seqMod)] := rfl
      rw [if_pos hm, hdiv, hone, List.map_singleton, nR_sFrame hlt, List.Ico.succ_singleton, List.map_singleton, hmul]
    · have hd : ¬ w ∣ n + 1 := fun hd => hm (Nat.mod_eq_zero_of_dvd hd)
      rw [if_neg hm, Nat.succ_div_of_not_dvd hd, List.Ico.self_empty]
      rfl
  | false =>
    have hnone : ([answer w n f].filterMap id).filter isS = [] := by
      rw [answer, hI]
      by_cases hu : uFunction f = some .testfrAct
      · rw [if_neg (by decide), if_pos hu]
        rfl
      · rw [if_neg (by decide), if_neg hu]
        rfl
    rw [if_neg (by decide), Nat.add_zero, hnone, List.Ico.self_empty]
    rfl

theorem answers_numbers (w : Nat) : ∀ (fs : List Bytes) (n : Nat),
    (((answers w n fs).filterMap id).filter isS).map nR =
      (List.Ico (n / w) ((n + iFrames fs) / w)).map fun j => (j + 1) * w % seqMod := by
  intro fs
  induction fs with
  | nil =>
    intro n
    rw [show n + iFrames [] = n from rfl, List.Ico.self_empty]
    rfl
  | cons f fs ih =>
    intro n
    have hle : n / w ≤ (n + iFrames [f]) / w := Nat.div_le_div_right (Nat.le_add_right _ _)
    have hle' : (n + iFrames [f]) / w ≤ (n + iFrames [f] + iFrames fs) / w :=
      Nat.div_le_div_right (Nat.le_add_right _ _)
    have hsplit : answers w n (f :: fs) = [answer w (n + iFrames [f]) f] ++ answers w (n + iFrames [f]) fs := rfl
    rw [hsplit, List.filterMap_append, List.filter_append, List.map_append, answer_numbers, ih, iFrames_cons f fs,
      ← Nat.add_assoc, ← List.Ico.append_consecutive hle hle', List.map_append]

theorem processAll_cons {onData : Bool} {st st' : ClientState} {f : Bytes} {fs : List Bytes}
    {replies : List (Option Bytes)} (hok : (processFrame onData st f).result = .ok ())
    (hall : processAll onData (processFrame onData st f).st fs = .ok (st', replies)) :
    processAll onData st (f :: fs) = .ok (st', (processFrame onData st f).reply :: replies) := by
  simp [processAll, hok, hall, bind, Except.bind, pure, Except.pure]

theorem processAll_counting {w : Nat} (hw : 0 < w) {onData : Bool} : ∀ (fs : List Bytes) (n : Nat) (st : ClientState),
    Counting w n st → (∀ f ∈ fs, 6 ≤ f.length) →
    (∀ f ∈ fs, onData = true → isI f = true → ∃ objs, decodeIFrameObjects f = .ok objs) →
    ∃ st', processAll onData st fs = .ok (st', answers w n fs) ∧ Counting w (n + iFrames fs) st' := by
  intro fs
  induction fs with
  | nil => exact fun n st h _ _ => ⟨st, rfl, h⟩
  | cons f fs ih =>
    intro n st h h6 hdec
    obtain ⟨h6f, h6⟩ := List.forall_mem_cons.mp h6
    obtain ⟨hdecf, hdec⟩ := List.forall_mem_cons.mp hdec
    obtain ⟨hok, hcount, hreply⟩ := process_counting hw h h6f hdecf
    obtain ⟨st', hall, hcount'⟩ := ih _ _ hcount h6 hdec
    refine ⟨st', ?_, by rw [iFrames_cons, ← Nat.add_assoc]; exact hcount'⟩
    rw [processAll_cons hok hall, hreply]
    rfl

/-- Every sequence of frames is answered on schedule. -/
theorem on_schedule (conf : Conf) (ca : Int) (onData : Bool) (frames : List Bytes) (hw : 1 ≤ conf.protW)
    (h6 : ∀ f ∈ frames, 6 ≤ f.length)
    (hdec : ∀ f ∈ frames, onData = true → isI f = true → ∃ objs, decodeIFrameObjects f = .ok objs) :
    ∃ st replies, processAll onData (createClientState conf ca) frames = .ok (st, replies) ∧
      OnSchedule conf.protW frames st replies := by
  have h0 : Counting conf.protW 0 (createClientState conf ca) := ⟨rfl, rfl, (Nat.zero_mod _).symm⟩
  obtain ⟨st, hall, hcount⟩ := processAll_counting hw frames 0 _ h0 h6 hdec
  rw [Nat.zero_add] at hcount
  refine ⟨st, _, hall, length_answers _ _ _, fun i f hf => ?_, ?_, hcount.pending, ?_, hcount.recSq⟩
  · rw [answers_get _ _ _ _ _ hf, Nat.zero_add]
  · rw [answers_numbers, Nat.zero_add, Nat.zero_div, List.Ico.zero_bot]
  · rw [hcount.pending]
    exact Nat.mod_lt _ hw

def sampleFrames : List Bytes :=
  [iFrame 0 0 [45, 1, 7, 0, 1, 0, 100, 0, 0, 1], testfrAct, iFrame 1 0 [100, 1, 10, 0, 1, 0, 0, 0, 0, 20],
    [0x68, 0x04, 0xFF, 0x00, 0x00, 0x00], sFrame 5]

theorem on_schedule_sample : ∃ st, processAll true (createClientState { kp1Conf with protW := 2 } 1) sampleFrames =
      .ok (st, [none, uResp .testfrAct, some (sFrame 2), none, none]) ∧
    OnSchedule 2 sampleFrames st [none, uResp .testfrAct, some (sFrame 2), none, none] := by
  have hdec : ∀ f ∈ sampleFrames, (decodeIFrameObjects f).isOk = true := by decide
  obtain ⟨st, replies, hall, hs⟩ := on_schedule { kp1Conf with protW := 2 } 1 true sampleFrames (by decide) (by decide)
    (by
      intro f hf _ _
      have hok := hdec f hf
      cases hd : decodeIFrameObjects f with
      | ok objs => exact ⟨objs, rfl⟩
      | error e =>
        rw [hd] at hok
        cases hok)
  have hrun : (processAll true (createClientState { kp1Conf with protW := 2 } 1) sampleFrames).map Prod.snd =
      .ok [none, uResp .testfrAct, some (sFrame 2), none, none] := by decide
  rw [hall] at hrun
  cases hrun
  exact ⟨st, hall, hs⟩

end Drv60870.Client
