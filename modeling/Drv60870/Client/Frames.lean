/-
  Drv60870.Client.Frames — the frames a session writes and takes, and the last `N(R)` it
  gave.

  An S-frame acknowledges everything processed; an interrogation what was processed when
  it was built. `Acknowledging` bounds how far the last `N(R)` is behind: by the frames
  processed since the last S-frame, and by what a queued interrogation may be late.

  Proved:
  - Every step keeps the bound, with `w` at least 1, as long as each interrogation is written
    within its bound (`acknowledging_move`).
  - Whatever a session writes is a whole frame, so the server can cut it off the stream
    (`Tracked.whole`).
-/

import Drv60870.Client.Sequence

namespace Drv60870.Client

open Lib.Octets Lib.Calendar Lib.Runs Drv60870.Const Protocol Session

def Obs.taken : Obs → Option Bytes
  | .got f => some f
  | _ => none

def written (log : List Obs) : List Bytes := log.filterMap Obs.written
def taken (log : List Obs) : List Bytes := log.filterMap Obs.taken

theorem written_append (log os : List Obs) : written (log ++ os) = written log ++ written os := List.filterMap_append
theorem taken_append (log os : List Obs) : taken (log ++ os) = taken log ++ taken os := List.filterMap_append

theorem iTaken_eq (log : List Obs) : iTaken log = (taken log).countP numberedI := by
  rw [taken, List.countP_filterMap]
  refine List.countP_congr fun o _ => ?_
  cases o <;> rfl

theorem iWritten_eq (log : List Obs) : iWritten log = (written log).countP isI := by
  rw [written, List.countP_filterMap]
  rfl

def Act.takes : Act → List Bytes
  | .recv f => [f]
  | _ => []

theorem Move.log {s s' : Session} {a : Act} (hm : Move s a s') :
    ∃ os, s'.log = s.log ++ os ∧ taken os = a.takes := by
  cases hm with
  | testfr => exact ⟨[.sent ⟨testfrAct, none⟩], rfl, rfl⟩
  | write c packet => exact ⟨[.sent packet], rfl, rfl⟩
  | count f | pass f => exact ⟨[.got f], rfl, rfl⟩
  | ack f => exact ⟨[.got f, .reply (sFrame (counted f s.st).recSq)], List.append_assoc _ _ _, rfl⟩
  | confirm f st alive g => exact ⟨[.got f, .reply g], List.append_assoc _ _ _, rfl⟩
  | _ => exact ⟨[], (List.append_nil _).symm, rfl⟩

theorem Tracked.whole {s : Session} (h : Tracked s) : ∀ f ∈ written s.log, Whole f := by
  intro f hf
  obtain ⟨o, ho, he⟩ := List.mem_filterMap.mp hf
  obtain ⟨pre, post, hlog⟩ := List.append_of_mem ho
  have hl := h.wire pre o post hlog
  match o, hl, he with
  | .sent p, hl, he =>
    cases he
    exact hl.whole
  | .reply g, hl, he =>
    cases he
    rcases hl with hu | rfl
    · cases hu
      exact ⟨by decide, by decide⟩
    · exact whole_sFrame _

/-! ## The last N(R) -/

/-- An interrogation is written whose `N(R)` is at most `d` behind the last S-frame. -/
def recent (d : Nat) (s : Session) : Act → Bool
  | .send _ =>
    match s.sender with
    | .holding ⟨_, some t⟩ => decide (iTaken s.log ≤ t.taken + s.st.recCountSinceSend + d)
    | _ => true
  | _ => true

structure Acknowledging (w d : Nat) (s : Session) : Prop where
  conf : s.st.conf.protW = w
  count : s.st.recCountSinceSend < w
  last : ∃ r, lastNr (written s.log) = r % seqMod ∧ r ≤ iTaken s.log ∧
    iTaken s.log ≤ r + s.st.recCountSinceSend + d

/-- A frame without an `N(R)` does not change the last one. -/
theorem lastNr_isU (fs : List Bytes) {f : Bytes} (h : isU f = true) : lastNr (fs ++ [f]) = lastNr fs := by
  obtain ⟨hI, hS⟩ := only_U h
  simp [lastNr_snoc, numberedI, numberedS, hI, hS]

/-- A step that neither gives an `N(R)` nor takes an I-frame. -/
theorem Acknowledging.keeps {w d : Nat} {s s' : Session} (h : Acknowledging w d s)
    (hc : s'.st.conf = s.st.conf) (hn : s'.st.recCountSinceSend = s.st.recCountSinceSend)
    (hw : lastNr (written s'.log) = lastNr (written s.log)) (ht : iTaken s'.log = iTaken s.log) :
    Acknowledging w d s' := by
  refine ⟨by rw [hc]; exact h.conf, by rw [hn]; exact h.count, ?_⟩
  rw [hw, ht, hn]
  exact h.last

theorem written_got (log : List Obs) (f : Bytes) : written (log ++ [.got f]) = written log := by
  rw [written_append]
  exact List.append_nil _

theorem written_sent (log : List Obs) (p : Packet) : written (log ++ [.sent p]) = written log ++ [p.octets] :=
  written_append log [.sent p]

theorem written_reply (log : List Obs) (f : Bytes) : written (log ++ [.reply f]) = written log ++ [f] :=
  written_append log [.reply f]

theorem acknowledging_move {w d : Nat} (hw : 1 ≤ w) {s s' : Session} {a : Act} (ht : Tracked s)
    (h : Acknowledging w d s) (hok : recent d s a = true) (hm : Move s a s') : Acknowledging w d s' := by
  obtain ⟨r, hr, hle, hge⟩ := h.last
  cases hm with
  | startdt | gi | build | drop | enqueue | get | stop => exact ⟨h.conf, h.count, h.last⟩
  | wait c hpc => exact h
  | testfr c hpc =>
    refine h.keeps rfl rfl ?_ (iTaken_snoc s.log _)
    rw [written_sent]
    exact lastNr_isU _ whole_testfrAct.1
  | write c packet hpc =>
    obtain ⟨hconf, -, hcount⟩ := afterSend_same s.st packet.octets
    have hf := ht.way.waiting packet (.inr (.inr hpc))
    have htake : iTaken (s.log ++ [.sent packet]) = iTaken s.log := iTaken_snoc s.log _
    match packet, hf, hpc with
    | ⟨f, none⟩, hf, _ =>
      refine h.keeps hconf hcount ?_ htake
      rw [written_sent]
      exact lastNr_isU _ hf.1
    | ⟨f, some t⟩, ⟨_, htk, asdu, _, hfr⟩, hpc =>
      -- an interrogation gives the number it was built with
      subst hfr
      have hnum : numberedI (iFrame (t.written % seqMod) (t.taken % seqMod) asdu) = true := by
        simp [numberedI, isI_iFrame]
      refine ⟨by rw [hconf]; exact h.conf, by rw [hcount]; exact h.count, t.taken, ?_, ?_, ?_⟩
      · rw [written_sent, lastNr_snoc, hnum]
        exact nR_iFrame _ asdu (Nat.mod_lt _ (by decide))
      · rw [htake]
        exact htk
      · rw [htake, hcount]
        simpa [recent, hpc] using hok
  | count f alive hf hn hlt =>
    have htake : iTaken (s.log ++ [.got f]) = iTaken s.log + 1 := by simp [iTaken_snoc, Obs.takesI, hn]
    refine ⟨h.conf, ?_, r, ?_, ?_, ?_⟩
    · rw [← h.conf]
      exact hlt
    · rw [written_got]
      exact hr
    · rw [htake]
      omega
    · rw [htake]
      simp only [counted]
      omega
  | ack f alive hf hn hlt =>
    have htake : iTaken (s.log ++ [.got f] ++ [.reply (sFrame (counted f s.st).recSq)]) = iTaken s.log + 1 := by
      rw [iTaken_snoc, iTaken_snoc]
      simp [Obs.takesI, hn]
    have hrec : (counted f s.st).recSq = (iTaken s.log + 1) % seqMod := by
      simp only [counted, ht.recSq]
      exact Lib.Cyclic.advance _
    refine ⟨h.conf, hw, iTaken s.log + 1, ?_, ?_, ?_⟩
    · have hS : numberedS (sFrame (counted f s.st).recSq) = true := by simp [numberedS, isS_sFrame]
      rw [written_reply, lastNr_snoc, hS, Bool.or_true, if_pos rfl, hrec]
      exact nR_sFrame (Nat.mod_lt _ (by decide))
    · rw [htake]
    · rw [htake]
      omega
  | pass f st alive hf hn hs =>
    apply h.keeps hs.conf hs.recCount
    · rw [written_got]
    · rw [iTaken_snoc]
      simp [Obs.takesI, hn]
  | confirm f st alive g hf hn hs hg =>
    apply h.keeps hs.conf hs.recCount
    · rw [written_reply, written_got]
      exact lastNr_isU _ (isU_uResp hg)
    · rw [iTaken_snoc, iTaken_snoc]
      simp [Obs.takesI, hn]

theorem acknowledging_start {conf : Conf} (hw : 1 ≤ conf.protW) (ca : Int) (onData : Bool) (d : Nat) :
    Acknowledging conf.protW d (start (createClientState conf ca) onData) :=
  ⟨rfl, hw, 0, rfl, Nat.le_refl _, Nat.zero_le _⟩

end Drv60870.Client
