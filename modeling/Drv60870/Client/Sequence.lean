/-
  Drv60870.Client.Sequence — the sequence numbers of a session.

  `Tracked` ties both counters to the history, and every packet under way to the numbers it
  was built with: they are those of the moment `api.gi` read them. A packet is `Fresh` when
  since that moment none or a whole cycle of I-frames was written, and processed.

  Proved:
  - Every step keeps it (`tracked_move`).
  - In every run the frames on the wire carry the counts of what was written and processed
    before them exactly when every packet is fresh as it is written (`wire_numbers_iff`).
  - It is not so in general: with two interrogations built before the first is sent, both
    carry `N(S) = 0` (`two_interrogations_share_a_number`).
-/

import Drv60870.Lib.Cyclic
import Drv60870.Client.SessionProofs

namespace Drv60870.Client

open Lib.Octets Lib.Calendar Lib.Cyclic Lib.Runs Drv60870.Const Protocol Session

def OnWire (pre : List Obs) (o : Obs) : Prop := ∀ f, o.written = some f → Numbers (iWritten pre) (iTaken pre) f

/-- Since a packet's numbers were read, none or a whole cycle of I-frames was written, and processed. -/
def Fresh (pre : List Obs) : Obs → Prop
  | .sent ⟨_, some t⟩ => seqMod ∣ iWritten pre - t.written ∧ seqMod ∣ iTaken pre - t.taken
  | _ => True

/-! ## Packets under way -/

/-- A packet against a history: what its stamp says is past, and its frame is the one built then. -/
def Fits (log : List Obs) : Packet → Prop
  | ⟨f, none⟩ => isU f = true ∧ Whole f
  | ⟨f, some t⟩ => t.written ≤ iWritten log ∧ t.taken ≤ iTaken log ∧
      ∃ asdu, asdu.length + 4 < 256 ∧ f = iFrame (t.written % seqMod) (t.taken % seqMod) asdu

theorem Fits.whole {log : List Obs} {p : Packet} (h : Fits log p) : Whole p.octets := by
  match p, h with
  | ⟨_, none⟩, h => exact h.2
  | ⟨_, some t⟩, ⟨_, _, asdu, hl, hf⟩ =>
    subst hf
    exact whole_iFrame _ _ hl

theorem iWritten_le_append (log os : List Obs) : iWritten log ≤ iWritten (log ++ os) := by
  rw [iWritten, iWritten, List.countP_append]
  exact Nat.le_add_right _ _

theorem iTaken_le_append (log os : List Obs) : iTaken log ≤ iTaken (log ++ os) := by
  rw [iTaken, iTaken, List.countP_append]
  exact Nat.le_add_right _ _

theorem Fits.append {log : List Obs} {p : Packet} (h : Fits log p) (os : List Obs) : Fits (log ++ os) p := by
  match p, h with
  | ⟨_, none⟩, h => exact h
  | ⟨_, some t⟩, ⟨hw, ht, hf⟩ =>
    exact ⟨Nat.le_trans hw (iWritten_le_append log os), Nat.le_trans ht (iTaken_le_append log os), hf⟩

def Laid (pre : List Obs) : Obs → Prop
  | .sent p => Fits pre p
  | .reply f => uResp .testfrAct = some f ∨ f = sFrame (iTaken pre % seqMod)
  | .got _ => True

/-- A laid-out frame has the right numbers exactly when its packet is fresh. -/
theorem onWire_iff_fresh {pre : List Obs} {o : Obs} (h : Laid pre o) : OnWire pre o ↔ Fresh pre o := by
  match o, h with
  | .got f, _ =>
    refine iff_of_true (fun g hg => ?_) trivial
    cases hg
  | .reply f, h =>
    refine iff_of_true (fun g hg => ?_) trivial
    cases hg
    rcases h with hu | rfl
    · exact numbers_of_isU (isU_uResp hu) _ _
    · exact numbers_sFrame _ _
  | .sent ⟨f, none⟩, ⟨hu, _⟩ =>
    refine iff_of_true (fun g hg => ?_) trivial
    cases hg
    exact numbers_of_isU hu _ _
  | .sent ⟨f, some t⟩, ⟨hw, ht, asdu, _, hf⟩ =>
    subst hf
    constructor
    · intro h
      obtain ⟨hs, hr⟩ := (numbers_iFrame asdu).mp (h _ rfl)
      exact ⟨(Nat.modEq_iff_dvd' hw).mp hs, (Nat.modEq_iff_dvd' ht).mp hr⟩
    · intro h g hg
      obtain ⟨hs, hr⟩ := h
      cases hg
      exact (numbers_iFrame asdu).mpr ⟨(Nat.modEq_iff_dvd' hw).mpr hs, (Nat.modEq_iff_dvd' ht).mpr hr⟩

/-! ## The invariant -/

/-- A packet is built, queued or taken by `send_loop`, and not yet written. -/
def Session.Waits (s : Session) (p : Packet) : Prop := .built p ∈ s.calls ∨ p ∈ s.que ∨ s.sender = .holding p

structure UnderWay (s : Session) : Prop where
  reading : ∀ sq w, .reading sq w ∈ s.calls → sq = w % seqMod ∧ w ≤ iWritten s.log
  waiting : ∀ p, s.Waits p → Fits s.log p

structure Tracked (s : Session) : Prop where
  sendSq : s.st.sendSq = iWritten s.log % seqMod
  recSq : s.st.recSq = iTaken s.log % seqMod
  way : UnderWay s
  wire : Always Laid s.log

theorem UnderWay.append {s s' : Session} (h : UnderWay s) (hc : s'.calls = s.calls)
    (hw : ∀ p, s'.Waits p → s.Waits p) {os : List Obs} (hlog : s'.log = s.log ++ os) : UnderWay s' := by
  constructor
  · intro sq w hr
    rw [hc] at hr
    obtain ⟨he, hle⟩ := h.reading sq w hr
    rw [hlog]
    exact ⟨he, Nat.le_trans hle (iWritten_le_append s.log os)⟩
  · intro p hp
    rw [hlog]
    exact (h.waiting p (hw p hp)).append os

theorem UnderWay.waits {s s' : Session} (h : UnderWay s) (hlog : s'.log = s.log)
    (hc : ∀ sq w, .reading sq w ∈ s'.calls → .reading sq w ∈ s.calls)
    (hw : ∀ p, s'.Waits p → s.Waits p ∨ Fits s.log p) : UnderWay s' := by
  constructor
  · intro sq w hr
    rw [hlog]
    exact h.reading sq w (hc sq w hr)
  · intro p hp
    rw [hlog]
    rcases hw p hp with hp | hp
    · exact h.waiting p hp
    · exact hp

theorem whole_startdtAct : isU startdtAct = true ∧ Whole startdtAct :=
  ⟨by decide, ⟨by decide, by decide⟩⟩

theorem whole_testfrAct : isU testfrAct = true ∧ Whole testfrAct :=
  ⟨by decide, ⟨by decide, by decide⟩⟩

theorem Tracked.waits {s s' : Session} (h : Tracked s) (hst : s'.st = s.st) (hlog : s'.log = s.log)
    (hc : ∀ sq w, .reading sq w ∈ s'.calls → .reading sq w ∈ s.calls)
    (hw : ∀ p, s'.Waits p → s.Waits p ∨ Fits s.log p) : Tracked s' := by
  refine ⟨?_, ?_, h.way.waits hlog hc hw, by rw [hlog]; exact h.wire⟩
  · rw [hst, hlog]
    exact h.sendSq
  · rw [hst, hlog]
    exact h.recSq

theorem Tracked.got {s s' : Session} (h : Tracked s) {f : Bytes} (hc : s'.calls = s.calls)
    (hw : ∀ p, s'.Waits p → s.Waits p) (hlog : s'.log = s.log ++ [.got f]) (hs : s'.st.sendSq = s.st.sendSq)
    (hr : s'.st.recSq = if numberedI f then (s.st.recSq + 1) % seqMod else s.st.recSq) : Tracked s' := by
  refine ⟨?_, ?_, h.way.append hc hw hlog, ?_⟩
  · rw [hs, hlog]
    simpa [iWritten_snoc, Obs.writesI, Obs.written] using h.sendSq
  · rw [hr, hlog, iTaken_snoc]
    cases hn : numberedI f with
    | true =>
      simp only [Obs.takesI, hn, if_true, h.recSq]
      exact advance _
    | false => simpa [Obs.takesI, hn] using h.recSq
  · rw [hlog]
    exact always_snoc.mpr ⟨h.wire, trivial⟩

theorem Tracked.wrote {s s' : Session} (h : Tracked s) {o : Obs} (hc : s'.calls = s.calls)
    (hw : ∀ p, s'.Waits p → s.Waits p) (hlog : s'.log = s.log ++ [o]) (hs : s'.st.sendSq = s.st.sendSq)
    (hr : s'.st.recSq = s.st.recSq) (hI : o.writesI = false) (ht : o.takesI = false) (hl : Laid s.log o) :
    Tracked s' := by
  refine ⟨?_, ?_, h.way.append hc hw hlog, ?_⟩
  · rw [hs, hlog, iWritten_snoc, hI]
    exact h.sendSq
  · rw [hr, hlog, iTaken_snoc, ht]
    exact h.recSq
  · rw [hlog]
    exact always_snoc.mpr ⟨h.wire, hl⟩

/-- Only a STARTDT that is queued and a packet that is built come to be under way. -/
theorem waits_move {s s' : Session} {a : Act} (hm : Move s a s') {p : Packet} (hp : s'.Waits p) :
    s.Waits p ∨ p = ⟨startdtAct, none⟩ ∨ ∃ i now sq written asdu, a = .build i now ∧
      .reading sq written ∈ s.calls ∧ asdu.length + 4 < 256 ∧
      p = ⟨iFrame sq s.st.recSq asdu, some ⟨written, iTaken s.log⟩⟩ := by
  cases hm with
  | startdt =>
    rcases hp with hp | hp | hp
    · exact .inl (.inl hp)
    · rcases List.mem_append.mp hp with hp | hp
      · exact .inl (.inr (.inl hp))
      · exact .inr (.inl (List.mem_singleton.mp hp))
    · exact .inl (.inr (.inr hp))
  | gi =>
    rcases hp with hp | hp
    · rcases List.mem_append.mp hp with hp | hp
      · exact .inl (.inl hp)
      · cases List.mem_singleton.mp hp
    · exact .inl (.inr hp)
  | build i now sq written asdu hr hl =>
    rcases hp with hp | hp
    · rcases List.mem_or_eq_of_mem_set hp with hp | hp
      · exact .inl (.inl hp)
      · cases hp
        exact .inr (.inr ⟨i, now, sq, written, asdu, rfl, hr, hl, rfl⟩)
    · exact .inl (.inr hp)
  | drop i now =>
    rcases hp with hp | hp
    · exact .inl (.inl (List.mem_of_mem_eraseIdx hp))
    · exact .inl (.inr hp)
  | enqueue i packet hb =>
    rcases hp with hp | hp | hp
    · exact .inl (.inl (List.mem_of_mem_eraseIdx hp))
    · rcases List.mem_append.mp hp with hp | hp
      · exact .inl (.inr (.inl hp))
      · rw [List.mem_singleton.mp hp]
        exact .inl (.inl hb)
    · exact .inl (.inr (.inr hp))
  | get c packet que hpc hq =>
    rcases hp with hp | hp | hp
    · exact .inl (.inl hp)
    · refine .inl (.inr (.inl ?_))
      rw [hq]
      exact List.mem_cons_of_mem _ hp
    · cases hp
      refine .inl (.inr (.inl ?_))
      rw [hq]
      exact List.mem_cons_self
  | write c packet hpc =>
    rcases hp with hp | hp | hp
    · exact .inl (.inl hp)
    · exact .inl (.inr (.inl hp))
    · cases hp
  | stop hpc =>
    rcases hp with hp | hp | hp
    · exact .inl (.inl hp)
    · exact .inl (.inr (.inl hp))
    · cases hp
  | wait | testfr | count | ack | pass | confirm => exact .inl hp

/-- Every step keeps the counters true and what is under way fitting. -/
theorem tracked_move {s s' : Session} {a : Act} (h : Tracked s) (hm : Move s a s') : Tracked s' := by
  have hwaits : ∀ p, s'.Waits p → s.Waits p ∨ Fits s.log p := by
    intro p hp
    rcases waits_move hm hp with hp | rfl | ⟨i, now, sq, written, asdu, -, hr, hl, rfl⟩
    · exact .inl hp
    · exact .inr whole_startdtAct
    · obtain ⟨hsq, hle⟩ := h.way.reading sq written hr
      exact .inr ⟨hle, Nat.le_refl _, asdu, hl, by rw [hsq, h.recSq]⟩
  cases hm with
  | startdt => exact h.waits rfl rfl (fun _ _ hr => hr) hwaits
  | gi =>
    refine ⟨h.sendSq, h.recSq, ⟨?_, ?_⟩, h.wire⟩
    · intro sq w hr
      rcases List.mem_append.mp hr with hr | hr
      · exact h.way.reading sq w hr
      · cases List.mem_singleton.mp hr
        exact ⟨h.sendSq, Nat.le_refl _⟩
    · intro p hp
      exact (hwaits p hp).elim (h.way.waiting p) id
  | build i now sq written asdu hr hl =>
    refine h.waits rfl rfl ?_ hwaits
    intro sq' w hr'
    rcases List.mem_or_eq_of_mem_set hr' with hr' | hr'
    · exact hr'
    · cases hr'
  | drop i now => exact h.waits rfl rfl (fun _ _ hr => List.mem_of_mem_eraseIdx hr) hwaits
  | enqueue i packet hb => exact h.waits rfl rfl (fun _ _ hr => List.mem_of_mem_eraseIdx hr) hwaits
  | wait c hpc => exact h
  | stop hpc => exact h.waits rfl rfl (fun _ _ hr => hr) hwaits
  | get c packet que hpc hq => exact h.waits rfl rfl (fun _ _ hr => hr) hwaits
  | testfr c hpc =>
    exact h.wrote rfl (fun _ hp => hp) rfl rfl rfl (only_U whole_testfrAct.1).1 rfl whole_testfrAct
  | write c packet hpc =>
    have hf := h.way.waiting packet (.inr (.inr hpc))
    refine ⟨?_, ?_, h.way.append rfl ?_ rfl, always_snoc.mpr ⟨h.wire, hf⟩⟩
    · have hw : iWritten (s.log ++ [.sent packet]) = iWritten s.log + if isI packet.octets then 1 else 0 := by
        rw [iWritten_snoc]
        rfl
      rw [hw]
      unfold afterSend
      split
      · simp only [h.sendSq]
        exact advance _
      · exact h.sendSq
    · rw [(afterSend_same s.st packet.octets).2.1, iTaken_snoc]
      exact h.recSq
    · intro p hp
      rcases hp with hp | hp | hp
      · exact .inl hp
      · exact .inr (.inl hp)
      · cases hp
  | count f alive hf hn hw =>
    exact h.got rfl (fun _ hp => hp) rfl rfl (by rw [hn]; rfl)
  | ack f alive hf hn hw =>
    have hgot : Tracked { s with st := counted f s.st, alive, log := s.log ++ [.got f] } :=
      h.got rfl (fun _ hp => hp) rfl rfl (by rw [hn]; rfl)
    exact hgot.wrote rfl (fun _ hp => hp) rfl rfl rfl (isI_sFrame (counted f s.st).recSq) rfl
      (.inr (by rw [← hgot.recSq]))
  | pass f st alive hf hn hs =>
    exact h.got rfl (fun _ hp => hp) rfl hs.sendSq (by rw [hn]; exact hs.recSq)
  | confirm f st alive g hf hn hs hg =>
    have hgot : Tracked { s with st, alive, log := s.log ++ [.got f] } :=
      h.got rfl (fun _ hp => hp) rfl hs.sendSq (by rw [hn]; exact hs.recSq)
    exact hgot.wrote rfl (fun _ hp => hp) rfl rfl rfl (only_U (isU_uResp hg)).1 rfl (.inl hg)

theorem tracked_start {st : ClientState} (hs : st.sendSq = 0) (hr : st.recSq = 0) (onData : Bool) :
    Tracked (start st onData) := by
  refine ⟨hs, hr, ⟨?_, ?_⟩, always_nil⟩
  · intro sq w h
    cases h
  · intro p h
    rcases h with h | h | h
    · cases h
    · cases h
    · cases h

/-- In every run of a session the frames on the wire carry the counts of what was written and
    processed before them exactly when every packet is fresh as it is written. -/
theorem wire_numbers_iff (conf : Conf) (ca : Int) (onData : Bool) (s : Session)
    (h : Reach step anyway (start (createClientState conf ca) onData) s) :
    Always OnWire s.log ↔ Always Fresh s.log := by
  have ht : Tracked s := h.inv (tracked_start rfl rfl onData) fun _ _ _ hi _ hs => tracked_move hi (step_move hs)
  constructor
  · intro hw pre o post he
    exact (onWire_iff_fresh (ht.wire pre o post he)).mp (hw pre o post he)
  · intro hf pre o post he
    exact (onWire_iff_fresh (ht.wire pre o post he)).mpr (hf pre o post he)

def firstGi : Packet :=
  ⟨iFrame 0 0 [0x64, 0x01, 0x06, 0x00, 0x01, 0x00, 0x00, 0x00, 0x00, 0x14], some ⟨0, 0⟩⟩

/-- Two interrogations are built before the first is sent: both carry `N(S) = 0`. -/
theorem two_interrogations_share_a_number :
    ¬ ∀ s, Reach step anyway (start (createClientState kp1Conf 1) true) s → Always OnWire s.log := by
  intro hall
  have hrun : (run step (start (createClientState kp1Conf 1) true)
      [.gi, .gi, .build 0 sampleTime, .build 1 sampleTime, .enqueue 0, .enqueue 0,
        .send false, .send false, .send false, .send false]).map Session.log =
      some [.sent firstGi, .sent firstGi] := by decide
  obtain ⟨s, hr, hs⟩ := exists_of_run _ hrun
  have hsecond := hall s hr [.sent firstGi] (.sent firstGi) [] hs
  exact absurd ((hsecond _ rfl).1 rfl) (by decide)

/-- Two interrogations, the second called after the first is sent and the data are read. -/
theorem wire_numbers_iff_apart : ∃ s : Session, iWritten s.log = 2 ∧ Always Fresh s.log ∧
    (Always OnWire s.log ↔ Always Fresh s.log) := by
  have hrun : (run step (start (createClientState kp1Conf 1) true)
      [.gi, .build 0 sampleTime, .enqueue 0, .send false, .send false,
        .recv (iFrame 0 1 [0x01, 0x01, 0x03, 0x00, 0x01, 0x00, 0x2D, 0x00, 0x00, 0x01]),
        .gi, .build 0 sampleTime, .enqueue 0, .send false, .send false]).map Session.log =
      some [.sent firstGi, .got (iFrame 0 1 [0x01, 0x01, 0x03, 0x00, 0x01, 0x00, 0x2D, 0x00, 0x00, 0x01]),
        .sent ⟨iFrame 1 1 [0x64, 0x01, 0x06, 0x00, 0x01, 0x00, 0x00, 0x00, 0x00, 0x14], some ⟨1, 1⟩⟩] := by decide
  obtain ⟨s, hr, hs⟩ := exists_of_run _ hrun
  refine ⟨s, by rw [hs]; rfl, ?_, wire_numbers_iff kp1Conf 1 true s hr⟩
  have hnone : seqMod ∣ 0 ∧ seqMod ∣ 0 := by decide
  rw [hs]
  exact always_snoc.mpr ⟨always_snoc.mpr ⟨always_snoc.mpr ⟨always_nil, hnone⟩, trivial⟩, hnone⟩

end Drv60870.Client
