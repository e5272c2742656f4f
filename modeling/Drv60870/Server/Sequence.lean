/-
  Drv60870.Server.Sequence — the sequence numbers of a server connection.

  Two threads write I-frames: `client_send` its batches and `client_rec` its answers. `Numbered`
  ties both counters to the history: `recSq` counts the I-frames taken, `sendSq` the I-frames
  written and the acknowledgement `client_rec` may have built and not yet written.

  Proved:
  - Every step keeps it (`numbered_move`); building and sending are in one section under
    `seq_lock` in either thread, so no other number comes in between.
  - In every run each frame on the wire carries the counts of what was written and taken
    before it, modulo 32768, and the counters never outgrow their two octets
    (`wire_numbers`).
-/

import Drv60870.Server.ConnProofs

namespace Drv60870.Server

open Lib.Octets Lib.Calendar Lib.Cyclic Lib.Runs Drv60870.Const Protocol Conn

variable {σ : Type} {cb : Callbacks σ}

def OnWire (pre : List Obs) (o : Obs) : Prop := ∀ f, o.written = some f → Numbers (iWritten pre) (iTaken pre) f

structure Numbered (s : Conn σ) : Prop where
  recSq : s.st.recSq = iTaken s.log % seqMod
  sendSq : s.st.sendSq = (iWritten s.log + s.receiver.pending) % seqMod
  reply : ∀ t f puts, s.receiver = .handling (some (t, some f)) puts →
    (t = .I ∧ isI f = true ∧ Numbers (iWritten s.log) (iTaken s.log) f) ∨ (t ≠ .I ∧ isU f = true)
  wire : Always OnWire s.log

theorem Numbered.counters {s : Conn σ} (h : Numbered s) : s.st.Counters :=
  ⟨by rw [h.sendSq]; exact Nat.mod_lt _ (by decide), by rw [h.recSq]; exact Nat.mod_lt _ (by decide)⟩

theorem onWire_of_numbers {pre : List Obs} {o : Obs} {f : Bytes} (ho : o.written = some f)
    (h : Numbers (iWritten pre) (iTaken pre) f) : OnWire pre o := by
  intro g hg
  rw [ho] at hg
  cases hg
  exact h

theorem onWire_of_silent {pre : List Obs} {o : Obs} (h : o.written = none) : OnWire pre o := by
  intro f hf
  rw [h] at hf
  cases hf

theorem Numbered.note {s s' : Conn σ} {o : Obs} (h : Numbered s) (hlog : s'.log = s.log ++ [o])
    (hwr : o.writesI = false) (htk : o.takesI = false) (ho : OnWire s.log o) (hs : s'.st.sendSq = s.st.sendSq)
    (hr : s'.st.recSq = s.st.recSq) (hp : s'.receiver.pending = s.receiver.pending)
    (hreply : ∀ t f puts, s'.receiver = .handling (some (t, some f)) puts →
      ∃ puts', s.receiver = .handling (some (t, some f)) puts') : Numbered s' := by
  have hw : iWritten s'.log = iWritten s.log := by
    rw [hlog, iWritten_snoc, hwr]
    rfl
  have ht : iTaken s'.log = iTaken s.log := by
    rw [hlog, iTaken_snoc, htk]
    rfl
  refine ⟨?_, ?_, ?_, ?_⟩
  · rw [hr, ht]
    exact h.recSq
  · rw [hs, hw, hp]
    exact h.sendSq
  · intro t f puts hf
    obtain ⟨puts', hf'⟩ := hreply t f puts hf
    rw [hw, ht]
    exact h.reply t f puts' hf'
  · rw [hlog]
    exact always_snoc.mpr ⟨h.wire, ho⟩

/-- Every step keeps the counters true. -/
theorem numbered_move {s s' : Conn σ} {a : Act σ} (h : Numbered s) (hm : Move cb s a s') : Numbered s' := by
  cases hm with
  | put event =>
    exact h.note rfl rfl rfl (onWire_of_silent rfl) rfl rfl rfl fun _ _ puts hr => ⟨puts, hr⟩
  | store | stop | timeout | get | discard | enable | block | pass | putBack | pack | miss | packed | putBackNext
  | unsupported | ended | keep => exact ⟨h.recSq, h.sendSq, h.reply, h.wire⟩
  | write c event rest packet hpc hl hb =>
    obtain ⟨ev, parts, -, -, -, rfl⟩ := buildIFrame_some hb
    have hp := pending_of_unlocked hl
    have hs : s.st.sendSq = iWritten s.log % seqMod := by rw [h.sendSq, hp]; rfl
    refine ⟨?_, ?_, ?_, always_snoc.mpr ⟨h.wire, onWire_of_numbers rfl ?_⟩⟩
    · simpa [iTaken_snoc, Obs.takesI, afterBatch] using h.recSq
    · simp only [iWritten_snoc, Obs.writesI, Obs.written, Option.map_some, Option.getD_some, isI_iFrame, if_true,
        afterBatch, hs, hp, Nat.add_zero]
      exact advance _
    · intro t f puts hr
      rw [show s.receiver = _ from hr] at hl
      cases hl
    · rw [hs, h.recSq]
      exact (numbers_iFrame _).mpr ⟨rfl, rfl⟩
  | testfr c hpc =>
    have hU : isU testfrAct = true := by decide
    exact h.note rfl (only_U hU).1 rfl (onWire_of_numbers rfl (numbers_of_isU hU _ _)) rfl rfl rfl
      fun _ _ puts hr => ⟨puts, hr⟩
  | answer frame now store puts hfree hf hn ha =>
    have hs : s.st.sendSq = iWritten s.log % seqMod := by rw [h.sendSq, hfree]; rfl
    have hrec : (noted frame s.st).recSq = (iTaken s.log + 1) % seqMod := by
      simp only [noted, hn, if_true, h.recSq]
      exact advance _
    have htake : iTaken (s.log ++ [.got frame]) = iTaken s.log + 1 := by simp [iTaken_snoc, Obs.takesI, hn]
    have hwrite : iWritten (s.log ++ [.got frame]) = iWritten s.log := by
      simp [iWritten_snoc, Obs.writesI, Obs.written]
    refine ⟨by rw [htake]; exact hrec, ?_, ?_, always_snoc.mpr ⟨h.wire, onWire_of_silent rfl⟩⟩
    · rw [hwrite]
      simp only [RecPc.pending, hs]
      exact advance _
    · intro t f puts' hr
      cases hr
      refine .inl ⟨rfl, isI_iFrame _ _ _, ?_⟩
      rw [hwrite, htake, hs, hrec]
      exact (numbers_iFrame _).mpr ⟨rfl, rfl⟩
  | take frame now store puts result hfree hf hq =>
    have hresp : ∀ t f, result = some (t, some f) → t ≠ .I ∧ isU f = true := by
      intro t f he
      rw [he] at hq
      obtain ⟨rfl, -, hu, -⟩ := hq.response
      exact ⟨by decide, hu⟩
    have hp := hq.pending puts
    refine ⟨?_, ?_, ?_, always_snoc.mpr ⟨h.wire, onWire_of_silent rfl⟩⟩
    · rw [iTaken_snoc]
      cases hn : numberedI frame with
      | true =>
        simp only [noted, Obs.takesI, hn, if_true, h.recSq]
        exact advance _
      | false => simpa [noted, Obs.takesI, hn] using h.recSq
    · have hs := h.sendSq
      rw [hfree, show RecPc.free.pending = 0 from rfl, ← hp] at hs
      simpa [iWritten_snoc, Obs.writesI, Obs.written, noted] using hs
    · intro t f puts' hr
      cases hr
      exact .inr (hresp t f rfl)
  | handlerPut result event puts hr =>
    refine h.note rfl rfl rfl (onWire_of_silent rfl) rfl rfl ?_ fun t f puts' he => ?_
    · rw [hr]
      exact pending_puts result puts _
    · cases he
      exact ⟨_, hr⟩
  | raised result hr hres =>
    have hs := h.sendSq
    have hp : (RecPc.handling result []).pending = 0 := by
      rcases hres with rfl | rfl
      · rfl
      · rfl
    rw [hr, hp] at hs
    exact ⟨h.recSq, hs, fun t f puts he => (by cases he), h.wire⟩
  | reply fType response hr =>
    rcases h.reply fType response [] hr with ⟨rfl, hI, hw⟩ | ⟨ht, hU⟩
    · -- the acknowledgement that is already counted
      have hs := h.sendSq
      rw [hr] at hs
      refine ⟨?_, ?_, fun t f puts he => (by cases he), always_snoc.mpr ⟨h.wire, onWire_of_numbers rfl hw⟩⟩
      · simpa [iTaken_snoc, Obs.takesI] using h.recSq
      · simpa [iWritten_snoc, Obs.writesI, Obs.written, hI, RecPc.pending] using hs
    · refine h.note rfl (only_U hU).1 rfl (onWire_of_numbers rfl (numbers_of_isU hU _ _)) rfl rfl ?_
        fun t f puts he => by cases he
      rw [hr]
      exact (pending_handling (.inl ht)).symm
  | sFrame hr =>
    refine h.note rfl (isI_sFrame s.st.recSq) rfl (onWire_of_numbers rfl ?_) rfl rfl ?_ fun t f puts he => by cases he
    · rw [h.recSq]
      exact numbers_sFrame _ _
    · rw [hr]
      rfl
  | counted hr hlt =>
    have hs := h.sendSq
    rw [hr] at hs
    exact ⟨h.recSq, hs, fun t f puts he => (by cases he), h.wire⟩
  | done fType hr ht =>
    have hs := h.sendSq
    rw [hr, pending_handling (.inl ht)] at hs
    exact ⟨h.recSq, hs, fun t f puts he => (by cases he), h.wire⟩
  | close hr =>
    have hs := h.sendSq
    have hp : s.receiver.pending = 0 := by
      rcases hr with hr | hr
      · rw [hr]; rfl
      · rw [hr]; rfl
    rw [hp] at hs
    exact ⟨h.recSq, hs, fun t f puts he => (by cases he), h.wire⟩

theorem numbered_start {st : ClientState} (hs : st.sendSq = 0) (hr : st.recSq = 0) (store : σ)
    (que : List IecEvent) : Numbered (start st store que) := by
  refine ⟨?_, ?_, fun t f puts he => (by cases he), ?_⟩
  · rw [show iTaken (start st store que).log = 0 from countP_puts _ (fun _ => rfl) que]
    exact hr
  · rw [show iWritten (start st store que).log = 0 from countP_puts _ (fun _ => rfl) que]
    exact hs
  · exact always_puts (fun _ _ => onWire_of_silent rfl) que

theorem numbered_run {st : ClientState} (hs : st.sendSq = 0) (hr : st.recSq = 0) {store : σ} {que : List IecEvent}
    {ok : Conn σ → Act σ → Prop} {s : Conn σ} (h : Reach (step cb) ok (start st store que) s) : Numbered s :=
  h.inv (numbered_start hs hr store que) fun _ _ _ hn _ hstep => numbered_move hn (step_move hstep)

/-- In every run of a connection each frame on the wire carries the counts of what was written
    and taken before it, and the counters never outgrow their two octets. -/
theorem wire_numbers (cb : Callbacks σ) (conf : Conf) (ca : Int) (store : σ) (que : List IecEvent) (s : Conn σ)
    (h : Reach (step cb) anyway (start (createClientState conf ca) store que) s) :
    Always OnWire s.log ∧ s.st.Counters ∧ (∃ b, control s.st.sendSq = .ok b) ∧ ∃ b, control s.st.recSq = .ok b := by
  have hn := numbered_run rfl rfl h
  have hc := hn.counters
  exact ⟨hn.wire, hc, ⟨_, control_eq_ok.mpr ⟨shiftLeft_one_lt hc.sendSq_lt, rfl⟩⟩,
    ⟨_, control_eq_ok.mpr ⟨shiftLeft_one_lt hc.recSq_lt, rfl⟩⟩⟩

def startAndSend : List (Act Unit) :=
  [.recv startdtAct sampleTime, .handle, .put (point 1 45 1), .send false, .send false, .send false, .send false,
    .send false]

theorem wire_numbers_startAndSend : ∃ s : Conn Unit, iWritten s.log = 1 ∧ Always OnWire s.log ∧ s.st.Counters ∧
    (∃ b, control s.st.sendSq = .ok b) ∧ ∃ b, control s.st.recSq = .ok b := by
  have hrun : (run (step emptyStation) (start (createClientState kp1Conf 1) () []) startAndSend).map
      (fun s => iWritten s.log) = some 1 := by decide
  obtain ⟨s, hr, hw⟩ := exists_of_run _ hrun
  exact ⟨s, hw, wire_numbers emptyStation kp1Conf 1 () [] s hr⟩

end Drv60870.Server
