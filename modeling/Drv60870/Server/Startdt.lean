/-
  Drv60870.Server.Startdt — I-frames and the started state.

  `client_send` reads `startdt_confirmed` once, without the lock, before it packs and sends
  a batch; `client_rec` answers commands whatever the flag says. `startdtApart` is a run in
  which neither matters: no STOPDT is taken while a batch is under way, and no frame is
  answered with an I-frame before STARTDT.

  Proved:
  - In every such run each I-frame on the wire, of either thread, follows a STARTDT without a
    STOPDT since (`written_started`).
  - Otherwise not: a value is tested in the started state and sent after STOPDT was confirmed
    (`a_tested_batch_is_sent_after_stopdt`).
-/

import Drv60870.Server.Sequence

namespace Drv60870.Server

open Lib.Octets Lib.Calendar Lib.Runs Drv60870.Const Protocol Conn

variable {σ : Type} {cb : Callbacks σ}

/-- A STARTDT or STOPDT activation changes the state of the connection. -/
def startStop (started : Bool) : Obs → Bool
  | .got f =>
    if uFunction f = some .startdtAct then true
    else if uFunction f = some .stopdtAct then false
    else started
  | _ => started

def started (log : List Obs) : Bool := log.foldl startStop false

theorem started_snoc (log : List Obs) (o : Obs) : started (log ++ [o]) = startStop (started log) o := by
  simp [started, List.foldl_append]

def InStarted (pre : List Obs) (o : Obs) : Prop := o.writesI = true → started pre = true

/-- `client_send` has tested the flag for the event it holds. -/
def SendPc.tested : SendPc → Bool
  | .enabled _ | .packing _ _ | .mismatch _ _ _ | .ready _ _ => true
  | _ => false

/-- No STOPDT is taken between test and sending, and no answered frame before STARTDT. -/
def startdtApart (cb : Callbacks σ) (s : Conn σ) : Act σ → Bool
  | .recv f _ => (uFunction f ≠ some .stopdtAct || !s.sender.tested) &&
      (!answered cb s.st f || s.st.startdtConfirmed)
  | _ => true

structure Gated (s : Conn σ) : Prop where
  num : Numbered s
  flag : s.st.startdtConfirmed = started s.log
  tested : s.sender.tested = true → started s.log = true
  answer : s.receiver.pending = 1 → started s.log = true
  wire : Always InStarted s.log

/-- An entry that neither starts nor stops and writes no I-frame, or writes it in the started state. -/
theorem gated_write {s s' : Conn σ} {o : Obs} (h : Gated s) (hn : Numbered s')
    (hf : s'.st.startdtConfirmed = s.st.startdtConfirmed) (hlog : s'.log = s.log ++ [o])
    (ho : startStop (started s.log) o = started s.log) (hw : InStarted s.log o)
    (ht : s'.sender.tested = true → s.sender.tested = true)
    (hp : s'.receiver.pending = 1 → s.receiver.pending = 1) : Gated s' := by
  have hs : started s'.log = started s.log := by rw [hlog, started_snoc, ho]
  refine ⟨hn, by rw [hf, hs]; exact h.flag, fun t => ?_, fun p => ?_, ?_⟩
  · rw [hs]
    exact h.tested (ht t)
  · rw [hs]
    exact h.answer (hp p)
  · rw [hlog]
    exact always_snoc.mpr ⟨h.wire, hw⟩

theorem noted_flag {s : Conn σ} (h : Gated s) (f : Bytes) :
    (noted f s.st).startdtConfirmed = started (s.log ++ [.got f]) := by
  rw [started_snoc]
  simp only [noted, startStop, h.flag]

theorem silent_inStarted {pre : List Obs} {o : Obs} (h : o.writesI = false) : InStarted pre o := by
  intro hw
  rw [h] at hw
  cases hw

/-- After a taken frame `client_send` still holds only what it may send. -/
theorem tested_got {s : Conn σ} (h : Gated s) {f : Bytes} {now : Datetime}
    (hok : startdtApart cb s (.recv f now) = true) (ht : s.sender.tested = true) :
    started (s.log ++ [.got f]) = true := by
  have hnot : uFunction f ≠ some .stopdtAct := by
    simp only [startdtApart, ht, Bool.and_eq_true] at hok
    simpa using hok.1
  rw [started_snoc, startStop]
  by_cases h1 : uFunction f = some .startdtAct
  · rw [if_pos h1]
  · rw [if_neg h1, if_neg hnot]
    exact h.tested ht

theorem gated_move {s s' : Conn σ} {a : Act σ} (h : Gated s) (hok : startdtApart cb s a = true)
    (hm : Move cb s a s') : Gated s' := by
  have hn := numbered_move h.num hm
  cases hm with
  | put event => exact gated_write h hn rfl rfl rfl (silent_inStarted rfl) id id
  | store => exact ⟨hn, h.flag, h.tested, h.answer, h.wire⟩
  | stop | timeout | get | discard | block | putBack | unsupported | ended =>
    exact ⟨hn, h.flag, fun t => (by cases t), h.answer, h.wire⟩
  | keep c pc hpc hpc' =>
    refine ⟨hn, h.flag, fun t => ?_, h.answer, h.wire⟩
    rcases hpc' with rfl | rfl
    · cases t
    · cases t
  | enable c event hpc hst =>
    exact ⟨hn, h.flag, fun _ => by rw [← h.flag]; exact hst, h.answer, h.wire⟩
  | pass c event hpc =>
    exact ⟨hn, h.flag, fun _ => h.tested (by rw [hpc]; rfl), h.answer, h.wire⟩
  | pack c event rest nxt que hpc | miss c event rest nxt que hpc | packed c event rest hpc
  | putBackNext c event rest nxt hpc =>
    exact ⟨hn, h.flag, fun _ => h.tested (by rw [hpc]; rfl), h.answer, h.wire⟩
  | write c event rest packet hpc =>
    exact gated_write h hn rfl rfl rfl (fun _ => h.tested (by rw [hpc]; rfl)) (fun t => by cases t) id
  | testfr c hpc =>
    exact gated_write h hn rfl rfl rfl (silent_inStarted (by decide)) (fun t => by cases t) id
  | answer frame now store puts hfree hf hnum ha =>
    have hflag := noted_flag h frame
    have hst : s.st.startdtConfirmed = true := by
      simp only [startdtApart, ha h.num.counters, Bool.and_eq_true] at hok
      simpa using hok.2
    have hu : uFunction frame = none := by
      have hI : isI frame = true := by simp [numberedI] at hnum; exact hnum.1
      simp [uFunction, (only_I hI).2]
    have hs : started (s.log ++ [.got frame]) = true := by
      rw [← hflag]
      simp [noted, hu, hst]
    exact ⟨hn, hflag, fun _ => hs, fun _ => hs, always_snoc.mpr ⟨h.wire, silent_inStarted rfl⟩⟩
  | take frame now store puts result hfree hf hq =>
    refine ⟨hn, noted_flag h frame, tested_got h hok, fun hp => ?_, always_snoc.mpr ⟨h.wire, silent_inStarted rfl⟩⟩
    rw [hq.pending puts] at hp
    cases hp
  | handlerPut result event puts hr =>
    refine gated_write h hn rfl rfl rfl (silent_inStarted rfl) id fun hp => ?_
    rw [hr, pending_puts result (event :: puts) puts]
    exact hp
  | raised result hr => exact ⟨hn, h.flag, h.tested, fun hp => (by cases hp), h.wire⟩
  | reply fType response hr =>
    refine gated_write h hn rfl rfl rfl (fun hw => ?_) id fun hp => by cases hp
    rcases h.num.reply fType response [] hr with ⟨rfl, -, -⟩ | ⟨-, hU⟩
    · exact h.answer (by rw [hr]; rfl)
    · have : (Obs.reply response).writesI = false := (only_U hU).1
      rw [this] at hw
      cases hw
  | sFrame hr =>
    exact gated_write h hn rfl rfl rfl (silent_inStarted (isI_sFrame s.st.recSq)) id fun hp => by cases hp
  | counted hr | done fType hr | close hr => exact ⟨hn, h.flag, h.tested, fun hp => (by cases hp), h.wire⟩

/-- In every such run each I-frame on the wire, of either thread, follows a STARTDT without a STOPDT since. -/
theorem written_started (cb : Callbacks σ) (conf : Conf) (ca : Int) (store : σ) (que : List IecEvent) (s : Conn σ)
    (h : Reach (step cb) (fun s a => startdtApart cb s a = true) (start (createClientState conf ca) store que) s) :
    Always InStarted s.log := by
  have h0 : Gated (start (createClientState conf ca) store que) := by
    have hs : started (start (createClientState conf ca) store que).log = false :=
      foldl_puts startStop (fun _ _ => rfl) false que
    exact ⟨numbered_start rfl rfl store que, by rw [hs]; rfl, fun t => (by cases t), fun t => (by cases t),
      always_puts (fun _ _ => silent_inStarted rfl) que⟩
  exact (h.inv h0 fun _ _ _ hi hok hstep => gated_move hi hok (step_move hstep)).wire

-- an interrogation before STARTDT is confirmed with an I-frame
example : (run (step emptyStation) (start (createClientState kp1Conf 1) () [])
    [.recv (iFrame 0 0 [0x64, 0x01, 0x06, 0x00, 0x01, 0x00, 0x00, 0x00, 0x00, 0x14]) sampleTime, .handle,
      .handle]).map (fun s => (iWritten s.log, started s.log)) = some (1, false) := by decide

def stopdtFrame : Bytes := [0x68, 0x04, 0x13, 0x00, 0x00, 0x00]

/-- A value is tested in the started state and sent after STOPDT was confirmed. -/
theorem a_tested_batch_is_sent_after_stopdt :
    ¬ ∀ s, Reach (step emptyStation) anyway (start (createClientState kp1Conf 1) () []) s → Always InStarted s.log := by
  intro hall
  have hrun : (run (step emptyStation) (start (createClientState kp1Conf 1) () [])
      [.recv startdtAct sampleTime, .handle, .put (point 1 45 1), .send false, .send false,
        .recv stopdtFrame sampleTime, .handle, .send false, .send false, .send false]).map
        (fun s => (s.log.dropLast, s.log.getLast?.map Obs.writesI)) =
      some ([.got startdtAct, .reply [0x68, 0x04, 0x0B, 0x00, 0x00, 0x00], .put (point 1 45 1), .got stopdtFrame,
        .reply [0x68, 0x04, 0x17, 0x00, 0x00, 0x00]], some true) := by decide
  obtain ⟨s, hr, hs⟩ := exists_of_run _ hrun
  simp only [Prod.mk.injEq] at hs
  obtain ⟨hpre, hlast⟩ := hs
  obtain ⟨o, ho, hw⟩ := Option.map_eq_some_iff.mp hlast
  have hlog : s.log = s.log.dropLast ++ [o] := by
    rw [List.dropLast_append_getLast?]
    exact ho
  have hst := hall s hr _ o [] hlog hw
  rw [hpre] at hst
  exact absurd hst (by decide)

theorem written_started_apart : ∃ s : Conn Unit, iWritten s.log = 1 ∧ Always InStarted s.log := by
  have hrun : (run (checked (startdtApart emptyStation) (step emptyStation))
      (start (createClientState kp1Conf 1) () []) startAndSend).map (fun s => iWritten s.log) = some 1 := by decide
  obtain ⟨s, hr, hs⟩ := exists_of_run _ hrun
  exact ⟨s, hs, written_started emptyStation kp1Conf 1 () [] s (reach_of_checked hr)⟩

end Drv60870.Server
