/-
  Drv60870.Server.Window — the two flow-control windows of a server connection.

  k: `client_send` tests the number of unacknowledged I-frames in one section under
  `seq_lock` and sends in a later one; `client_rec` answers commands without a test.
  w: `rec_count_since_send` counts the I-frames taken since the receive thread last sent an
  `N(R)`; an answered U-frame resets it though it carries none.

  Proved:
  - In every run in which the peer acknowledges only what was written (`conforms`) and an
    answered frame finds room (`roomForAnswer`), with `k` below 32768: no more than `k`
    I-frames are unacknowledged, a batch that `client_send` has passed counted with them, and
    the two counters tell how many (`outstanding_le`).
  - Without room for the answer two I-frames are on their way with `k = 1`
    (`a_confirmation_exceeds_the_window`).
  - In every run in which no U-frame is answered while I-frames are counted (`uFramesApart`),
    fewer than `w` taken I-frames are unacknowledged whenever a frame has been handled
    (`unacknowledged_lt`).
  - Otherwise a test frame between two I-frames leaves both unacknowledged, with `w = 2`
    (`a_test_frame_hides_received_frames`).
-/

import Drv60870.Server.Sequence

namespace Drv60870.Server

open Lib.Octets Lib.Calendar Lib.Cyclic Lib.Runs Drv60870.Const Protocol Conn

variable {σ : Type} {cb : Callbacks σ}

/-! ## The k-window -/

def Obs.ack : Obs → Option Nat
  | .got f => if numberedI f || numberedS f then some (nR f) else none
  | _ => none

/-- An acknowledgement moves the count up to the next number that `N(R)` can stand for. -/
def acknowledge (n : Nat) (o : Obs) : Nat :=
  match o.ack with
  | some r => n + window seqMod r (n % seqMod)
  | none => n

def acked (log : List Obs) : Nat := log.foldl acknowledge 0

theorem acked_snoc (log : List Obs) (o : Obs) : acked (log ++ [o]) = acknowledge (acked log) o := by
  simp [acked, List.foldl_append]

theorem acked_snoc_of_none {log : List Obs} {o : Obs} (h : o.ack = none) : acked (log ++ [o]) = acked log := by
  rw [acked_snoc, acknowledge, h]

theorem le_acknowledge (n : Nat) (o : Obs) : n ≤ acknowledge n o := by
  unfold acknowledge
  split
  · exact Nat.le_add_right _ _
  · exact Nat.le_refl _

theorem nR_lt (f : Bytes) : nR f < seqMod := by
  have h := leNat_lt (slice f 4 6)
  have hl : (slice f 4 6).length ≤ 2 := by rw [length_slice]; omega
  have hp : 256 ^ (slice f 4 6).length ≤ 256 ^ 2 := Nat.pow_le_pow_right (by decide) hl
  unfold nR seqMod
  omega

/-- The peer acknowledges only what was written. -/
def conforms (s : Conn σ) : Act σ → Bool
  | .recv f _ => decide (acked (s.log ++ [.got f]) ≤ iWritten s.log)
  | _ => true

/-- A batch that `client_send` has let through its test and not yet sent. -/
def SendPc.passed : SendPc → Nat
  | .packing _ _ | .mismatch _ _ _ | .ready _ _ => 1
  | _ => 0

/-- A frame that will be answered with an I-frame finds room in the window. -/
def roomForAnswer (cb : Callbacks σ) (s : Conn σ) : Act σ → Bool
  | .recv f _ => !answered cb s.st f ||
      decide (iWritten s.log + s.sender.passed < acked (s.log ++ [.got f]) + s.st.conf.protK)
  | _ => true

structure Windowed (k : Nat) (s : Conn σ) : Prop where
  num : Numbered s
  conf : s.st.conf.protK = k
  lastAck : s.st.lastAckNr = acked s.log % seqMod
  le : acked s.log ≤ iWritten s.log
  bound : iWritten s.log + s.receiver.pending + s.sender.passed ≤ acked s.log + k

/-- What the code reads off its two counters, outside the sections of `client_rec`. -/
theorem Windowed.unack {k : Nat} (hk : k < seqMod) {s : Conn σ} (h : Windowed k s)
    (hl : s.receiver.locked = false) :
    window seqMod s.st.sendSq s.st.lastAckNr = iWritten s.log - acked s.log := by
  have hp := pending_of_unlocked hl
  have hb := h.bound
  rw [h.num.sendSq, h.lastAck, hp, Nat.add_zero]
  exact window_eq h.le (by omega)

theorem windowed_write {k : Nat} {s s' : Conn σ} {o : Obs} (h : Windowed k s) (hn : Numbered s')
    (hc : s'.st.conf = s.st.conf) (ha : s'.st.lastAckNr = s.st.lastAckNr) (hlog : s'.log = s.log ++ [o])
    (ho : o.ack = none)
    (hb : iWritten (s.log ++ [o]) + s'.receiver.pending + s'.sender.passed ≤
      iWritten s.log + s.receiver.pending + s.sender.passed) : Windowed k s' := by
  have hack : acked (s.log ++ [o]) = acked s.log := acked_snoc_of_none ho
  have hle : iWritten s.log ≤ iWritten (s.log ++ [o]) := by rw [iWritten_snoc]; omega
  refine ⟨hn, by rw [hc]; exact h.conf, ?_, ?_, ?_⟩
  · rw [ha, hlog, hack]
    exact h.lastAck
  · rw [hlog, hack]
    have := h.le
    omega
  · rw [hlog, hack]
    have := h.bound
    omega

theorem acked_got {s : Conn σ} {k : Nat} (h : Windowed k s) (f : Bytes) :
    (noted f s.st).lastAckNr = acked (s.log ++ [.got f]) % seqMod := by
  rw [acked_snoc, acknowledge]
  simp only [noted, Obs.ack]
  cases hn : numberedI f || numberedS f with
  | true =>
    simp only [if_true]
    rw [add_window (by decide), Nat.mod_eq_of_lt (nR_lt f)]
  | false =>
    simp only [Bool.false_eq_true, if_false]
    exact h.lastAck

/-- Every step of a run under both conditions keeps the window. -/
theorem windowed_move {k : Nat} (hk : k < seqMod) {s s' : Conn σ} {a : Act σ} (h : Windowed k s)
    (hok : conforms s a = true ∧ roomForAnswer cb s a = true) (hm : Move cb s a s') : Windowed k s' := by
  have hn := numbered_move h.num hm
  have hb := h.bound
  cases hm with
  | put event =>
    exact windowed_write h hn rfl rfl rfl rfl (by simp [iWritten_snoc, Obs.writesI, Obs.written])
  | store | putBack => exact ⟨hn, h.conf, h.lastAck, h.le, by simp_all [SendPc.passed]⟩
  | stop hpc | timeout c hpc | get c event que hpc | discard c event hpc | enable c event hpc | block c event hpc
  | unsupported c event rest hpc =>
    refine ⟨hn, h.conf, h.lastAck, h.le, ?_⟩
    rw [hpc] at hb
    simp only [SendPc.passed] at hb ⊢
    omega
  | pack c event rest nxt que hpc | miss c event rest nxt que hpc | packed c event rest hpc
  | putBackNext c event rest nxt hpc =>
    refine ⟨hn, h.conf, h.lastAck, h.le, ?_⟩
    rw [hpc] at hb
    exact hb
  | ended =>
    refine ⟨hn, h.conf, h.lastAck, h.le, ?_⟩
    simp only [SendPc.passed]
    omega
  | keep c pc hpc hpc' =>
    refine ⟨hn, h.conf, h.lastAck, h.le, ?_⟩
    rw [hpc] at hb
    rcases hpc' with rfl | rfl
    · exact hb
    · exact hb
  | pass c event hpc hl hw =>
    have hp := pending_of_unlocked hl
    rw [h.unack hk hl, h.conf] at hw
    refine ⟨hn, h.conf, h.lastAck, h.le, ?_⟩
    have := h.le
    simp only [SendPc.passed, hp]
    omega
  | write c event rest packet hpc hl hpk =>
    apply windowed_write h hn rfl rfl rfl rfl
    rw [iWritten_snoc, hpc]
    simp only [SendPc.passed]
    split <;> omega
  | testfr c hpc =>
    apply windowed_write h hn rfl rfl rfl rfl
    rw [iWritten_snoc, hpc]
    have hI : isI testfrAct = false := by decide
    simp [SendPc.passed, Obs.writesI, Obs.written, hI]
  | answer frame now store puts hfree hf hnum ha =>
    obtain ⟨hconf, hroom⟩ := hok
    have hconf := of_decide_eq_true hconf
    have hroom : iWritten s.log + s.sender.passed < acked (s.log ++ [.got frame]) + s.st.conf.protK := by
      simpa [roomForAnswer, ha h.num.counters] using hroom
    have hw : iWritten (s.log ++ [.got frame]) = iWritten s.log := by
      simp [iWritten_snoc, Obs.writesI, Obs.written]
    refine ⟨hn, h.conf, acked_got h frame, by rw [hw]; exact hconf, ?_⟩
    rw [h.conf] at hroom
    simp only [RecPc.pending, hw]
    omega
  | take frame now store puts result hfree hf hq =>
    have hconf := of_decide_eq_true hok.1
    have hw : iWritten (s.log ++ [.got frame]) = iWritten s.log := by
      simp [iWritten_snoc, Obs.writesI, Obs.written]
    have hp := hq.pending puts
    refine ⟨hn, h.conf, acked_got h frame, by rw [hw]; exact hconf, ?_⟩
    have hge := le_acknowledge (acked s.log) (.got frame)
    rw [← acked_snoc] at hge
    rw [hfree] at hb
    simp only [RecPc.pending] at hb
    simp only [hp, hw]
    omega
  | handlerPut result event puts hr =>
    apply windowed_write h hn rfl rfl rfl rfl
    rw [hr, pending_puts result (event :: puts) puts]
    simp [iWritten_snoc, Obs.writesI, Obs.written]
  | raised result hr hres =>
    refine ⟨hn, h.conf, h.lastAck, h.le, ?_⟩
    simp only [RecPc.pending]
    omega
  | reply fType response hr =>
    apply windowed_write h hn rfl rfl rfl rfl
    rw [hr, iWritten_snoc]
    rcases h.num.reply fType response [] hr with ⟨rfl, hI, -⟩ | ⟨ht, hU⟩
    · simp [Obs.writesI, Obs.written, hI, RecPc.pending]
    · simp [Obs.writesI, Obs.written, (only_U hU).1, RecPc.pending]
  | sFrame hr =>
    apply windowed_write h hn rfl rfl rfl rfl
    rw [hr, iWritten_snoc]
    simp [Obs.writesI, Obs.written, isI_sFrame, RecPc.pending]
  | counted hr | done fType hr | close hr =>
    refine ⟨hn, h.conf, h.lastAck, h.le, ?_⟩
    simp only [RecPc.pending]
    omega

/-- In every run in which the peer acknowledges only what was written and an answered frame finds
    room, no more than `k` I-frames are unacknowledged, and the counters tell how many. -/
theorem outstanding_le (cb : Callbacks σ) (conf : Conf) (ca : Int) (store : σ) (que : List IecEvent)
    (hk : conf.protK < seqMod) (s : Conn σ)
    (h : Reach (step cb) (fun s a => conforms s a = true ∧ roomForAnswer cb s a = true)
      (start (createClientState conf ca) store que) s) :
    acked s.log ≤ iWritten s.log ∧ iWritten s.log ≤ acked s.log + conf.protK ∧
      (s.receiver.locked = false →
        window seqMod s.st.sendSq s.st.lastAckNr = iWritten s.log - acked s.log) := by
  have h0 : Windowed conf.protK (start (createClientState conf ca) store que) := by
    have hn : Numbered (start (createClientState conf ca) store que) := numbered_start rfl rfl store que
    have ha : acked (start (createClientState conf ca) store que).log = 0 :=
      foldl_puts acknowledge (fun _ _ => rfl) 0 que
    have hw : iWritten (start (createClientState conf ca) store que).log = 0 := countP_puts _ (fun _ => rfl) que
    refine ⟨hn, rfl, by rw [ha]; rfl, by omega, ?_⟩
    rw [ha, hw]
    exact Nat.zero_le _
  have hs : Windowed conf.protK s :=
    h.inv h0 fun _ _ _ hi hok hstep => windowed_move hk hi hok (step_move hstep)
  refine ⟨hs.le, ?_, hs.unack hk⟩
  have := hs.bound
  omega

def giFrame (ns nr : Nat) : Bytes := iFrame ns nr [0x64, 0x01, 0x06, 0x00, 0x01, 0x00, 0x00, 0x00, 0x00, 0x14]

def sendAndInterrogate : List (Act Unit) :=
  [.recv startdtAct sampleTime, .handle, .put (point 1 45 1), .send false, .send false, .send false, .send false,
    .send false, .recv (giFrame 0 0) sampleTime, .handle, .handle]

/-- With `k = 1` two I-frames are on their way. -/
theorem a_confirmation_exceeds_the_window :
    ¬ ∀ s, Reach (step emptyStation) (fun s a => conforms s a = true)
        (start (createClientState { kp1Conf with protK := 1 } 1) () []) s →
      iWritten s.log ≤ acked s.log + 1 := by
  intro hall
  have hrun : (run (checked conforms (step emptyStation))
      (start (createClientState { kp1Conf with protK := 1 } 1) () []) sendAndInterrogate).map
        (fun s => (iWritten s.log, acked s.log)) = some (2, 0) := by decide
  obtain ⟨s, hr, hs⟩ := exists_of_run _ hrun
  have hle := hall s (reach_of_checked hr)
  simp only [Prod.mk.injEq] at hs
  omega

theorem outstanding_le_sendAndInterrogate : ∃ s : Conn Unit, iWritten s.log = 2 ∧
    acked s.log ≤ iWritten s.log ∧ iWritten s.log ≤ acked s.log + 30 ∧
      (s.receiver.locked = false →
        window seqMod s.st.sendSq s.st.lastAckNr = iWritten s.log - acked s.log) := by
  have hrun : (run (checked (fun s a => conforms s a && roomForAnswer emptyStation s a) (step emptyStation))
      (start (createClientState kp1Conf 1) () []) sendAndInterrogate).map (fun s => iWritten s.log) = some 2 := by
    decide
  obtain ⟨s, hr, hs⟩ := exists_of_run _ hrun
  have hr := (reach_of_checked hr).mono fun s a h => by simpa using h
  exact ⟨s, hs, outstanding_le emptyStation kp1Conf 1 () [] (by decide) s hr⟩

/-! ## The w-window -/

/-- A response of the receive thread that carries an `N(R)`. -/
def Obs.givesNr : Obs → Bool
  | .reply f => isI f || isS f
  | _ => false

def countSince (n : Nat) (o : Obs) : Nat := if o.takesI then n + 1 else if o.givesNr then 0 else n

/-- I-frames taken since the receive thread last sent an `N(R)`. -/
def sinceNr (log : List Obs) : Nat := log.foldl countSince 0

theorem sinceNr_snoc (log : List Obs) (o : Obs) : sinceNr (log ++ [o]) = countSince (sinceNr log) o := by
  simp [sinceNr, List.foldl_append]

/-- No U-frame is answered while I-frames are counted. -/
def uFramesApart (s : Conn σ) : Act σ → Bool
  | .recv f _ => ((uFunction f).bind uResp).isNone || s.st.recCountSinceSend = 0
  | _ => true

/-- `rec_count_since_send` against the history, at each stage of a frame. -/
structure Counting (w : Nat) (s : Conn σ) : Prop where
  conf : s.st.conf.protW = w
  lt : s.receiver ≠ .failed → s.receiver ≠ .closed → s.st.recCountSinceSend < w
  free : s.receiver = .free → s.st.recCountSinceSend = sinceNr s.log
  information : ∀ o puts, s.receiver = .handling (some (.I, o)) puts →
    s.st.recCountSinceSend + 1 = sinceNr s.log ∧ ∀ f, o = some f → isI f = true
  other : ∀ t o puts, s.receiver = .handling (some (t, o)) puts → t ≠ .I →
    s.st.recCountSinceSend = sinceNr s.log ∧
      (o.isSome = true → s.st.recCountSinceSend = 0 ∧ ∀ f, o = some f → isU f = true)

theorem counting_frame {w : Nat} {s s' : Conn σ} (h : Counting w s) (hc : s'.st.conf = s.st.conf)
    (hn : s'.st.recCountSinceSend = s.st.recCountSinceSend) (hr : s'.receiver = s.receiver)
    (hlog : sinceNr s'.log = sinceNr s.log) : Counting w s' := by
  refine ⟨by rw [hc]; exact h.conf, ?_, ?_, ?_, ?_⟩
  · rw [hr, hn]
    exact h.lt
  · rw [hr, hn, hlog]
    exact h.free
  · rw [hr, hn, hlog]
    exact h.information
  · rw [hr, hn, hlog]
    exact h.other

theorem counting_free {w : Nat} {s' : Conn σ} (hc : s'.st.conf.protW = w) (hr : s'.receiver = .free)
    (hlt : s'.st.recCountSinceSend < w) (hn : s'.st.recCountSinceSend = sinceNr s'.log) : Counting w s' := by
  refine ⟨hc, fun _ _ => hlt, fun _ => hn, ?_, ?_⟩
  · intro o puts he
    rw [hr] at he
    cases he
  · intro t o puts he
    rw [hr] at he
    cases he

theorem counting_over {w : Nat} {s' : Conn σ} (hc : s'.st.conf.protW = w)
    (hr : s'.receiver = .failed ∨ s'.receiver = .closed) : Counting w s' := by
  refine ⟨hc, fun hf hcl => ?_, fun he => ?_, fun o puts he => ?_, fun t o puts he => ?_⟩
  · rcases hr with hr | hr
    · exact absurd hr hf
    · exact absurd hr hcl
  all_goals
    rw [he] at hr
    rcases hr with hr | hr
    · cases hr
    · cases hr

/-- A frame that is not answered with an I-frame; a U-frame is answered only at count zero. -/
theorem counting_take {w : Nat} {s : Conn σ} {frame : Bytes} {now : Datetime} (h : Counting w s)
    (hok : uFramesApart s (.recv frame now) = true) (hfree : s.receiver = .free)
    {result : Option (FrameType × Option Bytes)} (hq : QuietResult frame result) (store : σ) (puts : List IecEvent) :
    Counting w { s with
      st := noted frame s.st, store, receiver := .handling result puts, log := s.log ++ [.got frame] } := by
  have hlt := h.lt (by rw [hfree]; simp) (by rw [hfree]; simp)
  have hcount := h.free hfree
  have hsame : numberedI frame = false → sinceNr (s.log ++ [.got frame]) = sinceNr s.log := by
    intro hn
    simp [sinceNr_snoc, countSince, Obs.takesI, hn, Obs.givesNr]
  obtain ⟨r, hq, rfl⟩ := hq
  refine ⟨h.conf, fun _ _ => hlt, fun he => (by cases he), ?_, ?_⟩
  · intro o puts' he
    cases hq with
    | information hn =>
      cases he
      refine ⟨?_, fun f hf => by cases hf⟩
      rw [sinceNr_snoc, countSince, show (Obs.got frame).takesI = true from hn, if_pos rfl, ← hcount]
      rfl
    | _ => cases he
  · intro t o puts' he ht
    cases hq with
    | information hn =>
      cases he
      exact absurd rfl ht
    | supervisory hs =>
      cases he
      refine ⟨?_, fun ho => by cases ho⟩
      rw [hsame (by simp [numberedI, (only_S hs).1])]
      exact hcount
    | unnumbered hu =>
      cases he
      refine ⟨?_, fun ho => ?_⟩
      · rw [hsame (by simp [numberedI, (only_U hu).1])]
        exact hcount
      · have ho' : ((uFunction frame).bind uResp).isNone = false := by
          cases hx : (uFunction frame).bind uResp with
          | none => rw [hx] at ho; cases ho
          | some f => rfl
        have hz : s.st.recCountSinceSend = 0 := by simpa [uFramesApart, ho'] using hok
        refine ⟨hz, fun f hf => ?_⟩
        obtain ⟨u, -, hresp⟩ := Option.bind_eq_some_iff.mp hf
        exact isU_uResp hresp
    | raised e => cases he

theorem counting_move {w : Nat} {s s' : Conn σ} {a : Act σ} (h : Counting w s) (hok : uFramesApart s a = true)
    (hm : Move cb s a s') : Counting w s' := by
  cases hm with
  | put event => exact counting_frame h rfl rfl rfl (by rw [sinceNr_snoc]; rfl)
  | store | stop | timeout | get | discard | enable | block | pass | putBack | pack | miss | packed | putBackNext
  | unsupported | ended | keep => exact counting_frame h rfl rfl rfl rfl
  | write => exact counting_frame h rfl rfl rfl (by rw [sinceNr_snoc]; rfl)
  | testfr => exact counting_frame h rfl rfl rfl (by rw [sinceNr_snoc]; rfl)
  | answer frame now store puts hfree hf hn ha =>
    have hlt := h.lt (by rw [hfree]; simp) (by rw [hfree]; simp)
    have hsince : sinceNr (s.log ++ [.got frame]) = sinceNr s.log + 1 := by
      rw [sinceNr_snoc, countSince, show (Obs.got frame).takesI = true from hn, if_pos rfl]
    refine ⟨h.conf, fun _ _ => hlt, fun he => (by cases he), ?_, ?_⟩
    · intro o puts' he
      cases he
      refine ⟨by rw [hsince, ← h.free hfree]; rfl, ?_⟩
      intro f hf
      cases hf
      exact isI_iFrame _ _ _
    · intro t o puts' he ht
      cases he
      exact absurd rfl ht
  | take frame now store puts result hfree hf hq => exact counting_take h hok hfree hq store puts
  | handlerPut result event puts hr =>
    have hsame : sinceNr (s.log ++ [.put event]) = sinceNr s.log := by rw [sinceNr_snoc]; rfl
    have hlt := h.lt (by rw [hr]; simp) (by rw [hr]; simp)
    refine ⟨h.conf, fun _ _ => hlt, fun he => (by cases he), ?_, ?_⟩
    · intro o puts' he
      cases he
      rw [hsame]
      exact h.information o _ hr
    · intro t o puts' he ht
      cases he
      rw [hsame]
      exact h.other t o _ hr ht
  | raised result hr => exact counting_over h.conf (.inl rfl)
  | reply fType response hr =>
    have hlt := h.lt (by rw [hr]; simp) (by rw [hr]; simp)
    refine counting_free h.conf rfl (Nat.lt_of_le_of_lt (Nat.zero_le _) hlt) ?_
    rw [sinceNr_snoc, countSince]
    by_cases ht : fType = .I
    · subst ht
      have hI := (h.information _ _ hr).2 response rfl
      simp [Obs.takesI, Obs.givesNr, hI]
    · obtain ⟨hsame, hresp⟩ := h.other _ _ _ hr ht
      obtain ⟨hz, hU⟩ := hresp rfl
      obtain ⟨hI, hS⟩ := only_U (hU response rfl)
      simp only [Obs.takesI, Obs.givesNr, hI, hS, Bool.or_self, Bool.false_eq_true, if_false]
      omega
  | sFrame hr =>
    have hlt := h.lt (by rw [hr]; simp) (by rw [hr]; simp)
    refine counting_free h.conf rfl (Nat.lt_of_le_of_lt (Nat.zero_le _) hlt) ?_
    rw [sinceNr_snoc, countSince]
    simp [Obs.takesI, Obs.givesNr, isS_sFrame]
  | counted hr hw =>
    refine counting_free h.conf rfl ?_ (h.information _ _ hr).1
    rw [← h.conf]
    exact hw
  | done fType hr ht =>
    have hlt := h.lt (by rw [hr]; simp) (by rw [hr]; simp)
    exact counting_free h.conf rfl hlt (h.other _ _ _ hr ht).1
  | close hr => exact counting_over h.conf (.inr rfl)

/-- In every run in which no U-frame is answered while I-frames are counted, fewer than `w` taken
    I-frames are unacknowledged whenever a frame has been handled. -/
theorem unacknowledged_lt (cb : Callbacks σ) (conf : Conf) (ca : Int) (store : σ) (que : List IecEvent)
    (hw : 1 ≤ conf.protW) (s : Conn σ)
    (h : Reach (step cb) (fun s a => uFramesApart s a = true) (start (createClientState conf ca) store que) s)
    (hfree : s.receiver = .free) : sinceNr s.log < conf.protW := by
  have h0 : Counting conf.protW (start (createClientState conf ca) store que) := by
    exact counting_free rfl rfl hw (foldl_puts countSince (fun _ _ => rfl) 0 que).symm
  have hs : Counting conf.protW s := h.inv h0 fun _ _ _ hi hok hstep => counting_move hi hok (step_move hstep)
  rw [← hs.free hfree]
  exact hs.lt (by rw [hfree]; simp) (by rw [hfree]; simp)

def clockFrame (ns nr : Nat) : Bytes := iFrame ns nr [0x67, 0x01, 0x06, 0x00, 0x01, 0x00, 0x00, 0x00, 0x00, 0x00]

/-- With `w = 2` a test frame between two I-frames leaves both unacknowledged. -/
theorem a_test_frame_hides_received_frames :
    ¬ ∀ s, Reach (step emptyStation) anyway (start (createClientState { kp1Conf with protW := 2 } 1) () []) s →
      s.receiver = .free → sinceNr s.log < 2 := by
  intro hall
  have hrun : (run (step emptyStation) (start (createClientState { kp1Conf with protW := 2 } 1) () [])
      [.recv (clockFrame 0 0) sampleTime, .handle, .recv testfrAct sampleTime, .handle,
        .recv (clockFrame 1 0) sampleTime, .handle]).map
        (fun s => (s.receiver, sinceNr s.log)) = some (.free, 2) := by decide
  obtain ⟨s, hr, hs⟩ := exists_of_run _ hrun
  simp only [Prod.mk.injEq] at hs
  have hlt := hall s hr hs.1
  omega

theorem unacknowledged_lt_apart : ∃ s : Conn Unit, sinceNr s.log = 1 ∧ sinceNr s.log < kp1Conf.protW := by
  have hrun : (run (checked uFramesApart (step emptyStation)) (start (createClientState kp1Conf 1) () [])
      [.recv startdtAct sampleTime, .handle, .recv (clockFrame 0 0) sampleTime, .handle]).map
        (fun s => (s.receiver, sinceNr s.log)) = some (.free, 1) := by decide
  obtain ⟨s, hr, hs⟩ := exists_of_run _ hrun
  simp only [Prod.mk.injEq] at hs
  exact ⟨s, hs.2, unacknowledged_lt emptyStation kp1Conf 1 () [] (by decide) s (reach_of_checked hr) hs.1⟩

end Drv60870.Server
