/-
  Drv60870.Client.Receive — `recv_loop` and what ends it (`client.py`).

  A step is the loop's test of `stop_event`, one `recv`, or one pass of the inner loop:
  a frame cut and processed, or the buffer left for more. Sends may fail or time out; other
  threads may set `stop_event` at any time. The loop catches socket errors only, so an
  exception of `process_frame` ends it without `stop_event`, and `run_client_loop` does not
  find the session (`Detectable`).

  Proved:
  - In every run, for every stream, every way it arrives and every failure of the socket:
    `recv_loop` ends with `stop_event` set exactly when each frame cut while it is not set is
    `processable`: it has its control field, and does not end inside a time tag that is decoded
    (`detectable_iff`).
  - A frame without its control field raises before anything else (`processFrame_headless`);
    three frames of no octets end the loop (`an_empty_frame_ends_the_loop`).
-/

import Drv60870.Deframe
import Drv60870.Protocol.Truncation
import Drv60870.Client.SessionProofs

namespace Drv60870.Client

open Lib.Octets Lib.Calendar Lib.Python Lib.Runs Drv60870.Const Protocol

inductive RecvPc where
  | test
  | receiving
  | cutting
  | returned
  | raised (e : PyErr)
  deriving DecidableEq

/-- What `recv` does; no octets mean that the server has closed the connection. -/
inductive Recv where
  | data (octets : Bytes)
  | timeout
  | failed

inductive Sent where
  | ok
  | timeout
  | failed
  deriving DecidableEq

structure Receiver where
  st : ClientState
  onData : Bool
  rxBuf : Bytes
  stopEvent : Bool
  pc : RecvPc

inductive Receiver.Act where
  /-- Another thread sets `stop_event`. -/
  | stop
  | test
  | recv (r : Recv)
  /-- A pass of the inner loop; `sent` is for the case that it sends. -/
  | cut (sent : Sent)

namespace Receiver

def start (st : ClientState) (onData : Bool) : Receiver := ⟨st, onData, [], false, .test⟩

def recvStep (s : Receiver) : Recv → Receiver
  | .data [] => { s with stopEvent := true, pc := .returned }
  | .data octets => { s with rxBuf := s.rxBuf ++ octets, pc := .cutting }
  | .timeout => { s with pc := .test }
  | .failed => { s with stopEvent := true, pc := .returned }

/-- A frame's octets are out of the buffer before it is processed. The count of received
    frames is reset after its acknowledgement is sent. -/
def cutStep (s : Receiver) (sent : Sent) : Receiver :=
  match Deframe.clientPass s.rxBuf with
  | (none, rxBuf) => { s with rxBuf, pc := .test }
  | (some frame, rxBuf) =>
    let p := processFrame s.onData s.st frame
    let unsent := { p.st with
      recCountSinceSend := if numberedI frame then s.st.recCountSinceSend + 1 else s.st.recCountSinceSend }
    if p.reply.isSome = true ∧ sent = .failed then { s with rxBuf, st := unsent, stopEvent := true, pc := .returned }
    else if p.reply.isSome = true ∧ sent = .timeout then { s with rxBuf, st := unsent, pc := .test }
    else
      match p.result with
      | .ok () => { s with rxBuf, st := p.st }
      | .error e => { s with rxBuf, st := p.st, pc := .raised e }

def step (s : Receiver) : Act → Option Receiver
  | .stop => some { s with stopEvent := true }
  | .test => if s.pc = .test then some { s with pc := if s.stopEvent then .returned else .receiving } else none
  | .recv r => if s.pc = .receiving then some (s.recvStep r) else none
  | .cut sent => if s.pc = .cutting then some (s.cutStep sent) else none

/-! ## Detection -/

def ended (s : Receiver) : Bool :=
  match s.pc with
  | .returned | .raised _ => true
  | _ => false

/-- `run_client_loop` finds a session whose receiver has ended. -/
def Detectable (s : Receiver) : Prop := s.ended = true → s.stopEvent = true

def headed (f : Bytes) : Bool := decide (3 ≤ f.length) && (isU f || decide (6 ≤ f.length))

def acksNow (st : ClientState) : Bool := decide (st.conf.protW ≤ st.recCountSinceSend + 1)

/-- The frame can be processed. One that ends inside a time tag cannot be decoded; it is not
    where `on_data` is not set, nor where sending the acknowledgement fails first. -/
def processable (s : Receiver) (sent : Sent) (f : Bytes) : Prop :=
  headed f = true ∧
    (s.onData = true → isI f = true → cutsTime f = true → acksNow s.st = true ∧ sent ≠ .ok)

def cutsProcessable (s : Receiver) : Act → Prop
  | .cut sent => ∀ f rxBuf, Deframe.clientPass s.rxBuf = (some f, rxBuf) →
      s.stopEvent = true ∨ s.processable sent f
  | _ => True

/-! ## Processing a frame -/

theorem headed_cases {f : Bytes} (h : headed f = true) : numberedI f = true ∨ numberedS f = true ∨ isU f = true := by
  simp only [headed, Bool.and_eq_true, Bool.or_eq_true, decide_eq_true_eq] at h
  cases control_cases f with
  | information hI => exact .inl hI
  | supervisory hS => exact .inr (.inl hS)
  | unnumbered hU => exact .inr (.inr hU)
  | short hU h6 =>
    rcases h.2 with hU' | h6'
    · rw [hU] at hU'
      cases hU'
    · omega

/-- A frame without its control field raises before anything else. -/
theorem processFrame_headless (onData : Bool) (st : ClientState) {f : Bytes} (h : headed f = false) :
    (∃ e, (processFrame onData st f).result = .error e) ∧ (processFrame onData st f).reply = none := by
  have hshort : isU f = false ∧ f.length < 6 := by
    cases hU : isU f with
    | true =>
      have h3 : 3 ≤ f.length := two_lt_of_ctrl hU
      rw [headed, hU, decide_eq_true h3] at h
      cases h
    | false =>
      refine ⟨rfl, Nat.not_le.mp fun h6 => ?_⟩
      rw [headed, hU, decide_eq_true h6, decide_eq_true (show 3 ≤ f.length by omega)] at h
      cases h
  obtain ⟨e, he⟩ := processFrame_short onData st hshort.1 hshort.2
  rw [he]
  exact ⟨⟨e, rfl⟩, rfl⟩

/-- An S- or U-frame with its control field never raises. -/
theorem processFrame_quiet (onData : Bool) (st : ClientState) {f : Bytes} (h : numberedS f = true ∨ isU f = true) :
    (processFrame onData st f).result = .ok () := by
  rcases h with hS | hU
  · rw [processFrame_S onData st hS]
  · rw [processFrame_U onData st hU]

theorem delivered_raises (onData : Bool) (f : Bytes) :
    (∃ e, delivered onData f = .error e) ↔ onData = true ∧ cutsTime f = true := by
  unfold delivered
  cases onData with
  | false =>
    refine iff_of_false (fun he => ?_) (by simp)
    obtain ⟨e, he⟩ := he
    cases he
  | true =>
    rw [if_pos rfl, ← decode_raises_iff]
    cases decodeIFrameObjects f with
    | error e => exact iff_of_true ⟨e, rfl⟩ ⟨rfl, e, rfl⟩
    | ok objs =>
      refine iff_of_false (fun he => ?_) (fun he => ?_)
      · obtain ⟨e, he⟩ := he
        cases he
      · obtain ⟨-, e, he⟩ := he
        cases he

/-! ## What ends the loop -/

/-- The frame is processed and the acknowledgement, if any, is sent. -/
theorem detectable_processed {s : Receiver} {sent : Sent} {f : Bytes} (rxBuf : Bytes) (st : ClientState)
    (hpc : s.pc = .cutting) (hheaded : headed f = true) (hI : isI f = true)
    (hsent : ¬ (acksNow s.st = true ∧ sent ≠ .ok)) :
    Detectable (match delivered s.onData f with
      | .ok () => { s with rxBuf, st }
      | .error e => { s with rxBuf, st, pc := .raised e }) ↔ s.stopEvent = true ∨ s.processable sent f := by
  have hraises := delivered_raises s.onData f
  cases hd : delivered s.onData f with
  | ok u =>
    refine iff_of_true (fun he => ?_) (.inr ⟨hheaded, fun hon _ hcut => ?_⟩)
    · rw [ended] at he
      rw [show ({ s with rxBuf, st } : Receiver).pc = .cutting from hpc] at he
      cases he
    · obtain ⟨e, he⟩ := hraises.mpr ⟨hon, hcut⟩
      rw [hd] at he
      cases he
  | error e =>
    obtain ⟨hon, hcut⟩ := hraises.mp ⟨e, hd⟩
    constructor
    · intro h
      exact .inl (h rfl)
    · intro h _
      rcases h with h | h
      · exact h
      · exact absurd (h.2 hon hI hcut) hsent

/-- A pass ends the loop undetected exactly when its frame cannot be processed. -/
theorem detectable_cut {s : Receiver} {sent : Sent} (hpc : s.pc = .cutting) :
    Detectable (s.cutStep sent) ↔ s.cutsProcessable (.cut sent) := by
  unfold cutStep cutsProcessable
  rcases hcut : Deframe.clientPass s.rxBuf with ⟨_ | f, rxBuf⟩
  · refine iff_of_true (fun he => ?_) fun f r hf => ?_
    · cases he
    · cases hf
  have hone : (∀ f' r, ((some f, rxBuf) : Option Bytes × Bytes) = (some f', r) →
      s.stopEvent = true ∨ s.processable sent f') ↔ s.stopEvent = true ∨ s.processable sent f :=
    ⟨fun h => h f rxBuf rfl, fun h f' r he => by cases he; exact h⟩
  dsimp only
  rw [hone]
  cases hheaded : headed f with
  | false =>
    obtain ⟨⟨e, he⟩, hreply⟩ := processFrame_headless s.onData s.st hheaded
    rw [hreply, he]
    constructor
    · intro h
      exact .inl (h rfl)
    · intro h _
      rcases h with h | h
      · exact h
      · rw [h.1] at hheaded
        cases hheaded
  | true =>
    rcases headed_cases hheaded with hn | hquiet
    · have hI : isI f = true := by
        simp only [numberedI, Bool.and_eq_true] at hn
        exact hn.1
      rw [processFrame_I s.onData s.st hn]
      by_cases hw : s.st.recCountSinceSend + 1 ≥ s.st.conf.protW
      · have hacks : acksNow s.st = true := decide_eq_true hw
        rw [if_pos hw]
        cases sent with
        | failed => exact iff_of_true (fun _ => rfl) (.inr ⟨hheaded, fun _ _ _ => ⟨hacks, by decide⟩⟩)
        | timeout =>
          refine iff_of_true (fun he => ?_) (.inr ⟨hheaded, fun _ _ _ => ⟨hacks, by decide⟩⟩)
          cases he
        | ok => exact detectable_processed rxBuf _ hpc hheaded hI fun h => h.2 rfl
      · rw [if_neg hw]
        exact detectable_processed rxBuf _ hpc hheaded hI fun h => hw (of_decide_eq_true h.1)
    · -- nothing but a send can fail
      have hproc : s.processable sent f := by
        refine ⟨hheaded, fun _ hI => ?_⟩
        rcases hquiet with hS | hU
        · simp only [numberedS, Bool.and_eq_true] at hS
          rw [(only_S hS.1).1] at hI
          cases hI
        · rw [(only_U hU).1] at hI
          cases hI
      refine iff_of_true ?_ (.inr hproc)
      rw [processFrame_quiet s.onData s.st hquiet]
      split
      · exact fun _ => rfl
      split
      · intro he
        cases he
      · intro he
        rw [ended] at he
        simp only [hpc] at he
        cases he

theorem detectable_step {s s' : Receiver} {a : Act} (hs : s.step a = some s') :
    Detectable s' ↔ s.cutsProcessable a := by
  cases a with
  | stop =>
    cases hs
    exact iff_of_true (fun _ => rfl) trivial
  | test =>
    simp only [step] at hs
    split at hs
    · cases hs
      refine iff_of_true (fun he => ?_) trivial
      by_cases hstop : s.stopEvent = true
      · exact hstop
      · rw [ended] at he
        simp only [hstop] at he
        cases he
    · cases hs
  | recv r =>
    simp only [step] at hs
    split at hs
    · cases hs
      refine iff_of_true ?_ trivial
      unfold recvStep
      split
      · exact fun _ => rfl
      · intro he
        cases he
      · intro he
        cases he
      · exact fun _ => rfl
    · cases hs
  | cut sent =>
    simp only [step] at hs
    split at hs
    · rename_i hpc
      cases hs
      exact detectable_cut hpc
    · cases hs

/-- For every run of `recv_loop`: every stream, every way it arrives, every failure of the socket. -/
theorem detectable_iff (st : ClientState) (onData : Bool) (as : List Act) (s : Receiver)
    (h : run step (start st onData) as = some s) :
    Along step Detectable (start st onData) as ↔ Obeys step cutsProcessable (start st onData) as :=
  along_iff_obeys (I := fun _ => True) (fun _ _ _ _ _ => trivial) (fun _ _ _ _ _ hs => detectable_step hs) trivial
    (fun he => by cases he) h

/-- Three frames of no octets: the first has no control octet. -/
theorem an_empty_frame_ends_the_loop :
    ¬ ∀ as s, run step (start (createClientState kp1Conf 1) true) as = some s →
      Along step Detectable (start (createClientState kp1Conf 1) true) as := by
  intro hall
  have hrun : (run step (start (createClientState kp1Conf 1) true)
      [.test, .recv (.data [0x68, 0x00, 0x68, 0x00, 0x68, 0x00]), .cut .ok]).map (fun s => (s.pc, s.stopEvent)) =
      some (.raised .indexError, false) := by decide
  obtain ⟨s, hs, he⟩ := Option.map_eq_some_iff.mp hrun
  simp only [Prod.mk.injEq] at he
  have hd := (hall _ s hs).last hs
  rw [Detectable, ended, he.1, he.2] at hd
  cases hd rfl

theorem detectable_iff_startdt :
    Along step Detectable (start (createClientState kp1Conf 1) true)
        [.test, .recv (.data startdtAct), .cut .ok, .cut .ok, .test, .recv .failed] ↔
      Obeys step cutsProcessable (start (createClientState kp1Conf 1) true)
        [.test, .recv (.data startdtAct), .cut .ok, .cut .ok, .test, .recv .failed] := by
  have hrun : (run step (start (createClientState kp1Conf 1) true)
      [.test, .recv (.data startdtAct), .cut .ok, .cut .ok, .test, .recv .failed]).isSome = true := by decide
  obtain ⟨s, hs⟩ := Option.isSome_iff_exists.mp hrun
  exact detectable_iff _ _ _ s hs

end Receiver

end Drv60870.Client
