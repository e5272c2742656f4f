/-
  Drv60870.Link.Released — flow control between the two stations.

  `Joined` ties the histories of the stations to the streams: what one has written is what
  the other has taken and what is on its way. It is kept by every step of either station
  (`step_joined`). An interrogation gives the `N(R)` of the moment it was built, and is sent
  later; `recent` bounds how far it may be behind the last S-frame.

  Proved:
  - With both streams empty the server knows the client's last `N(R)`, and the client has taken
    all the server wrote (`Joined.met`).
  - With `w` at most `k` and `k` below 32768, in every run in which no interrogation gives an
    `N(R)` more than `k - w` behind the last S-frame: the server's window is open whenever
    both stations are at rest (`released`).
  - Otherwise three frames count as not acknowledged, all of them received and nothing on its
    way: the server has heard the older number last
    (`a_late_interrogation_blocks_the_server`).
-/

import Drv60870.Link.Stations
import Drv60870.Server.Sequence

namespace Drv60870.Link

open Lib.Octets Lib.Calendar Lib.Cyclic Lib.Runs Drv60870.Const Protocol Stations

variable {σ : Type} {cb : Callbacks σ}

structure Ends (w d : Nat) (l : Stations σ) : Prop where
  num : Server.Numbered l.server
  framed : Server.Framed l.server
  tracked : Client.Tracked l.client
  ack : Client.Acknowledging w d l.client

/-- The client's frames are those the server took, `front`, and those in the stream. -/
def Up (l : Stations σ) (front : List Bytes) : Prop :=
  l.server.receiver ≠ .closed → ∃ fs, Carries l.up fs ∧
    Client.written l.client.log = Server.taken l.server.log ++ (front ++ fs)

def Down (l : Stations σ) (front : List Bytes) : Prop :=
  ∃ fs, Carries l.down fs ∧ Server.written l.server.log = Client.taken l.client.log ++ (front ++ fs)

structure Joined (w d : Nat) (l : Stations σ) : Prop where
  ends : Ends w d l
  up : Up l []
  down : Down l []

theorem serverStep_joined {w d : Nat} {l l' : Stations σ} {a : Server.Act σ} (he : Ends w d l)
    (hu : Up l a.takes) (hd : Down l []) (h : serverStep cb l a = some l') : Joined w d l' := by
  obtain ⟨s, hs, rfl⟩ := Option.map_eq_some_iff.mp h
  have hm := Server.step_move hs
  have hframed := Server.framed_move he.framed hm
  obtain ⟨os, hlog, htk⟩ := hm.log
  have hnew : s.log.drop l.server.log.length = os := by rw [hlog, List.drop_left]
  refine ⟨⟨Server.numbered_move he.num hm, hframed, he.tracked, he.ack⟩, ?_, ?_⟩
  · intro hopen
    obtain ⟨fs, hc, hw⟩ := hu fun hcl => hopen (hm.closed hcl)
    refine ⟨fs, hc, ?_⟩
    rw [hlog, Server.taken_append, htk, List.append_assoc]
    exact hw
  · obtain ⟨fs, hc, hw⟩ := hd
    have hwhole : ∀ f ∈ Server.written os, Whole f := by
      intro f hf
      apply hframed.whole f
      rw [hlog, Server.written_append]
      exact List.mem_append_right _ hf
    refine ⟨fs ++ Server.written os, ?_, ?_⟩
    · rw [hnew]
      exact hc.send hwhole
    · rw [hlog, Server.written_append, hw, List.nil_append, List.nil_append, List.append_assoc]

theorem clientStep_joined {w d : Nat} (hw : 1 ≤ w) {l l' : Stations σ} {a : Client.Act} (he : Ends w d l)
    (hok : Client.recent d l.client a = true) (hu : Up l []) (hd : Down l a.takes)
    (h : clientStep l a = some l') : Joined w d l' := by
  obtain ⟨s, hs, rfl⟩ := Option.map_eq_some_iff.mp h
  have hm := Client.step_move hs
  have htracked := Client.tracked_move he.tracked hm
  obtain ⟨os, hlog, htk⟩ := hm.log
  have hnew : s.log.drop l.client.log.length = os := by rw [hlog, List.drop_left]
  refine ⟨⟨he.num, he.framed, htracked, Client.acknowledging_move hw he.tracked he.ack hok hm⟩, ?_, ?_⟩
  · intro hopen
    obtain ⟨fs, hc, hwr⟩ := hu hopen
    have hwhole : ∀ f ∈ Client.written os, Whole f := by
      intro f hf
      apply htracked.whole f
      rw [hlog, Client.written_append]
      exact List.mem_append_right _ hf
    refine ⟨fs ++ Client.written os, ?_, ?_⟩
    · rw [hnew]
      exact hc.send hwhole
    · rw [hlog, Client.written_append, hwr, List.nil_append, List.nil_append, List.append_assoc]
  · obtain ⟨fs, hc, hwr⟩ := hd
    refine ⟨fs, hc, ?_⟩
    rw [hlog, Client.taken_append, htk, List.append_assoc]
    exact hwr

/-! ## Steps of the receive threads -/

theorem serverRecv_joined {w d : Nat} {l l' : Stations σ} {n : Nat} (h : Joined w d l)
    (hs : serverRecvStep cb l n = some l') : Joined w d l' := by
  unfold serverRecvStep at hs
  split at hs
  · obtain ⟨up, hr, hs⟩ := Option.bind_eq_some_iff.mp hs
    have hup : Up { l with up } [] := by
      intro hopen
      obtain ⟨fs, hc, hw⟩ := h.up hopen
      exact ⟨fs, hc.recv hr, hw⟩
    have hends : Ends w d { l with up } := ⟨h.ends.num, h.ends.framed, h.ends.tracked, h.ends.ack⟩
    split at hs
    · exact serverStep_joined (a := .close) hends hup h.down hs
    · cases hs
      exact ⟨hends, hup, h.down⟩
  · cases hs

theorem serverPass_joined {w d : Nat} {l l' : Stations σ} {now : Datetime} (h : Joined w d l)
    (hs : serverPassStep cb l now = some l') : Joined w d l' := by
  unfold serverPassStep at hs
  split at hs
  · rename_i hfree
    have hopen : l.server.receiver ≠ .closed := by rw [hfree]; simp
    obtain ⟨fs, hc, hw⟩ := h.up hopen
    obtain ⟨⟨o, up⟩, hp, hs⟩ := Option.bind_eq_some_iff.mp hs
    have hends : Ends w d { l with up } := ⟨h.ends.num, h.ends.framed, h.ends.tracked, h.ends.ack⟩
    cases o with
    | some frame =>
      obtain ⟨rest, rfl, hc'⟩ := hc.pass Deframe.serverPass_eq hp
      exact serverStep_joined (a := .recv frame now) hends (fun _ => ⟨rest, hc', hw⟩) h.down hs
    | none =>
      cases hs
      exact ⟨hends, fun _ => ⟨fs, hc.done Deframe.serverPass_eq hp, hw⟩, h.down⟩
  · cases hs

theorem clientRecv_joined {w d : Nat} {l l' : Stations σ} {n : Nat} (h : Joined w d l)
    (hs : clientRecvStep l n = some l') : Joined w d l' := by
  unfold clientRecvStep at hs
  split at hs
  · obtain ⟨down, hr, rfl⟩ := Option.map_eq_some_iff.mp hs
    obtain ⟨fs, hc, hw⟩ := h.down
    exact ⟨⟨h.ends.num, h.ends.framed, h.ends.tracked, h.ends.ack⟩, h.up, fs, hc.recv hr, hw⟩
  · cases hs

theorem clientPass_joined {w d : Nat} (hw : 1 ≤ w) {l l' : Stations σ} (h : Joined w d l)
    (hs : clientPassStep l = some l') : Joined w d l' := by
  unfold clientPassStep at hs
  split at hs
  · obtain ⟨fs, hc, hwr⟩ := h.down
    obtain ⟨⟨o, down⟩, hp, hs⟩ := Option.bind_eq_some_iff.mp hs
    have hends : Ends w d { l with down } := ⟨h.ends.num, h.ends.framed, h.ends.tracked, h.ends.ack⟩
    cases o with
    | some frame =>
      obtain ⟨rest, rfl, hc'⟩ := hc.pass Deframe.clientPass_eq hp
      exact clientStep_joined (a := .recv frame) hw hends rfl h.up ⟨rest, hc', hwr⟩ hs
    | none =>
      cases hs
      exact ⟨hends, h.up, fs, hc.done Deframe.clientPass_eq hp, hwr⟩
  · cases hs

/-! ## Runs -/

/-- An interrogation is written whose `N(R)` is at most `d` behind the last S-frame. -/
def recent (d : Nat) (l : Stations σ) : Act σ → Bool
  | .client a => Client.recent d l.client a
  | _ => true

theorem step_joined {w d : Nat} (hw : 1 ≤ w) {l l' : Stations σ} {a : Act σ} (h : Joined w d l)
    (hok : recent d l a = true) (hs : step cb l a = some l') : Joined w d l' := by
  cases a with
  | server a =>
    simp only [step] at hs
    split at hs
    · rename_i ht
      exact serverStep_joined h.ends (by rw [ht]; exact h.up) h.down hs
    · cases hs
  | client a =>
    simp only [step] at hs
    split at hs
    · rename_i ht
      exact clientStep_joined hw h.ends hok h.up (by rw [ht]; exact h.down) hs
    · cases hs
  | serverRecv n => exact serverRecv_joined h hs
  | serverPass now => exact serverPass_joined h hs
  | clientRecv n => exact clientRecv_joined h hs
  | clientPass => exact clientPass_joined hw h hs

/-- With both streams empty the server knows the client's last `N(R)`, and the client has taken all the
    server wrote. -/
theorem Joined.met {w d : Nat} {l : Stations σ} (h : Joined w d l) (hfree : l.server.receiver = .free)
    (hup : l.up.chan = [] ∧ l.up.draining = false) (hdown : l.down.chan = [] ∧ l.down.draining = false) :
    l.server.st.lastAckNr = lastNr (Client.written l.client.log) ∧
      Server.iWritten l.server.log = Client.iTaken l.client.log := by
  obtain ⟨fs, hc, hw⟩ := h.up (by rw [hfree]; simp)
  obtain ⟨gs, hc', hw'⟩ := h.down
  rw [hc.empty hup.1 hup.2, List.append_nil, List.append_nil] at hw
  rw [hc'.empty hdown.1 hdown.2, List.append_nil, List.append_nil] at hw'
  refine ⟨by rw [hw]; exact h.ends.framed.lastAck, ?_⟩
  rw [Server.iWritten_eq, Client.iTaken_eq, ← hw']
  exact List.countP_congr fun f hf => by rw [(h.ends.framed.whole f hf).numberedI]

theorem Joined.rest {w d : Nat} {l : Stations σ} (h : Joined w d l) (hr : AtRest l) :
    l.server.st.lastAckNr = lastNr (Client.written l.client.log) ∧
      Server.iWritten l.server.log = Client.iTaken l.client.log :=
  h.met hr.clientRec hr.up hr.down

theorem joined_start {conf' : Conf} (hw : 1 ≤ conf'.protW) (conf : Conf) (ca ca' : Int) (store : σ)
    (que : List IecEvent) (onData : Bool) (d : Nat) : Joined conf'.protW d
      (start (Server.start (createClientState conf ca) store que)
        (Client.start (createClientState conf' ca') onData)) := by
  have ht : Server.taken (Server.start (createClientState conf ca) store que).log = [] := Server.taken_start _ store que
  have hwr : Server.written (Server.start (createClientState conf ca) store que).log = [] :=
    Server.written_start _ store que
  refine ⟨⟨Server.numbered_start rfl rfl store que, Server.framed_start rfl store que,
    Client.tracked_start rfl rfl onData, Client.acknowledging_start hw ca' onData d⟩, fun _ => ?_, ?_⟩
  · exact ⟨[], carries_nothing, (congrArg (· ++ []) ht).symm⟩
  · exact ⟨[], carries_nothing, hwr⟩

/-- In every run in which no interrogation gives an `N(R)` more than `k - w` behind the last
    S-frame, the server's window is open whenever both stations are at rest. -/
theorem released (cb : Callbacks σ) (conf conf' : Conf) (ca ca' : Int) (store : σ) (que : List IecEvent)
    (onData : Bool) (hw : 1 ≤ conf'.protW) (hwk : conf'.protW ≤ conf.protK) (hk : conf.protK < seqMod)
    (l : Stations σ)
    (h : Reach (step cb) (fun l a => recent (conf.protK - conf'.protW) l a = true)
      (start (Server.start (createClientState conf ca) store que)
        (Client.start (createClientState conf' ca') onData)) l)
    (hr : AtRest l) : window seqMod l.server.st.sendSq l.server.st.lastAckNr < conf.protK := by
  have hj : Joined conf'.protW (conf.protK - conf'.protW) l :=
    h.inv (joined_start hw conf ca ca' store que onData _) fun _ _ _ hj hok hs => step_joined hw hj hok hs
  obtain ⟨hack, hall⟩ := hj.rest hr
  obtain ⟨r, hlast, hle, hge⟩ := hj.ends.ack.last
  have hcount := hj.ends.ack.count
  have hsend : l.server.st.sendSq = Client.iTaken l.client.log % seqMod := by
    rw [hj.ends.num.sendSq, hr.clientRec, hall]
    rfl
  rw [hsend, hack, hlast, window_eq hle (by omega)]
  omega

/-! ## A late interrogation -/

def windowsOfTwo : Conf := { kp1Conf with protK := 2, protW := 2 }

def serverTakes (n handles : Nat) : List (Act Unit) :=
  [.serverRecv n, .serverPass sampleTime] ++ List.replicate handles (.server .handle) ++ [.serverPass sampleTime]

def clientTakes (n : Nat) : List (Act Unit) := [.clientRecv n, .clientPass, .clientPass]

def startdt : List (Act Unit) :=
  [.client .startdt, .client (.send false), .client (.send false)] ++ serverTakes 6 1 ++ clientTakes 6

def sendValue : List (Act Unit) :=
  .server (.put (point 1 45 1)) :: List.replicate 6 (.server (.send false)) ++ clientTakes 16

def buildGi : List (Act Unit) := [.client .gi, .client (.build 0 sampleTime), .client (.enqueue 0)]
def sendGi : List (Act Unit) := [.client (.send false), .client (.send false)]

/-- The interrogation is built, two values are sent and acknowledged, and then it is sent. -/
def lateInterrogation : List (Act Unit) :=
  startdt ++ buildGi ++ sendValue ++ sendValue ++ serverTakes 6 1 ++ sendGi ++ serverTakes 16 2 ++ clientTakes 16

/-- The same with the interrogation built after the acknowledgement. -/
def timelyInterrogation : List (Act Unit) :=
  startdt ++ sendValue ++ sendValue ++ serverTakes 6 1 ++ buildGi ++ sendGi ++ serverTakes 16 2 ++ clientTakes 16

def newStations : Stations Unit :=
  start (Server.start (createClientState windowsOfTwo 1) () []) (Client.start (createClientState windowsOfTwo 1) true)

/-- The server has heard the older number last: three frames count as not acknowledged, all of
    them received, and nothing is on its way. -/
theorem a_late_interrogation_blocks_the_server :
    ¬ ∀ l, Reach (step emptyStation) anyway newStations l → AtRest l → l.client.calls = [] →
      window seqMod l.server.st.sendSq l.server.st.lastAckNr < 2 := by
  intro hall
  have hrun : (run (step emptyStation) newStations lateInterrogation).map (fun l =>
      (decide (AtRest l), l.client.calls, window seqMod l.server.st.sendSq l.server.st.lastAckNr)) =
        some (true, [], 3) := by decide
  obtain ⟨l, hr, hl⟩ := exists_of_run _ hrun
  simp only [Prod.mk.injEq, decide_eq_true_eq] at hl
  have hlt := hall l hr hl.1 hl.2.1
  rw [hl.2.2] at hlt
  omega

theorem released_timelyInterrogation : ∃ l : Stations Unit,
    l.server.st.sendSq = 3 ∧ window seqMod l.server.st.sendSq l.server.st.lastAckNr < 2 := by
  have hrun : (run (checked (recent 0) (step emptyStation)) newStations timelyInterrogation).map (fun l =>
      (decide (AtRest l), l.server.st.sendSq)) = some (true, 3) := by decide
  obtain ⟨l, hr, hl⟩ := exists_of_run _ hrun
  simp only [Prod.mk.injEq, decide_eq_true_eq] at hl
  exact ⟨l, hl.2, released emptyStation windowsOfTwo windowsOfTwo 1 1 () [] true (by decide) (by decide) (by decide) l
    (reach_of_checked hr) hl.1⟩

end Drv60870.Link
