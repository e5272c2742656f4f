/-
  Drv60870.Link.Rest — the link never gets stuck.

  `effort` bounds what the threads of both stations have left to do: octets to receive, frames
  to take and to answer, events to put and to send. An interrogation costs the events it will
  put and the frames these may be sent in.

  The run is one in which nobody closes the connection and interrogations are as recent as
  `released` asks; those that wait in the client's `out_que` are sent before anything else is
  done (`Turn`). What the server has to send can be: the events that wait, and those of every
  stored signal (`Supplied`).

  Proved:
  - While anything is left, some thread can take a step that lowers the effort (`some_goes`):
    the receive threads always can, and with both streams empty the window is open for
    `client_send`.
  - No step loses an event that has an encoder once STARTDT is confirmed (`Passes.count`).
  - So from every state of such a run the threads' own steps lead to rest, with the queue empty
    and every event that waited sent and taken (`comes_to_rest`).
  Traces: three events wait at a station whose window holds two frames (`threeWaiting`).
-/

import Drv60870.Link.Alive
import Drv60870.Server.Drain

namespace Drv60870.Link

open Lib.Octets Lib.Calendar Lib.Cyclic Lib.Python Lib.Runs Drv60870.Const Protocol Storage Stations
open Server (Takeable)

variable {C Q : Type} {onCommand : Option (Val → Nat → Signals C Q → Bool × List IecEvent × Signals C Q)}

/-! ## What is left to do -/

def Pipe.effort (p : Pipe) : Nat := 2 * p.chan.length + p.draining.toNat

/-- A frame of the server, until the client has taken and answered it. -/
def downEffort (f : Bytes) : Nat := if isI f = true ∨ uFunction f = some .testfrAct then 28 else 1

def upEffort (n : Nat) (f : Bytes) : Nat := if isI f then 602 * n + 600 else 15

def downWrite (f : Bytes) : Nat := 2 * f.length + downEffort f
def upWrite (n : Nat) (f : Bytes) : Nat := 2 * f.length + upEffort n f

def answerEffort : Option (FrameType × Option Bytes) → Nat
  | some (_, some f) => downWrite f
  | some (.I, none) => 13
  | _ => 0

def receiverEffort : Server.RecPc → Nat
  | .handling result puts => 602 * puts.length + answerEffort result + 1
  | _ => 0

def turnEffort : Server.SendPc → Nat
  | .idle => 9
  | .got _ => 8
  | .enabled _ => 7
  | .blocked _ => 12
  | .packing _ _ => 6
  | .mismatch _ _ _ => 6
  | .ready _ _ => 4
  | .tail => 11
  | .test => 60
  | .stopped => 0

/-- Each event costs the frame it may be sent in. -/
def serverEffort {σ : Type} (s : Server.Conn σ) : Nat :=
  601 * s.que.length + 600 * s.sender.held.length + turnEffort s.sender + receiverEffort s.receiver

def sendLoopEffort (n : Nat) : Client.SendPc → Nat
  | .holding p => upWrite n p.octets + 1
  | _ => 0

def clientEffort (n : Nat) (s : Client.Session) : Nat :=
  (s.que.map fun p => upWrite n p.octets + 2).sum + sendLoopEffort n s.sender

def upFrames {σ : Type} (l : Stations σ) : List Bytes :=
  (Client.written l.client.log).drop (Server.taken l.server.log).length

def downFrames {σ : Type} (l : Stations σ) : List Bytes :=
  (Server.written l.server.log).drop (Client.taken l.client.log).length

def asked (store : Signals C Q) : Nat := (Server.interrogated store).length + 1

def effort (l : Stations (Signals C Q)) : Nat :=
  serverEffort l.server + clientEffort (asked l.server.store) l.client + l.up.effort + l.down.effort +
    ((upFrames l).map (upEffort (asked l.server.store))).sum + ((downFrames l).map downEffort).sum

theorem write_sum (taking : Bytes → Nat) (fs : List Bytes) :
    (fs.map fun f => 2 * f.length + taking f).sum = 2 * fs.flatten.length + (fs.map taking).sum := by
  induction fs with
  | nil => rfl
  | cons f fs ih =>
    simp only [List.map_cons, List.sum_cons, List.flatten_cons, List.length_append, ih]
    omega

theorem effort_send (p : Pipe) (fs : List Bytes) : (p.send fs).effort = p.effort + 2 * fs.flatten.length := by
  simp only [Pipe.effort, Pipe.send, List.length_append]
  omega

theorem effort_server {l : Stations (Signals C Q)} {s : Server.Conn (Signals C Q)} (up : Pipe)
    {os : List Server.Obs} {gs rest : List Bytes} (hlog : s.log = l.server.log ++ os) (htaken : Server.taken os = gs)
    (hup : upFrames l = gs ++ rest) (hdown : Client.taken l.client.log <+: Server.written l.server.log)
    (hstore : s.store = l.server.store) :
    effort { l with server := s, up, down := l.down.send (Server.written (s.log.drop l.server.log.length)) } +
        (serverEffort l.server + l.up.effort + (gs.map (upEffort (asked l.server.store))).sum) =
      effort l + (serverEffort s + up.effort + ((Server.written os).map downWrite).sum) := by
  have hnew : s.log.drop l.server.log.length = os := by rw [hlog, List.drop_left]
  have hup' : (Client.written l.client.log).drop (Server.taken s.log).length = rest := by
    rw [hlog, Server.taken_append, htaken, List.length_append, ← List.drop_drop]
    show (upFrames l).drop gs.length = rest
    rw [hup, List.drop_left]
  have hdown' : (Server.written s.log).drop (Client.taken l.client.log).length = downFrames l ++ Server.written os := by
    rw [hlog, Server.written_append, List.drop_append_of_le_length hdown.length_le]
    rfl
  rw [hnew]
  simp only [effort, upFrames, downFrames] at hup ⊢
  rw [hstore, hup', hdown', effort_send, show ((Server.written os).map downWrite).sum = _ from write_sum _ _, hup]
  simp only [List.map_append, List.sum_append, downFrames]
  omega

theorem effort_client {l : Stations (Signals C Q)} {c : Client.Session} (down : Pipe)
    {os : List Client.Obs} {gs rest : List Bytes} (hlog : c.log = l.client.log ++ os) (htaken : Client.taken os = gs)
    (hdown : downFrames l = gs ++ rest) (hup : Server.taken l.server.log <+: Client.written l.client.log) :
    effort { l with client := c, down, up := l.up.send (Client.written (c.log.drop l.client.log.length)) } +
        (clientEffort (asked l.server.store) l.client + l.down.effort + (gs.map downEffort).sum) =
      effort l + (clientEffort (asked l.server.store) c + down.effort +
        ((Client.written os).map (upWrite (asked l.server.store))).sum) := by
  have hnew : c.log.drop l.client.log.length = os := by rw [hlog, List.drop_left]
  have hdown' : (Server.written l.server.log).drop (Client.taken c.log).length = rest := by
    rw [hlog, Client.taken_append, htaken, List.length_append, ← List.drop_drop]
    show (downFrames l).drop gs.length = rest
    rw [hdown, List.drop_left]
  have hup' : (Client.written c.log).drop (Server.taken l.server.log).length = upFrames l ++ Client.written os := by
    rw [hlog, Client.written_append, List.drop_append_of_le_length hup.length_le]
    rfl
  rw [hnew]
  simp only [effort, upFrames, downFrames] at hdown ⊢
  rw [hup', hdown', effort_send, show ((Client.written os).map (upWrite _)).sum = _ from write_sum _ _, hdown]
  simp only [List.map_append, List.sum_append, upFrames]
  omega

/-! ## Steps of the server -/

/-- The step writes less than it saves, where taking a frame has saved `gain`. -/
def ServerLowers {σ : Type} (gain : Nat) (s s' : Server.Conn σ) : Prop :=
  ∃ os, s'.log = s.log ++ os ∧ s'.store = s.store ∧
    serverEffort s' + ((Server.written os).map downWrite).sum < serverEffort s + gain

theorem downWrite_sFrame (nr : Nat) : downWrite (sFrame nr) = 13 := by
  have hu : uFunction (sFrame nr) = none := by simp [uFunction, (only_S (isS_sFrame nr)).2]
  simp [downWrite, downEffort, isI_sFrame, hu]

/-- The answer to a U-frame is not answered. -/
theorem downWrite_uResp {u : UTypeId} {f : Bytes} (h : uResp u = some f) : downWrite f = 13 := by
  cases u <;> cases h <;> decide

theorem downWrite_le {f : Bytes} (h : Whole f) : downWrite f ≤ 542 := by
  have := h.length_le
  have : downEffort f ≤ 28 := by
    unfold downEffort
    split <;> omega
  simp only [downWrite]
  omega

theorem handle_lowers {σ : Type} {cb : Callbacks σ} {s s' : Server.Conn σ} (hm : Server.Move cb s .handle s') :
    ServerLowers 0 s s' := by
  cases hm with
  | handlerPut result event puts hr =>
    refine ⟨[.put event], rfl, rfl, ?_⟩
    simp only [serverEffort, hr, receiverEffort, Server.written, Server.Obs.written, List.length_append,
      List.length_cons, List.length_nil, List.filterMap_cons, List.filterMap_nil, List.map_nil, List.sum_nil]
    omega
  | raised result hr =>
    refine ⟨[], by simp, rfl, ?_⟩
    simp only [serverEffort, hr, receiverEffort, Server.written, List.filterMap_nil, List.map_nil, List.sum_nil]
    omega
  | reply fType response hr =>
    refine ⟨[.reply response], rfl, rfl, ?_⟩
    simp only [serverEffort, hr, receiverEffort, answerEffort, Server.written, Server.Obs.written,
      List.filterMap_cons, List.filterMap_nil, List.map_cons, List.map_nil, List.sum_cons, List.sum_nil,
      List.length_nil]
    omega
  | sFrame hr =>
    refine ⟨[.reply (sFrame s.st.recSq)], rfl, rfl, ?_⟩
    simp only [serverEffort, hr, receiverEffort, answerEffort, Server.written, Server.Obs.written, downWrite_sFrame,
      List.filterMap_cons, List.filterMap_nil, List.map_cons, List.map_nil, List.sum_cons, List.sum_nil,
      List.length_nil]
    omega
  | counted hr | done fType hr =>
    refine ⟨[], by simp, rfl, ?_⟩
    simp only [serverEffort, hr, receiverEffort, Server.written, List.filterMap_nil, List.map_nil, List.sum_nil]
    omega

theorem handle_goes {σ : Type} {s : Server.Conn σ} (h : s.receiver.locked = true) : ∃ s', s.handleStep = some s' := by
  cases hr : s.receiver with
  | handling result puts =>
    unfold Server.Conn.handleStep
    rw [hr]
    rcases puts with _ | ⟨event, puts⟩
    · rcases result with _ | ⟨t, response⟩
      · exact ⟨_, rfl⟩
      · dsimp only
        repeat' split
        all_goals exact ⟨_, rfl⟩
    · exact ⟨_, rfl⟩
  | free | failed | closed =>
    rw [hr] at h
    cases h

theorem answerEffort_le {σ : Type} {cb : Callbacks σ} {s s' : Server.Conn σ} {f : Bytes} {now : Datetime}
    {result : Option (FrameType × Option Bytes)} {puts : List IecEvent} (hm : Server.Move cb s (.recv f now) s')
    (hr : s'.receiver = .handling result puts) : answerEffort result ≤ if isI f then 542 else 13 := by
  cases hm with
  | answer frame now store puts hfree hframe hn =>
    cases hr
    simp only [numberedI, Bool.and_eq_true] at hn
    rw [if_pos hn.1]
    exact downWrite_le (Server.whole_ack _ _ hframe)
  | take frame now store puts result hfree hframe hq =>
    cases hr
    have h13 : 13 ≤ if isI f then 542 else 13 := by split <;> omega
    obtain ⟨r, hq, rfl⟩ := hq
    cases hq with
    | information hn => exact h13
    | supervisory hs => exact Nat.zero_le _
    | raised e => exact Nat.zero_le _
    | unnumbered hu =>
      cases hresp : (uFunction f).bind uResp with
      | none => exact Nat.zero_le _
      | some g =>
        obtain ⟨u, -, hu⟩ := Option.bind_eq_some_iff.mp hresp
        show downWrite g ≤ _
        rw [downWrite_uResp hu]
        exact h13

theorem recv_lowers {s s' : Server.Conn (Signals C Q)} {f : Bytes} {now : Datetime} {ca : Int} (hf : Whole f)
    (hg : Client.Interrogates ca f) (h : Server.Conn.recvStep (Server.station onCommand) s f now = some s') :
    ServerLowers (upEffort (asked s.store) f) s s' := by
  obtain ⟨hfree, hstore, hlog, result, puts, hr, hputs⟩ := recv_asked hf hg h
  refine ⟨[.got f], hlog, hstore, ?_⟩
  have hsame : s'.que = s.que ∧ s'.sender = s.sender := by
    cases Server.recvStep_move h with
    | answer | take => exact ⟨rfl, rfl⟩
  have hanswer := answerEffort_le (Server.recvStep_move h) hr
  simp only [serverEffort, hsame.1, hsame.2, hr, hfree, receiverEffort, Server.written, Server.Obs.written,
    List.filterMap_cons, List.filterMap_nil, List.map_nil, List.sum_nil, upEffort]
  by_cases hI : isI f = true
  · have hlen : puts.length ≤ asked s.store := by
      rcases hputs with ⟨rfl, -⟩ | rfl
      · exact Nat.zero_le _
      · simp [asked]
    rw [if_pos hI] at hanswer ⊢
    omega
  · have hother : isS f = true ∨ isU f = true := by
      rcases format_cases (f := f) (by have := hf.long; omega) with ⟨hi, -⟩ | ⟨-, hS, -⟩ | ⟨-, -, hU⟩
      · exact absurd hi hI
      · exact .inl hS
      · exact .inr hU
    obtain ⟨result', hr'⟩ := Server.recvStep_other h hother
    rw [hr] at hr'
    cases hr'
    rw [if_neg hI] at hanswer ⊢
    simp only [List.length_nil]
    omega

theorem whole_built {st : ClientState} {evs : List IecEvent} {f : Bytes} (h : buildIFrame st evs = .ok (some f)) :
    Whole f := by
  obtain ⟨ev, parts, -, -, hlen, rfl⟩ := buildIFrame_some h
  exact whole_iFrame _ _ (by rw [length_asduBytes]; omega)

/-- A step of `client_send` that writes nothing. -/
theorem turn_lowers {σ : Type} {s s' : Server.Conn σ} (hlog : s'.log = s.log) (hstore : s'.store = s.store)
    (hrec : s'.receiver = s.receiver)
    (h : 601 * s'.que.length + 600 * s'.sender.held.length + turnEffort s'.sender <
      601 * s.que.length + 600 * s.sender.held.length + turnEffort s.sender) : ServerLowers 0 s s' := by
  refine ⟨[], by rw [hlog, List.append_nil], hstore, ?_⟩
  simp only [serverEffort, hrec, Server.written, List.filterMap_nil, List.map_nil, List.sum_nil]
  omega

/-- The next step of `client_send` with an open window, unless it is waiting for an event. -/
theorem send_lowers {σ : Type} {s : Server.Conn σ} (hrec : s.receiver = .free)
    (hopen : window seqMod s.st.sendSq s.st.lastAckNr < s.st.conf.protK) (hlive : s.sender ≠ .stopped)
    (hbusy : ¬ (s.sender = .idle ∧ s.que = []))
    (hbuild : ∀ event rest, s.sender = .ready event rest → ∃ o, buildIFrame s.st (event :: rest) = .ok o) :
    ∃ s', s.sendStep false = some s' ∧ ServerLowers 0 s s' := by
  unfold Server.Conn.sendStep
  cases hpc : s.sender with
  | idle =>
    cases hq : s.que with
    | nil => exact absurd ⟨hpc, hq⟩ hbusy
    | cons event que =>
      refine ⟨_, rfl, turn_lowers rfl rfl rfl ?_⟩
      simp only [hpc, hq, Server.SendPc.held, turnEffort, List.length_cons, List.length_nil]
      omega
  | got event =>
    refine ⟨_, rfl, turn_lowers rfl rfl rfl ?_⟩
    cases s.st.startdtConfirmed with
    | true => simp only [hpc, Server.SendPc.held, turnEffort, if_true, List.length_cons, List.length_nil]; omega
    | false =>
      simp only [hpc, Server.SendPc.held, turnEffort, Bool.false_eq_true, if_false, List.length_cons, List.length_nil]
      omega
  | enabled event =>
    have hl : s.receiver.locked = false := by rw [hrec]; rfl
    simp only [hl, Bool.false_eq_true, if_false, Nat.not_le.mpr hopen]
    refine ⟨_, rfl, turn_lowers rfl rfl rfl ?_⟩
    simp only [hpc, Server.SendPc.held, turnEffort, List.length_cons, List.length_nil]
    omega
  | blocked event =>
    refine ⟨_, rfl, turn_lowers rfl rfl rfl ?_⟩
    simp only [hpc, Server.SendPc.held, turnEffort, List.length_cons, List.length_append, List.length_nil]
    omega
  | packing event rest =>
    dsimp only
    by_cases hroom : (event :: rest).length < maxObj event.asdu
    · rw [if_pos hroom]
      cases hq : s.que with
      | nil =>
        refine ⟨_, rfl, turn_lowers rfl rfl rfl ?_⟩
        simp only [hpc, hq, Server.SendPc.held, turnEffort, List.length_cons, List.length_nil]
        omega
      | cons nxt que =>
        dsimp only
        by_cases hsame : nxt.asdu = event.asdu ∧ nxt.cot = event.cot
        · rw [if_pos hsame]
          refine ⟨_, rfl, turn_lowers rfl rfl rfl ?_⟩
          simp only [hpc, hq, Server.SendPc.held, turnEffort, List.length_cons, List.length_append, List.length_nil]
          omega
        · rw [if_neg hsame]
          refine ⟨_, rfl, turn_lowers rfl rfl rfl ?_⟩
          simp only [hpc, hq, Server.SendPc.held, turnEffort, List.length_cons, List.length_append, List.length_nil]
          omega
    · rw [if_neg hroom]
      refine ⟨_, rfl, turn_lowers rfl rfl rfl ?_⟩
      simp only [hpc, Server.SendPc.held, turnEffort, List.length_cons]
      omega
  | mismatch event rest nxt =>
    refine ⟨_, rfl, turn_lowers rfl rfl rfl ?_⟩
    simp only [hpc, Server.SendPc.held, turnEffort, List.length_cons, List.length_append, List.length_nil]
    omega
  | ready event rest =>
    obtain ⟨o, ho⟩ := hbuild event rest hpc
    have hl : s.receiver.locked = false := by rw [hrec]; rfl
    cases o with
    | none =>
      simp only [hl, Bool.false_eq_true, if_false, ho]
      refine ⟨_, rfl, turn_lowers rfl rfl rfl ?_⟩
      simp only [hpc, Server.SendPc.held, turnEffort, List.length_cons, List.length_nil]
      omega
    | some packet =>
      have hclosed : s.receiver ≠ .closed := by rw [hrec]; simp
      simp only [hl, Bool.false_eq_true, if_false, ho, hclosed]
      refine ⟨_, rfl, [.sent (event :: rest) packet], rfl, rfl, ?_⟩
      have hwrite := downWrite_le (whole_built ho)
      simp only [serverEffort, hpc, Server.SendPc.held, turnEffort, Server.written, Server.Obs.written,
        List.filterMap_cons, List.filterMap_nil, List.map_cons, List.map_nil, List.sum_cons, List.sum_nil,
        List.length_cons, List.length_nil] at hwrite ⊢
      omega
  | tail =>
    have hl : s.receiver.locked = false := by rw [hrec]; rfl
    simp only [hl, Bool.false_eq_true, if_false]
    refine ⟨_, rfl, turn_lowers rfl rfl rfl ?_⟩
    simp only [hpc, Server.SendPc.held, turnEffort, List.length_nil]
    omega
  | test =>
    have hclosed : s.receiver ≠ .closed := by rw [hrec]; simp
    simp only [hclosed, if_false]
    refine ⟨_, rfl, [.sent [] testfrAct], rfl, rfl, ?_⟩
    have hwrite : downWrite testfrAct = 40 := by decide
    simp only [serverEffort, hpc, Server.SendPc.held, turnEffort, Server.written, Server.Obs.written, hwrite,
      List.filterMap_cons, List.filterMap_nil, List.map_cons, List.map_nil, List.sum_cons, List.sum_nil,
      List.length_nil]
    omega
  | stopped => exact absurd hpc hlive

/-! ## Steps of the client -/

def ClientLowers (n gain : Nat) (s s' : Client.Session) : Prop :=
  ∃ os, s'.log = s.log ++ os ∧
    clientEffort n s' + ((Client.written os).map (upWrite n)).sum < clientEffort n s + gain

theorem upWrite_sFrame (n nr : Nat) : upWrite n (sFrame nr) = 27 := by
  simp [upWrite, upEffort, isI_sFrame]

theorem upWrite_uResp (n : Nat) {u : UTypeId} {f : Bytes} (h : uResp u = some f) : upWrite n f = 27 := by
  have hI : isI f = false := (only_U (isU_uResp h)).1
  have hl : f.length = 6 := by cases u <;> cases h <;> rfl
  simp [upWrite, upEffort, hI, hl]

theorem sendLoop_lowers (n : Nat) {s : Client.Session} (hlive : s.sender ≠ .stopped)
    (hbusy : ¬ (s.sender = .idle ∧ s.que = [])) : ∃ s', s.sendStep false = some s' ∧ ClientLowers n 0 s s' := by
  unfold Client.Session.sendStep
  cases hpc : s.sender with
  | idle =>
    cases hq : s.que with
    | nil => exact absurd ⟨hpc, hq⟩ hbusy
    | cons p que =>
      refine ⟨_, rfl, [], (List.append_nil _).symm, ?_⟩
      simp only [clientEffort, hpc, hq, sendLoopEffort, Client.written, List.filterMap_nil, List.map_nil, List.sum_nil,
        List.map_cons, List.sum_cons]
      omega
  | holding p =>
    refine ⟨_, rfl, [.sent p], rfl, ?_⟩
    simp only [clientEffort, hpc, sendLoopEffort, Client.written, Client.Obs.written, List.filterMap_cons,
      List.filterMap_nil, List.map_cons, List.map_nil, List.sum_cons, List.sum_nil]
    omega
  | stopped => exact absurd hpc hlive

theorem reply_lowers (n : Nat) (onData : Bool) (st : ClientState) {f : Bytes} (hf : Whole f) :
    (((Client.processFrame onData st f).reply.toList).map (upWrite n)).sum < downEffort f := by
  have hone : 1 ≤ downEffort f := by
    unfold downEffort
    split <;> omega
  rcases format_cases (f := f) (by have := hf.long; omega) with ⟨hI, -⟩ | ⟨-, hS, -⟩ | ⟨-, -, hU⟩
  · have h28 : downEffort f = 28 := if_pos (.inl hI)
    rw [Client.processFrame_I onData st (by rw [hf.numberedI, hI])]
    by_cases hw : st.recCountSinceSend + 1 ≥ st.conf.protW
    · rw [if_pos hw, h28]
      show upWrite n (sFrame _) + 0 < 28
      rw [upWrite_sFrame]
      omega
    · rw [if_neg hw]
      exact hone
  · rw [Client.processFrame_S onData st (by simp [numberedS, hS, hf.long])]
    exact hone
  · rw [Client.processFrame_U onData st hU]
    by_cases ht : uFunction f = some .testfrAct
    · have h28 : downEffort f = 28 := if_pos (.inr ht)
      rw [h28]
      simp only [ht, if_true]
      cases hr : uResp .testfrAct with
      | none => exact Nat.zero_lt_succ 27
      | some g =>
        show upWrite n g + 0 < 28
        rw [upWrite_uResp n hr]
        omega
    · simp only [ht, if_false]
      exact hone

theorem take_lowers (n : Nat) {s s' : Client.Session} {f : Bytes} (hf : Whole f) (h : s.recvStep f = some s') :
    ClientLowers n (downEffort f) s s' := by
  unfold Client.Session.recvStep at h
  split at h
  · cases h
    refine ⟨_, rfl, ?_⟩
    have hreply := reply_lowers n s.onData s.st hf
    have hwritten :
        Client.written (.got f :: ((Client.processFrame s.onData s.st f).reply.map Client.Obs.reply).toList) =
          (Client.processFrame s.onData s.st f).reply.toList := by
      cases (Client.processFrame s.onData s.st f).reply <;> rfl
    simp only [hwritten, clientEffort]
    omega
  · cases h

/-! ## Steps of the receive threads -/

/-- In its loop a receive thread can always make a pass, and the last one ends it. -/
theorem pass_goes {p : Pipe} (cut : Bytes → Option Bytes × Bytes) (hd : p.draining = true) :
    ∃ o p', p.pass cut = some (o, p') ∧ p'.effort ≤ p.effort ∧ (o = none → p'.effort < p.effort) := by
  unfold Pipe.pass
  rw [if_pos hd]
  split
  · exact ⟨_, _, rfl, Nat.le_refl _, fun h => by cases h⟩
  · refine ⟨_, _, rfl, ?_, fun _ => ?_⟩
    · simp only [Pipe.effort, hd, Bool.toNat_true, Bool.toNat_false]
      omega
    · simp only [Pipe.effort, hd, Bool.toNat_true, Bool.toNat_false]
      omega

theorem recv_goes {p : Pipe} (hd : p.draining = false) (hc : p.chan ≠ []) :
    ∃ n p', p.recv n = some p' ∧ p'.effort < p.effort := by
  have hpos : 0 < p.chan.length := List.length_pos_iff.mpr hc
  have hn : p.draining = false ∧ 1 ≤ min 1024 p.chan.length ∧ min 1024 p.chan.length ≤ 1024 ∧
      min 1024 p.chan.length ≤ p.chan.length := ⟨hd, by omega, by omega, by omega⟩
  refine ⟨min 1024 p.chan.length, _, by rw [Pipe.recv, if_pos hn], ?_⟩
  simp only [Pipe.effort, hd, List.length_drop, Bool.toNat_true, Bool.toNat_false]
  omega

/-! ## The next step -/

def own {σ : Type} : Act σ → Bool
  | .server (.send _) | .server .handle | .client (.send _) => true
  | .serverRecv _ | .serverPass _ | .clientRecv _ | .clientPass => true
  | _ => false

structure Granted (conf conf' : Conf) (ca : Int) (l : Stations (Signals C Q)) : Prop where
  safe : Safe conf l
  alive : Alive l
  joined : Joined conf'.protW (conf.protK - conf'.protW) l
  up : Server.taken l.server.log <+: Client.written l.client.log
  down : Client.taken l.client.log <+: Server.written l.server.log
  content : Server.Content ca l.server
  noStop : ∀ f ∈ Client.written l.client.log, uFunction f ≠ some .stopdtAct

def pool {σ : Type} (s : Server.Conn σ) : List IecEvent := s.sender.held ++ s.que ++ s.receiver.puts

/-- `client_send` has not ended, and what there is to send can be. -/
structure Supplied (s : Server.Conn (Signals C Q)) : Prop where
  live : s.sender ≠ .stopped
  events : ∀ ev ∈ pool s, Takeable ev
  interrogated : ∀ ev ∈ Server.interrogated s.store, Takeable ev

structure Timely (d : Nat) (c : Client.Session) : Prop where
  live : c.sender ≠ .stopped
  recent : ∀ p t, p ∈ c.que ∨ c.sender = .holding p → p.stamp = some t →
    Client.iTaken c.log ≤ t.taken + c.st.recCountSinceSend + d

variable {conf conf' : Conf} {ca : Int} {l : Stations (Signals C Q)}

theorem Granted.carries_up (h : Granted conf conf' ca l) : Carries l.up (upFrames l) := by
  have hopen : l.server.receiver ≠ .closed := fun hc => by
    have := h.alive.server
    rw [hc] at this
    exact this
  obtain ⟨fs, hc, hw⟩ := h.joined.up hopen
  rw [upFrames, hw, List.drop_left]
  exact hc

theorem Granted.carries_down (h : Granted conf conf' ca l) : Carries l.down (downFrames l) := by
  obtain ⟨fs, hc, hw⟩ := h.joined.down
  rw [downFrames, hw, List.drop_left]
  exact hc

/-- The entries of a step, the frames it took among them. -/
theorem ServerLowers.entries {σ : Type} {cb : Callbacks σ} {gain : Nat} {s s' : Server.Conn σ} {b : Server.Act σ}
    (h : ServerLowers gain s s') (hs : Server.Conn.step cb s b = some s') :
    ∃ os, s'.log = s.log ++ os ∧ Server.taken os = b.takes ∧ s'.store = s.store ∧
      serverEffort s' + ((Server.written os).map downWrite).sum < serverEffort s + gain := by
  obtain ⟨os, hlog, hstore, hlt⟩ := h
  obtain ⟨os', hlog', htaken⟩ := (Server.step_move hs).log
  rw [hlog, List.append_cancel_left_eq] at hlog'
  subst hlog'
  exact ⟨os, hlog, htaken, hstore, hlt⟩

theorem ClientLowers.entries {n gain : Nat} {s s' : Client.Session} {b : Client.Act}
    (h : ClientLowers n gain s s') (hs : Client.Session.step s b = some s') :
    ∃ os, s'.log = s.log ++ os ∧ Client.taken os = b.takes ∧
      clientEffort n s' + ((Client.written os).map (upWrite n)).sum < clientEffort n s + gain := by
  obtain ⟨os, hlog, hlt⟩ := h
  obtain ⟨os', hlog', htaken⟩ := (Client.step_move hs).log
  rw [hlog, List.append_cancel_left_eq] at hlog'
  subst hlog'
  exact ⟨os, hlog, htaken, hlt⟩

theorem serverStep_lowers (h : Granted conf conf' ca l) {b : Server.Act (Signals C Q)} {up : Pipe} {rest : List Bytes}
    {s : Server.Conn (Signals C Q)} (hs : Server.Conn.step (Server.station onCommand) l.server b = some s)
    (hframes : upFrames l = b.takes ++ rest) (hup : up.effort ≤ l.up.effort)
    (hlow : ServerLowers (b.takes.map (upEffort (asked l.server.store))).sum l.server s) :
    ∃ l', serverStep (Server.station onCommand) { l with up } b = some l' ∧ effort l' < effort l := by
  obtain ⟨os, hlog, htaken, hstore, hlt⟩ := hlow.entries hs
  have hstep : serverStep (Server.station onCommand) { l with up } b = some { l with
      server := s, up, down := l.down.send (Server.written (s.log.drop l.server.log.length)) } := by
    simp only [serverStep, hs, Option.map_some]
  have heffort := effort_server up hlog htaken hframes h.down hstore
  exact ⟨_, hstep, by omega⟩

theorem clientStep_lowers (h : Granted conf conf' ca l) {b : Client.Act} {down : Pipe} {rest : List Bytes}
    {c : Client.Session} (hs : Client.Session.step l.client b = some c)
    (hframes : downFrames l = b.takes ++ rest) (hdown : down.effort ≤ l.down.effort)
    (hlow : ClientLowers (asked l.server.store) (b.takes.map downEffort).sum l.client c) :
    ∃ l', clientStep { l with down } b = some l' ∧ effort l' < effort l := by
  obtain ⟨os, hlog, htaken, hlt⟩ := hlow.entries hs
  have hstep : clientStep { l with down } b = some { l with
      client := c, down, up := l.up.send (Client.written (c.log.drop l.client.log.length)) } := by
    simp only [clientStep, hs, Option.map_some]
  have heffort := effort_client down hlog htaken hframes h.up
  exact ⟨_, hstep, by omega⟩

theorem clientRec_goes (hmax : 1280 ≤ conf.maxRxBuf) (h : Granted conf conf' ca l)
    (hbusy : ¬ (l.server.receiver = .free ∧ l.up.draining = false ∧ l.up.chan = [])) :
    ∃ a l', own a = true ∧ step (Server.station onCommand) l a = some l' ∧ effort l' < effort l := by
  by_cases hl : l.server.receiver.locked = true
  · obtain ⟨s, hs⟩ := handle_goes hl
    have hm : Server.Move (Server.station onCommand) l.server .handle s := Server.handleStep_move hs
    obtain ⟨l', hl', hlt⟩ := serverStep_lowers (b := .handle) h hs rfl (Nat.le_refl l.up.effort) (handle_lowers hm)
    exact ⟨.server .handle, l', rfl, hl', hlt⟩
  · have hfree : l.server.receiver = .free := by
      have hrun := h.alive.server
      cases hr : l.server.receiver with
      | free => rfl
      | handling result puts => exact absurd (by rw [hr]; rfl) hl
      | failed | closed =>
        rw [hr] at hrun
        cases hrun
    have hpipe : ∀ up : Pipe, up.effort < l.up.effort → effort { l with up } < effort l := by
      intro up hlt
      show serverEffort l.server + clientEffort _ l.client + up.effort + l.down.effort + _ + _ < effort l
      unfold effort
      exact Nat.add_lt_add_right (Nat.add_lt_add_right (Nat.add_lt_add_right (Nat.add_lt_add_left hlt _) _) _) _
    by_cases hd : l.up.draining = true
    · obtain ⟨o, up, hp, hle, hlt⟩ := pass_goes Deframe.serverPass hd
      cases o with
      | none =>
        refine ⟨.serverPass sampleTime, { l with up }, rfl, ?_, hpipe up (hlt rfl)⟩
        simp only [step, serverPassStep, hfree, if_true, hp, Option.bind_some]
      | some f =>
        obtain ⟨hf, ca', hg⟩ := h.safe.up f up hfree hp
        obtain ⟨rest, hframes, -⟩ := h.carries_up.pass Deframe.serverPass_eq hp
        have hs : Server.Conn.recvStep (Server.station onCommand) l.server f sampleTime = some _ :=
          if_pos ⟨hfree, hf.frame⟩
        obtain ⟨l', hl', hlt⟩ := serverStep_lowers (b := .recv f sampleTime) h hs hframes hle (recv_lowers hf hg hs)
        refine ⟨.serverPass sampleTime, l', rfl, ?_, hlt⟩
        simp only [step, serverPassStep, hfree, if_true, hp, Option.bind_some]
        exact hl'
    · have hchan : l.up.chan ≠ [] := fun hc => hbusy ⟨hfree, by simpa using hd, hc⟩
      obtain ⟨n, up, hr, hlt⟩ := recv_goes (by simpa using hd) hchan
      have hroom : ¬ up.buf.length > l.server.st.conf.maxRxBuf := by
        have := h.safe.room n up hfree hr
        rw [h.safe.conf]
        omega
      refine ⟨.serverRecv n, { l with up }, rfl, ?_, hpipe up hlt⟩
      simp only [step, serverRecvStep, hfree, if_true, hr, Option.bind_some, hroom, if_false]

theorem recvLoop_goes (h : Granted conf conf' ca l) (hbusy : ¬ (l.down.draining = false ∧ l.down.chan = [])) :
    ∃ a l', own a = true ∧ step (Server.station onCommand) l a = some l' ∧ effort l' < effort l := by
  have halive := h.alive.client
  have hpipe : ∀ down : Pipe, down.effort < l.down.effort → effort { l with down } < effort l := by
    intro down hlt
    show serverEffort l.server + clientEffort _ l.client + l.up.effort + down.effort + _ + _ < effort l
    unfold effort
    exact Nat.add_lt_add_right (Nat.add_lt_add_right (Nat.add_lt_add_left hlt _) _) _
  by_cases hd : l.down.draining = true
  · obtain ⟨o, down, hp, hle, hlt⟩ := pass_goes Deframe.clientPass hd
    cases o with
    | none =>
      refine ⟨.clientPass, { l with down }, rfl, ?_, hpipe down (hlt rfl)⟩
      simp only [step, clientPassStep, halive, if_true, hp, Option.bind_some]
    | some f =>
      obtain ⟨hf, -⟩ := h.safe.down f down hp
      obtain ⟨rest, hframes, -⟩ := h.carries_down.pass Deframe.clientPass_eq hp
      have hs : Client.Session.recvStep l.client f = some _ := if_pos ⟨halive, hf.frame⟩
      obtain ⟨l', hl', hlt⟩ := clientStep_lowers (b := .recv f) h hs hframes hle (take_lowers _ hf hs)
      refine ⟨.clientPass, l', rfl, ?_, hlt⟩
      simp only [step, clientPassStep, halive, if_true, hp, Option.bind_some]
      exact hl'
  · obtain ⟨n, down, hr, hlt⟩ := recv_goes (by simpa using hd) fun hc => hbusy ⟨by simpa using hd, hc⟩
    refine ⟨.clientRecv n, { l with down }, rfl, ?_, hpipe down hlt⟩
    simp only [step, clientRecvStep, halive, if_true, hr, Option.map_some]

theorem open_when_met (hwk : conf'.protW ≤ conf.protK) (hk : conf.protK < seqMod) (h : Granted conf conf' ca l)
    (hfree : l.server.receiver = .free) (hup : l.up.chan = [] ∧ l.up.draining = false)
    (hdown : l.down.chan = [] ∧ l.down.draining = false) :
    window seqMod l.server.st.sendSq l.server.st.lastAckNr < l.server.st.conf.protK := by
  obtain ⟨hack, hall⟩ := h.joined.met hfree hup hdown
  obtain ⟨r, hlast, hle, hge⟩ := h.joined.ends.ack.last
  have hcount := h.joined.ends.ack.count
  have hsend : l.server.st.sendSq = Client.iTaken l.client.log % seqMod := by
    rw [h.joined.ends.num.sendSq, hfree, hall]
    rfl
  rw [h.safe.conf, hsend, hack, hlast, window_eq hle (by omega)]
  omega

theorem built_of_supplied (hca : 0 ≤ ca ∧ ca < 65536) (h : Granted conf conf' ca l) (hs : Supplied l.server)
    {event : IecEvent} {rest : List IecEvent} (hpc : l.server.sender = .ready event rest) :
    ∃ o, buildIFrame l.server.st (event :: rest) = .ok o := by
  have hfits := h.content.fits
  rw [hpc] at hfits
  have hhere : ∀ ev ∈ event :: rest, Takeable ev := fun ev hev => hs.events ev (by
    rw [pool, hpc]
    exact List.mem_append_left _ (List.mem_append_left _ hev))
  exact buildIFrame_total h.safe.counters (by rw [h.content.address]; exact hca) (hhere event List.mem_cons_self).2
    (fun e he => (hfits.1 e he).1) (fun e he => (hhere e he).1) hfits.2

/-- What the client still has to send goes first; `a` is such a step, or there is nothing. -/
def Turn {σ : Type} (l : Stations σ) (a : Act σ) : Prop :=
  a = .client (.send false) ∨ (l.client.sender = .idle ∧ l.client.que = [])

/-- While there is anything left to do, some thread can do some of it. -/
theorem some_goes (hmax : 1280 ≤ conf.maxRxBuf) (hwk : conf'.protW ≤ conf.protK) (hk : conf.protK < seqMod)
    (hca : 0 ≤ ca ∧ ca < 65536) (h : Granted conf conf' ca l) (hs : Supplied l.server)
    (hlive : l.client.sender ≠ .stopped) (hbusy : ¬ (AtRest l ∧ l.server.que = [])) :
    ∃ a l', own a = true ∧ Turn l a ∧ step (Server.station onCommand) l a = some l' ∧ effort l' < effort l := by
  by_cases hsend : l.client.sender = .idle ∧ l.client.que = []
  · have hturn : (∃ a l', own a = true ∧ step (Server.station onCommand) l a = some l' ∧ effort l' < effort l) →
        ∃ a l', own a = true ∧ Turn l a ∧ step (Server.station onCommand) l a = some l' ∧ effort l' < effort l :=
      fun ⟨a, l', hown, hl', hlt⟩ => ⟨a, l', hown, .inr hsend, hl', hlt⟩
    by_cases hrec : l.server.receiver = .free ∧ l.up.draining = false ∧ l.up.chan = []
    · by_cases hloop : l.down.draining = false ∧ l.down.chan = []
      · -- only `client_send` has something to do
        obtain ⟨hfree, hdu, hcu⟩ := hrec
        obtain ⟨hdd, hcd⟩ := hloop
        have hleft : ¬ (l.server.sender = .idle ∧ l.server.que = []) := fun hn =>
          hbusy ⟨⟨⟨hcu, hdu⟩, ⟨hcd, hdd⟩, hsend.2, hn.1, hfree, hsend.1, h.alive.client⟩, hn.2⟩
        obtain ⟨s, hstep, hlow⟩ := send_lowers hfree (open_when_met hwk hk h hfree ⟨hcu, hdu⟩ ⟨hcd, hdd⟩)
          hs.live hleft fun event rest hpc => built_of_supplied hca h hs hpc
        obtain ⟨l', hl', hlt⟩ := serverStep_lowers (b := .send false) h hstep rfl (Nat.le_refl l.up.effort) hlow
        exact hturn ⟨.server (.send false), l', rfl, hl', hlt⟩
      · exact hturn (recvLoop_goes h hloop)
    · exact hturn (clientRec_goes hmax h hrec)
  · obtain ⟨c, hstep, hlow⟩ := sendLoop_lowers (asked l.server.store) hlive hsend
    obtain ⟨l', hl', hlt⟩ := clientStep_lowers (b := .send false) h hstep rfl (Nat.le_refl l.down.effort) hlow
    exact ⟨.client (.send false), l', rfl, .inl rfl, hl', hlt⟩

/-! ## The events -/

/-- What becomes of the events in a step: some are sent, and some dropped before STARTDT or for want of an
    encoder. -/
structure Passes {σ : Type} (s s' : Server.Conn σ) (sent dropped : List IecEvent) : Prop where
  log : Server.transmitted s'.log = Server.transmitted s.log ++ sent
  perm : (pool s).Perm (sent ++ (dropped ++ pool s'))
  dropped : s.st.startdtConfirmed = true → ∀ ev ∈ dropped, supported ev.asdu = false

theorem passes_moved {σ : Type} {s s' : Server.Conn σ} (hlog : Server.transmitted s'.log = Server.transmitted s.log)
    (hp : (pool s).Perm (pool s')) : ∃ sent dropped, Passes s s' sent dropped :=
  ⟨[], [], by rw [hlog, List.append_nil], hp, fun _ ev he => by cases he⟩

theorem passes_send {σ : Type} {cb : Callbacks σ} {s s' : Server.Conn σ} {c : Bool} (hfits : s.sender.fits)
    (hm : Server.Move cb s (.send c) s') (hlive : s'.sender ≠ .stopped) :
    ∃ sent dropped, Passes s s' sent dropped := by
  cases hm with
  | ended => exact absurd rfl hlive
  | timeout c hpc hq =>
    refine passes_moved rfl ?_
    simp only [pool, hpc, hq]
    exact .refl _
  | get c event que hpc hq =>
    refine passes_moved rfl ?_
    simp only [pool, hpc, hq]
    exact .refl _
  | enable c event hpc | block c event hpc | pass c event hpc | packed c event rest hpc =>
    refine passes_moved rfl ?_
    simp only [pool, hpc]
    exact .refl _
  | keep c pc hpc hpc' =>
    refine passes_moved rfl ?_
    simp only [pool, hpc]
    rcases hpc' with rfl | rfl
    · exact .refl _
    · exact .refl _
  | putBack c event hpc =>
    refine passes_moved rfl (List.perm_iff_count.mpr fun ev => ?_)
    simp only [pool, hpc, Server.SendPc.held, List.count_append, List.count_cons, List.count_nil]
    omega
  | pack c event rest nxt que hpc hq =>
    refine passes_moved rfl (List.perm_iff_count.mpr fun ev => ?_)
    simp only [pool, hpc, hq, Server.SendPc.held, List.count_append, List.count_cons, List.count_nil]
    omega
  | miss c event rest nxt que hpc hq =>
    refine passes_moved rfl (List.perm_iff_count.mpr fun ev => ?_)
    simp only [pool, hpc, hq, Server.SendPc.held, List.count_append, List.count_cons, List.count_nil]
    omega
  | putBackNext c event rest nxt hpc =>
    refine passes_moved rfl (List.perm_iff_count.mpr fun ev => ?_)
    simp only [pool, hpc, Server.SendPc.held, List.count_append, List.count_cons, List.count_nil]
    omega
  | discard c event hpc hst =>
    refine ⟨[], [event], (List.append_nil _).symm, ?_, fun h => ?_⟩
    · simp only [pool, hpc]
      exact .refl _
    · rw [hst] at h
      cases h
  | unsupported c event rest hpc hb =>
    rw [hpc] at hfits
    refine ⟨[], event :: rest, (List.append_nil _).symm, ?_, fun _ ev hev => ?_⟩
    · simp only [pool, hpc, Server.SendPc.held, List.nil_append, List.append_assoc]
      exact .refl _
    · rw [(Server.fits_ready hfits ev hev).1]
      exact unsupported_iff.mp (buildIFrame_none hb)
  | write c event rest packet hpc =>
    refine ⟨event :: rest, [], Server.transmitted_snoc _ _, ?_, fun _ ev he => by cases he⟩
    simp only [pool, hpc, Server.SendPc.held, List.nil_append, List.append_assoc]
    exact .refl _
  | testfr c hpc =>
    refine passes_moved ((Server.transmitted_snoc _ _).trans (List.append_nil _)) ?_
    simp only [pool, hpc]
    exact .refl _

theorem passes_handle {σ : Type} {cb : Callbacks σ} {s s' : Server.Conn σ} (hm : Server.Move cb s .handle s') :
    ∃ sent dropped, Passes s s' sent dropped := by
  cases hm with
  | handlerPut result event puts hr =>
    refine passes_moved ((Server.transmitted_snoc _ _).trans (List.append_nil _)) ?_
    simp only [pool, hr, Server.RecPc.puts, List.append_assoc]
    exact .refl _
  | raised result hr =>
    refine passes_moved rfl ?_
    simp only [pool, hr, Server.RecPc.puts]
    exact .refl _
  | reply fType response hr =>
    refine passes_moved ((Server.transmitted_snoc _ _).trans (List.append_nil _)) ?_
    simp only [pool, hr, Server.RecPc.puts]
    exact .refl _
  | sFrame hr =>
    refine passes_moved ((Server.transmitted_snoc _ _).trans (List.append_nil _)) ?_
    simp only [pool, hr, Server.RecPc.puts]
    exact .refl _
  | counted hr | done fType hr =>
    refine passes_moved rfl ?_
    simp only [pool, hr, Server.RecPc.puts]
    exact .refl _

/-! ## What the own steps keep -/

/-- After STARTDT no event that has an encoder goes missing. -/
theorem Passes.count {σ : Type} {s s' : Server.Conn σ} {sent dropped : List IecEvent} (h : Passes s s' sent dropped)
    (hst : s.st.startdtConfirmed = true) {ev : IecEvent} (hsup : supported ev.asdu = true) :
    (Server.transmitted s'.log ++ pool s').count ev = (Server.transmitted s.log ++ pool s).count ev := by
  have hperm := h.perm.count_eq ev
  have hnone : dropped.count ev = 0 := List.count_eq_zero_of_not_mem fun hm => by
    rw [h.dropped hst ev hm] at hsup
    cases hsup
  simp only [h.log, List.count_append] at hperm ⊢
  omega

theorem Passes.subset {σ : Type} {s s' : Server.Conn σ} {sent dropped : List IecEvent} (h : Passes s s' sent dropped)
    {ev : IecEvent} (he : ev ∈ pool s') : ev ∈ pool s :=
  h.perm.symm.subset (List.mem_append_right _ (List.mem_append_right _ he))

theorem Supplied.passes {s s' : Server.Conn (Signals C Q)} {sent dropped : List IecEvent} (h : Supplied s)
    (hp : Passes s s' sent dropped) (hlive : s'.sender ≠ .stopped) (hstore : s'.store = s.store) : Supplied s' :=
  ⟨hlive, fun ev he => h.events ev (hp.subset he), by rw [hstore]; exact h.interrogated⟩

theorem supplied_own {cb : Callbacks (Signals C Q)} {s s' : Server.Conn (Signals C Q)} {b : Server.Act (Signals C Q)}
    (h : Supplied s) (hfits : s.sender.fits) (hb : b = .handle ∨ ∃ c, b = .send c) (hm : Server.Move cb s b s')
    (hlive : s'.sender ≠ .stopped) :
    Supplied s' ∧ s'.st.startdtConfirmed = s.st.startdtConfirmed ∧ ∃ sent dropped, Passes s s' sent dropped := by
  have hsame : s'.store = s.store ∧ s'.st.startdtConfirmed = s.st.startdtConfirmed := by
    rcases hb with rfl | ⟨c, rfl⟩
    · cases hm with
      | _ => exact ⟨rfl, rfl⟩
    · cases hm with
      | _ => exact ⟨rfl, rfl⟩
  have hp : ∃ sent dropped, Passes s s' sent dropped := by
    rcases hb with rfl | ⟨c, rfl⟩
    · exact passes_handle hm
    · exact passes_send hfits hm hlive
  obtain ⟨sent, dropped, hp⟩ := hp
  exact ⟨h.passes hp hlive hsame.1, hsame.2, sent, dropped, hp⟩

theorem supplied_recv {s s' : Server.Conn (Signals C Q)} {f : Bytes} {now : Datetime} {ca : Int} (h : Supplied s)
    (hf : Whole f) (hg : Client.Interrogates ca f) (hstop : uFunction f ≠ some .stopdtAct)
    (hs : Server.Conn.recvStep (Server.station onCommand) s f now = some s') :
    Supplied s' ∧ (s.st.startdtConfirmed = true → s'.st.startdtConfirmed = true) ∧
      Server.transmitted s'.log = Server.transmitted s.log ∧ ∃ puts, pool s' = pool s ++ puts := by
  obtain ⟨hfree, hstore, hlog, result, puts, hr, hputs⟩ := recv_asked hf hg hs
  have hsame : s'.que = s.que ∧ s'.sender = s.sender ∧ s'.st.startdtConfirmed = (noted f s.st).startdtConfirmed := by
    cases Server.recvStep_move hs with
    | answer | take => exact ⟨rfl, rfl, rfl⟩
  have hpool : pool s' = pool s ++ puts := by
    simp [pool, hsame.1, hsame.2.1, hr, hfree, Server.RecPc.puts]
  refine ⟨⟨?_, fun ev he => ?_, ?_⟩, fun hst => ?_, ?_, puts, hpool⟩
  · rw [hsame.2.1]
    exact h.live
  · rw [hpool] at he
    rcases List.mem_append.mp he with he | he
    · exact h.events ev he
    · rcases hputs with ⟨rfl, -⟩ | rfl
      · cases he
      · have hcot := Server.interrogated_sendable_cot he
        rcases List.mem_append.mp he with he | he
        · exact h.interrogated ev he
        · rw [List.mem_singleton.mp he] at hcot ⊢
          exact ⟨Server.giTermination_sendable now, hcot⟩
  · rw [hstore]
    exact h.interrogated
  · rw [hsame.2.2]
    simp [noted, hstop, hst]
  · rw [hlog, Server.transmitted_snoc]
    exact List.append_nil _

/-- What the steps keep of the server; `on` says that STARTDT was confirmed when the events were `owed`. -/
structure Serves (on : Bool) (owed : List IecEvent) (s : Server.Conn (Signals C Q)) : Prop where
  supplied : Supplied s
  started : on = true → s.st.startdtConfirmed = true
  count : on = true → ∀ ev, supported ev.asdu = true → owed.count ev ≤ (Server.transmitted s.log ++ pool s).count ev

theorem serves_step {on : Bool} {owed : List IecEvent} (hmax : 1280 ≤ conf.maxRxBuf) (hca : 0 ≤ ca ∧ ca < 65536)
    (h : Granted conf conf' ca l) (hs : Serves on owed l.server) {a : Act (Signals C Q)} (hown : own a = true)
    {b : Server.Act (Signals C Q)} (hcause : ServerCause l a b) {s : Server.Conn (Signals C Q)}
    (hb : Server.Conn.step (Server.station onCommand) l.server b = some s) : Serves on owed s := by
  cases hcause with
  | own _ ha ht =>
    have hopen : l.server.receiver ≠ .closed := fun hc => by
      have hrun := h.alive.server
      rw [hc] at hrun
      exact hrun
    have hthread : b = .handle ∨ ∃ c, b = .send c := by
      subst ha
      cases b with
      | handle => exact .inl rfl
      | send c => exact .inr ⟨c, rfl⟩
      | _ => cases hown
    have hlive : s.sender ≠ .stopped := by
      rcases hthread with rfl | ⟨c, rfl⟩
      · cases Server.step_move hb with
        | _ => exact hs.supplied.live
      · intro hstopped
        rcases Server.sendStep_ended hb hstopped with ⟨-, hc⟩ | ⟨event, rest, hpc, ⟨e, he⟩ | hc⟩
        · exact hopen hc
        · obtain ⟨o, ho⟩ := built_of_supplied hca h hs.supplied hpc
          rw [he] at ho
          cases ho
        · exact hopen hc
    obtain ⟨hsup, hst, sent, dropped, hp⟩ :=
      supplied_own hs.supplied h.content.fits hthread (Server.step_move hb) hlive
    refine ⟨hsup, fun hon => hst.trans (hs.started hon), fun hon ev he => ?_⟩
    rw [hp.count (hs.started hon) he]
    exact hs.count hon ev he
  | overflow n up hfree hr hlong =>
    exfalso
    have := h.safe.room n up hfree hr
    rw [h.safe.conf] at hlong
    omega
  | frame f now up hp =>
    obtain ⟨hf, ca', hg⟩ := h.safe.up f up (recvStep_free hb) hp
    obtain ⟨rest, hframes, -⟩ := h.carries_up.pass Deframe.serverPass_eq hp
    have hmem : f ∈ Client.written l.client.log := List.mem_of_mem_drop (by
      show f ∈ upFrames l
      rw [hframes]
      exact List.mem_cons_self)
    obtain ⟨hsup, hst, hsent, puts, hpool⟩ := supplied_recv hs.supplied hf hg (h.noStop f hmem) hb
    refine ⟨hsup, fun hon => hst (hs.started hon), fun hon ev he => (hs.count hon ev he).trans ?_⟩
    have hle := List.Sublist.count_le ev
      (List.sublist_append_left (Server.transmitted l.server.log ++ pool l.server) puts)
    rw [hsent, hpool, ← List.append_assoc]
    exact hle

theorem timely_step {d : Nat} {l : Stations (Signals C Q)} (h : Timely d l.client) {a : Act (Signals C Q)}
    (hown : own a = true) (hturn : Turn l a) {b : Client.Act} (hcause : ClientCause l a b) {c : Client.Session}
    (hb : Client.Session.step l.client b = some c) : Timely d c := by
  cases hcause with
  | own _ ha ht =>
    subst ha
    cases Client.step_move hb with
    | startdt | gi | build | drop | enqueue | stop => cases hown
    | count | ack | pass | confirm => cases ht
    | wait => exact h
    | testfr c hpc =>
      refine ⟨h.live, fun p t hp hstamp => ?_⟩
      rw [Client.iTaken_snoc]
      exact h.recent p t hp hstamp
    | get c packet que hpc hq =>
      refine ⟨by simp, fun p t hp hstamp => h.recent p t (.inl ?_) hstamp⟩
      rw [hq]
      rcases hp with hp | hp
      · exact List.mem_cons_of_mem _ hp
      · cases hp
        exact List.mem_cons_self
    | write c packet hpc =>
      refine ⟨by simp, fun p t hp hstamp => ?_⟩
      rw [Client.iTaken_snoc, (Client.afterSend_same l.client.st packet.octets).2.2]
      rcases hp with hp | hp
      · exact h.recent p t (.inl hp) hstamp
      · cases hp
  | frame f down ha hp =>
    obtain ⟨hidle, hque⟩ : l.client.sender = .idle ∧ l.client.que = [] := by
      rcases hturn with hsend | hidle
      · rw [ha] at hsend
        cases hsend
      · exact hidle
    simp only [Client.Session.step, Client.Session.recvStep] at hb
    split at hb
    · cases hb
      refine ⟨h.live, fun p t hp _ => ?_⟩
      rcases hp with hp | hp
      · rw [show _ = [] from hque] at hp
        cases hp
      · rw [show _ = Client.SendPc.idle from hidle] at hp
        cases hp
    · cases hb

/-! ## Runs -/

theorem granted_run {ca' : Int} {store : Signals C Q} {que : List IecEvent} {onData : Bool} (hw : 1 ≤ conf'.protW)
    (hmax : 1280 ≤ conf.maxRxBuf)
    (h : Reach (step (Server.station onCommand))
      (fun l a => recent (conf.protK - conf'.protW) l a = true ∧ staysOpen a = true)
      (newLink conf conf' ca ca' store que onData) l) : Granted conf conf' ca l := by
  have hrun : Reach (step (Server.station onCommand)) anyway (newLink conf conf' ca ca' store que onData) l :=
    h.mono fun _ _ _ => trivial
  have hj : Joined conf'.protW (conf.protK - conf'.protW) l :=
    h.inv (joined_start hw conf ca ca' store que onData _) fun _ _ _ hj hok hs => step_joined hw hj hok.1 hs
  have hplain : Client.Plain l.client :=
    (client_reach hrun).inv (Client.plain_start _ onData) fun _ _ _ hp _ hs =>
      Client.plain_move hp (Client.step_move hs)
  obtain ⟨fs, -, hdown⟩ := downward_run hw hrun
  exact ⟨safe_run hw hrun, alive_run hw hmax (h.mono fun _ _ hok => hok.2), hj, upward_run hw hrun,
    by rw [hdown]; exact List.prefix_append _ _, content_server hrun,
    Client.written_no_stopdt hj.ends.tracked hplain⟩

theorem own_allowed {d : Nat} {l : Stations (Signals C Q)} (h : Timely d l.client) {a : Act (Signals C Q)}
    (hown : own a = true) : recent d l a = true ∧ staysOpen a = true := by
  cases a with
  | server b =>
    cases b with
    | send | handle => exact ⟨rfl, rfl⟩
    | _ => cases hown
  | client b =>
    cases b with
    | send c =>
      refine ⟨?_, rfl⟩
      simp only [recent, Client.recent]
      split
      · rename_i f t hpc
        exact decide_eq_true (h.recent _ t (.inr hpc) rfl)
      · rfl
    | _ => cases hown
  | _ => exact ⟨rfl, rfl⟩

/-- From every state of a run in which nobody closes the connection and the interrogations are recent, both sending
    threads still at work: the threads' own steps lead to rest, with every event that waited sent, and taken. -/
theorem comes_to_rest (onCommand : Option (Val → Nat → Signals C Q → Bool × List IecEvent × Signals C Q))
    (conf conf' : Conf) (ca ca' : Int) (store : Signals C Q) (que : List IecEvent) (onData : Bool)
    (hw : 1 ≤ conf'.protW) (hwk : conf'.protW ≤ conf.protK) (hk : conf.protK < seqMod) (hmax : 1280 ≤ conf.maxRxBuf)
    (hca : 0 ≤ ca ∧ ca < 65536) (l : Stations (Signals C Q))
    (h : Reach (step (Server.station onCommand))
      (fun l a => recent (conf.protK - conf'.protW) l a = true ∧ staysOpen a = true)
      (newLink conf conf' ca ca' store que onData) l)
    (hserver : Supplied l.server) (hclient : Timely (conf.protK - conf'.protW) l.client) :
    ∃ l', Reach (step (Server.station onCommand)) (fun _ a => own a = true) l l' ∧ AtRest l' ∧ l'.server.que = [] ∧
      Client.taken l'.client.log = Server.written l'.server.log ∧
      (l.server.st.startdtConfirmed = true → ∀ ev, supported ev.asdu = true →
        (Server.transmitted l.server.log ++ pool l.server).count ev ≤ (Server.transmitted l'.server.log).count ev) := by
  obtain ⟨l', hreach, ⟨hrun, hserves, -⟩, hrest, hque⟩ := descends
    (J := fun l' => Reach (step (Server.station onCommand))
        (fun l a => recent (conf.protK - conf'.protW) l a = true ∧ staysOpen a = true)
        (newLink conf conf' ca ca' store que onData) l' ∧
      Serves l.server.st.startdtConfirmed (Server.transmitted l.server.log ++ pool l.server) l'.server ∧
      Timely (conf.protK - conf'.protW) l'.client)
    (fun l' => AtRest l' ∧ l'.server.que = []) effort
    (fun l₁ ⟨hrun, hserves, htimely⟩ hbusy => by
      have hg := granted_run hw hmax hrun
      obtain ⟨a, l₂, hown, hturn, hs, hlt⟩ :=
        some_goes hmax hwk hk hca hg hserves.supplied htimely.live hbusy
      refine ⟨a, l₂, hown, hs, ⟨.step hrun (own_allowed htimely hown) hs, ?_⟩, hlt⟩
      rcases step_cases hs with ⟨b, s, hb, he, he', hcause⟩ | ⟨b, c, hb, he, he', hcause⟩ | ⟨he, he'⟩
      · rw [he, he']
        exact ⟨serves_step hmax hca hg hserves hown hcause hb, htimely⟩
      · rw [he, he']
        exact ⟨hserves, timely_step htimely hown hturn hcause hb⟩
      · rw [he, he']
        exact ⟨hserves, htimely⟩)
    ⟨h, ⟨hserver, id, fun _ _ _ => Nat.le_refl _⟩, hclient⟩
  refine ⟨l', hreach, hrest, hque, downward_all hw (hrun.mono fun _ _ _ => trivial) hrest, fun hon ev hsup => ?_⟩
  have hnone : pool l'.server = [] := by
    simp [pool, hrest.clientSend, hrest.clientRec, hque, Server.SendPc.held, Server.RecPc.puts]
  have hcount := hserves.count hon ev hsup
  rwa [hnone, List.append_nil] at hcount

/-- STARTDT, and three events in the queue of a station whose window holds two frames. -/
def threeWaiting : List (Act (Signals Unit Unit)) :=
  [.client .startdt, .client (.send false), .client (.send false), .serverRecv 6, .serverPass sampleTime,
    .server .handle] ++ Server.mixedQueue.map fun ev => .server (.put ev)

theorem comes_to_rest_threeWaiting : ∃ l' : Stations (Signals Unit Unit), AtRest l' ∧ l'.server.que = [] ∧
    ∀ ev ∈ Server.mixedQueue, 1 ≤ (Server.transmitted l'.server.log).count ev := by
  have hrun : (run (checked (fun l a => recent 0 l a && staysOpen a) (step (Server.station none)))
      (newLink windowsOfTwo windowsOfTwo 1 1 (Server.stationSignals []) [] true) threeWaiting).map (fun l =>
        decide ((l.server.sender = .idle ∧ pool l.server = Server.mixedQueue ∧
          Server.interrogated l.server.store = [] ∧ l.server.st.startdtConfirmed = true) ∧
          l.client.que = [] ∧ l.client.sender = .idle)) = some true := by decide +kernel
  obtain ⟨l, hr, hl⟩ := exists_of_run _ hrun
  obtain ⟨⟨hpc, hpool, hstore, hst⟩, hque, hidle⟩ := of_decide_eq_true hl
  have hserver : Supplied l.server := by
    refine ⟨by simp [hpc], ?_, by simp [hstore]⟩
    rw [hpool]
    exact Server.takeable_mixedQueue
  have hclient : Timely 0 l.client := ⟨by simp [hidle], by simp [hque, hidle]⟩
  obtain ⟨l', -, hrest, hempty, -, hsent⟩ := comes_to_rest none windowsOfTwo windowsOfTwo 1 1 (Server.stationSignals [])
    [] true (by decide) (by decide) (by decide) (by decide) (by decide) l
    ((reach_of_checked hr).mono fun l a hok => by rwa [Bool.and_eq_true] at hok) hserver hclient
  refine ⟨l', hrest, hempty, fun ev hev => ?_⟩
  have hsup : ∀ ev ∈ Server.mixedQueue, supported ev.asdu = true ∧ 1 ≤ Server.mixedQueue.count ev := by decide
  have hle := hsent hst ev (hsup ev hev).1
  rw [hpool, List.count_append] at hle
  have := (hsup ev hev).2
  omega

end Drv60870.Link
