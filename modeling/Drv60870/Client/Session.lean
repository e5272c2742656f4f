/-
  Drv60870.Client.Session — one session of the client: `send_loop`, `recv_loop` and the
  calls of the API on a shared state (`client.py`).

  `api.gi` builds its frame where it is called, without the lock: it reads `send_sq`, then
  `rec_sq`, and puts the finished octets to `out_que`; `send_loop` sends them later and
  advances `send_sq`. Each of these is a step here, and calls may overlap.

  `process_frame` runs in one step of `recv_loop`: it is the only thread that touches
  `rec_sq`, and it answers on the socket itself. Its result says how it ended, with the objects
  that were handed to `on_data`, and what it wrote.

  A packet carries a stamp the code does not have: what the history held when its two
  numbers were read. `log` is the history: frames taken, packets sent and answers written.
-/

import Drv60870.Protocol.Codec
import Drv60870.Protocol.Handlers

namespace Drv60870.Client

open Lib.Octets Lib.Calendar Lib.Python Drv60870.Const Protocol

/-! ## Frames from the server -/

/-- What `process_frame` does: its outcome, the new state, and what it writes to the socket.
    `onData` says whether the callback is set; it returns normally. -/
structure Processed where
  result : Except PyErr Unit
  st : ClientState
  reply : Option Bytes := none

def processFrame (onData : Bool) (st : ClientState) (frame : Bytes) : Processed :=
  match index frame 2 with
  | .error e => ⟨.error e, st, none⟩
  | .ok b =>
    if b.toNat &&& 0x01 = 0 then
      match unpackU 2 (slice frame 2 4) with
      | .error e => ⟨.error e, st, none⟩
      | .ok _ =>
        match unpackU 2 (slice frame 4 6) with
        | .error e => ⟨.error e, st, none⟩
        | .ok nr =>
          let st := { st with
            lastAckNr := nr >>> 1
            recSq := (st.recSq + 1) % seqMod
            recCountSinceSend := st.recCountSinceSend + 1 }
          let decoded := if onData then (decodeIFrameObjects frame).map fun _ => () else .ok ()
          if st.recCountSinceSend ≥ st.conf.protW then
            match buildSFrame st with
            | .error e => ⟨.error e, st, none⟩
            | .ok sPacket => ⟨decoded, { st with recCountSinceSend := 0 }, some sPacket⟩
          else ⟨decoded, st, none⟩
    else if b.toNat &&& 0x02 ≠ 0 then
      match UTypeId.ofByte b with
      | none => ⟨.ok (), st, none⟩
      | some u =>
        ⟨.ok (), if u = .startdtCon then { st with startdtConfirmed := true } else st,
          if u = .testfrAct then uResp .testfrAct else none⟩
    else
      match unpackU 2 (slice frame 4 6) with
      | .error e => ⟨.error e, st, none⟩
      | .ok nr => ⟨.ok (), { st with lastAckNr := nr >>> 1 }, none⟩

/-! ## The session -/

/-- I-frames written when `send_sq` was read, and processed when `rec_sq` was. -/
structure Stamp where
  written : Nat
  taken : Nat
  deriving DecidableEq

structure Packet where
  octets : Bytes
  stamp : Option Stamp := none
  deriving DecidableEq

/-- A call of `api.gi`: `send_sq` is read, or the packet is built. -/
inductive Call where
  | reading (sendSq written : Nat)
  | built (packet : Packet)
  deriving DecidableEq

inductive SendPc where
  | idle
  | holding (packet : Packet)
  | stopped
  deriving DecidableEq

inductive Obs where
  | sent (packet : Packet)
  | reply (frame : Bytes)
  | got (frame : Bytes)
  deriving DecidableEq

def Obs.written : Obs → Option Bytes
  | .sent p => some p.octets
  | .reply f => some f
  | .got _ => none

def Obs.writesI (o : Obs) : Bool := (o.written.map isI).getD false

def Obs.takesI : Obs → Bool
  | .got f => numberedI f
  | _ => false

def iWritten (log : List Obs) : Nat := log.countP Obs.writesI
def iTaken (log : List Obs) : Nat := log.countP Obs.takesI

structure Session where
  st : ClientState
  onData : Bool
  que : List Packet
  calls : List Call
  sender : SendPc
  /-- `recv_loop` has not ended with an exception. -/
  alive : Bool
  log : List Obs

inductive Act where
  | startdt
  /-- A call of `api.gi` begins. -/
  | gi
  /-- The i-th call under way reads `rec_sq` and finishes its frame. -/
  | build (i : Nat) (now : Datetime)
  /-- The i-th call puts its frame to `out_que`. -/
  | enqueue (i : Nat)
  /-- The next step of `send_loop`; `clock` is the outcome of its time comparison. -/
  | send (clock : Bool)
  /-- `send_loop` finds `stop_event` set. -/
  | stop
  /-- `recv_loop` hands on a frame. -/
  | recv (frame : Bytes)

def giEvent (now : Datetime) : IecEvent :=
  { id := -1, ioa := 0, asdu := AsduTypeId.cIcNa1, val := .int 20, ts := now, cot := COT.activation }

namespace Session

def afterSend (st : ClientState) (packet : Bytes) : ClientState :=
  if isI packet then { st with sendSq := (st.sendSq + 1) % seqMod } else st

def sendStep (s : Session) (clock : Bool) : Option Session :=
  match s.sender with
  | .idle =>
    match s.que with
    | [] => if clock then some { s with log := s.log ++ [.sent ⟨testfrAct, none⟩] } else some s
    | packet :: que => some { s with que, sender := .holding packet }
  | .holding packet =>
    some { s with
      st := afterSend s.st packet.octets
      sender := .idle
      log := s.log ++ [.sent packet] }
  | .stopped => none

def buildStep (s : Session) (i : Nat) (now : Datetime) : Option Session :=
  match s.calls[i]? with
  | some (.reading sendSq written) =>
    match buildIFrame { s.st with sendSq } [giEvent now] with
    | .ok (some octets) =>
      some { s with calls := s.calls.set i (.built ⟨octets, some ⟨written, iTaken s.log⟩⟩) }
    | _ => some { s with calls := s.calls.eraseIdx i }
  | _ => none

def enqueueStep (s : Session) (i : Nat) : Option Session :=
  match s.calls[i]? with
  | some (.built packet) => some { s with que := s.que ++ [packet], calls := s.calls.eraseIdx i }
  | _ => none

def recvStep (s : Session) (frame : Bytes) : Option Session :=
  if s.alive = true ∧ IsFrame frame then
    let p := processFrame s.onData s.st frame
    some { s with
      st := p.st
      alive := p.result.isOk
      log := s.log ++ .got frame :: (p.reply.map Obs.reply).toList }
  else none

def step (s : Session) : Act → Option Session
  | .startdt => some { s with que := s.que ++ [⟨startdtAct, none⟩] }
  | .gi => some { s with calls := s.calls ++ [.reading s.st.sendSq (iWritten s.log)] }
  | .build i now => buildStep s i now
  | .enqueue i => enqueueStep s i
  | .send clock => sendStep s clock
  | .stop => if s.sender = .idle then some { s with sender := .stopped } else none
  | .recv frame => recvStep s frame

end Session

def start (st : ClientState) (onData : Bool) : Session := ⟨st, onData, [], [], .idle, true, []⟩

end Drv60870.Client
