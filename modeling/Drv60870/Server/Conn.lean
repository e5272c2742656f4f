/-
  Drv60870.Server.Conn — one connection of the server: `client_send` and `client_rec`
  (`server.py`) on a shared state, with producers putting events to the queue.

  A step is what a thread does between two points where another can come in: one queue
  operation, one test of a shared field, one section under `seq_lock`. While `client_rec`
  holds the lock over a frame, the sections of `client_send` wait, its other steps do not.

  The threads. `SendPc` is where `client_send` stands in an iteration: before the dequeue,
  with an event in hand before each of its tests, or with a batch it packs and sends. The
  clock is not kept: whether a period is over is the action's to say. `RecPc` is where
  `client_rec` stands: waiting for a frame, or under the lock with the handler's result and
  the events it still has to put. Any other thread is a producer (`Act.put`).

  What a send does is up to the socket; here it succeeds until `client_rec` has closed it.
  Logs and statistics are left out, but for the count of objects, which is set back when they
  are logged. `log` is the history: what was put, what was written and by which thread, what
  frame was taken.
-/

import Drv60870.Lib.Cyclic
import Drv60870.Protocol.Codec
import Drv60870.Protocol.Handlers

namespace Drv60870.Server

open Lib.Octets Lib.Calendar Lib.Python Lib.Cyclic Drv60870.Const Protocol

variable {σ : Type}

inductive SendPc where
  | idle
  | got (event : IecEvent)
  | enabled (event : IecEvent)
  | blocked (event : IecEvent)
  | packing (event : IecEvent) (rest : List IecEvent)
  | mismatch (event : IecEvent) (rest : List IecEvent) (nxt : IecEvent)
  | ready (event : IecEvent) (rest : List IecEvent)
  | tail
  | test
  | stopped
  deriving DecidableEq

/-- Where `client_rec` is: waiting for a frame, under the lock with what the handler returned
    (`none` for an exception) and the events it still has to put, or past an exception. -/
inductive RecPc where
  | free
  | handling (result : Option (FrameType × Option Bytes)) (puts : List IecEvent)
  | failed
  | closed
  deriving DecidableEq

def RecPc.locked : RecPc → Bool
  | .handling _ _ => true
  | _ => false

inductive Obs where
  | put (event : IecEvent)
  | sent (batch : List IecEvent) (frame : Bytes)
  | reply (frame : Bytes)
  | got (frame : Bytes)
  deriving DecidableEq

structure Conn (σ : Type) where
  st : ClientState
  store : σ
  que : List IecEvent
  sender : SendPc
  receiver : RecPc
  log : List Obs

inductive Act (σ : Type) where
  /-- A producer puts an event. -/
  | put (event : IecEvent)
  /-- Another thread changes the signal store. -/
  | store (s : σ)
  /-- The next step of `client_send`; `clock` is the outcome of its time comparison, if it makes one. -/
  | send (clock : Bool)
  /-- `client_send` finds `stop_event` set. -/
  | stop
  /-- `client_rec` takes a frame. -/
  | recv (frame : Bytes) (now : Datetime)
  /-- The next step of `client_rec` under the lock. -/
  | handle
  /-- `client_rec` ends and the socket is closed. -/
  | close

def start (st : ClientState) (store : σ) (que : List IecEvent) : Conn σ :=
  ⟨st, store, que, .idle, .free, que.map .put⟩

namespace Conn

/-- The state after a batch was sent; the object count starts anew when statistics are logged. -/
def afterBatch (st : ClientState) (n : Nat) (clock : Bool) : ClientState :=
  let sentObj := st.sentObj + n
  let every := st.conf.logIFrameStatsEvery
  { st with
    sendSq := (st.sendSq + 1) % seqMod
    sentObj := if every ≠ 0 ∧ sentObj % every < n ∧ clock = true then 0 else sentObj }

def sendStep (s : Conn σ) (clock : Bool) : Option (Conn σ) :=
  match s.sender with
  | .idle =>
    match s.que with
    | [] => some { s with sender := .tail }
    | event :: que => some { s with que, sender := .got event }
  | .got event => some { s with sender := if s.st.startdtConfirmed then .enabled event else .idle }
  | .enabled event =>
    if s.receiver.locked then none
    else if window seqMod s.st.sendSq s.st.lastAckNr ≥ s.st.conf.protK then some { s with sender := .blocked event }
    else some { s with sender := .packing event [] }
  | .blocked event => some { s with que := s.que ++ [event], sender := .idle }
  | .packing event rest =>
    if (event :: rest).length < maxObj event.asdu then
      match s.que with
      | [] => some { s with sender := .ready event rest }
      | nxt :: que =>
        if nxt.asdu = event.asdu ∧ nxt.cot = event.cot then
          some { s with que, sender := .packing event (rest ++ [nxt]) }
        else some { s with que, sender := .mismatch event rest nxt }
    else some { s with sender := .ready event rest }
  | .mismatch event rest nxt => some { s with que := s.que ++ [nxt], sender := .ready event rest }
  | .ready event rest =>
    if s.receiver.locked then none
    else
      match buildIFrame s.st (event :: rest) with
      | .error _ => some { s with sender := .stopped }
      | .ok none => some { s with sender := .idle }
      | .ok (some packet) =>
        if s.receiver = .closed then some { s with sender := .stopped }
        else
          some { s with
            st := afterBatch s.st (event :: rest).length clock
            sender := .tail
            log := s.log ++ [.sent (event :: rest) packet] }
  | .tail =>
    if s.receiver.locked then none
    else some { s with sender := if clock then .test else .idle }
  | .test =>
    if s.receiver = .closed then some { s with sender := .stopped }
    else some { s with sender := .idle, log := s.log ++ [.sent [] testfrAct] }
  | .stopped => none

def recvStep (cb : Callbacks σ) (s : Conn σ) (frame : Bytes) (now : Datetime) : Option (Conn σ) :=
  if s.receiver = .free ∧ IsFrame frame then
    let r := procFrame cb now frame ⟨s.st, s.store, [], []⟩
    some { s with
      st := r.2.st
      store := r.2.store
      receiver := .handling r.1.toOption r.2.puts
      log := s.log ++ [.got frame] }
  else none

def handleStep (s : Conn σ) : Option (Conn σ) :=
  match s.receiver with
  | .handling result (event :: puts) =>
    some { s with que := s.que ++ [event], receiver := .handling result puts, log := s.log ++ [.put event] }
  | .handling none [] => some { s with receiver := .failed }
  | .handling (some (fType, response)) [] =>
    let count := if fType = .I then s.st.recCountSinceSend + 1 else s.st.recCountSinceSend
    match response with
    | some response =>
      some { s with
        st := { s.st with recCountSinceSend := 0 }
        receiver := .free
        log := s.log ++ [.reply response] }
    | none =>
      if fType = .I ∧ count ≥ s.st.conf.protW then
        match buildSFrame s.st with
        | .error _ => some { s with receiver := .failed }
        | .ok sFrame =>
          some { s with
            st := { s.st with recCountSinceSend := 0 }
            receiver := .free
            log := s.log ++ [.reply sFrame] }
      else some { s with st := { s.st with recCountSinceSend := count }, receiver := .free }
  | _ => none

def step (cb : Callbacks σ) (s : Conn σ) : Act σ → Option (Conn σ)
  | .put event => some { s with que := s.que ++ [event], log := s.log ++ [.put event] }
  | .store x => some { s with store := x }
  | .send clock => sendStep s clock
  | .stop => if s.sender = .idle then some { s with sender := .stopped } else none
  | .recv frame now => recvStep cb s frame now
  | .handle => handleStep s
  | .close => if s.receiver = .free ∨ s.receiver = .failed then some { s with receiver := .closed } else none

end Conn

end Drv60870.Server
