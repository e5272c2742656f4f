/-
  Drv60870.Link.Stations — a connection of the server and a session of the client, joined
  by two streams of octets.

  A step is a step of either station (`Server.step`, `Client.Session.step`), or of a receive
  thread at its end of a stream: one `recv`, or one pass of its loop with what comes of the
  frame it cuts. What a station's step adds to its history as written goes into the stream, in
  that order. The server closes the connection when its buffer outgrows the limit, and the
  buffer is given up with it.

  A new link has just been accepted; at rest (`AtRest`) nothing is on its way, nothing is
  queued at the client, and every thread is between two iterations.
-/

import Drv60870.Client.Frames
import Drv60870.Server.Frames
import Drv60870.Link.Pipe

namespace Drv60870.Link

open Lib.Octets Lib.Calendar Drv60870.Const Protocol

variable {σ : Type}

structure Stations (σ : Type) where
  server : Server.Conn σ
  client : Client.Session
  /-- From the client to the server. -/
  up : Pipe
  /-- From the server to the client. -/
  down : Pipe

inductive Act (σ : Type) where
  /-- A step of the server other than taking a frame. -/
  | server (a : Server.Act σ)
  /-- A step of the client other than taking a frame. -/
  | client (a : Client.Act)
  /-- `client_rec` receives `n` octets. -/
  | serverRecv (n : Nat)
  /-- A pass of `client_rec` over its buffer. -/
  | serverPass (now : Datetime)
  /-- `recv_loop` receives `n` octets. -/
  | clientRecv (n : Nat)
  /-- A pass of `recv_loop` over `rx_buf`. -/
  | clientPass

namespace Stations

def serverStep (cb : Callbacks σ) (l : Stations σ) (a : Server.Act σ) : Option (Stations σ) :=
  (Server.Conn.step cb l.server a).map fun s =>
    { l with server := s, down := l.down.send (Server.written (s.log.drop l.server.log.length)) }

def clientStep (l : Stations σ) (a : Client.Act) : Option (Stations σ) :=
  (Client.Session.step l.client a).map fun s =>
    { l with client := s, up := l.up.send (Client.written (s.log.drop l.client.log.length)) }

/-- The server closes the connection when its buffer outgrows the limit. -/
def serverRecvStep (cb : Callbacks σ) (l : Stations σ) (n : Nat) : Option (Stations σ) :=
  if l.server.receiver = .free then
    (l.up.recv n).bind fun up =>
      if up.buf.length > l.server.st.conf.maxRxBuf then serverStep cb { l with up } .close
      else some { l with up }
  else none

def serverPassStep (cb : Callbacks σ) (l : Stations σ) (now : Datetime) : Option (Stations σ) :=
  if l.server.receiver = .free then
    (l.up.pass Deframe.serverPass).bind fun
      | (some frame, up) => serverStep cb { l with up } (.recv frame now)
      | (none, up) => some { l with up }
  else none

def clientRecvStep (l : Stations σ) (n : Nat) : Option (Stations σ) :=
  if l.client.alive then (l.down.recv n).map fun down => { l with down } else none

def clientPassStep (l : Stations σ) : Option (Stations σ) :=
  if l.client.alive then
    (l.down.pass Deframe.clientPass).bind fun
      | (some frame, down) => clientStep { l with down } (.recv frame)
      | (none, down) => some { l with down }
  else none

def step (cb : Callbacks σ) (l : Stations σ) : Act σ → Option (Stations σ)
  | .server a => if a.takes = [] then serverStep cb l a else none
  | .client a => if a.takes = [] then clientStep l a else none
  | .serverRecv n => serverRecvStep cb l n
  | .serverPass now => serverPassStep cb l now
  | .clientRecv n => clientRecvStep l n
  | .clientPass => clientPassStep l

end Stations

def start (server : Server.Conn σ) (client : Client.Session) : Stations σ := ⟨server, client, {}, {}⟩

/-- Nothing on its way, nothing queued at the client, and every thread between two iterations. -/
structure AtRest (l : Stations σ) : Prop where
  up : l.up.chan = [] ∧ l.up.draining = false
  down : l.down.chan = [] ∧ l.down.draining = false
  que : l.client.que = []
  clientSend : l.server.sender = .idle
  clientRec : l.server.receiver = .free
  sendLoop : l.client.sender = .idle
  recvLoop : l.client.alive = true

instance (l : Stations σ) : Decidable (AtRest l) :=
  decidable_of_iff ((l.up.chan = [] ∧ l.up.draining = false) ∧ (l.down.chan = [] ∧ l.down.draining = false) ∧
      l.client.que = [] ∧ l.server.sender = .idle ∧ l.server.receiver = .free ∧ l.client.sender = .idle ∧
      l.client.alive = true)
    ⟨fun ⟨hu, hd, hq, hs, hr, hc, ha⟩ => ⟨hu, hd, hq, hs, hr, hc, ha⟩,
      fun ⟨hu, hd, hq, hs, hr, hc, ha⟩ => ⟨hu, hd, hq, hs, hr, hc, ha⟩⟩

end Drv60870.Link
