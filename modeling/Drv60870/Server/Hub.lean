/-
  Drv60870.Server.Hub — the whole server: one signal storage and any number of connections.

  Actors. The accept loop opens connections and subscribes their queues; the console and the
  simulations update signals; every connection has its two threads (`Conn`). None of this is
  atomic: `update_val` commits under the storage's lock and puts its event to one queue after
  the other when it has released it; a receive thread passes the commands of a frame on one at
  a time, and reads the signals of an interrogation one at a time. At each of these points any
  other thread may come in.

  A frame takes effect on its own connection when its handler returns (`finish`). Nobody
  sees it earlier: the handler runs under `seq_lock`, and the sections of `client_send` wait.
  What it puts and writes into the storage on the way is seen at once.

  Left out are the table of clients (`Registration` has it), peers that are refused, and the
  end of the server. A connection is numbered in the order of `accept`, and its queue goes by
  the same number. `log` is the history of the subscriptions and of the events written.

  Proved:
  - What a step is to one connection (`line_cases`), and so every connection of the server is
    a run of one connection, to which the others are producers (`line_reach`).
-/

import Drv60870.Protocol.Orders
import Drv60870.Server.Frames
import Drv60870.Storage.Delivery
import Drv60870.Storage.Sendable

namespace Drv60870.Server

open Lib Lib.Octets Lib.Calendar Lib.Python Lib.Runs Drv60870.Const Protocol Storage

/-- `client_send` is before a section under `seq_lock`. -/
def SendPc.locks : SendPc → Bool
  | .enabled _ | .ready _ _ | .tail => true
  | _ => false

/-! ## The server -/

/-- The frame `client_rec` is handling, and the calls of `on_command` it has yet to make. -/
structure Job where
  frame : Bytes
  now : Datetime
  orders : List Command
  deriving DecidableEq

/-- `client_rec` takes frames, has left its loop, or has unsubscribed its client as well. -/
inductive Phase where
  | serving
  | leaving
  | gone
  deriving DecidableEq

structure Line (Addr : Type) where
  addr : Addr
  conn : Conn Unit
  job : Option Job := none
  phase : Phase := .serving

/-- A call of the storage in flight; `owner` is the connection whose receive thread is in it. -/
structure Pending where
  owner : Option Nat
  flight : Flight Nat Val
  deriving DecidableEq

inductive Entry where
  | joined (i : Nat)
  | wrote (event : Event Val)
  | left (i : Nat)
  deriving DecidableEq

/-- Connections are numbered in the order of `accept`; their queues go by the same numbers. -/
structure Hub (Addr : Type) where
  conf : Conf
  ca : Int
  storage : Signals Addr Nat
  calls : List Pending := []
  lines : List (Line Addr) := []
  log : List Entry := []

namespace Hub

variable {Addr : Type}

inductive Act (Addr : Type) where
  /-- `accept`, `create_client_state`, `subscribe` -/
  | accept (addr : Addr)
  /-- `update_val` by the console or a simulation, under the lock. -/
  | update (now : Datetime) (call : Call)
  /-- The next put or read of a call in flight. -/
  | turn (n : Nat)
  /-- `client_rec` takes a frame. -/
  | recv (i : Nat) (frame : Bytes) (now : Datetime)
  /-- The next `on_command` of the frame, under the storage's lock. -/
  | order (i : Nat) (now : Datetime)
  /-- The handler returns. -/
  | finish (i : Nat)
  | handle (i : Nat)
  | send (i : Nat) (clock : Bool)
  | stop (i : Nat)
  /-- `client_rec` leaves its loop. -/
  | leave (i : Nat)
  | unsubscribe (i : Nat)
  | close (i : Nat)

def returned (h : Hub Addr) (i : Nat) : Bool := h.calls.all fun call => call.owner ≠ some i || call.flight.done

def setLine (h : Hub Addr) (i : Nat) (l : Line Addr) : Hub Addr := { h with lines := h.lines.set i l }

def onConn (h : Hub Addr) (i : Nat) (a : Server.Act Unit) : Option (Hub Addr) := do
  let l ← h.lines[i]?
  let conn ← Conn.step posting l.conn a
  return h.setLine i { l with conn }

def committed (h : Hub Addr) (owner : Option Nat) (c : Commit Addr Nat Val F64) : Hub Addr :=
  { h with
    storage := c.storage
    calls := h.calls ++ c.event.toList.map fun event => ⟨owner, .update event c.storage.subs.values⟩
    log := h.log ++ c.event.toList.map .wrote }

/-- A call of `get_all_for_gi`, where the frame makes one. -/
def gi (h : Hub Addr) (i : Nat) (st : ClientState) (frame : Bytes) (now : Datetime) : List Pending :=
  if interrogates now frame st then [⟨some i, .gi i h.storage.signals.keys none⟩] else []

variable [DecidableEq Addr]

def opened (h : Hub Addr) (addr : Addr) : Hub Addr :=
  { h with
    storage := h.storage.subscribe addr h.lines.length
    lines := h.lines ++ [{ addr, conn := Server.start (createClientState h.conf h.ca) () [] }]
    log := h.log ++ [.joined h.lines.length] }

def step (h : Hub Addr) : Act Addr → Option (Hub Addr)
  | .accept addr => some (h.opened addr)
  | .update now call =>
    match h.storage.commit now call.update with
    | .ok c => some (h.committed none c)
    | .error _ => some h
  | .turn n => do
    let call ← h.calls[n]?
    let (out, flight) ← call.flight.advance h.storage
    let h := { h with calls := h.calls.set n { call with flight } }
    match out with
    | some (i, event) => h.onConn i (.put event.iec)
    | none => some h
  | .recv i frame now => do
    let l ← h.lines[i]?
    if l.phase = .serving ∧ l.job = none ∧ l.conn.receiver = .free ∧ IsFrame frame then
      let job : Job := ⟨frame, now, orders now frame l.conn.st⟩
      let calls := h.calls ++ h.gi i l.conn.st frame now
      some { h.setLine i { l with job := some job } with calls }
    else none
  | .order i now => do
    let l ← h.lines[i]?
    let job ← l.job
    match job.orders with
    | (val, ioa) :: orders =>
      if h.returned i then
        -- raises only on a stored integer too large for a float, and no call stores one
        match h.storage.commit now { val, ioa := some (ioa : Int) } with
        | .ok c => some ((h.committed (some i) c).setLine i { l with job := some { job with orders } })
        | .error _ => none
      else none
    | [] => none
  | .finish i => do
    let l ← h.lines[i]?
    let job ← l.job
    if job.orders = [] ∧ h.returned i then
      let conn ← Conn.step posting l.conn (.recv job.frame job.now)
      return h.setLine i { l with conn, job := none }
    else none
  | .handle i => h.onConn i .handle
  | .send i clock => do
    let l ← h.lines[i]?
    if l.job.isSome ∧ l.conn.sender.locks then none else h.onConn i (.send clock)
  | .stop i => h.onConn i .stop
  | .leave i => do
    let l ← h.lines[i]?
    if l.phase = .serving ∧ l.job = none ∧ (l.conn.receiver = .free ∨ l.conn.receiver = .failed) then
      some (h.setLine i { l with phase := .leaving })
    else none
  | .unsubscribe i => do
    let l ← h.lines[i]?
    if l.phase = .leaving then
      let storage := h.storage.unsubscribe l.addr
      some { h.setLine i { l with phase := .gone } with storage, log := h.log ++ [.left i] }
    else none
  | .close i => do
    let l ← h.lines[i]?
    if l.phase = .gone then h.onConn i .close else none

def start (conf : Conf) (ca : Int) (now : Datetime) (rows : List Row) : Hub Addr :=
  { conf, ca, storage := load now rows }

/-! ## Every step -/

def Act.own : Act Addr → Option (Nat × Server.Act Unit)
  | .handle i => some (i, .handle)
  | .send i clock => some (i, .send clock)
  | .stop i => some (i, .stop)
  | .close i => some (i, .close)
  | _ => none

inductive Move : Hub Addr → Act Addr → Hub Addr → Prop
  | accept (h) (addr) : Move h (.accept addr) (h.opened addr)
  | raised (h) (now call) : Move h (.update now call) h
  | update (h) (now call c) : h.storage.commit now call.update = .ok c →
      Move h (.update now call) (h.committed none c)
  | read (h) (n call flight) : h.calls[n]? = some call → call.flight.advance h.storage = some (none, flight) →
      Move h (.turn n) { h with calls := h.calls.set n { call with flight } }
  | put (h) (n call flight i event l) : h.calls[n]? = some call →
      call.flight.advance h.storage = some (some (i, event), flight) → h.lines[i]? = some l →
      Move h (.turn n) { h.setLine i { l with conn :=
        { l.conn with que := l.conn.que ++ [event.iec], log := l.conn.log ++ [.put event.iec] } } with
          calls := h.calls.set n { call with flight } }
  | recv (h) (i frame now l) : h.lines[i]? = some l → l.phase = .serving → l.job = none →
      l.conn.receiver = .free → IsFrame frame →
      Move h (.recv i frame now) { h.setLine i { l with job := some ⟨frame, now, orders now frame l.conn.st⟩ } with
        calls := h.calls ++ h.gi i l.conn.st frame now }
  | order (h) (i now l job val ioa orders c) : h.lines[i]? = some l → l.job = some job →
      job.orders = (val, ioa) :: orders → h.returned i = true →
      h.storage.commit now { val, ioa := some (ioa : Int) } = .ok c →
      Move h (.order i now) ((h.committed (some i) c).setLine i { l with job := some { job with orders } })
  | finish (h) (i l job conn) : h.lines[i]? = some l → l.job = some job → job.orders = [] → h.returned i = true →
      Conn.step posting l.conn (.recv job.frame job.now) = some conn →
      Move h (.finish i) (h.setLine i { l with conn, job := none })
  | own (h) (a i b l conn) : Act.own a = some (i, b) → h.lines[i]? = some l → Conn.step posting l.conn b = some conn →
      Move h a (h.setLine i { l with conn })
  | leave (h) (i l) : h.lines[i]? = some l → l.phase = .serving → l.job = none →
      Move h (.leave i) (h.setLine i { l with phase := .leaving })
  | unsubscribe (h) (i l) : h.lines[i]? = some l → l.phase = .leaving →
      Move h (.unsubscribe i) { h.setLine i { l with phase := .gone } with
        storage := h.storage.unsubscribe l.addr, log := h.log ++ [.left i] }

omit [DecidableEq Addr] in
theorem onConn_some {h h' : Hub Addr} {i : Nat} {b : Server.Act Unit} (hs : h.onConn i b = some h') :
    ∃ l conn, h.lines[i]? = some l ∧ Conn.step posting l.conn b = some conn ∧ h' = h.setLine i { l with conn } := by
  obtain ⟨l, hl, hs⟩ := Option.bind_eq_some_iff.mp hs
  obtain ⟨conn, hc, hs⟩ := Option.bind_eq_some_iff.mp hs
  cases hs
  exact ⟨l, conn, hl, hc, rfl⟩

theorem own_move {h h' : Hub Addr} {a : Act Addr} {i : Nat} {b : Server.Act Unit} (ha : a.own = some (i, b))
    (hs : h.onConn i b = some h') : Move h a h' := by
  obtain ⟨l, conn, hl, hc, rfl⟩ := onConn_some hs
  exact .own h a i b l conn ha hl hc

theorem step_move {h h' : Hub Addr} {a : Act Addr} (hs : h.step a = some h') : Move h a h' := by
  cases a with
  | accept addr =>
    cases hs
    exact .accept h addr
  | update now call =>
    simp only [step] at hs
    split at hs
    · rename_i c hc
      cases hs
      exact .update h now call c hc
    · cases hs
      exact .raised h now call
  | turn n =>
    obtain ⟨call, hcall, hs⟩ := Option.bind_eq_some_iff.mp hs
    obtain ⟨⟨out, flight⟩, hadv, hs⟩ := Option.bind_eq_some_iff.mp hs
    cases out with
    | none =>
      cases hs
      exact .read h n call flight hcall hadv
    | some p =>
      obtain ⟨i, event⟩ := p
      obtain ⟨l, conn, hl, hc, rfl⟩ := onConn_some hs
      cases hc
      exact .put h n call flight i event l hcall hadv hl
  | recv i frame now =>
    obtain ⟨l, hl, hs⟩ := Option.bind_eq_some_iff.mp hs
    split at hs
    · rename_i hok
      cases hs
      exact .recv h i frame now l hl hok.1 hok.2.1 hok.2.2.1 hok.2.2.2
    · cases hs
  | order i now =>
    obtain ⟨l, hl, hs⟩ := Option.bind_eq_some_iff.mp hs
    obtain ⟨job, hjob, hs⟩ := Option.bind_eq_some_iff.mp hs
    split at hs
    · rename_i val ioa orders ho
      split at hs
      · rename_i hret
        split at hs
        · rename_i c hc
          cases hs
          exact .order h i now l job val ioa orders c hl hjob ho hret hc
        · cases hs
      · cases hs
    · cases hs
  | finish i =>
    obtain ⟨l, hl, hs⟩ := Option.bind_eq_some_iff.mp hs
    obtain ⟨job, hjob, hs⟩ := Option.bind_eq_some_iff.mp hs
    split at hs
    · rename_i hok
      obtain ⟨conn, hc, hs⟩ := Option.bind_eq_some_iff.mp hs
      cases hs
      exact .finish h i l job conn hl hjob hok.1 hok.2 hc
    · cases hs
  | handle i => exact own_move rfl hs
  | send i clock =>
    obtain ⟨l, hl, hs⟩ := Option.bind_eq_some_iff.mp hs
    split at hs
    · cases hs
    · exact own_move rfl hs
  | stop i => exact own_move rfl hs
  | leave i =>
    obtain ⟨l, hl, hs⟩ := Option.bind_eq_some_iff.mp hs
    split at hs
    · rename_i hok
      cases hs
      exact .leave h i l hl hok.1 hok.2.1
    · cases hs
  | unsubscribe i =>
    obtain ⟨l, hl, hs⟩ := Option.bind_eq_some_iff.mp hs
    split at hs
    · rename_i hok
      cases hs
      exact .unsubscribe h i l hl hok
    · cases hs
  | close i =>
    obtain ⟨l, hl, hs⟩ := Option.bind_eq_some_iff.mp hs
    split at hs
    · exact own_move rfl hs
    · cases hs

/-! ## Every connection -/

omit [DecidableEq Addr] in
theorem setLine_get {h : Hub Addr} {i : Nat} {l₀ : Line Addr} (hl : h.lines[i]? = some l₀) (l : Line Addr) (j : Nat) :
    (h.setLine i l).lines[j]? = if j = i then some l else h.lines[j]? := by
  have hlt : i < h.lines.length := (List.getElem?_eq_some_iff.mp hl).1
  show (h.lines.set i l)[j]? = _
  rw [List.getElem?_set]
  by_cases hj : j = i
  · rw [if_pos hj.symm, if_pos hlt, if_pos hj]
  · rw [if_neg (Ne.symm hj), if_neg hj]

omit [DecidableEq Addr] in
theorem setLine_length (h : Hub Addr) (i : Nat) (l : Line Addr) : (h.setLine i l).lines.length = h.lines.length :=
  List.length_set

def newLine (h : Hub Addr) (addr : Addr) : Line Addr :=
  { addr, conn := Server.start (createClientState h.conf h.ca) () [] }

theorem opened_get (h : Hub Addr) (addr : Addr) (j : Nat) :
    (h.opened addr).lines[j]? = if j = h.lines.length then some (h.newLine addr) else h.lines[j]? := by
  show (h.lines ++ [h.newLine addr])[j]? = _
  rw [List.getElem?_append]
  by_cases hlt : j < h.lines.length
  · rw [if_pos hlt, if_neg (Nat.ne_of_lt hlt)]
  · rw [if_neg hlt]
    by_cases hj : j = h.lines.length
    · rw [if_pos hj, hj, Nat.sub_self]
      rfl
    · rw [if_neg hj, List.getElem?_eq_none (by simp; omega), List.getElem?_eq_none (by omega)]

theorem opened_length (h : Hub Addr) (addr : Addr) : (h.opened addr).lines.length = h.lines.length + 1 :=
  List.length_append

/-- The step of a connection that a step of the server is, if it takes no frame. -/
def Act.conducts (h : Hub Addr) : Act Addr → Option (Nat × Server.Act Unit)
  | .turn n => do
    let call ← h.calls[n]?
    let (out, _) ← call.flight.advance h.storage
    out.map fun p => (p.1, .put p.2.iec)
  | a => a.own

omit [DecidableEq Addr] in
theorem conducts_takes {h : Hub Addr} {a : Act Addr} {i : Nat} {b : Server.Act Unit} (ha : a.conducts h = some (i, b)) :
    b.takes = [] := by
  cases a with
  | turn n =>
    obtain ⟨call, -, ha⟩ := Option.bind_eq_some_iff.mp ha
    obtain ⟨⟨out, flight⟩, -, ha⟩ := Option.bind_eq_some_iff.mp ha
    obtain ⟨p, -, ha⟩ := Option.map_eq_some_iff.mp ha
    cases ha
    rfl
  | handle | send | stop | close =>
    cases ha
    rfl
  | _ => cases ha

omit [DecidableEq Addr] in
theorem conducts_send {h : Hub Addr} {a : Act Addr} {i : Nat} {clock : Bool}
    (ha : a.conducts h = some (i, .send clock)) : a = .send i clock := by
  cases a with
  | turn n =>
    obtain ⟨call, -, ha⟩ := Option.bind_eq_some_iff.mp ha
    obtain ⟨⟨out, flight⟩, -, ha⟩ := Option.bind_eq_some_iff.mp ha
    obtain ⟨p, -, ha⟩ := Option.map_eq_some_iff.mp ha
    cases ha
  | send j clock =>
    cases ha
    rfl
  | _ => cases ha

/-- What a step of the server is to connection `i`. -/
inductive LineMove (h : Hub Addr) (a : Act Addr) (i : Nat) (l l' : Line Addr) : Prop
  | kept : l'.conn = l.conn → l'.job.map Job.frame = l.job.map Job.frame → LineMove h a i l l'
  | own (b) : a.conducts h = some (i, b) → Conn.step posting l.conn b = some l'.conn → l'.job = l.job →
      LineMove h a i l l'
  | took (frame now job) : a = .recv i frame now → l.job = none → l'.conn = l.conn → l'.job = some job →
      job.frame = frame → LineMove h a i l l'
  | finished (job) : a = .finish i → l.job = some job → l'.job = none →
      Conn.step posting l.conn (.recv job.frame job.now) = some l'.conn → LineMove h a i l l'

/-- Each step opens the connection, or is one of these moves of it. -/
theorem line_cases {h h' : Hub Addr} {a : Act Addr} (hs : h.step a = some h') {i : Nat} {l' : Line Addr}
    (hl' : h'.lines[i]? = some l') :
    (i = h.lines.length ∧ l' = h.newLine l'.addr ∧ a = .accept l'.addr) ∨
      ∃ l, h.lines[i]? = some l ∧ LineMove h a i l l' := by
  have hset : ∀ (h₁ : Hub Addr) {j : Nat} {l₀ l : Line Addr}, h₁.lines = h.lines → h.lines[j]? = some l₀ →
      (h₁.setLine j l).lines[i]? = some l' → LineMove h a j l₀ l →
      ∃ l, h.lines[i]? = some l ∧ LineMove h a i l l' := by
    intro h₁ j l₀ l hlines hl hget hmove
    rw [setLine_get (by rw [hlines]; exact hl), hlines] at hget
    by_cases hj : i = j
    · rw [if_pos hj] at hget
      cases hget
      subst hj
      exact ⟨l₀, hl, hmove⟩
    · rw [if_neg hj] at hget
      exact ⟨l', hget, .kept rfl rfl⟩
  cases step_move hs with
  | accept addr =>
    rw [opened_get] at hl'
    split at hl'
    · rename_i hi
      cases hl'
      exact .inl ⟨hi, rfl, rfl⟩
    · exact .inr ⟨l', hl', .kept rfl rfl⟩
  | raised | update | read => exact .inr ⟨l', hl', .kept rfl rfl⟩
  | put n call flight j event l hcall hadv hl =>
    refine .inr (hset h rfl hl hl' (.own (.put event.iec) ?_ rfl rfl))
    simp [Act.conducts, hcall, hadv]
  | recv j frame now l hl hp hjob => exact .inr (hset h rfl hl hl' (.took frame now _ rfl hjob rfl rfl rfl))
  | leave j l hl | unsubscribe j l hl => exact .inr (hset h rfl hl hl' (.kept rfl rfl))
  | order j now l job val ioa orders c hl hjob =>
    refine .inr (hset (h.committed (some j) c) rfl hl hl' (.kept rfl ?_))
    rw [hjob]
    rfl
  | finish j l job conn hl hjob ho hret hc => exact .inr (hset h rfl hl hl' (.finished job rfl hjob rfl hc))
  | own a j b l conn ha hl hc =>
    refine .inr (hset h rfl hl hl' (.own b ?_ hc rfl))
    cases a <;> first | exact ha | cases ha

theorem step_conf {h h' : Hub Addr} {a : Act Addr} (hs : h.step a = some h') : h'.conf = h.conf ∧ h'.ca = h.ca := by
  cases step_move hs <;> exact ⟨rfl, rfl⟩

theorem step_length {h h' : Hub Addr} {a : Act Addr} (hs : h.step a = some h') (ha : ∀ addr, a ≠ .accept addr) :
    h'.lines.length = h.lines.length := by
  cases step_move hs with
  | accept addr => exact absurd rfl (ha addr)
  | raised | update | read => rfl
  | order => exact List.length_set
  | _ => exact List.length_set

/-- Every connection of the server is a run of one connection, to which the others are producers. -/
theorem line_reach {ok : Hub Addr → Act Addr → Prop} {okc : Conn Unit → Server.Act Unit → Prop}
    (hother : ∀ s b, (∀ clock, b ≠ .send clock) → okc s b)
    (hsend : ∀ (h : Hub Addr) (i : Nat) (l : Line Addr) (clock : Bool), ok h (.send i clock) → h.lines[i]? = some l →
      okc l.conn (.send clock))
    {conf : Conf} {ca : Int} {now : Datetime} {rows : List Row} {h : Hub Addr}
    (hr : Reach step ok (start conf ca now rows) h) {i : Nat} {l : Line Addr} (hl : h.lines[i]? = some l) :
    Reach (Conn.step posting) okc (Server.start (createClientState conf ca) () []) l.conn := by
  have hinv : (h.conf = conf ∧ h.ca = ca) ∧ ∀ (i : Nat) (l : Line Addr), h.lines[i]? = some l →
      Reach (Conn.step posting) okc (Server.start (createClientState conf ca) () []) l.conn := by
    refine hr.inv (P := fun h => (h.conf = conf ∧ h.ca = ca) ∧ ∀ (i : Nat) (l : Line Addr), h.lines[i]? = some l →
      Reach (Conn.step posting) okc (Server.start (createClientState conf ca) () []) l.conn)
      ⟨⟨rfl, rfl⟩, fun i l hl => by cases hl⟩ fun s a s' hi hok hs => ⟨?_, fun i l' hl' => ?_⟩
    · rw [(step_conf hs).1, (step_conf hs).2]
      exact hi.1
    · rcases line_cases hs hl' with ⟨-, hnew, -⟩ | ⟨l, hl, hmove⟩
      · rw [hnew, newLine, hi.1.1, hi.1.2]
        exact .init
      · cases hmove with
        | kept hc =>
          rw [hc]
          exact hi.2 i l hl
        | took frame now job _ _ hc =>
          rw [hc]
          exact hi.2 i l hl
        | finished job _ _ _ hc => exact .step (hi.2 i l hl) (hother _ _ fun clock hb => by cases hb) hc
        | own b ha hc =>
          refine .step (hi.2 i l hl) ?_ hc
          by_cases hclock : ∃ clock, b = .send clock
          · obtain ⟨clock, rfl⟩ := hclock
            have hsent := conducts_send ha
            subst hsent
            exact hsend s i l clock hok hl
          · exact hother l.conn b fun clock hb => hclock ⟨clock, hb⟩
  exact hinv.2 i l hl

end Hub

end Drv60870.Server
