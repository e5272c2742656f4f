/-
  Drv60870.Link.Network — one server and its clients, each at the end of two streams.

  The connections of the server share its storage (`Hub`), and a step of it may write on any
  of them. Every connection has a client, and the octets between the two are as in
  `Stations`. A receive thread that has cut a frame handles it in many steps, and meanwhile
  the rest of the server and all clients go on.

  Cut out of the network, a connection and its client are two stations to which the rest of
  the server is the producer of events (`Twin`). The frame being handled is still in front of
  the stream there, and taken when the handler returns (`Aligned`).

  Proved:
  - Each step of the network opens the connection, or is nothing or a step of the two stations
    to it (`step_goes`).
  - Every connection and its client are where a run of the two stations on their own has led
    them, whatever the others have done: the same states and histories, the same octets on
    their way (`parted`). A condition on the network's steps carries over where their images
    meet it (`parted_reach`).
  - The server makes a run of its own (`hub_reach`).
-/

import Drv60870.Link.Alive
import Drv60870.Server.Hub

namespace Drv60870.Link

open Lib.Octets Lib.Calendar Lib.Runs Drv60870.Const Protocol Storage

/-- A client's session, and the streams that join it to its connection of the server. -/
structure End where
  conf : Conf
  ca : Int
  client : Client.Session
  up : Pipe := {}
  down : Pipe := {}

structure Network (Addr : Type) where
  hub : Server.Hub Addr
  ends : List End := []

namespace Network

variable {Addr : Type}

inductive Act (Addr : Type) where
  /-- A client opens its session, and the server accepts the connection. -/
  | connect (addr : Addr) (conf : Conf) (ca : Int)
  /-- A step of the server, other than to accept a connection or to read from one. -/
  | hub (a : Server.Hub.Act Addr)
  /-- `client_rec` of connection `i` receives `n` octets. -/
  | serverRecv (i n : Nat)
  /-- A pass of it over its buffer. -/
  | serverPass (i : Nat) (now : Datetime)
  /-- A step of the client of connection `i`, or of its receive thread. -/
  | client (i : Nat) (b : Link.Act Unit)

def stations (l : Server.Line Addr) (e : End) : Stations Unit := ⟨l.conn, e.client, e.up, e.down⟩

def atClient : Link.Act Unit → Bool
  | .client _ | .clientRecv _ | .clientPass => true
  | _ => false

def inner : Server.Hub.Act Addr → Bool
  | .accept _ | .recv .. => false
  | _ => true

def history (h : Server.Hub Addr) (i : Nat) : List Server.Obs := ((h.lines[i]?).map fun l => l.conn.log).getD []

def reading (l : Server.Line Addr) : Bool := l.phase = .serving && l.job = none && l.conn.receiver = .free

def clientStep (s : Network Addr) (i : Nat) (b : Link.Act Unit) : Option (Network Addr) := do
  let l ← s.hub.lines[i]?
  let e ← s.ends[i]?
  if atClient b then
    let k ← Stations.step posting (stations l e) b
    return { s with ends := s.ends.set i { e with client := k.client, up := k.up, down := k.down } }
  else none

variable [DecidableEq Addr]

def hubStep (s : Network Addr) (a : Server.Hub.Act Addr) : Option (Network Addr) :=
  (s.hub.step a).map fun hub =>
    { hub, ends := s.ends.mapIdx fun i e =>
        { e with down := e.down.send (Server.written ((history hub i).drop (history s.hub i).length)) } }

def serverRecvStep (s : Network Addr) (i n : Nat) : Option (Network Addr) := do
  let l ← s.hub.lines[i]?
  let e ← s.ends[i]?
  if reading l then
    let up ← e.up.recv n
    -- a buffer that outgrows the limit is given up with the connection
    if up.buf.length > l.conn.st.conf.maxRxBuf then (s.hub.step (.leave i)).map fun hub => { s with hub }
    else some { s with ends := s.ends.set i { e with up } }
  else none

def serverPassStep (s : Network Addr) (i : Nat) (now : Datetime) : Option (Network Addr) := do
  let l ← s.hub.lines[i]?
  let e ← s.ends[i]?
  if reading l then
    let (frame, up) ← e.up.pass Deframe.serverPass
    let ends := s.ends.set i { e with up }
    match frame with
    | some frame => (s.hub.step (.recv i frame now)).map fun hub => ⟨hub, ends⟩
    | none => some { s with ends }
  else none

def step (s : Network Addr) : Act Addr → Option (Network Addr)
  | .connect addr conf ca =>
    (s.hub.step (.accept addr)).map fun hub =>
      ⟨hub, s.ends ++ [{ conf, ca, client := Client.start (createClientState conf ca) true }]⟩
  | .hub a => if inner a then s.hubStep a else none
  | .serverRecv i n => s.serverRecvStep i n
  | .serverPass i now => s.serverPassStep i now
  | .client i b => s.clientStep i b

omit [DecidableEq Addr] in
def start (conf : Conf) (ca : Int) (now : Datetime) (rows : List Row) : Network Addr :=
  { hub := Server.Hub.start conf ca now rows }

/-! ## The server's part -/

/-- The step of the server that a step of the network is, if it is one. -/
inductive Does : Act Addr → Server.Hub.Act Addr → Prop
  | connect (addr conf ca) : Does (.connect addr conf ca) (.accept addr)
  | hub (a) : inner a = true → Does (.hub a) a
  | leave (i n) : Does (.serverRecv i n) (.leave i)
  | take (i frame now) : Does (.serverPass i now) (.recv i frame now)

theorem hub_step {s s' : Network Addr} {a : Act Addr} (hs : s.step a = some s') :
    s'.hub = s.hub ∨ ∃ c, Does a c ∧ s.hub.step c = some s'.hub := by
  cases a with
  | connect addr conf ca =>
    simp only [step] at hs
    obtain ⟨hub, hh, rfl⟩ := Option.map_eq_some_iff.mp hs
    exact .inr ⟨_, .connect addr conf ca, hh⟩
  | hub a =>
    simp only [step] at hs
    split at hs
    · rename_i hin
      obtain ⟨hub, hh, rfl⟩ := Option.map_eq_some_iff.mp hs
      exact .inr ⟨a, .hub a hin, hh⟩
    · cases hs
  | serverRecv i n =>
    obtain ⟨l, -, hs⟩ := Option.bind_eq_some_iff.mp hs
    obtain ⟨e, -, hs⟩ := Option.bind_eq_some_iff.mp hs
    split at hs
    · obtain ⟨up, -, hs⟩ := Option.bind_eq_some_iff.mp hs
      split at hs
      · obtain ⟨hub, hh, rfl⟩ := Option.map_eq_some_iff.mp hs
        exact .inr ⟨_, .leave i n, hh⟩
      · cases hs
        exact .inl rfl
    · cases hs
  | serverPass i now =>
    obtain ⟨l, -, hs⟩ := Option.bind_eq_some_iff.mp hs
    obtain ⟨e, -, hs⟩ := Option.bind_eq_some_iff.mp hs
    split at hs
    · obtain ⟨⟨frame, up⟩, -, hs⟩ := Option.bind_eq_some_iff.mp hs
      cases frame with
      | some frame =>
        obtain ⟨hub, hh, rfl⟩ := Option.map_eq_some_iff.mp hs
        exact .inr ⟨_, .take i frame now, hh⟩
      | none =>
        cases hs
        exact .inl rfl
    · cases hs
  | client i b =>
    obtain ⟨l, -, hs⟩ := Option.bind_eq_some_iff.mp hs
    obtain ⟨e, -, hs⟩ := Option.bind_eq_some_iff.mp hs
    split at hs
    · obtain ⟨k, -, hs⟩ := Option.bind_eq_some_iff.mp hs
      cases hs
      exact .inl rfl
    · cases hs

theorem hub_reach {ok : Network Addr → Act Addr → Prop} {okh : Server.Hub Addr → Server.Hub.Act Addr → Prop}
    (hok : ∀ s a c, ok s a → Does a c → okh s.hub c) {s₀ s : Network Addr} (hr : Reach step ok s₀ s) :
    Reach Server.Hub.step okh s₀.hub s.hub := by
  induction hr with
  | init => exact .init
  | @step s s' a _ hk hs ih =>
    rcases hub_step hs with hsame | ⟨c, hc, hstep⟩
    · rw [hsame]
      exact ih
    · exact .step ih (hok s a c hk hc) hstep

/-! ## A connection and its client -/

theorem send_nil (p : Pipe) : p.send [] = p := by simp [Pipe.send]

theorem pass_send {cut : Bytes → Option Bytes × Bytes} {p p' : Pipe} {o : Option Bytes} (h : p.pass cut = some (o, p'))
    (fs : List Bytes) : (p.send fs).pass cut = some (o, p'.send fs) := by
  cases o with
  | some f =>
    obtain ⟨hd, r, hcut, rfl⟩ := Pipe.pass_some h
    simp [Pipe.pass, Pipe.send, hd, hcut]
  | none =>
    unfold Pipe.pass at h ⊢
    split at h
    · rename_i hd
      split at h
      · cases h
      · rename_i r hcut
        cases h
        simp [Pipe.send, hd, hcut]
    · cases h

/-- A step at the client does the same whatever is on its way to the server. -/
theorem client_side {k k' : Stations Unit} {b : Link.Act Unit} (hb : atClient b = true)
    (hs : Stations.step posting k b = some k') : ∃ fs, k'.server = k.server ∧ k'.up = k.up.send fs ∧
      ∀ up, Stations.step posting { k with up } b = some { k' with up := up.send fs } := by
  have hclient : ∀ {down : Pipe} {a : Client.Act}, Stations.clientStep { k with down } a = some k' →
      ∃ fs, k'.server = k.server ∧ k'.up = k.up.send fs ∧
        ∀ up, Stations.clientStep { k with up, down } a = some { k' with up := up.send fs } := by
    intro down a h
    obtain ⟨c, hc, rfl⟩ := Option.map_eq_some_iff.mp h
    refine ⟨Client.written (c.log.drop k.client.log.length), rfl, rfl, fun up => ?_⟩
    show (Client.Session.step k.client a).map _ = _
    rw [hc]
    rfl
  have hstill : ∀ down : Pipe, ∃ fs, k.server = k.server ∧ k.up = k.up.send fs ∧
      ∀ up : Pipe, ({ k with up, down } : Stations Unit) = { k with up := up.send fs, down } := by
    refine fun down => ⟨[], rfl, (send_nil _).symm, fun up => ?_⟩
    rw [send_nil]
  cases b with
  | server | serverRecv | serverPass => cases hb
  | client a =>
    simp only [Stations.step] at hs ⊢
    split at hs
    · rename_i ht
      simp only [if_pos ht]
      exact hclient hs
    · cases hs
  | clientRecv n =>
    simp only [Stations.step, Stations.clientRecvStep] at hs ⊢
    split at hs
    · rename_i halive
      simp only [if_pos halive]
      obtain ⟨down, hd, rfl⟩ := Option.map_eq_some_iff.mp hs
      obtain ⟨fs, hserver, hup, hsame⟩ := hstill down
      refine ⟨fs, hserver, hup, fun up => ?_⟩
      rw [hd]
      exact congrArg some (hsame up)
    · cases hs
  | clientPass =>
    simp only [Stations.step, Stations.clientPassStep] at hs ⊢
    split at hs
    · rename_i halive
      simp only [if_pos halive]
      obtain ⟨⟨o, down⟩, hp, hs⟩ := Option.bind_eq_some_iff.mp hs
      rw [hp]
      cases o with
      | some frame => exact hclient hs
      | none =>
        cases hs
        obtain ⟨fs, hserver, hup, hsame⟩ := hstill down
        exact ⟨fs, hserver, hup, fun up => congrArg some (hsame up)⟩
    · cases hs

/-- The stream to the server as the two stations have it: with the frame being handled still in front. -/
inductive Aligned (l : Server.Line Addr) (e : End) : Pipe → Prop
  | level : l.job = none → Aligned l e e.up
  | ahead (job p) : l.job = some job → p.pass Deframe.serverPass = some (some job.frame, e.up) → Aligned l e p

structure Twin (l : Server.Line Addr) (e : End) (k : Stations Unit) : Prop where
  server : k.server = l.conn
  client : k.client = e.client
  down : k.down = e.down
  up : Aligned l e k.up

omit [DecidableEq Addr] in
theorem Aligned.send {l : Server.Line Addr} {e : End} {p : Pipe} (h : Aligned l e p) (fs : List Bytes) {e' : End}
    (he : e'.up = e.up.send fs) : Aligned l e' (p.send fs) := by
  cases h with
  | level hj =>
    rw [← he]
    exact .level hj
  | ahead job p hj hp =>
    refine .ahead job _ hj ?_
    rw [he]
    exact pass_send hp fs

omit [DecidableEq Addr] in
theorem Aligned.same {l l' : Server.Line Addr} {e e' : End} {p : Pipe} (h : Aligned l e p)
    (hj : l'.job.map Server.Job.frame = l.job.map Server.Job.frame) (he : e'.up = e.up) : Aligned l' e' p := by
  cases h with
  | level hnone =>
    rw [← he]
    refine .level ?_
    rw [hnone, Option.map_none, Option.map_eq_none_iff] at hj
    exact hj
  | ahead job p hsome hp =>
    rw [hsome, Option.map_some] at hj
    obtain ⟨job', hj', hf⟩ := Option.map_eq_some_iff.mp hj
    refine .ahead job' p hj' ?_
    rw [hf, he]
    exact hp

omit [DecidableEq Addr] in
theorem Aligned.pass {l : Server.Line Addr} {e : End} {p : Pipe} (h : Aligned l e p) {job : Server.Job}
    (hj : l.job = some job) : p.pass Deframe.serverPass = some (some job.frame, e.up) := by
  cases h with
  | level hnone =>
    rw [hj] at hnone
    cases hnone
  | ahead job' p hj' hp =>
    rw [hj] at hj'
    cases hj'
    exact hp

omit [DecidableEq Addr] in
theorem Aligned.free {l : Server.Line Addr} {e : End} {p : Pipe} (h : Aligned l e p) (hj : l.job = none) :
    p = e.up := by
  cases h with
  | level => rfl
  | ahead job' p hj' =>
    rw [hj] at hj'
    cases hj'

/-- The step of two stations that a step of the network is to them. -/
inductive Part (s : Network Addr) (a : Act Addr) (i : Nat) : Link.Act Unit → Prop
  | own (c b) : a = .hub c → c.conducts s.hub = some (i, b) → Part s a i (.server b)
  | finish (now) : a = .hub (.finish i) → Part s a i (.serverPass now)
  | recv (n) : a = .serverRecv i n → Part s a i (.serverRecv n)
  | pass (now) : a = .serverPass i now → Part s a i (.serverPass now)
  | client (b) : a = .client i b → atClient b = true → Part s a i b

def Steps (s : Network Addr) (a : Act Addr) (i : Nat) (l : Server.Line Addr) (e : End) (l' : Server.Line Addr)
    (e' : End) : Prop :=
  e'.conf = e.conf ∧ e'.ca = e.ca ∧ ∀ k, Twin l e k →
    ∃ k', Twin l' e' k' ∧ (k' = k ∨ ∃ b, Part s a i b ∧ Stations.step posting k b = some k')

omit [DecidableEq Addr] in
theorem steps_same {s : Network Addr} {a : Act Addr} {i : Nat} {l l' : Server.Line Addr} {e : End}
    (hc : l'.conn = l.conn) (hj : l'.job.map Server.Job.frame = l.job.map Server.Job.frame) : Steps s a i l e l' e := by
  refine ⟨rfl, rfl, fun k hk => ⟨k, ⟨?_, hk.client, hk.down, hk.up.same hj rfl⟩, .inl rfl⟩⟩
  rw [hk.server, hc]

omit [DecidableEq Addr] in
theorem reading_iff {l : Server.Line Addr} :
    reading l = true ↔ l.phase = .serving ∧ l.job = none ∧ l.conn.receiver = .free := by
  simp [reading, and_assoc]

omit [DecidableEq Addr] in
theorem ends_get {s : Network Addr} {i : Nat} {e₀ : End} (he : s.ends[i]? = some e₀) (e : End) (j : Nat) :
    (s.ends.set i e)[j]? = if j = i then some e else s.ends[j]? := by
  have hlt : i < s.ends.length := (List.getElem?_eq_some_iff.mp he).1
  rw [List.getElem?_set]
  by_cases hj : j = i
  · rw [if_pos hj.symm, if_pos hlt, if_pos hj]
  · rw [if_neg (Ne.symm hj), if_neg hj]

/-! ## Every step -/

def Goes (s : Network Addr) (a : Act Addr) (i : Nat) (l' : Server.Line Addr) (e' : End) : Prop :=
  ∃ l e, s.hub.lines[i]? = some l ∧ s.ends[i]? = some e ∧ Steps s a i l e l' e'

theorem hub_goes {s s' : Network Addr} {a : Server.Hub.Act Addr} (hin : inner a = true) (hs : s.hubStep a = some s')
    {i : Nat} {l' : Server.Line Addr} {e' : End} (hl' : s'.hub.lines[i]? = some l') (he' : s'.ends[i]? = some e') :
    Goes s (.hub a) i l' e' := by
  obtain ⟨hub, hh, rfl⟩ := Option.map_eq_some_iff.mp hs
  rw [List.getElem?_mapIdx] at he'
  obtain ⟨e, he, rfl⟩ := Option.map_eq_some_iff.mp he'
  rcases Server.Hub.line_cases hh hl' with ⟨-, -, rfl⟩ | ⟨l, hl, hmove⟩
  · cases hin
  refine ⟨l, e, hl, he, ?_⟩
  have hnew : history hub i = l'.conn.log := by
    rw [history, hl']
    rfl
  have hold : history s.hub i = l.conn.log := by
    rw [history, hl]
    rfl
  rw [hnew, hold]
  cases hmove with
  | kept hc hj =>
    rw [hc, List.drop_length, show Server.written [] = [] from rfl, send_nil]
    exact steps_same hc hj
  | took frame now job ha =>
    rw [ha] at hin
    cases hin
  | own b hb hc hj =>
    refine ⟨rfl, rfl, fun k hk => ⟨{ k with
      server := l'.conn
      down := k.down.send (Server.written (l'.conn.log.drop l.conn.log.length)) },
      ⟨rfl, hk.client, ?_, hk.up.same (by rw [hj]) rfl⟩, .inr ⟨.server b, .own a b rfl hb, ?_⟩⟩⟩
    · rw [hk.down]
    · show (if b.takes = [] then Stations.serverStep posting k b else none) = _
      rw [if_pos (Server.Hub.conducts_takes hb), Stations.serverStep, hk.server, hc]
      rfl
  | finished job ha hj hj' hc =>
    subst ha
    refine ⟨rfl, rfl, fun k hk => ⟨{ k with
      server := l'.conn
      up := e.up
      down := k.down.send (Server.written (l'.conn.log.drop l.conn.log.length)) },
      ⟨rfl, hk.client, ?_, .level hj'⟩, .inr ⟨.serverPass job.now, .finish job.now rfl, ?_⟩⟩⟩
    · rw [hk.down]
    · have hfree : k.server.receiver = .free := by
        rw [hk.server]
        exact recvStep_free hc
      show Stations.serverPassStep posting k job.now = _
      rw [Stations.serverPassStep, if_pos hfree, hk.up.pass hj]
      show Stations.serverStep posting { k with up := e.up } (.recv job.frame job.now) = _
      rw [Stations.serverStep]
      show (Server.Conn.step posting k.server _).map _ = _
      rw [hk.server, hc]
      rfl

theorem leave_kept {h h' : Server.Hub Addr} {i : Nat} (hs : h.step (.leave i) = some h') {j : Nat}
    {l' : Server.Line Addr} (hl' : h'.lines[j]? = some l') :
    ∃ l, h.lines[j]? = some l ∧ l'.conn = l.conn ∧ l'.job.map Server.Job.frame = l.job.map Server.Job.frame := by
  rcases Server.Hub.line_cases hs hl' with ⟨-, -, ha⟩ | ⟨l, hl, hmove⟩
  · cases ha
  · cases hmove with
    | kept hc hj => exact ⟨l, hl, hc, hj⟩
    | own b hb => cases hb
    | took frame now job ha => cases ha
    | finished job ha => cases ha

/-- A receive thread that takes a frame changes no connection, and holds the frame. -/
theorem take_line {h h' : Server.Hub Addr} {i : Nat} {frame : Bytes} {now : Datetime}
    (hs : h.step (.recv i frame now) = some h') {j : Nat} {l' : Server.Line Addr} (hl' : h'.lines[j]? = some l') :
    if j = i then ∃ l, h.lines[i]? = some l ∧ l.job = none ∧ l'.conn = l.conn ∧
      ∃ job, l'.job = some job ∧ job.frame = frame
    else h.lines[j]? = some l' := by
  cases Server.Hub.step_move hs with
  | own a k b l conn ha => cases ha
  | recv i frame now l hl hp hjob =>
    have hl' := (Server.Hub.setLine_get hl _ j).symm.trans hl'
    by_cases hj : j = i
    · rw [if_pos hj] at hl' ⊢
      cases hl'
      exact ⟨l, hl, hjob, rfl, _, rfl, rfl⟩
    · rw [if_neg hj] at hl' ⊢
      exact hl'

omit [DecidableEq Addr] in
/-- A step that puts another end in place of one client's leaves the other connections. -/
theorem end_goes {s : Network Addr} {a : Act Addr} {n : Nat} {l : Server.Line Addr} {e e₁ : End}
    (hl : s.hub.lines[n]? = some l) (he : s.ends[n]? = some e) (h : Steps s a n l e l e₁) {i : Nat}
    {l' : Server.Line Addr} {e' : End} (hl' : s.hub.lines[i]? = some l') (he' : (s.ends.set n e₁)[i]? = some e') :
    Goes s a i l' e' := by
  rw [ends_get he] at he'
  by_cases hi : i = n
  · rw [if_pos hi] at he'
    cases he'
    subst hi
    rw [hl] at hl'
    cases hl'
    exact ⟨l, e, hl, he, h⟩
  · rw [if_neg hi] at he'
    exact ⟨l', e', hl', he', steps_same rfl rfl⟩

theorem serverRecv_goes {s s' : Network Addr} {n m : Nat} (hs : s.serverRecvStep n m = some s') {i : Nat}
    {l' : Server.Line Addr} {e' : End} (hl' : s'.hub.lines[i]? = some l') (he' : s'.ends[i]? = some e') :
    Goes s (.serverRecv n m) i l' e' := by
  obtain ⟨l, hl, hs⟩ := Option.bind_eq_some_iff.mp hs
  obtain ⟨e, he, hs⟩ := Option.bind_eq_some_iff.mp hs
  split at hs
  · rename_i hreading
    obtain ⟨-, hjob, hfree⟩ := reading_iff.mp hreading
    obtain ⟨up, hup, hs⟩ := Option.bind_eq_some_iff.mp hs
    split at hs
    · obtain ⟨hub, hh, rfl⟩ := Option.map_eq_some_iff.mp hs
      obtain ⟨l₀, hl₀, hc, hj⟩ := leave_kept hh hl'
      exact ⟨l₀, e', hl₀, he', steps_same hc hj⟩
    · rename_i hshort
      cases hs
      refine end_goes hl he ?_ hl' he'
      refine ⟨rfl, rfl, fun k hk => ⟨{ k with up }, ⟨hk.server, hk.client, hk.down, .level hjob⟩,
        .inr ⟨.serverRecv m, .recv m rfl, ?_⟩⟩⟩
      show Stations.serverRecvStep posting k m = _
      rw [Stations.serverRecvStep, hk.server, if_pos hfree, hk.up.free hjob, hup]
      exact if_neg hshort
  · cases hs

theorem serverPass_goes {s s' : Network Addr} {n : Nat} {now : Datetime} (hs : s.serverPassStep n now = some s')
    {i : Nat} {l' : Server.Line Addr} {e' : End} (hl' : s'.hub.lines[i]? = some l') (he' : s'.ends[i]? = some e') :
    Goes s (.serverPass n now) i l' e' := by
  obtain ⟨l, hl, hs⟩ := Option.bind_eq_some_iff.mp hs
  obtain ⟨e, he, hs⟩ := Option.bind_eq_some_iff.mp hs
  split at hs
  · rename_i hreading
    obtain ⟨-, hjob, hfree⟩ := reading_iff.mp hreading
    obtain ⟨⟨frame, up⟩, hup, hs⟩ := Option.bind_eq_some_iff.mp hs
    cases frame with
    | some frame =>
      obtain ⟨hub, hh, rfl⟩ := Option.map_eq_some_iff.mp hs
      rw [ends_get he] at he'
      have htake := take_line hh hl'
      by_cases hi : i = n
      · rw [if_pos hi] at he' htake
        cases he'
        obtain ⟨l₀, hl₀, hnone, hc, job, hj, hf⟩ := htake
        rw [hl] at hl₀
        cases hl₀
        rw [hi]
        refine ⟨l, e, hl, he, rfl, rfl, fun k hk => ⟨k, ⟨?_, hk.client, hk.down, .ahead job _ hj ?_⟩, .inl rfl⟩⟩
        · rw [hk.server, hc]
        · rw [hk.up.free hnone, hup, hf]
      · rw [if_neg hi] at he' htake
        exact ⟨l', e', htake, he', steps_same rfl rfl⟩
    | none =>
      cases hs
      refine end_goes hl he ?_ hl' he'
      refine ⟨rfl, rfl, fun k hk => ⟨{ k with up }, ⟨hk.server, hk.client, hk.down, .level hjob⟩,
        .inr ⟨.serverPass now, .pass now rfl, ?_⟩⟩⟩
      show Stations.serverPassStep posting k now = _
      rw [Stations.serverPassStep, hk.server, if_pos hfree, hk.up.free hjob, hup]
      rfl
  · cases hs

omit [DecidableEq Addr] in
theorem client_goes {s s' : Network Addr} {n : Nat} {b : Link.Act Unit} (hs : s.clientStep n b = some s') {i : Nat}
    {l' : Server.Line Addr} {e' : End} (hl' : s'.hub.lines[i]? = some l') (he' : s'.ends[i]? = some e') :
    Goes s (.client n b) i l' e' := by
  obtain ⟨l, hl, hs⟩ := Option.bind_eq_some_iff.mp hs
  obtain ⟨e, he, hs⟩ := Option.bind_eq_some_iff.mp hs
  split at hs
  · rename_i hb
    obtain ⟨k₁, hk₁, hs⟩ := Option.bind_eq_some_iff.mp hs
    cases hs
    obtain ⟨fs, hserver, hup, hany⟩ := client_side hb hk₁
    refine end_goes hl he ?_ hl' he'
    refine ⟨rfl, rfl, fun k hk => ⟨{ k₁ with up := k.up.send fs },
      ⟨hserver, rfl, rfl, hk.up.send fs hup⟩, .inr ⟨b, .client b rfl hb, ?_⟩⟩⟩
    have hcut : { stations l e with up := k.up } = k := by
      rw [stations, ← hk.server, ← hk.client, ← hk.down]
    rw [← hany k.up, hcut]
  · cases hs

structure Fresh (s : Network Addr) (l : Server.Line Addr) (e : End) : Prop where
  conn : l.conn = Server.start (createClientState s.hub.conf s.hub.ca) () []
  job : l.job = none
  made : e = { conf := e.conf, ca := e.ca, client := Client.start (createClientState e.conf e.ca) true }

theorem step_goes {s s' : Network Addr} {a : Act Addr} (hlen : s.ends.length = s.hub.lines.length)
    (hs : s.step a = some s') : s'.ends.length = s'.hub.lines.length ∧
      ∀ (i : Nat) (l' : Server.Line Addr) (e' : End), s'.hub.lines[i]? = some l' → s'.ends[i]? = some e' →
        Fresh s l' e' ∨ Goes s a i l' e' := by
  cases a with
  | connect addr conf ca =>
    cases hs
    refine ⟨?_, fun i l' e' hl' he' => ?_⟩
    · show (s.ends ++ [_]).length = _
      rw [List.length_append, hlen]
      exact (Server.Hub.opened_length s.hub addr).symm
    · rw [Server.Hub.opened_get] at hl'
      have he' : (s.ends ++ [_])[i]? = some e' := he'
      rw [List.getElem?_append] at he'
      by_cases hi : i = s.hub.lines.length
      · rw [if_pos hi] at hl'
        rw [if_neg (by omega), show i - s.ends.length = 0 by omega] at he'
        cases hl'
        cases he'
        exact .inl ⟨rfl, rfl, rfl⟩
      · rw [if_neg hi] at hl'
        have hlt : i < s.hub.lines.length := (List.getElem?_eq_some_iff.mp hl').1
        rw [if_pos (by omega)] at he'
        exact .inr ⟨l', e', hl', he', steps_same rfl rfl⟩
  | hub a =>
    simp only [step] at hs
    split at hs
    · rename_i hin
      refine ⟨?_, fun i l' e' hl' he' => .inr (hub_goes hin hs hl' he')⟩
      obtain ⟨hub, hh, rfl⟩ := Option.map_eq_some_iff.mp hs
      have hsame := Server.Hub.step_length hh fun addr ha => by
        rw [ha] at hin
        cases hin
      show (s.ends.mapIdx _).length = hub.lines.length
      rw [List.length_mapIdx, hlen, hsame]
    · cases hs
  | serverRecv n m =>
    refine ⟨?_, fun i l' e' hl' he' => .inr (serverRecv_goes hs hl' he')⟩
    obtain ⟨l, -, hs⟩ := Option.bind_eq_some_iff.mp hs
    obtain ⟨e, -, hs⟩ := Option.bind_eq_some_iff.mp hs
    split at hs
    · obtain ⟨up, -, hs⟩ := Option.bind_eq_some_iff.mp hs
      split at hs
      · obtain ⟨hub, hh, rfl⟩ := Option.map_eq_some_iff.mp hs
        exact hlen.trans (Server.Hub.step_length hh fun addr ha => (by cases ha)).symm
      · cases hs
        exact List.length_set.trans hlen
    · cases hs
  | serverPass n now =>
    refine ⟨?_, fun i l' e' hl' he' => .inr (serverPass_goes hs hl' he')⟩
    obtain ⟨l, -, hs⟩ := Option.bind_eq_some_iff.mp hs
    obtain ⟨e, -, hs⟩ := Option.bind_eq_some_iff.mp hs
    split at hs
    · obtain ⟨⟨frame, up⟩, -, hs⟩ := Option.bind_eq_some_iff.mp hs
      cases frame with
      | some frame =>
        obtain ⟨hub, hh, rfl⟩ := Option.map_eq_some_iff.mp hs
        exact (List.length_set.trans hlen).trans (Server.Hub.step_length hh fun addr ha => (by cases ha)).symm
      | none =>
        cases hs
        exact List.length_set.trans hlen
    · cases hs
  | client n b =>
    refine ⟨?_, fun i l' e' hl' he' => .inr (client_goes hs hl' he')⟩
    obtain ⟨l, -, hs⟩ := Option.bind_eq_some_iff.mp hs
    obtain ⟨e, -, hs⟩ := Option.bind_eq_some_iff.mp hs
    split at hs
    · obtain ⟨k, -, hs⟩ := Option.bind_eq_some_iff.mp hs
      cases hs
      exact List.length_set.trans hlen
    · cases hs

/-! ## Runs -/

theorem step_settings {s s' : Network Addr} {a : Act Addr} (hs : s.step a = some s') :
    s'.hub.conf = s.hub.conf ∧ s'.hub.ca = s.hub.ca := by
  rcases hub_step hs with hsame | ⟨c, -, hstep⟩
  · rw [hsame]
    exact ⟨rfl, rfl⟩
  · exact Server.Hub.step_conf hstep

theorem parted_reach {ok : Network Addr → Act Addr → Prop} (okl : Stations Unit → Link.Act Unit → Prop)
    (hok : ∀ (s : Network Addr) (a : Act Addr) (i : Nat) (l : Server.Line Addr) (k : Stations Unit)
      (b : Link.Act Unit), ok s a → s.hub.lines[i]? = some l → k.server = l.conn → Part s a i b → okl k b)
    {conf : Conf} {ca : Int} {now : Datetime} {rows : List Row} {s : Network Addr}
    (hr : Reach step ok (start conf ca now rows) s) {i : Nat} {l : Server.Line Addr} {e : End}
    (hl : s.hub.lines[i]? = some l) (he : s.ends[i]? = some e) : ∃ k, Twin l e k ∧
      Reach (Stations.step posting) okl (newLink conf e.conf ca e.ca () [] true) k := by
  have hinv : (s.hub.conf = conf ∧ s.hub.ca = ca) ∧ s.ends.length = s.hub.lines.length ∧
      ∀ (i : Nat) (l : Server.Line Addr) (e : End), s.hub.lines[i]? = some l → s.ends[i]? = some e → ∃ k, Twin l e k ∧
        Reach (Stations.step posting) okl (newLink conf e.conf ca e.ca () [] true) k := by
    refine hr.inv (P := fun s => (s.hub.conf = conf ∧ s.hub.ca = ca) ∧ s.ends.length = s.hub.lines.length ∧
      ∀ (i : Nat) (l : Server.Line Addr) (e : End), s.hub.lines[i]? = some l → s.ends[i]? = some e → ∃ k, Twin l e k ∧
        Reach (Stations.step posting) okl (newLink conf e.conf ca e.ca () [] true) k)
      ⟨⟨rfl, rfl⟩, rfl, fun i l e hl => by cases hl⟩ fun s a s' hi hk hs => ?_
    obtain ⟨hlen, hgoes⟩ := step_goes hi.2.1 hs
    refine ⟨?_, hlen, fun i l' e' hl' he' => ?_⟩
    · rw [(step_settings hs).1, (step_settings hs).2]
      exact hi.1
    · rcases hgoes i l' e' hl' he' with hfresh | ⟨l, e, hl, he, hconf, hca, hsteps⟩
      · refine ⟨newLink conf e'.conf ca e'.ca () [] true, ⟨?_, ?_, ?_, ?_⟩, .init⟩
        · rw [hfresh.conn, hi.1.1, hi.1.2]
          rfl
        · rw [hfresh.made]
          rfl
        · rw [hfresh.made]
          rfl
        · have hup : (newLink conf e'.conf ca e'.ca () [] true).up = e'.up := by
            rw [hfresh.made]
            rfl
          rw [hup]
          exact .level hfresh.job
      · obtain ⟨k, htwin, hreach⟩ := hi.2.2 i l e hl he
        rw [hconf, hca]
        obtain ⟨k', htwin', hsame | ⟨b, hpart, hstep⟩⟩ := hsteps k htwin
        · refine ⟨k', htwin', ?_⟩
          rw [hsame]
          exact hreach
        · exact ⟨k', htwin', .step hreach (hok s a i l k b hk hl htwin.server hpart) hstep⟩
  exact hinv.2.2 i l e hl he

/-- In every run of the server and any number of clients, each connection and its client are where a run of the two
    stations on their own has led them, whatever the others have done: the same states and histories, the same
    octets on their way, but for the frame being handled. -/
theorem parted (conf : Conf) (ca : Int) (now : Datetime) (rows : List Row) (s : Network Addr)
    (hr : Reach step anyway (start conf ca now rows) s) (i : Nat) (l : Server.Line Addr) (e : End)
    (hl : s.hub.lines[i]? = some l) (he : s.ends[i]? = some e) :
    ∃ k, Reach (Stations.step posting) anyway (newLink conf e.conf ca e.ca () [] true) k ∧
      k.server = l.conn ∧ k.client = e.client ∧ k.down = e.down ∧
      match l.job with
      | none => k.up = e.up
      | some job => k.up.pass Deframe.serverPass = some (some job.frame, e.up) := by
  obtain ⟨k, htwin, hk⟩ := parted_reach anyway (fun _ _ _ _ _ _ _ _ _ _ => trivial) hr hl he
  refine ⟨k, hk, htwin.server, htwin.client, htwin.down, ?_⟩
  cases hj : l.job with
  | none => exact htwin.up.free hj
  | some job => exact htwin.up.pass hj

/-- The second of two clients sends STARTDT, and `client_rec` has cut it from its buffer. -/
def halfWay : List (Act String) :=
  [.connect "first" kp1Conf 1, .connect "second" kp1Conf 1, .client 1 (.client .startdt),
    .client 1 (.client (.send false)), .client 1 (.client (.send false)), .serverRecv 1 6, .serverPass 1 sampleTime]

theorem parted_halfWay : ∃ k up, Reach (Stations.step posting) anyway (newLink kp1Conf kp1Conf 1 1 () [] true) k ∧
    Client.written k.client.log = [startdtAct] ∧ k.up.pass Deframe.serverPass = some (some startdtAct, up) := by
  have hrun : (run step (start kp1Conf 1 sampleTime []) halfWay).map (fun s => (s.hub.lines[1]?).bind fun l =>
      l.job.bind fun job => (s.ends[1]?).map fun e => decide (e.conf = kp1Conf ∧ e.ca = 1 ∧ job.frame = startdtAct ∧
        Client.written e.client.log = [startdtAct])) = some (some true) := by decide +kernel
  obtain ⟨s, hr, hs⟩ := exists_of_run _ hrun
  obtain ⟨l, hl, hs⟩ := Option.bind_eq_some_iff.mp hs
  obtain ⟨job, hj, hs⟩ := Option.bind_eq_some_iff.mp hs
  obtain ⟨e, he, hs⟩ := Option.map_eq_some_iff.mp hs
  obtain ⟨hconf, hca, hf, hw⟩ := of_decide_eq_true hs
  obtain ⟨k, hk, -, hclient, -, hup⟩ := parted kp1Conf 1 sampleTime [] s hr 1 l e hl he
  rw [hconf, hca] at hk
  rw [hj] at hup
  dsimp only at hup
  rw [hf] at hup
  refine ⟨k, e.up, hk, ?_, hup⟩
  rw [hclient]
  exact hw

end Network

end Drv60870.Link
