/-
  Drv60870.Link.Delivered — what one station writes, the other takes.

  The runs are all runs of the two stations and their streams, whatever the order of the
  threads' steps, with the connection closed at any time; the client's `w` is at least 1.

  Proved:
  - What the client has taken and what is in its stream and buffer are, octet for octet, what
    the server has written; what the server has taken are the client's first frames; and at
    rest each has taken all the other wrote (`conveyed`).
  - An I-frame that `process_frame` is given next has the `N(S)` that `rec_sq` expects. Its
    `N(R)` counts the I-frames the server had taken when it wrote the frame, modulo 32768, and
    the client has written at least as many (`in_sequence`).
  - In a run of both, each station makes a run of its own (`server_reach`, `client_reach`).
  Traces: a value sent and received (`conveyed_sendValue`).
-/

import Drv60870.Link.Released

namespace Drv60870.Link

open Lib.Octets Lib.Calendar Lib.Runs Drv60870.Const Protocol Stations

variable {σ : Type} {cb : Callbacks σ}

/-! ## Runs under no condition -/

theorem recent_mono {d d' : Nat} (hd : d ≤ d') {l : Stations σ} {a : Act σ} (h : recent d l a = true) :
    recent d' l a = true := by
  cases a with
  | client a =>
    simp only [recent, Client.recent] at h ⊢
    split
    · split
      · simp_all only [decide_eq_true_eq]
        omega
      · rfl
    · rfl
  | _ => rfl

theorem recent_some (l : Stations σ) (a : Act σ) : ∃ d, recent d l a = true := by
  refine ⟨Client.iTaken l.client.log, ?_⟩
  cases a with
  | client a =>
    simp only [recent, Client.recent]
    split
    · split
      · simp only [decide_eq_true_eq]
        omega
      · rfl
    · rfl
  | _ => rfl

/-- A run is finite: one bound holds of all its interrogations. -/
theorem reach_recent {s₀ l : Stations σ} (h : Reach (step cb) anyway s₀ l) :
    ∃ d, Reach (step cb) (fun l a => recent d l a = true) s₀ l := by
  induction h with
  | init => exact ⟨0, .init⟩
  | @step l l' a _ _ hs ih =>
    obtain ⟨d, hd⟩ := ih
    obtain ⟨d', hok⟩ := recent_some l a
    refine ⟨max d d', .step (hd.mono fun l a => ?_) (recent_mono (Nat.le_max_right d d') hok) hs⟩
    exact recent_mono (Nat.le_max_left d d')

def newLink (conf conf' : Conf) (ca ca' : Int) (store : σ) (que : List IecEvent) (onData : Bool) : Stations σ :=
  start (Server.start (createClientState conf ca) store que) (Client.start (createClientState conf' ca') onData)

theorem joined_run {conf conf' : Conf} {ca ca' : Int} {store : σ} {que : List IecEvent} {onData : Bool}
    (hw : 1 ≤ conf'.protW) {l : Stations σ}
    (h : Reach (step cb) anyway (newLink conf conf' ca ca' store que onData) l) :
    ∃ d, Joined conf'.protW d l := by
  obtain ⟨d, hd⟩ := reach_recent h
  exact ⟨d, hd.inv (joined_start hw conf ca ca' store que onData d) fun _ _ _ hj hok hs => step_joined hw hj hok hs⟩

/-! ## The stations of a run -/

/-- Why the server acts: of its own, because its buffer is too long, or on the frame in front. -/
inductive ServerCause (l : Stations σ) (a : Act σ) : Server.Act σ → Prop
  | own (b) : a = .server b → b.takes = [] → ServerCause l a b
  | overflow (n up) : l.server.receiver = .free → l.up.recv n = some up →
      up.buf.length > l.server.st.conf.maxRxBuf → ServerCause l a .close
  | frame (f now up) : l.up.pass Deframe.serverPass = some (some f, up) → ServerCause l a (.recv f now)

inductive ClientCause (l : Stations σ) (a : Act σ) : Client.Act → Prop
  | own (b) : a = .client b → b.takes = [] → ClientCause l a b
  | frame (f down) : a = .clientPass → l.down.pass Deframe.clientPass = some (some f, down) → ClientCause l a (.recv f)

theorem step_cases {l l' : Stations σ} {a : Act σ} (hs : step cb l a = some l') :
    (∃ b s, Server.Conn.step cb l.server b = some s ∧ l'.server = s ∧ l'.client = l.client ∧ ServerCause l a b) ∨
      (∃ b c, Client.Session.step l.client b = some c ∧ l'.client = c ∧ l'.server = l.server ∧ ClientCause l a b) ∨
      (l'.server = l.server ∧ l'.client = l.client) := by
  have hserver : ∀ up b, serverStep cb { l with up } b = some l' →
      ∃ s, Server.Conn.step cb l.server b = some s ∧ l'.server = s ∧ l'.client = l.client := by
    intro up b h
    obtain ⟨s, hb, rfl⟩ := Option.map_eq_some_iff.mp h
    exact ⟨s, hb, rfl, rfl⟩
  have hclient : ∀ down b, clientStep { l with down } b = some l' →
      ∃ c, Client.Session.step l.client b = some c ∧ l'.client = c ∧ l'.server = l.server := by
    intro down b h
    obtain ⟨c, hb, rfl⟩ := Option.map_eq_some_iff.mp h
    exact ⟨c, hb, rfl, rfl⟩
  cases a with
  | server a =>
    simp only [step] at hs
    split at hs
    · rename_i ht
      obtain ⟨s, hb, he, he'⟩ := hserver l.up a hs
      exact .inl ⟨a, s, hb, he, he', .own a rfl ht⟩
    · cases hs
  | client a =>
    simp only [step] at hs
    split at hs
    · rename_i ht
      obtain ⟨c, hb, he, he'⟩ := hclient l.down a hs
      exact .inr (.inl ⟨a, c, hb, he, he', .own a rfl ht⟩)
    · cases hs
  | serverRecv n =>
    simp only [step, serverRecvStep] at hs
    split at hs
    · rename_i hfree
      obtain ⟨up, hup, hs⟩ := Option.bind_eq_some_iff.mp hs
      split at hs
      · rename_i hlong
        obtain ⟨s, hb, he, he'⟩ := hserver up .close hs
        exact .inl ⟨.close, s, hb, he, he', .overflow n up hfree hup hlong⟩
      · cases hs
        exact .inr (.inr ⟨rfl, rfl⟩)
    · cases hs
  | serverPass now =>
    simp only [step, serverPassStep] at hs
    split at hs
    · obtain ⟨⟨o, up⟩, hp, hs⟩ := Option.bind_eq_some_iff.mp hs
      cases o with
      | some frame =>
        obtain ⟨s, hb, he, he'⟩ := hserver up (.recv frame now) hs
        exact .inl ⟨.recv frame now, s, hb, he, he', .frame frame now up hp⟩
      | none =>
        cases hs
        exact .inr (.inr ⟨rfl, rfl⟩)
    · cases hs
  | clientRecv n =>
    simp only [step, clientRecvStep] at hs
    split at hs
    · obtain ⟨down, -, rfl⟩ := Option.map_eq_some_iff.mp hs
      exact .inr (.inr ⟨rfl, rfl⟩)
    · cases hs
  | clientPass =>
    simp only [step, clientPassStep] at hs
    split at hs
    · obtain ⟨⟨o, down⟩, hp, hs⟩ := Option.bind_eq_some_iff.mp hs
      cases o with
      | some frame =>
        obtain ⟨c, hb, he, he'⟩ := hclient down (.recv frame) hs
        exact .inr (.inl ⟨.recv frame, c, hb, he, he', .frame frame down rfl hp⟩)
      | none =>
        cases hs
        exact .inr (.inr ⟨rfl, rfl⟩)
    · cases hs

theorem server_reach {s₀ l : Stations σ} (h : Reach (step cb) anyway s₀ l) :
    Reach (Server.Conn.step cb) anyway s₀.server l.server := by
  induction h with
  | init => exact .init
  | step _ _ hs ih =>
    rcases step_cases hs with ⟨b, s, hb, he, -⟩ | ⟨b, c, -, -, he, -⟩ | ⟨he, -⟩
    · rw [he]
      exact .step ih trivial hb
    · rw [he]
      exact ih
    · rw [he]
      exact ih

theorem client_reach {s₀ l : Stations σ} (h : Reach (step cb) anyway s₀ l) :
    Reach Client.Session.step anyway s₀.client l.client := by
  induction h with
  | init => exact .init
  | step _ _ hs ih =>
    rcases step_cases hs with ⟨b, s, -, -, he, -⟩ | ⟨b, c, hb, he, -⟩ | ⟨-, he⟩
    · rw [he]
      exact ih
    · rw [he]
      exact .step ih trivial hb
    · rw [he]
      exact ih

/-! ## Towards the server -/

theorem taken_closed {s s' : Server.Conn σ} {a : Server.Act σ} (hm : Server.Move cb s a s')
    (h : s'.receiver = .closed) : Server.taken s'.log = Server.taken s.log := by
  cases hm with
  | answer | take => cases h
  | handlerPut | reply | sFrame | put | write | testfr =>
    show Server.taken (s.log ++ [_]) = _
    rw [Server.taken_append]
    exact List.append_nil _
  | _ => rfl

/-- The server has taken the first frames of the client, also when it has closed its end. -/
def Upward (l : Stations σ) : Prop := Server.taken l.server.log <+: Client.written l.client.log

theorem step_upward {l l' : Stations σ} {a : Act σ} (h : Upward l) (hup : Up l' []) (hs : step cb l a = some l') :
    Upward l' := by
  by_cases hc : l'.server.receiver = .closed
  · rcases step_cases hs with ⟨b, s, hb, he, he', -⟩ | ⟨b, c, hb, he, he', -⟩ | ⟨he, he'⟩
    · rw [he] at hc
      rw [Upward, he, he', taken_closed (Server.step_move hb) hc]
      exact h
    · obtain ⟨os, hlog, -⟩ := (Client.step_move hb).log
      rw [Upward, he, he', hlog, Client.written_append]
      exact h.trans (List.prefix_append _ _)
    · rw [Upward, he, he']
      exact h
  · obtain ⟨fs, -, hw⟩ := hup hc
    rw [Upward, hw]
    exact List.prefix_append _ _

theorem upward_run {conf conf' : Conf} {ca ca' : Int} {store : σ} {que : List IecEvent} {onData : Bool}
    (hw : 1 ≤ conf'.protW) {l : Stations σ}
    (h : Reach (step cb) anyway (newLink conf conf' ca ca' store que onData) l) :
    Upward l := by
  induction h with
  | init =>
    show Server.taken (Server.start (createClientState conf ca) store que).log <+: _
    rw [Server.taken_start]
    exact List.nil_prefix
  | step hr hok hs ih =>
    obtain ⟨d, hj⟩ := joined_run hw (.step hr hok hs)
    exact step_upward ih hj.up hs

/-! ## Delivery -/

variable {conf conf' : Conf} {ca ca' : Int} {store : σ} {que : List IecEvent} {onData : Bool} {l : Stations σ}

theorem downward_run (hw : 1 ≤ conf'.protW)
    (h : Reach (step cb) anyway (newLink conf conf' ca ca' store que onData) l) :
    ∃ fs, Carries l.down fs ∧ Server.written l.server.log = Client.taken l.client.log ++ fs := by
  obtain ⟨d, hj⟩ := joined_run hw h
  obtain ⟨fs, hc, hwr⟩ := hj.down
  exact ⟨fs, hc, by rwa [List.nil_append] at hwr⟩

theorem downward_all (hw : 1 ≤ conf'.protW)
    (h : Reach (step cb) anyway (newLink conf conf' ca ca' store que onData) l) (hr : AtRest l) :
    Client.taken l.client.log = Server.written l.server.log := by
  obtain ⟨fs, hc, hwr⟩ := downward_run hw h
  rw [hwr, hc.empty hr.down.1 hr.down.2, List.append_nil]

/-- In every run: what the client has taken and what is in its stream and buffer are, octet for
    octet, what the server has written, cut as it was written; what the server has taken are
    the client's first frames; and at rest nothing is missing on either side. -/
theorem conveyed (cb : Callbacks σ) (conf conf' : Conf) (ca ca' : Int) (store : σ) (que : List IecEvent)
    (onData : Bool) (hw : 1 ≤ conf'.protW) (l : Stations σ)
    (h : Reach (step cb) anyway (newLink conf conf' ca ca' store que onData) l) :
    Client.taken l.client.log <+: Server.written l.server.log ∧
      (Client.taken l.client.log).flatten ++ (l.down.buf ++ l.down.chan) = (Server.written l.server.log).flatten ∧
      Server.taken l.server.log <+: Client.written l.client.log ∧
      (AtRest l → Client.taken l.client.log = Server.written l.server.log ∧
        Server.taken l.server.log = Client.written l.client.log) := by
  obtain ⟨fs, hc, hwr⟩ := downward_run hw h
  refine ⟨?_, ?_, upward_run hw h, fun hr => ⟨downward_all hw h hr, ?_⟩⟩
  · rw [hwr]
    exact List.prefix_append _ _
  · rw [hwr, List.flatten_append, hc.octets]
  · obtain ⟨d, hj⟩ := joined_run hw h
    obtain ⟨gs, hc', hwr'⟩ := hj.up (by rw [hr.clientRec]; simp)
    rw [hwr', hc'.empty hr.up.1 hr.up.2, List.append_nil, List.append_nil]

/-- A value sent and received: the stations are at rest, and the client has both frames. -/
theorem conveyed_sendValue : ∃ l : Stations Unit, (Server.written l.server.log).length = 2 ∧
    Client.taken l.client.log = Server.written l.server.log := by
  have hrun : (run (step emptyStation) newStations (startdt ++ sendValue)).map (fun l =>
      (decide (AtRest l), (Server.written l.server.log).length)) = some (true, 2) := by decide
  obtain ⟨l, hr, hl⟩ := exists_of_run _ hrun
  simp only [Prod.mk.injEq, decide_eq_true_eq] at hl
  have hall := conveyed emptyStation windowsOfTwo windowsOfTwo 1 1 () [] true (by decide) l hr
  exact ⟨l, hl.2, (hall.2.2.2 hl.1).1⟩

/-- The frame that `process_frame` is given next has the `N(S)` that `rec_sq` expects. Its `N(R)` counts
    the I-frames that the server had taken when it wrote it, all of them written by the client. -/
theorem in_sequence (cb : Callbacks σ) (conf conf' : Conf) (ca ca' : Int) (store : σ) (que : List IecEvent)
    (onData : Bool) (hw : 1 ≤ conf'.protW) (l : Stations σ)
    (h : Reach (step cb) anyway (newLink conf conf' ca ca' store que onData) l) (f : Bytes) (p : Pipe)
    (hp : l.down.pass Deframe.clientPass = some (some f, p)) (hI : numberedI f = true) :
    nS f = l.client.st.recSq ∧ ∃ pre o post, l.server.log = pre ++ o :: post ∧ o.written = some f ∧
      Server.written pre = Client.taken l.client.log ∧ nR f = Server.iTaken pre % seqMod ∧
        Server.iTaken pre ≤ Client.iWritten l.client.log := by
  obtain ⟨d, hj⟩ := joined_run hw h
  obtain ⟨fs, hc, hwr⟩ := hj.down
  obtain ⟨rest, rfl, -⟩ := hc.pass Deframe.clientPass_eq hp
  rw [List.nil_append] at hwr
  obtain ⟨pre, o, post, hlog, hpre, ho⟩ := shown_split hwr
  have hf : isI f = true := by
    simp only [numberedI, Bool.and_eq_true] at hI
    exact hI.1
  obtain ⟨hs, hr⟩ := hj.ends.num.wire pre o post hlog f ho
  have hcount : Server.iWritten pre = Client.iTaken l.client.log := by
    rw [Server.iWritten_eq, Client.iTaken_eq]
    show (pre.filterMap Server.Obs.written).countP isI = _
    rw [hpre]
    refine List.countP_congr fun g hg => ?_
    have hmem : g ∈ Server.written l.server.log := by
      rw [hwr]
      exact List.mem_append_left _ hg
    rw [(hj.ends.framed.whole g hmem).numberedI]
  refine ⟨?_, ?_⟩
  · rw [hs hf, hcount, hj.ends.tracked.recSq]
  · -- what the server had taken by then the client had written
    refine ⟨pre, o, post, hlog, ho, hpre, hr (.inl hf), ?_⟩
    have hpost : Server.taken pre <+: Server.taken l.server.log := by
      rw [hlog, Server.taken_append]
      exact List.prefix_append _ _
    have hsub := (hpost.trans (upward_run hw h)).sublist
    rw [Server.iTaken_countP, Client.iWritten_eq]
    calc (Server.taken pre).countP numberedI
        ≤ (Server.taken pre).countP isI := List.countP_mono_left fun g _ hg => by
          simp only [numberedI, Bool.and_eq_true] at hg
          exact hg.1
      _ ≤ (Client.written l.client.log).countP isI := hsub.countP_le

def valueReceived : List (Act Unit) :=
  startdt ++ .server (.put (point 1 45 1)) :: List.replicate 6 (.server (.send false)) ++ [.clientRecv 16]

theorem in_sequence_valueReceived : ∃ (l : Stations Unit) (f : Bytes) (p : Pipe),
    l.down.pass Deframe.clientPass = some (some f, p) ∧ nS f = l.client.st.recSq ∧
      ∃ pre o post, l.server.log = pre ++ o :: post ∧ o.written = some f ∧ nR f = Server.iTaken pre % seqMod := by
  have hrun : (run (step emptyStation) newStations valueReceived).map (fun l => l.down.pass Deframe.clientPass) =
      some (some (some (iFrame 0 0 [0x01, 0x01, 0x03, 0x00, 0x01, 0x00, 0x2D, 0x00, 0x00, 0x01]),
        { draining := true })) := by decide
  obtain ⟨l, hr, hp⟩ := exists_of_run _ hrun
  obtain ⟨hnS, pre, o, post, hlog, ho, -, hnR, -⟩ :=
    in_sequence emptyStation windowsOfTwo windowsOfTwo 1 1 () [] true (by decide) l hr _ _ hp (by decide)
  exact ⟨l, _, _, hp, hnS, pre, o, post, hlog, ho, hnR⟩

end Drv60870.Link
