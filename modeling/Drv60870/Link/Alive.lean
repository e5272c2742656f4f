/-
  Drv60870.Link.Alive — the receive threads of two joined stations end by nothing they are sent.

  A receive thread ends by an exception of its handlers, by a buffer that outgrows the limit,
  or because the connection is closed. What a station of this repository writes, the other's
  handlers take, and a receive buffer never holds more than a frame's part and what one `recv`
  brings.

  Proved:
  - An I-frame of the server is decoded without an exception, whatever its time tags
    (`decodes_written`), and the client processes it (`processFrame_total`); the server handles
    each frame of the client (`procFrame_total`).
  - So in every run in which nobody closes the connection, with a buffer limit of at least 1280
    octets, both receive threads stay at work (`never_ends`).
-/

import Drv60870.Link.Reported
import Drv60870.Server.Interrogation

namespace Drv60870.Link

open Lib.Octets Lib.Calendar Lib.Python Lib.Runs Drv60870.Const Protocol Storage Stations

variable {σ : Type} {cb : Callbacks σ}

/-! ## The client -/

theorem decode_batch_total {ca : Int} {batch : List IecEvent} {f : Bytes} (h : Server.BuiltFor ca batch f) :
    ∃ objs, decodeIFrameObjects f = .ok objs := by
  obtain ⟨⟨event, rest, rfl, hfits⟩, st, -, hb⟩ := h
  have hp := Server.packed_buildIFrame (Server.fits_ready hfits) hfits.2 hb
  obtain ⟨v, hv, hcount, hsq⟩ := hp.vsq
  obtain ⟨size, hsize, hlen, -⟩ := hp.objects
  obtain ⟨⟨t, ht, htype⟩, -⟩ := hp.header event List.mem_cons_self
  have hn : asduDataSize.lookup (t.toNat : Int) = some size := by
    rw [htype]
    exact hsize event List.mem_cons_self
  cases hd : decodeIFrameObjects f with
  | ok objs => exact ⟨objs, rfl⟩
  | error e =>
    have hcut := (decode_raises_iff f).mp ⟨e, hd⟩
    exfalso
    simp only [cutsTime, hv, ht, hn, Bool.and_eq_true] at hcut
    have hbit : v.toNat &&& 0x80 = 0 := by simpa using congrArg UInt8.toNat hsq
    have hall : v.toNat &&& 0x7F ≤ (event :: rest).length := by
      rw [← hcount]
      exact Nat.and_le_left
    rw [if_neg (not_not_intro hbit)] at hcut
    have hlt := (of_decide_eq_true hcut.2).1
    rw [List.length_drop] at hlen
    rw [hlen, Nat.add_comm size 3, Nat.mul_div_cancel _ (by omega)] at hlt
    omega

theorem decodes_written {ca ca' : Int} {log : List Server.Obs} (hc : Always (Server.Contains ca) log)
    (hg : ∀ g ∈ Server.taken log, Client.Interrogates ca' g) {f : Bytes} (hf : f ∈ Server.written log)
    (hI : isI f = true) : ∃ objs, decodeIFrameObjects f = .ok objs := by
  obtain ⟨o, ho, he⟩ := List.mem_filterMap.mp hf
  obtain ⟨pre, post, rfl⟩ := List.append_of_mem ho
  have hcon := hc pre o post rfl
  match o, he, hcon with
  | .sent batch g, he, hcon =>
    cases he
    rcases hcon with ⟨-, rfl⟩ | hb
    · cases hI
    · exact decode_batch_total hb
  | .reply g, he, hcon =>
    cases he
    obtain ⟨e, hmem, hn, hecho⟩ := hcon hI
    simp only [numberedI, Bool.and_eq_true] at hn
    obtain ⟨hca, ns, nr, heq⟩ := hg e (by rw [Server.taken_append]; exact List.mem_append_left _ hmem) hn.1
    exact ⟨_, Client.decode_confirmation hca heq hecho⟩

theorem processFrame_total (onData : Bool) (st : ClientState) {f : Bytes} (hf : Whole f)
    (hd : isI f = true → ∃ objs, decodeIFrameObjects f = .ok objs) :
    (Client.processFrame onData st f).result.isOk = true := by
  rcases format_cases (f := f) (by have := hf.long; omega) with ⟨hI, -⟩ | ⟨-, hS, -⟩ | ⟨-, -, hU⟩
  · have hn : numberedI f = true := by rw [hf.numberedI, hI]
    obtain ⟨objs, hobjs⟩ := hd hI
    have hdel : (Client.delivered onData f).isOk = true := by
      cases onData with
      | false => rfl
      | true => simp [Client.delivered, hobjs, Except.map, Except.isOk, Except.toBool]
    rw [Client.processFrame_I onData st hn]
    split
    · exact hdel
    · exact hdel
  · rw [Client.processFrame_S onData st (by simp [numberedS, hS, hf.long])]
    rfl
  · rw [Client.processFrame_U onData st hU]
    rfl

/-! ## The server -/

theorem sound_written {ca : Int} {f : Bytes} (hf : Whole f) (hg : Client.Interrogates ca f) : sound f := by
  refine ⟨by have := hf.long; omega, fun _ => hf.long, fun hI => ⟨hf.long, .inr ?_⟩⟩
  obtain ⟨-, ns, nr, rfl⟩ := hg hI
  rw [drop_iFrame]
  rfl

theorem procFrame_total (cb : Callbacks σ) (now : Datetime) {ca : Int} {st : ClientState} (store : σ) {f : Bytes}
    (hf : Whole f) (hg : Client.Interrogates ca f) (hc : st.Counters) :
    ∃ r, (procFrame cb now f ⟨st, store, [], []⟩).1 = .ok r := by
  have hs := sound_written hf hg
  have hl := hf.length_le
  have hquiet : Ctx.NoLengthError (⟨st, store, [], []⟩ : Ctx σ) := fun r hr => by cases hr
  have hh : Handled f (procFrame cb now f ⟨st, store, [], []⟩) := by
    rcases format_cases (f := f) (by have := hf.long; omega) with ⟨hI, -⟩ | ⟨-, hS, -⟩ | ⟨-, -, hU⟩
    · exact (handled_I cb now hI hl hc hquiet).mpr hs
    · exact (handled_S cb now _ hS).mpr hs
    · exact (handled_U cb now hU hquiet).mpr hs
  obtain ⟨⟨t, resp, hr⟩, -⟩ := hh
  exact ⟨(t, resp), hr⟩

def Running : Server.RecPc → Prop
  | .free => True
  | .handling result _ => result.isSome = true
  | _ => False

theorem recvStep_free {s s' : Server.Conn σ} {f : Bytes} {now : Datetime}
    (h : Server.Conn.recvStep cb s f now = some s') : s.receiver = .free := by
  unfold Server.Conn.recvStep at h
  split at h
  · rename_i hg
    exact hg.1
  · cases h

/-- What `client_rec` is left with: nothing to put and no I-frame to answer with, or the events of an
    interrogation. -/
theorem recv_asked {C Q : Type}
    {onCommand : Option (Val → Nat → Signals C Q → Bool × List IecEvent × Signals C Q)}
    {s s' : Server.Conn (Signals C Q)} {f : Bytes} {now : Datetime} {ca : Int} (hf : Whole f)
    (hg : Client.Interrogates ca f) (h : Server.Conn.recvStep (Server.station onCommand) s f now = some s') :
    s.receiver = .free ∧ s'.store = s.store ∧ s'.log = s.log ++ [.got f] ∧
      ∃ result puts, s'.receiver = .handling result puts ∧
        ((puts = [] ∧ ∀ t g, result = some (t, some g) → isI g = false) ∨
          puts = Server.interrogated s.store ++ [giTermination now]) := by
  unfold Server.Conn.recvStep at h
  split at h
  · rename_i hfree
    cases h
    have hlong := hf.long
    cases hI : isI f with
    | true =>
      obtain ⟨-, ns, nr, he⟩ := hg hI
      have hgi : (Server.station onCommand).onGi = some fun s : Signals C Q => s.getAllForGi.map Event.iec := rfl
      have h100 : (f.drop 6)[0]? = some 100 := by
        rw [he, drop_iFrame]
        rfl
      obtain ⟨hstore, hputs⟩ := handleAsdu_gi_cases (f := f) hgi h100
        (Ctx.received ⟨s.st, s.store, [], []⟩ (nS f) (nR f))
      rw [procFrame_long hI hlong]
      refine ⟨hfree.1, by rw [hstore, Ctx.received_store], rfl, _, _, rfl, ?_⟩
      rcases hputs with ⟨hnone, hack⟩ | hall
      · refine .inl ⟨by rw [hnone, Ctx.received_puts], fun t g hr => ?_⟩
        exfalso
        cases ho : (handleAsdu (Server.station onCommand) now f (f.drop 6)
            (Ctx.received ⟨s.st, s.store, [], []⟩ (nS f) (nR f))).1 with
        | error e =>
          rw [ho] at hr
          cases hr
        | ok o =>
          rw [ho] at hr
          cases hr
          exact hack g ho
      · refine .inr ?_
        rw [hall, Ctx.received_puts, Ctx.received_store]
        rfl
    | false =>
      have hother : isS f = true ∨ isU f = true := by
        rcases format_cases (f := f) (by omega) with ⟨hi, -⟩ | ⟨-, hS, -⟩ | ⟨-, -, hU⟩
        · rw [hI] at hi
          cases hi
        · exact .inl hS
        · exact .inr hU
      obtain ⟨hputs, hstore⟩ := procFrame_other (Server.station onCommand) now ⟨s.st, s.store, [], []⟩ hother
      refine ⟨hfree.1, hstore, rfl, _, _, rfl, .inl ⟨hputs, fun t g hr => ?_⟩⟩
      obtain ⟨r, c, hp⟩ : ∃ r c, procFrame (Server.station onCommand) now f ⟨s.st, s.store, [], []⟩ = (r, c) :=
        ⟨_, _, rfl⟩
      rw [hp] at hr
      rcases procFrame_cases hp with ⟨-, hn, -⟩ | ⟨hq, -⟩
      · simp [numberedI, hI] at hn
      · have hquiet : Server.QuietResult f (some (t, some g)) := ⟨r, hq, hr.symm⟩
        obtain ⟨-, -, hU, -⟩ := hquiet.response
        exact (only_U hU).1
  · cases h

theorem running_recv {s s' : Server.Conn σ} {f : Bytes} {now : Datetime} {ca : Int} (hf : Whole f)
    (hg : Client.Interrogates ca f) (hc : s.st.Counters) (h : Server.Conn.recvStep cb s f now = some s') :
    Running s'.receiver := by
  unfold Server.Conn.recvStep at h
  split at h
  · cases h
    obtain ⟨r, hr⟩ := procFrame_total cb now s.store hf hg hc
    show ((procFrame cb now f ⟨s.st, s.store, [], []⟩).1.toOption).isSome = true
    rw [hr]
    rfl
  · cases h

theorem running_handle {s s' : Server.Conn σ} (hr : Running s.receiver) (hc : s.st.Counters)
    (h : s.handleStep = some s') : Running s'.receiver := by
  unfold Server.Conn.handleStep at h
  split at h
  · rename_i result event puts hpc
    rw [hpc] at hr
    cases h
    exact hr
  · rename_i hpc
    rw [hpc] at hr
    cases hr
  · rename_i fType response hpc
    dsimp only at h
    cases response with
    | some response =>
      cases h
      trivial
    | none =>
      by_cases ht : fType = .I
      · simp only [ht, true_and, if_true, buildSFrame_eq hc.recSq_lt] at h
        split at h
        · cases h
          trivial
        · cases h
          trivial
      · simp only [ht, false_and, if_false] at h
        cases h
        trivial
  · cases h

/-- A buffer outside the loop holds less than a frame; one `recv` brings 1024 octets at most. -/
theorem recv_bound {p p' : Pipe} {fs : List Bytes} {n : Nat} (h : Carries p fs) (hr : p.recv n = some p') :
    p'.buf.length ≤ 1280 := by
  unfold Pipe.recv at hr
  split at hr
  · rename_i hn
    cases hr
    have hbuf : p.buf.length ≤ 256 := by
      cases fs with
      | nil =>
        rw [(List.append_eq_nil_iff.mp h.octets).1]
        exact Nat.zero_le _
      | cons f rest =>
        obtain ⟨⟨-, l, -, hl⟩, -⟩ := h.whole f List.mem_cons_self
        have := l.toNat_lt
        have := h.waiting hn.1 f rest rfl
        omega
    show (p.buf ++ p.chan.take n).length ≤ 1280
    rw [List.length_append, List.length_take]
    omega
  · cases hr

/-! ## Both stations -/

structure Alive (l : Stations σ) : Prop where
  client : l.client.alive = true
  server : Running l.server.receiver

/-- What a run is known to keep, for the threads' next steps. -/
structure Safe (conf : Conf) (l : Stations σ) : Prop where
  room : ∀ n up, l.server.receiver = .free → l.up.recv n = some up → up.buf.length ≤ 1280
  up : ∀ f up, l.server.receiver = .free → l.up.pass Deframe.serverPass = some (some f, up) →
    Whole f ∧ ∃ ca, Client.Interrogates ca f
  down : ∀ f down, l.down.pass Deframe.clientPass = some (some f, down) →
    Whole f ∧ (isI f = true → ∃ objs, decodeIFrameObjects f = .ok objs)
  counters : l.server.st.Counters
  conf : l.server.st.conf = conf

theorem safe_run {conf conf' : Conf} {ca ca' : Int} {store : σ} {que : List IecEvent} {onData : Bool}
    (hw : 1 ≤ conf'.protW) {l : Stations σ}
    (h : Reach (step cb) anyway (newLink conf conf' ca ca' store que onData) l) : Safe conf l := by
  obtain ⟨d, hj⟩ := joined_run hw h
  have hserver := content_server h
  have hclient := content_client h
  have hopen : l.server.receiver = .free → l.server.receiver ≠ .closed := fun hfree => by rw [hfree]; simp
  refine ⟨fun n up hfree hr => ?_, fun f up hfree hp => ?_, fun f down hp => ?_, hj.ends.num.counters, ?_⟩
  · obtain ⟨fs, hc, -⟩ := hj.up (hopen hfree)
    exact recv_bound hc hr
  · obtain ⟨fs, hc, hwr⟩ := hj.up (hopen hfree)
    obtain ⟨rest, rfl, -⟩ := hc.pass Deframe.serverPass_eq hp
    have hmem : f ∈ Client.written l.client.log := by
      rw [hwr]
      simp
    exact ⟨hj.ends.tracked.whole f hmem, ca', hclient.wrote f hmem⟩
  · obtain ⟨fs, hc, hwr⟩ := hj.down
    obtain ⟨rest, rfl, -⟩ := hc.pass Deframe.clientPass_eq hp
    have hmem : f ∈ Server.written l.server.log := by
      rw [hwr]
      simp
    have hasked : ∀ g ∈ Server.taken l.server.log, Client.Interrogates ca' g := fun g hg =>
      hclient.wrote g ((upward_run hw h).subset hg)
    exact ⟨hj.ends.framed.whole f hmem, decodes_written hserver.wrote hasked hmem⟩
  · exact (server_reach h).inv (P := fun s => s.st.conf = conf) rfl fun _ _ _ hc _ hs =>
      (Server.step_move hs).conf.trans hc

def staysOpen : Act σ → Bool
  | .server .close => false
  | _ => true

theorem alive_server {conf : Conf} (hmax : 1280 ≤ conf.maxRxBuf) {l : Stations σ} {a : Act σ} {b : Server.Act σ}
    {s : Server.Conn σ} (hsafe : Safe conf l) (halive : Running l.server.receiver) (hok : staysOpen a = true)
    (hcause : ServerCause l a b) (hs : Server.Conn.step cb l.server b = some s) : Running s.receiver := by
  cases hcause with
  | own _ ha ht =>
    cases b with
    | put | store =>
      cases hs
      exact halive
    | send clock =>
      have hm : Server.Move cb _ (.send clock) _ := Server.sendStep_move hs
      cases hm with
      | _ => exact halive
    | stop =>
      cases Server.step_move hs with
      | stop => exact halive
    | recv f now => cases ht
    | handle => exact running_handle halive hsafe.counters hs
    | close =>
      rw [ha] at hok
      cases hok
  | overflow n up hfree hr hlong =>
    have := hsafe.room n up hfree hr
    rw [hsafe.conf] at hlong
    omega
  | frame f now up hp =>
    obtain ⟨hf, ca, hg⟩ := hsafe.up f up (recvStep_free hs) hp
    exact running_recv hf hg hsafe.counters hs

theorem alive_client {conf : Conf} {l : Stations σ} {a : Act σ} {b : Client.Act} {c : Client.Session}
    (hsafe : Safe conf l) (halive : l.client.alive = true) (hcause : ClientCause l a b)
    (hs : Client.Session.step l.client b = some c) : c.alive = true := by
  cases hcause with
  | own _ _ ht =>
    cases Client.step_move hs with
    | count | ack | pass | confirm => cases ht
    | _ => exact halive
  | frame f down _ hp =>
    simp only [Client.Session.step, Client.Session.recvStep] at hs
    split at hs
    · cases hs
      obtain ⟨hf, hd⟩ := hsafe.down f down hp
      exact processFrame_total l.client.onData l.client.st hf hd
    · cases hs

theorem alive_run {conf conf' : Conf} {ca ca' : Int} {store : σ} {que : List IecEvent} {onData : Bool}
    (hw : 1 ≤ conf'.protW) (hmax : 1280 ≤ conf.maxRxBuf) {l : Stations σ}
    (h : Reach (step cb) (fun _ a => staysOpen a = true) (newLink conf conf' ca ca' store que onData) l) : Alive l := by
  induction h with
  | init => exact ⟨rfl, trivial⟩
  | step hr hok hs ih =>
    have hsafe := safe_run hw (hr.mono fun _ _ _ => trivial)
    rcases step_cases hs with ⟨b, s, hb, he, he', hcause⟩ | ⟨b, c, hb, he, he', hcause⟩ | ⟨he, he'⟩
    · refine ⟨by rw [he']; exact ih.client, ?_⟩
      rw [he]
      exact alive_server hmax hsafe ih.server hok hcause hb
    · refine ⟨?_, by rw [he']; exact ih.server⟩
      rw [he]
      exact alive_client hsafe ih.client hcause hb
    · exact ⟨by rw [he']; exact ih.client, by rw [he]; exact ih.server⟩

/-- In every run in which nobody closes the connection, the server's buffer limit being at least
    1280 octets, both receive threads stay at work: no frame either station sends ends the
    other's by an exception, and the buffer never grows over its limit. -/
theorem never_ends (cb : Callbacks σ) (conf conf' : Conf) (ca ca' : Int) (store : σ) (que : List IecEvent)
    (onData : Bool) (hw : 1 ≤ conf'.protW) (hmax : 1280 ≤ conf.maxRxBuf) (l : Stations σ)
    (h : Reach (step cb) (fun _ a => staysOpen a = true) (newLink conf conf' ca ca' store que onData) l) :
    l.client.alive = true ∧ l.server.receiver ≠ .failed ∧ l.server.receiver ≠ .closed := by
  have hal := alive_run hw hmax h
  refine ⟨hal.client, fun hc => ?_, fun hc => ?_⟩
  · have := hal.server
    rw [hc] at this
    exact this
  · have := hal.server
    rw [hc] at this
    exact this

theorem never_ends_timelyInterrogation : ∃ l : Stations Unit, l.client.st.sendSq = 1 ∧ l.client.alive = true ∧
    l.server.receiver ≠ .failed ∧ l.server.receiver ≠ .closed := by
  have hrun : (run (checked (fun _ a => staysOpen a) (step emptyStation)) newStations timelyInterrogation).map
      (fun l => l.client.st.sendSq) = some 1 := by decide
  obtain ⟨l, hr, hl⟩ := exists_of_run _ hrun
  exact ⟨l, hl, never_ends emptyStation windowsOfTwo windowsOfTwo 1 1 () [] true (by decide) (by decide) l
    (reach_of_checked hr)⟩

end Drv60870.Link
