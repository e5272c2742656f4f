/-
  Drv60870.Link.Everywhere — from `update_val` to `on_data`, at every client of the server.

  It joins the account of the server's threads (`InTurn`) with the two stations cut out of the
  network (`Network`). The run is one in which no peer comes back too early, `client_send` of
  every connection is orderly, and an update of the address is committed when the last one has
  been put to every client. The other addresses are updated in whatever order, and the clients
  come and go.

  Proved, with transmitted events of the years 2000 to 2127:
  - The changes (cause 3) that `on_data` of any client has been handed of the address are the
    images of the first ones written while its connection was subscribed, in the order in which
    they were written, and at rest of all of them (`told_everywhere`).
  Traces: the console closes the switch, and two clients are told (`toldBoth`).
-/

import Drv60870.Link.InOrder
import Drv60870.Link.Network
import Drv60870.Server.InTurn

namespace Drv60870.Link

open Lib.Octets Lib.Calendar Lib.Runs Drv60870.Const Protocol Storage
open Server.Hub (about due)

namespace Network

variable {Addr : Type}

/-! ## The conditions -/

/-- `client_send` of every connection loses no event and puts none back behind one of its address. -/
def orderly (s : Network Addr) : Act Addr → Bool
  | .hub c =>
    (c.conducts s.hub).all fun p => (s.hub.lines[p.1]?).all fun l =>
      Server.nothingLost l.conn p.2 && Server.nothingOvertaken l.conn p.2
  | _ => true

/-- An update of the address is committed when the last one has been put to every client. -/
def inTurn (a : Int) (s : Network Addr) : Act Addr → Bool
  | .hub c => s.hub.inTurn a c
  | _ => true

theorem orderly_part {s : Network Addr} {a : Act Addr} {i : Nat} {l : Server.Line Addr} {k : Stations Unit}
    {b : Link.Act Unit} (hok : s.orderly a = true) (hl : s.hub.lines[i]? = some l) (hk : k.server = l.conn)
    (hp : Part s a i b) : Link.orderly k b = true := by
  cases hp with
  | own c b ha hb =>
    rw [ha, orderly, hb, Option.all_some, hl, Option.all_some] at hok
    rw [Link.orderly, hk]
    exact hok
  | finish | recv | pass => rfl
  | client b ha hb => cases b <;> first | rfl | cases hb

section Conditions

variable [DecidableEq Addr]

def addressFree (s : Network Addr) : Act Addr → Bool
  | .connect addr _ _ => s.hub.addressFree (.accept addr)
  | _ => true

theorem addressFree_does {s : Network Addr} {a : Act Addr} {c : Server.Hub.Act Addr} (hok : s.addressFree a = true)
    (hc : Does a c) : s.hub.addressFree c = true := by
  cases hc with
  | connect => exact hok
  | hub c hin => cases c <;> first | rfl | cases hin
  | leave | take => rfl

end Conditions

/-! ## Changes at the client -/

def changesOf (a : Int) (log : List Client.Obs) : List Obj := (objectsOf a log).filter fun o => o.cot = 3

theorem about_onIoa (a : Int) (evs : List IecEvent) : about a evs = Server.Hub.news (Server.onIoa a evs) := by
  rw [about, Server.onIoa, Server.Hub.news, Server.Hub.news, Server.onIoa, List.filter_comm]

theorem changes_images {ca a : Int} {evs : List IecEvent} {objs : List Obj}
    (h : List.Forall₂ (Server.EventImage ca) (Server.onIoa a evs) objs) :
    List.Forall₂ (Server.EventImage ca) (about a evs) (objs.filter fun o => o.cot = 3) := by
  rw [about_onIoa]
  refine List.rel_filter ?_ h
  intro ev o hev
  have hcot : (o.cot : Int) = ev.cot := hev.cot
  simp only [decide_eq_true_eq]
  omega

/-! ## The network at rest -/

structure AtRest (s : Network Addr) (i : Nat) (l : Server.Line Addr) (e : End) : Prop where
  stations : Link.AtRest (stations l e)
  job : l.job = none
  que : l.conn.que = []
  underway : s.hub.underway i = []

theorem Twin.eq {l : Server.Line Addr} {e : End} {k : Stations Unit} (h : Twin l e k) (hj : l.job = none) :
    k = stations l e := by
  rw [stations, ← h.server, ← h.client, ← h.down, ← h.up.free hj]

variable [DecidableEq Addr]

/-- In every run of the server and any number of clients in which no client comes back too early, the sending
    threads are orderly and the updates of one address are committed in turn: what `on_data` of a client has got
    as changes of the address are the images of the first that were written while its connection was subscribed,
    in the order in which they were written, and at rest of all of them. -/
theorem told_everywhere (a : Int) (ha : a ≠ 0) (conf : Conf) (ca : Int) (now : Datetime) (rows : List Row)
    (s : Network Addr)
    (hr : Reach step (fun s act => s.addressFree act = true ∧ s.orderly act = true ∧ s.inTurn a act = true)
      (start conf ca now rows) s)
    (i : Nat) (l : Server.Line Addr) (e : End) (hl : s.hub.lines[i]? = some l) (he : s.ends[i]? = some e)
    (hw : 1 ≤ e.conf.protW) (hy : ∀ ev ∈ Server.transmitted l.conn.log, inCentury ev) :
    ∃ evs, evs <+: about a (due i s.hub.log) ∧
      List.Forall₂ (Server.EventImage ca) evs (changesOf a e.client.log) ∧
      (s.AtRest i l e → evs = about a (due i s.hub.log)) := by
  have hhub : Reach Server.Hub.step (fun h c => h.addressFree c = true ∧ h.inTurn a c = true)
      (Server.Hub.start conf ca now rows) s.hub := by
    refine hub_reach (fun s act c hok hc => ⟨addressFree_does hok.1 hc, ?_⟩) hr
    cases hc with
    | hub c => exact hok.2.2
    | connect | leave | take => rfl
  have horder := Server.Hub.turns_reach hhub i l hl
  have hput : about a (Server.enqueued l.conn.log) <+: about a (due i s.hub.log) := ⟨_, horder⟩
  obtain ⟨k, htwin, hk⟩ := parted_reach (fun k b => Link.orderly k b = true)
    (fun s act i l k b hok hl hk hp => orderly_part hok.2.1 hl hk hp) hr hl he
  rw [← htwin.server] at hput hy horder
  have hreach : Reach (Stations.step posting) anyway (newLink conf e.conf ca e.ca () [] true) k :=
    hk.mono fun _ _ _ => trivial
  have htold : toldOf a k <+: Server.onIoa a (Server.enqueued k.server.log) := toldOf_prefix hk (by simp)
  have himages := changes_images (objects_onIoa ha (says_run hw hreach hy))
  refine ⟨about a ((passed k).flatMap Message.events), ?_, ?_, fun hrest => ?_⟩
  · refine List.IsPrefix.trans ?_ hput
    rw [about_onIoa, about_onIoa]
    exact htold.filter _
  · rw [changesOf, objectsOf, ← htwin.client]
    exact himages
  · have hat : Link.AtRest k := by
      rw [htwin.eq hrest.job]
      exact hrest.stations
    have hque : k.server.que = [] := by
      rw [htwin.server]
      exact hrest.que
    have hall : Server.onIoa a ((passed k).flatMap Message.events) = Server.onIoa a (Server.enqueued k.server.log) :=
      toldOf_all hw hk (by simp) hy hat hque
    rw [about_onIoa, hall, ← about_onIoa, ← horder, hrest.underway]
    exact (List.append_nil _).symm

def begun (i : Nat) : List (Act String) :=
  [.client i (.client .startdt), .client i (.client (.send false)), .client i (.client (.send false)),
    .serverRecv i 6, .serverPass i sampleTime, .hub (.finish i), .hub (.handle i), .serverPass i sampleTime,
    .client i (.clientRecv 6), .client i .clientPass, .client i .clientPass]

def passedOn (i : Nat) : List (Act String) :=
  List.replicate 6 (.hub (.send i false)) ++ [.client i (.clientRecv 16), .client i .clientPass, .client i .clientPass]

/-- The console closes the switch, and two clients are told. -/
def toldBoth : List (Act String) :=
  [.connect "first" kp1Conf 1, .connect "second" kp1Conf 1] ++ begun 0 ++ begun 1 ++
    [.hub (.update sampleTime (.single true 100)), .hub (.turn 0), .hub (.turn 0)] ++ passedOn 0 ++ passedOn 1

theorem told_everywhere_toldBoth : ∃ (s : Network String) (e : End) (ev : IecEvent) (o : Obj), s.ends[1]? = some e ∧
    about 100 (due 1 s.hub.log) = [ev] ∧ ev.val = .int 1 ∧ changesOf 100 e.client.log = [o] ∧
    Server.EventImage 1 ev o := by
  have hrun : (run (checked (fun s act => s.addressFree act && (s.orderly act && s.inTurn 100 act)) step)
      (start kp1Conf 1 sampleTime [Server.Hub.switchRow]) toldBoth).map (fun s => (s.hub.lines[1]?).bind fun l =>
        (s.ends[1]?).map fun e => (decide (Link.AtRest (stations l e) ∧ l.job = none ∧ l.conn.que = [] ∧
            s.hub.underway 1 = []), e.conf.protW, (Server.transmitted l.conn.log).map fun ev => ev.ts.year,
          about 100 (due 1 s.hub.log))) =
      some (some (true, 8, [2025], [{ point 1 100 1 with id := 1 }])) := by decide +kernel
  obtain ⟨s, hr, hs⟩ := exists_of_run _ hrun
  obtain ⟨l, hl, hs⟩ := Option.bind_eq_some_iff.mp hs
  obtain ⟨e, he, hs⟩ := Option.map_eq_some_iff.mp hs
  simp only [Prod.mk.injEq, decide_eq_true_eq] at hs
  obtain ⟨⟨hat, hjob, hque, hunder⟩, hw, hyear, hdue⟩ := hs
  have hok := (reach_of_checked hr).mono fun s act hok => by simpa only [Bool.and_eq_true] using hok
  have hy : ∀ ev ∈ Server.transmitted l.conn.log, inCentury ev := by
    intro ev hev
    have hmem : ev.ts.year ∈ [2025] := hyear ▸ List.mem_map_of_mem hev
    rw [inCentury, List.mem_singleton.mp hmem]
    decide
  obtain ⟨evs, -, himages, hall⟩ := told_everywhere 100 (by decide) kp1Conf 1 sampleTime [Server.Hub.switchRow] s hok 1
    l e hl he (by omega) hy
  rw [hall ⟨hat, hjob, hque, hunder⟩, hdue] at himages
  obtain ⟨o, os, ho, hos, hobjs⟩ := List.forall₂_cons_left_iff.mp himages
  cases hos
  exact ⟨s, e, _, o, he, hdue, rfl, hobjs, ho⟩

end Network

end Drv60870.Link
