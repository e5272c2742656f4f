/-
  Drv60870.Link.InOrder — one signal's events, from `out_que` to `on_data`.

  A run is `orderly` while no event is taken from the queue before STARTDT, every event can be
  encoded, and none is put back behind one of its address.

  Proved, with transmitted events of the years 2000 to 2127:
  - In every state of an orderly run the objects handed to `on_data` for an address are the
    images of the first events enqueued for it, in order; with the stations at rest and the
    queue empty, of all of them (`told_in_order`). It joins `Server.Order` with `Reported`.

  Address 0 is left out: the confirmation of an interrogation comes as an object of it
  (`says_onIoa`).
-/

import Mathlib.Data.List.Forall2
import Drv60870.Link.Reported
import Drv60870.Server.Order

namespace Drv60870.Link

open Lib.Octets Lib.Calendar Lib.Python Lib.Runs Drv60870.Const Protocol Stations

variable {σ : Type} {cb : Callbacks σ}

/-! ## The server's part of a run -/

def orderly (l : Stations σ) : Act σ → Bool
  | .server a => Server.nothingLost l.server a && Server.nothingOvertaken l.server a
  | _ => true

theorem orderly_server {s₀ l : Stations σ} (h : Reach (step cb) (fun l a => orderly l a = true) s₀ l) :
    Reach (Server.Conn.step cb)
      (fun s a => Server.nothingLost s a = true ∧ Server.nothingOvertaken s a = true) s₀.server l.server := by
  induction h with
  | init => exact .init
  | step _ hok hs ih =>
    rcases step_cases hs with ⟨b, s, hb, he, -, hcause⟩ | ⟨b, c, -, -, he, -⟩ | ⟨he, -⟩
    · rw [he]
      refine .step ih ?_ hb
      cases hcause with
      | own _ ha =>
        rw [ha] at hok
        simpa [orderly] using hok
      | overflow => exact ⟨rfl, rfl⟩
      | frame => exact ⟨rfl, rfl⟩
    · rw [he]
      exact ih
    · rw [he]
      exact ih

theorem ordered_server {conf conf' : Conf} {ca ca' : Int} {store : σ} {que : List IecEvent} {onData : Bool}
    {l : Stations σ}
    (h : Reach (step cb) (fun l a => orderly l a = true) (newLink conf conf' ca ca' store que onData) l)
    (hque : ∀ ev ∈ que, Server.encodable ev = true) : ∃ lost, Server.Ordered lost l.server := by
  have h0 : Server.Ordered [] (Server.start (createClientState conf ca) store que) := by
    refine ⟨fun _ => rfl, hque, trivial, fun i => ?_⟩
    rw [Server.transmitted_start, Server.enqueued_start]
    rfl
  refine (orderly_server h).inv (P := fun s => ∃ lost, Server.Ordered lost s) ⟨[], h0⟩ ?_
  rintro s a s' ⟨lost, hs⟩ hok hstep
  exact hs.move hok (Server.step_move hstep)

/-! ## The objects of an address -/

def objectsOf (i : Int) (log : List Client.Obs) : List Obj := (handed log).flatten.filter fun o => o.ioa = i

def Message.events : Message → List IecEvent
  | .report batch => batch
  | .confirmation => []

theorem messages_events (log : List Server.Obs) : (messages log).flatMap Message.events = Server.transmitted log := by
  induction log with
  | nil => rfl
  | cons o log ih =>
    have hsplit : Server.transmitted (o :: log) = o.batch ++ Server.transmitted log := rfl
    rw [hsplit, ← ih, messages, List.filterMap_cons]
    cases o with
    | put ev => rfl
    | got f => rfl
    | sent batch f => cases batch <;> rfl
    | reply f =>
      by_cases hI : isI f = true
      · simp [messageOf, hI, Message.events, Server.Obs.batch, messages]
      · simp [messageOf, hI, Server.Obs.batch, messages]

theorem says_onIoa {ca ca' i : Int} (hi : i ≠ 0) {m : Message} {objs : List Obj} (h : Says ca ca' m objs) :
    List.Forall₂ (Server.EventImage ca) (Server.onIoa i m.events) (objs.filter fun o => o.ioa = i) := by
  cases m with
  | report batch =>
    refine List.rel_filter ?_ h
    intro ev o hev
    simp [hev.ioa]
  | confirmation =>
    cases h
    have hnone : [Client.giConfirmation ca'].filter (fun o => o.ioa = i) = [] := by
      simp [Client.giConfirmation, Ne.symm hi]
    rw [hnone]
    exact .nil

theorem objects_onIoa {ca ca' i : Int} (hi : i ≠ 0) {ms : List Message} {os : List (List Obj)}
    (h : List.Forall₂ (Says ca ca') ms os) :
    List.Forall₂ (Server.EventImage ca) (Server.onIoa i (ms.flatMap Message.events))
      (os.flatten.filter fun o => o.ioa = i) := by
  induction h with
  | nil => exact .nil
  | cons hm _ ih =>
    rw [List.flatMap_cons, Server.onIoa_append, List.flatten_cons, List.filter_append]
    exact List.rel_append (says_onIoa hi hm) ih

/-! ## Runs -/

section

variable {conf conf' : Conf} {ca ca' : Int} {store : σ} {que : List IecEvent} {l : Stations σ} {i : Int}

/-- The events of an address that the client has been told of. -/
def toldOf (i : Int) (l : Stations σ) : List IecEvent := Server.onIoa i ((passed l).flatMap Message.events)

theorem toldOf_prefix (h : Reach (step cb) (fun l a => orderly l a = true) (newLink conf conf' ca ca' store que true) l)
    (hque : ∀ ev ∈ que, Server.encodable ev = true) : toldOf i l <+: Server.onIoa i (Server.enqueued l.server.log) := by
  obtain ⟨lost, hord⟩ := ordered_server h hque
  rw [← hord.order i, Server.onIoa_append, ← messages_events]
  obtain ⟨rest, hrest⟩ : passed l <+: messages l.server.log := List.take_prefix _ _
  rw [← hrest, List.flatMap_append, Server.onIoa_append, List.append_assoc]
  exact List.prefix_append _ _

theorem toldOf_all (hw : 1 ≤ conf'.protW)
    (h : Reach (step cb) (fun l a => orderly l a = true) (newLink conf conf' ca ca' store que true) l)
    (hque : ∀ ev ∈ que, Server.encodable ev = true) (hy : ∀ ev ∈ Server.transmitted l.server.log, inCentury ev)
    (hr : AtRest l) (hq : l.server.que = []) : toldOf i l = Server.onIoa i (Server.enqueued l.server.log) := by
  obtain ⟨lost, hord⟩ := ordered_server h hque
  have hlost : lost = [] := hord.live (by rw [hr.clientSend]; simp)
  have hreach : Reach (step cb) anyway (newLink conf conf' ca ca' store que true) l := h.mono fun _ _ _ => trivial
  rw [← hord.order i, hlost, hr.clientSend, hq, toldOf, passed_all hw hreach hy hr, messages_events]
  show _ = Server.onIoa i (Server.transmitted l.server.log ++ [])
  rw [List.append_nil]

end

/-- For every address but 0, in every orderly run: the client has been handed the images of the first
    events enqueued for it, in order, and with the queue empty and everything at rest of all of them. -/
theorem told_in_order (cb : Callbacks σ) (conf conf' : Conf) (ca ca' : Int) (store : σ) (que : List IecEvent)
    (hw : 1 ≤ conf'.protW) (hque : ∀ ev ∈ que, Server.encodable ev = true) (l : Stations σ)
    (h : Reach (step cb) (fun l a => orderly l a = true) (newLink conf conf' ca ca' store que true) l)
    (hy : ∀ ev ∈ Server.transmitted l.server.log, inCentury ev) (i : Int) (hi : i ≠ 0) :
    ∃ evs, evs <+: Server.onIoa i (Server.enqueued l.server.log) ∧
      List.Forall₂ (Server.EventImage ca) evs (objectsOf i l.client.log) ∧
      (AtRest l → l.server.que = [] → evs = Server.onIoa i (Server.enqueued l.server.log)) := by
  have hreach : Reach (step cb) anyway (newLink conf conf' ca ca' store que true) l := h.mono fun _ _ _ => trivial
  exact ⟨toldOf i l, toldOf_prefix h hque, objects_onIoa hi (says_run hw hreach hy), toldOf_all hw h hque hy⟩

theorem told_in_order_sendValue : ∃ (l : Stations Unit) (o : Obj), objectsOf 45 l.client.log = [o] ∧
    Server.EventImage 1 (point 1 45 1) o := by
  have hrun : (run (checked orderly (step emptyStation)) newStations (startdt ++ sendValue)).map (fun l =>
      (decide (AtRest l ∧ l.server.que = []), Server.transmitted l.server.log, Server.enqueued l.server.log)) =
        some (true, [point 1 45 1], [point 1 45 1]) := by decide
  obtain ⟨l, hr, hl⟩ := exists_of_run _ hrun
  simp only [Prod.mk.injEq, decide_eq_true_eq] at hl
  obtain ⟨⟨hrest, hq⟩, hevents, henq⟩ := hl
  obtain ⟨evs, -, htold, hall⟩ := told_in_order emptyStation windowsOfTwo windowsOfTwo 1 1 () [] (by decide)
    (by simp) l (reach_of_checked hr) (by
      rw [hevents]
      unfold inCentury
      decide) 45 (by decide)
  rw [hall hrest hq, henq] at htold
  obtain ⟨o, os, ho, hos, he⟩ := List.forall₂_cons_left_iff.mp htold
  cases hos
  exact ⟨l, o, he, ho⟩

end Drv60870.Link
