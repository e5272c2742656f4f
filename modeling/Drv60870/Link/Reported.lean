/-
  Drv60870.Link.Reported — what the server reports, the client is handed.

  An I-frame of the server is a message: a batch of events, or the confirmation of the
  client's interrogation. `Says` tells what a list of objects has to say for a message: a tuple
  for each event with its type, address, value and quality, the time cut to milliseconds where
  the type has one; or the one object of the confirmation.

  Proved, in every run in which the events transmitted are of the years 2000 to 2127:
  - Each I-frame of the server tells its message (`tells_log`).
  - The lists of objects that `process_frame` hands to `on_data` are the images of the first
    messages, one list a message and in order, and at rest of all of them (`reported`).
  Traces: a value sent and handed over (`reported_sendValue`).
-/

import Drv60870.Client.Content
import Drv60870.Link.Delivered
import Drv60870.Protocol.Contained
import Drv60870.Server.Content

namespace Drv60870.Link

open Lib.Octets Lib.Calendar Lib.Python Lib.Runs Drv60870.Const Protocol Stations

variable {σ : Type} {cb : Callbacks σ}

/-! ## Messages -/

inductive Message where
  | report (batch : List IecEvent)
  | confirmation

def messageOf : Server.Obs → Option Message
  | .sent (event :: rest) _ => some (.report (event :: rest))
  | .reply f => if isI f then some .confirmation else none
  | _ => none

def messages (log : List Server.Obs) : List Message := log.filterMap messageOf

/-- The objects that `process_frame` calls `on_data` with for an I-frame, if it has any. -/
def handedBy (f : Bytes) : Option (List Obj) :=
  match decodeIFrameObjects f with
  | .ok (o :: objs) => some (o :: objs)
  | _ => none

def handedOf : Client.Obs → Option (List Obj)
  | .got f => if numberedI f then handedBy f else none
  | _ => none

def handed (log : List Client.Obs) : List (List Obj) := log.filterMap handedOf

/-- The objects say what the message says: a tuple for each event, or the confirmation's. -/
def Says (ca ca' : Int) : Message → List Obj → Prop
  | .report batch, objs => List.Forall₂ (Server.EventImage ca) batch objs
  | .confirmation, objs => objs = [Client.giConfirmation ca']

def Tells (ca ca' : Int) (m : Message) (f : Bytes) : Prop :=
  ∃ objs, decodeIFrameObjects f = .ok objs ∧ objs ≠ [] ∧ Says ca ca' m objs

/-! ## The server's frames -/

def iFrameOf (o : Server.Obs) : Option Bytes := o.written.filter isI

theorem tells_entry {ca ca' : Int} {pre : List Server.Obs} {o : Server.Obs} (ho : Server.Contains ca pre o)
    (hy : ∀ ev ∈ o.batch, inCentury ev) (hg : ∀ g ∈ Server.taken pre, Client.Interrogates ca' g) :
    Option.Rel (Tells ca ca') (messageOf o) (iFrameOf o) := by
  cases o with
  | put ev => exact .none
  | got f => exact .none
  | sent batch f =>
    rcases ho with ⟨rfl, rfl⟩ | hb
    · exact .none
    · obtain ⟨objs, hobjs, himg⟩ := Server.decode_batch hb hy
      obtain ⟨⟨event, rest, rfl, -⟩, st, -, hbuilt⟩ := hb
      obtain ⟨ev, parts, -, -, -, rfl⟩ := buildIFrame_some hbuilt
      have hne : objs ≠ [] := by
        intro hn
        rw [hn] at himg
        cases himg
      simp only [messageOf, iFrameOf, Server.Obs.written, Option.filter_some, isI_iFrame, if_true]
      exact .some ⟨objs, hobjs, hne, himg⟩
  | reply f =>
    cases hI : isI f with
    | false =>
      simp only [messageOf, iFrameOf, Server.Obs.written, hI, Option.filter_some]
      exact .none
    | true =>
      obtain ⟨g, hmem, hn, hecho⟩ := ho hI
      have hgI : isI g = true := by
        simp only [numberedI, Bool.and_eq_true] at hn
        exact hn.1
      obtain ⟨hca, ns, nr, he⟩ := hg g hmem hgI
      simp only [messageOf, iFrameOf, Server.Obs.written, hI, Option.filter_some, if_true]
      exact .some ⟨_, Client.decode_confirmation hca he hecho, by simp, rfl⟩

theorem tells_log {ca ca' : Int} {log : List Server.Obs} (hc : Always (Server.Contains ca) log)
    (hy : ∀ ev ∈ Server.transmitted log, inCentury ev) (hg : ∀ g ∈ Server.taken log, Client.Interrogates ca' g) :
    List.Forall₂ (Tells ca ca') (messages log) ((Server.written log).filter isI) := by
  have hframes : (Server.written log).filter isI = log.filterMap iFrameOf := List.filter_filterMap ..
  rw [hframes, messages]
  refine forall₂_shown fun o ho => ?_
  obtain ⟨pre, post, rfl⟩ := List.append_of_mem ho
  refine tells_entry (hc pre o post rfl) (fun ev hev => hy ev ?_) fun g hmem => hg g ?_
  · exact List.mem_flatMap.mpr ⟨o, ho, hev⟩
  · rw [Server.taken_append]
    exact List.mem_append_left _ hmem

/-! ## The client's calls -/

theorem handed_eq (log : List Client.Obs) : handed log = ((Client.taken log).filter numberedI).filterMap handedBy := by
  induction log with
  | nil => rfl
  | cons o log ih =>
    cases o with
    | sent p => exact ih
    | reply f => exact ih
    | got f =>
      have htaken : Client.taken (.got f :: log) = f :: Client.taken log := rfl
      cases hn : numberedI f with
      | true =>
        rw [htaken, List.filter_cons_of_pos hn, List.filterMap_cons, ← ih, handed, List.filterMap_cons, handedOf,
          if_pos hn]
        rfl
      | false =>
        rw [htaken, List.filter_cons_of_neg (by simp [hn]), ← ih, handed, List.filterMap_cons, handedOf, hn]
        rfl

theorem says_handed {ca ca' : Int} {ms : List Message} {fs : List Bytes} (h : List.Forall₂ (Tells ca ca') ms fs) :
    List.Forall₂ (Says ca ca') ms (fs.filterMap handedBy) := by
  induction h with
  | nil => exact .nil
  | @cons m f ms fs hmf _ ih =>
    obtain ⟨objs, hobjs, hne, hsays⟩ := hmf
    have hdec : handedBy f = some objs := by
      obtain ⟨o, rest, rfl⟩ := List.exists_cons_of_ne_nil hne
      simp [handedBy, hobjs]
    rw [List.filterMap_cons, hdec]
    exact .cons hsays ih

/-! ## Runs -/

section

variable {conf conf' : Conf} {ca ca' : Int} {store : σ} {que : List IecEvent} {onData : Bool} {l : Stations σ}

theorem content_server (h : Reach (step cb) anyway (newLink conf conf' ca ca' store que onData) l) :
    Server.Content ca l.server :=
  (server_reach h).inv (Server.content_start (createClientState conf ca) store que) fun _ _ _ hc _ hs =>
    Server.content_step hc hs

theorem content_client (h : Reach (step cb) anyway (newLink conf conf' ca ca' store que onData) l) :
    Client.Content ca' l.client :=
  (client_reach h).inv (Client.content_start (createClientState conf' ca') onData) fun _ _ _ hc _ hs =>
    Client.content_step hc hs

theorem tells_run (hw : 1 ≤ conf'.protW)
    (h : Reach (step cb) anyway (newLink conf conf' ca ca' store que onData) l)
    (hy : ∀ ev ∈ Server.transmitted l.server.log, inCentury ev) :
    List.Forall₂ (Tells ca ca') (messages l.server.log) ((Server.written l.server.log).filter isI) :=
  tells_log (content_server h).wrote hy fun g hg => (content_client h).wrote g ((upward_run hw h).subset hg)

def passed (l : Stations σ) : List Message :=
  (messages l.server.log).take ((Client.taken l.client.log).filter isI).length

theorem says_run (hw : 1 ≤ conf'.protW)
    (h : Reach (step cb) anyway (newLink conf conf' ca ca' store que onData) l)
    (hy : ∀ ev ∈ Server.transmitted l.server.log, inCentury ev) :
    List.Forall₂ (Says ca ca') (passed l) (handed l.client.log) := by
  have htells := tells_run hw h hy
  obtain ⟨rest, -, hsplit⟩ := downward_run hw h
  have hframed : Server.Framed l.server := (server_reach h).inv (Server.framed_start rfl store que)
    fun _ _ _ hf _ hs => Server.framed_move hf (Server.step_move hs)
  -- every frame of the server is long enough for its numbers
  have htaken : (Client.taken l.client.log).filter numberedI = (Client.taken l.client.log).filter isI := by
    refine List.filter_congr fun f hf => (hframed.whole f ?_).numberedI
    rw [hsplit]
    exact List.mem_append_left _ hf
  rw [hsplit, List.filter_append] at htells
  rw [handed_eq, htaken]
  exact says_handed (List.forall₂_take_append _ _ _ htells)

theorem passed_all (hw : 1 ≤ conf'.protW)
    (h : Reach (step cb) anyway (newLink conf conf' ca ca' store que onData) l)
    (hy : ∀ ev ∈ Server.transmitted l.server.log, inCentury ev) (hr : AtRest l) :
    passed l = messages l.server.log := by
  have hlen := (tells_run hw h hy).length_eq
  rw [← downward_all hw h hr] at hlen
  exact List.take_of_length_le (Nat.le_of_eq hlen)

end

/-- In every run: the object lists handed to `on_data` are, one for one and in order, the images
    of the first messages the server has written, and at rest of all of them. -/
theorem reported (cb : Callbacks σ) (conf conf' : Conf) (ca ca' : Int) (store : σ) (que : List IecEvent)
    (hw : 1 ≤ conf'.protW) (l : Stations σ)
    (h : Reach (step cb) anyway (newLink conf conf' ca ca' store que true) l)
    (hy : ∀ ev ∈ Server.transmitted l.server.log, inCentury ev) :
    ∃ ms, ms <+: messages l.server.log ∧ List.Forall₂ (Says ca ca') ms (handed l.client.log) ∧
      (AtRest l → ms = messages l.server.log) :=
  ⟨passed l, List.take_prefix _ _, says_run hw h hy, passed_all hw h hy⟩

theorem reported_sendValue : ∃ (l : Stations Unit) (ms : List Message), (handed l.client.log).length = 1 ∧
    ms = messages l.server.log ∧ List.Forall₂ (Says 1 1) ms (handed l.client.log) := by
  have hrun : (run (step emptyStation) newStations (startdt ++ sendValue)).map (fun l =>
      (decide (AtRest l), (handed l.client.log).length, Server.transmitted l.server.log)) =
        some (true, 1, [point 1 45 1]) := by decide
  obtain ⟨l, hr, hl⟩ := exists_of_run _ hrun
  simp only [Prod.mk.injEq, decide_eq_true_eq] at hl
  obtain ⟨hrest, hlen, hevents⟩ := hl
  obtain ⟨ms, -, hsays, hall⟩ := reported emptyStation windowsOfTwo windowsOfTwo 1 1 () [] (by decide) l hr (by
    rw [hevents]
    unfold inCentury
    decide)
  exact ⟨l, ms, hlen, hall hrest, hsays⟩

end Drv60870.Link
