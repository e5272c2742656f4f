/-
  Drv60870.Link.Archived — from the server's queue to the client's history file.

  `setup_bus` subscribes the history writer to the bus without a filter, and `on_data` is
  `bus.publish`. `record` is the file after these publications, whatever the other subscribers
  and the clock do at each of them.

  Proved, with transmitted events of the years 2000 to 2127:
  - In every run the file has, behind what was in it, one line for each entry of the first
    messages the server has written, in their order, and at rest of all of them; a confirmed
    interrogation has its line too (`archived`). The line of an event has its own time and
    IV flag if its type has a time tag (`TellsEvent`), the client's clock otherwise.
  - The writer on objects that have a line each returns (`write_lined`): the times that the
    server sends are all valid, so the exception that a bad one raises there is never raised.
-/

import Drv60870.Client.HistoryWriter
import Drv60870.Link.Reported

namespace Drv60870.Link

open Lib.Octets Lib.Str Lib.Calendar Lib.Python Lib.Runs Drv60870.Const Protocol Stations EventBus Client

variable {σ : Type} {cb : Callbacks σ}

/-! ## The file -/

/-- The writer's file after these publications, from the `i`-th on; `raises i` and `utcnow i` are
    what the other subscribers and the clock do at the `i`-th. -/
def record {H K : Type} (bus : Bus H K) (id : Nat) (raises : Nat → Nat → Bool) (str : Option Val → Text)
    (utcnow : Nat → Nat → Datetime) (session : String) : Nat → List (List Obj) → History → History
  | _, [], file => file
  | i, objects :: later, file =>
    record bus id raises str utcnow session (i + 1) later
      (archive bus id (raises i) str (utcnow i) session objects file).1

/-! ## Lines -/

/-- What a message has a line for: an event, or `none` for the confirmation. -/
def Message.entries : Message → List (Option IecEvent)
  | .report batch => batch.map some
  | .confirmation => [none]

/-- The text of a time that the client's clock gave. -/
def FromClock (utcnow : Nat → Nat → Datetime) (ts : Text) : Prop := ∃ i k, ts = (utcnow i k).strftime.take 23

/-- The line of an event: with its own time, cut to milliseconds, if its type has one. -/
structure TellsEvent (utcnow : Nat → Nat → Datetime) (session : String) (ev : IecEvent) (r : Row) : Prop where
  session : r.session = session
  ioa : r.ioa = ev.ioa
  asdu : r.asdu = ev.asdu
  value : ∃ d, encVal ev.asdu ev = .ok (some d) ∧ decVal ev.asdu d = .ok (r.val, r.q)
  cot : (r.cot : Int) = ev.cot
  time : ev.asdu ∈ tsTypes → r.ts = ev.ts.truncMs.strftime.take 23 ∧ r.iv = ev.iv.toNat
  noTime : ev.asdu ∉ tsTypes → FromClock utcnow r.ts ∧ r.iv = 0

def Lined (str : Option Val → Text) (utcnow : Nat → Nat → Datetime) (session : String) (e : Option IecEvent)
    (line : Text) : Prop :=
  ∃ r : Row, line = r.text str ∧
    match e with
    | some ev => TellsEvent utcnow session ev r
    | none => FromClock utcnow r.ts ∧ r.session = session ∧ r.ioa = 0 ∧ r.asdu = 100 ∧ r.val = some (.int 20) ∧
        r.q = 0 ∧ r.cot = 7 ∧ r.iv = 0

section Writer

variable (str : Option Val → Text) (utcnow : Nat → Nat → Datetime) (session : String)

theorem lined_event {ca : Int} {ev : IecEvent} {o : Obj} (h : Server.EventImage ca ev o) (i k : Nat) :
    ∃ iv, intIv o.iv = some iv ∧
      Lined str utcnow session (some ev) ((rowOf (utcnow i k) session o iv).text str) := by
  by_cases ht : ev.asdu ∈ tsTypes
  · obtain ⟨hts, hiv⟩ := h.time ht
    refine ⟨ev.iv.toNat, by rw [hiv]; rfl, _, rfl, ⟨rfl, h.ioa, h.typeId, h.value, h.cot, fun _ => ⟨?_, rfl⟩,
      fun hn => absurd ht hn⟩⟩
    simp only [rowOf, hts, Option.getD_some]
  · obtain ⟨hts, hiv⟩ := h.noTime ht
    refine ⟨0, by rw [hiv]; rfl, _, rfl, ⟨rfl, h.ioa, h.typeId, h.value, h.cot, fun hn => absurd hn ht,
      fun _ => ⟨⟨i, k, ?_⟩, rfl⟩⟩⟩
    simp only [rowOf, hts, Option.getD_none]

theorem write_lined {es : List (Option IecEvent)} {objs : List Obj} (i : Nat)
    (h : List.Forall₂ (fun e o => ∀ k, ∃ iv, intIv o.iv = some iv ∧
      Lined str utcnow session e ((rowOf (utcnow i k) session o iv).text str)) es objs) :
    ∀ (k : Nat) (file : History), ∃ lines, (write str (utcnow i) session k objs file).1 = file ++ lines ∧
      List.Forall₂ (Lined str utcnow session) es lines := by
  induction h with
  | nil => exact fun k file => ⟨[], (List.append_nil _).symm, .nil⟩
  | @cons e o es objs he _ ih =>
    intro k file
    obtain ⟨iv, hiv, hline⟩ := he k
    obtain ⟨lines, hfile, hall⟩ := ih (k + 1) (file ++ [(rowOf (utcnow i k) session o iv).text str])
    refine ⟨(rowOf (utcnow i k) session o iv).text str :: lines, ?_, .cons hline hall⟩
    rw [write, hiv, List.append_cons]
    exact hfile

theorem write_message {ca ca' : Int} {m : Message} {objs : List Obj} (h : Says ca ca' m objs) (i : Nat)
    (file : History) : ∃ lines, (write str (utcnow i) session 0 objs file).1 = file ++ lines ∧
      List.Forall₂ (Lined str utcnow session) m.entries lines := by
  cases m with
  | report batch =>
    refine write_lined str utcnow session i ?_ 0 file
    rw [Message.entries, List.forall₂_map_left_iff]
    exact h.imp fun ev o hev k => lined_event str utcnow session hev i k
  | confirmation =>
    cases h
    exact ⟨_, rfl, .cons ⟨_, rfl, ⟨i, 0, rfl⟩, rfl, rfl, rfl, rfl, rfl, rfl, rfl⟩ .nil⟩

theorem record_lined {H K : Type} {bus : Bus H K} {id : Nat} {sub : Sub H K} (hsub : bus.subs.get id = some sub)
    (hall : sub.ioaSet = none) (raises : Nat → Nat → Bool) {ca ca' : Int} {ms : List Message}
    {os : List (List Obj)} (h : List.Forall₂ (Says ca ca') ms os) :
    ∀ (i : Nat) (file : History), ∃ lines, record bus id raises str utcnow session i os file = file ++ lines ∧
      List.Forall₂ (Lined str utcnow session) (ms.flatMap Message.entries) lines := by
  induction h with
  | nil => exact fun i file => ⟨[], (List.append_nil _).symm, .nil⟩
  | @cons m objs ms os hm _ ih =>
    intro i file
    obtain ⟨lines, hfile, hlines⟩ := write_message str utcnow session hm i file
    obtain ⟨later, hlater, hrest⟩ := ih (i + 1) (file ++ lines)
    refine ⟨lines ++ later, ?_, ?_⟩
    · rw [record, archive_eq str (utcnow i) session hsub hall (raises i) objs file, hfile, hlater, List.append_assoc]
    · rw [List.flatMap_cons]
      exact List.rel_append hlines hrest

end Writer

/-- In every run of the two stations, with the history writer subscribed to the bus without a filter,
    whatever the other subscribers do: the file has a line for each entry of the first messages of the
    server, in order, and nothing else behind what it was opened with; at rest of all messages. -/
theorem archived {H K : Type} (cb : Callbacks σ) (conf conf' : Conf) (ca ca' : Int) (store : σ) (que : List IecEvent)
    (hw : 1 ≤ conf'.protW) (bus : Bus H K) (id : Nat) (sub : Sub H K) (hsub : bus.subs.get id = some sub)
    (hall : sub.ioaSet = none) (raises : Nat → Nat → Bool) (str : Option Val → Text)
    (utcnow : Nat → Nat → Datetime) (session : String) (file : History) (l : Stations σ)
    (h : Reach (step cb) anyway (newLink conf conf' ca ca' store que true) l)
    (hy : ∀ ev ∈ Server.transmitted l.server.log, inCentury ev) :
    ∃ ms lines, ms <+: messages l.server.log ∧
      record bus id raises str utcnow session 0 (handed l.client.log) (openHistory file) = openHistory file ++ lines ∧
      List.Forall₂ (Lined str utcnow session) (ms.flatMap Message.entries) lines ∧
      (AtRest l → ms = messages l.server.log) := by
  obtain ⟨lines, hfile, hlines⟩ :=
    record_lined str utcnow session hsub hall raises (says_run hw h hy) 0 (openHistory file)
  exact ⟨passed l, lines, List.take_prefix _ _, hfile, hlines, passed_all hw h hy⟩

theorem archived_sendValue : ∃ (l : Stations Unit) (lines : List Text), lines.length = 1 ∧
    record recordingBus 1 (fun _ _ => false) strInt (fun _ _ => sampleTime) "PU_1" 0 (handed l.client.log)
      (openHistory []) = header :: lines := by
  have hrun : (run (step emptyStation) newStations (startdt ++ sendValue)).map (fun l =>
      (decide (AtRest l), Server.transmitted l.server.log, (messages l.server.log).flatMap Message.entries)) =
        some (true, [point 1 45 1], [some (point 1 45 1)]) := by decide
  obtain ⟨l, hr, hl⟩ := exists_of_run _ hrun
  simp only [Prod.mk.injEq, decide_eq_true_eq] at hl
  obtain ⟨hrest, hevents, hentries⟩ := hl
  obtain ⟨ms, lines, -, hfile, hlines, hms⟩ := archived emptyStation windowsOfTwo windowsOfTwo 1 1 () [] (by decide)
    recordingBus 1 ⟨"history", none, (), some ()⟩ rfl rfl (fun _ _ => false) strInt (fun _ _ => sampleTime) "PU_1" [] l
    hr (by
      rw [hevents]
      unfold inCentury
      decide)
  rw [hms hrest, hentries] at hlines
  exact ⟨l, lines, hlines.length_eq.symm, hfile⟩

end Drv60870.Link
