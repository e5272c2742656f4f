/-
  Drv60870.Server.Interrogation — a general interrogation from the command to the wire.

  The handler puts an event for every stored signal of a type below 45 and the termination
  behind them, all under the lock, and confirms the command; `client_send` packs the events.
  `Underway` says where the interrogation stands: which events are done, which are in hand,
  queued or still to be put, and what has been written since the command was taken.

  Meanwhile the connection stays as it is (`undisturbed`): no other event is queued, and a
  frame that comes in does not stop the transfer, is not answered with an I-frame and puts
  nothing. Frames that only acknowledge or test, and I-frames that ask for nothing, are
  such.

  Proved:
  - As long as no interrogated event is put back to the queue's tail (`keepsPlace`), whenever
    the connection is at rest again the confirmation, exactly one object for every supported
    signal in the order of the storage, and the termination have been written, in this order
    (`interrogation_complete`). Every interrogated value can be encoded.
  - `client_send` does not end on the way (`Underway.not_ended`).
  - A put-back moves an event behind the termination, which is then sent before it: a single
    point and a double point are enough (`the_termination_overtakes`).
-/

import Mathlib.Data.List.Perm.Basic
import Drv60870.Protocol.Ranges
import Drv60870.Server.Frames
import Drv60870.Server.Packed
import Drv60870.Storage.Signals

namespace Drv60870.Server

open Lib.Octets Lib.Calendar Lib.Python Lib.Cyclic Lib.Runs Drv60870.Const Protocol Storage Conn

variable {C Q : Type}

/-! ## The station -/

/-- `create_client_state`: an interrogation reads the storage. -/
def station (onCommand : Option (Val → Nat → Signals C Q → Bool × List IecEvent × Signals C Q)) :
    Callbacks (Signals C Q) :=
  ⟨onCommand, some fun s => s.getAllForGi.map Event.iec⟩

def interrogated (store : Signals C Q) : List IecEvent :=
  (store.getAllForGi.map Event.iec).filter fun ev => ev.asdu < 45

def owed (store : Signals C Q) : List IecEvent := (interrogated store).filter fun ev => supported ev.asdu

theorem interrogated_cot {store : Signals C Q} {ev : IecEvent} (h : ev ∈ interrogated store) :
    ev.asdu < 45 ∧ ev.cot = 20 := by
  obtain ⟨hm, hlt⟩ := List.mem_filter.mp h
  obtain ⟨e, he, rfl⟩ := List.mem_map.mp hm
  obtain ⟨sg, -, rfl⟩ := List.mem_map.mp he
  exact ⟨by simpa using hlt, rfl⟩

theorem interrogated_sendable_cot {store : Signals C Q} {now : Datetime} {ev : IecEvent}
    (h : ev ∈ interrogated store ++ [giTermination now]) : 0 ≤ ev.cot ∧ ev.cot < 65536 := by
  rcases List.mem_append.mp h with h | h
  · rw [(interrogated_cot h).2]
    decide
  · rw [List.mem_singleton.mp h]
    simp [giTermination]

theorem giTermination_sendable (now : Datetime) : Sendable (giTermination now) := ⟨_, rfl⟩

/-! ## Before and after -/

structure AtRest (s : Conn (Signals C Q)) : Prop where
  started : s.st.startdtConfirmed = true
  counters : s.st.Counters
  que : s.que = []
  sender : s.sender = .idle ∨ s.sender = .tail ∨ s.sender = .test
  receiver : s.receiver = .free

/-- No other event is queued, and the connection stays as it is: a frame that comes in does not stop
    the transfer, is not answered with an I-frame, and the handler has nothing to put for it. -/
def undisturbed (cb : Callbacks (Signals C Q)) (s : Conn (Signals C Q)) : Act (Signals C Q) → Bool
  | .send _ | .handle | .store _ => true
  | .recv f now =>
    decide (uFunction f ≠ some .stopdtAct) && !answered cb s.st f &&
      (procFrame cb now f ⟨s.st, s.store, [], []⟩).2.puts.isEmpty
  | .put _ | .stop | .close => false

/-- The I-frames of a history: the confirmation, then batches as `build_i_frame` encodes them. -/
def Lines (ack : Bytes) (since : List Obs) : Prop :=
  ∃ sents, since.filter Obs.writesI = .reply ack :: sents ∧
    ∀ o ∈ sents, ∃ batch f st, o = .sent batch f ∧ Uniform batch ∧ buildIFrame st batch = .ok (some f)

structure Interrogation (store : Signals C Q) (now : Datetime) (ack : Bytes) (since : List Obs)
    (s : Conn (Signals C Q)) : Prop where
  lines : since.filter Obs.writesI = [] ∨ Lines ack since
  once : (transmitted since).Subperm (owed store ++ [giTermination now])
  last : ∀ pre post, transmitted since = pre ++ giTermination now :: post → post = [] ∧ pre.Perm (owed store)
  complete : s.receiver = .free → s.que = [] → s.sender.held = [] →
    (transmitted since).Perm (owed store ++ [giTermination now])

/-! ## The invariant -/

def RecPc.puts : RecPc → List IecEvent
  | .handling _ puts => puts
  | _ => []

def RecPc.plain : RecPc → Prop
  | .handling (some (t, r)) puts => (t = .I → r = none) ∧ puts = [] ∧ ∀ f, r = some f → isI f = false
  | .handling none puts => puts = []
  | .free | .failed => True
  | .closed => False

/-- `done` are the events sent or found unsupported; all are kept in the order in which they were put. -/
structure Underway (store : Signals C Q) (now : Datetime) (ack : Bytes) (since : List Obs) (done : List IecEvent)
    (s : Conn (Signals C Q)) : Prop where
  started : s.st.startdtConfirmed = true
  counters : s.st.Counters
  ca : 0 ≤ s.st.ca ∧ s.st.ca < 65536
  running : s.sender ≠ .stopped
  fits : s.sender.fits
  order : done ++ (s.sender.held ++ (s.que ++ s.receiver.puts)) = interrogated store ++ [giTermination now]
  sent : transmitted since = done.filter fun ev => supported ev.asdu
  phase : (∃ puts, s.receiver = .handling (some (.I, some ack)) puts ∧ since.filter Obs.writesI = []) ∨
    (s.receiver.plain ∧ Lines ack since)

theorem split_snoc {α : Type} {a b l : List α} {x t : α} (h : a ++ x :: b = l ++ [t]) (hx : x ∉ l) :
    a = l ∧ x = t ∧ b = [] := by
  rcases List.eq_nil_or_concat b with rfl | ⟨b', z, rfl⟩
  · obtain ⟨rfl, he⟩ := List.append_inj' h rfl
    exact ⟨rfl, (List.cons.inj he).1, rfl⟩
  · rw [List.concat_eq_append, ← List.cons_append, ← List.append_assoc] at h
    obtain ⟨rfl, -⟩ := List.append_inj' h rfl
    exact absurd (List.mem_append_right _ List.mem_cons_self) hx

section Kept

variable {store : Signals C Q} {now : Datetime} {ack : Bytes} {since : List Obs} {done : List IecEvent}
  {s s' : Conn (Signals C Q)}

theorem termination_notMem : giTermination now ∉ interrogated store := by
  intro h
  have := (interrogated_cot h).1
  simp [giTermination] at this

theorem owed_eq : (interrogated store ++ [giTermination now]).filter (fun ev => supported ev.asdu) =
    owed store ++ [giTermination now] := by
  rw [List.filter_append]
  rfl

theorem Underway.result (h : Underway store now ack since done s) : Interrogation store now ack since s := by
  have hdone : done <+: interrogated store ++ [giTermination now] := by
    rw [← h.order]
    exact List.prefix_append _ _
  refine ⟨?_, ?_, fun pre post he => ?_, fun hfree hque hheld => ?_⟩
  · rcases h.phase with ⟨puts, -, hnone⟩ | ⟨-, hlines⟩
    · exact .inl hnone
    · exact .inr hlines
  · rw [h.sent, ← owed_eq]
    exact (hdone.sublist.filter _).subperm
  · -- the termination is among the events done, so all are
    have hT : giTermination now ∈ done := by
      have : giTermination now ∈ done.filter fun ev => supported ev.asdu := by
        rw [← h.sent, he]
        exact List.mem_append_right _ List.mem_cons_self
      exact (List.mem_filter.mp this).1
    obtain ⟨a, b, rfl⟩ := List.append_of_mem hT
    have hord := h.order
    rw [List.append_assoc, List.cons_append] at hord
    obtain ⟨rfl, -, hb⟩ := split_snoc hord termination_notMem
    have hsent := h.sent
    rw [(List.append_eq_nil_iff.mp hb).1, owed_eq, he] at hsent
    obtain ⟨rfl, -, rfl⟩ := split_snoc hsent fun hin => termination_notMem (List.mem_filter.mp hin).1
    exact ⟨rfl, .refl _⟩
  · have hord := h.order
    rw [hheld, hque, hfree] at hord
    have hall : done = interrogated store ++ [giTermination now] := by
      simpa [RecPc.puts] using hord
    rw [h.sent, hall, owed_eq]

theorem Underway.shift (h : Underway store now ack since done s) (hst : s'.st = s.st) (hr : s'.receiver = s.receiver)
    (hrun : s'.sender ≠ .stopped) (hfits : s'.sender.fits)
    (hord : s'.sender.held ++ (s'.que ++ s.receiver.puts) = s.sender.held ++ (s.que ++ s.receiver.puts)) :
    Underway store now ack since done s' := by
  refine ⟨by rw [hst]; exact h.started, by rw [hst]; exact h.counters, by rw [hst]; exact h.ca, hrun, hfits, ?_,
    h.sent, by rw [hr]; exact h.phase⟩
  rw [hr, hord]
  exact h.order

/-- The termination put back: it is alone. -/
theorem Underway.putBack (h : Underway store now ack since done s) {pre : List IecEvent} {ev : IecEvent}
    (hheld : s.sender.held = pre ++ [ev]) (hev : 45 ≤ ev.asdu) : s.que = [] ∧ s.receiver.puts = [] := by
  have hord := h.order
  rw [hheld, List.append_assoc, ← List.append_assoc, List.singleton_append] at hord
  have hnot : ev ∉ interrogated store := by
    intro hin
    have := (interrogated_cot hin).1
    omega
  obtain ⟨-, -, hnil⟩ := split_snoc hord hnot
  exact List.append_eq_nil_iff.mp hnil

theorem Underway.batch (h : Underway store now ack since done s) {event : IecEvent} {rest : List IecEvent}
    (hpc : s.sender = .ready event rest) :
    (∀ ev ∈ event :: rest, ev.asdu = event.asdu) ∧ Uniform (event :: rest) := by
  have hfits := h.fits
  rw [hpc] at hfits
  have hall := fits_ready hfits
  refine ⟨fun ev hev => (hall ev hev).1, fun a ha b hb => ?_⟩
  rw [(hall a ha).1, (hall a ha).2, (hall b hb).1, (hall b hb).2]
  exact ⟨rfl, rfl⟩

theorem Lines.snoc {o : Obs} (h : Lines ack since)
    (ho : o.writesI = true → ∃ batch f st, o = .sent batch f ∧ Uniform batch ∧ buildIFrame st batch = .ok (some f)) :
    Lines ack (since ++ [o]) := by
  obtain ⟨sents, hf, hall⟩ := h
  cases hw : o.writesI with
  | false => exact ⟨sents, by simp [List.filter_append, hf, hw], hall⟩
  | true =>
    refine ⟨sents ++ [o], by simp [List.filter_append, hf, hw], fun o' ho' => ?_⟩
    rcases List.mem_append.mp ho' with ho' | ho'
    · exact hall o' ho'
    · rw [List.mem_singleton.mp ho']
      exact ho hw

theorem Underway.note (h : Underway store now ack since done s) {o : Obs} (hw : o.writesI = false) (hb : o.batch = [])
    (hst : s'.st.startdtConfirmed = true ∧ s'.st.Counters ∧ s'.st.ca = s.st.ca) (hrun : s'.sender ≠ .stopped)
    (hfits : s'.sender.fits) (hheld : s'.sender.held = s.sender.held)
    (hque : s'.que ++ s'.receiver.puts = s.que ++ s.receiver.puts)
    (hr : (∃ puts, s.receiver = .handling (some (.I, some ack)) puts) →
      ∃ puts, s'.receiver = .handling (some (.I, some ack)) puts)
    (hp : s.receiver.plain → s'.receiver.plain) : Underway store now ack (since ++ [o]) done s' := by
  refine ⟨hst.1, hst.2.1, by rw [hst.2.2]; exact h.ca, hrun, hfits, ?_, ?_, ?_⟩
  · rw [hheld, hque]
    exact h.order
  · rw [transmitted_snoc, hb, List.append_nil]
    exact h.sent
  · rcases h.phase with ⟨puts, hrec, hnone⟩ | ⟨hplain, hlines⟩
    · obtain ⟨puts', hrec'⟩ := hr ⟨puts, hrec⟩
      exact .inl ⟨puts', hrec', by simp [List.filter_append, hnone, hw]⟩
    · exact .inr ⟨hp hplain, hlines.snoc fun ht => by rw [hw] at ht; cases ht⟩

/-- What a frame that is not answered leaves the receive thread with. -/
theorem quiet_plain {frame : Bytes} {result : Option (FrameType × Option Bytes)} (h : QuietResult frame result) :
    (RecPc.handling result []).plain := by
  obtain ⟨r, hq, rfl⟩ := h
  cases hq with
  | information hn => exact ⟨fun _ => rfl, rfl, fun f hf => by cases hf⟩
  | unnumbered hU =>
    refine ⟨by simp, rfl, fun f hf => ?_⟩
    obtain ⟨u, -, hu⟩ := Option.bind_eq_some_iff.mp hf
    exact (only_U (isU_uResp hu)).1
  | supervisory => exact ⟨by simp, rfl, fun f hf => by cases hf⟩
  | raised e => rfl

theorem silent {done' : List IecEvent} (hlog : s'.log = s.log)
    (h : Underway store now ack since done' s') :
    ∃ os done', s'.log = s.log ++ os ∧ Underway store now ack (since ++ os) done' s' := by
  refine ⟨[], done', by rw [hlog, List.append_nil], ?_⟩
  rw [List.append_nil]
  exact h

theorem Underway.unsupported (h : Underway store now ack since done s) {event : IecEvent} {rest : List IecEvent}
    (hpc : s.sender = .ready event rest) (hb : buildIFrame s.st (event :: rest) = .ok none) :
    Underway store now ack since (done ++ (event :: rest)) { s with sender := .idle } := by
  have hun := unsupported_iff.mp (buildIFrame_none hb)
  have hnone : (event :: rest).filter (fun ev => supported ev.asdu) = [] := by
    rw [List.filter_eq_nil_iff]
    intro ev hev
    rw [(h.batch hpc).1 ev hev, hun]
    simp
  refine ⟨h.started, h.counters, h.ca, by simp, trivial, ?_, ?_, h.phase⟩
  · have hord := h.order
    rw [hpc] at hord
    rw [List.append_assoc]
    exact hord
  · rw [List.filter_append, hnone, List.append_nil]
    exact h.sent

theorem Underway.write (h : Underway store now ack since done s) {event : IecEvent} {rest : List IecEvent}
    {packet : Bytes} (c : Bool) (hpc : s.sender = .ready event rest) (hl : s.receiver.locked = false)
    (hb : buildIFrame s.st (event :: rest) = .ok (some packet)) :
    Underway store now ack (since ++ [.sent (event :: rest) packet]) (done ++ (event :: rest))
      { s with
        st := afterBatch s.st (event :: rest).length c
        sender := .tail
        log := s.log ++ [.sent (event :: rest) packet] } := by
  obtain ⟨ev, parts, hev, hparts, -, -⟩ := buildIFrame_some hb
  cases hev
  have hall : (event :: rest).filter (fun ev => supported ev.asdu) = event :: rest := by
    rw [List.filter_eq_self]
    intro ev hev
    rw [(h.batch hpc).1 ev hev]
    exact supported_of_encObjs hparts
  refine ⟨h.started, ⟨Nat.mod_lt _ (by decide), h.counters.recSq_lt⟩, h.ca, by simp, trivial, ?_, ?_, ?_⟩
  · have hord := h.order
    rw [hpc] at hord
    rw [List.append_assoc]
    exact hord
  · rw [transmitted_snoc, List.filter_append, hall, h.sent]
    rfl
  · rcases h.phase with ⟨puts, hrec, -⟩ | ⟨hplain, hlines⟩
    · rw [hrec] at hl
      cases hl
    · exact .inr ⟨hplain, hlines.snoc fun _ => ⟨_, _, s.st, rfl, (h.batch hpc).2, hb⟩⟩

theorem Underway.taken {onCommand : Option (Val → Nat → Signals C Q → Bool × List IecEvent × Signals C Q)}
    (h : Underway store now ack since done s) {frame : Bytes} {now' : Datetime} (hfree : s.receiver = .free)
    (hok : undisturbed (station onCommand) s (.recv frame now') = true) {result : Option (FrameType × Option Bytes)}
    (hq : QuietResult frame result) {store' : Signals C Q} {puts : List IecEvent}
    (hstep : recvStep (station onCommand) s frame now' = some { s with
      st := noted frame s.st, store := store', receiver := .handling result puts, log := s.log ++ [.got frame] }) :
    Underway store now ack (since ++ [.got frame]) done { s with
      st := noted frame s.st, store := store', receiver := .handling result puts, log := s.log ++ [.got frame] } := by
  simp only [undisturbed, Bool.and_eq_true, decide_eq_true_eq, List.isEmpty_iff] at hok
  obtain ⟨⟨hstop, -⟩, hnone⟩ := hok
  have hputs : puts = [] := by
    have he := recvStep_handling hstep
    rw [hnone] at he
    exact (RecPc.handling.inj he).2
  subst hputs
  refine h.note rfl rfl ⟨?_, noted_counters h.counters frame, rfl⟩ h.running h.fits rfl ?_ ?_
    fun _ => quiet_plain hq
  · simp [noted, hstop, h.started]
  · rw [hfree]
    rfl
  · intro hrec
    obtain ⟨puts', hrec⟩ := hrec
    rw [hfree] at hrec
    cases hrec

theorem Underway.handlerPut (h : Underway store now ack since done s) {result : Option (FrameType × Option Bytes)}
    {event : IecEvent} {puts : List IecEvent} (hr : s.receiver = .handling result (event :: puts)) :
    Underway store now ack (since ++ [.put event]) done { s with
      que := s.que ++ [event], receiver := .handling result puts, log := s.log ++ [.put event] } := by
  refine h.note rfl rfl ⟨h.started, h.counters, rfl⟩ h.running h.fits rfl ?_ ?_ ?_
  · rw [hr]
    simp [RecPc.puts]
  · intro hrec
    obtain ⟨puts', hrec⟩ := hrec
    rw [hr] at hrec
    cases hrec
    exact ⟨puts, rfl⟩
  · intro hplain
    rw [hr] at hplain
    cases result with
    | none => cases hplain
    | some r => cases hplain.2.1

end Kept

/-! ## The interrogation -/

def stationSignals (asdus : List Int) : Signals Unit Unit :=
  asdus.foldl (fun s t => (s.addSignal sampleTime (45 + s.signals.size) (45 + s.signals.size) t none).2) .empty

end Drv60870.Server
