/-
  Drv60870.Server.Frames — the frames a connection writes and takes.

  Whatever it writes is a whole frame, so the peer can cut it off the stream again, and
  `lastAckNr` is the last `N(R)` taken (`framed_move`).
-/

import Drv60870.Server.ConnProofs

namespace Drv60870.Server

open Lib.Octets Lib.Calendar Lib.Runs Drv60870.Const Protocol Conn

variable {σ : Type} {cb : Callbacks σ}

def Obs.taken : Obs → Option Bytes
  | .got f => some f
  | _ => none

def written (log : List Obs) : List Bytes := log.filterMap Obs.written
def taken (log : List Obs) : List Bytes := log.filterMap Obs.taken

theorem written_append (log os : List Obs) : written (log ++ os) = written log ++ written os := List.filterMap_append
theorem taken_append (log os : List Obs) : taken (log ++ os) = taken log ++ taken os := List.filterMap_append

theorem iWritten_eq (log : List Obs) : iWritten log = (written log).countP isI := by
  rw [written, List.countP_filterMap]
  rfl

theorem iTaken_countP (log : List Obs) : iTaken log = (taken log).countP numberedI := by
  rw [taken, List.countP_filterMap]
  refine List.countP_congr fun o _ => ?_
  cases o <;> rfl

def Act.takes : Act σ → List Bytes
  | .recv f _ => [f]
  | _ => []

theorem Move.log {s s' : Conn σ} {a : Act σ} (hm : Move cb s a s') :
    ∃ os, s'.log = s.log ++ os ∧ taken os = a.takes := by
  cases hm with
  | put event => exact ⟨[.put event], rfl, rfl⟩
  | write c event rest packet => exact ⟨[.sent (event :: rest) packet], rfl, rfl⟩
  | testfr => exact ⟨[.sent [] testfrAct], rfl, rfl⟩
  | answer frame | take frame => exact ⟨[.got frame], rfl, rfl⟩
  | handlerPut result event => exact ⟨[.put event], rfl, rfl⟩
  | reply fType response => exact ⟨[.reply response], rfl, rfl⟩
  | sFrame => exact ⟨[.reply (Protocol.sFrame s.st.recSq)], rfl, rfl⟩
  | _ => exact ⟨[], (List.append_nil _).symm, rfl⟩

theorem Move.closed {s s' : Conn σ} {a : Act σ} (hm : Move cb s a s') (h : s.receiver = .closed) :
    s'.receiver = .closed := by
  cases hm with
  | answer frame now store puts hfree | take frame now store puts result hfree =>
    rw [hfree] at h
    cases h
  | handlerPut result event puts hr | raised result hr | reply fType response hr | sFrame hr | counted hr
  | done fType hr =>
    rw [hr] at h
    cases h
  | close => rfl
  | _ => exact h

theorem Move.conf {s s' : Conn σ} {a : Act σ} (hm : Move cb s a s') : s'.st.conf = s.st.conf := by
  cases hm with
  | _ => rfl

theorem Move.ca {s s' : Conn σ} {a : Act σ} (hm : Move cb s a s') : s'.st.ca = s.st.ca := by
  cases hm with
  | _ => rfl

structure Framed (s : Conn σ) : Prop where
  whole : ∀ f ∈ written s.log, Whole f
  reply : ∀ t f puts, s.receiver = .handling (some (t, some f)) puts → Whole f
  lastAck : s.st.lastAckNr = lastNr (taken s.log)

theorem whole_uResp {u : UTypeId} {f : Bytes} (h : uResp u = some f) : Whole f := by
  cases u <;> cases h <;> exact ⟨by decide, by decide⟩

/-- An answer is no longer than the frame it answers. -/
theorem whole_ack (ns nr : Nat) {f : Bytes} (h : IsFrame f) : Whole (iFrame ns nr (ackAsdu f)) := by
  obtain ⟨-, l, -, hl⟩ := h
  have hlt := l.toNat_lt
  apply whole_iFrame ns nr
  simp only [ackAsdu, List.length_set, List.length_drop]
  omega

theorem Framed.writes {s s' : Conn σ} (h : Framed s) (ha : s'.st.lastAckNr = s.st.lastAckNr) {o : Obs}
    (hlog : s'.log = s.log ++ [o]) (ht : o.taken = none) (hw : ∀ f, o.written = some f → Whole f)
    (hr : ∀ t f puts, s'.receiver = .handling (some (t, some f)) puts → Whole f) : Framed s' := by
  refine ⟨?_, hr, ?_⟩
  · intro f hf
    rw [hlog, written_append] at hf
    rcases List.mem_append.mp hf with hf | hf
    · exact h.whole f hf
    · obtain ⟨o', ho', he⟩ := List.mem_filterMap.mp hf
      cases List.mem_singleton.mp ho'
      exact hw f he
  · rw [ha, hlog, taken_append, h.lastAck]
    simp [taken, ht]

theorem Framed.takes {s s' : Conn σ} (h : Framed s) {f : Bytes} (ha : s'.st.lastAckNr = (noted f s.st).lastAckNr)
    (hlog : s'.log = s.log ++ [.got f])
    (hr : ∀ t g puts, s'.receiver = .handling (some (t, some g)) puts → Whole g) : Framed s' := by
  refine ⟨?_, hr, ?_⟩
  · intro g hg
    rw [hlog, written_append, show written [.got f] = [] from rfl, List.append_nil] at hg
    exact h.whole g hg
  · rw [ha, hlog, taken_append, show taken [.got f] = [f] from rfl, lastNr_snoc, ← h.lastAck]
    rfl

theorem framed_move {s s' : Conn σ} {a : Act σ} (h : Framed s) (hm : Move cb s a s') : Framed s' := by
  cases hm with
  | put event => exact h.writes rfl rfl rfl (fun f hf => by cases hf) h.reply
  | store | stop | timeout | get | discard | enable | block | pass | putBack | pack | miss | packed | putBackNext
  | unsupported | ended | keep => exact ⟨h.whole, h.reply, h.lastAck⟩
  | write c event rest packet hpc hl hb =>
    refine h.writes rfl rfl rfl (fun f hf => ?_) h.reply
    obtain ⟨ev, parts, -, -, hlen, rfl⟩ := buildIFrame_some hb
    cases hf
    exact whole_iFrame _ _ (by rw [length_asduBytes]; omega)
  | testfr c hpc =>
    refine h.writes rfl rfl rfl (fun f hf => ?_) h.reply
    cases hf
    exact ⟨by decide, by decide⟩
  | answer frame now store puts hfree hf hn ha =>
    refine h.takes rfl rfl fun t g puts' hr => ?_
    cases hr
    exact whole_ack _ _ hf
  | take frame now store puts result hfree hf hq =>
    refine h.takes rfl rfl fun t g puts' hr => ?_
    cases hr
    obtain ⟨-, -, -, hg⟩ := hq.response
    obtain ⟨u, -, hu⟩ := Option.bind_eq_some_iff.mp hg
    exact whole_uResp hu
  | handlerPut result event puts hr =>
    refine h.writes rfl rfl rfl (fun f hf => by cases hf) fun t g puts' he => ?_
    cases he
    exact h.reply t g _ hr
  | raised result hr => exact ⟨h.whole, fun t g puts he => (by cases he), h.lastAck⟩
  | reply fType response hr =>
    refine h.writes rfl rfl rfl (fun f hf => ?_) fun t g puts he => (by cases he)
    cases hf
    exact h.reply fType response [] hr
  | sFrame hr =>
    refine h.writes rfl rfl rfl (fun f hf => ?_) fun t g puts he => (by cases he)
    cases hf
    exact whole_sFrame _
  | counted hr | done fType hr | close hr => exact ⟨h.whole, fun t g puts he => (by cases he), h.lastAck⟩

/-- Events put before the start write and take nothing. -/
theorem filterMap_puts {α : Type} (f : Obs → Option α) (hf : ∀ ev, f (.put ev) = none) (que : List IecEvent) :
    (que.map Obs.put).filterMap f = [] := by
  rw [List.filterMap_map, List.filterMap_eq_nil_iff]
  intro ev _
  exact hf ev

theorem written_start (st : ClientState) (store : σ) (que : List IecEvent) : written (start st store que).log = [] :=
  filterMap_puts Obs.written (fun _ => rfl) que

theorem taken_start (st : ClientState) (store : σ) (que : List IecEvent) : taken (start st store que).log = [] :=
  filterMap_puts Obs.taken (fun _ => rfl) que

theorem framed_start {st : ClientState} (ha : st.lastAckNr = 0) (store : σ) (que : List IecEvent) :
    Framed (start st store que) := by
  refine ⟨?_, fun t f puts he => (by cases he), ?_⟩
  · rw [written_start]
    intro f hf
    cases hf
  · rw [taken_start]
    exact ha

end Drv60870.Server
