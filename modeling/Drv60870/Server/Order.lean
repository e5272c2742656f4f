/-
  Drv60870.Server.Order — the order of one signal's events on the wire.

  `client_send` takes events from the head of `out_que` and puts back at its tail the one
  that does not fit the batch and the one the window blocks. `Ordered` says what is kept
  meanwhile: per address, what was transmitted, what `client_send` holds and what is queued
  is what was enqueued, in that order.

  Proved:
  - Where STARTDT stays confirmed, every enqueued event can be encoded and none is put back
    while another of its address is queued, each address's events are transmitted in the
    order in which they were enqueued, in every state of the run (`order_kept`). It is
    enough that `client_send` takes no event before STARTDT is confirmed
    (`ordered_move`).
  - A put-back behind events of other addresses changes nothing (`onIoa_putBack`), one behind
    an event of its own address does: the first double point ends the batch of single points,
    and the value that was enqueued last is transmitted first
    (`a_put_back_event_is_overtaken`).
-/

import Drv60870.Server.ConnProofs

namespace Drv60870.Server

open Lib.Octets Lib.Calendar Lib.Python Lib.Runs Drv60870.Const Protocol Conn

variable {σ : Type} {cb : Callbacks σ}

/-! ## Events in the history -/

def Obs.events : Obs → List IecEvent
  | .put ev => [ev]
  | _ => []

def Obs.batch : Obs → List IecEvent
  | .sent batch _ => batch
  | _ => []

def enqueued (log : List Obs) : List IecEvent := log.flatMap Obs.events
def transmitted (log : List Obs) : List IecEvent := log.flatMap Obs.batch

theorem enqueued_snoc (log : List Obs) (o : Obs) : enqueued (log ++ [o]) = enqueued log ++ o.events := by
  simp [enqueued]

theorem transmitted_snoc (log : List Obs) (o : Obs) : transmitted (log ++ [o]) = transmitted log ++ o.batch := by
  simp [transmitted]

theorem enqueued_start (st : ClientState) (store : σ) (que : List IecEvent) :
    enqueued (start st store que).log = que := by
  simp [enqueued, start, List.flatMap_map, Obs.events]

theorem transmitted_start (st : ClientState) (store : σ) (que : List IecEvent) :
    transmitted (start st store que).log = [] := by
  simp [transmitted, start, List.flatMap_map, Obs.batch]

def onIoa (i : Int) (evs : List IecEvent) : List IecEvent := evs.filter fun ev => ev.ioa = i

theorem onIoa_append (i : Int) (a b : List IecEvent) : onIoa i (a ++ b) = onIoa i a ++ onIoa i b :=
  List.filter_append ..

def InOrder (log : List Obs) : Prop := ∀ i, (onIoa i (transmitted log)).Sublist (onIoa i (enqueued log))

def encodable (ev : IecEvent) : Bool :=
  match encObj ev.asdu ev with
  | .ok (some _) => true
  | _ => false

theorem encodable_iff {ev : IecEvent} : encodable ev = true ↔ ∃ b, encObj ev.asdu ev = .ok (some b) := by
  unfold encodable
  split
  · rename_i b hb
    exact ⟨fun _ => ⟨b, hb⟩, fun _ => rfl⟩
  · rename_i hn
    exact ⟨fun h => (by cases h), fun ⟨b, hb⟩ => absurd hb (hn b)⟩

/-! ## The conditions -/

/-- STARTDT stays confirmed and every enqueued event can be encoded. -/
def startedAndEncodable (s : Conn σ) : Act σ → Bool
  | .send _ => s.st.startdtConfirmed
  | .put ev => encodable ev
  | .handle =>
    match s.receiver with
    | .handling _ (ev :: _) => encodable ev
    | _ => true
  | _ => true

/-- `client_send` takes no event before STARTDT is confirmed, and every enqueued event can be encoded. -/
def nothingLost (s : Conn σ) : Act σ → Bool
  | .send _ =>
    match s.sender with
    | .got _ => s.st.startdtConfirmed
    | _ => true
  | a => startedAndEncodable s a

theorem nothingLost_of_started {s : Conn σ} {a : Act σ} (h : startedAndEncodable s a = true) :
    nothingLost s a = true := by
  cases a with
  | send c =>
    simp only [nothingLost]
    split
    · exact h
    · rfl
  | _ => exact h

/-- An event is put back only while no event of its address is queued. -/
def nothingOvertaken (s : Conn σ) : Act σ → Bool
  | .send _ =>
    match s.sender with
    | .blocked event => s.que.all fun ev => ev.ioa ≠ event.ioa
    | .mismatch _ _ nxt => s.que.all fun ev => ev.ioa ≠ nxt.ioa
    | _ => true
  | _ => true

/-! ## The invariant -/

def SendPc.held : SendPc → List IecEvent
  | .got event | .enabled event | .blocked event => [event]
  | .packing event rest | .ready event rest => event :: rest
  | .mismatch event rest nxt => event :: rest ++ [nxt]
  | _ => []

def SendPc.uniform : SendPc → Prop
  | .packing event rest | .ready event rest | .mismatch event rest _ => ∀ ev ∈ rest, ev.asdu = event.asdu
  | _ => True

/-- `lost` is the batch `client_send` ended with. -/
structure Ordered (lost : List IecEvent) (s : Conn σ) : Prop where
  live : s.sender ≠ .stopped → lost = []
  enc : ∀ ev ∈ s.sender.held ++ s.que, encodable ev = true
  uniform : s.sender.uniform
  order : ∀ i, onIoa i (transmitted s.log ++ (lost ++ (s.sender.held ++ s.que))) = onIoa i (enqueued s.log)

theorem Ordered.inOrder {lost : List IecEvent} {s : Conn σ} (h : Ordered lost s) : InOrder s.log := by
  intro i
  rw [← h.order i, onIoa_append]
  exact List.sublist_append_left _ _

/-- A put-back behind events of other addresses. -/
theorem onIoa_putBack {ev : IecEvent} {que : List IecEvent} (h : (que.all fun x => x.ioa ≠ ev.ioa) = true) (i : Int) :
    onIoa i (que ++ [ev]) = onIoa i ([ev] ++ que) := by
  rw [onIoa_append, onIoa_append]
  by_cases hi : ev.ioa = i
  · have hnone : onIoa i que = [] := by
      rw [onIoa, List.filter_eq_nil_iff]
      intro x hx
      have := List.all_eq_true.mp h x hx
      subst hi
      simpa using this
    rw [hnone, List.nil_append, List.append_nil]
  · have hnone : onIoa i [ev] = [] := by simp [onIoa, hi]
    rw [hnone, List.nil_append, List.append_nil]

/-- A batch that begins with an encodable event is never found unsupported. -/
theorem buildIFrame_supported {st : ClientState} {ev : IecEvent} {rest : List IecEvent}
    (henc : encodable ev = true) : buildIFrame st (ev :: rest) ≠ .ok none := by
  intro h
  obtain ⟨b, hb⟩ := encodable_iff.mp henc
  rw [encObj, buildIFrame_none h ev] at hb
  cases hb

theorem ordered_shift {lost : List IecEvent} {s s' : Conn σ} (h : Ordered lost s) (hs : s.sender ≠ .stopped)
    (hlog : s'.log = s.log) (hu : s'.sender.uniform)
    (hq : ∀ ev, ev ∈ s'.sender.held ++ s'.que → ev ∈ s.sender.held ++ s.que)
    (ho : ∀ i, onIoa i (s'.sender.held ++ s'.que) = onIoa i (s.sender.held ++ s.que)) : Ordered [] s' := by
  have hl := h.live hs
  refine ⟨fun _ => rfl, fun ev he => h.enc ev (hq ev he), hu, fun i => ?_⟩
  have hi := h.order i
  rw [hl, List.nil_append, onIoa_append] at hi
  rw [hlog, List.nil_append, onIoa_append, ho i]
  exact hi

theorem ordered_same {lost : List IecEvent} {s s' : Conn σ} (h : Ordered lost s) (hs : s.sender ≠ .stopped)
    (hlog : s'.log = s.log) (hu : s'.sender.uniform)
    (heq : s'.sender.held ++ s'.que = s.sender.held ++ s.que) : Ordered [] s' := by
  apply ordered_shift h hs hlog hu
  · intro ev he
    rw [← heq]
    exact he
  · intro i
    rw [heq]

theorem ordered_put {lost : List IecEvent} {s s' : Conn σ} {ev : IecEvent} (h : Ordered lost s)
    (hev : encodable ev = true) (hs : s'.sender = s.sender) (hq : s'.que = s.que ++ [ev])
    (hlog : s'.log = s.log ++ [.put ev]) : Ordered lost s' := by
  refine ⟨by rw [hs]; exact h.live, ?_, by rw [hs]; exact h.uniform, fun i => ?_⟩
  · intro e he
    rw [hs, hq, ← List.append_assoc] at he
    rcases List.mem_append.mp he with he | he
    · exact h.enc e he
    · rw [List.mem_singleton.mp he]
      exact hev
  · have hi := h.order i
    rw [hs, hq, hlog, transmitted_snoc, enqueued_snoc, onIoa_append i (enqueued s.log), ← hi]
    simp only [Obs.events, Obs.batch, onIoa_append, List.append_nil, List.append_assoc]

theorem ordered_note {lost : List IecEvent} {s s' : Conn σ} {o : Obs} (h : Ordered lost s) (hs : s'.sender = s.sender)
    (hq : s'.que = s.que) (hlog : s'.log = s.log ++ [o]) (he : o.events = []) (hb : o.batch = []) :
    Ordered lost s' := by
  refine ⟨by rw [hs]; exact h.live, by rw [hs, hq]; exact h.enc, by rw [hs]; exact h.uniform, fun i => ?_⟩
  rw [hs, hq, hlog, transmitted_snoc, enqueued_snoc, he, hb, List.append_nil, List.append_nil]
  exact h.order i

theorem Ordered.move {lost : List IecEvent} {s s' : Conn σ} {a : Act σ} (h : Ordered lost s)
    (hok : nothingLost s a = true ∧ nothingOvertaken s a = true) (hm : Move cb s a s') :
    ∃ lost', Ordered lost' s' := by
  cases hm with
  | put event => exact ⟨lost, ordered_put h hok.1 rfl rfl rfl⟩
  | store => exact ⟨lost, h.live, h.enc, h.uniform, h.order⟩
  | stop hpc =>
    have hl := h.live (by rw [hpc]; simp)
    have henc := h.enc
    have hord := h.order
    rw [hpc] at henc hord
    exact ⟨lost, fun _ => hl, henc, trivial, hord⟩
  | timeout c hpc hq => exact ⟨[], ordered_same h (by rw [hpc]; simp) rfl trivial (by rw [hpc]; rfl)⟩
  | get c event que hpc hq => exact ⟨[], ordered_same h (by rw [hpc]; simp) rfl trivial (by rw [hpc, hq]; rfl)⟩
  | discard c event hpc hst =>
    have := hok.1
    simp [nothingLost, hpc, hst] at this
  | enable c event hpc | block c event hpc =>
    exact ⟨[], ordered_same h (by rw [hpc]; simp) rfl trivial (by rw [hpc]; rfl)⟩
  | pass c event hpc =>
    refine ⟨[], ordered_same h (by rw [hpc]; simp) rfl ?_ (by rw [hpc]; rfl)⟩
    intro ev he
    cases he
  | putBack c event hpc =>
    have hall : (s.que.all fun ev => ev.ioa ≠ event.ioa) = true := by
      have := hok.2
      simp only [nothingOvertaken, hpc] at this
      exact this
    refine ⟨[], ordered_shift h (by rw [hpc]; simp) rfl trivial ?_ ?_⟩
    · intro ev he
      rw [hpc]
      simp only [SendPc.held, List.nil_append, List.mem_append, List.mem_singleton] at he ⊢
      exact he.symm
    · intro i
      rw [hpc]
      exact onIoa_putBack hall i
  | pack c event rest nxt que hpc hq hasdu hcot =>
    have hu := h.uniform
    rw [hpc] at hu
    refine ⟨[], ordered_same h (by rw [hpc]; simp) rfl ?_ (by rw [hpc, hq]; simp [SendPc.held])⟩
    intro ev he
    rcases List.mem_append.mp he with he | he
    · exact hu ev he
    · rw [List.mem_singleton.mp he]
      exact hasdu
  | miss c event rest nxt que hpc hq =>
    have hu := h.uniform
    rw [hpc] at hu
    exact ⟨[], ordered_same h (by rw [hpc]; simp) rfl hu (by rw [hpc, hq]; simp [SendPc.held])⟩
  | packed c event rest hpc =>
    have hu := h.uniform
    rw [hpc] at hu
    exact ⟨[], ordered_same h (by rw [hpc]; simp) rfl hu (by rw [hpc]; rfl)⟩
  | putBackNext c event rest nxt hpc =>
    have hall : (s.que.all fun ev => ev.ioa ≠ nxt.ioa) = true := by
      have := hok.2
      simp only [nothingOvertaken, hpc] at this
      exact this
    have hu := h.uniform
    rw [hpc] at hu
    refine ⟨[], ordered_shift h (by rw [hpc]; simp) rfl hu ?_ ?_⟩
    · intro ev he
      rw [hpc]
      simp only [SendPc.held, List.mem_append, List.mem_cons] at he ⊢
      tauto
    · intro i
      have hswap := onIoa_putBack hall i
      rw [hpc]
      simp only [SendPc.held, List.append_assoc]
      rw [onIoa_append i (event :: rest), onIoa_append i (event :: rest), hswap]
  | unsupported c event rest hpc hb =>
    have henc := h.enc
    rw [hpc] at henc
    exact absurd hb (buildIFrame_supported (henc event (by simp [SendPc.held])))
  | write c event rest packet hpc hl hb =>
    have hlost := h.live (by rw [hpc]; simp)
    have henc := h.enc
    have hord := h.order
    rw [hpc] at henc hord
    subst hlost
    refine ⟨[], fun _ => rfl, fun e he => henc e (List.mem_append_right _ he), trivial, fun i => ?_⟩
    rw [transmitted_snoc, enqueued_snoc]
    simp only [Obs.batch, Obs.events, SendPc.held, List.nil_append, List.append_nil, List.append_assoc] at hord ⊢
    exact hord i
  | ended c hpc =>
    -- what `client_send` held is not transmitted any more
    have hlost := h.live hpc
    subst hlost
    refine ⟨s.sender.held, fun hn => absurd rfl hn, fun e he => h.enc e (List.mem_append_right _ he), trivial,
      fun i => ?_⟩
    exact h.order i
  | keep c pc hpc hpc' =>
    rcases hpc' with rfl | rfl
    · exact ⟨[], ordered_same h (by rw [hpc]; simp) rfl trivial (by rw [hpc]; rfl)⟩
    · exact ⟨[], ordered_same h (by rw [hpc]; simp) rfl trivial (by rw [hpc]; rfl)⟩
  | testfr c hpc =>
    have hlost := h.live (by rw [hpc]; simp)
    have henc := h.enc
    have hord := h.order
    rw [hpc] at henc hord
    subst hlost
    refine ⟨[], fun _ => rfl, henc, trivial, fun i => ?_⟩
    rw [transmitted_snoc, enqueued_snoc]
    simpa [Obs.batch, Obs.events, SendPc.held] using hord i
  | answer | take => exact ⟨lost, ordered_note h rfl rfl rfl rfl rfl⟩
  | handlerPut result event puts hr =>
    have hev : encodable event = true := by
      have := hok.1
      simp only [nothingLost, startedAndEncodable, hr] at this
      exact this
    exact ⟨lost, ordered_put h hev rfl rfl rfl⟩
  | raised | counted | done | close => exact ⟨lost, h.live, h.enc, h.uniform, h.order⟩
  | reply | sFrame => exact ⟨lost, ordered_note h rfl rfl rfl rfl rfl⟩

theorem ordered_move {lost : List IecEvent} {s s' : Conn σ} {a : Act σ} (h : Ordered lost s)
    (hok : startedAndEncodable s a = true ∧ nothingOvertaken s a = true) (hm : Move cb s a s') :
    ∃ lost', Ordered lost' s' :=
  h.move ⟨nothingLost_of_started hok.1, hok.2⟩ hm

/-- From any queue of encodable events, in every run in which STARTDT stays confirmed, only encodable
    events are enqueued and no event is put back behind one of its address, each address's events are
    transmitted in order. -/
theorem order_kept (cb : Callbacks σ) (st : ClientState) (store : σ) (que : List IecEvent)
    (hque : ∀ ev ∈ que, encodable ev = true) (s : Conn σ)
    (h : Reach (step cb) (fun s a => startedAndEncodable s a = true ∧ nothingOvertaken s a = true)
      (start st store que) s) : InOrder s.log := by
  have h0 : ∃ lost, Ordered lost (start st store que) := by
    refine ⟨[], fun _ => rfl, hque, trivial, fun i => ?_⟩
    rw [transmitted_start, enqueued_start]
    rfl
  obtain ⟨lost, hs⟩ := h.inv (P := fun s => ∃ lost, Ordered lost s) h0 fun s a s' hi hok hstep => by
    obtain ⟨lost, hi⟩ := hi
    exact ordered_move hi hok (step_move hstep)
  exact hs.inOrder

def startedState : ClientState := { createClientState kp1Conf 1 with startdtConfirmed := true }

def mixedQueue : List IecEvent := [point 1 45 1, point 3 46 1, point 3 46 2]

def sendBatches : List (Act Unit) := List.replicate 13 (.send false)

/-- The first double point ends the batch of single points and goes behind the second one: the value
    that was enqueued last is transmitted first. -/
theorem a_put_back_event_is_overtaken :
    ¬ ∀ s, Reach (step emptyStation) (fun s a => startedAndEncodable s a = true)
        (start startedState () mixedQueue) s → InOrder s.log := by
  intro hall
  have hrun : (run (checked startedAndEncodable (step emptyStation)) (start startedState () mixedQueue)
      sendBatches).map (fun s => (onIoa 46 (transmitted s.log), onIoa 46 (enqueued s.log))) =
        some ([point 3 46 2, point 3 46 1], [point 3 46 1, point 3 46 2]) := by decide
  obtain ⟨s, hr, hs⟩ := exists_of_run _ hrun
  simp only [Prod.mk.injEq] at hs
  have hsub := hall s (reach_of_checked hr) 46
  rw [hs.1, hs.2] at hsub
  exact absurd hsub (by decide)

theorem order_kept_apart : ∃ s : Conn Unit,
    transmitted s.log = [point 1 45 1, point 3 46 1] ∧ InOrder s.log := by
  have hrun : (run (checked (fun s a => startedAndEncodable s a && nothingOvertaken s a) (step emptyStation))
      (start startedState () [point 1 45 1, point 3 46 1]) sendBatches).map (fun s => transmitted s.log) =
        some [point 1 45 1, point 3 46 1] := by decide
  obtain ⟨s, hr, hs⟩ := exists_of_run _ hrun
  have hr := (reach_of_checked hr).mono fun s a h => by simpa using h
  exact ⟨s, hs, order_kept emptyStation startedState () _ (by decide) s hr⟩

end Drv60870.Server
