/-
  Drv60870.Server.Drain — what `client_send` does with a queue when nothing else happens.

  `drain` says it without the thread: the batches a queue is cut into while the window has
  room, and what stays queued. An event that ends a batch goes to the tail of the queue, so
  the batches are not the runs of equal events; a batch of a type without an encoder is
  dropped and takes no room.

  Proved, of a thread between two iterations with STARTDT confirmed, while `client_rec` does not
  hold the lock:
  - The thread's own steps, whatever its clock says, write exactly the batches of `drain` and
    are through after ten steps an event (`drains`). Every queued event is one that the encoder
    takes or does not know (`Takeable`), the address fits its field and `k` is below 32768.
  - With room for every event the queue is empty then, and each event that has an encoder was
    sent once, in no more frames than events (`flushed`).
  - With the window full, events queued and no frame received, nothing is written in any run
    from there: no test frame either, since the thread goes round without ever coming to its
    keepalive (`silent_when_full`).
  Traces: the first double point ends the batch of single points and leaves last
  (`drain_mixedQueue`).
-/

import Drv60870.Protocol.Ranges
import Drv60870.Server.Frames
import Drv60870.Server.Order
import Drv60870.Server.Packed
import Drv60870.Server.Sequence

namespace Drv60870.Server

open Lib.Octets Lib.Calendar Lib.Python Lib.Cyclic Lib.Runs Drv60870.Const Protocol Conn

variable {σ : Type} {cb : Callbacks σ}

/-! ## The queue -/

/-- The inner loop of `client_send`: the events that join a batch with `room` for them, and the
    queue behind it. -/
def fill (event : IecEvent) : Nat → List IecEvent → List IecEvent × List IecEvent
  | 0, que => ([], que)
  | _ + 1, [] => ([], [])
  | room + 1, nxt :: que =>
    if nxt.asdu = event.asdu ∧ nxt.cot = event.cot then
      (nxt :: (fill event room que).1, (fill event room que).2)
    else ([], que ++ [nxt])

theorem fill_perm (event : IecEvent) (room : Nat) (que : List IecEvent) :
    ((fill event room que).1 ++ (fill event room que).2).Perm que := by
  induction room generalizing que with
  | zero => exact .refl _
  | succ room ih =>
    cases que with
    | nil => exact .refl _
    | cons nxt que =>
      by_cases hs : nxt.asdu = event.asdu ∧ nxt.cot = event.cot
      · rw [fill, if_pos hs]
        exact (ih que).cons nxt
      · rw [fill, if_neg hs]
        exact List.perm_append_singleton nxt que

theorem fill_length (event : IecEvent) (room : Nat) (que : List IecEvent) :
    (fill event room que).2.length ≤ que.length := by
  have := (fill_perm event room que).length_eq
  rw [List.length_append] at this
  omega

theorem fill_asdu (event : IecEvent) (room : Nat) (que : List IecEvent) :
    ∀ ev ∈ (fill event room que).1, ev.asdu = event.asdu := by
  induction room generalizing que with
  | zero => simp [fill]
  | succ room ih =>
    cases que with
    | nil => simp [fill]
    | cons nxt que =>
      by_cases hs : nxt.asdu = event.asdu ∧ nxt.cot = event.cot
      · rw [fill, if_pos hs]
        intro ev he
        rcases List.mem_cons.mp he with rfl | he
        · exact hs.1
        · exact ih que ev he
      · rw [fill, if_neg hs]
        simp

/-- The batches of a queue, with `credit` frames to go until the window is full, and what is
    left in the queue. -/
def drain : Nat → List IecEvent → List (List IecEvent) × List IecEvent
  | 0, que => ([], que)
  | _ + 1, [] => ([], [])
  | credit + 1, event :: que =>
    let r := fill event (maxObj event.asdu - 1) que
    if supported event.asdu then ((event :: r.1) :: (drain credit r.2).1, (drain credit r.2).2)
    else drain (credit + 1) r.2
termination_by _ que => que.length
decreasing_by all_goals exact Nat.lt_succ_of_le (fill_length ..)

def emit (credit : Nat) (batch que : List IecEvent) (ok : Bool) : List (List IecEvent) × List IecEvent :=
  if ok then (batch :: (drain (credit - 1) que).1, (drain (credit - 1) que).2) else drain credit que

theorem drain_cons {credit : Nat} (hc : 0 < credit) (event : IecEvent) (que : List IecEvent) :
    drain credit (event :: que) = emit credit (event :: (fill event (maxObj event.asdu - 1) que).1)
      (fill event (maxObj event.asdu - 1) que).2 (supported event.asdu) := by
  obtain ⟨c, rfl⟩ := Nat.exists_eq_succ_of_ne_zero (Nat.ne_of_gt hc)
  rw [drain, emit]
  rfl

theorem drain_zero (que : List IecEvent) : drain 0 que = ([], que) := by rw [drain]

@[simp] theorem drain_nil (credit : Nat) : drain credit [] = ([], []) := by
  cases credit <;> rw [drain]

theorem drain_supported {event : IecEvent} (h : supported event.asdu = true) (credit : Nat) (que : List IecEvent) :
    drain (credit + 1) (event :: que) =
      ((event :: (fill event (maxObj event.asdu - 1) que).1) ::
        (drain credit (fill event (maxObj event.asdu - 1) que).2).1,
      (drain credit (fill event (maxObj event.asdu - 1) que).2).2) := by
  rw [drain, if_pos h]

theorem drain_unsupported {event : IecEvent} (h : ¬ supported event.asdu = true) (credit : Nat)
    (que : List IecEvent) :
    drain (credit + 1) (event :: que) = drain (credit + 1) (fill event (maxObj event.asdu - 1) que).2 := by
  rw [drain, if_neg h]

/-- Every event that has an encoder is sent or left, and no other is sent. -/
theorem drain_count (ev : IecEvent) (credit : Nat) (que : List IecEvent) :
    (supported ev.asdu = true →
        (drain credit que).1.flatten.count ev + (drain credit que).2.count ev = que.count ev) ∧
      (supported ev.asdu = false → ev ∉ (drain credit que).1.flatten) := by
  induction credit, que using drain.induct with
  | case1 que => simp [drain_zero]
  | case2 credit => simp
  | case3 credit event que r hsup ih =>
    have hr : r = fill event (maxObj event.asdu - 1) que := rfl
    have hp := (fill_perm event (maxObj event.asdu - 1) que).count_eq ev
    have ha := fill_asdu event (maxObj event.asdu - 1) que
    rw [hr] at ih
    rw [drain_supported hsup]
    refine ⟨fun hs => ?_, fun hs hm => ?_⟩
    · have := ih.1 hs
      simp only [List.flatten_cons, List.count_append, List.count_cons] at hp ⊢
      omega
    · simp only [List.flatten_cons, List.cons_append, List.mem_cons, List.mem_append] at hm
      rcases hm with rfl | hm | hm
      · rw [hsup] at hs
        cases hs
      · rw [ha ev hm, hsup] at hs
        cases hs
      · exact ih.2 hs hm
  | case4 credit event que r hsup ih =>
    have hr : r = fill event (maxObj event.asdu - 1) que := rfl
    have hp := (fill_perm event (maxObj event.asdu - 1) que).count_eq ev
    have ha := fill_asdu event (maxObj event.asdu - 1) que
    rw [hr] at ih
    rw [drain_unsupported hsup]
    refine ⟨fun hs => ?_, fun hs => ih.2 hs⟩
    -- the event is none of the batch that is dropped
    have hne : ev ∉ event :: (fill event (maxObj event.asdu - 1) que).1 := by
      intro hm
      rcases List.mem_cons.mp hm with rfl | hm
      · exact hsup hs
      · rw [ha ev hm] at hs
        exact hsup hs
    have h0 := List.count_eq_zero_of_not_mem hne
    have := ih.1 hs
    simp only [List.count_append, List.count_cons] at hp h0 ⊢
    omega

/-- With room for every event nothing is left, in no more frames than events. -/
theorem drain_all {credit : Nat} {que : List IecEvent} (h : que.length ≤ credit) :
    (drain credit que).2 = [] ∧ (drain credit que).1.length ≤ que.length := by
  induction credit, que using drain.induct with
  | case1 que =>
    have := List.length_eq_zero_iff.mp (Nat.le_zero.mp h)
    simp [this]
  | case2 credit => simp
  | case3 credit event que r hsup ih =>
    have hr : r = fill event (maxObj event.asdu - 1) que := rfl
    have hl := fill_length event (maxObj event.asdu - 1) que
    simp only [hr, List.length_cons] at ih h
    obtain ⟨hleft, hlen⟩ := ih (by omega)
    rw [drain_supported hsup]
    refine ⟨hleft, ?_⟩
    simp only [List.length_cons]
    omega
  | case4 credit event que r hsup ih =>
    have hr : r = fill event (maxObj event.asdu - 1) que := rfl
    have hl := fill_length event (maxObj event.asdu - 1) que
    simp only [hr, List.length_cons] at ih h
    obtain ⟨hleft, hlen⟩ := ih (by omega)
    rw [drain_unsupported hsup]
    refine ⟨hleft, ?_⟩
    simp only [List.length_cons]
    omega

/-! ## The thread -/

def Obs.packed : Obs → Option (List IecEvent)
  | .sent (event :: rest) _ => some (event :: rest)
  | _ => none

def batches (log : List Obs) : List (List IecEvent) := log.filterMap Obs.packed

def credit (st : ClientState) : Nat := st.conf.protK - window seqMod st.sendSq st.lastAckNr

/-- The batches the thread is about to send, and what it will leave in the queue. -/
def ahead (s : Conn σ) : List (List IecEvent) × List IecEvent :=
  match s.sender with
  | .got event | .enabled event | .blocked event => drain (credit s.st) (event :: s.que)
  | .packing event rest =>
    let r := fill event (maxObj event.asdu - (event :: rest).length) s.que
    emit (credit s.st) (event :: (rest ++ r.1)) r.2 (supported event.asdu)
  | .mismatch event rest nxt => emit (credit s.st) (event :: rest) (s.que ++ [nxt]) (supported event.asdu)
  | .ready event rest => emit (credit s.st) (event :: rest) s.que (supported event.asdu)
  | _ => drain (credit s.st) s.que

def work (s : Conn σ) : Nat :=
  10 * s.que.length +
    match s.sender with
    | .got _ => 9
    | .enabled _ => 8
    | .packing _ rest => 7 + 7 * rest.length
    | .mismatch _ rest _ => 16 + 7 * rest.length
    | .ready _ rest => 5 + 7 * rest.length
    | .tail => 2
    | .test => 1
    | _ => 0

def settled (s : Conn σ) : Prop := credit s.st = 0 ∨ s.sender.held ++ s.que = []

def SendPc.roomy (room : Nat) : SendPc → Prop
  | .packing _ _ | .mismatch _ _ _ | .ready _ _ => 0 < room
  | .blocked _ => room = 0
  | _ => True

def Takeable (ev : IecEvent) : Prop := Sendable ev ∧ 0 ≤ ev.cot ∧ ev.cot < 65536

structure Draining (sent : List (List IecEvent)) (left : List IecEvent) (s : Conn σ) : Prop where
  free : s.receiver = .free
  started : s.st.startdtConfirmed = true
  counters : s.st.Counters
  ca : 0 ≤ s.st.ca ∧ s.st.ca < 65536
  bound : s.st.conf.protK < seqMod
  live : s.sender ≠ .stopped
  fits : s.sender.fits
  tested : s.sender.roomy (credit s.st)
  events : ∀ ev ∈ s.sender.held ++ s.que, Takeable ev
  sent : batches s.log ++ (ahead s).1 = sent
  left : (ahead s).2.Perm left

variable {sent : List (List IecEvent)} {left : List IecEvent} {s : Conn σ}

theorem Draining.shift (h : Draining sent left s) {pc : SendPc} {que : List IecEvent} (hlive : pc ≠ .stopped)
    (hfits : pc.fits) (htested : pc.roomy (credit s.st)) (hev : ∀ ev ∈ pc.held ++ que, ev ∈ s.sender.held ++ s.que)
    (hb : (ahead { s with sender := pc, que := que }).1 = (ahead s).1)
    (hl : (ahead { s with sender := pc, que := que }).2.Perm (ahead s).2) :
    Draining sent left { s with sender := pc, que := que } :=
  ⟨h.free, h.started, h.counters, h.ca, h.bound, hlive, hfits, htested, fun ev he => h.events ev (hev ev he),
    by rw [hb]; exact h.sent, hl.trans h.left⟩

/-- The step and the state it makes: the thread goes on, and comes nearer to its end. -/
def Goes (sent : List (List IecEvent)) (left : List IecEvent) (s : Conn σ) (c : Bool) : Prop :=
  ∃ s', s.sendStep c = some s' ∧ Draining sent left s' ∧ (settled s → settled s') ∧ (settled s ∨ work s' < work s)

/-- With room in the window and an event in hand the thread has something to send. -/
theorem unsettled (hpos : 0 < credit s.st) (event : IecEvent) (hev : event ∈ s.sender.held) : ¬ settled s := by
  rintro (hz | hn)
  · omega
  · rw [(List.append_eq_nil_iff.mp hn).1] at hev
    cases hev

theorem goes_idle (h : Draining sent left s) (c : Bool) (hpc : s.sender = .idle) : Goes sent left s c := by
  cases hq : s.que with
  | nil =>
    have hset : settled s := .inr (by simp [hpc, hq, SendPc.held])
    refine ⟨{ s with sender := .tail }, by simp [sendStep, hpc, hq], ?_, fun _ => .inr ?_, .inl hset⟩
    · exact h.shift (by simp) trivial trivial (by simp [hpc, SendPc.held]) (by simp [ahead, hpc]) (by simp [ahead, hpc])
    · simp [hq, SendPc.held]
  | cons event que =>
    refine ⟨{ s with que, sender := .got event }, by simp [sendStep, hpc, hq], ?_, fun hset => ?_, .inr ?_⟩
    · exact h.shift (by simp) trivial trivial (by simp [hpc, hq, SendPc.held]) (by simp [ahead, hpc, hq])
        (by simp [ahead, hpc, hq])
    · simpa [settled, hpc, hq, SendPc.held] using hset
    · simp only [work, hpc, hq, List.length_cons]
      omega

theorem goes_got (h : Draining sent left s) (c : Bool) {event : IecEvent} (hpc : s.sender = .got event) :
    Goes sent left s c := by
  refine ⟨{ s with sender := .enabled event }, by simp [sendStep, hpc, h.started], ?_, fun hset => ?_, .inr ?_⟩
  · exact h.shift (by simp) trivial trivial (by simp [hpc, SendPc.held]) (by simp [ahead, hpc]) (by simp [ahead, hpc])
  · simpa [settled, hpc, SendPc.held] using hset
  · simp [work, hpc]

theorem goes_enabled (h : Draining sent left s) (c : Bool) {event : IecEvent} (hpc : s.sender = .enabled event) :
    Goes sent left s c := by
  by_cases hw : s.st.conf.protK ≤ window seqMod s.st.sendSq s.st.lastAckNr
  · have hzero : credit s.st = 0 := Nat.sub_eq_zero_of_le hw
    refine ⟨{ s with sender := .blocked event }, by simp [sendStep, hpc, h.free, RecPc.locked, hw], ?_,
      fun _ => .inl hzero, .inl (.inl hzero)⟩
    exact h.shift (by simp) trivial hzero (by simp [hpc, SendPc.held]) (by simp [ahead, hpc]) (by simp [ahead, hpc])
  · have hpos : 0 < credit s.st := Nat.sub_pos_of_lt (by omega)
    have hnot : ¬ settled s := unsettled hpos event (by simp [hpc, SendPc.held])
    refine ⟨{ s with sender := .packing event [] }, by simp [sendStep, hpc, h.free, RecPc.locked, hw], ?_,
      fun hset => absurd hset hnot, .inr ?_⟩
    · exact h.shift (by simp) ⟨by simp, one_le_maxObj _⟩ hpos (by simp [hpc, SendPc.held])
        (by simp [ahead, hpc, drain_cons hpos]) (by simp [ahead, hpc, drain_cons hpos])
    · simp [work, hpc]

theorem goes_blocked (h : Draining sent left s) (c : Bool) {event : IecEvent} (hpc : s.sender = .blocked event) :
    Goes sent left s c := by
  have hzero : credit s.st = 0 := by
    have := h.tested
    rw [hpc] at this
    exact this
  refine ⟨{ s with que := s.que ++ [event], sender := .idle }, by simp [sendStep, hpc], ?_, fun _ => .inl hzero,
    .inl (.inl hzero)⟩
  refine h.shift (by simp) trivial trivial ?_ ?_ ?_
  · intro ev he
    simpa [hpc, SendPc.held, or_comm] using he
  · simp [ahead, hpc, hzero, drain_zero]
  · simp only [ahead, hpc, hzero, drain_zero]
    exact List.perm_append_singleton event s.que

theorem goes_packing (h : Draining sent left s) (c : Bool) {event : IecEvent} {rest : List IecEvent}
    (hpc : s.sender = .packing event rest) : Goes sent left s c := by
  have hfits := h.fits
  have htested := h.tested
  rw [hpc] at hfits htested
  have hnot : ¬ settled s := unsettled htested event (by simp [hpc, SendPc.held])
  by_cases hroom : rest.length + 1 < maxObj event.asdu
  · obtain ⟨k, hk⟩ : ∃ k, maxObj event.asdu - (rest.length + 1) = k + 1 :=
      Nat.exists_eq_succ_of_ne_zero (Nat.sub_ne_zero_of_lt hroom)
    cases hq : s.que with
    | nil =>
      refine ⟨{ s with sender := .ready event rest }, by simp [sendStep, hpc, hq, hroom], ?_,
        fun hset => absurd hset hnot, .inr (by simp only [work, hpc, hq]; omega)⟩
      exact h.shift (by simp) hfits htested (by simp [hpc, SendPc.held]) (by simp [ahead, hpc, hq, hk, fill])
        (by simp [ahead, hpc, hq, hk, fill])
    | cons nxt que =>
      by_cases hs : nxt.asdu = event.asdu ∧ nxt.cot = event.cot
      · have hk' : maxObj event.asdu - (rest.length + 1 + 1) = k := by omega
        refine ⟨{ s with que, sender := .packing event (rest ++ [nxt]) }, by simp [sendStep, hpc, hq, hroom, hs], ?_,
          fun hset => absurd hset hnot, .inr ?_⟩
        · refine h.shift (by simp) ⟨?_, ?_⟩ htested (by simp [hpc, hq, SendPc.held])
            (by simp [ahead, hpc, hq, hk, hk', fill, hs]) (by simp [ahead, hpc, hq, hk, hk', fill, hs])
          · intro ev he
            rcases List.mem_append.mp he with he | he
            · exact hfits.1 ev he
            · rw [List.mem_singleton.mp he]
              exact hs
          · simp only [List.length_cons, List.length_append, List.length_nil]
            omega
        · simp only [work, hpc, hq, List.length_cons, List.length_append, List.length_nil]
          omega
      · refine ⟨{ s with que, sender := .mismatch event rest nxt }, by simp [sendStep, hpc, hq, hroom, hs], ?_,
          fun hset => absurd hset hnot, .inr ?_⟩
        · exact h.shift (by simp) hfits htested (by simp [hpc, hq, SendPc.held])
            (by simp [ahead, hpc, hq, hk, fill, hs]) (by simp [ahead, hpc, hq, hk, fill, hs])
        · simp only [work, hpc, hq, List.length_cons]
          omega
  · have hk : maxObj event.asdu - (rest.length + 1) = 0 := by omega
    refine ⟨{ s with sender := .ready event rest }, by simp [sendStep, hpc, hroom], ?_,
      fun hset => absurd hset hnot, .inr (by simp only [work, hpc]; omega)⟩
    exact h.shift (by simp) hfits htested (by simp [hpc, SendPc.held]) (by simp [ahead, hpc, hk, fill])
      (by simp [ahead, hpc, hk, fill])

theorem goes_mismatch (h : Draining sent left s) (c : Bool) {event nxt : IecEvent} {rest : List IecEvent}
    (hpc : s.sender = .mismatch event rest nxt) : Goes sent left s c := by
  have hfits := h.fits
  have htested := h.tested
  rw [hpc] at hfits htested
  have hnot : ¬ settled s := unsettled htested event (by simp [hpc, SendPc.held])
  refine ⟨{ s with que := s.que ++ [nxt], sender := .ready event rest }, by simp [sendStep, hpc], ?_,
    fun hset => absurd hset hnot, .inr ?_⟩
  · refine h.shift (by simp) hfits htested ?_ (by simp [ahead, hpc]) (by simp [ahead, hpc])
    intro ev he
    simp only [hpc, SendPc.held, List.mem_append, List.mem_cons, List.not_mem_nil, or_false] at he ⊢
    tauto
  · simp only [work, hpc, List.length_cons, List.length_append, List.length_nil]
    omega

theorem credit_afterBatch {st : ClientState} (hk : st.conf.protK < seqMod) (hpos : 0 < credit st) (n : Nat) (c : Bool) :
    credit (afterBatch st n c) = credit st - 1 := by
  have hlt : window seqMod st.sendSq st.lastAckNr < st.conf.protK := Nat.lt_of_sub_pos hpos
  show st.conf.protK - window seqMod ((st.sendSq + 1) % seqMod) st.lastAckNr = _
  rw [window_succ (by omega)]
  exact Nat.sub_add_eq ..

theorem goes_ready (h : Draining sent left s) (c : Bool) {event : IecEvent} {rest : List IecEvent}
    (hpc : s.sender = .ready event rest) : Goes sent left s c := by
  have hfits := h.fits
  have htested := h.tested
  have hev := h.events
  have hsent := h.sent
  have hleft := h.left
  rw [hpc] at hfits htested hev
  simp only [ahead, hpc] at hsent hleft
  have hnot : ¬ settled s := unsettled htested event (by simp [hpc, SendPc.held])
  have hhere : ∀ ev ∈ event :: rest, Takeable ev := fun ev he => hev ev (List.mem_append_left _ he)
  have hlater : ∀ ev ∈ s.que, Takeable ev := fun ev he => hev ev (List.mem_append_right _ he)
  obtain ⟨o, ho⟩ := buildIFrame_total h.counters h.ca (hhere event List.mem_cons_self).2
    (fun e he => (hfits.1 e he).1) (fun e he => (hhere e he).1) hfits.2
  cases o with
  | none =>
    have hsup : supported event.asdu = false := unsupported_iff.mp (buildIFrame_none ho)
    simp only [emit, hsup, Bool.false_eq_true, if_false] at hsent hleft
    refine ⟨{ s with sender := .idle }, by simp [sendStep, hpc, h.free, RecPc.locked, ho], ?_,
      fun hset => absurd hset hnot, .inr (by simp only [work, hpc]; omega)⟩
    exact ⟨h.free, h.started, h.counters, h.ca, h.bound, by simp, trivial, trivial, hlater, hsent, hleft⟩
  | some packet =>
    have hsup : supported event.asdu = true := by
      by_contra hn
      rw [buildIFrame_refused s.st rest (by simpa using hn)] at ho
      cases ho
    have hcredit := credit_afterBatch h.bound htested (event :: rest).length c
    simp only [emit, hsup, if_true] at hsent hleft
    refine ⟨{ s with
        st := afterBatch s.st (event :: rest).length c
        sender := .tail
        log := s.log ++ [.sent (event :: rest) packet] }, ?_, ?_, fun hset => absurd hset hnot, .inr ?_⟩
    · simp [sendStep, hpc, h.free, RecPc.locked, ho]
    · refine ⟨h.free, h.started, ⟨Nat.mod_lt _ (by decide), h.counters.2⟩, h.ca, h.bound, by simp, trivial, trivial,
        hlater, ?_, ?_⟩
      · simp only [ahead, hcredit]
        rw [← hsent, batches, List.filterMap_append, List.append_assoc]
        rfl
      · simp only [ahead, hcredit]
        exact hleft
    · simp only [work, hpc]
      omega

theorem goes_tail (h : Draining sent left s) (c : Bool) (hpc : s.sender = .tail) : Goes sent left s c := by
  cases c with
  | true =>
    refine ⟨{ s with sender := .test }, by simp [sendStep, hpc, h.free, RecPc.locked], ?_, fun hset => ?_,
      .inr (by simp only [work, hpc]; omega)⟩
    · exact h.shift (by simp) trivial trivial (by simp [hpc, SendPc.held]) (by simp [ahead, hpc]) (by simp [ahead, hpc])
    · simpa [settled, hpc, SendPc.held] using hset
  | false =>
    refine ⟨{ s with sender := .idle }, by simp [sendStep, hpc, h.free, RecPc.locked], ?_, fun hset => ?_,
      .inr (by simp only [work, hpc]; omega)⟩
    · exact h.shift (by simp) trivial trivial (by simp [hpc, SendPc.held]) (by simp [ahead, hpc]) (by simp [ahead, hpc])
    · simpa [settled, hpc, SendPc.held] using hset

theorem goes_test (h : Draining sent left s) (c : Bool) (hpc : s.sender = .test) : Goes sent left s c := by
  have hsent := h.sent
  have hleft := h.left
  have hev := h.events
  simp only [ahead, hpc, SendPc.held] at hsent hleft hev
  refine ⟨{ s with sender := .idle, log := s.log ++ [.sent [] testfrAct] }, by simp [sendStep, hpc, h.free], ?_,
    fun hset => ?_, .inr ?_⟩
  · refine ⟨h.free, h.started, h.counters, h.ca, h.bound, by simp, trivial, trivial, hev, ?_, hleft⟩
    rw [← hsent, batches, List.filterMap_append]
    simp [batches, Obs.packed, ahead]
  · simpa [settled, hpc, SendPc.held] using hset
  · simp [work, hpc]

theorem draining_step (h : Draining sent left s) (c : Bool) : Goes sent left s c := by
  cases hpc : s.sender with
  | idle => exact goes_idle h c hpc
  | got event => exact goes_got h c hpc
  | enabled event => exact goes_enabled h c hpc
  | blocked event => exact goes_blocked h c hpc
  | packing event rest => exact goes_packing h c hpc
  | mismatch event rest nxt => exact goes_mismatch h c hpc
  | ready event rest => exact goes_ready h c hpc
  | tail => exact goes_tail h c hpc
  | test => exact goes_test h c hpc
  | stopped => exact absurd hpc h.live

theorem settled_of_work (h : Draining sent left s) (hw : work s = 0) : settled s := by
  have htested := h.tested
  have hlive := h.live
  cases hpc : s.sender with
  | blocked event =>
    rw [hpc] at htested
    exact .inl htested
  | stopped => exact absurd hpc hlive
  | idle =>
    simp only [work, hpc, Nat.add_zero, Nat.mul_eq_zero, List.length_eq_zero_iff] at hw
    exact .inr (by simp [hpc, SendPc.held, hw.resolve_left (by decide)])
  | got event | enabled event | packing event rest | mismatch event rest nxt | ready event rest | tail | test =>
    simp only [work, hpc] at hw
    omega

/-- A settled thread will send nothing more, and leaves what it holds and what is queued. -/
theorem settled_ahead (h : Draining sent left s) (hs : settled s) : ahead s = ([], s.sender.held ++ s.que) := by
  have htested := h.tested
  rcases hs with hz | hn
  · rw [hz] at htested
    cases hpc : s.sender with
    | packing event rest | mismatch event rest nxt | ready event rest =>
      rw [hpc] at htested
      exact absurd htested (Nat.lt_irrefl 0)
    | idle | got event | enabled event | blocked event | tail | test | stopped =>
      simp [ahead, hpc, hz, drain_zero, SendPc.held]
  · obtain ⟨hheld, hq⟩ := List.append_eq_nil_iff.mp hn
    cases hpc : s.sender with
    | got event | enabled event | blocked event | packing event rest | mismatch event rest nxt | ready event rest =>
      rw [hpc] at hheld
      simp [SendPc.held] at hheld
    | idle | tail | test | stopped => simp [ahead, hpc, hq, SendPc.held]

/-- What a settled thread has sent, and has left. -/
theorem Draining.through (h : Draining sent left s) (hs : settled s) :
    batches s.log = sent ∧ (s.sender.held ++ s.que).Perm left := by
  have hsent := h.sent
  have hleft := h.left
  rw [settled_ahead h hs] at hsent hleft
  exact ⟨by rw [← hsent, List.append_nil], hleft⟩

/-! ## A queue on its own -/

structure Placed (conf : Conf) (ca : Int) (s : Conn σ) : Prop where
  conf : s.st.conf = conf
  ca : s.st.ca = ca

theorem placed_run {conf : Conf} {ca : Int} {store : σ} {que : List IecEvent}
    (h : Reach (step cb) anyway (start (createClientState conf ca) store que) s) : Placed conf ca s :=
  h.inv ⟨rfl, rfl⟩ fun _ _ _ hp _ hs => ⟨(step_move hs).conf.trans hp.conf, (step_move hs).ca.trans hp.ca⟩

/-- `client_send` alone, from between two iterations on. -/
theorem drain_run {conf : Conf} {ca : Int} {store : σ} {que : List IecEvent}
    (h : Reach (step cb) anyway (start (createClientState conf ca) store que) s) (hpc : s.sender = .idle)
    (hrec : s.receiver = .free) (hst : s.st.startdtConfirmed = true) (hca : 0 ≤ ca ∧ ca < 65536)
    (hk : conf.protK < seqMod) (hev : ∀ ev ∈ s.que, Takeable ev) {cs : List Bool}
    (hlen : 10 * s.que.length ≤ cs.length) :
    ∃ t, run (step cb) s (cs.map Act.send) = some t ∧
      Draining (batches s.log ++ (drain (credit s.st) s.que).1) (drain (credit s.st) s.que).2 t ∧ settled t := by
  have hp := placed_run h
  have hahead : ahead s = drain (credit s.st) s.que := by simp [ahead, hpc]
  have h0 : Draining (batches s.log ++ (drain (credit s.st) s.que).1) (drain (credit s.st) s.que).2 s :=
    ⟨hrec, hst, (numbered_run rfl rfl h).counters, by rw [hp.ca]; exact hca, by rw [hp.conf]; exact hk,
      by simp [hpc], by rw [hpc]; trivial, by rw [hpc]; trivial, by simpa [hpc, SendPc.held] using hev,
      by rw [hahead], by rw [hahead]⟩
  refine settles settled work (fun s hs a ha => ?_) (fun s hs hw => settled_of_work hs hw) h0
    (.inr (by simpa [work, hpc] using hlen))
  obtain ⟨c, -, rfl⟩ := List.mem_map.mp ha
  exact draining_step hs c

/-- From every state between two iterations of `client_send` with STARTDT confirmed: the thread's
    next steps, ten an event or more and whatever its clock says, write the batches of `drain`,
    and leave in the queue what it leaves. -/
theorem drains (cb : Callbacks σ) (conf : Conf) (ca : Int) (store : σ) (que : List IecEvent) (s : Conn σ)
    (h : Reach (step cb) anyway (start (createClientState conf ca) store que) s) (hpc : s.sender = .idle)
    (hrec : s.receiver = .free) (hst : s.st.startdtConfirmed = true) (hca : 0 ≤ ca ∧ ca < 65536)
    (hk : conf.protK < seqMod) (hev : ∀ ev ∈ s.que, Takeable ev) (cs : List Bool)
    (hlen : 10 * s.que.length ≤ cs.length) :
    ∃ t, run (step cb) s (cs.map Act.send) = some t ∧
      batches t.log = batches s.log ++ (drain (credit s.st) s.que).1 ∧
      (t.sender.held ++ t.que).Perm (drain (credit s.st) s.que).2 := by
  obtain ⟨t, ht, hdr, hset⟩ := drain_run h hpc hrec hst hca hk hev hlen
  exact ⟨t, ht, hdr.through hset⟩

def startAndQueue : List (Act Unit) := [.recv startdtAct sampleTime, .handle] ++ mixedQueue.map .put

theorem takeable_point {asdu ioa val : Int} (h : (encObj asdu (point asdu ioa val)).isOk = true) :
    Takeable (point asdu ioa val) := by
  refine ⟨?_, by simp [point], by simp [point]⟩
  cases ho : encObj asdu (point asdu ioa val) with
  | error e =>
    rw [ho] at h
    cases h
  | ok o => exact ⟨o, ho⟩

theorem takeable_mixedQueue : ∀ ev ∈ mixedQueue, Takeable ev := by
  intro ev hev
  simp only [mixedQueue, List.mem_cons, List.not_mem_nil, or_false] at hev
  rcases hev with rfl | rfl | rfl
  all_goals exact takeable_point (by decide +kernel)

/-- The first double point ends the batch of single points, and leaves last. -/
theorem drain_mixedQueue : drain 30 mixedQueue = ([[point 1 45 1], [point 3 46 2, point 3 46 1]], []) := by
  unfold mixedQueue
  rw [drain_supported (by decide)]
  have hfill : fill (point 1 45 1) (maxObj (point 1 45 1).asdu - 1) [point 3 46 1, point 3 46 2] =
      ([], [point 3 46 2, point 3 46 1]) := by decide
  have hfill' : fill (point 3 46 2) (maxObj (point 3 46 2).asdu - 1) [point 3 46 1] = ([point 3 46 1], []) := by decide
  rw [hfill, drain_supported (by decide), hfill', drain_nil]

theorem drains_mixedQueue : ∃ s t : Conn Unit, s.que = mixedQueue ∧
    batches t.log = [[point 1 45 1], [point 3 46 2, point 3 46 1]] ∧ (t.sender.held ++ t.que).Perm [] := by
  have hrun : (run (step emptyStation) (start (createClientState kp1Conf 1) () []) startAndQueue).map (fun s =>
      (s.sender, decide (s.receiver = .free ∧ s.st.startdtConfirmed = true), s.que, credit s.st, batches s.log)) =
        some (.idle, true, mixedQueue, 30, []) := by decide
  obtain ⟨s, hr, hs⟩ := exists_of_run _ hrun
  simp only [Prod.mk.injEq, decide_eq_true_eq] at hs
  obtain ⟨hpc, ⟨hrec, hst⟩, hq, hcr, hb⟩ := hs
  obtain ⟨t, -, ht, hleft⟩ := drains emptyStation kp1Conf 1 () [] s hr hpc hrec hst (by decide) (by decide)
    (by rw [hq]; exact takeable_mixedQueue) (List.replicate 30 false) (by rw [hq]; decide)
  rw [hcr, hq, drain_mixedQueue, hb] at ht
  rw [hcr, hq, drain_mixedQueue] at hleft
  exact ⟨s, t, hq, ht, hleft⟩

/-- With room in the window for every queued event, nothing is left then, and what was sent, in no
    more frames than events, is every event of a type with an encoder, once. -/
theorem flushed (cb : Callbacks σ) (conf : Conf) (ca : Int) (store : σ) (que : List IecEvent) (s : Conn σ)
    (h : Reach (step cb) anyway (start (createClientState conf ca) store que) s) (hpc : s.sender = .idle)
    (hrec : s.receiver = .free) (hst : s.st.startdtConfirmed = true) (hca : 0 ≤ ca ∧ ca < 65536)
    (hk : conf.protK < seqMod) (hev : ∀ ev ∈ s.que, Takeable ev) (hroom : s.que.length ≤ credit s.st)
    (cs : List Bool) (hlen : 10 * s.que.length ≤ cs.length) :
    ∃ t sent, run (step cb) s (cs.map Act.send) = some t ∧ t.sender.held = [] ∧ t.que = [] ∧
      batches t.log = batches s.log ++ sent ∧ sent.length ≤ s.que.length ∧
      sent.flatten.Perm (s.que.filter fun ev => supported ev.asdu) := by
  obtain ⟨t, ht, hdr, hset⟩ := drain_run h hpc hrec hst hca hk hev hlen
  obtain ⟨hsent, hleft⟩ := hdr.through hset
  obtain ⟨hnil, hframes⟩ := drain_all hroom
  rw [hnil] at hleft
  obtain ⟨hheld, hque⟩ := List.append_eq_nil_iff.mp hleft.eq_nil
  refine ⟨t, _, ht, hheld, hque, hsent, hframes, List.perm_iff_count.mpr fun ev => ?_⟩
  obtain ⟨hsup, hunsup⟩ := drain_count ev (credit s.st) s.que
  rw [hnil] at hsup
  cases he : supported ev.asdu with
  | true =>
    rw [List.count_filter (p := fun ev : IecEvent => supported ev.asdu) he, ← hsup he]
    simp
  | false =>
    rw [List.count_eq_zero_of_not_mem (hunsup he), List.count_eq_zero_of_not_mem]
    simp [he]

theorem flushed_mixedQueue : ∃ (t : Conn Unit) (sent : List (List IecEvent)), t.que = [] ∧
    sent.flatten.Perm mixedQueue := by
  have hrun : (run (step emptyStation) (start (createClientState kp1Conf 1) () []) startAndQueue).map (fun s =>
      (s.sender, decide (s.receiver = .free), s.st.startdtConfirmed, s.que, credit s.st)) =
        some (.idle, true, true, mixedQueue, 30) := by decide
  obtain ⟨s, hr, hs⟩ := exists_of_run _ hrun
  simp only [Prod.mk.injEq, decide_eq_true_eq] at hs
  obtain ⟨hpc, hrec, hst, hq, hcr⟩ := hs
  obtain ⟨t, sent, -, -, ht, -, -, hall⟩ := flushed emptyStation kp1Conf 1 () [] s hr hpc hrec hst (by decide)
    (by decide) (by rw [hq]; exact takeable_mixedQueue) (by rw [hq, hcr]; decide) (List.replicate 30 false)
    (by rw [hq]; decide)
  refine ⟨t, sent, ht, ?_⟩
  rw [hq] at hall
  exact hall

/-! ## A full window -/

def unheard (_ : Conn σ) : Act σ → Bool
  | .recv _ _ => false
  | _ => true

/-- Where the thread is while it turns its queue over. -/
def SendPc.turns : SendPc → Bool
  | .idle | .got _ | .enabled _ | .blocked _ | .stopped => true
  | _ => false

structure Turning (s₀ s : Conn σ) : Prop where
  full : credit s.st = 0
  started : s.st.startdtConfirmed = true
  unlocked : s.receiver.locked = false
  turns : s.sender.turns = true
  busy : s.sender.held ++ s.que ≠ []
  silent : written s.log = written s₀.log
  kept : ∀ ev, (s.sender.held ++ s.que).count ev + (enqueued s₀.log).count ev =
    (s₀.sender.held ++ s₀.que).count ev + (enqueued s.log).count ev

theorem Turning.stay {s₀ s s' : Conn σ} (h : Turning s₀ s) (hst : s'.st = s.st)
    (hr : s'.receiver.locked = false) (hpc : s'.sender.turns = true) (hlog : s'.log = s.log)
    (hq : (s'.sender.held ++ s'.que).Perm (s.sender.held ++ s.que)) : Turning s₀ s' := by
  refine ⟨by rw [hst]; exact h.full, by rw [hst]; exact h.started, hr, hpc, fun hn => ?_, by rw [hlog]; exact h.silent,
    fun ev => ?_⟩
  · rw [hn] at hq
    exact h.busy hq.symm.eq_nil
  · rw [hq.count_eq, hlog]
    exact h.kept ev

theorem turning_step {s₀ s s' : Conn σ} {a : Act σ} (h : Turning s₀ s) (hok : unheard s a = true)
    (hstep : step cb s a = some s') : Turning s₀ s' := by
  have hturns := h.turns
  have hbusy := h.busy
  cases step_move hstep with
  | put event =>
    refine ⟨h.full, h.started, h.unlocked, h.turns, by simp, ?_, fun ev => ?_⟩
    · rw [written_append, h.silent]
      exact List.append_nil _
    · have := h.kept ev
      rw [enqueued_snoc]
      simp only [Obs.events, List.count_append] at this ⊢
      omega
  | store => exact ⟨h.full, h.started, h.unlocked, h.turns, h.busy, h.silent, h.kept⟩
  | stop hpc => exact h.stay rfl h.unlocked rfl rfl (by simp [hpc, SendPc.held])
  | timeout c hpc hq => simp [hpc, hq, SendPc.held] at hbusy
  | get c event que hpc hq => exact h.stay rfl h.unlocked rfl rfl (by simp [hpc, hq, SendPc.held])
  | discard c event hpc hst =>
    rw [h.started] at hst
    cases hst
  | enable c event hpc | block c event hpc => exact h.stay rfl h.unlocked rfl rfl (by simp [hpc, SendPc.held])
  | pass c event hpc hl hw => exact absurd h.full (Nat.sub_ne_zero_of_lt hw)
  | putBack c event hpc =>
    refine h.stay rfl h.unlocked rfl rfl ?_
    rw [hpc]
    exact List.perm_append_singleton event s.que
  | pack c event rest nxt que hpc | miss c event rest nxt que hpc | packed c event rest hpc
  | putBackNext c event rest nxt hpc | unsupported c event rest hpc | write c event rest packet hpc | keep c pc hpc
  | testfr c hpc =>
    rw [hpc] at hturns
    cases hturns
  | ended c hpc =>
    rcases sendStep_ended (show s.sendStep c = some _ from hstep) rfl with ⟨hpc, -⟩ | ⟨event, rest, hpc, -⟩
    all_goals
      rw [hpc] at hturns
      cases hturns
  | answer | take => cases hok
  | handlerPut result event puts hr | raised result hr | reply fType response hr | sFrame hr | counted hr
  | done fType hr =>
    have hl := h.unlocked
    rw [hr] at hl
    cases hl
  | close => exact h.stay rfl rfl h.turns rfl (.refl _)

/-- A connection with events queued and its window full, between two iterations of `client_send`,
    from which no frame is received any more: in every run from there nothing at all is written,
    the test frame of an idle line included, and every event stays. -/
theorem silent_when_full (cb : Callbacks σ) (s : Conn σ) (hpc : s.sender = .idle) (hrec : s.receiver.locked = false)
    (hst : s.st.startdtConfirmed = true) (hfull : s.st.conf.protK ≤ window seqMod s.st.sendSq s.st.lastAckNr)
    (hq : s.que ≠ []) (t : Conn σ) (h : Reach (step cb) (fun s a => unheard s a = true) s t) :
    written t.log = written s.log ∧ ∀ ev, (t.sender.held ++ t.que).count ev + (enqueued s.log).count ev =
      s.que.count ev + (enqueued t.log).count ev := by
  have h0 : Turning s s := by
    refine ⟨Nat.sub_eq_zero_of_le hfull, hst, hrec, by rw [hpc]; rfl, ?_, rfl, fun ev => rfl⟩
    rw [hpc]
    exact hq
  have ht := h.inv h0 fun _ _ _ hi hok hs => turning_step hi hok hs
  refine ⟨ht.silent, fun ev => ?_⟩
  have := ht.kept ev
  rw [hpc] at this
  exact this

def sendAndQueue : List (Act Unit) :=
  startAndSend ++ [.send false, .put (point 3 46 1)]

theorem silent_when_full_one : ∃ s t : Conn Unit, s.que = [point 3 46 1] ∧
    t.sender = .blocked (point 3 46 1) ∧ written t.log = written s.log := by
  have hrun : ((run (step emptyStation) (start (createClientState { kp1Conf with protK := 1 } 1) () [])
      sendAndQueue).bind fun s => (run (checked unheard (step emptyStation)) s (List.replicate 3 (.send true))).map
        fun t => (s.sender, decide (s.receiver.locked = false ∧ s.st.startdtConfirmed = true ∧
          s.st.conf.protK ≤ window seqMod s.st.sendSq s.st.lastAckNr), s.que, t.sender)) =
        some (.idle, true, [point 3 46 1], .blocked (point 3 46 1)) := by decide
  obtain ⟨s, -, hs⟩ := Option.bind_eq_some_iff.mp hrun
  obtain ⟨t, ht, hs⟩ := exists_of_run _ hs
  simp only [Prod.mk.injEq, decide_eq_true_eq] at hs
  obtain ⟨hpc, ⟨hrec, hst, hfull⟩, hq, hpc'⟩ := hs
  exact ⟨s, t, hq, hpc', (silent_when_full emptyStation s hpc hrec hst hfull (by simp [hq]) t
    (reach_of_checked ht)).1⟩

end Drv60870.Server
