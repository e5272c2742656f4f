/-
  Drv60870.Server.Ledger — what becomes of every event of a connection.

  `client_send` drops an event it dequeued when STARTDT is not confirmed, and a batch whose
  type the encoder does not know. `Ledger` is the account of what was dropped, kept beside
  the run: `refused` before STARTDT, `revoked` at the test though the dequeue found STARTDT
  confirmed, `unsupported` for want of an encoder.

  Proved:
  - In every run in which sends succeed, from any queue: what was enqueued is what was
    transmitted, is held or queued, or was dropped, each event as often as it was put
    (`nothing_lost`). A batch of an unknown type takes no event of another type with it.
  - Where no STOPDT comes between a dequeue and its test nothing is revoked (`revoked_nil`).
  - STARTDT is tested after the dequeue, in a step of its own: an event dequeued in the
    started state is dropped when a STOPDT comes in between
    (`a_stopdt_drops_the_event_in_hand`).
-/

import Drv60870.Server.Order
import Drv60870.Server.Startdt

namespace Drv60870.Server

open Lib.Octets Lib.Calendar Lib.Python Lib.Runs Drv60870.Const Protocol Conn

variable {σ : Type} {cb : Callbacks σ}

/-! ## The account -/

structure Ledger where
  /-- STARTDT as the last dequeue found it. -/
  confirmed : Bool := false
  /-- Dequeued while STARTDT was not confirmed, and dropped. -/
  refused : List IecEvent := []
  /-- Dequeued while it was confirmed, and dropped when it was tested and no longer was. -/
  revoked : List IecEvent := []
  /-- Dropped because the frame could not be built. -/
  unsupported : List IecEvent := []
  deriving DecidableEq

def Ledger.discarded (l : Ledger) : List IecEvent := l.refused ++ l.revoked ++ l.unsupported

def Ledger.note (s : Conn σ) (a : Act σ) (l : Ledger) : Ledger :=
  match a with
  | .send _ =>
    match s.sender with
    | .idle => { l with confirmed := s.st.startdtConfirmed }
    | .got event =>
      if s.st.startdtConfirmed then l
      else if l.confirmed then { l with revoked := l.revoked ++ [event] }
      else { l with refused := l.refused ++ [event] }
    | .ready event rest =>
      match buildIFrame s.st (event :: rest) with
      | .ok none => { l with unsupported := l.unsupported ++ event :: rest }
      | _ => l
    | _ => l
  | _ => l

/-- No frame is built in vain: the encoder does not raise, and the socket is open. -/
def sendsSucceed (s : Conn σ) : Act σ → Bool
  | .send _ =>
    match s.sender with
    | .ready event rest => (buildIFrame s.st (event :: rest)).isOk && decide (s.receiver ≠ .closed)
    | _ => true
  | _ => true

/-! ## The invariant -/

structure Accounted (s : Conn σ) (l : Ledger) : Prop where
  uniform : s.sender.uniform
  balance : ∀ ev, (enqueued s.log).count ev =
    (transmitted s.log).count ev + (s.sender.held ++ s.que).count ev + l.discarded.count ev
  unsupported : ∀ ev ∈ l.unsupported, Unsupported ev.asdu

theorem accounted_same {s s' : Conn σ} {l l' : Ledger} (h : Accounted s l) (hu : s'.sender.uniform)
    (hlog : s'.log = s.log) (hq : ∀ ev, (s'.sender.held ++ s'.que).count ev = (s.sender.held ++ s.que).count ev)
    (hd : l'.discarded = l.discarded) (hl : l'.unsupported = l.unsupported) : Accounted s' l' := by
  refine ⟨hu, fun ev => ?_, by rw [hl]; exact h.unsupported⟩
  rw [hlog, hq, hd]
  exact h.balance ev

theorem accounted_put {s s' : Conn σ} {l : Ledger} {ev : IecEvent} (h : Accounted s l) (hs : s'.sender = s.sender)
    (hq : s'.que = s.que ++ [ev]) (hlog : s'.log = s.log ++ [.put ev]) : Accounted s' l := by
  refine ⟨by rw [hs]; exact h.uniform, fun e => ?_, h.unsupported⟩
  have hb := h.balance e
  rw [hs, hq, hlog, enqueued_snoc, transmitted_snoc]
  simp only [Obs.events, Obs.batch, List.append_nil, List.count_append] at hb ⊢
  omega

theorem accounted_note {s s' : Conn σ} {l : Ledger} {o : Obs} (h : Accounted s l) (hs : s'.sender = s.sender)
    (hq : s'.que = s.que) (hlog : s'.log = s.log ++ [o]) (he : o.events = []) (hb : o.batch = []) :
    Accounted s' l := by
  refine ⟨by rw [hs]; exact h.uniform, fun e => ?_, h.unsupported⟩
  rw [hs, hq, hlog, transmitted_snoc, enqueued_snoc, he, hb, List.append_nil, List.append_nil]
  exact h.balance e

theorem accounted_drop {s s' : Conn σ} {l l' : Ledger} (h : Accounted s l) (hlog : s'.log = s.log)
    (hq : s'.que = s.que) (hs : s'.sender = .idle)
    (hd : ∀ ev, l'.discarded.count ev = l.discarded.count ev + s.sender.held.count ev)
    (hl : ∀ ev ∈ l'.unsupported, Unsupported ev.asdu) : Accounted s' l' := by
  refine ⟨by rw [hs]; trivial, fun e => ?_, hl⟩
  have hb := h.balance e
  rw [hlog, hq, hs, hd]
  simp only [SendPc.held, List.nil_append, List.count_append] at hb ⊢
  omega

theorem held_of_ended {s s' : Conn σ} {c : Bool} (hok : sendsSucceed s (.send c) = true)
    (h : s.sendStep c = some s') (hs : s'.sender = .stopped) : s.sender.held = [] := by
  rcases sendStep_ended h hs with ⟨hpc, -⟩ | ⟨event, rest, hpc, hfail⟩
  · rw [hpc]
    rfl
  · simp only [sendsSucceed, hpc, Bool.and_eq_true, decide_eq_true_eq] at hok
    rcases hfail with ⟨e, he⟩ | hclosed
    · rw [he] at hok
      cases hok.1
    · exact absurd hclosed hok.2

theorem accounted_move {s s' : Conn σ} {a : Act σ} {l : Ledger} (h : Accounted s l) (hok : sendsSucceed s a = true)
    (hstep : step cb s a = some s') : Accounted s' (l.note s a) := by
  cases step_move hstep with
  | put event => exact accounted_put h rfl rfl rfl
  | store => exact ⟨h.uniform, h.balance, h.unsupported⟩
  | stop hpc => exact accounted_same h trivial rfl (by simp [hpc, SendPc.held]) rfl rfl
  | timeout c hpc hq =>
    exact accounted_same h trivial rfl (by simp [hpc, SendPc.held]) (by simp [Ledger.note, hpc, Ledger.discarded])
      (by simp [Ledger.note, hpc])
  | get c event que hpc hq =>
    exact accounted_same h trivial rfl (by simp [hpc, hq, SendPc.held])
      (by simp [Ledger.note, hpc, Ledger.discarded]) (by simp [Ledger.note, hpc])
  | discard c event hpc hst =>
    refine accounted_drop h rfl rfl rfl (fun ev => ?_) fun ev he => ?_
    · cases hc : l.confirmed
      all_goals
        simp only [Ledger.note, Ledger.discarded, hpc, hst, hc, SendPc.held, List.count_append, if_true,
          Bool.false_eq_true, if_false]
        omega
    · apply h.unsupported ev
      cases hc : l.confirmed <;> simpa [Ledger.note, hpc, hst, hc] using he
  | enable c event hpc hst =>
    exact accounted_same h trivial rfl (by simp [hpc, SendPc.held]) (by simp [Ledger.note, hpc, hst])
      (by simp [Ledger.note, hpc, hst])
  | block c event hpc | pass c event hpc | putBack c event hpc =>
    refine accounted_same h ?_ rfl ?_ (by simp [Ledger.note, hpc]) (by simp [Ledger.note, hpc])
    · simp [SendPc.uniform]
    · intro ev
      simp only [hpc, SendPc.held, List.count_append, List.count_nil]
      try omega
  | pack c event rest nxt que hpc hq hasdu =>
    have hu := h.uniform
    rw [hpc] at hu
    refine accounted_same h ?_ rfl ?_ (by simp [Ledger.note, hpc]) (by simp [Ledger.note, hpc])
    · intro ev he
      rcases List.mem_append.mp he with he | he
      · exact hu ev he
      · rw [List.mem_singleton.mp he]
        exact hasdu
    · intro ev
      simp [hpc, hq, SendPc.held]
  | miss c event rest nxt que hpc hq =>
    have hu := h.uniform
    rw [hpc] at hu
    exact accounted_same h hu rfl (by simp [hpc, hq, SendPc.held]) (by simp [Ledger.note, hpc])
      (by simp [Ledger.note, hpc])
  | packed c event rest hpc =>
    have hu := h.uniform
    rw [hpc] at hu
    exact accounted_same h hu rfl (by simp [hpc, SendPc.held]) (by simp [Ledger.note, hpc])
      (by simp [Ledger.note, hpc])
  | putBackNext c event rest nxt hpc =>
    have hu := h.uniform
    rw [hpc] at hu
    refine accounted_same h hu rfl (fun ev => ?_) (by simp [Ledger.note, hpc]) (by simp [Ledger.note, hpc])
    simp only [hpc, SendPc.held, List.count_append]
    omega
  | unsupported c event rest hpc hb =>
    have hu := h.uniform
    rw [hpc] at hu
    refine accounted_drop h rfl rfl rfl (fun ev => ?_) fun ev he => ?_
    · simp only [Ledger.note, Ledger.discarded, hpc, hb, SendPc.held, List.count_append]
      omega
    · simp only [Ledger.note, hpc, hb] at he
      have ht := buildIFrame_none hb
      rcases List.mem_append.mp he with he | he
      · exact h.unsupported ev he
      · rcases List.mem_cons.mp he with rfl | he
        · exact ht
        · rw [hu ev he]
          exact ht
  | write c event rest packet hpc hl hb =>
    have hn : l.note s (.send c) = l := by simp [Ledger.note, hpc, hb]
    rw [hn]
    refine ⟨trivial, fun ev => ?_, h.unsupported⟩
    have hbal := h.balance ev
    rw [transmitted_snoc, enqueued_snoc]
    simp only [hpc, Obs.batch, Obs.events, SendPc.held, List.append_nil, List.nil_append, List.count_append] at hbal ⊢
    omega
  | ended c hpc =>
    have hheld := held_of_ended hok hstep rfl
    have hn : (l.note s (.send c)).discarded = l.discarded ∧ (l.note s (.send c)).unsupported = l.unsupported := by
      cases hpc' : s.sender with
      | idle => simp [Ledger.note, hpc', Ledger.discarded]
      | tail | test | stopped => simp [Ledger.note, hpc']
      | got event | enabled event | blocked event | packing event rest | mismatch event rest nxt
      | ready event rest =>
        rw [hpc'] at hheld
        cases hheld
    refine accounted_same h trivial rfl (fun ev => ?_) hn.1 hn.2
    rw [hheld]
    rfl
  | keep c pc hpc hpc' =>
    refine accounted_same h ?_ rfl (fun ev => ?_) (by simp [Ledger.note, hpc]) (by simp [Ledger.note, hpc])
    · rcases hpc' with rfl | rfl <;> trivial
    · rw [hpc]
      rcases hpc' with rfl | rfl <;> rfl
  | testfr c hpc =>
    have hn : l.note s (.send c) = l := by simp [Ledger.note, hpc]
    rw [hn]
    refine ⟨trivial, fun ev => ?_, h.unsupported⟩
    have hbal := h.balance ev
    rw [transmitted_snoc, enqueued_snoc]
    simpa [hpc, Obs.batch, Obs.events, SendPc.held] using hbal
  | answer | take => exact accounted_note h rfl rfl rfl rfl rfl
  | handlerPut => exact accounted_put h rfl rfl rfl
  | raised | counted | done | close => exact ⟨h.uniform, h.balance, h.unsupported⟩
  | reply | sFrame => exact accounted_note h rfl rfl rfl rfl rfl

/-- Between two iterations of `client_send` every event ever enqueued is accounted for. -/
def Conserved (s : Conn σ) (l : Ledger) : Prop :=
  s.sender.held = [] → (enqueued s.log).Perm (transmitted s.log ++ s.que ++ l.discarded)

theorem Accounted.conserved {s : Conn σ} {l : Ledger} (h : Accounted s l) : Conserved s l := by
  intro hheld
  rw [List.perm_iff_count]
  intro ev
  have hb := h.balance ev
  rw [hheld, List.nil_append] at hb
  rw [List.count_append, List.count_append]
  exact hb

theorem accounted_start (st : ClientState) (store : σ) (que : List IecEvent) :
    Accounted (start st store que) {} := by
  refine ⟨trivial, fun ev => ?_, fun ev he => (by cases he)⟩
  rw [transmitted_start, enqueued_start]
  simp [start, SendPc.held, Ledger.discarded]

theorem accounted_reach {st : ClientState} {store : σ} {que : List IecEvent} {s : Conn σ} {l : Ledger}
    (h : Reach (audited (step cb) Ledger.note) (fun p a => sendsSucceed p.1 a = true) (start st store que, {}) (s, l)) :
    Accounted s l :=
  h.inv (P := fun p => Accounted p.1 p.2) (accounted_start st store que) fun p a p' hi hok hstep => by
    obtain ⟨hs, hl⟩ := audited_some hstep
    rw [hl]
    exact accounted_move hi hok hs

theorem exists_ledger {st : ClientState} {store : σ} {que : List IecEvent} {s : Conn σ}
    (h : Reach (step cb) (fun s a => sendsSucceed s a = true) (start st store que) s) : ∃ l, Conserved s l := by
  obtain ⟨l, hl⟩ := h.audit Ledger.note {}
  exact ⟨l, (accounted_reach hl).conserved⟩

/-- In every run in which sends succeed, from any queue: no event is lost or duplicated, and one is dropped
    only if STARTDT was not confirmed at its dequeue, or no longer at the test that follows it, or its own
    type is not known. -/
theorem nothing_lost (cb : Callbacks σ) (st : ClientState) (store : σ) (que : List IecEvent) (s : Conn σ)
    (l : Ledger) (h : Reach (audited (step cb) Ledger.note) (fun p a => sendsSucceed p.1 a = true)
      (start st store que, {}) (s, l)) :
    Conserved s l ∧ ∀ ev ∈ l.discarded, ev ∈ l.refused ∨ ev ∈ l.revoked ∨ Unsupported ev.asdu := by
  have hacc := accounted_reach h
  refine ⟨hacc.conserved, fun ev he => ?_⟩
  rcases List.mem_append.mp he with he | he
  · rcases List.mem_append.mp he with he | he
    · exact .inl he
    · exact .inr (.inl he)
  · exact .inr (.inr (hacc.unsupported ev he))

/-! ## A STOPDT between the dequeue and the test -/

/-- No STOPDT is taken while `client_send` has an event it has not tested STARTDT for. -/
def testedAtOnce (s : Conn σ) : Act σ → Bool
  | .recv frame _ =>
    match s.sender with
    | .got _ => uFunction frame ≠ some .stopdtAct
    | _ => true
  | _ => true

/-- What the dequeue found still holds at the test. -/
def StillConfirmed (s : Conn σ) (l : Ledger) : Prop :=
  l.revoked = [] ∧ ∀ event, s.sender = .got event → l.confirmed = true → s.st.startdtConfirmed = true

theorem stillConfirmed_away {s s' : Conn σ} {l l' : Ledger} (h : StillConfirmed s l) (hl : l'.revoked = l.revoked)
    (hs : ∀ event, s'.sender ≠ .got event) : StillConfirmed s' l' :=
  ⟨by rw [hl]; exact h.1, fun event he => absurd he (hs event)⟩

/-- A frame taken while an event waits for its test is no STOPDT. -/
theorem noted_confirmed {s : Conn σ} {frame : Bytes} {now : Datetime} {event : IecEvent}
    (hok : testedAtOnce s (.recv frame now) = true) (hpc : s.sender = .got event)
    (hc : s.st.startdtConfirmed = true) : (noted frame s.st).startdtConfirmed = true := by
  have hstop : uFunction frame ≠ some .stopdtAct := by
    simpa [testedAtOnce, hpc] using hok
  simp [noted, hstop, hc]

theorem stillConfirmed_step {s s' : Conn σ} {a : Act σ} {l : Ledger} (h : StillConfirmed s l)
    (hok : testedAtOnce s a = true) (hstep : step cb s a = some s') : StillConfirmed s' (l.note s a) := by
  cases step_move hstep with
  | put | store | handlerPut | raised | reply | sFrame | counted | done | close => exact h
  | get c event que hpc hq =>
    refine ⟨by simpa [Ledger.note, hpc] using h.1, fun ev he hc => ?_⟩
    simpa [Ledger.note, hpc] using hc
  | discard c event hpc hst =>
    have hc : l.confirmed = false := by
      rw [← Bool.not_eq_true]
      intro hc
      have := h.2 event hpc hc
      rw [hst] at this
      cases this
    exact stillConfirmed_away h (by simp [Ledger.note, hpc, hst, hc]) (by simp)
  | unsupported c event rest hpc hb | write c event rest packet hpc hl hb =>
    exact stillConfirmed_away h (by simp [Ledger.note, hpc, hb]) (by simp)
  | enable c event hpc hst => exact stillConfirmed_away h (by simp [Ledger.note, hpc, hst]) (by simp)
  | stop => exact stillConfirmed_away h rfl (by simp)
  | timeout c hpc | block c event hpc | pass c event hpc | putBack c event hpc | pack c event rest nxt que hpc
  | miss c event rest nxt que hpc | packed c event rest hpc | putBackNext c event rest nxt hpc | testfr c hpc =>
    exact stillConfirmed_away h (by simp [Ledger.note, hpc]) (by simp)
  | keep c pc hpc hpc' =>
    refine stillConfirmed_away h (by simp [Ledger.note, hpc]) fun event => ?_
    rcases hpc' with rfl | rfl <;> simp
  | ended c hpc =>
    refine stillConfirmed_away h ?_ (by simp)
    cases hpc' : s.sender with
    | got event =>
      simp only [step, sendStep, hpc', Option.some.injEq, Conn.mk.injEq] at hstep
      split at hstep <;> simp at hstep
    | ready event rest =>
      simp only [Ledger.note, hpc']
      split <;> rfl
    | _ => simp [Ledger.note, hpc']
  | answer frame now | take frame now =>
    exact ⟨h.1, fun event hpc hc => noted_confirmed hok hpc (h.2 event hpc hc)⟩

/-- Where no STOPDT comes in between, only what was dequeued while STARTDT was not confirmed is refused. -/
theorem revoked_nil (cb : Callbacks σ) (st : ClientState) (store : σ) (que : List IecEvent) (s : Conn σ)
    (l : Ledger) (h : Reach (audited (step cb) Ledger.note) (fun p a => testedAtOnce p.1 a = true)
      (start st store que, {}) (s, l)) : l.revoked = [] := by
  have h0 : StillConfirmed (start st store que) {} := ⟨rfl, fun event he => by cases he⟩
  have hs : StillConfirmed s l := h.inv (P := fun p => StillConfirmed p.1 p.2) h0 fun p a p' hi hok hstep => by
    obtain ⟨hs, hl⟩ := audited_some hstep
    rw [hl]
    exact stillConfirmed_step hi hok hs
  exact hs.1

/-- An event dequeued in the started state is dropped. -/
theorem a_stopdt_drops_the_event_in_hand :
    ¬ ∀ s l, Reach (audited (step emptyStation) Ledger.note) (fun p a => sendsSucceed p.1 a = true)
        (start (createClientState kp1Conf 1) () [], {}) (s, l) →
      Conserved s l ∧ ∀ ev ∈ l.discarded, ev ∈ l.refused ∨ Unsupported ev.asdu := by
  intro hall
  have hrun : (run (checked (fun p a => sendsSucceed p.1 a) (audited (step emptyStation) Ledger.note))
      (start (createClientState kp1Conf 1) () [], {})
      [.recv startdtAct sampleTime, .handle, .put (point 1 45 1), .send false, .recv stopdtFrame sampleTime,
        .handle, .send false]).map (fun p => p.2) =
      some { confirmed := true, revoked := [point 1 45 1] } := by decide
  obtain ⟨⟨s, l⟩, hr, hl⟩ := exists_of_run _ hrun
  dsimp only at hl
  subst hl
  rcases (hall s _ (reach_of_checked hr)).2 (point 1 45 1) (by decide) with hin | hun
  · exact absurd hin (by decide)
  · exact absurd (hun (point 1 45 1)) (by decide)

/-- A type the encoder does not know, between two single points. -/
theorem nothing_lost_mixed : ∃ (s : Conn Unit) (l : Ledger),
    transmitted s.log = [point 1 45 1, point 1 47 0] ∧ l.unsupported = [point 2 46 1] ∧ Conserved s l ∧
      ∀ ev ∈ l.discarded, ev ∈ l.refused ∨ ev ∈ l.revoked ∨ Unsupported ev.asdu := by
  have hrun : (run (checked (fun p a => sendsSucceed p.1 a) (audited (step emptyStation) Ledger.note))
      (start startedState () [point 1 45 1, point 2 46 1, point 1 47 0], {})
      (List.replicate 19 (.send false))).map (fun p => (transmitted p.1.log, p.2.unsupported)) =
      some ([point 1 45 1, point 1 47 0], [point 2 46 1]) := by decide
  obtain ⟨⟨s, l⟩, hr, hs⟩ := exists_of_run _ hrun
  simp only [Prod.mk.injEq] at hs
  exact ⟨s, l, hs.1, hs.2, nothing_lost emptyStation startedState () _ s l (reach_of_checked hr)⟩

end Drv60870.Server
