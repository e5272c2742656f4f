/-
  Drv60870.Server.InTurn — the order of one address's updates, from the storage to the peer.

  `update_val` puts its event when it has released the lock. A second update of the signal
  that commits in between may put first, and then a client is told the old value last. And
  `client_send` may put an event back behind a later one (`Order`).

  Proved:
  - Where an update of the address is not committed while an earlier one is being put
    (`inTurn`), none is put back behind another (`inPlace`) and no peer comes back too early:
    every client is put, in the order in which they were written, all events of the address
    that were written while it was subscribed, and is sent them in this order (`told_in_turn`).
  - An event put goes behind all that is under way of its address (`Behind.put`), and what is
    written is due to the subscribers and on its way to them behind all else
    (`turns_committed`).
  Traces: two updates from the console of which the second is put first (`raced`); a command
  and its undoing, the second committed when the first has been put (`closedAndOpened`).

  The other addresses may do what they like.
-/

import Drv60870.Server.FannedOut

namespace Drv60870.Server

open Lib Lib.Octets Lib.Calendar Lib.Python Lib.Runs Drv60870.Const Protocol Storage

/-! ## One connection -/

section Connection

variable {σ : Type} {cb : Callbacks σ}

/-- An event of the address is put back only while none of the address is queued. -/
def inPlace (a : Int) (s : Conn σ) : Act σ → Bool
  | .send _ =>
    match s.sender with
    | .blocked event | .mismatch _ _ event => event.ioa ≠ a || s.que.all fun ev => ev.ioa ≠ event.ioa
    | _ => true
  | _ => true

/-- What of the address is sent, held or queued was enqueued in this order. -/
def Behind (a : Int) (s : Conn σ) : Prop :=
  (onIoa a (transmitted s.log ++ (s.sender.held ++ s.que))).Sublist (onIoa a (enqueued s.log))

theorem Behind.shift {a : Int} {s s' : Conn σ} (h : Behind a s) (hlog : s'.log = s.log)
    (hsub : (onIoa a (s'.sender.held ++ s'.que)).Sublist (onIoa a (s.sender.held ++ s.que))) : Behind a s' := by
  rw [Behind, onIoa_append] at h
  rw [Behind, hlog, onIoa_append]
  exact ((List.Sublist.refl _).append hsub).trans h

theorem Behind.moved {a : Int} {s s' : Conn σ} (h : Behind a s) (hlog : s'.log = s.log)
    (hsub : (s'.sender.held ++ s'.que).Sublist (s.sender.held ++ s.que)) : Behind a s' :=
  h.shift hlog (hsub.filter _)

theorem Behind.put {a : Int} {s s' : Conn σ} {ev : IecEvent} (h : Behind a s) (hs : s'.sender = s.sender)
    (hq : s'.que = s.que ++ [ev]) (hlog : s'.log = s.log ++ [.put ev]) : Behind a s' := by
  have happ := h.append (List.Sublist.refl (onIoa a [ev]))
  rw [← onIoa_append, ← onIoa_append] at happ
  rw [Behind, hs, hq, hlog, transmitted_snoc, enqueued_snoc]
  simpa [Obs.batch, Obs.events] using happ

theorem Behind.note {a : Int} {s s' : Conn σ} {o : Obs} (h : Behind a s) (hs : s'.sender = s.sender)
    (hq : s'.que = s.que) (hlog : s'.log = s.log ++ [o]) (he : o.events = []) (hb : o.batch = []) : Behind a s' := by
  rw [Behind, hs, hq, hlog, transmitted_snoc, enqueued_snoc, he, hb, List.append_nil, List.append_nil]
  exact h

/-- The event that is put back is of another address, or none of its address is queued. -/
theorem onIoa_place {a : Int} {ev : IecEvent} {que : List IecEvent}
    (h : (decide (ev.ioa ≠ a) || que.all fun x => x.ioa ≠ ev.ioa) = true) :
    onIoa a (que ++ [ev]) = onIoa a (ev :: que) := by
  by_cases ha : ev.ioa = a
  · refine onIoa_putBack ?_ a
    simpa [ha] using h
  · rw [onIoa_append]
    show onIoa a que ++ onIoa a [ev] = _
    simp [onIoa, ha]

theorem Behind.move {a : Int} {s s' : Conn σ} {b : Act σ} (h : Behind a s) (hok : inPlace a s b = true)
    (hm : Move cb s b s') : Behind a s' := by
  cases hm with
  | put event => exact h.put rfl rfl rfl
  | store => exact h
  | stop hpc => exact h.moved rfl (List.sublist_append_right _ _)
  | timeout c hpc hq => exact h.moved rfl (List.sublist_append_right _ _)
  | get c event que hpc hq =>
    refine h.moved rfl ?_
    rw [hpc, hq]
    exact List.Sublist.refl _
  | discard c event hpc => exact h.moved rfl (List.sublist_append_right _ _)
  | enable c event hpc | block c event hpc | pass c event hpc | packed c event rest hpc =>
    refine h.moved rfl ?_
    rw [hpc]
    exact List.Sublist.refl _
  | putBack c event hpc =>
    simp only [inPlace, hpc] at hok
    refine h.shift rfl ?_
    rw [hpc]
    show (onIoa a (s.que ++ [event])).Sublist (onIoa a (event :: s.que))
    rw [onIoa_place hok]
  | pack c event rest nxt que hpc hq =>
    refine h.moved rfl ?_
    rw [hpc, hq]
    show (event :: (rest ++ [nxt]) ++ que).Sublist (event :: rest ++ nxt :: que)
    rw [← List.cons_append, List.append_assoc]
    exact List.Sublist.refl _
  | miss c event rest nxt que hpc hq =>
    refine h.moved rfl ?_
    rw [hpc, hq]
    show (event :: rest ++ [nxt] ++ que).Sublist (event :: rest ++ nxt :: que)
    rw [List.append_assoc]
    exact List.Sublist.refl _
  | putBackNext c event rest nxt hpc =>
    simp only [inPlace, hpc] at hok
    refine h.shift rfl ?_
    rw [hpc]
    show (onIoa a (event :: rest ++ (s.que ++ [nxt]))).Sublist (onIoa a (event :: rest ++ [nxt] ++ s.que))
    rw [List.append_assoc, onIoa_append, onIoa_place hok, ← onIoa_append]
    exact List.Sublist.refl _
  | unsupported c event rest hpc => exact h.moved rfl (List.sublist_append_right _ _)
  | write c event rest packet hpc =>
    rw [Behind, hpc] at h
    rw [Behind, transmitted_snoc, enqueued_snoc]
    simpa [Obs.batch, Obs.events, SendPc.held] using h
  | ended c hpc => exact h.moved rfl (List.sublist_append_right _ _)
  | keep c pc hpc hpc' =>
    rcases hpc' with rfl | rfl
    · exact h.moved rfl (List.sublist_append_right _ _)
    · exact h.moved rfl (List.sublist_append_right _ _)
  | testfr c hpc =>
    rw [Behind, hpc] at h
    rw [Behind, transmitted_snoc, enqueued_snoc]
    simpa [Obs.batch, Obs.events, SendPc.held] using h
  | answer | take => exact h.note rfl rfl rfl rfl rfl
  | handlerPut result event puts hr => exact h.put rfl rfl rfl
  | raised | counted | done | close => exact h
  | reply | sFrame => exact h.note rfl rfl rfl rfl rfl

end Connection

namespace Hub

variable {Addr : Type}

/-! ## The updates of an address -/

def about (a : Int) (evs : List IecEvent) : List IecEvent := onIoa a (news evs)

theorem about_append (a : Int) (xs ys : List IecEvent) : about a (xs ++ ys) = about a xs ++ about a ys := by
  rw [about, news_append, onIoa_append]
  rfl

theorem about_none {a : Int} {evs : List IecEvent} (h : ∀ ev ∈ evs, ev.cot = 3 → ev.ioa ≠ a) : about a evs = [] := by
  refine List.filter_eq_nil_iff.mpr fun ev hm => ?_
  obtain ⟨hm, hcot⟩ := List.mem_filter.mp hm
  simpa using h ev hm (of_decide_eq_true hcot)

/-! ## The calls in flight -/

def carries (a : Int) : Flight Nat Val → Bool
  | .update event targets => event.ioa = a && !targets.isEmpty
  | .gi .. => false

def Reads : Flight Nat Val → Prop
  | .update .. => True
  | .gi _ _ held => ∀ event, held = some event → event.cot = 20

theorem toward_silent {a : Int} {flight : Flight Nat Val} (hr : Reads flight) (hs : carries a flight = false)
    (i : Nat) : about a (toward i flight) = [] := by
  refine about_none fun ev hm hcot => ?_
  obtain ⟨p, hp, rfl⟩ := List.mem_map.mp hm
  have hp := (List.mem_filter.mp hp).1
  cases flight with
  | update event targets =>
    obtain ⟨q, hq, rfl⟩ := List.mem_map.mp hp
    cases targets with
    | nil => cases hq
    | cons q' targets =>
      have hne : ¬ event.ioa = a := by simpa [carries] using hs
      exact hne
  | gi outQue snapshot held =>
    obtain ⟨event, hheld, -, rfl⟩ := Flight.mem_inHand_gi.mp hp
    have h20 := hr event hheld
    have h3 : event.cot = 3 := hcot
    rw [h3] at h20
    cases h20

theorem underway_silent {a : Int} {calls : List Pending} (hr : ∀ call ∈ calls, Reads call.flight)
    (hs : ∀ call ∈ calls, carries a call.flight = false) (i : Nat) :
    about a (calls.flatMap fun call => toward i call.flight) = [] := by
  induction calls with
  | nil => rfl
  | cons call calls ih =>
    rw [List.flatMap_cons, about_append, toward_silent (hr call List.mem_cons_self) (hs call List.mem_cons_self),
      List.nil_append]
    exact ih (fun c hc => hr c (List.mem_cons_of_mem _ hc)) fun c hc => hs c (List.mem_cons_of_mem _ hc)

theorem reads_advance {s : Signals Addr Nat} {flight flight' : Flight Nat Val} {out : Option (Nat × Event Val)}
    (ha : flight.advance s = some (out, flight')) : Reads flight' := by
  cases Flight.advance_turn ha with
  | put => trivial
  | read =>
    intro event he
    obtain ⟨sg, -, rfl⟩ := Option.map_eq_some_iff.mp he
    rfl
  | send | skip =>
    intro event he
    cases he

/-- A call carries no more than it had to. -/
theorem carries_advance {a : Int} {s : Signals Addr Nat} {flight flight' : Flight Nat Val}
    {out : Option (Nat × Event Val)} (ha : flight.advance s = some (out, flight')) (hs : carries a flight' = true) :
    carries a flight = true := by
  cases Flight.advance_turn ha with
  | put event q targets =>
    simp only [carries, Bool.and_eq_true] at hs ⊢
    exact ⟨hs.1, rfl⟩
  | read | send | skip => cases hs

/-- What a call puts is no update of the address, or the call had one to put. -/
theorem put_carries {a : Int} {s : Signals Addr Nat} {flight flight' : Flight Nat Val} {i : Nat} {event : Event Val}
    (ha : flight.advance s = some (some (i, event), flight')) (hr : Reads flight) :
    about a [event.iec] = [] ∨ carries a flight = true := by
  cases hs : carries a flight with
  | true => exact .inr rfl
  | false =>
    have hnone := toward_silent hr hs i
    rw [toward_put ha, if_pos rfl, ← List.singleton_append, about_append] at hnone
    exact .inl (List.append_eq_nil_iff.mp hnone).1

/-! ## The condition -/

/-- The update is of another address, or none of the address is being put. -/
def clear (a : Int) (h : Hub Addr) (u : Update Val) : Bool :=
  (h.storage.find u).all fun p => p.2.ioa ≠ a || h.calls.all fun call => !carries a call.flight

/-- An update of the address is committed when the last one has been put to every client. -/
def inTurn (a : Int) (h : Hub Addr) : Act Addr → Bool
  | .update _ call => h.clear a call.update
  | .order i _ =>
    (h.lines[i]?).all fun l => l.job.all fun job =>
      job.orders.head?.all fun o => h.clear a { val := o.1, ioa := some (o.2 : Int) }
  | _ => true

def inPlace (a : Int) (h : Hub Addr) : Act Addr → Bool
  | .send i clock => (h.lines[i]?).all fun l => Server.inPlace a l.conn (.send clock)
  | _ => true

/-! ## The invariant -/

structure Turns (a : Int) (h : Hub Addr) : Prop where
  reads : ∀ call ∈ h.calls, Reads call.flight
  one : (h.calls.countP fun call => carries a call.flight) ≤ 1
  order : ∀ (i : Nat) (l : Line Addr), h.lines[i]? = some l →
    about a (enqueued l.conn.log) ++ about a (h.underway i) = about a (due i h.log)

theorem turns_start (a : Int) (conf : Conf) (ca : Int) (now : Datetime) (rows : List Row) :
    (start conf ca now rows : Hub Addr).Turns a := by
  refine ⟨fun call hcall => absurd hcall List.not_mem_nil, Nat.zero_le 1, fun i l hl => ?_⟩
  cases hl

theorem Turns.line {a : Int} {h : Hub Addr} {i : Nat} {l₀ l : Line Addr} (ht : h.Turns a) (hl : h.lines[i]? = some l₀)
    (hnews : news (enqueued l.conn.log) = news (enqueued l₀.conn.log)) : (h.setLine i l).Turns a := by
  refine ⟨ht.reads, ht.one, fun j l' hl' => ?_⟩
  rw [setLine_get hl] at hl'
  by_cases hj : j = i
  · rw [if_pos hj] at hl'
    cases hl'
    have hbefore := ht.order i l₀ hl
    rw [about, ← hnews, ← about] at hbefore
    rw [hj]
    exact hbefore
  · rw [if_neg hj] at hl'
    exact ht.order j l' hl'

theorem turns_one {a : Int} {h : Hub Addr} {n : Nat} {call : Pending} {flight : Flight Nat Val}
    {out : Option (Nat × Event Val)} (ht : h.Turns a) (hcall : h.calls[n]? = some call)
    (hadv : call.flight.advance h.storage = some (out, flight)) :
    (∀ call' ∈ h.calls.set n { call with flight }, Reads call'.flight) ∧
      ((h.calls.set n { call with flight }).countP fun call => carries a call.flight) ≤ 1 := by
  refine ⟨fun call' hcall' => ?_, ?_⟩
  · rcases List.mem_or_eq_of_mem_set hcall' with hcall' | rfl
    · exact ht.reads call' hcall'
    · exact reads_advance hadv
  · obtain ⟨before, behind, hcalls, hset⟩ := split_set { call with flight } hcall
    have hone := ht.one
    rw [hcalls, List.countP_append, List.countP_cons] at hone
    rw [hset, List.countP_append, List.countP_cons]
    by_cases hs : carries a flight = true
    · rw [if_pos (carries_advance hadv hs)] at hone
      rw [if_pos hs]
      exact hone
    · rw [if_neg hs]
      omega

/-- Before the call that puts an update of the address, nothing of it is under way. -/
theorem Turns.first {a : Int} {h : Hub Addr} {call : Pending} {before behind : List Pending} (ht : h.Turns a)
    (hcalls : h.calls = before ++ call :: behind) (hs : carries a call.flight = true) (i : Nat) :
    about a (before.flatMap fun call => toward i call.flight) = [] := by
  have hone := ht.one
  rw [hcalls, List.countP_append, List.countP_cons, if_pos hs] at hone
  refine underway_silent (fun c hc => ht.reads c (hcalls ▸ List.mem_append_left _ hc)) (fun c hc => ?_) i
  have hzero : (before.countP fun call => carries a call.flight) = 0 := by omega
  exact Bool.eq_false_iff.mpr (List.countP_eq_zero.mp hzero c hc)

section Steps

variable [DecidableEq Addr]

theorem turns_accept {a : Int} {h : Hub Addr} (hold : h.Told) (ht : h.Turns a) (addr : Addr) :
    (h.opened addr).Turns a := by
  have hdue : ∀ i, due i (h.opened addr).log = due i h.log := fun i => due_snoc i h.log (.joined h.lines.length)
  refine ⟨ht.reads, ht.one, fun i l hl => ?_⟩
  rw [opened_get] at hl
  rw [hdue]
  split at hl
  · rename_i hi
    cases hl
    have hnone : (h.opened addr).underway i = [] := hold.unborn (Nat.le_of_eq hi.symm)
    rw [hold.early i (Nat.le_of_eq hi.symm), hnone]
    rfl
  · exact ht.order i l hl

omit [DecidableEq Addr] in
theorem commit_ioa {s : Signals Addr Nat} {now : Datetime} {u : Update Val} {c : Commit Addr Nat Val F64}
    (hc : s.commit now u = .ok c) {event : Event Val} (he : c.event = some event) :
    ∃ p, s.find u = some p ∧ event.ioa = p.2.ioa := by
  rcases DataStorage.commit_ok hc with ⟨rfl, -⟩ | ⟨id, sg, hf, -, rfl⟩
  · cases he
  · refine ⟨(id, sg), hf, ?_⟩
    simp only [DataStorage.announce] at he
    split at he
    · cases he
    · cases he
      rfl

/-- What is written is due to the subscribers, and on its way to them behind all else. -/
theorem turns_committed {a : Int} {h : Hub Addr} (hin : h.Entered) (ht : h.Turns a) (owner : Option Nat)
    {now : Datetime} {u : Update Val} {c : Commit Addr Nat Val F64} (hc : h.storage.commit now u = .ok c)
    (hok : h.clear a u = true) : (h.committed owner c).Turns a := by
  cases hev : c.event with
  | none =>
    rw [committed_none h owner hev]
    exact ⟨ht.reads, ht.one, ht.order⟩
  | some event =>
    rw [committed_some h owner hc hev]
    refine ⟨fun call hcall => ?_, ?_, fun i l hl => ?_⟩
    · rcases List.mem_append.mp hcall with hcall | hcall
      · exact ht.reads call hcall
      · rw [List.mem_singleton.mp hcall]
        trivial
    · obtain ⟨p, hf, hioa⟩ := commit_ioa hc hev
      rw [clear, hf, Option.all_some, ← hioa] at hok
      rw [List.countP_append, List.countP_singleton]
      by_cases hs : carries a (.update event h.storage.subs.values) = true
      · have ha : event.ioa = a := by
          rw [carries, Bool.and_eq_true] at hs
          exact of_decide_eq_true hs.1
        have hzero : (h.calls.countP fun call => carries a call.flight) = 0 := by
          refine List.countP_eq_zero.mpr fun call hcall => ?_
          have hall : (h.calls.all fun call => !carries a call.flight) = true := by simpa [ha] using hok
          simpa using List.all_eq_true.mp hall call hcall
        rw [hzero, if_pos hs]
      · rw [if_neg hs]
        exact ht.one
    · have hbefore := ht.order i l hl
      have hcount := hin.count i
      rw [due_snoc, underway, List.flatMap_append, about_append]
      show about a (enqueued l.conn.log) ++ (about a (h.underway i) ++ about a ([_].flatMap _)) =
        about a (if subscribed i h.log then due i h.log ++ [event.iec] else due i h.log)
      rw [List.flatMap_singleton, toward_update, hcount, ← List.append_assoc, hbefore]
      by_cases hs : subscribed i h.log = true
      · rw [if_pos hs, if_pos hs, about_append]
        rfl
      · rw [if_neg hs, if_neg hs]
        exact List.append_nil _

omit [DecidableEq Addr] in
theorem turns_put {a : Int} {h : Hub Addr} {n : Nat} {call : Pending} {flight : Flight Nat Val} {i : Nat}
    {event : Event Val} {l : Line Addr} (ht : h.Turns a) (hcall : h.calls[n]? = some call)
    (hadv : call.flight.advance h.storage = some (some (i, event), flight)) (hl : h.lines[i]? = some l) :
    Turns a { h.setLine i { l with conn :=
        { l.conn with que := l.conn.que ++ [event.iec], log := l.conn.log ++ [.put event.iec] } } with
          calls := h.calls.set n { call with flight } } := by
  obtain ⟨hreads, hone⟩ := turns_one ht hcall hadv
  refine ⟨hreads, hone, fun j l' hl' => ?_⟩
  obtain ⟨before, behind, hcalls, hset⟩ := split_set { call with flight } hcall
  have hunder : h.underway j = (before.flatMap fun call => toward j call.flight) ++
      (toward j call.flight ++ behind.flatMap fun call => toward j call.flight) := by
    rw [underway, hcalls, List.flatMap_append, List.flatMap_cons]
  show about a (enqueued l'.conn.log) ++
    about a ((h.calls.set n { call with flight }).flatMap fun call => toward j call.flight) = about a (due j h.log)
  rw [hset, List.flatMap_append, List.flatMap_cons, about_append, about_append]
  have hl' := (setLine_get hl _ j).symm.trans hl'
  split at hl'
  · rename_i hj
    cases hl'
    have hbefore := ht.order i l hl
    rw [← hj, hunder, toward_put hadv j, if_pos hj.symm, about_append, about_append, ← List.singleton_append,
      about_append] at hbefore
    show about a (enqueued (l.conn.log ++ [.put event.iec])) ++ _ = _
    rw [enqueued_snoc, about_append, ← hbefore]
    show about a _ ++ about a [event.iec] ++ _ = _
    rcases put_carries hadv (ht.reads call (List.mem_of_getElem? hcall)) with hother | hs
    · rw [hother, List.append_nil, List.nil_append]
    · rw [ht.first hcalls hs j, List.nil_append, List.nil_append, List.append_assoc, List.append_assoc]
  · rename_i hj
    have hbefore := ht.order j l' hl'
    rw [hunder, toward_put hadv j, if_neg (Ne.symm hj), about_append, about_append] at hbefore
    exact hbefore

theorem turns_step {a : Int} {h h' : Hub Addr} {act : Act Addr} (hin : h.Entered) (hold : h.Told) (ht : h.Turns a)
    (hok : h.inTurn a act = true) (hs : h.step act = some h') : h'.Turns a := by
  cases step_move hs with
  | accept addr => exact turns_accept hold ht addr
  | raised => exact ht
  | update now call c hc => exact turns_committed hin ht none hc hok
  | read n call flight hcall hadv =>
    obtain ⟨hreads, hone⟩ := turns_one ht hcall hadv
    refine ⟨hreads, hone, fun i l hl => ?_⟩
    obtain ⟨before, behind, hcalls, hset⟩ := split_set { call with flight } hcall
    have hnone : about a (toward i call.flight) = [] ∧ about a (toward i flight) = [] := by
      refine ⟨about_none fun ev hm hcot => ?_, about_none fun ev hm hcot => ?_⟩
      · exact absurd hm (List.count_eq_zero.mp (toward_read hadv i hcot).1)
      · exact absurd hm (List.count_eq_zero.mp (toward_read hadv i hcot).2)
    have hbefore := ht.order i l hl
    rw [underway, hcalls, List.flatMap_append, List.flatMap_cons, about_append, about_append, hnone.1] at hbefore
    show about a (enqueued l.conn.log) ++
      about a ((h.calls.set n { call with flight }).flatMap fun call => toward i call.flight) = about a (due i h.log)
    rw [hset, List.flatMap_append, List.flatMap_cons, about_append, about_append, hnone.2]
    exact hbefore
  | put n call flight i event l hcall hadv hl => exact turns_put ht hcall hadv hl
  | recv i frame now l hl =>
    have hline := ht.line (l := { l with job := some ⟨frame, now, orders now frame l.conn.st⟩ }) hl rfl
    have hquiet : ∀ call ∈ h.gi i l.conn.st frame now, carries a call.flight = false := by
      intro call hcall
      rw [(mem_gi hcall).2.2]
      rfl
    have hreads : ∀ call ∈ h.gi i l.conn.st frame now, Reads call.flight := by
      intro call hcall
      rw [(mem_gi hcall).2.2]
      exact fun event he => (by cases he)
    refine ⟨fun call hcall => ?_, ?_, fun j l' hl' => ?_⟩
    · exact (List.mem_append.mp hcall).elim (ht.reads call) (hreads call)
    · have hzero := List.countP_eq_zero.mpr fun call hcall => Bool.eq_false_iff.mp (hquiet call hcall)
      rw [List.countP_append, hzero]
      exact ht.one
    · rw [underway, List.flatMap_append, about_append, underway_silent hreads hquiet j, List.append_nil]
      exact hline.order j l' hl'
  | order i now l job val ioa orders c hl hjob ho hret hc =>
    have hclear : h.clear a { val, ioa := some (ioa : Int) } = true := by
      simpa [inTurn, hl, hjob, ho] using hok
    exact (turns_committed hin ht (some i) hc hclear).line hl rfl
  | finish i l job conn hl hjob ho hret hc =>
    exact ht.line hl (conn_quiet hc (fun ev => (by simp)) (hold.ending i l hl)).2
  | own act i b l conn ha hl hc => exact ht.line hl (conn_quiet hc (own_quiet ha) (hold.ending i l hl)).2
  | leave i l hl => exact ht.line hl rfl
  | unsubscribe i l hl hp =>
    have hline := ht.line (l := { l with phase := .gone }) hl rfl
    have hdue : ∀ j, due j (h.log ++ [.left i]) = due j h.log := fun j => due_snoc j h.log (.left i)
    exact ⟨hline.reads, hline.one, fun j l' hl' => (hline.order j l' hl').trans (congrArg (about a) (hdue j)).symm⟩

theorem turns_reach {a : Int} {conf : Conf} {ca : Int} {now : Datetime} {rows : List Row} {h : Hub Addr}
    (hr : Reach step (fun h act => h.addressFree act = true ∧ h.inTurn a act = true) (start conf ca now rows) h)
    (i : Nat) (l : Line Addr) (hl : h.lines[i]? = some l) :
    about a (enqueued l.conn.log) ++ about a (h.underway i) = about a (due i h.log) := by
  obtain ⟨-, -, hturns⟩ : h.Entered ∧ h.Told ∧ h.Turns a := hr.inv (P := fun h => h.Entered ∧ h.Told ∧ h.Turns a)
    ⟨entered_start conf ca now rows, told_start conf ca now rows, turns_start a conf ca now rows⟩
    fun _ _ _ hi hok hs => ⟨entered_step hi.1 hok.1 hs, told_step hi.1 hi.2.1 hs,
      turns_step hi.1 hi.2.1 hi.2.2 hok.2 hs⟩
  exact hturns.order i l hl

/-- In every run of the server in which no peer comes back too early, the updates of one address are committed in
    turn and none is put back behind another: every client is put the address's updates that were written while
    it was subscribed, in the order in which they were written and with none left out but those on their way,
    and is sent them in this order. -/
theorem told_in_turn (a : Int) (conf : Conf) (ca : Int) (now : Datetime) (rows : List Row) (h : Hub Addr)
    (hr : Reach step (fun h act => h.addressFree act = true ∧ h.inTurn a act = true ∧ h.inPlace a act = true)
      (start conf ca now rows) h)
    (i : Nat) (l : Line Addr) (hl : h.lines[i]? = some l) :
    about a (enqueued l.conn.log) ++ about a (h.underway i) = about a (due i h.log) ∧
      (about a (transmitted l.conn.log)).Sublist (about a (due i h.log)) := by
  have hconn : Reach (Conn.step posting) (fun s b => Server.inPlace a s b = true)
      (Server.start (createClientState conf ca) () []) l.conn := by
    refine line_reach (fun s b hb => ?_) (fun h i l clock hok hl => ?_) hr hl
    · cases b with
      | send clock => exact absurd rfl (hb clock)
      | _ => rfl
    · have hok := hok.2.2
      rw [inPlace, hl] at hok
      exact hok
  have h0 : Behind a (Server.start (createClientState conf ca) () []) := by
    rw [Behind, transmitted_start, enqueued_start]
    exact List.Sublist.refl _
  have hbehind : Behind a l.conn := hconn.inv h0 fun _ _ _ hi hok hs => hi.move hok (Server.step_move hs)
  have horder := turns_reach (hr.mono fun _ _ hok => ⟨hok.1, hok.2.1⟩) i l hl
  refine ⟨horder, ?_⟩
  have hsent : (onIoa a (transmitted l.conn.log)).Sublist (onIoa a (enqueued l.conn.log)) := by
    rw [Behind, onIoa_append] at hbehind
    exact (List.sublist_append_left _ _).trans hbehind
  have hnews : (about a (transmitted l.conn.log)).Sublist (about a (enqueued l.conn.log)) := by
    rw [about, about, onIoa, onIoa, news, news, List.filter_comm, List.filter_comm (l := enqueued l.conn.log)]
    exact hsent.filter _
  rw [← horder]
  exact hnews.trans (List.sublist_append_left _ _)

end Steps

/-- Two updates from the console; the second commits before the first is put, and is put first. -/
def raced : List (Act String) :=
  [.accept "first", .update sampleTime (.single true 100), .update sampleTime (.single false 100), .turn 1, .turn 0]

example : (run (checked (fun h act => h.addressFree act && h.inPlace 100 act) step)
    (start kp1Conf 1 sampleTime [switchRow]) raced).map (fun h => ((about 100 (due 0 h.log)).map fun ev => ev.val,
      (h.lines[0]?).map fun l => (about 100 (enqueued l.conn.log)).map fun ev => ev.val)) =
    some ([.int 1, .int 0], some [.int 0, .int 1]) := by decide +kernel

def openFrame : Bytes := iFrame 1 0 [0x2D, 0x01, 0x06, 0x00, 0x01, 0x00, 0x64, 0x00, 0x00, 0x00]

/-- The first client opens the switch again when the second has been told that it was closed. -/
def closedAndOpened : List (Act String) :=
  twoClients ++ [.recv 0 openFrame sampleTime, .order 0 sampleTime, .turn 1, .turn 1, .finish 0, .handle 0] ++
    List.replicate 7 (.send 1 false)

theorem told_in_turn_closedAndOpened : ∃ (h : Hub String) (l : Line String), h.lines[1]? = some l ∧
    (about 100 (transmitted l.conn.log)).map (fun ev => ev.val) = [.int 1, .int 0] ∧
    about 100 (enqueued l.conn.log) ++ about 100 (h.underway 1) = about 100 (due 1 h.log) ∧
    (about 100 (transmitted l.conn.log)).Sublist (about 100 (due 1 h.log)) := by
  have hrun : (run (checked (fun h act => h.addressFree act && (h.inTurn 100 act && h.inPlace 100 act)) step)
      (start kp1Conf 1 sampleTime [switchRow]) closedAndOpened).map (fun h => (h.lines[1]?).map fun l =>
        (about 100 (transmitted l.conn.log)).map fun ev => ev.val) =
      some (some [.int 1, .int 0]) := by decide +kernel
  obtain ⟨h, hr, hh⟩ := exists_of_run _ hrun
  obtain ⟨l, hl, hsent⟩ := Option.map_eq_some_iff.mp hh
  have hok := (reach_of_checked hr).mono fun h act hok => by simpa only [Bool.and_eq_true] using hok
  exact ⟨h, l, hl, hsent, told_in_turn 100 kp1Conf 1 sampleTime [switchRow] h hok 1 l hl⟩

end Hub

end Drv60870.Server
