/-
  Drv60870.Server.FannedOut — every update at every client, once.

  `update_val` puts its event to the queues that are subscribed when it commits, and puts it
  after it has released the lock. So an event is on its way to some clients while others have
  sent it. The account is over all threads: the calls in flight, the queues, `client_send`'s
  hand, the wire, and what `client_send` has dropped (`Ledger`).

  Proved:
  - In every run in which sends succeed and no peer comes back too early (`addressFree`), the
    events written while a connection was subscribed are each in exactly one of these places
    and as often as they were written (`fanned_out`). Dropped is an event refused before
    STARTDT, one revoked by a STOPDT between dequeue and test, and one of a type without an
    encoder.
  - A commit tells each subscriber once (`told_committed`), an interrogation tells nobody
    anything new (`toward_read`), and a connection puts terminations only (`conn_quiet`).

  The subscribers are keyed by address. As in `Registration`, a peer that comes back before
  the clean-up of its last connection is over would lose its subscription, so none does.
-/

import Drv60870.Server.Hub
import Drv60870.Server.Interrogation
import Drv60870.Server.Ledger

namespace Drv60870.Server

open Lib Lib.Octets Lib.Calendar Lib.Python Lib.Runs Drv60870.Const Protocol Storage

namespace Hub

variable {Addr : Type}

/-! ## What a client is to be told -/

/-- Whether connection `i` is subscribed, and the events written while it was. -/
def tell (i : Nat) (r : Bool × List IecEvent) : Entry → Bool × List IecEvent
  | .joined j => (r.1 || j == i, r.2)
  | .wrote event => (r.1, if r.1 then r.2 ++ [event.iec] else r.2)
  | .left j => (r.1 && j != i, r.2)

def subscribed (i : Nat) (log : List Entry) : Bool := (log.foldl (tell i) (false, [])).1

def due (i : Nat) (log : List Entry) : List IecEvent := (log.foldl (tell i) (false, [])).2

theorem subscribed_snoc (i : Nat) (log : List Entry) (e : Entry) :
    subscribed i (log ++ [e]) = (tell i (subscribed i log, due i log) e).1 := by
  rw [subscribed, List.foldl_append]
  rfl

theorem due_snoc (i : Nat) (log : List Entry) (e : Entry) :
    due i (log ++ [e]) = (tell i (subscribed i log, due i log) e).2 := by
  rw [due, List.foldl_append]
  rfl

def toward (i : Nat) (flight : Flight Nat Val) : List IecEvent :=
  (flight.inHand.filter fun p => p.1 = i).map fun p => p.2.iec

def underway (h : Hub Addr) (i : Nat) : List IecEvent := h.calls.flatMap fun call => toward i call.flight

/-! ## The subscribers -/

def client (h : Hub Addr) (i : Nat) : Option Addr :=
  (h.lines[i]?).bind fun l => if l.phase = .gone then none else some l.addr

theorem setLine_client {h : Hub Addr} {i : Nat} {l₀ l : Line Addr} (hl : h.lines[i]? = some l₀)
    (haddr : l.addr = l₀.addr) (hp : l.phase = .gone ↔ l₀.phase = .gone) (j : Nat) :
    (h.setLine i l).client j = h.client j := by
  rw [client, client, setLine_get hl]
  by_cases hj : j = i
  · rw [if_pos hj, hj, hl]
    simp [haddr, hp]
  · rw [if_neg hj]

theorem client_lt {h : Hub Addr} {i : Nat} {addr : Addr} (hc : h.client i = some addr) : i < h.lines.length := by
  obtain ⟨l, hl, -⟩ := Option.bind_eq_some_iff.mp hc
  exact (List.getElem?_eq_some_iff.mp hl).1

theorem commit_subs {s : Signals Addr Nat} {now : Datetime} {u : Update Val} {c : Commit Addr Nat Val F64}
    (hc : s.commit now u = .ok c) : c.storage.subs = s.subs := by
  rcases DataStorage.commit_ok hc with ⟨rfl, -⟩ | ⟨id, sg, -, -, rfl⟩
  · rfl
  · rfl

theorem committed_none (h : Hub Addr) (owner : Option Nat) {c : Commit Addr Nat Val F64} (he : c.event = none) :
    h.committed owner c = { h with storage := c.storage } := by
  simp [committed, he]

theorem committed_some (h : Hub Addr) (owner : Option Nat) {now : Datetime} {u : Update Val}
    {c : Commit Addr Nat Val F64} (hc : h.storage.commit now u = .ok c) {event : Event Val}
    (he : c.event = some event) :
    h.committed owner c = { h with
      storage := c.storage
      calls := h.calls ++ [⟨owner, .update event h.storage.subs.values⟩]
      log := h.log ++ [.wrote event] } := by
  simp [committed, he, commit_subs hc]

theorem committed_told (h : Hub Addr) (owner : Option Nat) (c : Commit Addr Nat Val F64) (i : Nat) :
    subscribed i (h.committed owner c).log = subscribed i h.log := by
  cases he : c.event with
  | none => simp [committed, he]
  | some event =>
    simp only [committed, he, Option.toList, List.map_cons, List.map_nil]
    rw [subscribed_snoc]
    rfl

/-! ## The calls in flight -/

theorem split_set {α : Type} {as : List α} {n : Nat} {a : α} (a' : α) (h : as[n]? = some a) :
    ∃ l r, as = l ++ a :: r ∧ as.set n a' = l ++ a' :: r := by
  obtain ⟨hlt, rfl⟩ := List.getElem?_eq_some_iff.mp h
  obtain ⟨l, r, hl, -, hset⟩ : ∃ l r, as = l ++ as[n] :: r ∧ l.length = n ∧ as.set n a' = l ++ a' :: r :=
    List.exists_of_set hlt
  exact ⟨l, r, hl, hset⟩

theorem count_flatMap_set {α β : Type} [DecidableEq β] (f : α → List β) {as : List α} {n : Nat} {a : α} (a' : α)
    (h : as[n]? = some a) (b : β) :
    ((as.set n a').flatMap f).count b + (f a).count b = (as.flatMap f).count b + (f a').count b := by
  obtain ⟨l, r, hl, hset⟩ := split_set a' h
  rw [hset, hl]
  simp only [List.flatMap_append, List.flatMap_cons, List.count_append]
  omega

theorem toward_update (i : Nat) (event : Event Val) (targets : List Nat) :
    toward i (.update event targets) = List.replicate (targets.count i) event.iec := by
  induction targets with
  | nil => rfl
  | cons q targets ih =>
    simp only [toward, Flight.inHand, List.map_cons, List.filter_cons] at ih ⊢
    by_cases hq : q = i
    · simp [hq, List.replicate_succ, ih]
    · simp [hq, ih]

theorem toward_put {s : Signals Addr Nat} {flight flight' : Flight Nat Val} {j : Nat} {event : Event Val}
    (ha : flight.advance s = some (some (j, event), flight')) (i : Nat) :
    toward i flight = if j = i then event.iec :: toward i flight' else toward i flight' := by
  rcases Flight.advance_cases ha with ⟨p, hp, hh⟩ | ⟨hn, -⟩
  · cases hp
    rw [toward, hh]
    by_cases hj : j = i
    · rw [if_pos hj, List.filter_cons_of_pos (by simpa using hj)]
      rfl
    · rw [if_neg hj, List.filter_cons_of_neg (by simpa using hj)]
      rfl
  · cases hn

theorem toward_read {s : Signals Addr Nat} {flight flight' : Flight Nat Val}
    (ha : flight.advance s = some (none, flight')) (i : Nat) {ev : IecEvent} (hev : ev.cot = 3) :
    (toward i flight).count ev = 0 ∧ (toward i flight').count ev = 0 := by
  rcases Flight.advance_cases ha with ⟨p, hp, -⟩ | ⟨-, hh, hnew⟩
  · cases hp
  · refine ⟨by rw [toward, hh]; rfl, List.count_eq_zero.mpr fun hm => ?_⟩
    obtain ⟨p, hp, rfl⟩ := List.mem_map.mp hm
    obtain ⟨id, -, sg, -, hsg⟩ := hnew p (List.mem_filter.mp hp).1
    rw [hsg] at hev
    cases hev

theorem mem_gi {h : Hub Addr} {i : Nat} {st : ClientState} {frame : Bytes} {now : Datetime} {call : Pending}
    (hm : call ∈ h.gi i st frame now) : interrogates now frame st = true ∧ call.owner = some i ∧
      call.flight = .gi i h.storage.signals.keys none := by
  unfold gi at hm
  split at hm
  · rename_i hi
    rw [List.mem_singleton.mp hm]
    exact ⟨hi, rfl, rfl⟩
  · cases hm

def aims : Flight Nat Val → List Nat
  | .update _ targets => targets
  | .gi outQue _ _ => [outQue]

theorem inHand_aims {flight : Flight Nat Val} {p : Nat × Event Val} (hp : p ∈ flight.inHand) : p.1 ∈ aims flight := by
  cases flight with
  | update event targets =>
    obtain ⟨q, hq, rfl⟩ := List.mem_map.mp hp
    exact hq
  | gi outQue snapshot held =>
    obtain ⟨event, -, -, rfl⟩ := Flight.mem_inHand_gi.mp hp
    exact List.mem_singleton.mpr rfl

theorem advance_aims {s : Signals Addr Nat} {flight flight' : Flight Nat Val} {out : Option (Nat × Event Val)}
    (ha : flight.advance s = some (out, flight')) {q : Nat} (hq : q ∈ aims flight') : q ∈ aims flight := by
  cases Flight.advance_turn ha with
  | put event q' targets => exact List.mem_cons_of_mem _ hq
  | read | send | skip => exact hq

/-! ## One connection -/

def news (evs : List IecEvent) : List IecEvent := evs.filter fun ev => ev.cot = 3

theorem count_news {ev : IecEvent} (hev : ev.cot = 3) (evs : List IecEvent) : (news evs).count ev = evs.count ev :=
  List.count_filter (decide_eq_true hev)

theorem news_append (a b : List IecEvent) : news (a ++ b) = news a ++ news b := List.filter_append a b

/-- Apart from what others put, a connection puts terminations only. -/
theorem conn_quiet {s s' : Conn Unit} {b : Server.Act Unit} (hs : Conn.step posting s b = some s')
    (hb : ∀ ev, b ≠ .put ev) (he : ∀ ev ∈ s.receiver.puts, ev.cot = 10) :
    (∀ ev ∈ s'.receiver.puts, ev.cot = 10) ∧ news (enqueued s'.log) = news (enqueued s.log) := by
  have hnote : ∀ o : Obs, o.events = [] → news (enqueued (s.log ++ [o])) = news (enqueued s.log) := by
    intro o ho
    rw [enqueued_snoc, ho, List.append_nil]
  by_cases hr : ∃ frame now, b = .recv frame now
  · obtain ⟨frame, now, rfl⟩ := hr
    simp only [Conn.step, Conn.recvStep] at hs
    split at hs
    · cases hs
      refine ⟨fun ev hev => ?_, hnote _ rfl⟩
      have hputs : ev ∈ if interrogates now frame s.st then [giTermination now] else [] := by
        rw [← posting_puts]
        exact hev
      split at hputs
      · rw [List.mem_singleton.mp hputs]
        rfl
      · cases hputs
    · cases hs
  cases Server.step_move hs with
  | put event => exact absurd rfl (hb event)
  | answer frame now | take frame now => exact absurd ⟨frame, now, rfl⟩ hr
  | write | testfr => exact ⟨he, hnote _ rfl⟩
  | handlerPut result event puts hpc =>
    have hcot : ∀ ev ∈ event :: puts, ev.cot = 10 := by
      rw [hpc] at he
      exact he
    refine ⟨fun ev hev => hcot ev (List.mem_cons_of_mem _ hev), ?_⟩
    have hend : news [event] = [] := by simp [news, hcot event List.mem_cons_self]
    rw [enqueued_snoc, news_append]
    show _ ++ news [event] = _
    rw [hend, List.append_nil]
  | reply | sFrame => exact ⟨fun ev hev => absurd hev List.not_mem_nil, hnote _ rfl⟩
  | raised | counted | done | close => exact ⟨fun ev hev => absurd hev List.not_mem_nil, rfl⟩
  | _ => exact ⟨he, rfl⟩

theorem own_quiet {a : Act Addr} {i : Nat} {b : Server.Act Unit} (ha : a.own = some (i, b)) (ev : IecEvent) :
    b ≠ .put ev := by
  cases a <;> cases ha <;> simp

/-! ## The account -/

structure Told (h : Hub Addr) : Prop where
  aimed : ∀ call ∈ h.calls, ∀ q ∈ aims call.flight, q < h.lines.length
  early : ∀ i, h.lines.length ≤ i → due i h.log = []
  ending : ∀ (i : Nat) (l : Line Addr), h.lines[i]? = some l → ∀ ev ∈ l.conn.receiver.puts, ev.cot = 10
  balance : ∀ (i : Nat) (l : Line Addr), h.lines[i]? = some l → ∀ ev : IecEvent, ev.cot = 3 →
    (due i h.log).count ev = (h.underway i).count ev + (enqueued l.conn.log).count ev

/-- Nothing is on its way to a connection that has not joined. -/
theorem Told.unborn {h : Hub Addr} (ht : h.Told) {i : Nat} (hi : h.lines.length ≤ i) : h.underway i = [] := by
  refine List.flatMap_eq_nil_iff.mpr fun call hcall => ?_
  rw [toward, List.filter_eq_nil_iff.mpr fun p hp => ?_, List.map_nil]
  have hlt := ht.aimed call hcall p.1 (inHand_aims hp)
  simp only [decide_eq_true_eq]
  omega

theorem Told.line {h : Hub Addr} {i : Nat} {l₀ l : Line Addr} (ht : h.Told) (hl : h.lines[i]? = some l₀)
    (hend : ∀ ev ∈ l.conn.receiver.puts, ev.cot = 10)
    (hnews : news (enqueued l.conn.log) = news (enqueued l₀.conn.log)) :
    (h.setLine i l).Told := by
  refine ⟨fun call hcall q hq => ?_, fun j hj => ?_, fun j l' hl' => ?_, fun j l' hl' ev hev => ?_⟩
  · rw [setLine_length]
    exact ht.aimed call hcall q hq
  · rw [setLine_length] at hj
    exact ht.early j hj
  · rw [setLine_get hl] at hl'
    by_cases hj : j = i
    · rw [if_pos hj] at hl'
      cases hl'
      exact hend
    · rw [if_neg hj] at hl'
      exact ht.ending j l' hl'
  · rw [setLine_get hl] at hl'
    show (due j h.log).count ev = (h.underway j).count ev + _
    by_cases hj : j = i
    · rw [if_pos hj] at hl'
      cases hl'
      rw [← count_news hev (enqueued l.conn.log), hnews, count_news hev, hj]
      exact ht.balance i l₀ hl ev hev
    · rw [if_neg hj] at hl'
      exact ht.balance j l' hl' ev hev

variable [DecidableEq Addr]

/-- A peer's address is taken out of the tables before the peer comes back. -/
def addressFree (h : Hub Addr) : Act Addr → Bool
  | .accept addr => h.lines.all fun l => l.addr ≠ addr || l.phase = .gone
  | _ => true

theorem opened_client (h : Hub Addr) (addr : Addr) (j : Nat) :
    (h.opened addr).client j = if j = h.lines.length then some addr else h.client j := by
  rw [client, opened_get]
  by_cases hj : j = h.lines.length
  · rw [if_pos hj, if_pos hj]
    rfl
  · rw [if_neg hj, if_neg hj]
    rfl

/-- The table of subscribers holds the connections that have not unsubscribed. -/
structure Entered (h : Hub Addr) : Prop where
  entry : ∀ addr i, h.storage.subs.get addr = some i ↔ h.client i = some addr
  told : ∀ i, subscribed i h.log = (h.client i).isSome

/-- Each subscribed queue is there once. -/
theorem Entered.count {h : Hub Addr} (he : h.Entered) (i : Nat) :
    h.storage.subs.values.count i = if subscribed i h.log then 1 else 0 := by
  rw [he.told]
  cases hc : h.client i with
  | none =>
    rw [Option.isSome_none, if_neg Bool.false_ne_true, List.count_eq_zero]
    intro hm
    obtain ⟨addr, ha⟩ := Dict.mem_values.mp hm
    rw [he.entry, hc] at ha
    cases ha
  | some addr =>
    rw [Option.isSome_some, if_pos rfl]
    refine Dict.count_values ((he.entry addr i).mpr hc) fun addr' ha => ?_
    rw [he.entry, hc] at ha
    exact (Option.some.inj ha).symm

theorem Entered.same {h h' : Hub Addr} (he : h.Entered) (hsubs : h'.storage.subs = h.storage.subs)
    (hlog : ∀ i, subscribed i h'.log = subscribed i h.log) (hc : ∀ i, h'.client i = h.client i) : h'.Entered := by
  refine ⟨fun addr i => ?_, fun i => ?_⟩
  · rw [hsubs, hc]
    exact he.entry addr i
  · rw [hlog, hc]
    exact he.told i

omit [DecidableEq Addr] in
theorem load_subs (now : Datetime) (rows : List Row) : (load now rows : Signals Addr Nat).subs = .empty := by
  have hfold : ∀ (rows : List Row) (s : Signals Addr Nat),
      (rows.foldl (fun s r => (s.addSignal now r.id r.ioa r.asdu r.threshold).2) s).subs = s.subs := by
    intro rows
    induction rows with
    | nil => exact fun s => rfl
    | cons r rows ih =>
      intro s
      rw [List.foldl_cons, ih, DataStorage.addSignal_subs]
  exact hfold rows .empty

theorem entered_start (conf : Conf) (ca : Int) (now : Datetime) (rows : List Row) :
    (start conf ca now rows : Hub Addr).Entered := by
  refine ⟨fun addr i => ?_, fun i => rfl⟩
  show (load now rows : Signals Addr Nat).subs.get addr = some i ↔ _
  rw [load_subs, Dict.get_empty]
  exact ⟨fun h => (by cases h), fun h => (by cases h)⟩

theorem entered_accept {h : Hub Addr} {addr : Addr} (he : h.Entered) (hok : h.addressFree (.accept addr) = true) :
    (h.opened addr).Entered := by
  have hfree : ∀ i, h.client i ≠ some addr := by
    intro i hc
    obtain ⟨l, hl, hp⟩ := Option.bind_eq_some_iff.mp hc
    split at hp
    · cases hp
    · rename_i hgone
      have hfree := List.all_eq_true.mp hok l (List.mem_of_getElem? hl)
      simp only [Bool.or_eq_true, decide_eq_true_eq] at hfree
      exact hfree.elim (fun hne => hne (Option.some.inj hp)) hgone
  have hnew : h.client h.lines.length = none := by
    rw [client, List.getElem?_eq_none (Nat.le_refl _)]
    rfl
  refine ⟨fun addr' i => ?_, fun i => ?_⟩
  · show (h.storage.subs.set addr h.lines.length).get addr' = some i ↔ _
    rw [Dict.get_set, opened_client]
    by_cases ha : addr' = addr
    · rw [if_pos ha, ha]
      by_cases hi : i = h.lines.length
      · simp [hi]
      · rw [if_neg hi]
        exact ⟨fun h' => absurd (Option.some.inj h').symm hi, fun h' => absurd h' (hfree i)⟩
    · rw [if_neg ha, he.entry]
      by_cases hi : i = h.lines.length
      · rw [if_pos hi, hi, hnew]
        exact ⟨fun h' => (by cases h'), fun h' => absurd (Option.some.inj h').symm ha⟩
      · rw [if_neg hi]
  · rw [opened_client]
    show subscribed i (h.log ++ [.joined h.lines.length]) = _
    rw [subscribed_snoc]
    show (subscribed i h.log || h.lines.length == i) = _
    rw [he.told]
    by_cases hi : i = h.lines.length
    · simp [hi]
    · rw [if_neg hi]
      simp [Ne.symm hi]

theorem entered_unsubscribe {h : Hub Addr} {i : Nat} {l : Line Addr} (he : h.Entered) (hl : h.lines[i]? = some l)
    (hp : l.phase = .leaving) : Entered { h.setLine i { l with phase := .gone } with
      storage := h.storage.unsubscribe l.addr, log := h.log ++ [.left i] } := by
  have hc : h.client i = some l.addr := by
    rw [client, hl]
    simp [hp]
  have hclient : ∀ j, (h.setLine i { l with phase := .gone }).client j = if j = i then none else h.client j := by
    intro j
    rw [client, setLine_get hl]
    by_cases hj : j = i
    · rw [if_pos hj, if_pos hj]
      rfl
    · rw [if_neg hj, if_neg hj]
      rfl
  refine ⟨fun addr j => ?_, fun j => ?_⟩
  · show (h.storage.subs.erase l.addr).get addr = some j ↔ (h.setLine i { l with phase := .gone }).client j = some addr
    rw [Dict.get_erase, hclient]
    by_cases hj : j = i
    · rw [if_pos hj, hj]
      refine ⟨fun h' => ?_, fun h' => (by cases h')⟩
      split at h'
      · cases h'
      · rename_i hne
        rw [he.entry, hc] at h'
        exact absurd (Option.some.inj h').symm hne
    · rw [if_neg hj, ← he.entry]
      by_cases ha : addr = l.addr
      · rw [if_pos ha, ha, (he.entry l.addr i).mpr hc]
        exact ⟨fun h' => (by cases h'), fun h' => absurd (Option.some.inj h').symm hj⟩
      · rw [if_neg ha]
  · show subscribed j (h.log ++ [.left i]) = ((h.setLine i { l with phase := .gone }).client j).isSome
    rw [subscribed_snoc, hclient]
    show (subscribed j h.log && i != j) = _
    rw [he.told]
    by_cases hj : j = i
    · simp [hj]
    · rw [if_neg hj]
      simp [Ne.symm hj]

theorem entered_step {h h' : Hub Addr} {a : Act Addr} (he : h.Entered) (hok : h.addressFree a = true)
    (hs : h.step a = some h') : h'.Entered := by
  cases step_move hs with
  | accept addr => exact entered_accept he hok
  | raised => exact he
  | update now call c hc => exact he.same (commit_subs hc) (committed_told h none c) fun _ => rfl
  | read => exact he.same rfl (fun _ => rfl) fun _ => rfl
  | put n call flight i event l hcall hadv hl =>
    exact he.same rfl (fun _ => rfl) (setLine_client hl rfl Iff.rfl)
  | recv i frame now l hl => exact he.same rfl (fun _ => rfl) (setLine_client hl rfl Iff.rfl)
  | order i now l job val ioa orders c hl hjob ho hret hc =>
    exact he.same (commit_subs hc) (committed_told h (some i) c)
      (setLine_client (h := h.committed (some i) c) hl rfl Iff.rfl)
  | finish i l job conn hl => exact he.same rfl (fun _ => rfl) (setLine_client hl rfl Iff.rfl)
  | own a i b l conn ha hl => exact he.same rfl (fun _ => rfl) (setLine_client hl rfl Iff.rfl)
  | leave i l hl hp => exact he.same rfl (fun _ => rfl) (setLine_client hl rfl (by simp [hp]))
  | unsubscribe i l hl hp => exact entered_unsubscribe he hl hp

/-! ## Every step keeps the account -/

theorem told_accept {h : Hub Addr} (ht : h.Told) (addr : Addr) : (h.opened addr).Told := by
  have hdue : ∀ i, due i (h.opened addr).log = due i h.log := fun i => due_snoc i h.log (.joined h.lines.length)
  refine ⟨fun call hcall q hq => ?_, fun i hi => ?_, fun i l hl => ?_, fun i l hl ev hev => ?_⟩
  · rw [opened_length]
    exact Nat.lt_succ_of_lt (ht.aimed call hcall q hq)
  · rw [hdue]
    rw [opened_length] at hi
    exact ht.early i (Nat.le_of_succ_le hi)
  · rw [opened_get] at hl
    split at hl
    · cases hl
      exact fun ev hm => absurd hm List.not_mem_nil
    · exact ht.ending i l hl
  · rw [opened_get] at hl
    rw [hdue]
    split at hl
    · rename_i hi
      cases hl
      rw [ht.early i (Nat.le_of_eq hi.symm)]
      show _ = (h.underway i).count ev + _
      rw [ht.unborn (Nat.le_of_eq hi.symm)]
      rfl
    · exact ht.balance i l hl ev hev

/-- Each subscriber is told once. -/
theorem told_committed {h : Hub Addr} (he : h.Entered) (ht : h.Told) (owner : Option Nat) {now : Datetime}
    {u : Update Val} {c : Commit Addr Nat Val F64} (hc : h.storage.commit now u = .ok c) :
    (h.committed owner c).Told := by
  cases hev : c.event with
  | none =>
    rw [committed_none h owner hev]
    exact ⟨ht.aimed, ht.early, ht.ending, ht.balance⟩
  | some event =>
    rw [committed_some h owner hc hev]
    refine ⟨fun call hcall q hq => ?_, fun i hi => ?_, ht.ending, fun i l hl ev hcot => ?_⟩
    · rcases List.mem_append.mp hcall with hcall | hcall
      · exact ht.aimed call hcall q hq
      · rw [List.mem_singleton.mp hcall] at hq
        obtain ⟨addr, ha⟩ := Dict.mem_values.mp hq
        exact client_lt ((he.entry addr q).mp ha)
    · show due i (h.log ++ [.wrote event]) = []
      have hno : subscribed i h.log = false := by
        rw [he.told, client, List.getElem?_eq_none hi]
        rfl
      rw [due_snoc]
      show (if subscribed i h.log then due i h.log ++ [event.iec] else due i h.log) = []
      rw [hno]
      exact ht.early i hi
    · have hbal := ht.balance i l hl ev hcot
      have hcount := he.count i
      rw [due_snoc, underway, List.flatMap_append, List.count_append]
      show (if subscribed i h.log then due i h.log ++ [event.iec] else due i h.log).count ev =
        (h.underway i).count ev + ([_].flatMap _).count ev + _
      rw [List.flatMap_singleton, toward_update, List.count_replicate, hcount]
      by_cases hs : subscribed i h.log = true
      · rw [if_pos hs, if_pos hs, List.count_append, List.count_singleton, hbal]
        omega
      · rw [if_neg hs, if_neg hs, hbal]
        simp

omit [DecidableEq Addr] in
theorem told_put {h : Hub Addr} {n : Nat} {call : Pending} {flight : Flight Nat Val} {i : Nat} {event : Event Val}
    {l : Line Addr} (ht : h.Told) (hcall : h.calls[n]? = some call)
    (hadv : call.flight.advance h.storage = some (some (i, event), flight)) (hl : h.lines[i]? = some l) :
    Told { h.setLine i { l with conn :=
        { l.conn with que := l.conn.que ++ [event.iec], log := l.conn.log ++ [.put event.iec] } } with
          calls := h.calls.set n { call with flight } } := by
  have haim : ∀ call' ∈ h.calls.set n { call with flight }, ∀ q ∈ aims call'.flight, q < h.lines.length := by
    intro call' hcall' q hq
    rcases List.mem_or_eq_of_mem_set hcall' with hcall' | rfl
    · exact ht.aimed call' hcall' q hq
    · exact ht.aimed call (List.mem_of_getElem? hcall) q (advance_aims hadv hq)
  refine ⟨fun call' hcall' q hq => ?_, fun j hj => ?_, fun j l' hl' => ?_, fun j l' hl' ev hev => ?_⟩
  · rw [show _ = h.lines.length from setLine_length h i _]
    exact haim call' hcall' q hq
  · exact ht.early j ((setLine_length h i _).symm.trans_le hj)
  · have hl' := (setLine_get hl _ j).symm.trans hl'
    split at hl'
    · cases hl'
      exact ht.ending i l hl
    · exact ht.ending j l' hl'
  · have hl' := (setLine_get hl _ j).symm.trans hl'
    have hset := count_flatMap_set (fun call => toward j call.flight) { call with flight } hcall ev
    dsimp only at hset
    rw [toward_put hadv j] at hset
    show (due j h.log).count ev =
      ((h.calls.set n { call with flight }).flatMap fun call => toward j call.flight).count ev + _
    split at hl'
    · rename_i hj
      cases hl'
      have hbal := ht.balance i l hl ev hev
      rw [hj, if_pos rfl, List.count_cons] at hset
      rw [hj, enqueued_snoc, List.count_append, hbal]
      show (h.underway i).count ev + _ = _ + (_ + [event.iec].count ev)
      rw [List.count_singleton, underway]
      omega
    · rename_i hj
      rw [if_neg (Ne.symm hj)] at hset
      have hbal := ht.balance j l' hl' ev hev
      rw [hbal, underway]
      omega

theorem told_step {h h' : Hub Addr} {a : Act Addr} (he : h.Entered) (ht : h.Told) (hs : h.step a = some h') :
    h'.Told := by
  cases step_move hs with
  | accept addr => exact told_accept ht addr
  | raised => exact ht
  | update now call c hc => exact told_committed he ht none hc
  | read n call flight hcall hadv =>
    refine ⟨fun call' hcall' q hq => ?_, ht.early, ht.ending, fun i l hl ev hev => ?_⟩
    · rcases List.mem_or_eq_of_mem_set hcall' with hcall' | rfl
      · exact ht.aimed call' hcall' q hq
      · exact ht.aimed call (List.mem_of_getElem? hcall) q (advance_aims hadv hq)
    · obtain ⟨hno, hno'⟩ := toward_read hadv i hev
      have hset := count_flatMap_set (fun call => toward i call.flight) { call with flight } hcall ev
      dsimp only at hset
      have hbal := ht.balance i l hl ev hev
      show (due i h.log).count ev =
        ((h.calls.set n { call with flight }).flatMap fun call => toward i call.flight).count ev + _
      rw [hbal, underway]
      omega
  | put n call flight i event l hcall hadv hl => exact told_put ht hcall hadv hl
  | recv i frame now l hl =>
    have hline := ht.line (l := { l with job := some ⟨frame, now, orders now frame l.conn.st⟩ }) hl
      (ht.ending i l hl) rfl
    refine ⟨fun call hcall q hq => ?_, hline.early, hline.ending, fun j l' hl' ev hev => ?_⟩
    · rcases List.mem_append.mp hcall with hcall | hcall
      · exact hline.aimed call hcall q hq
      · rw [(mem_gi hcall).2.2, aims, List.mem_singleton] at hq
        rw [hq, show _ = h.lines.length from setLine_length h i _]
        exact (List.getElem?_eq_some_iff.mp hl).1
    · have hnone : (h.gi i l.conn.st frame now).flatMap (fun call => toward j call.flight) = [] := by
        refine List.flatMap_eq_nil_iff.mpr fun call hcall => ?_
        rw [(mem_gi hcall).2.2]
        rfl
      rw [underway, List.flatMap_append, hnone, List.append_nil]
      exact hline.balance j l' hl' ev hev
  | order i now l job val ioa orders c hl hjob ho hret hc =>
    exact (told_committed he ht (some i) hc).line hl (ht.ending i l hl) rfl
  | finish i l job conn hl hjob ho hret hc =>
    obtain ⟨hend, hnews⟩ := conn_quiet hc (fun ev => (by simp)) (ht.ending i l hl)
    exact ht.line hl hend hnews
  | own a i b l conn ha hl hc =>
    obtain ⟨hend, hnews⟩ := conn_quiet hc (own_quiet ha) (ht.ending i l hl)
    exact ht.line hl hend hnews
  | leave i l hl => exact ht.line hl (ht.ending i l hl) rfl
  | unsubscribe i l hl hp =>
    have hline := ht.line (l := { l with phase := .gone }) hl (ht.ending i l hl) rfl
    have hdue : ∀ j, due j (h.log ++ [.left i]) = due j h.log := fun j => due_snoc j h.log (.left i)
    refine ⟨hline.aimed, fun j hj => ?_, hline.ending, fun j l' hl' ev hev => ?_⟩
    · exact (hdue j).trans (hline.early j hj)
    · exact (congrArg (List.count ev) (hdue j)).trans (hline.balance j l' hl' ev hev)

/-! ## Over whole runs -/

def sendsSucceed (h : Hub Addr) : Act Addr → Bool
  | .send i clock => (h.lines[i]?).all fun l => Server.sendsSucceed l.conn (.send clock)
  | _ => true

omit [DecidableEq Addr] in
theorem told_start (conf : Conf) (ca : Int) (now : Datetime) (rows : List Row) :
    (start conf ca now rows : Hub Addr).Told := by
  refine ⟨fun call hcall => absurd hcall List.not_mem_nil, fun _ _ => rfl, fun i l hl => ?_, fun i l hl => ?_⟩
  · cases hl
  · cases hl

/-- In every run of the server, with any number of clients, in which no peer comes back too early and sends succeed:
    of the events written while a connection was subscribed, each is exactly once on its way to the connection's
    queue, in it or in `client_send`'s hand, sent, or in the account of what `client_send` dropped. -/
theorem fanned_out (conf : Conf) (ca : Int) (now : Datetime) (rows : List Row) (h : Hub Addr)
    (hr : Reach step (fun h a => h.addressFree a = true ∧ h.sendsSucceed a = true) (start conf ca now rows) h)
    (i : Nat) (l : Line Addr) (hl : h.lines[i]? = some l) :
    ∃ ledger, Reach (audited (Conn.step posting) Ledger.note) (fun p b => Server.sendsSucceed p.1 b = true)
        (Server.start (createClientState conf ca) () [], {}) (l.conn, ledger) ∧
      (∀ ev ∈ ledger.unsupported, Unsupported ev.asdu) ∧
      ∀ ev : IecEvent, ev.cot = 3 → (due i h.log).count ev = (h.underway i).count ev +
        (l.conn.sender.held ++ l.conn.que).count ev + (transmitted l.conn.log).count ev +
        ledger.discarded.count ev := by
  have htold : h.Entered ∧ h.Told :=
    hr.inv (P := fun h => h.Entered ∧ h.Told) ⟨entered_start conf ca now rows, told_start conf ca now rows⟩
      fun _ _ _ hi hok hs => ⟨entered_step hi.1 hok.1 hs, told_step hi.1 hi.2 hs⟩
  have hconn : Reach (Conn.step posting) (fun s b => Server.sendsSucceed s b = true)
      (Server.start (createClientState conf ca) () []) l.conn := by
    refine line_reach (fun s b hb => ?_) (fun h i l clock hok hl => ?_) hr hl
    · cases b with
      | send clock => exact absurd rfl (hb clock)
      | _ => rfl
    · have hok := hok.2
      rw [sendsSucceed, hl] at hok
      exact hok
  obtain ⟨ledger, hledger⟩ := hconn.audit Ledger.note {}
  have hacc := accounted_reach hledger
  refine ⟨ledger, hledger, hacc.unsupported, fun ev hev => ?_⟩
  rw [htold.2.balance i l hl ev hev, hacc.balance ev]
  omega

def switchRow : Row := ⟨1, 100, 1, none⟩

def closeFrame : Bytes := iFrame 0 0 [0x2D, 0x01, 0x06, 0x00, 0x01, 0x00, 0x64, 0x00, 0x00, 0x01]

/-- Two started clients. The first closes the switch, and the second is sent it. -/
def twoClients : List (Act String) :=
  [.accept "first", .accept "second"] ++
    ([0, 1].flatMap fun i => [.recv i startdtAct sampleTime, .finish i, .handle i]) ++
    [.recv 0 closeFrame sampleTime, .order 0 sampleTime, .turn 0, .turn 0, .finish 0, .handle 0] ++
    List.replicate 5 (.send 1 false)

theorem fanned_out_twoClients : ∃ (h : Hub String) (l : Line String) (ledger : Ledger), h.lines[1]? = some l ∧
    (due 1 h.log).map (fun ev => ev.ioa) = [100] ∧ (transmitted l.conn.log).map (fun ev => ev.ioa) = [100] ∧
    ∀ ev : IecEvent, ev.cot = 3 → (due 1 h.log).count ev = (h.underway 1).count ev +
      (l.conn.sender.held ++ l.conn.que).count ev + (transmitted l.conn.log).count ev +
      ledger.discarded.count ev := by
  have hrun : (run (checked (fun h a => h.addressFree a && h.sendsSucceed a) step)
      (start kp1Conf 1 sampleTime [switchRow]) twoClients).map (fun h => ((due 1 h.log).map fun ev => ev.ioa,
        (h.lines[1]?).map fun l => (transmitted l.conn.log).map fun ev => ev.ioa)) =
      some ([100], some [100]) := by decide +kernel
  obtain ⟨h, hr, hh⟩ := exists_of_run _ hrun
  simp only [Prod.mk.injEq] at hh
  obtain ⟨l, hl, hsent⟩ := Option.map_eq_some_iff.mp hh.2
  have hok := (reach_of_checked hr).mono fun h a hok => (Bool.and_eq_true_iff.mp hok)
  obtain ⟨ledger, -, -, hcount⟩ := fanned_out kp1Conf 1 sampleTime [switchRow] h hok 1 l hl
  exact ⟨h, l, ledger, hl, hh.1, hsent, hcount⟩

end Hub

end Drv60870.Server
