/-
  Drv60870.Storage.Delivery — `update_val` and the general interrogation from several threads.

  Only the commit of `update_val` is under the lock: the event is put to each subscriber's
  queue after it. An interrogation copies the list of signals and then reads and puts one at
  a time. So a call in flight holds events that later commits may make stale, and the
  threads decide in which order they arrive.

  A world is a storage with its calls in flight (`Flight`) and the queues. A queue is all that
  was put to it. The event that ends an interrogation is of no signal and is left out.

  `Fresh` says that the last event of each published signal in each subscriber's queue is what is
  stored; `Clear`, that nothing on its way is stale, and where a queue is not fresh an event of
  the signal is on its way to it.

  Proved:
  - As long as no update is written while an event of its signal that says otherwise is on its
    way, every step keeps `Clear` (`Clear.step`), however the calls finish
    (`Clear.sound`); with nothing on its way the queues are fresh.
-/

import Drv60870.Lib.Runs
import Drv60870.Storage.Signals

namespace Drv60870.Storage

open Lib Lib.Calendar Lib.Python Lib.Runs

variable {C Q V T : Type}

/-! ## Calls in flight -/

/-- An `update_val` that has released the lock, with the queues it has yet to put to, or the
    interrogation of `handle_i_frame`, with the signals it has yet to read and the event it
    has read and not put. -/
inductive Flight (Q V : Type) where
  | update (event : Event V) (targets : List Q)
  | gi (outQue : Q) (snapshot : List Int) (held : Option (Event V))
  deriving DecidableEq

namespace Flight

def inHand : Flight Q V → List (Q × Event V)
  | update event targets => targets.map fun q => (q, event)
  | gi outQue _ (some event) => if event.asdu < 45 then [(outQue, event)] else []
  | gi _ _ none => []

def unread : Flight Q V → List Int
  | update .. => []
  | gi _ snapshot _ => snapshot

def done : Flight Q V → Bool
  | update _ targets => targets.isEmpty
  | gi _ snapshot held => snapshot.isEmpty && held.isNone

/-- The next put or read of a call: what it puts, and what is left of it. -/
def advance (s : DataStorage C Q V T) : Flight Q V → Option (Option (Q × Event V) × Flight Q V)
  | update event (q :: targets) => some (some (q, event), update event targets)
  | update _ [] => none
  | gi outQue (id :: snapshot) none =>
    some (none, gi outQue snapshot ((s.signals.get id).map fun sg => sg.event 20))
  | gi outQue snapshot (some event) =>
    -- commands are not sent
    some (if event.asdu < 45 then some (outQue, event) else none, gi outQue snapshot none)
  | gi _ [] none => none

end Flight

structure World (C Q V T : Type) where
  storage : DataStorage C Q V T
  queues : Q → List (Event V)
  calls : List (Flight Q V)

/-- A call of `update_val` under the lock, an interrogation by a subscriber, or the next put
    or read of a call in flight. -/
inductive Move (C V : Type) where
  | update (now : Datetime) (u : Update V)
  | gi (client : C)
  | turn (call : Nat)
  deriving DecidableEq

def Move.isTurn : Move C V → Bool
  | turn _ => true
  | _ => false

namespace World

variable [DecidableEq C] [DecidableEq Q]

def put (w : World C Q V T) : Option (Q × Event V) → World C Q V T
  | some (q, event) => { w with queues := putNowait w.queues q event }
  | none => w

/-- An update that raises, or changes nothing, leaves nothing in flight. -/
def step [Deadband V T] (w : World C Q V T) : Move C V → Option (World C Q V T)
  | .update now u =>
    match w.storage.commit now u with
    | .error _ => some w
    | .ok c =>
      let started := c.event.toList.map fun event => Flight.update event c.storage.subs.values
      some { w with storage := c.storage, calls := w.calls ++ started }
  | .gi client => do
    let q ← w.storage.subs.get client
    return { w with calls := w.calls ++ [.gi q w.storage.signals.keys none] }
  | .turn i => do
    let call ← w.calls[i]?
    let (out, call) ← call.advance w.storage
    return { w.put out with calls := w.calls.set i call }

end World

/-! ## Fresh queues -/

def SignalConf.Carries (sg : SignalConf V T) (event : Event V) : Prop :=
  event.val = sg.val ∧ event.q = sg.q ∧ event.iv = sg.iv

def Update.Says (u : Update V) (event : Event V) : Prop := event.val = u.val ∧ event.q = u.q ∧ event.iv = u.iv

/-- The update is written, to this signal. -/
def DataStorage.Writes [Deadband V T] (s : DataStorage C Q V T) (u : Update V) (id : Int) : Prop :=
  u.id.isSome ≠ u.ioa.isSome ∧ ∃ sg, s.find u = some (id, sg) ∧ sg.takes u = true

namespace World

def Settled (w : World C Q V T) : Prop := ∀ call ∈ w.calls, call.done = true

/-- The last event of each published signal in each subscriber's queue says what is stored. -/
def Fresh (w : World C Q V T) : Prop :=
  ∀ q ∈ w.storage.subs.values, ∀ id sg, w.storage.signals.get id = some sg → sg.asdu < 45 →
    ∀ event, lastOf id (w.queues q) = some event → sg.Carries event

def inHand (w : World C Q V T) : List (Q × Event V) := w.calls.flatMap Flight.inHand

def unread (w : World C Q V T) : List Int := w.calls.flatMap Flight.unread

variable [DecidableEq C] [DecidableEq Q] [Deadband V T]

def GoesOn (w t : World C Q V T) : Prop := Reach step (fun _ m => Move.isTurn m = true) w t

/-- However the calls in flight finish, the queues end fresh. -/
def Sound (w : World C Q V T) : Prop := ∀ t, GoesOn w t → t.Settled → t.Fresh

/-- What the update writes, no event of the signal on its way contradicts. -/
def InTurn (w : World C Q V T) : Move C V → Prop
  | .update _ u => ∀ id, w.storage.Writes u id → ∀ p ∈ w.inHand, p.2.id = id → u.Says p.2
  | _ => True

/-- No calls in flight, and every queue fresh: so a server starts, its queues empty. -/
structure Ready (w : World C Q V T) : Prop where
  keyed : w.storage.Keyed
  idle : w.calls = []
  fresh : w.Fresh

def start (s : DataStorage C Q V T) : World C Q V T := ⟨s, fun _ => [], []⟩

omit [DecidableEq C] [DecidableEq Q] [Deadband V T] in
theorem ready_start {s : DataStorage C Q V T} (h : s.Keyed) : (start s).Ready := by
  refine ⟨h, rfl, ?_⟩
  intro q _ id sg _ _ event he
  cases he

end World

theorem DataStorage.Writes.unique [Deadband V T] {s : DataStorage C Q V T} {u : Update V} {id id' : Int}
    (h : s.Writes u id) (h' : s.Writes u id') : id = id' := by
  obtain ⟨-, sg, hf, -⟩ := h
  obtain ⟨-, sg', hf', -⟩ := h'
  rw [hf] at hf'
  cases hf'
  rfl

/-! ## Turns -/

section Turns

inductive Flight.Turn (s : DataStorage C Q V T) : Flight Q V → Option (Q × Event V) → Flight Q V → Prop
  | put (event q targets) : Turn s (update event (q :: targets)) (some (q, event)) (update event targets)
  | read (outQue id snapshot) : Turn s (gi outQue (id :: snapshot) none) none
      (gi outQue snapshot ((s.signals.get id).map fun sg => sg.event 20))
  | send (outQue snapshot event) : event.asdu < 45 →
      Turn s (gi outQue snapshot (some event)) (some (outQue, event)) (gi outQue snapshot none)
  | skip (outQue snapshot event) : ¬ event.asdu < 45 →
      Turn s (gi outQue snapshot (some event)) none (gi outQue snapshot none)

variable {s : DataStorage C Q V T} {call call' : Flight Q V} {out : Option (Q × Event V)}

theorem Flight.advance_turn (h : call.advance s = some (out, call')) : Turn s call out call' := by
  cases call with
  | update event targets =>
    cases targets with
    | nil => cases h
    | cons q targets =>
      cases h
      exact .put event q targets
  | gi outQue snapshot held =>
    cases held with
    | some event =>
      simp only [advance, Option.some.injEq, Prod.mk.injEq] at h
      obtain ⟨rfl, rfl⟩ := h
      by_cases ha : event.asdu < 45
      · rw [if_pos ha]
        exact .send outQue snapshot event ha
      · rw [if_neg ha]
        exact .skip outQue snapshot event ha
    | none =>
      cases snapshot with
      | nil => cases h
      | cons id snapshot =>
        cases h
        exact .read outQue id snapshot

theorem Flight.mem_inHand_gi {outQue : Q} {snapshot : List Int} {held : Option (Event V)} {p : Q × Event V} :
    p ∈ (gi outQue snapshot held).inHand ↔ ∃ event, held = some event ∧ event.asdu < 45 ∧ p = (outQue, event) := by
  cases held with
  | none => simp [inHand]
  | some event =>
    by_cases ha : event.asdu < 45
    · simp [inHand, ha]
    · simp [inHand, ha]

theorem Flight.inHand_of_done (h : call.done = true) : call.inHand = [] ∧ call.unread = [] := by
  cases call with
  | update event targets =>
    cases targets with
    | nil => exact ⟨rfl, rfl⟩
    | cons q targets => cases h
  | gi outQue snapshot held =>
    cases held with
    | some event => simp [done] at h
    | none =>
      cases snapshot with
      | nil => exact ⟨rfl, rfl⟩
      | cons id snapshot => cases h

/-- A call puts the first event it has in hand, or it reads a signal. -/
theorem Flight.advance_cases (h : call.advance s = some (out, call')) :
    (∃ p, out = some p ∧ call.inHand = p :: call'.inHand) ∨
      out = none ∧ call.inHand = [] ∧
        ∀ p ∈ call'.inHand, ∃ id ∈ call.unread, ∃ sg, s.signals.get id = some sg ∧ p.2 = sg.event 20 := by
  cases advance_turn h with
  | put event q targets => exact .inl ⟨(q, event), rfl, rfl⟩
  | send outQue snapshot event ha => exact .inl ⟨(outQue, event), rfl, if_pos ha⟩
  | skip outQue snapshot event ha =>
    refine .inr ⟨rfl, if_neg ha, fun p hp => ?_⟩
    cases hp
  | read outQue id snapshot =>
    refine .inr ⟨rfl, rfl, fun p hp => ?_⟩
    obtain ⟨event, he, -, rfl⟩ := mem_inHand_gi.mp hp
    obtain ⟨sg, hg, rfl⟩ := Option.map_eq_some_iff.mp he
    exact ⟨id, List.mem_cons_self, sg, hg, rfl⟩

theorem Flight.advance_unread (h : call.advance s = some (out, call')) : ∀ id ∈ call'.unread, id ∈ call.unread := by
  intro id' hid
  cases advance_turn h with
  | put | send | skip => exact hid
  | read => exact List.mem_cons_of_mem _ hid

namespace World

@[simp] theorem put_storage [DecidableEq Q] (w : World C Q V T) (out : Option (Q × Event V)) :
    (w.put out).storage = w.storage := by
  cases out <;> rfl

theorem lastOf_put [DecidableEq Q] (w : World C Q V T) (p : Q × Event V) (id : Int) (q : Q) :
    lastOf id ((w.put (some p)).queues q) = if q = p.1 ∧ p.2.id = id then some p.2 else lastOf id (w.queues q) := by
  simp only [put, putNowait]
  by_cases hq : q = p.1
  · rw [if_pos hq, lastOf_snoc]
    simp [hq]
  · rw [if_neg hq, if_neg fun h => hq h.1]

variable [DecidableEq C] [DecidableEq Q] [Deadband V T]

theorem turn_cases {w w' : World C Q V T} {i : Nat} (h : w.step (.turn i) = some w') :
    ∃ l call r out call', w.calls = l ++ call :: r ∧ l.length = i ∧ call.advance w.storage = some (out, call') ∧
      w' = { w.put out with calls := l ++ call' :: r } := by
  simp only [step, Option.bind_eq_bind, Option.bind_eq_some_iff, Option.pure_def, Option.some.injEq] at h
  obtain ⟨call, hi, ⟨out, call'⟩, ha, hw⟩ := h
  obtain ⟨hlt, hget⟩ := List.getElem?_eq_some_iff.mp hi
  obtain ⟨l, r, hl, hlen, hset⟩ := List.exists_of_set hlt
  rw [hget] at hl
  exact ⟨l, call, r, out, call', hl, hlen, ha, by rw [← hset]; exact hw.symm⟩

/-- What an update does to the world: nothing, or it is written and its event is on its way. -/
theorem update_cases {w w' : World C Q V T} {now : Datetime} {u : Update V} (h : w.step (.update now u) = some w') :
    (w' = w ∧ ∀ id, ¬ w.storage.Writes u id) ∨
      ∃ id sg, w.storage.Writes u id ∧ w.storage.signals.get id = some sg ∧
        w' = { w with
          storage := w.storage.write now u id sg
          calls := w.calls ++ (DataStorage.announce now u id sg).toList.map fun event =>
            Flight.update event w.storage.subs.values } := by
  simp only [step] at h
  split at h
  · rename_i e he
    cases h
    refine .inl ⟨rfl, fun id hwr => ?_⟩
    obtain ⟨hu, sg, hf, ht⟩ := hwr
    rw [DataStorage.commit_takes now hu hf ht] at he
    cases he
  · rename_i c hc
    cases h
    rcases DataStorage.commit_ok hc with ⟨rfl, hno⟩ | ⟨id, sg, hf, ht, rfl⟩
    · refine .inl ⟨by simp, fun id hwr => ?_⟩
      obtain ⟨hu, sg, hf, ht⟩ := hwr
      rw [DataStorage.commit_takes now hu hf ht] at hc
      cases hc
    · exact .inr ⟨id, sg, ⟨DataStorage.commit_one hc, sg, hf, ht⟩, DataStorage.find_get hf, rfl⟩

end World

end Turns

/-! ## What is on its way -/

/-- A call puts to subscribers, events of published signals, each once. -/
def Flight.Bound (s : DataStorage C Q V T) : Flight Q V → Prop
  | update event targets =>
    (∀ q ∈ targets, q ∈ s.subs.values) ∧ ∃ sg, s.signals.get event.id = some sg ∧ sg.asdu < 45
  | gi outQue snapshot held =>
    outQue ∈ s.subs.values ∧ snapshot.Nodup ∧
      ∀ event, held = some event → event.id ∉ snapshot ∧
        ∃ sg, s.signals.get event.id = some sg ∧ sg.asdu = event.asdu

section Bound

variable {s : DataStorage C Q V T} {call call' : Flight Q V} {out : Option (Q × Event V)}

theorem Flight.Bound.inHand (h : call.Bound s) {p : Q × Event V} (hp : p ∈ call.inHand) :
    p.1 ∈ s.subs.values ∧ ∃ sg, s.signals.get p.2.id = some sg ∧ sg.asdu < 45 := by
  cases call with
  | update event targets =>
    obtain ⟨q, hq, rfl⟩ := List.mem_map.mp hp
    exact ⟨h.1 q hq, h.2⟩
  | gi outQue snapshot held =>
    obtain ⟨event, rfl, ha, rfl⟩ := mem_inHand_gi.mp hp
    obtain ⟨-, sg, hg, he⟩ := h.2.2 event rfl
    exact ⟨h.1, sg, hg, by rw [he]; exact ha⟩

theorem Flight.Bound.single (h : call.Bound s) {p : Q × Event V} (hp : p ∈ call.inHand) :
    (∀ p' ∈ call.inHand, p'.2 = p.2) ∧ p.2.id ∉ call.unread := by
  cases call with
  | update event targets =>
    obtain ⟨q, -, rfl⟩ := List.mem_map.mp hp
    refine ⟨fun p' hp' => ?_, fun hn => (by cases hn)⟩
    obtain ⟨q', -, rfl⟩ := List.mem_map.mp hp'
    rfl
  | gi outQue snapshot held =>
    obtain ⟨event, rfl, -, rfl⟩ := mem_inHand_gi.mp hp
    refine ⟨fun p' hp' => ?_, (h.2.2 event rfl).1⟩
    obtain ⟨event', he, -, rfl⟩ := mem_inHand_gi.mp hp'
    exact (Option.some.inj he).symm

theorem Flight.Bound.advance (hk : s.Keyed) (h : call.Bound s) (ha : call.advance s = some (out, call')) :
    call'.Bound s := by
  cases advance_turn ha with
  | put event q targets => exact ⟨fun q' hq' => h.1 q' (List.mem_cons_of_mem _ hq'), h.2⟩
  | send | skip => exact ⟨h.1, h.2.1, fun _ he => by cases he⟩
  | read outQue id snapshot =>
    refine ⟨h.1, (List.nodup_cons.mp h.2.1).2, fun event he => ?_⟩
    obtain ⟨sg, hg, rfl⟩ := Option.map_eq_some_iff.mp he
    show sg.id ∉ snapshot ∧ ∃ sg', s.signals.get sg.id = some sg' ∧ sg'.asdu = sg.asdu
    rw [hk id sg hg]
    exact ⟨(List.nodup_cons.mp h.2.1).1, sg, hg, rfl⟩

/-- Writing a signal leaves its type and the subscribers as they are. -/
theorem Flight.Bound.write {now : Datetime} {u : Update V} {id : Int} {sg : SignalConf V T}
    (hg : s.signals.get id = some sg) (h : call.Bound s) : call.Bound (s.write now u id sg) := by
  have hsame : ∀ id' sg', s.signals.get id' = some sg' →
      ∃ sg'', (s.write now u id sg).signals.get id' = some sg'' ∧ sg''.asdu = sg'.asdu := by
    intro id' sg' hg'
    show ∃ sg'', (s.signals.set id (sg.written now u)).get id' = some sg'' ∧ _
    rw [Dict.get_set]
    by_cases he : id' = id
    · rw [he, hg] at hg'
      cases hg'
      exact ⟨sg.written now u, if_pos he, rfl⟩
    · exact ⟨sg', by rw [if_neg he, hg'], rfl⟩
  cases call with
  | update event targets =>
    obtain ⟨sg', hg', ha⟩ := h.2
    obtain ⟨sg'', hg'', he⟩ := hsame _ _ hg'
    exact ⟨h.1, sg'', hg'', by rw [he]; exact ha⟩
  | gi outQue snapshot held =>
    refine ⟨h.1, h.2.1, fun event he => ?_⟩
    obtain ⟨hn, sg', hg', ha⟩ := h.2.2 event he
    obtain ⟨sg'', hg'', he'⟩ := hsame _ _ hg'
    exact ⟨hn, sg'', hg'', by rw [he', ha]⟩

end Bound

/-! ## Nothing stale on its way -/

namespace World

structure Inv (w : World C Q V T) : Prop where
  keyed : w.storage.Keyed
  bound : ∀ call ∈ w.calls, call.Bound w.storage

/-- Nothing on its way is stale, and where a queue is not fresh an event of the signal is on
    its way to it. -/
structure Clear (w : World C Q V T) : Prop extends Inv w where
  current : ∀ p ∈ w.inHand, ∀ sg, w.storage.signals.get p.2.id = some sg → sg.Carries p.2
  caughtUp : ∀ q ∈ w.storage.subs.values, ∀ id sg, w.storage.signals.get id = some sg → sg.asdu < 45 →
    ∀ event, lastOf id (w.queues q) = some event →
      sg.Carries event ∨ ∃ event', (q, event') ∈ w.inHand ∧ event'.id = id

theorem Inv.inHand {w : World C Q V T} (h : w.Inv) {p : Q × Event V} (hp : p ∈ w.inHand) :
    p.1 ∈ w.storage.subs.values ∧ ∃ sg, w.storage.signals.get p.2.id = some sg ∧ sg.asdu < 45 := by
  obtain ⟨call, hc, hp⟩ := List.mem_flatMap.mp hp
  exact (h.bound call hc).inHand hp

theorem Settled.inHand {w : World C Q V T} (h : w.Settled) : w.inHand = [] := by
  rw [World.inHand, List.flatMap_eq_nil_iff]
  intro call hc
  exact (Flight.inHand_of_done (h call hc)).1

theorem Clear.fresh {w : World C Q V T} (h : w.Clear) (hs : w.Settled) : w.Fresh := by
  intro q hq id sg hg ha event he
  rcases h.caughtUp q hq id sg hg ha event he with hc | ⟨event', hm, -⟩
  · exact hc
  · rw [hs.inHand] at hm
    cases hm

theorem Ready.clear {w : World C Q V T} (h : w.Ready) : w.Clear := by
  have hnone : w.inHand = [] := by rw [World.inHand, h.idle, List.flatMap_nil]
  refine ⟨⟨h.keyed, ?_⟩, ?_, ?_⟩
  · rw [h.idle]
    intro call hc
    cases hc
  · rw [hnone]
    intro p hp
    cases hp
  · intro q hq id sg hg ha event he
    exact .inl (h.fresh q hq id sg hg ha event he)

variable [DecidableEq C] [DecidableEq Q] [Deadband V T]

/-- A turn only moves what is on its way: an event it puts was, and what it reads is current. -/
theorem turn_inHand {w w' : World C Q V T} {i : Nat} (h : w.step (.turn i) = some w') :
    ∃ out, w'.storage = w.storage ∧ w'.queues = (w.put out).queues ∧
      (∀ p, out = some p → p ∈ w.inHand) ∧ (∀ p ∈ w.inHand, out = some p ∨ p ∈ w'.inHand) ∧
      ∀ p ∈ w'.inHand, p ∈ w.inHand ∨
        ∃ id ∈ w.unread, ∃ sg, w.storage.signals.get id = some sg ∧ p.2 = sg.event 20 := by
  obtain ⟨l, call, r, out, call', hl, -, ha, rfl⟩ := turn_cases h
  have hread : ∀ id ∈ call.unread, id ∈ w.unread := fun id hid =>
    List.mem_flatMap.mpr ⟨call, by rw [hl]; exact List.mem_append_right _ List.mem_cons_self, hid⟩
  refine ⟨out, by simp, rfl, ?_⟩
  simp only [World.inHand, hl, List.flatMap_append, List.flatMap_cons, List.mem_append]
  rcases Flight.advance_cases ha with ⟨p, rfl, hh⟩ | ⟨rfl, hh, hnew⟩
  · rw [hh]
    simp only [List.mem_cons, Option.some.injEq]
    refine ⟨?_, ?_, ?_⟩
    · intro p' hp'
      exact .inr (.inl (.inl hp'.symm))
    · intro p' hp'
      rcases hp' with hp' | (hp' | hp') | hp'
      · exact .inr (.inl hp')
      · exact .inl hp'.symm
      · exact .inr (.inr (.inl hp'))
      · exact .inr (.inr (.inr hp'))
    · intro p' hp'
      rcases hp' with hp' | hp' | hp'
      · exact .inl (.inl hp')
      · exact .inl (.inr (.inl (.inr hp')))
      · exact .inl (.inr (.inr hp'))
  · rw [hh]
    refine ⟨fun p hp => (by cases hp), ?_, ?_⟩
    · intro p hp
      rcases hp with hp | hp | hp
      · exact .inr (.inl hp)
      · cases hp
      · exact .inr (.inr (.inr hp))
    · intro p hp
      rcases hp with hp | hp | hp
      · exact .inl (.inl hp)
      · obtain ⟨id, hid, hsg⟩ := hnew p hp
        exact .inr ⟨id, hread id hid, hsg⟩
      · exact .inl (.inr (.inr hp))

theorem Inv.turn {w w' : World C Q V T} {i : Nat} (h : w.Inv) (hs : w.step (.turn i) = some w') : w'.Inv := by
  obtain ⟨l, call, r, out, call', hl, -, ha, rfl⟩ := turn_cases hs
  refine ⟨by rw [put_storage]; exact h.keyed, fun c hc => ?_⟩
  rw [put_storage]
  have hb := h.bound
  rw [hl] at hb
  rcases List.mem_append.mp hc with hc | hc
  · exact hb c (List.mem_append_left _ hc)
  · rcases List.mem_cons.mp hc with rfl | hc
    · exact (hb call (List.mem_append_right _ List.mem_cons_self)).advance h.keyed ha
    · exact hb c (List.mem_append_right _ (List.mem_cons_of_mem _ hc))

theorem Clear.turn {w w' : World C Q V T} {i : Nat} (h : w.Clear) (hs : w.step (.turn i) = some w') : w'.Clear := by
  refine ⟨h.toInv.turn hs, ?_, ?_⟩
  all_goals obtain ⟨out, hst, hqu, hout, hkeep, hnew⟩ := turn_inHand hs
  · rw [hst]
    intro p hp sg hg
    rcases hnew p hp with hp | ⟨id, -, sg', hg', he⟩
    · exact h.current p hp sg hg
    · have hid : p.2.id = id := by
        rw [he]
        exact h.keyed id sg' hg'
      rw [hid, hg'] at hg
      cases hg
      rw [he]
      exact ⟨rfl, rfl, rfl⟩
  · rw [hst, hqu]
    intro q hq id sg hg ha event he
    -- the last event of the signal is the one put, or it was there before
    have hold : lastOf id (w.queues q) = some event → sg.Carries event ∨ ∃ event', (q, event') ∈ w'.inHand ∧
        event'.id = id ∨ out = some (q, event') ∧ event'.id = id := by
      intro he
      rcases h.caughtUp q hq id sg hg ha event he with hc | ⟨event', hm, hid⟩
      · exact .inl hc
      · rcases hkeep _ hm with ho | hm
        · exact .inr ⟨event', .inr ⟨ho, hid⟩⟩
        · exact .inr ⟨event', .inl ⟨hm, hid⟩⟩
    cases out with
    | none =>
      rcases hold he with hc | ⟨event', hm | ⟨ho, -⟩⟩
      · exact .inl hc
      · exact .inr ⟨event', hm⟩
      · cases ho
    | some p =>
      rw [lastOf_put] at he
      by_cases hp : q = p.1 ∧ p.2.id = id
      · rw [if_pos hp] at he
        cases he
        refine .inl (h.current p (hout p rfl) sg ?_)
        rw [hp.2]
        exact hg
      · rw [if_neg hp] at he
        rcases hold he with hc | ⟨event', hm | ⟨ho, hid⟩⟩
        · exact .inl hc
        · exact .inr ⟨event', hm⟩
        · cases ho
          exact absurd ⟨rfl, hid⟩ hp

/-! ## Commits and interrogations -/

omit [DecidableEq C] [DecidableEq Q] [Deadband V T] in
theorem announce_some {now : Datetime} {u : Update V} {id : Int} {sg : SignalConf V T} {event : Event V}
    (h : DataStorage.announce now u id sg = some event) :
    sg.asdu < 45 ∧ event.id = id ∧ (sg.written now u).Carries event := by
  unfold DataStorage.announce at h
  split at h
  · cases h
  · rename_i ha
    cases h
    exact ⟨by omega, rfl, rfl, rfl, rfl⟩

theorem Inv.step {w w' : World C Q V T} {m : Move C V} (h : w.Inv) (hs : w.step m = some w') : w'.Inv := by
  cases m with
  | turn i => exact h.turn hs
  | gi client =>
    simp only [World.step, Option.bind_eq_bind, Option.bind_eq_some_iff, Option.pure_def, Option.some.injEq] at hs
    obtain ⟨q, hq, rfl⟩ := hs
    refine ⟨h.keyed, fun c hc => ?_⟩
    rcases List.mem_append.mp hc with hc | hc
    · exact h.bound c hc
    · rw [List.mem_singleton.mp hc]
      exact ⟨Dict.mem_values.mpr ⟨client, hq⟩, w.storage.signals.nodup, fun _ he => by cases he⟩
  | update now u =>
    rcases update_cases hs with ⟨rfl, -⟩ | ⟨id, sg, -, hg, rfl⟩
    · exact h
    · refine ⟨DataStorage.keyed_write now u h.keyed hg, fun c hc => ?_⟩
      rcases List.mem_append.mp hc with hc | hc
      · exact (h.bound c hc).write hg
      · obtain ⟨event, he, rfl⟩ := List.mem_map.mp hc
        obtain ⟨ha, hid, -⟩ := announce_some (Option.mem_toList.mp he)
        refine ⟨fun q hq => hq, sg.written now u, ?_, ha⟩
        show (w.storage.signals.set id (sg.written now u)).get event.id = some (sg.written now u)
        rw [hid, Dict.get_set_self]

theorem Clear.update {w w' : World C Q V T} {now : Datetime} {u : Update V} (h : w.Clear)
    (hok : w.InTurn (.update now u)) (hs : w.step (.update now u) = some w') : w'.Clear := by
  refine ⟨h.toInv.step hs, ?_, ?_⟩
  all_goals rcases update_cases hs with ⟨rfl, -⟩ | ⟨id, sg, hwr, hg, rfl⟩
  · exact h.current
  · intro p hp sg' hg'
    simp only [World.inHand, List.flatMap_append, List.mem_append] at hp
    simp only [DataStorage.write, Dict.get_set] at hg'
    rcases hp with hp | hp
    · by_cases hid : p.2.id = id
      · rw [if_pos hid] at hg'
        cases hg'
        exact hok id hwr p hp hid
      · rw [if_neg hid] at hg'
        exact h.current p hp sg' hg'
    · obtain ⟨c, hc, hp⟩ := List.mem_flatMap.mp hp
      obtain ⟨event, he, rfl⟩ := List.mem_map.mp hc
      obtain ⟨q, -, rfl⟩ := List.mem_map.mp hp
      obtain ⟨-, hid, hcar⟩ := announce_some (Option.mem_toList.mp he)
      rw [if_pos hid] at hg'
      cases hg'
      exact hcar
  · exact h.caughtUp
  · intro q hq id' sg' hg' ha event he
    simp only [World.inHand, List.flatMap_append, List.mem_append]
    simp only [DataStorage.write, Dict.get_set] at hg'
    by_cases hid : id' = id
    · -- the event of this commit is on its way to every subscriber
      rw [if_pos hid] at hg'
      cases hg'
      refine .inr ⟨{ (sg.written now u).event 3 with id }, .inr ?_, hid.symm⟩
      have hann : DataStorage.announce now u id sg = some { (sg.written now u).event 3 with id } :=
        if_neg (by simpa [SignalConf.written] using ha)
      have hq' : q ∈ w.storage.subs.values := hq
      rw [hann]
      simpa [Flight.inHand] using hq'
    · rw [if_neg hid] at hg'
      rcases h.caughtUp q hq id' sg' hg' ha event he with hc | ⟨event', hm, hid'⟩
      · exact .inl hc
      · exact .inr ⟨event', .inl hm, hid'⟩

theorem Clear.step {w w' : World C Q V T} {m : Move C V} (h : w.Clear) (hok : w.InTurn m)
    (hs : w.step m = some w') : w'.Clear := by
  cases m with
  | turn i => exact h.turn hs
  | update now u => exact h.update hok hs
  | gi client =>
    have hinv := h.toInv.step hs
    simp only [World.step, Option.bind_eq_bind, Option.bind_eq_some_iff, Option.pure_def, Option.some.injEq] at hs
    obtain ⟨q, -, rfl⟩ := hs
    have hhand : World.inHand { w with calls := w.calls ++ [.gi q w.storage.signals.keys none] } = w.inHand := by
      simp [World.inHand, Flight.inHand]
    refine ⟨hinv, ?_, ?_⟩
    · rw [hhand]
      exact h.current
    · rw [hhand]
      exact h.caughtUp

theorem GoesOn.inv {P : World C Q V T → Prop} {w t : World C Q V T} (h : w.GoesOn t) (h0 : P w)
    (hP : ∀ w i w', P w → w.step (.turn i) = some w' → P w') : P t := by
  refine Reach.inv h0 (fun w m w' hw hm hs => ?_) h
  cases m with
  | turn i => exact hP w i w' hw hs
  | update now u => cases hm
  | gi client => cases hm

/-- With nothing stale on its way the queues end fresh. -/
theorem Clear.sound {w : World C Q V T} (h : w.Clear) : w.Sound := by
  intro t ht hs
  have hclear : t.Clear := ht.inv h fun _ _ _ hw hstep => hw.turn hstep
  exact hclear.fresh hs

end World

end Drv60870.Storage
