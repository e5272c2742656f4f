/-
  Drv60870.Server.Registration — who is in the client table and among the subscribers.

  Actors. The accept loop enters a connection under its peer's address into the client table
  and among the subscribers, in two steps, and then starts its threads. A receive thread that
  ends takes the address out again, in two steps of its own. Between any two of these another
  thread may come in, and a peer may come back from the address it had. The tables are keyed by
  the address, so a clean-up takes out whatever is there.

  Beside the run `note` tells whether a clean-up of its address has come in since the
  connection that is being set up was entered.

  Proved:
  - The running connections are registered throughout a run exactly when no registration and
    no clean-up meets a running connection of its address, and no clean-up of its address
    comes between the entries of a connection and its start (`registered_iff`).
  - A connection on its way has its entries exactly if `note` says so (`marked_step`).
  - A peer that comes back from its address before the clean-up is over loses its entries
    (`a_late_cleanup_takes_the_new_entry`); where none comes back so early the running
    connections keep them (`registered_of_fresh`).

  Connections that are refused leave nothing behind and are left out.
-/

import Drv60870.Lib.Runs
import Drv60870.Storage.Signals

namespace Drv60870.Server

open Lib Lib.Runs Storage

variable {Addr : Type}

/-- A connection's `state`: the peer's address, and a queue of its own. -/
structure Peer (Addr : Type) where
  id : Nat
  addr : Addr
  deriving DecidableEq

abbrev ClientStorage (Addr : Type) := Dict Addr (Peer Addr)

namespace ClientStorage

variable [DecidableEq Addr]

def addClient (clients : ClientStorage Addr) (state : Peer Addr) : ClientStorage Addr := clients.set state.addr state

def removeClient (clients : ClientStorage Addr) (addr : Addr) : ClientStorage Addr := clients.erase addr

end ClientStorage

/-- Where `run_accept_loop` is. -/
inductive Accepting (Addr : Type) where
  | waiting
  | created (state : Peer Addr)
  | subscribed (state : Peer Addr)
  | added (state : Peer Addr)
  deriving DecidableEq

def Accepting.peer : Accepting Addr → Option (Peer Addr)
  | .waiting => none
  | .created state | .subscribed state | .added state => some state

/-- The tables, and the connections by where their receive threads are: `ending` and
    `unsubscribed` in the clean-up, before each of its steps. -/
structure Registry (Addr : Type) where
  clients : ClientStorage Addr
  storage : Signals Addr (Peer Addr)
  accepting : Accepting Addr
  running : List (Peer Addr)
  ending : List (Peer Addr)
  unsubscribed : List (Peer Addr)
  next : Nat

namespace Registry

inductive Act (Addr : Type) where
  /-- `accept` and `create_client_state` -/
  | accept (addr : Addr)
  | subscribe
  | add
  /-- `start_client_threads` -/
  | start
  /-- The receive thread leaves its loop. -/
  | finish (state : Peer Addr)
  | unsubscribe (state : Peer Addr)
  | remove (state : Peer Addr)
  deriving DecidableEq

def empty : Registry Addr := ⟨.empty, .empty, .waiting, [], [], [], 0⟩

variable [DecidableEq Addr]

def step (s : Registry Addr) : Act Addr → Option (Registry Addr)
  | .accept addr =>
    match s.accepting with
    | .waiting => some { s with accepting := .created ⟨s.next, addr⟩, next := s.next + 1 }
    | _ => none
  | .subscribe =>
    match s.accepting with
    | .created state =>
      some { s with storage := s.storage.subscribe state.addr state, accepting := .subscribed state }
    | _ => none
  | .add =>
    match s.accepting with
    | .subscribed state => some { s with clients := s.clients.addClient state, accepting := .added state }
    | _ => none
  | .start =>
    match s.accepting with
    | .added state => some { s with running := s.running ++ [state], accepting := .waiting }
    | _ => none
  | .finish state =>
    if state ∈ s.running then
      some { s with running := s.running.erase state, ending := s.ending ++ [state] }
    else none
  | .unsubscribe state =>
    if state ∈ s.ending then
      some { s with
        storage := s.storage.unsubscribe state.addr
        ending := s.ending.erase state
        unsubscribed := s.unsubscribed ++ [state] }
    else none
  | .remove state =>
    if state ∈ s.unsubscribed then
      some { s with clients := s.clients.removeClient state.addr, unsubscribed := s.unsubscribed.erase state }
    else none

def Entered (s : Registry Addr) (state : Peer Addr) : Prop :=
  s.clients.get state.addr = some state ∧ s.storage.subs.get state.addr = some state

def Registered (s : Registry Addr) : Prop := ∀ x ∈ s.running, s.Entered x

def Vacant (s : Registry Addr) (addr : Addr) : Prop := ∀ x ∈ s.running, x.addr ≠ addr

/-- Whether a clean-up of its address has come in since the connection that is being set up was
    entered: into the subscribers, or into the client table. -/
def note (s : Registry Addr) : Act Addr → Bool → Bool
  | .subscribe, _ => false
  | .unsubscribe state, cleaned =>
    match s.accepting with
    | .subscribed x | .added x => cleaned || x.addr = state.addr
    | _ => cleaned
  | .remove state, cleaned =>
    match s.accepting with
    | .added x => cleaned || x.addr = state.addr
    | _ => cleaned
  | .accept _, cleaned | .add, cleaned | .start, cleaned | .finish _, cleaned => cleaned

/-- An address is registered and cleaned up while no running connection is of it, and none is
    cleaned up between the registration of a connection and the start of its threads. -/
def undisturbed (p : Registry Addr × Bool) : Act Addr → Prop
  | .subscribe => ∀ state, p.1.accepting = .created state → p.1.Vacant state.addr
  | .start => p.2 = false
  | .unsubscribe state | .remove state => p.1.Vacant state.addr
  | .accept _ | .add | .finish _ => True

/-! ## Steps -/

inductive Move : Registry Addr → Act Addr → Registry Addr → Prop
  | accept (s) (addr) : s.accepting = .waiting →
      Move s (.accept addr) { s with accepting := .created ⟨s.next, addr⟩, next := s.next + 1 }
  | subscribe (s) (state) : s.accepting = .created state →
      Move s .subscribe { s with storage := s.storage.subscribe state.addr state, accepting := .subscribed state }
  | add (s) (state) : s.accepting = .subscribed state →
      Move s .add { s with clients := s.clients.addClient state, accepting := .added state }
  | start (s) (state) : s.accepting = .added state →
      Move s .start { s with running := s.running ++ [state], accepting := .waiting }
  | finish (s) (state) : state ∈ s.running →
      Move s (.finish state) { s with running := s.running.erase state, ending := s.ending ++ [state] }
  | unsubscribe (s) (state) : state ∈ s.ending → Move s (.unsubscribe state) { s with
      storage := s.storage.unsubscribe state.addr
      ending := s.ending.erase state
      unsubscribed := s.unsubscribed ++ [state] }
  | remove (s) (state) : state ∈ s.unsubscribed → Move s (.remove state) { s with
      clients := s.clients.removeClient state.addr, unsubscribed := s.unsubscribed.erase state }

theorem step_move {s s' : Registry Addr} {a : Act Addr} (h : s.step a = some s') : Move s a s' := by
  cases a with
  | accept addr =>
    simp only [step] at h
    split at h
    · rename_i hw
      cases h
      exact .accept s addr hw
    · cases h
  | subscribe =>
    simp only [step] at h
    split at h
    · rename_i state hc
      cases h
      exact .subscribe s state hc
    · cases h
  | add =>
    simp only [step] at h
    split at h
    · rename_i state hc
      cases h
      exact .add s state hc
    · cases h
  | start =>
    simp only [step] at h
    split at h
    · rename_i state hc
      cases h
      exact .start s state hc
    · cases h
  | finish state =>
    simp only [step] at h
    split at h
    · rename_i hm
      cases h
      exact .finish s state hm
    · cases h
  | unsubscribe state =>
    simp only [step] at h
    split at h
    · rename_i hm
      cases h
      exact .unsubscribe s state hm
    · cases h
  | remove state =>
    simp only [step] at h
    split at h
    · rename_i hm
      cases h
      exact .remove s state hm
    · cases h

/-! ## Entries -/

theorem Vacant.erase {s : Registry Addr} {addr : Addr} (h : s.Vacant addr) (state : Peer Addr) :
    ∀ x ∈ s.running.erase state, x.addr ≠ addr := fun x hx => h x (List.mem_of_mem_erase hx)

/-- What is registered under another address is left. -/
theorem Entered.subscribe {s : Registry Addr} {x state : Peer Addr} (h : s.Entered x) (hne : x.addr ≠ state.addr)
    (accepting : Accepting Addr) :
    ({ s with storage := s.storage.subscribe state.addr state, accepting } : Registry Addr).Entered x := by
  refine ⟨h.1, ?_⟩
  show (s.storage.subs.set state.addr state).get x.addr = some x
  rw [Dict.get_set_ne _ _ hne]
  exact h.2

theorem Entered.add {s : Registry Addr} {x state : Peer Addr} (h : s.Entered x) (hne : x.addr ≠ state.addr)
    (accepting : Accepting Addr) :
    ({ s with clients := s.clients.addClient state, accepting } : Registry Addr).Entered x := by
  refine ⟨?_, h.2⟩
  show (s.clients.set state.addr state).get x.addr = some x
  rw [Dict.get_set_ne _ _ hne]
  exact h.1

/-! ## The connection being set up -/

/-- A connection on its way has its entries exactly if no clean-up of its address has come in. -/
structure Marked (s : Registry Addr) (cleaned : Bool) : Prop where
  subscribed : ∀ x, s.accepting = .subscribed x → (cleaned = false ↔ s.storage.subs.get x.addr = some x)
  added : ∀ x, s.accepting = .added x → (cleaned = false ↔ s.Entered x)

theorem cleaned_iff {Q Q' : Prop} {cleaned : Bool} {addr addr' : Addr} (h : cleaned = false ↔ Q)
    (hother : addr ≠ addr' → (Q' ↔ Q)) (hgone : addr = addr' → ¬ Q') :
    (cleaned || decide (addr = addr')) = false ↔ Q' := by
  by_cases he : addr = addr'
  · rw [decide_eq_true he, Bool.or_true]
    exact iff_of_false (fun h => by cases h) (hgone he)
  · rw [decide_eq_false he, Bool.or_false, h]
    exact (hother he).symm

theorem marked_unsubscribe {s : Registry Addr} {cleaned : Bool} (h : s.Marked cleaned) (state : Peer Addr)
    (ending unsubscribed : List (Peer Addr)) :
    ({ s with storage := s.storage.unsubscribe state.addr, ending, unsubscribed } : Registry Addr).Marked
      (s.note (.unsubscribe state) cleaned) := by
  have hget : ∀ addr, (s.storage.unsubscribe state.addr).subs.get addr =
      if addr = state.addr then none else s.storage.subs.get addr := fun addr => Dict.get_erase _ _ _
  refine ⟨fun x hx => ?_, fun x hx => ?_⟩
  · have hc : s.accepting = .subscribed x := hx
    simp only [note, hc]
    refine cleaned_iff (h.subscribed x hc) (fun hne => ?_) fun he => ?_
    · rw [hget, if_neg hne]
    · rw [hget, if_pos he]
      exact fun h => by cases h
  · have hc : s.accepting = .added x := hx
    simp only [note, hc]
    refine cleaned_iff (h.added x hc) (fun hne => ?_) fun he => ?_
    · rw [Entered, Entered, hget, if_neg hne]
    · rw [Entered, hget, if_pos he]
      exact fun h => by cases h.2

theorem marked_remove {s : Registry Addr} {cleaned : Bool} (h : s.Marked cleaned) (state : Peer Addr)
    (unsubscribed : List (Peer Addr)) :
    ({ s with clients := s.clients.removeClient state.addr, unsubscribed } : Registry Addr).Marked
      (s.note (.remove state) cleaned) := by
  have hget : ∀ addr, (s.clients.removeClient state.addr).get addr =
      if addr = state.addr then none else s.clients.get addr := fun addr => Dict.get_erase _ _ _
  refine ⟨fun x hx => ?_, fun x hx => ?_⟩
  · have hc : s.accepting = .subscribed x := hx
    simp only [note, hc]
    exact h.subscribed x hc
  · have hc : s.accepting = .added x := hx
    simp only [note, hc]
    refine cleaned_iff (h.added x hc) (fun hne => ?_) fun he => ?_
    · rw [Entered, Entered, hget, if_neg hne]
    · rw [Entered, hget, if_pos he]
      exact fun h => by cases h.1

theorem marked_step {s s' : Registry Addr} {a : Act Addr} {cleaned : Bool} (h : s.Marked cleaned)
    (hs : s.step a = some s') : s'.Marked (s.note a cleaned) := by
  cases step_move hs with
  | accept addr hw => exact ⟨fun x hx => (by cases hx), fun x hx => (by cases hx)⟩
  | subscribe state hc =>
    refine ⟨fun x hx => ?_, fun x hx => (by cases hx)⟩
    cases hx
    exact iff_of_true rfl (Dict.get_set_self _ _ _)
  | add state hc =>
    refine ⟨fun x hx => (by cases hx), fun x hx => ?_⟩
    cases hx
    refine (h.subscribed state hc).trans ⟨fun hsub => ⟨Dict.get_set_self _ _ _, hsub⟩, fun hent => hent.2⟩
  | start state hc => exact ⟨fun x hx => (by cases hx), fun x hx => (by cases hx)⟩
  | finish state hm => exact ⟨h.subscribed, h.added⟩
  | unsubscribe state hm => exact marked_unsubscribe h state _ _
  | remove state hm => exact marked_remove h state _

/-! ## Runs -/

structure Kept (s : Registry Addr) (cleaned : Bool) : Prop where
  marked : s.Marked cleaned
  fresh : ∀ x ∈ s.running, x.id < s.next
  apart : ∀ x, s.accepting.peer = some x → x.id < s.next ∧ x ∉ s.running
  room : ∀ x, s.accepting = .subscribed x ∨ s.accepting = .added x → s.Vacant x.addr
  registered : s.Registered

theorem kept_empty : Kept (empty : Registry Addr) false where
  marked := ⟨fun x hx => (by cases hx), fun x hx => (by cases hx)⟩
  fresh := fun x hx => by cases hx
  apart := fun x hx => by cases hx
  room := fun x _ y hy => by cases hy
  registered := fun x hx => by cases hx

theorem kept_step {s s' : Registry Addr} {a : Act Addr} {cleaned : Bool} (h : s.Kept cleaned)
    (hok : undisturbed (s, cleaned) a) (hs : s.step a = some s') : s'.Kept (s.note a cleaned) := by
  have hmark := marked_step h.marked hs
  cases step_move hs with
  | accept addr hw =>
    refine ⟨hmark, fun x hx => Nat.lt_succ_of_lt (h.fresh x hx), fun x hx => ?_, fun x hx => ?_, h.registered⟩
    · cases hx
      refine ⟨Nat.lt_succ_self _, fun hm => ?_⟩
      exact Nat.lt_irrefl _ (h.fresh _ hm)
    · rcases hx with hx | hx <;> cases hx
  | subscribe state hc =>
    have hv := hok state hc
    refine ⟨hmark, h.fresh, fun x hx => ?_, fun x hx => ?_, fun x hx => (h.registered x hx).subscribe (hv x hx) _⟩
    · cases hx
      exact h.apart state (by rw [hc]; rfl)
    · rcases hx with hx | hx
      · cases hx
        exact hv
      · cases hx
  | add state hc =>
    have hv := h.room state (.inl hc)
    refine ⟨hmark, h.fresh, fun x hx => ?_, fun x hx => ?_, fun x hx => (h.registered x hx).add (hv x hx) _⟩
    · cases hx
      exact h.apart state (by rw [hc]; rfl)
    · rcases hx with hx | hx
      · cases hx
      · cases hx
        exact hv
  | start state hc =>
    have hrun : ∀ x ∈ s.running ++ [state], x ∈ s.running ∨ x = state := by
      intro x hx
      rcases List.mem_append.mp hx with hx | hx
      · exact .inl hx
      · exact .inr (List.mem_singleton.mp hx)
    refine ⟨hmark, fun x hx => ?_, fun x hx => (by cases hx), fun x hx => ?_, fun x hx => ?_⟩
    · rcases hrun x hx with hx | rfl
      · exact h.fresh x hx
      · exact (h.apart x (by rw [hc]; rfl)).1
    · rcases hx with hx | hx <;> cases hx
    · rcases hrun x hx with hx | rfl
      · exact h.registered x hx
      · exact (h.marked.added x hc).mp hok
  | finish state hm =>
    exact ⟨hmark, fun x hx => h.fresh x (List.mem_of_mem_erase hx),
      fun x hx => ⟨(h.apart x hx).1, fun hm => (h.apart x hx).2 (List.mem_of_mem_erase hm)⟩,
      fun x hx => (h.room x hx).erase state, fun x hx => h.registered x (List.mem_of_mem_erase hx)⟩
  | unsubscribe state hm =>
    refine ⟨hmark, h.fresh, h.apart, h.room, fun x hx => ⟨(h.registered x hx).1, ?_⟩⟩
    show (s.storage.subs.erase state.addr).get x.addr = some x
    rw [Dict.get_erase, if_neg (hok x hx)]
    exact (h.registered x hx).2
  | remove state hm =>
    refine ⟨hmark, h.fresh, h.apart, h.room, fun x hx => ⟨?_, (h.registered x hx).2⟩⟩
    show (s.clients.erase state.addr).get x.addr = some x
    rw [Dict.get_erase, if_neg (hok x hx)]
    exact (h.registered x hx).1

/-- A step that is disturbed leaves a running connection without an entry. -/
theorem undisturbed_of_registered {s s' : Registry Addr} {a : Act Addr} {cleaned : Bool} (h : s.Kept cleaned)
    (hs : s.step a = some s') (hp : s'.Registered) : undisturbed (s, cleaned) a := by
  cases step_move hs with
  | accept addr hw => trivial
  | add state hc => trivial
  | finish state hm => trivial
  | subscribe state hc =>
    intro c hc' x hx he
    rw [hc] at hc'
    cases hc'
    have hsub : (s.storage.subs.set state.addr state).get x.addr = some x := (hp x hx).2
    rw [he, Dict.get_set_self] at hsub
    cases hsub
    exact (h.apart _ (by rw [hc]; rfl)).2 hx
  | start state hc =>
    have hent : s.Entered state := hp state (List.mem_append_right _ List.mem_cons_self)
    exact (h.marked.added state hc).mpr hent
  | unsubscribe state hm =>
    intro x hx he
    have hsub : (s.storage.subs.erase state.addr).get x.addr = some x := (hp x hx).2
    rw [Dict.get_erase, if_pos he] at hsub
    cases hsub
  | remove state hm =>
    intro x hx he
    have hcl : (s.clients.erase state.addr).get x.addr = some x := (hp x hx).1
    rw [Dict.get_erase, if_pos he] at hcl
    cases hcl

/-- In every run of the accept loop and the receive threads, `note` telling of the clean-ups. -/
theorem registered_iff (as : List (Act Addr)) (s : Registry Addr) (h : run step empty as = some s) :
    Along step Registered empty as ↔ Obeys (audited step note) undisturbed (empty, false) as := by
  obtain ⟨cleaned, hr⟩ : ∃ cleaned, run (audited step note) (empty, false) as = some (s, cleaned) :=
    run_audited h false
  refine along_audited.symm.trans (along_iff_obeys_of (J := fun p => p.1.Kept p.2) ?_ ?_ ?_ kept_empty hr)
  · intro p a p' hk hok hs
    obtain ⟨hstep, hnote⟩ := audited_some hs
    rw [hnote]
    exact kept_step hk hok hstep
  · exact fun p hk => hk.registered
  · intro p a p' hk hs hp
    exact undisturbed_of_registered hk (audited_some hs).1 hp

/-! ## Addresses in use -/

def present (s : Registry Addr) : List (Peer Addr) :=
  s.accepting.peer.toList ++ (s.running ++ (s.ending ++ s.unsubscribed))

/-- A peer comes back to its address after the clean-up only. -/
def addressFree (s : Registry Addr) : Act Addr → Prop
  | .accept addr => ∀ x ∈ s.present, x.addr ≠ addr
  | _ => True

/-- The connections that are present have addresses of their own, and so have their entries. -/
structure Settled (s : Registry Addr) : Prop where
  addresses : (s.present.map Peer.addr).Nodup
  subscribed : ∀ x, s.accepting = .subscribed x ∨ s.accepting = .added x → s.storage.subs.get x.addr = some x
  added : ∀ x, s.accepting = .added x → s.clients.get x.addr = some x

theorem Settled.accepting {s : Registry Addr} (h : Settled s) {x : Peer Addr} (hx : s.accepting.peer = some x) :
    ∀ y ∈ s.running ++ (s.ending ++ s.unsubscribed), y.addr ≠ x.addr := by
  intro y hy
  have hn := h.addresses
  rw [present, hx, List.map_append, List.nodup_append] at hn
  exact fun he => hn.2.2 x.addr (by simp) y.addr (List.mem_map_of_mem hy) he.symm

theorem Settled.vacant {s : Registry Addr} (h : Settled s) {x : Peer Addr} (hx : x ∈ s.ending ++ s.unsubscribed) :
    s.Vacant x.addr := by
  intro y hy
  have hn := h.addresses
  rw [present, List.map_append, List.nodup_append, List.map_append, List.nodup_append] at hn
  exact hn.2.1.2.2 y.addr (List.mem_map_of_mem hy) x.addr (List.mem_map_of_mem hx)

theorem undisturbed_of_settled {s s' : Registry Addr} {a : Act Addr} {cleaned : Bool} (h : Settled s)
    (hmark : s.Marked cleaned) (hs : s.step a = some s') : undisturbed (s, cleaned) a := by
  cases step_move hs with
  | accept addr hw => trivial
  | add state hc => trivial
  | finish state hm => trivial
  | subscribe state hc =>
    intro c hc'
    exact fun x hx => h.accepting (by rw [hc']; rfl) x (List.mem_append_left _ hx)
  | start state hc => exact (hmark.added state hc).mpr ⟨h.added state hc, h.subscribed state (.inr hc)⟩
  | unsubscribe state hm => exact h.vacant (List.mem_append_left _ hm)
  | remove state hm => exact h.vacant (List.mem_append_right _ hm)

theorem settled_step {s s' : Registry Addr} {a : Act Addr} (h : Settled s) (hok : s.addressFree a)
    (hs : s.step a = some s') : Settled s' := by
  cases step_move hs with
  | accept addr hw =>
    refine ⟨?_, fun x hx => (by rcases hx with hx | hx <;> cases hx), fun x hx => (by cases hx)⟩
    have hpresent : s.present = s.running ++ (s.ending ++ s.unsubscribed) := by rw [present, hw]; rfl
    have hn := h.addresses
    rw [hpresent] at hn
    refine List.nodup_cons.mpr ⟨fun hm => ?_, hn⟩
    obtain ⟨x, hx, he⟩ := List.mem_map.mp hm
    exact hok x (by rw [hpresent]; exact hx) he
  | subscribe state hc =>
    refine ⟨?_, fun x hx => ?_, fun x hx => (by cases hx)⟩
    · have hn := h.addresses
      rw [present, hc] at hn
      exact hn
    · rcases hx with hx | hx
      · cases hx
        exact Dict.get_set_self _ _ _
      · cases hx
  | add state hc =>
    refine ⟨?_, fun x hx => ?_, fun x hx => ?_⟩
    · have hn := h.addresses
      rw [present, hc] at hn
      exact hn
    · rcases hx with hx | hx
      · cases hx
      · cases hx
        exact h.subscribed _ (.inl hc)
    · cases hx
      exact Dict.get_set_self _ _ _
  | start state hc =>
    refine ⟨?_, fun x hx => (by rcases hx with hx | hx <;> cases hx), fun x hx => (by cases hx)⟩
    have hn := h.addresses
    rw [present, hc] at hn
    refine (List.Perm.map Peer.addr ?_).nodup_iff.mp hn
    show (state :: (s.running ++ _)).Perm (s.running ++ [state] ++ _)
    rw [List.append_assoc]
    exact List.perm_middle.symm
  | finish state hm =>
    refine ⟨(List.Perm.map Peer.addr ?_).nodup_iff.mp h.addresses, h.subscribed, h.added⟩
    refine List.Perm.append_left _ ?_
    show (s.running ++ (s.ending ++ s.unsubscribed)).Perm
      (s.running.erase state ++ (s.ending ++ [state] ++ s.unsubscribed))
    refine ((List.perm_cons_erase hm).append_right _).trans ?_
    rw [List.append_assoc s.ending]
    refine List.Perm.trans ?_ (List.Perm.append_left _ List.perm_middle.symm)
    exact List.perm_middle.symm
  | unsubscribe state hm =>
    have hne : ∀ x, s.accepting.peer = some x → x.addr ≠ state.addr := fun x hx he =>
      h.accepting hx state (List.mem_append_right _ (List.mem_append_left _ hm)) he.symm
    refine ⟨(List.Perm.map Peer.addr ?_).nodup_iff.mp h.addresses, fun x hx => ?_, h.added⟩
    · refine List.Perm.append_left _ (List.Perm.append_left _ ?_)
      show (s.ending ++ s.unsubscribed).Perm (s.ending.erase state ++ (s.unsubscribed ++ [state]))
      refine ((List.perm_cons_erase hm).append_right _).trans ?_
      refine List.Perm.trans List.perm_middle.symm (List.Perm.append_left _ ?_)
      exact (List.perm_append_singleton state _).symm
    · show (s.storage.subs.erase state.addr).get x.addr = some x
      have hpeer : s.accepting.peer = some x := by
        rcases hx with hx | hx
        all_goals rw [show s.accepting = _ from hx]; rfl
      rw [Dict.get_erase, if_neg (hne x hpeer)]
      exact h.subscribed x hx
  | remove state hm =>
    have hne : ∀ x, s.accepting.peer = some x → x.addr ≠ state.addr := fun x hx he =>
      h.accepting hx state (List.mem_append_right _ (List.mem_append_right _ hm)) he.symm
    refine ⟨h.addresses.sublist ?_, h.subscribed, fun x hx => ?_⟩
    · refine List.Sublist.map _ ((List.Sublist.refl _).append ?_)
      exact (List.Sublist.refl _).append ((List.Sublist.refl _).append List.erase_sublist)
    · show (s.clients.erase state.addr).get x.addr = some x
      have hpeer : s.accepting.peer = some x := by rw [show s.accepting = _ from hx]; rfl
      rw [Dict.get_erase, if_neg (hne x hpeer)]
      exact h.added x hx

theorem settled_empty : Settled (empty : Registry Addr) where
  addresses := List.nodup_nil
  subscribed := fun x hx => by rcases hx with hx | hx <;> cases hx
  added := fun x hx => by cases hx

/-- Where no peer comes back before the clean-up of its last connection is over. -/
theorem registered_of_fresh {s : Registry Addr} (h : Reach step addressFree empty s) : s.Registered := by
  obtain ⟨cleaned, hr⟩ := h.audit note false
  have hinv : Settled s ∧ s.Kept cleaned :=
    hr.inv (P := fun p => Settled p.1 ∧ p.1.Kept p.2) ⟨settled_empty, kept_empty⟩ fun p a p' hp hok hs => by
      obtain ⟨hstep, hnote⟩ := audited_some hs
      refine ⟨settled_step hp.1 hok hstep, ?_⟩
      rw [hnote]
      exact kept_step hp.2 (undisturbed_of_settled hp.1 hp.2.marked hstep) hstep
  exact hinv.2.registered

/-! ## Peers that come back -/

def connectFrom (addr : Addr) : List (Act Addr) := [.accept addr, .subscribe, .add, .start]

def cleanUp (state : Peer Addr) : List (Act Addr) := [.unsubscribe state, .remove state]

def samplePeer : Peer (String × Nat) := ⟨0, "127.0.0.1", 50000⟩

def backEarly : List (Act (String × Nat)) :=
  connectFrom samplePeer.addr ++ [.finish samplePeer] ++ connectFrom samplePeer.addr ++ cleanUp samplePeer

def backLater : List (Act (String × Nat)) :=
  connectFrom samplePeer.addr ++ [.finish samplePeer] ++ cleanUp samplePeer ++ connectFrom samplePeer.addr

theorem a_late_cleanup_takes_the_new_entry :
    ¬ ∀ (as : List (Act (String × Nat))) s, run step empty as = some s → Along step Registered empty as := by
  intro hall
  have hrun : (run step empty backEarly).map (fun s => (s.running, s.clients.keys)) =
      some ([{ samplePeer with id := 1 }], []) := by decide
  obtain ⟨s, hs, he⟩ := Option.map_eq_some_iff.mp hrun
  simp only [Prod.mk.injEq] at he
  have hent := (hall _ s hs).last hs { samplePeer with id := 1 } (by rw [he.1]; exact List.mem_cons_self)
  have hkey : samplePeer.addr ∈ s.clients.keys := Dict.mem_keys.mpr ⟨_, hent.1⟩
  rw [he.2] at hkey
  cases hkey

theorem registered_iff_backLater : Along step Registered empty backLater ↔
    Obeys (audited step note) undisturbed (empty, false) backLater := by
  have hrun : (run step empty backLater).isSome = true := by decide
  obtain ⟨s, hs⟩ := Option.isSome_iff_exists.mp hrun
  exact registered_iff _ s hs

end Registry

end Drv60870.Server
