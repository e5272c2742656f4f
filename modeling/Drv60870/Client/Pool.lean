/-
  Drv60870.Client.Pool — the client's sessions (`create_client_pool` and the calls of
  `create_client_api`, `client.py`).

  Actors. A call is a sequence of steps, each under the pool's lock or outside it, and calls of
  several threads may be in flight at once: the command line connects and disconnects,
  `run_client_loop` goes through a copy of the table and removes the sessions it finds
  stopped. A session is live from the start of its threads until it is stopped, or stops by
  itself. `connect` registers a session that is already live, and registering may fail.

  `Contained` is what the table owes at any time, calls in flight or not: every live session
  is in it or known to a call in flight, and those that no call knows (`settled`) have distinct
  names and are no more than the limit.

  Proved:
  - It holds throughout a run exactly when each session that comes to be registered finds its
    name and a place free, or has stopped (`contained_iff`).
  - The table and the calls are sound in every run (`sound_step`), so all that can go wrong is
    a live session that no one knows (`contained_iff_known`).
  - It does go wrong: of two connects of one name the second session runs, and no one knows it
    (`a_second_connect_leaves_a_session`).
-/

import Mathlib.Data.List.Perm.Basic
import Drv60870.Lib.Dict
import Drv60870.Lib.Runs

namespace Drv60870.Client

open Lib Lib.Runs

def maxConnections : Nat := 8

/-- A session as the pool holds it, `state` and its two threads. -/
structure Entry where
  id : Nat
  name : String
  deriving DecidableEq, Repr

/-- A call in flight. `rest` is what `run_client_loop` has yet to go through. -/
inductive Flight where
  /-- `connect`, below the limit. -/
  | checked (name : String)
  /-- `connect`, the session started. -/
  | opened (session : Entry)
  /-- `disconnect`, the entry popped. -/
  | popped (session : Entry)
  | sweeping (rest : List (String × Entry))
  /-- `run_client_loop`, a session tested and found stopped. -/
  | found (name : String) (tested : Entry) (rest : List (String × Entry))
  /-- `run_client_loop`, the entry popped. -/
  | swept (session : Entry) (rest : List (String × Entry))
  deriving DecidableEq

def Flight.session : Flight → Option Entry
  | .opened session | .popped session | .swept session _ => some session
  | _ => none

structure Pool where
  table : Dict String Entry
  live : List Entry
  flights : List Flight
  next : Nat

inductive Pool.Act where
  | connect (name : String)
  /-- `start_session`; the connection may be refused. -/
  | start (i : Nat) (accepted : Bool)
  /-- `add_session` -/
  | add (i : Nat)
  | disconnect (name : String)
  /-- `run_client_loop` takes its copy of the table. -/
  | list
  /-- It tests the next session. -/
  | test (i : Nat)
  /-- `remove_session`, after a session was found stopped. -/
  | remove (i : Nat)
  /-- The popped session is stopped, its socket closed and its threads joined. -/
  | stop (i : Nat)
  /-- A session's own thread sets `stop_event`. -/
  | die (session : Entry)

namespace Pool

def empty : Pool := ⟨.empty, [], [], 0⟩

def land (s : Pool) (i : Nat) : Pool := { s with flights := s.flights.eraseIdx i }

def fly (s : Pool) (i : Nat) (f : Flight) : Pool := { s with flights := s.flights.set i f }

def pop (s : Pool) (name : String) : Pool :=
  match s.table.get name with
  | none => s
  | some session => { s with table := s.table.erase name, flights := s.flights ++ [.popped session] }

/-- `add_session`; it raises for a name that is taken, and where there is no place. -/
def register (s : Pool) (session : Entry) : Pool :=
  if (s.table.get session.name).isSome then s
  else if s.table.size ≥ maxConnections then s
  else { s with table := s.table.set session.name session }

def step (s : Pool) : Act → Option Pool
  | .connect name =>
    if s.table.size ≥ maxConnections then some s else some { s with flights := s.flights ++ [.checked name] }
  | .start i accepted =>
    match s.flights[i]? with
    | some (.checked name) =>
      if accepted then
        let session : Entry := ⟨s.next, name⟩
        some { s with
          live := s.live ++ [session], flights := s.flights.eraseIdx i ++ [.opened session], next := s.next + 1 }
      else some (s.land i)
    | _ => none
  | .add i =>
    match s.flights[i]? with
    | some (.opened session) => some ((s.land i).register session)
    | _ => none
  | .disconnect name => some (s.pop name)
  | .list => some { s with flights := s.flights ++ [.sweeping s.table.entries] }
  | .test i =>
    match s.flights[i]? with
    | some (.sweeping ((name, session) :: rest)) =>
      some (s.fly i (if session ∈ s.live then .sweeping rest else .found name session rest))
    | some (.sweeping []) => some (s.land i)
    | _ => none
  | .remove i =>
    match s.flights[i]? with
    | some (.found name _ rest) =>
      match s.table.get name with
      | none => some (s.fly i (.sweeping rest))
      | some session => some { s.fly i (.swept session rest) with table := s.table.erase name }
    | _ => none
  | .stop i =>
    match s.flights[i]? with
    | some (.popped session) => some { s.land i with live := s.live.erase session }
    | some (.swept session rest) => some { s.fly i (.sweeping rest) with live := s.live.erase session }
    | _ => none
  | .die session => if session ∈ s.live then some { s with live := s.live.erase session } else none

/-! ## No orphans -/

def settled (s : Pool) : List Entry := s.live.filter fun x => s.flights.all fun f => f.session ≠ some x

/-- Every live session is in the table, or a call in flight knows it. Those that no call in
    flight knows have distinct names and are no more than the limit. -/
structure Contained (s : Pool) : Prop where
  live : ∀ x ∈ s.live, x ∈ s.table.values ∨ ∃ f ∈ s.flights, f.session = some x
  names : (s.settled.map Entry.name).Nodup
  limit : s.settled.length ≤ maxConnections

/-- A session that comes to be registered finds its name and a place free, or has stopped. -/
def findsPlace (s : Pool) : Act → Prop
  | .add i => ∀ session, s.flights[i]? = some (.opened session) →
      (s.table.get session.name = none ∧ s.table.size < maxConnections) ∨ session ∉ s.live
  | _ => True

/-! ## Where the sessions are -/

def places (s : Pool) : List Entry := s.table.values ++ s.flights.filterMap Flight.session

theorem mem_places {s : Pool} {x : Entry} :
    x ∈ s.places ↔ x ∈ s.table.values ∨ ∃ f ∈ s.flights, f.session = some x := by
  rw [places, List.mem_append, List.mem_filterMap]

inductive Moved (s : Pool) : Act → Pool → Prop
  /-- None is forgotten. -/
  | kept (a) (s') : s.findsPlace a → s'.places.Perm s.places → s'.live.Sublist s.live → s'.next = s.next → Moved s a s'
  | started (a) (s') (x : Entry) : s.findsPlace a → x.id = s.next → s'.places.Perm (x :: s.places) →
      s'.live = s.live ++ [x] → s'.next = s.next + 1 → Moved s a s'
  | stopped (a) (s') (x : Entry) : s.findsPlace a → s.places.Perm (x :: s'.places) → s'.live = s.live.erase x →
      s'.next = s.next → Moved s a s'
  /-- `add_session` raised. -/
  | dropped (i) (s') (x : Entry) : s.flights[i]? = some (.opened x) →
      ¬ (s.table.get x.name = none ∧ s.table.size < maxConnections) → s.places.Perm (x :: s'.places) →
      s'.live = s.live → s'.next = s.next → Moved s (.add i) s'

theorem places_land {s : Pool} {i : Nat} {f : Flight} (h : s.flights[i]? = some f) :
    s.places.Perm (f.session.toList ++ (s.land i).places) := by
  obtain ⟨hi, rfl⟩ := List.getElem?_eq_some_iff.mp h
  have hp := (List.getElem_cons_eraseIdx_perm hi).symm.filterMap Flight.session
  refine (hp.append_left s.table.values).trans ?_
  rw [List.filterMap_cons]
  cases s.flights[i].session with
  | none => exact .refl _
  | some x => exact List.perm_middle

theorem places_flight (s : Pool) (f : Flight) :
    ({ s with flights := s.flights ++ [f] } : Pool).places.Perm (f.session.toList ++ s.places) := by
  simp only [places, List.filterMap_append, ← List.append_assoc]
  cases hf : f.session with
  | none => simp [hf]
  | some x =>
    rw [List.filterMap_cons, hf]
    exact List.perm_append_singleton x _

theorem places_fly {s : Pool} {i : Nat} {f : Flight} (h : s.flights[i]? = some f) (g : Flight) :
    (s.fly i g).places.Perm (g.session.toList ++ (s.land i).places) := by
  obtain ⟨hi, rfl⟩ := List.getElem?_eq_some_iff.mp h
  have hg : (s.fly i g).flights[i]? = some g := List.getElem?_set_self hi
  have hp := places_land hg
  have hland : (s.fly i g).land i = s.land i := by
    simp only [fly, land, List.eraseIdx_set_eq]
  rw [hland] at hp
  exact hp

theorem places_erase {s : Pool} {name : String} {x : Entry} (h : s.table.get name = some x) :
    s.places.Perm (x :: ({ s with table := s.table.erase name } : Pool).places) :=
  (Dict.values_erase h).append_right (s.flights.filterMap Flight.session)

theorem places_pop (s : Pool) (name : String) : (s.pop name).places.Perm s.places := by
  unfold pop
  cases hg : s.table.get name with
  | none => exact .refl _
  | some x =>
    simp only [places, List.filterMap_append]
    refine List.Perm.trans ?_ (places_erase hg).symm
    rw [← List.append_assoc]
    exact List.perm_append_singleton x _

theorem pop_live (s : Pool) (name : String) : (s.pop name).live = s.live ∧ (s.pop name).next = s.next := by
  unfold pop
  split <;> exact ⟨rfl, rfl⟩

theorem step_moved {s s' : Pool} {a : Act} (h : s.step a = some s') : Moved s a s' := by
  cases a with
  | connect name =>
    simp only [step] at h
    split at h
    · cases h
      exact .kept _ _ trivial (.refl _) (.refl _) rfl
    · cases h
      refine .kept _ _ trivial ?_ (.refl _) rfl
      exact places_flight s (.checked name)
  | start i accepted =>
    simp only [step] at h
    split at h
    · rename_i name hf
      have hl : s.places.Perm (s.land i).places := places_land hf
      split at h
      · cases h
        refine .started _ _ ⟨s.next, name⟩ trivial rfl ?_ rfl rfl
        exact (places_flight (s.land i) (.opened ⟨s.next, name⟩)).trans (List.Perm.cons _ hl.symm)
      · cases h
        exact .kept _ _ trivial hl.symm (.refl _) rfl
    · cases h
  | add i =>
    simp only [step] at h
    split at h
    · rename_i x hf
      cases h
      have hl : s.places.Perm (x :: (s.land i).places) := places_land hf
      unfold register
      by_cases htaken : ((s.land i).table.get x.name).isSome
      · rw [if_pos htaken]
        refine .dropped i _ x hf (fun hroom => ?_) hl rfl rfl
        rw [show (s.land i).table = s.table from rfl, hroom.1] at htaken
        cases htaken
      · rw [if_neg htaken]
        have hnone : s.table.get x.name = none := Option.not_isSome_iff_eq_none.mp htaken
        by_cases hfull : (s.land i).table.size ≥ maxConnections
        · rw [if_pos hfull]
          exact .dropped i _ x hf (fun hroom => absurd hroom.2 (Nat.not_lt.mpr hfull)) hl rfl rfl
        · rw [if_neg hfull]
          refine .kept _ _ (fun y hy => ?_) ?_ (.refl _) rfl
          · rw [hf] at hy
            cases hy
            exact .inl ⟨hnone, Nat.not_le.mp hfull⟩
          · refine List.Perm.trans ?_ hl.symm
            simp only [places, land, Dict.values_set_new x hnone, List.append_assoc]
            exact List.perm_middle
    · cases h
  | disconnect name =>
    cases h
    exact .kept _ _ trivial (places_pop s name) (by rw [(pop_live s name).1]) (pop_live s name).2
  | list =>
    cases h
    refine .kept _ _ trivial ?_ (.refl _) rfl
    exact places_flight s (.sweeping s.table.entries)
  | test i =>
    simp only [step] at h
    split at h
    · rename_i name x rest hf
      cases h
      have hl : s.places.Perm (s.land i).places := places_land hf
      refine .kept _ _ trivial ((places_fly hf _).trans ?_) (.refl _) rfl
      split
      · exact hl.symm
      · exact hl.symm
    · rename_i hf
      cases h
      have hl : s.places.Perm (s.land i).places := places_land hf
      exact .kept _ _ trivial hl.symm (.refl _) rfl
    · cases h
  | remove i =>
    simp only [step] at h
    split at h
    · rename_i name tested rest hf
      have hl : s.places.Perm (s.land i).places := places_land hf
      split at h
      · cases h
        exact .kept _ _ trivial ((places_fly hf (.sweeping rest)).trans hl.symm) (.refl _) rfl
      · rename_i x hg
        cases h
        -- the popped session moves from the table to the call
        refine .kept _ _ trivial ?_ (.refl _) rfl
        have hg' : ({ s with table := s.table.erase name } : Pool).flights[i]? = some (.found name tested rest) := hf
        exact ((places_fly hg' (.swept x rest)).trans ((places_land hg').symm.cons x)).trans (places_erase hg).symm
    · cases h
  | stop i =>
    simp only [step] at h
    split at h
    · rename_i x hf
      cases h
      exact .stopped _ _ x trivial (places_land hf) rfl rfl
    · rename_i x rest hf
      cases h
      refine .stopped _ _ x trivial ?_ rfl rfl
      exact (places_land hf).trans ((places_fly hf (.sweeping rest)).symm.cons x)
    · cases h
  | die x =>
    simp only [step] at h
    split at h
    · cases h
      exact .kept _ _ trivial (.refl _) List.erase_sublist rfl
    · cases h

/-! ## The table -/

structure Listed (d : Dict String Entry) : Prop where
  named : ∀ n x, d.get n = some x → x.name = n
  limit : d.size ≤ maxConnections

theorem Listed.erase {d : Dict String Entry} (h : Listed d) (name : String) : Listed (d.erase name) := by
  refine ⟨fun n x hx => ?_, Nat.le_trans (Dict.size_erase_le _ _) h.limit⟩
  rw [Dict.get_erase] at hx
  split at hx
  · cases hx
  · exact h.named n x hx

theorem listed_pop {s : Pool} (h : Listed s.table) (name : String) : Listed (s.pop name).table := by
  unfold pop
  split
  · exact h
  · exact h.erase name

theorem listed_register {s : Pool} (h : Listed s.table) (x : Entry) : Listed (s.register x).table := by
  unfold register
  split
  · exact h
  · rename_i hfree
    split
    · exact h
    · rename_i hroom
      refine ⟨fun n y hy => ?_, ?_⟩
      · rw [Dict.get_set] at hy
        split at hy
        · rename_i hn
          cases hy
          exact hn.symm
        · exact h.named n y hy
      · have hk : x.name ∉ s.table.keys := by
          intro hk
          obtain ⟨y, hy⟩ := Dict.mem_keys.mp hk
          rw [hy] at hfree
          exact hfree rfl
        rw [Dict.size_set_new _ hk]
        omega

theorem listed_step {s s' : Pool} {a : Act} (h : Listed s.table) (hs : s.step a = some s') : Listed s'.table := by
  cases a with
  | connect name =>
    simp only [step] at hs
    split at hs <;> cases hs <;> exact h
  | start i accepted =>
    simp only [step] at hs
    split at hs
    · split at hs <;> cases hs <;> exact h
    · cases hs
  | add i =>
    simp only [step] at hs
    split at hs
    · cases hs
      exact listed_register (s := s.land i) h _
    · cases hs
  | disconnect name =>
    cases hs
    exact listed_pop h name
  | list =>
    cases hs
    exact h
  | test i =>
    simp only [step] at hs
    split at hs <;> cases hs <;> exact h
  | remove i =>
    simp only [step] at hs
    split at hs
    · split at hs
      · cases hs
        exact h
      · cases hs
        exact h.erase _
    · cases hs
  | stop i =>
    simp only [step] at hs
    split at hs <;> cases hs <;> exact h
  | die x =>
    simp only [step] at hs
    split at hs
    · cases hs
      exact h
    · cases hs

/-! ## The invariant -/

structure Sound (s : Pool) : Prop where
  places : s.places.Nodup
  live : s.live.Nodup
  fresh : ∀ x ∈ s.live ++ s.places, x.id < s.next
  table : Listed s.table

theorem sound_empty : Sound empty where
  places := List.nodup_nil
  live := List.nodup_nil
  fresh := fun x hx => by cases hx
  table := ⟨fun n x hx => (by cases hx), Nat.zero_le _⟩

theorem sound_step {s s' : Pool} {a : Act} (h : Sound s) (hs : s.step a = some s') : Sound s' := by
  have htable := listed_step h.table hs
  cases step_moved hs with
  | kept _ _ _ hp hl hn =>
    refine ⟨hp.nodup_iff.mpr h.places, hl.nodup h.live, fun x hx => ?_, htable⟩
    rw [hn]
    apply h.fresh x
    rcases List.mem_append.mp hx with hx | hx
    · exact List.mem_append_left _ (hl.subset hx)
    · exact List.mem_append_right _ (hp.mem_iff.mp hx)
  | started _ _ x _ hid hp hl hn =>
    have hnew : ∀ y ∈ s.live ++ s.places, y ≠ x := by
      intro y hy he
      have := h.fresh y hy
      rw [he, hid] at this
      omega
    refine ⟨hp.nodup_iff.mpr (List.nodup_cons.mpr ⟨fun hx => hnew x (List.mem_append_right _ hx) rfl, h.places⟩),
      ?_, fun y hy => ?_, htable⟩
    · rw [hl]
      exact List.nodup_append.mpr ⟨h.live, List.nodup_singleton _, fun y hy z hz => by
        rw [List.mem_singleton.mp hz]
        exact hnew y (List.mem_append_left _ hy)⟩
    · rw [hn]
      have hy' : y ∈ s.live ++ s.places ∨ y = x := by
        rcases List.mem_append.mp hy with hy | hy
        · rw [hl] at hy
          rcases List.mem_append.mp hy with hy | hy
          · exact .inl (List.mem_append_left _ hy)
          · exact .inr (List.mem_singleton.mp hy)
        · rcases List.mem_cons.mp (hp.mem_iff.mp hy) with hy | hy
          · exact .inr hy
          · exact .inl (List.mem_append_right _ hy)
      rcases hy' with hy | rfl
      · exact Nat.lt_succ_of_lt (h.fresh y hy)
      · rw [hid]
        exact Nat.lt_succ_self _
  | stopped _ _ x _ hp hl hn =>
    refine ⟨(List.nodup_cons.mp (hp.nodup_iff.mp h.places)).2, by rw [hl]; exact h.live.erase x, fun y hy => ?_, htable⟩
    rw [hn]
    apply h.fresh y
    rcases List.mem_append.mp hy with hy | hy
    · rw [hl] at hy
      exact List.mem_append_left _ (List.mem_of_mem_erase hy)
    · exact List.mem_append_right _ (hp.mem_iff.mpr (List.mem_cons_of_mem _ hy))
  | dropped _ _ x _ _ hp hl hn =>
    refine ⟨(List.nodup_cons.mp (hp.nodup_iff.mp h.places)).2, by rw [hl]; exact h.live, fun y hy => ?_, htable⟩
    rw [hn]
    apply h.fresh y
    rcases List.mem_append.mp hy with hy | hy
    · rw [hl] at hy
      exact List.mem_append_left _ hy
    · exact List.mem_append_right _ (hp.mem_iff.mpr (List.mem_cons_of_mem _ hy))

/-- With the table sound, it is enough that someone knows each live session. -/
theorem contained_iff_known {s : Pool} (h : Sound s) : Contained s ↔ ∀ x ∈ s.live, x ∈ s.places := by
  constructor
  · intro hc x hx
    exact mem_places.mpr (hc.live x hx)
  · intro hk
    have htable : ∀ x ∈ s.settled, x ∈ s.table.values := by
      intro x hx
      obtain ⟨hx, hno⟩ := List.mem_filter.mp hx
      rcases mem_places.mp (hk x hx) with hx | ⟨f, hf, he⟩
      · exact hx
      · have hne := List.all_eq_true.mp hno f hf
        rw [he] at hne
        exact absurd rfl (of_decide_eq_true hne)
    have hnodup : s.settled.Nodup := h.live.filter _
    refine ⟨fun x hx => mem_places.mp (hk x hx), ?_, ?_⟩
    · refine hnodup.map_on fun x hx y hy he => ?_
      obtain ⟨n, hn⟩ := Dict.mem_values.mp (htable x hx)
      obtain ⟨m, hm⟩ := Dict.mem_values.mp (htable y hy)
      rw [h.table.named n x hn, h.table.named m y hm] at he
      rw [he, hm] at hn
      exact (Option.some.inj hn).symm
    · have hlen := (List.subperm_of_subset hnodup htable).length_le
      have hsize : s.table.values.length = s.table.size := List.length_map _
      exact Nat.le_trans (hsize ▸ hlen) h.table.limit

theorem contained_step {s s' : Pool} {a : Act} (h : Sound s) (hc : Contained s) (hs : s.step a = some s') :
    Contained s' ↔ s.findsPlace a := by
  rw [contained_iff_known (sound_step h hs)]
  have hk := (contained_iff_known h).mp hc
  cases step_moved hs with
  | kept _ _ hok hp hl _ =>
    exact iff_of_true (fun x hx => hp.mem_iff.mpr (hk x (hl.subset hx))) hok
  | started _ _ x hok _ hp hl _ =>
    refine iff_of_true (fun y hy => hp.mem_iff.mpr ?_) hok
    rw [hl] at hy
    rcases List.mem_append.mp hy with hy | hy
    · exact List.mem_cons_of_mem _ (hk y hy)
    · rw [List.mem_singleton.mp hy]
      exact List.mem_cons_self
  | stopped _ _ x hok hp hl _ =>
    refine iff_of_true (fun y hy => ?_) hok
    rw [hl, h.live.mem_erase_iff] at hy
    rcases List.mem_cons.mp (hp.mem_iff.mp (hk y hy.2)) with he | hy'
    · exact absurd he hy.1
    · exact hy'
  | dropped i _ x hf hroom hp hl _ =>
    constructor
    · intro hk' y hy
      rw [hf] at hy
      cases hy
      refine .inr fun hx => ?_
      exact (List.nodup_cons.mp (hp.nodup_iff.mp h.places)).1 (hk' x (by rw [hl]; exact hx))
    · intro hok y hy
      rw [hl] at hy
      rcases hok x hf with hr | hx
      · exact absurd hr hroom
      · rcases List.mem_cons.mp (hp.mem_iff.mp (hk y hy)) with he | hy'
        · rw [he] at hy
          exact absurd hy hx
        · exact hy'

/-- In every run of the pool, with any number of calls in flight. -/
theorem contained_iff (as : List Act) (s : Pool) (h : run step empty as = some s) :
    Along step Contained empty as ↔ Obeys step findsPlace empty as :=
  along_iff_obeys (fun _ _ _ hs hstep => sound_step hs hstep) (fun _ _ _ hs hc hstep => contained_step hs hc hstep)
    sound_empty ((contained_iff_known sound_empty).mpr fun x hx => by cases hx) h

def connectTo (name : String) : List Act := [.connect name, .start 0 true, .add 0]

/-- The same name twice: the second session runs, and no one knows it. -/
theorem a_second_connect_leaves_a_session :
    ¬ ∀ as s, run step empty as = some s → Along step Contained empty as := by
  intro hall
  have hrun : (run step empty (connectTo "PU_1" ++ connectTo "PU_1")).map (fun s => s.settled.map Entry.name) =
      some ["PU_1", "PU_1"] := by decide
  obtain ⟨s, hs, he⟩ := Option.map_eq_some_iff.mp hrun
  have hnames := ((hall _ s hs).last hs).names
  rw [he] at hnames
  exact absurd hnames (by decide)

theorem contained_iff_reconnect : Along step Contained empty (connectTo "PU_1" ++ [.disconnect "PU_1", .stop 0]) ↔
    Obeys step findsPlace empty (connectTo "PU_1" ++ [.disconnect "PU_1", .stop 0]) := by
  have hrun : (run step empty (connectTo "PU_1" ++ [.disconnect "PU_1", .stop 0])).isSome = true := by decide
  obtain ⟨s, hs⟩ := Option.isSome_iff_exists.mp hrun
  exact contained_iff _ s hs

end Pool

end Drv60870.Client
