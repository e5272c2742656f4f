/-
  Drv60870.Storage.History — sequential histories of the signal storage.

  An operation adds a signal, subscribes or unsubscribes a client, or updates a signal, and the
  next begins when it has returned. Over rational values: the deadband compares with the last
  stored value, a change of quality overrides it, and signals of type 45 and above are stored
  and not published.

  Proved, over arbitrary histories:
  - A signal stores what was last offered or something within its threshold, and a queue mirrors
    the updates that returned True since it was subscribed (`mirrored`).
  - On the way: what an update does (`updateVal_cases`), what a queue gets while its client
    stays subscribed (`queues_run`), and that only published signals are told of
    (`told_cases`).
-/

import Mathlib.Algebra.Order.Ring.Rat
import Mathlib.Data.List.Induction
import Drv60870.Storage.Signals

namespace Drv60870.Storage.History

open Lib Lib.Calendar Lib.Python

instance : Deadband ℚ ℚ where
  zero := 0
  ne v w := v ≠ w
  reaches v w t := .ok (t ≤ |v - w|)

variable {C Q V T : Type}

/-! ## Histories -/

inductive Op (C Q V T : Type) where
  | addSignal (now : Datetime) (id ioa asdu : Int) (threshold : Option T)
  | subscribe (client : C) (queue : Q)
  | unsubscribe (client : C)
  | update (now : Datetime) (u : Update V)

structure World (C Q V T : Type) where
  storage : DataStorage C Q V T
  queues : Q → List (Event V)

/-- `for sub in targets: sub.put_nowait(event)` -/
def putAll [DecidableEq Q] (queues : Q → List (Event V)) (event : Event V) (targets : List Q) :
    Q → List (Event V) :=
  targets.foldl (fun queues q => putNowait queues q event) queues

namespace World

variable [DecidableEq C] [DecidableEq Q] [Deadband V T]

def updateVal (w : World C Q V T) (now : Datetime) (u : Update V) : Except PyErr Bool × World C Q V T :=
  match w.storage.commit now u with
  | .error e => (.error e, w)
  | .ok c =>
    let queues := match c.event with
      | some event => putAll w.queues event c.storage.subs.values
      | none => w.queues
    (.ok c.updated, ⟨c.storage, queues⟩)

def step (w : World C Q V T) : Op C Q V T → World C Q V T
  | .addSignal now id ioa asdu threshold => { w with storage := (w.storage.addSignal now id ioa asdu threshold).2 }
  | .subscribe client queue => { w with storage := w.storage.subscribe client queue }
  | .unsubscribe client => { w with storage := w.storage.unsubscribe client }
  | .update now u => (w.updateVal now u).2

def run (w : World C Q V T) (ops : List (Op C Q V T)) : World C Q V T := ops.foldl step w

end World

/-! ## Signals and queues of a history -/

def ids (ops : List (Op C Q V T)) : List Int :=
  ops.filterMap fun
    | .addSignal _ id _ _ _ => some id
    | _ => none

def ioas (ops : List (Op C Q V T)) : List Int :=
  ops.filterMap fun
    | .addSignal _ _ ioa _ _ => some ioa
    | _ => none

structure Distinct (ops : List (Op C Q V T)) : Prop where
  ids : (ids ops).Nodup
  ioas : (ioas ops).Nodup

def Separate (ops : List (Op C Q V T)) : Prop :=
  ∀ c c' q, .subscribe c q ∈ ops → .subscribe c' q ∈ ops → c = c'

theorem mem_ids {ops : List (Op C Q V T)} {t : Datetime} {id ioa asdu : Int} {threshold : Option T}
    (h : .addSignal t id ioa asdu threshold ∈ ops) : id ∈ ids ops ∧ ioa ∈ ioas ops :=
  ⟨List.mem_filterMap.mpr ⟨_, h, rfl⟩, List.mem_filterMap.mpr ⟨_, h, rfl⟩⟩

theorem Distinct.prefix {ops ops' : List (Op C Q V T)} (h : Distinct (ops ++ ops')) : Distinct ops := by
  have hids := h.ids
  have hioas := h.ioas
  rw [History.ids, List.filterMap_append] at hids
  rw [History.ioas, List.filterMap_append] at hioas
  exact ⟨(List.nodup_append.mp hids).1, (List.nodup_append.mp hioas).1⟩

theorem Distinct.fresh {ops : List (Op C Q V T)} {t : Datetime} {id ioa asdu : Int} {threshold : Option T}
    (h : Distinct (ops ++ [.addSignal t id ioa asdu threshold])) : id ∉ History.ids ops ∧ ioa ∉ History.ioas ops := by
  have hids := h.ids
  have hioas := h.ioas
  rw [History.ids, List.filterMap_append] at hids
  rw [History.ioas, List.filterMap_append] at hioas
  refine ⟨fun hm => ?_, fun hm => ?_⟩
  · exact (List.nodup_append.mp hids).2.2 id hm id List.mem_cons_self rfl
  · exact (List.nodup_append.mp hioas).2.2 ioa hm ioa List.mem_cons_self rfl

section Histories

variable [DecidableEq C] [DecidableEq Q] [Deadband V T]

def after (ops : List (Op C Q V T)) : World C Q V T := World.run ⟨.empty, fun _ => []⟩ ops

/-! ## What a history owes -/

def Names (u : Update V) (id ioa : Int) : Prop := u.id = some id ∧ u.ioa = none ∨ u.id = none ∧ u.ioa = some ioa

/-- The values a threshold does not tell apart. -/
def Within : Option ℚ → ℚ → ℚ → Prop
  | some t, v, w => |v - w| < t
  | none, v, w => v = w

/-- An update of an added signal after this history: its quality is stored, and its value too
    unless it returned False for a value within the threshold and a quality unchanged. -/
def Kept (ops : List (Op C Q ℚ ℚ)) (now : Datetime) (u : Update ℚ) : Prop :=
  ∀ t id ioa asdu threshold, .addSignal t id ioa asdu threshold ∈ ops → Names u id ioa →
    ∃ sg sg' updated, (after ops).storage.signals.get id = some sg ∧
      ((after ops).updateVal now u).1 = .ok updated ∧
      (after (ops ++ [.update now u])).storage.signals.get id = some sg' ∧ sg'.q = u.q ∧ sg'.iv = u.iv ∧
      (sg'.val = u.val ∨ updated = false ∧ u.q = sg.q ∧ u.iv = sg.iv ∧ Within threshold u.val sg'.val)

def told (w : World C Q V T) : Op C Q V T → List (Event V)
  | .update now u =>
    match w.storage.find u, (w.updateVal now u).1 with
    | some (id, sg), .ok true =>
      if sg.asdu < 45 then [⟨id, sg.ioa, sg.asdu, u.val, u.ts.getD now, u.q, u.iv, 3⟩] else []
    | _, _ => []
  | _ => []

def toldAll : World C Q V T → List (Op C Q V T) → List (Event V)
  | _, [] => []
  | w, op :: ops => told w op ++ toldAll (w.step op) ops

def Lasts (c : C) (ops : List (Op C Q V T)) : Prop := ∀ op ∈ ops, op ≠ .unsubscribe c ∧ ∀ q, op ≠ .subscribe c q

structure Mirrored (ops : List (Op C Q ℚ ℚ)) : Prop where
  kept : ∀ pre now u post, ops = pre ++ .update now u :: post → Kept pre now u
  /-- Since its subscription a queue got the event of every update that returned True, in
      order, and nothing else; the last one of a signal is what is stored. -/
  got : ∀ pre c q post, ops = pre ++ .subscribe c q :: post → Lasts c post →
    let since := toldAll (after (pre ++ [.subscribe c q])) post
    (after ops).queues q = (after pre).queues q ++ since ∧
      ∀ id event, lastOf id since = some event →
        ∃ sg, (after ops).storage.signals.get id = some sg ∧ event = sg.event 3
  published : ∀ q, ∀ event ∈ (after ops).queues q, event.asdu < 45

/-! ## The storage follows the history -/

theorem after_snoc (ops : List (Op C Q V T)) (op : Op C Q V T) : after (ops ++ [op]) = (after ops).step op := by
  rw [after, World.run, List.foldl_append]
  rfl

theorem run_append (w : World C Q V T) (ops ops' : List (Op C Q V T)) : w.run (ops ++ ops') = (w.run ops).run ops' :=
  List.foldl_append

omit [DecidableEq C] in
/-- What an update does: nothing, or its signal is written and its event put to every subscriber. -/
theorem updateVal_cases (w : World C Q V T) (now : Datetime) (u : Update V) :
    (∃ r, w.updateVal now u = (r, w) ∧ r ≠ .ok true) ∨
      ∃ id sg, w.storage.find u = some (id, sg) ∧
        w.updateVal now u = (.ok true, ⟨w.storage.write now u id sg,
          match DataStorage.announce now u id sg with
          | some event => putAll w.queues event w.storage.subs.values
          | none => w.queues⟩) := by
  unfold World.updateVal
  cases hc : w.storage.commit now u with
  | error e => exact .inl ⟨.error e, rfl, fun h => (by cases h)⟩
  | ok c =>
    rcases DataStorage.commit_ok hc with ⟨rfl, -⟩ | ⟨id, sg, hf, -, rfl⟩
    · exact .inl ⟨.ok false, rfl, fun h => (by cases h)⟩
    · exact .inr ⟨id, sg, hf, rfl⟩

/-- The storage holds the signals that were added, under their ids and addresses, and only
    queues that were subscribed. -/
structure Follows (ops : List (Op C Q V T)) (s : DataStorage C Q V T) : Prop where
  keyed : s.Keyed
  ids : ∀ id sg, s.signals.get id = some sg → id ∈ ids ops
  ioas : ∀ ioa id, s.ioaIdx.get ioa = some id → ioa ∈ ioas ops
  added : ∀ t id ioa asdu threshold, .addSignal t id ioa asdu threshold ∈ ops →
    ∃ sg, s.signals.get id = some sg ∧ sg.threshold = threshold ∧ s.ioaIdx.get ioa = some id
  subs : ∀ c q, s.subs.get c = some q → .subscribe c q ∈ ops

omit [DecidableEq Q] in
theorem Follows.addSignal {ops : List (Op C Q V T)} {s : DataStorage C Q V T} (h : Follows ops s) (t : Datetime)
    (id ioa asdu : Int) (threshold : Option T) (hd : Distinct (ops ++ [.addSignal t id ioa asdu threshold])) :
    Follows (ops ++ [.addSignal t id ioa asdu threshold]) (s.addSignal t id ioa asdu threshold).2 := by
  have hfree : s.ioaIdx.get ioa = none := by
    cases hi : s.ioaIdx.get ioa with
    | none => rfl
    | some id' => exact absurd (h.ioas ioa id' hi) hd.fresh.2
  have hadd : (s.addSignal t id ioa asdu threshold).2 =
      { s with
        signals := s.signals.set id { id, ioa, asdu, threshold, val := Deadband.zero, ts := t }
        ioaIdx := s.ioaIdx.set ioa id } := by
    unfold DataStorage.addSignal
    simp [hfree]
  have hself : Op.addSignal t id ioa asdu threshold ∈ ops ++ [Op.addSignal (C := C) (Q := Q) (V := V) t id ioa asdu
    threshold] := List.mem_append_right _ List.mem_cons_self
  refine ⟨DataStorage.keyed_addSignal t id ioa asdu threshold h.keyed, ?_, ?_, ?_, ?_⟩
  all_goals rw [hadd]
  · intro id' sg hg
    rw [Dict.get_set] at hg
    by_cases he : id' = id
    · rw [he]
      exact (mem_ids hself).1
    · rw [if_neg he] at hg
      rw [History.ids, List.filterMap_append]
      exact List.mem_append_left _ (h.ids id' sg hg)
  · intro ioa' id' hi
    rw [Dict.get_set] at hi
    by_cases he : ioa' = ioa
    · rw [he]
      exact (mem_ids hself).2
    · rw [if_neg he] at hi
      rw [History.ioas, List.filterMap_append]
      exact List.mem_append_left _ (h.ioas ioa' id' hi)
  · intro t' id' ioa' asdu' threshold' hm
    rcases List.mem_append.mp hm with hm | hm
    · obtain ⟨sg, hg, hth, hi⟩ := h.added t' id' ioa' asdu' threshold' hm
      have hid : id' ≠ id := by
        intro he
        rw [he] at hm
        exact hd.fresh.1 (mem_ids hm).1
      have hioa : ioa' ≠ ioa := by
        intro he
        rw [he] at hm
        exact hd.fresh.2 (mem_ids hm).2
      exact ⟨sg, by rw [Dict.get_set_ne _ _ hid, hg], hth, by rw [Dict.get_set_ne _ _ hioa, hi]⟩
    · cases List.mem_singleton.mp hm
      exact ⟨_, Dict.get_set_self .., rfl, Dict.get_set_self ..⟩
  · intro c q hs
    exact List.mem_append_left _ (h.subs c q hs)

omit [DecidableEq Q] [Deadband V T] in
theorem Follows.stay {ops : List (Op C Q V T)} {s : DataStorage C Q V T} (h : Follows ops s) (op : Op C Q V T)
    (hop : ∀ t id ioa asdu threshold, op ≠ .addSignal t id ioa asdu threshold) : Follows (ops ++ [op]) s := by
  refine ⟨h.keyed, ?_, ?_, ?_, fun c q hs => List.mem_append_left _ (h.subs c q hs)⟩
  · intro id sg hg
    rw [History.ids, List.filterMap_append]
    exact List.mem_append_left _ (h.ids id sg hg)
  · intro ioa id hi
    rw [History.ioas, List.filterMap_append]
    exact List.mem_append_left _ (h.ioas ioa id hi)
  · intro t id ioa asdu threshold hm
    rcases List.mem_append.mp hm with hm | hm
    · exact h.added t id ioa asdu threshold hm
    · exact absurd (List.mem_singleton.mp hm).symm (hop t id ioa asdu threshold)

omit [DecidableEq Q] [Deadband V T] in
theorem Follows.write {ops : List (Op C Q V T)} {s : DataStorage C Q V T} (h : Follows ops s) (now : Datetime)
    (u : Update V) {id : Int} {sg : SignalConf V T} (hg : s.signals.get id = some sg) :
    Follows ops (s.write now u id sg) := by
  refine ⟨DataStorage.keyed_write now u h.keyed hg, ?_, h.ioas, ?_, h.subs⟩
  · intro id' sg' hg'
    simp only [DataStorage.write, Dict.get_set] at hg'
    by_cases he : id' = id
    · rw [he]
      exact h.ids id sg hg
    · rw [if_neg he] at hg'
      exact h.ids id' sg' hg'
  · intro t id' ioa asdu threshold hm
    obtain ⟨sg', hg', hth, hi⟩ := h.added t id' ioa asdu threshold hm
    simp only [DataStorage.write, Dict.get_set]
    by_cases he : id' = id
    · rw [he, hg] at hg'
      cases hg'
      exact ⟨sg.written now u, if_pos he, hth, hi⟩
    · exact ⟨sg', by rw [if_neg he, hg'], hth, hi⟩

theorem follows_step {ops : List (Op C Q V T)} {w : World C Q V T} (h : Follows ops w.storage) (op : Op C Q V T)
    (hd : Distinct (ops ++ [op])) : Follows (ops ++ [op]) (w.step op).storage := by
  cases op with
  | addSignal t id ioa asdu threshold => exact h.addSignal t id ioa asdu threshold hd
  | subscribe c q =>
    have hs := h.stay (.subscribe c q) fun _ _ _ _ _ he => by cases he
    refine ⟨hs.keyed, hs.ids, hs.ioas, hs.added, fun c' q' hg => ?_⟩
    simp only [World.step, DataStorage.subscribe, Dict.get_set] at hg
    by_cases he : c' = c
    · rw [if_pos he] at hg
      cases hg
      rw [he]
      exact List.mem_append_right _ List.mem_cons_self
    · rw [if_neg he] at hg
      exact hs.subs c' q' hg
  | unsubscribe c =>
    have hs := h.stay (.unsubscribe c) fun _ _ _ _ _ he => by cases he
    refine ⟨hs.keyed, hs.ids, hs.ioas, hs.added, fun c' q' hg => ?_⟩
    simp only [World.step, DataStorage.unsubscribe, Dict.get_erase] at hg
    by_cases he : c' = c
    · rw [if_pos he] at hg
      cases hg
    · rw [if_neg he] at hg
      exact hs.subs c' q' hg
  | update now u =>
    have hs := h.stay (.update now u) fun _ _ _ _ _ he => by cases he
    simp only [World.step]
    rcases updateVal_cases w now u with ⟨r, hr, -⟩ | ⟨id, sg, hf, hr⟩
    · rw [hr]
      exact hs
    · rw [hr]
      exact hs.write now u (DataStorage.find_get hf)

theorem follows {ops : List (Op C Q V T)} (hd : Distinct ops) : Follows ops (after ops).storage := by
  induction ops using List.reverseRecOn with
  | nil =>
    refine ⟨DataStorage.keyed_empty, ?_, ?_, ?_, ?_⟩
    · intro id sg hg
      cases hg
    · intro ioa id hi
      cases hi
    · intro t id ioa asdu threshold hm
      cases hm
    · intro c q hs
      cases hs
  | append_singleton ops op ih =>
    rw [after_snoc]
    exact follows_step (ih hd.prefix) op hd

/-! ## Values and qualities -/

section Rational

theorem valChange_rat (sg : SignalConf ℚ ℚ) (v : ℚ) :
    ∃ b, sg.valChange v = .ok b ∧ (b = false → Within sg.threshold v sg.val) := by
  unfold SignalConf.valChange
  cases sg.threshold with
  | none => exact ⟨_, rfl, fun h => by simpa [Deadband.ne, Within] using h⟩
  | some t => exact ⟨_, rfl, fun h => by simpa [Within] using h⟩

variable {C Q : Type} [DecidableEq C] [DecidableEq Q]

theorem kept {ops : List (Op C Q ℚ ℚ)} (hd : Distinct ops) (now : Datetime) (u : Update ℚ) : Kept ops now u := by
  intro t id ioa asdu threshold hm hn
  obtain ⟨sg, hg, rfl, hi⟩ := (follows hd).added t id ioa asdu threshold hm
  have hu : u.id.isSome ≠ u.ioa.isSome := by
    rcases hn with ⟨h1, h2⟩ | ⟨h1, h2⟩
    · simp [h1, h2]
    · simp [h1, h2]
  have hf : (after ops).storage.find u = some (id, sg) := by
    rcases hn with ⟨h1, h2⟩ | ⟨h1, h2⟩
    · simp [DataStorage.find, DataStorage.resolve, h1, h2, hg]
    · simp [DataStorage.find, DataStorage.resolve, h2, hi, hg]
  rw [after_snoc]
  simp only [World.step]
  obtain ⟨b, hv, hwithin⟩ := valChange_rat sg u.val
  by_cases ht : sg.takes u = true
  · have hr := DataStorage.commit_takes now hu hf ht
    refine ⟨sg, sg.written now u, true, hg, by rw [World.updateVal, hr], ?_, rfl, rfl, .inl rfl⟩
    rw [World.updateVal, hr]
    exact Dict.get_set_self ..
  · have hno : b = false ∧ sg.qChange u.q u.iv = false := by simpa [SignalConf.takes, hv] using ht
    rw [hno.1] at hv
    have hr := DataStorage.commit_keeps now hu hf hv hno.2
    have hq : u.q = sg.q ∧ u.iv = sg.iv := by simpa [SignalConf.qChange] using hno.2
    refine ⟨sg, sg, false, hg, by rw [World.updateVal, hr], ?_, hq.1.symm, hq.2.symm,
      .inr ⟨rfl, hq.1, hq.2, hwithin hno.1⟩⟩
    rw [World.updateVal, hr]
    exact hg

end Rational

/-! ## Queues -/

omit [DecidableEq C] [Deadband V T] in
theorem putAll_apply (queues : Q → List (Event V)) (event : Event V) (targets : List Q) (q : Q) :
    putAll queues event targets q = queues q ++ List.replicate (targets.count q) event := by
  induction targets generalizing queues with
  | nil => simp [putAll]
  | cons t targets ih =>
    have hcons : putAll queues event (t :: targets) = putAll (putNowait queues t event) event targets := rfl
    rw [hcons, ih]
    by_cases h : t = q
    · rw [h, List.count_cons_self, putNowait, if_pos rfl, List.append_assoc, List.replicate_succ]
      rfl
    · rw [List.count_cons_of_ne h, putNowait, if_neg fun he => h he.symm]

/-- A queue that is subscribed once gets what an update tells. -/
theorem queues_update (w : World C Q V T) (now : Datetime) (u : Update V) {q : Q}
    (h : w.storage.subs.values.count q = 1) :
    (w.step (.update now u)).queues q = w.queues q ++ told w (.update now u) := by
  simp only [World.step, told]
  rcases updateVal_cases w now u with ⟨r, hr, hne⟩ | ⟨id, sg, hf, hr⟩
  · rw [hr]
    split
    · rename_i ht
      exact absurd ht hne
    · rw [List.append_nil]
  · rw [hr, hf]
    dsimp only
    by_cases ha : sg.asdu < 45
    · rw [if_pos ha, DataStorage.announce, if_neg (by omega)]
      dsimp only
      rw [putAll_apply, h]
      rfl
    · rw [if_neg ha, DataStorage.announce, if_pos (by omega), List.append_nil]

/-- What a client's queue gets while it stays subscribed. -/
theorem queues_run {w : World C Q V T} {c : C} {q : Q} {ops : List (Op C Q V T)} (hs : w.storage.subs.get c = some q)
    (ho : ∀ c', w.storage.subs.get c' = some q → c' = c) (hl : Lasts c ops)
    (hq : ∀ c', .subscribe c' q ∈ ops → c' = c) : (w.run ops).queues q = w.queues q ++ toldAll w ops := by
  induction ops generalizing w with
  | nil => exact (List.append_nil _).symm
  | cons op ops ih =>
    have hl' : Lasts c ops := fun op' h => hl op' (List.mem_cons_of_mem _ h)
    have hq' : ∀ c', Op.subscribe c' q ∈ ops → c' = c := fun c' h => hq c' (List.mem_cons_of_mem _ h)
    have hop := hl op List.mem_cons_self
    have hrun : w.run (op :: ops) = (w.step op).run ops := rfl
    rw [hrun, toldAll]
    cases op with
    | addSignal t id ioa asdu threshold =>
      have hsubs : (w.step (.addSignal t id ioa asdu threshold)).storage.subs = w.storage.subs :=
        DataStorage.addSignal_subs ..
      exact ih (by rw [hsubs]; exact hs) (by rw [hsubs]; exact ho) hl' hq'
    | subscribe c' q' =>
      have hc : c' ≠ c := by
        intro he
        rw [he] at hop
        exact hop.2 q' rfl
      refine ih ?_ ?_ hl' hq'
      · show (w.storage.subs.set c' q').get c = some q
        rw [Dict.get_set_ne _ _ fun he => hc he.symm, hs]
      · intro c'' hg
        simp only [World.step, DataStorage.subscribe, Dict.get_set] at hg
        by_cases he : c'' = c'
        · rw [if_pos he] at hg
          cases hg
          exact absurd (hq c' List.mem_cons_self) hc
        · rw [if_neg he] at hg
          exact ho c'' hg
    | unsubscribe c' =>
      have hc : c' ≠ c := by
        intro he
        rw [he] at hop
        exact hop.1 rfl
      refine ih ?_ ?_ hl' hq'
      · show (w.storage.subs.erase c').get c = some q
        rw [Dict.get_erase, if_neg fun he => hc he.symm, hs]
      · intro c'' hg
        simp only [World.step, DataStorage.unsubscribe, Dict.get_erase] at hg
        split at hg
        · cases hg
        · exact ho c'' hg
    | update now u =>
      have hsubs : (w.step (.update now u)).storage.subs = w.storage.subs := by
        simp only [World.step]
        rcases updateVal_cases w now u with ⟨r, hr, -⟩ | ⟨id, sg, -, hr⟩
        · rw [hr]
        · rw [hr]
          rfl
      rw [ih (by rw [hsubs]; exact hs) (by rw [hsubs]; exact ho) hl' hq',
        queues_update w now u (Dict.count_values hs ho), List.append_assoc]

/-! ## The last event of a signal -/

/-- What an operation tells is of one published signal, as it is stored then; one that tells
    nothing leaves the published signals as they are. -/
theorem told_cases (w : World C Q V T) (op : Op C Q V T) (hk : w.storage.Keyed) :
    (∃ sg, told w op = [sg.event 3] ∧ sg.asdu < 45 ∧
        (w.step op).storage.signals = w.storage.signals.set sg.id sg) ∨
      told w op = [] ∧ ∀ id sg, w.storage.signals.get id = some sg → sg.asdu < 45 →
        (∀ t ioa asdu threshold, op ≠ .addSignal t id ioa asdu threshold) →
          (w.step op).storage.signals.get id = some sg := by
  cases op with
  | addSignal t id ioa asdu threshold =>
    refine .inr ⟨rfl, fun id' sg hg _ hne => ?_⟩
    have hid : id' ≠ id := by
      intro he
      rw [he] at hne
      exact hne t ioa asdu threshold rfl
    simp only [World.step, DataStorage.addSignal_signals]
    rw [Dict.get_set_ne _ _ hid, hg]
  | subscribe c q => exact .inr ⟨rfl, fun _ _ hg _ _ => hg⟩
  | unsubscribe c => exact .inr ⟨rfl, fun _ _ hg _ _ => hg⟩
  | update now u =>
    simp only [told, World.step]
    rcases updateVal_cases w now u with ⟨r, hr, hne⟩ | ⟨id, sg, hf, hr⟩
    · rw [hr]
      refine .inr ⟨?_, fun _ _ hg _ _ => hg⟩
      split
      · rename_i ht
        exact absurd ht hne
      · rfl
    · rw [hr, hf]
      have hg := DataStorage.find_get hf
      have hid := hk id sg hg
      by_cases ha : sg.asdu < 45
      · refine .inl ⟨sg.written now u, ?_, ha, ?_⟩
        · dsimp only
          rw [if_pos ha, ← hid]
          rfl
        · show w.storage.signals.set id (sg.written now u) = w.storage.signals.set sg.id (sg.written now u)
          rw [hid]
      · refine .inr ⟨if_neg ha, fun id' sg' hg' ha' _ => ?_⟩
        have hne : id' ≠ id := by
          intro he
          rw [he, hg] at hg'
          cases hg'
          exact ha ha'
        show (w.storage.signals.set id (sg.written now u)).get id' = some sg'
        rw [Dict.get_set_ne _ _ hne, hg']

theorem toldAll_snoc (w : World C Q V T) (ops : List (Op C Q V T)) (op : Op C Q V T) :
    toldAll w (ops ++ [op]) = toldAll w ops ++ told (w.run ops) op := by
  induction ops generalizing w with
  | nil => simp [toldAll, World.run]
  | cons o ops ih =>
    rw [List.cons_append, toldAll, toldAll, ih, List.append_assoc]
    rfl

theorem last_told {ops post : List (Op C Q V T)} (hd : Distinct (ops ++ post)) {id : Int} {event : Event V}
    (h : lastOf id (toldAll (after ops) post) = some event) :
    ∃ sg, (after (ops ++ post)).storage.signals.get id = some sg ∧ sg.asdu < 45 ∧ event = sg.event 3 := by
  induction post using List.reverseRecOn with
  | nil => cases h
  | append_singleton post op ih =>
    rw [← List.append_assoc] at hd ⊢
    have hfollows := follows hd.prefix
    have hrun : (after ops).run post = after (ops ++ post) := (run_append ..).symm
    rw [toldAll_snoc, hrun] at h
    rw [after_snoc]
    rcases told_cases (after (ops ++ post)) op hfollows.keyed with ⟨sg, ht, ha, hset⟩ | ⟨ht, hstay⟩
    · rw [ht, lastOf_snoc] at h
      by_cases hid : (sg.event 3).id = id
      · rw [if_pos hid] at h
        cases h
        have hid' : sg.id = id := hid
        exact ⟨sg, by rw [hset, ← hid', Dict.get_set_self], ha, rfl⟩
      · rw [if_neg hid] at h
        obtain ⟨sg', hg, hrest⟩ := ih hd.prefix h
        have hne : id ≠ sg.id := fun he => hid he.symm
        exact ⟨sg', by rw [hset, Dict.get_set_ne _ _ hne, hg], hrest⟩
    · rw [ht, List.append_nil] at h
      obtain ⟨sg, hg, ha, he⟩ := ih hd.prefix h
      refine ⟨sg, hstay id sg hg ha fun t ioa asdu threshold hop => ?_, ha, he⟩
      rw [hop] at hd
      exact hd.fresh.1 (hfollows.ids id sg hg)

theorem published_run (ops : List (Op C Q V T)) (q : Q) : ∀ event ∈ (after ops).queues q, event.asdu < 45 := by
  induction ops using List.reverseRecOn with
  | nil =>
    intro event hm
    cases hm
  | append_singleton ops op ih =>
    rw [after_snoc]
    cases op with
    | update now u =>
      simp only [World.step]
      rcases updateVal_cases (after ops) now u with ⟨r, hr, -⟩ | ⟨id, sg, -, hr⟩
      · rw [hr]
        exact ih
      · rw [hr, DataStorage.announce]
        by_cases ha : sg.asdu ≥ 45
        · rw [if_pos ha]
          exact ih
        · rw [if_neg ha]
          dsimp only
          intro event hm
          rw [putAll_apply] at hm
          rcases List.mem_append.mp hm with hm | hm
          · exact ih event hm
          · rw [(List.mem_replicate.mp hm).2]
            exact Int.not_le.mp ha
    | _ => exact ih

end Histories

section Rational

variable {C Q : Type} [DecidableEq C] [DecidableEq Q]

/-- Over rationals, with signals and queues of their own, every history keeps the values within
    their thresholds and mirrors the updates in the queues. -/
theorem mirrored {ops : List (Op C Q ℚ ℚ)} (hd : Distinct ops) (hs : Separate ops) : Mirrored ops := by
  refine ⟨?_, ?_, published_run ops⟩
  · intro pre now u post he
    rw [he] at hd
    exact kept hd.prefix now u
  · intro pre c q post he hl
    have he' : ops = (pre ++ [.subscribe c q]) ++ post := by rw [he, List.append_assoc]; rfl
    have hrun : after ops = (after (pre ++ [.subscribe c q])).run post := by rw [he']; exact run_append ..
    have hmem : ∀ c' q', Op.subscribe c' q' ∈ pre ++ [Op.subscribe c q] ∨ Op.subscribe c' q' ∈ post →
        Op.subscribe c' q' ∈ ops := by
      intro c' q' hm
      rw [he']
      exact List.mem_append.mpr hm
    have hself : Op.subscribe c q ∈ ops := hmem c q (.inl (List.mem_append_right _ List.mem_cons_self))
    rw [he'] at hd
    have hfollows := follows hd.prefix
    refine ⟨?_, fun id event hlast => ?_⟩
    · rw [hrun, queues_run (c := c) (q := q) ?_ ?_ hl ?_, after_snoc]
      · rfl
      · rw [after_snoc]
        exact Dict.get_set_self ..
      · intro c' hg
        exact hs c' c q (hmem c' q (.inl (hfollows.subs c' q hg))) hself
      · intro c' hm
        exact hs c' c q (hmem c' q (.inr hm)) hself
    · obtain ⟨sg, hg, -, hev⟩ := last_told hd hlast
      rw [he']
      exact ⟨sg, hg, hev⟩

def sampleHistory : List (Op Nat Nat ℚ ℚ) :=
  [.addSignal sampleTime 1 100 36 (some (1 / 2)), .subscribe 7 0, .update sampleTime { val := 10, id := some 1 },
    .addSignal sampleTime 2 101 45 none, .update sampleTime { val := 41 / 4, ioa := some 100 },
    .update sampleTime { val := 1, ioa := some 101 }, .update sampleTime { val := 41 / 4, id := some 1, q := 1 }]

theorem mirrored_sampleHistory : Mirrored sampleHistory := by
  refine mirrored ⟨by decide, by decide⟩ fun c c' q h h' => ?_
  simp only [sampleHistory, List.mem_cons, List.not_mem_nil, reduceCtorEq, false_or, or_false,
    Op.subscribe.injEq] at h h'
  rw [h.1, h'.1]

/-- The value within the threshold is kept back until the quality changes. -/
example : ((after sampleHistory).queues 0).map (fun e => (e.val, e.q)) = [(10, 0), (41 / 4, 1)] := by decide +kernel

end Rational

end Drv60870.Storage.History
