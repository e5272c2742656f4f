/-
  Drv60870.Link.Current — what the client was told last is what the server holds.

  The server's signals are updated by `update_val`, which commits under the storage's lock and
  puts the event to the connection's queue afterwards; the client may interrogate. A `Plant` is
  the two stations with the event that is between the two. `Current` says of an event that it
  is what is stored of its signal, and `Fresh` keeps it of what is yet to be enqueued and, for
  each address, of the event enqueued last.

  The run is orderly as in `InOrder`; one thread updates at a time, and none while `client_rec`
  puts the events of an interrogation. The table is one that was loaded, and the events
  transmitted are of the years 2000 to 2127.

  Proved:
  - Every step keeps `Fresh` (`fresh_run`). An interrogation reads what is current, and reads
    every signal of a type below 45 (`interrogated_all`).
  - Whenever everything is at rest, the last object the client has been handed of such a signal
    is the image of the stored signal; and once an interrogation has been confirmed it has been
    handed one (`synchronised`).
  Traces: the point is on, and the client has been told so twice (`synchronised_pumpRun`).
-/

import Drv60870.Link.Alive
import Drv60870.Link.InOrder
import Drv60870.Storage.Names

namespace Drv60870.Link

open Lib Lib.Octets Lib.Calendar Lib.Python Lib.Runs Drv60870.Const Protocol Storage Stations

variable {C Q : Type}

/-! ## The plant -/

/-- The two stations, and the event `update_val` has yet to put to the connection's queue. -/
structure Plant (C Q : Type) where
  link : Stations (Signals C Q)
  pending : Option (Event Val) := none

inductive Plant.Act (C Q : Type) where
  /-- `update_val`, under the lock. -/
  | update (now : Datetime) (u : Update Val)
  /-- `put_nowait` of its event. -/
  | put
  | link (a : Link.Act (Signals C Q))

def ofLink : Act (Signals C Q) → Bool
  | .server (.put _) => false
  | .server (.store _) => false
  | _ => true

namespace Plant

def step (cb : Callbacks (Signals C Q)) (p : Plant C Q) : Plant.Act C Q → Option (Plant C Q)
  | .update now u =>
    match p.pending with
    | some _ => none
    | none =>
      match p.link.server.store.commit now u with
      | .error _ => some p
      | .ok c => (Stations.step cb p.link (.server (.store c.storage))).map fun link => ⟨link, c.event⟩
  | .put =>
    match p.pending with
    | none => none
    | some event => (Stations.step cb p.link (.server (.put event.iec))).map fun link => ⟨link, none⟩
  | .link a => if ofLink a then (Stations.step cb p.link a).map fun link => { p with link } else none

/-- Nothing is updated while the events of an interrogation are put, and the link's part is orderly. -/
def orderly (p : Plant C Q) : Plant.Act C Q → Bool
  | .update _ _ => p.link.server.receiver.puts.isEmpty
  | .put => p.pending.all fun event => Server.encodable event.iec
  | .link a => Link.orderly p.link a

variable {cb : Callbacks (Signals C Q)}

theorem step_link {p p' : Plant C Q} {a : Plant.Act C Q} (h : step cb p a = some p') :
    p' = p ∨ ∃ b, Stations.step cb p.link b = some p'.link ∧
      (p.orderly a = true → Link.orderly p.link b = true) := by
  cases a with
  | update now u =>
    simp only [step] at h
    split at h
    · cases h
    · split at h
      · cases h
        exact .inl rfl
      · obtain ⟨link, hl, rfl⟩ := Option.map_eq_some_iff.mp h
        exact .inr ⟨_, hl, fun _ => rfl⟩
  | put =>
    simp only [step] at h
    split at h
    · cases h
    · rename_i event hp
      obtain ⟨link, hl, rfl⟩ := Option.map_eq_some_iff.mp h
      refine .inr ⟨_, hl, fun hok => ?_⟩
      simpa [orderly, hp, Link.orderly, Server.nothingLost, Server.startedAndEncodable,
        Server.nothingOvertaken] using hok
  | link a =>
    simp only [step] at h
    split at h
    · obtain ⟨link, hl, rfl⟩ := Option.map_eq_some_iff.mp h
      exact .inr ⟨a, hl, fun hok => hok⟩
    · cases h

theorem link_reach {p₀ p : Plant C Q} (h : Reach (step cb) (fun p a => p.orderly a = true) p₀ p) :
    Reach (Stations.step cb) (fun l a => Link.orderly l a = true) p₀.link p.link := by
  induction h with
  | init => exact .init
  | step _ hok hs ih =>
    rcases step_link hs with rfl | ⟨b, hb, hok'⟩
    · exact ih
    · exact .step ih (hok' hok) hb

end Plant

/-! ## Current events -/

def Current (store : Signals C Q) (ev : IecEvent) : Prop :=
  ev.ioa ≠ 0 → ∀ id sg, store.signals.get id = some sg → sg.asdu < 45 → sg.ioa = ev.ioa →
    ∃ cot, ev = (sg.event cot).iec

def Apart (store : Signals C Q) : Prop :=
  ∀ id id' sg sg', store.signals.get id = some sg → store.signals.get id' = some sg' → sg.ioa = sg'.ioa → id = id'

theorem current_interrogated {store : Signals C Q} (hapart : Apart store) (now : Datetime) :
    ∀ ev ∈ Server.interrogated store ++ [giTermination now], Current store ev := by
  intro ev hev hioa id sg hg hlt he
  rcases List.mem_append.mp hev with hev | hev
  · obtain ⟨hm, -⟩ := List.mem_filter.mp hev
    obtain ⟨e, hmem, rfl⟩ := List.mem_map.mp hm
    obtain ⟨sg', hval, rfl⟩ := List.mem_map.mp hmem
    obtain ⟨id', hg'⟩ := Dict.mem_values.mp hval
    cases hapart id id' sg sg' hg hg' he
    rw [hg] at hg'
    cases hg'
    exact ⟨20, rfl⟩
  · rw [List.mem_singleton.mp hev] at hioa
    exact absurd rfl hioa

theorem interrogated_all {store : Signals C Q} {id : Int} {sg : SignalConf Val F64}
    (hg : store.signals.get id = some sg) (hlt : sg.asdu < 45) : ∃ ev ∈ Server.interrogated store, ev.ioa = sg.ioa := by
  have hall : sg.event 20 ∈ store.getAllForGi := List.mem_map.mpr ⟨sg, Dict.mem_values.mpr ⟨id, hg⟩, rfl⟩
  exact ⟨(sg.event 20).iec, List.mem_filter.mpr ⟨List.mem_map.mpr ⟨_, hall, rfl⟩, decide_eq_true hlt⟩, rfl⟩

/-- The tables that a write leaves: every signal is there, and only its own value is another. -/
theorem apart_write {store : Signals C Q} (h : Apart store) (now : Datetime) (u : Update Val) {id : Int}
    {sg : SignalConf Val F64} (hg : store.signals.get id = some sg) : Apart (store.write now u id sg) := by
  have hback : ∀ id' sg', (store.write now u id sg).signals.get id' = some sg' →
      ∃ sg'', store.signals.get id' = some sg'' ∧ sg''.ioa = sg'.ioa := by
    intro id' sg' hg'
    rw [DataStorage.write, Dict.get_set] at hg'
    by_cases he : id' = id
    · rw [if_pos he] at hg'
      cases hg'
      exact ⟨sg, by rw [he]; exact hg, rfl⟩
    · rw [if_neg he] at hg'
      exact ⟨sg', hg', rfl⟩
  intro id₁ id₂ sg₁ sg₂ h₁ h₂ he
  obtain ⟨sg₁', h₁', e₁⟩ := hback id₁ sg₁ h₁
  obtain ⟨sg₂', h₂', e₂⟩ := hback id₂ sg₂ h₂
  exact h id₁ id₂ sg₁' sg₂' h₁' h₂' (by rw [e₁, e₂, he])

theorem current_write {store : Signals C Q} (now : Datetime) (u : Update Val) {id : Int} {sg : SignalConf Val F64}
    {ev : IecEvent} (h : Current store ev) (hne : sg.asdu < 45 → ev.ioa ≠ sg.ioa) :
    Current (store.write now u id sg) ev := by
  intro hioa id' sg' hg' hlt he
  rw [DataStorage.write, Dict.get_set] at hg'
  by_cases hid : id' = id
  · rw [if_pos hid] at hg'
    cases hg'
    exact absurd he.symm (hne hlt)
  · rw [if_neg hid] at hg'
    exact h hioa id' sg' hg' hlt he

theorem current_announce {store : Signals C Q} (hapart : Apart store) (hkeyed : store.Keyed) {now : Datetime}
    {u : Update Val} {id : Int} {sg : SignalConf Val F64} (hg : store.signals.get id = some sg) {ev : Event Val}
    (ha : DataStorage.announce now u id sg = some ev) :
    sg.asdu < 45 ∧ ev.iec.ioa = sg.ioa ∧ Current (store.write now u id sg) ev.iec := by
  unfold DataStorage.announce at ha
  split at ha
  · cases ha
  · rename_i hlt
    cases ha
    refine ⟨Int.not_le.mp hlt, rfl, fun hioa id' sg' hg' hlt' he => ?_⟩
    rw [DataStorage.write, Dict.get_set] at hg'
    by_cases hid : id' = id
    · rw [if_pos hid] at hg'
      cases hg'
      refine ⟨3, ?_⟩
      simp [Event.iec, SignalConf.event, SignalConf.written, hkeyed id sg hg]
    · rw [if_neg hid] at hg'
      exact absurd (hapart id' id sg' sg hg' hg he) hid

/-! ## The invariant -/

def owes (pending : Option (Event Val)) (s : Server.Conn (Signals C Q)) : List IecEvent :=
  s.receiver.puts ++ (pending.map Event.iec).toList

def Covers (store : Signals C Q) (evs : List IecEvent) : Prop :=
  ∀ id sg, store.signals.get id = some sg → sg.asdu < 45 → ∃ ev ∈ evs, ev.ioa = sg.ioa

/-- What is yet to be enqueued is current, and where nothing is, what was enqueued last; an interrogation
    that is answered reports every signal. -/
structure Fresh (pending : Option (Event Val)) (s : Server.Conn (Signals C Q)) : Prop where
  apart : Apart s.store
  keyed : s.store.Keyed
  owed : ∀ ev ∈ owes pending s, Current s.store ev
  last : ∀ i, (∀ ev ∈ owes pending s, ev.ioa ≠ i) →
    ∀ ev, (Server.onIoa i (Server.enqueued s.log)).getLast? = some ev → Current s.store ev
  answered : ∀ t g puts, s.receiver = .handling (some (t, some g)) puts → isI g = true →
    Covers s.store (Server.enqueued s.log ++ puts)
  confirmed : ∀ g, .reply g ∈ s.log → isI g = true → Covers s.store (Server.enqueued s.log)

variable {pending pending' : Option (Event Val)} {s s' : Server.Conn (Signals C Q)}

theorem Covers.mono {store : Signals C Q} {evs evs' : List IecEvent} (h : Covers store evs)
    (hsub : ∀ ev ∈ evs, ev ∈ evs') : Covers store evs' := fun id sg hg hlt =>
  let ⟨ev, hev, he⟩ := h id sg hg hlt
  ⟨ev, hsub ev hev, he⟩

theorem covers_write {store : Signals C Q} {evs : List IecEvent} (h : Covers store evs) (now : Datetime)
    (u : Update Val) {id : Int} {sg : SignalConf Val F64} (hg : store.signals.get id = some sg) :
    Covers (store.write now u id sg) evs := by
  intro id' sg' hg' hlt
  rw [DataStorage.write, Dict.get_set] at hg'
  by_cases hid : id' = id
  · rw [if_pos hid] at hg'
    cases hg'
    exact h id sg hg hlt
  · rw [if_neg hid] at hg'
    exact h id' sg' hg' hlt

theorem Fresh.same (h : Fresh pending s) (os : List Server.Obs) (hstore : s'.store = s.store)
    (hlog : s'.log = s.log ++ os) (hput : Server.enqueued os = []) (hputs : s'.receiver.puts = s.receiver.puts)
    (hans : ∀ result puts, s'.receiver = .handling result puts → s.receiver = s'.receiver)
    (hreply : ∀ g, .reply g ∈ os → isI g = true → ∃ t, s.receiver = .handling (some (t, some g)) []) :
    Fresh pending s' := by
  have howes : owes pending s' = owes pending s := by rw [owes, owes, hputs]
  have henq : Server.enqueued s'.log = Server.enqueued s.log := by
    rw [hlog, Server.enqueued, List.flatMap_append]
    show Server.enqueued s.log ++ Server.enqueued os = _
    rw [hput, List.append_nil]
  refine ⟨by rw [hstore]; exact h.apart, by rw [hstore]; exact h.keyed, ?_, ?_, ?_, ?_⟩
  · rw [howes, hstore]
    exact h.owed
  · rw [howes, hstore, henq]
    exact h.last
  · intro t g puts hr hI
    rw [hstore, henq]
    exact h.answered t g puts (by rw [hans _ _ hr, hr]) hI
  · intro g hg hI
    rw [hstore, henq]
    rw [hlog] at hg
    rcases List.mem_append.mp hg with hg | hg
    · exact h.confirmed g hg hI
    · obtain ⟨t, hr⟩ := hreply g hg hI
      exact (h.answered t g [] hr hI).mono fun ev hev => by rwa [List.append_nil] at hev

theorem Fresh.enqueue (h : Fresh pending s) {ev : IecEvent} (hstore : s'.store = s.store)
    (hlog : s'.log = s.log ++ [.put ev]) (hmem : ev ∈ owes pending s)
    (hrest : ∀ e ∈ owes pending' s', e ∈ owes pending s) (hall : ∀ e ∈ owes pending s, e = ev ∨ e ∈ owes pending' s')
    (hans : ∀ result puts', s'.receiver = .handling result puts' →
      ∃ puts, s.receiver = .handling result puts ∧ ∀ e ∈ puts, e = ev ∨ e ∈ puts') :
    Fresh pending' s' := by
  have henq : Server.enqueued s'.log = Server.enqueued s.log ++ [ev] := by
    rw [hlog, Server.enqueued_snoc]
    rfl
  refine ⟨by rw [hstore]; exact h.apart, by rw [hstore]; exact h.keyed, ?_, ?_, ?_, ?_⟩
  · rw [hstore]
    exact fun e he => h.owed e (hrest e he)
  · intro i hno e he
    rw [henq, Server.onIoa_append] at he
    rw [hstore]
    by_cases hi : ev.ioa = i
    · -- the event itself is the last one now
      have hone : Server.onIoa i [ev] = [ev] := by simp [Server.onIoa, hi]
      rw [hone, List.getLast?_concat] at he
      cases he
      exact h.owed ev hmem
    · have hnone : Server.onIoa i [ev] = [] := by simp [Server.onIoa, hi]
      rw [hnone, List.append_nil] at he
      refine h.last i (fun e' he' => ?_) e he
      rcases hall e' he' with rfl | he'
      · exact hi
      · exact hno e' he'
  · intro t g puts' hr hI
    obtain ⟨puts, hr', hsub⟩ := hans _ _ hr
    rw [hstore, henq]
    refine (h.answered t g puts hr' hI).mono fun e he => ?_
    rcases List.mem_append.mp he with he | he
    · exact List.mem_append_left _ (List.mem_append_left _ he)
    · rcases hsub e he with rfl | he
      · exact List.mem_append_left _ (List.mem_append_right _ List.mem_cons_self)
      · exact List.mem_append_right _ he
  · intro g hg hI
    rw [hstore, henq]
    rw [hlog] at hg
    rcases List.mem_append.mp hg with hg | hg
    · exact (h.confirmed g hg hI).mono fun e he => List.mem_append_left _ he
    · simp at hg

theorem Fresh.recv {onCommand : Option (Val → Nat → Signals C Q → Bool × List IecEvent × Signals C Q)}
    (h : Fresh pending s) {f : Bytes} {now : Datetime} {ca : Int} (hf : Whole f) (hg : Client.Interrogates ca f)
    (hs : Server.Conn.recvStep (Server.station onCommand) s f now = some s') : Fresh pending s' := by
  obtain ⟨hfree, hstore, hlog, result, puts, hr, hputs⟩ := recv_asked hf hg hs
  have henq : Server.enqueued s'.log = Server.enqueued s.log := by
    rw [hlog, Server.enqueued_snoc]
    exact List.append_nil _
  have howes : ∀ ev, ev ∈ owes pending s' ↔ ev ∈ puts ∨ ev ∈ owes pending s := by
    intro ev
    rw [owes, owes, hr, hfree]
    simp [Server.RecPc.puts]
  refine ⟨by rw [hstore]; exact h.apart, by rw [hstore]; exact h.keyed, ?_, ?_, ?_, ?_⟩
  · intro ev hev
    rw [hstore]
    rcases (howes ev).mp hev with hev | hev
    · rcases hputs with ⟨rfl, -⟩ | rfl
      · cases hev
      · exact current_interrogated h.apart now ev hev
    · exact h.owed ev hev
  · intro i hno ev he
    rw [hstore]
    rw [henq] at he
    exact h.last i (fun e hmem => hno e ((howes e).mpr (.inr hmem))) ev he
  · intro t g puts' hr' hI
    rw [hr] at hr'
    cases hr'
    rw [hstore]
    rcases hputs with ⟨-, hno⟩ | rfl
    · rw [hno t g rfl] at hI
      cases hI
    · intro id sg hget hlt
      obtain ⟨ev, hev, he⟩ := interrogated_all hget hlt
      exact ⟨ev, List.mem_append_right _ (List.mem_append_left _ hev), he⟩
  · intro g hmem hI
    rw [hstore, henq]
    rw [hlog] at hmem
    rcases List.mem_append.mp hmem with hmem | hmem
    · exact h.confirmed g hmem hI
    · simp at hmem

theorem Fresh.update (h : Fresh none s) (hputs : s.receiver.puts = []) {now : Datetime} {u : Update Val} {id : Int}
    {sg : SignalConf Val F64} (hg : s.store.signals.get id = some sg) (hstore : s'.store = s.store.write now u id sg)
    (hlog : s'.log = s.log) (hrec : s'.receiver = s.receiver) : Fresh (DataStorage.announce now u id sg) s' := by
  have hnone : owes none s = [] := by rw [owes, hputs]; rfl
  have howes : owes (DataStorage.announce now u id sg) s' =
      ((DataStorage.announce now u id sg).map Event.iec).toList := by rw [owes, hrec, hputs]; rfl
  refine ⟨?_, ?_, ?_, ?_, ?_, ?_⟩
  · rw [hstore]
    exact apart_write h.apart now u hg
  · rw [hstore]
    exact DataStorage.keyed_write now u h.keyed hg
  · intro ev hev
    rw [howes] at hev
    cases ha : DataStorage.announce now u id sg with
    | none =>
      rw [ha] at hev
      cases hev
    | some e =>
      rw [ha] at hev
      rw [List.mem_singleton.mp hev, hstore]
      exact (current_announce h.apart h.keyed hg ha).2.2
  · intro i hno ev he
    rw [hlog] at he
    rw [hstore]
    have hcur := h.last i (fun e hmem => by rw [hnone] at hmem; cases hmem) ev he
    refine current_write now u hcur fun hlt hioa => ?_
    have ha : DataStorage.announce now u id sg = some { (sg.written now u).event 3 with id } := by
      rw [DataStorage.announce, if_neg (Int.not_le.mpr hlt)]
    have hi : ev.ioa = i := by simpa using (List.mem_filter.mp (List.mem_of_getLast? he)).2
    have hmem : ({ (sg.written now u).event 3 with id } : Event Val).iec ∈
        owes (DataStorage.announce now u id sg) s' := by
      rw [howes, ha]
      exact List.mem_singleton_self _
    exact hno _ hmem (hioa.symm.trans hi)
  · intro t g puts hr hI
    rw [hstore, hlog]
    exact covers_write (h.answered t g puts (by rw [← hrec, hr]) hI) now u hg
  · intro g hmem hI
    rw [hstore, hlog]
    rw [hlog] at hmem
    exact covers_write (h.confirmed g hmem hI) now u hg

/-! ## Steps -/

/-- A step of the connection that neither puts an event from outside nor changes the store. -/
theorem fresh_server {onCommand : Option (Val → Nat → Signals C Q → Bool × List IecEvent × Signals C Q)}
    {b : Server.Act (Signals C Q)} (h : Fresh pending s)
    (hput : ∀ ev, b ≠ .put ev) (hstore : ∀ x, b ≠ .store x)
    (hrecv : ∀ f now, b = .recv f now → Whole f ∧ ∃ ca, Client.Interrogates ca f)
    (hs : Server.Conn.step (Server.station onCommand) s b = some s') : Fresh pending s' := by
  have hsilent : ∀ s' : Server.Conn (Signals C Q), s'.store = s.store → s'.log = s.log → s'.receiver = s.receiver →
      Fresh pending s' := fun s' he hlog hr =>
    h.same [] he (by rw [hlog, List.append_nil]) rfl (by rw [hr]) (fun _ _ _ => hr.symm)
      (fun g hg => by cases hg)
  have hfreed : ∀ s' : Server.Conn (Signals C Q), s'.store = s.store → s'.log = s.log → s'.receiver.locked = false →
      s.receiver.puts = [] → Fresh pending s' := fun s' he hlog hr hputs => by
    refine h.same [] he (by rw [hlog, List.append_nil]) rfl ?_ ?_ (fun g hg => by cases hg)
    · rw [hputs]
      cases hr' : s'.receiver with
      | handling result puts => rw [hr'] at hr; cases hr
      | _ => rfl
    · intro result puts hr'
      rw [hr'] at hr
      cases hr
  cases Server.step_move hs with
  | put event => exact absurd rfl (hput event)
  | store x => exact absurd rfl (hstore x)
  | answer f now | take f now =>
    obtain ⟨hf, ca, hg⟩ := hrecv f now rfl
    exact h.recv hf hg hs
  | write c event rest packet hpc hl hb =>
    exact h.same _ rfl rfl rfl rfl (fun _ _ _ => rfl) (fun g hg => by simp at hg)
  | testfr c hpc => exact h.same _ rfl rfl rfl rfl (fun _ _ _ => rfl) (fun g hg => by simp at hg)
  | handlerPut result event puts hr =>
    refine h.enqueue rfl rfl ?_ ?_ ?_ ?_
    · rw [owes, hr]
      exact List.mem_append_left _ List.mem_cons_self
    · intro e he
      rw [owes, hr]
      exact List.mem_cons_of_mem _ he
    · intro e he
      rw [owes, hr] at he
      exact List.mem_cons.mp he
    · intro result' puts' hr'
      cases hr'
      exact ⟨_, hr, fun e he => List.mem_cons.mp he⟩
  | raised result hr => exact hfreed _ rfl rfl rfl (by rw [hr]; rfl)
  | counted hr => exact hfreed _ rfl rfl rfl (by rw [hr]; rfl)
  | done fType hr => exact hfreed _ rfl rfl rfl (by rw [hr]; rfl)
  | close hr =>
    refine hfreed _ rfl rfl rfl ?_
    rcases hr with hr | hr
    · rw [hr]
      rfl
    · rw [hr]
      rfl
  | reply fType response hr =>
    refine h.same _ rfl rfl rfl (by rw [hr]; rfl) (fun _ _ hr' => by cases hr') (fun g hg _ => ?_)
    rw [List.mem_singleton] at hg
    cases hg
    exact ⟨fType, hr⟩
  | sFrame hr =>
    refine h.same _ rfl rfl rfl (by rw [hr]; rfl) (fun _ _ hr' => by cases hr') (fun g hg hI => ?_)
    rw [List.mem_singleton] at hg
    cases hg
    simp [isI_sFrame] at hI
  | _ => exact hsilent _ rfl rfl rfl

theorem fresh_step {onCommand : Option (Val → Nat → Signals C Q → Bool × List IecEvent × Signals C Q)}
    {p p' : Plant C Q} {a : Plant.Act C Q} {conf : Conf} (h : Fresh p.pending p.link.server)
    (hsafe : Safe conf p.link) (hok : p.orderly a = true)
    (hs : Plant.step (Server.station onCommand) p a = some p') : Fresh p'.pending p'.link.server := by
  cases a with
  | update now u =>
    simp only [Plant.step] at hs
    split at hs
    · cases hs
    · rename_i hnone
      rw [hnone] at h
      split at hs
      · cases hs
        rw [hnone]
        exact h
      · rename_i c hc
        obtain ⟨link, hl, rfl⟩ := Option.map_eq_some_iff.mp hs
        cases hl
        have hputs : p.link.server.receiver.puts = [] := by simpa [Plant.orderly] using hok
        rcases DataStorage.commit_ok hc with ⟨rfl, -⟩ | ⟨id, sg, hfind, -, rfl⟩
        · exact h.same [] rfl (List.append_nil _).symm rfl rfl (fun _ _ _ => rfl) (fun g hg => by cases hg)
        · exact h.update hputs (DataStorage.find_get hfind) rfl rfl rfl
  | put =>
    simp only [Plant.step] at hs
    split at hs
    · cases hs
    · rename_i event hp
      obtain ⟨link, hl, rfl⟩ := Option.map_eq_some_iff.mp hs
      cases hl
      rw [hp] at h
      refine h.enqueue rfl rfl ?_ ?_ ?_ ?_
      · exact List.mem_append_right _ (List.mem_singleton_self _)
      · intro e he
        exact List.mem_append_left _ (by simpa [owes] using he)
      · intro e he
        simp only [owes, Option.map_some, Option.toList_some, List.mem_append, List.mem_singleton] at he
        rcases he with he | he
        · exact .inr (List.mem_append_left _ he)
        · exact .inl he
      · intro result puts hr
        exact ⟨puts, hr, fun e he => .inr he⟩
  | link a =>
    simp only [Plant.step] at hs
    split at hs
    · rename_i hlink
      obtain ⟨link, hl, rfl⟩ := Option.map_eq_some_iff.mp hs
      show Fresh p.pending link.server
      rcases step_cases hl with ⟨b, s, hb, he, -, hcause⟩ | ⟨b, c, -, -, he, -⟩ | ⟨he, -⟩
      · rw [he]
        refine fresh_server h ?_ ?_ ?_ hb
        · rintro ev rfl
          cases hcause with
          | own _ ha =>
            rw [ha] at hlink
            cases hlink
        · rintro x rfl
          cases hcause with
          | own _ ha =>
            rw [ha] at hlink
            cases hlink
        · rintro f now rfl
          have hfree : p.link.server.receiver = .free := recvStep_free hb
          cases hcause with
          | own _ _ ht => cases ht
          | frame f now up hp => exact hsafe.up f up hfree hp
      · rw [he]
        exact h
      · rw [he]
        exact h
    · cases hs

/-! ## Runs -/

def newPlant (conf conf' : Conf) (ca ca' : Int) (store : Signals C Q) : Plant C Q :=
  ⟨newLink conf conf' ca ca' store [] true, none⟩

/-- Signals that were all added without an exception have an id and an address each. -/
theorem apart_loaded {K : Casing} {adds : List (NamedStorage.Addition F64)} {table : NamedStorage C Q Val F64}
    (h : table.Loaded K adds) : Apart table.toDataStorage ∧ table.toDataStorage.Keyed := by
  refine ⟨fun id id' sg sg' hg hg' he => ?_, fun id sg hg => ?_⟩
  · obtain ⟨a, ha, rfl, rfl, -⟩ := h.signals id sg hg
    obtain ⟨b, hb, rfl, rfl, -⟩ := h.signals id' sg' hg'
    rw [NamedStorage.one_of_nodup h.ioas ha hb he]
  · obtain ⟨a, -, rfl, rfl, -⟩ := h.signals id sg hg
    rfl

theorem fresh_start {conf conf' : Conf} {ca ca' : Int} {store : Signals C Q} (hapart : Apart store)
    (hkeyed : store.Keyed) : Fresh none (newPlant conf conf' ca ca' store).link.server where
  apart := hapart
  keyed := hkeyed
  owed := fun ev hev => by cases hev
  last := fun i _ ev hev => by cases hev
  answered := fun t g puts hr _ => by cases hr
  confirmed := fun g hg _ => by cases hg

section

variable {onCommand : Option (Val → Nat → Signals C Q → Bool × List IecEvent × Signals C Q)}
  {conf conf' : Conf} {ca ca' : Int} {store : Signals C Q} {p : Plant C Q}

theorem fresh_run (hw : 1 ≤ conf'.protW) (hapart : Apart store) (hkeyed : store.Keyed)
    (h : Reach (Plant.step (Server.station onCommand)) (fun p a => p.orderly a = true)
      (newPlant conf conf' ca ca' store) p) : Fresh p.pending p.link.server := by
  induction h with
  | init => exact fresh_start hapart hkeyed
  | step hr hok hs ih => exact fresh_step ih (safe_run hw ((Plant.link_reach hr).mono fun _ _ _ => trivial)) hok hs

end

theorem image_getLast {ca : Int} {evs : List IecEvent} {objs : List Obj} {o : Obj}
    (h : List.Forall₂ (Server.EventImage ca) evs objs) (ho : objs.getLast? = some o) :
    ∃ ev, evs.getLast? = some ev ∧ Server.EventImage ca ev o := by
  obtain ⟨pre, rfl⟩ := List.getLast?_eq_some_iff.mp ho
  have hrev := List.rel_reverse h
  rw [List.reverse_append, List.reverse_singleton, List.singleton_append] at hrev
  obtain ⟨ev, rest, hev, -, he⟩ := List.forall₂_cons_right_iff.mp hrev
  refine ⟨ev, ?_, hev⟩
  rw [← List.reverse_reverse evs, he, List.reverse_cons, List.getLast?_concat]

theorem confirmation_mem {log : List Server.Obs} (h : .confirmation ∈ messages log) :
    ∃ g, .reply g ∈ log ∧ isI g = true := by
  obtain ⟨o, ho, hm⟩ := List.mem_filterMap.mp h
  cases o with
  | reply g =>
    refine ⟨g, ho, ?_⟩
    by_contra hI
    simp [messageOf, hI] at hm
  | sent batch f => cases batch <;> cases hm
  | put ev => cases hm
  | got f => cases hm

/-- From any table of signals that was loaded, in every orderly run, whenever everything is at rest: what
    the client was handed last of a reported signal is the image of what is stored of it now; and if the
    server has confirmed an interrogation, the client has been handed something of every reported signal. -/
theorem synchronised (K : Casing) (adds : List (NamedStorage.Addition F64)) (table : NamedStorage C Q Val F64)
    (hload : run (NamedStorage.add K) .empty adds = some table)
    (onCommand : Option (Val → Nat → Signals C Q → Bool × List IecEvent × Signals C Q))
    (conf conf' : Conf) (ca ca' : Int) (hw : 1 ≤ conf'.protW) (p : Plant C Q)
    (h : Reach (Plant.step (Server.station onCommand)) (fun p a => p.orderly a = true)
      (newPlant conf conf' ca ca' table.toDataStorage) p)
    (hy : ∀ ev ∈ Server.transmitted p.link.server.log, inCentury ev)
    (hrest : AtRest p.link) (hque : p.link.server.que = []) (hpending : p.pending = none)
    (id : Int) (sg : SignalConf Val F64) (hg : p.link.server.store.signals.get id = some sg) (hlt : sg.asdu < 45)
    (hioa : sg.ioa ≠ 0) :
    (∀ o, (objectsOf sg.ioa p.link.client.log).getLast? = some o → ∃ cot, Server.EventImage ca (sg.event cot).iec o) ∧
      (.confirmation ∈ messages p.link.server.log → objectsOf sg.ioa p.link.client.log ≠ []) := by
  obtain ⟨hapart, hkeyed⟩ := apart_loaded (NamedStorage.loaded K hload)
  have hf := fresh_run hw hapart hkeyed h
  have hlink : Reach (step (Server.station onCommand)) (fun l a => orderly l a = true)
      (newLink conf conf' ca ca' table.toDataStorage [] true) p.link := Plant.link_reach h
  have himages : List.Forall₂ (Server.EventImage ca) (Server.onIoa sg.ioa (Server.enqueued p.link.server.log))
      (objectsOf sg.ioa p.link.client.log) := by
    rw [← toldOf_all hw hlink (by simp) hy hrest hque]
    exact objects_onIoa hioa (says_run hw (hlink.mono fun _ _ _ => trivial) hy)
  have hnothing : owes p.pending p.link.server = [] := by
    rw [owes, hpending, hrest.clientRec]
    rfl
  constructor
  · intro o ho
    obtain ⟨ev, hev, himage⟩ := image_getLast himages ho
    have hcur := hf.last sg.ioa (fun e he => by rw [hnothing] at he; cases he) ev hev
    have hi : ev.ioa = sg.ioa := by simpa using (List.mem_filter.mp (List.mem_of_getLast? hev)).2
    obtain ⟨cot, rfl⟩ := hcur (by rw [hi]; exact hioa) id sg hg hlt hi.symm
    exact ⟨cot, himage⟩
  · intro hconf hno
    obtain ⟨g, hmem, hI⟩ := confirmation_mem hconf
    obtain ⟨ev, hev, he⟩ := hf.confirmed g hmem hI id sg hg hlt
    have hon : ev ∈ Server.onIoa sg.ioa (Server.enqueued p.link.server.log) :=
      List.mem_filter.mpr ⟨hev, decide_eq_true he⟩
    rw [hno] at himages
    rw [List.forall₂_nil_right_iff.mp himages] at hon
    cases hon

deriving instance DecidableEq for Message

def pumpAdds : List (NamedStorage.Addition F64) := [⟨sampleTime, 2, 101, 1, "Pump_on", none⟩]

def pumpTable : NamedStorage Unit Unit Val F64 :=
  (NamedStorage.empty.addSignal ascii sampleTime 2 101 1 "Pump_on" none).2

def links (as : List (Act (Signals Unit Unit))) : List (Plant.Act Unit Unit) := as.map .link

def frameDown (n : Nat) : List (Plant.Act Unit Unit) := links [.clientRecv n, .clientPass, .clientPass]

def frameUp (n handles : Nat) : List (Plant.Act Unit Unit) :=
  links ([.serverRecv n, .serverPass sampleTime] ++ List.replicate handles (.server .handle) ++
    [.serverPass sampleTime])

def pumpRun : List (Plant.Act Unit Unit) :=
  links [.client .startdt, .client (.send false), .client (.send false)] ++ frameUp 6 1 ++ frameDown 6 ++
    [.update sampleTime { val := .int 1, ioa := some 101 }, .put] ++
    links (List.replicate 6 (.server (.send false))) ++ frameDown 16 ++
    links [.client .gi, .client (.build 0 sampleTime), .client (.enqueue 0), .client (.send false),
      .client (.send false)] ++ frameUp 16 3 ++
    links (List.replicate 13 (.server (.send false))) ++ frameDown 16 ++ frameDown 16 ++ frameDown 16

/-- The point is on, and the client has been told so twice. -/
theorem synchronised_pumpRun : ∃ (p : Plant Unit Unit) (sg : SignalConf Val F64) (o : Obj) (cot : Int),
    p.link.server.store.signals.get 2 = some sg ∧ sg.val = .int 1 ∧
      (objectsOf 101 p.link.client.log).getLast? = some o ∧ Server.EventImage 1 (sg.event cot).iec o := by
  have hrun : (run (checked (fun p a => p.orderly a) (Plant.step (Server.station none)))
      (newPlant kp1Conf kp1Conf 1 1 pumpTable.toDataStorage) pumpRun).map (fun p =>
        (decide (AtRest p.link ∧ p.link.server.que = [] ∧ p.pending = none ∧
            (∀ ev ∈ Server.transmitted p.link.server.log, ev.ts.year = 2025) ∧
            .confirmation ∈ messages p.link.server.log),
          p.link.server.store.signals.get 2)) =
      some (true, some { id := 2, ioa := 101, asdu := 1, threshold := none, val := .int 1, ts := sampleTime }) := by
    decide +kernel
  obtain ⟨p, hr, hl⟩ := exists_of_run _ hrun
  simp only [Prod.mk.injEq, decide_eq_true_eq] at hl
  obtain ⟨⟨hrest, hque, hpending, hyear, hconf⟩, hg⟩ := hl
  have hy : ∀ ev ∈ Server.transmitted p.link.server.log, inCentury ev := by
    intro ev hev
    rw [inCentury, hyear ev hev]
    decide
  obtain ⟨hlast, hall⟩ := synchronised ascii pumpAdds pumpTable rfl none kp1Conf kp1Conf 1 1 (by decide) p
    (reach_of_checked hr) hy hrest hque hpending 2 _ hg (by decide) (by decide)
  have hsome : objectsOf 101 p.link.client.log ≠ [] := hall hconf
  obtain ⟨cot, himage⟩ := hlast _ (List.getLast?_eq_some_getLast hsome)
  exact ⟨p, _, _, cot, hg, rfl, List.getLast?_eq_some_getLast hsome, himage⟩

end Drv60870.Link
