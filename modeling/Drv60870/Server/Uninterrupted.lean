/-
  Drv60870.Server.Uninterrupted — a frame handled while nothing else happens.

  In the server's own terms a frame is many steps: each command commits, its event goes to
  one queue after the other, each signal of an interrogation is read and put. In the terms of
  one connection it is one (`procFrame` with the callbacks `serving`). This module connects
  the two.

  Proved, from every state that the server reaches without a peer coming back to its address
  too early:
  - The receive thread's own steps lead through the frame, and they do what the one step does
    to the storage, to its connection's queue and to its state; and every other subscriber is
    put each event that was written, once (`uninterrupted`).
  - On the way: one update gives each subscribed queue its event (`turns_update`), an
    interrogation the one queue all that is read (`gi_done`), and the commands of a frame are
    carried out in order (`orders_done`).
  - No command raises: every value that gets into the storage is a number that can be compared
    as a float (`Storage.commit_goes`).
-/

import Drv60870.Server.FannedOut
import Drv60870.Server.Foreign

namespace Drv60870.Server

open Lib Lib.Octets Lib.Calendar Lib.Python Lib.Runs Drv60870.Const Protocol Storage

namespace Hub

variable {Addr : Type}

/-! ## What holds in every run -/

/-- The stored values and those still to be passed on are floats, and a receive thread that is not handling a
    frame is in no call. -/
structure Sound (h : Hub Addr) : Prop where
  stored : AllFloats h.storage
  read : ∀ (i : Nat) (l : Line Addr) (job : Job), h.lines[i]? = some l → l.job = some job →
    ∀ o ∈ job.orders, ReadOff o.1
  owned : ∀ call ∈ h.calls, ∀ i, call.owner = some i → i < h.lines.length
  idle : ∀ (i : Nat) (l : Line Addr), h.lines[i]? = some l → l.job = none → h.returned i = true

theorem returned_iff {h : Hub Addr} {i : Nat} :
    h.returned i = true ↔ ∀ call ∈ h.calls, call.owner = some i → call.flight.done = true := by
  simp only [returned, List.all_eq_true, Bool.or_eq_true, decide_eq_true_eq, ne_eq]
  refine forall_congr' fun call => imp_congr_right fun _ => ?_
  by_cases ho : call.owner = some i
  · simp [ho]
  · simp [ho]

theorem done_stays {s : Signals Addr Nat} {flight : Flight Nat Val} (hd : flight.done = true) :
    flight.advance s = none := by
  cases flight with
  | update event targets =>
    cases targets with
    | nil => rfl
    | cons q targets => cases hd
  | gi outQue snapshot held =>
    cases held with
    | some event => simp [Flight.done] at hd
    | none =>
      cases snapshot with
      | nil => rfl
      | cons id snapshot => cases hd

theorem returned_set {h : Hub Addr} {n i : Nat} {call : Pending} {flight : Flight Nat Val}
    {out : Option (Nat × Event Val)} (hcall : h.calls[n]? = some call)
    (hadv : call.flight.advance h.storage = some (out, flight)) (hi : h.returned i = true) :
    ∀ call' ∈ h.calls.set n { call with flight }, call'.owner = some i → call'.flight.done = true := by
  intro call' hcall' ho
  rcases List.mem_or_eq_of_mem_set hcall' with hcall' | rfl
  · exact returned_iff.mp hi call' hcall' ho
  · have hd := returned_iff.mp hi call (List.mem_of_getElem? hcall) ho
    rw [done_stays hd] at hadv
    cases hadv

theorem owned_set {h : Hub Addr} {n : Nat} {call : Pending} (flight : Flight Nat Val) (hs : h.Sound)
    (hcall : h.calls[n]? = some call) :
    ∀ call' ∈ h.calls.set n { call with flight }, ∀ i, call'.owner = some i → i < h.lines.length := by
  intro call' hcall' i ho
  rcases List.mem_or_eq_of_mem_set hcall' with hcall' | rfl
  · exact hs.owned call' hcall' i ho
  · exact hs.owned call (List.mem_of_getElem? hcall) i ho

theorem Sound.line {h h' : Hub Addr} {i : Nat} {l₀ l : Line Addr} (hs : h.Sound) (hl : h.lines[i]? = some l₀)
    (hlines : h'.lines = h.lines.set i l) (hstored : AllFloats h'.storage)
    (hread : ∀ job, l.job = some job → ∀ o ∈ job.orders, ReadOff o.1)
    (howned : ∀ call ∈ h'.calls, ∀ j, call.owner = some j → j < h.lines.length)
    (hidle : l.job = none → h'.returned i = true)
    (hothers : ∀ j, j ≠ i → h.returned j = true → h'.returned j = true) : h'.Sound := by
  have hget : ∀ j, h'.lines[j]? = if j = i then some l else h.lines[j]? := by
    intro j
    rw [hlines]
    exact setLine_get hl l j
  refine ⟨hstored, fun j l' job hl' hjob => ?_, fun call hcall j ho => ?_, fun j l' hl' hjob => ?_⟩
  · rw [hget] at hl'
    split at hl'
    · cases hl'
      exact hread job hjob
    · exact hs.read j l' job hl' hjob
  · rw [hlines, List.length_set]
    exact howned call hcall j ho
  · rw [hget] at hl'
    split at hl'
    · rename_i hj
      cases hl'
      rw [hj]
      exact hidle hjob
    · rename_i hj
      exact hothers j hj (hs.idle j l' hl' hjob)

/-- A call that was begun, and has returned. -/
theorem returned_done {h h' : Hub Addr} {i : Nat} {call call' : Pending} (hret : h.returned i = true)
    (hcalls : h'.calls = (h.calls ++ [call']).set h.calls.length call) (hd : call.flight.done = true) :
    h'.returned i = true := by
  rw [List.set_append_right _ _ (Nat.le_refl _), Nat.sub_self] at hcalls
  refine returned_iff.mpr fun c hc hown => ?_
  rw [hcalls] at hc
  rcases List.mem_append.mp hc with hc | hc
  · exact returned_iff.mp hret c hc hown
  · rw [List.mem_singleton.mp hc]
    exact hd

/-- A call begun by connection `i`, or by none. -/
theorem returned_begun {h : Hub Addr} {j : Nat} {calls : List Pending} (hj : h.returned j = true)
    (hnew : ∀ call ∈ calls, call.owner ≠ some j) :
    ∀ call ∈ h.calls ++ calls, call.owner = some j → call.flight.done = true := by
  intro call hcall ho
  rcases List.mem_append.mp hcall with hcall | hcall
  · exact returned_iff.mp hj call hcall ho
  · exact absurd ho (hnew call hcall)

theorem committed_owner {h : Hub Addr} {owner : Option Nat} {c : Commit Addr Nat Val F64} {call : Pending}
    (hm : call ∈ (h.committed owner c).calls) : call ∈ h.calls ∨ call.owner = owner := by
  rcases List.mem_append.mp hm with hm | hm
  · exact .inl hm
  · obtain ⟨event, -, rfl⟩ := List.mem_map.mp hm
    exact .inr rfl

section Steps

variable [DecidableEq Addr]

omit [DecidableEq Addr] in
theorem sound_start (conf : Conf) (ca : Int) (now : Datetime) (rows : List Row) :
    (start conf ca now rows : Hub Addr).Sound := by
  refine ⟨fun id sg hg => ?_, fun i l job hl => ?_, fun call hcall => absurd hcall List.not_mem_nil, fun i l hl => ?_⟩
  · rw [(load_initial now rows sg (Dict.mem_values.mpr ⟨id, hg⟩)).1]
    exact ⟨_, rfl⟩
  · cases hl
  · cases hl

theorem sound_step {h h' : Hub Addr} {a : Act Addr} (hs : h.Sound) (hstep : h.step a = some h') : h'.Sound := by
  cases step_move hstep with
  | accept addr =>
    refine ⟨hs.stored, fun i l job hl hjob => ?_, fun call hcall i ho => ?_, fun i l hl hjob => ?_⟩
    · rw [opened_get] at hl
      split at hl
      · cases hl
        cases hjob
      · exact hs.read i l job hl hjob
    · rw [opened_length]
      exact Nat.lt_succ_of_lt (hs.owned call hcall i ho)
    · rw [opened_get] at hl
      refine returned_iff.mpr fun call hcall ho => ?_
      split at hl
      · rename_i hi
        exact absurd (hs.owned call hcall i ho) (Nat.not_lt.mpr hi.ge)
      · exact returned_iff.mp (hs.idle i l hl hjob) call hcall ho
  | raised => exact hs
  | update now call c hc =>
    refine ⟨allFloats_commit hs.stored (isFloat_call call) hc, hs.read, fun call' hcall i ho => ?_,
      fun i l hl hjob => returned_iff.mpr fun call' hcall ho => ?_⟩
    · rcases committed_owner hcall with hcall | hown
      · exact hs.owned call' hcall i ho
      · rw [hown] at ho
        cases ho
    · rcases committed_owner hcall with hcall | hown
      · exact returned_iff.mp (hs.idle i l hl hjob) call' hcall ho
      · rw [hown] at ho
        cases ho
  | read n call flight hcall hadv =>
    exact ⟨hs.stored, hs.read, owned_set flight hs hcall,
      fun i l hl hjob => returned_iff.mpr (returned_set hcall hadv (hs.idle i l hl hjob))⟩
  | put n call flight i event l hcall hadv hl =>
    exact hs.line hl rfl hs.stored (fun job => hs.read i l job hl) (owned_set flight hs hcall)
      (fun hjob => returned_iff.mpr (returned_set hcall hadv (hs.idle i l hl hjob)))
      fun j _ hj => returned_iff.mpr (returned_set hcall hadv hj)
  | recv i frame now l hl hp hjob hf hframe =>
    refine hs.line hl rfl hs.stored (fun job hj o ho => ?_) (fun call hcall j ho => ?_) (fun hj => by cases hj)
      fun j hj hret => returned_iff.mpr (returned_begun hret fun call hcall ho => ?_)
    · cases hj
      exact orders_read ho
    · rcases List.mem_append.mp hcall with hcall | hcall
      · exact hs.owned call hcall j ho
      · rw [(mem_gi hcall).2.1] at ho
        cases ho
        exact (List.getElem?_eq_some_iff.mp hl).1
    · rw [(mem_gi hcall).2.1] at ho
      cases ho
      exact hj rfl
  | order i now l job val ioa orders c hl hjob ho hret hc =>
    have hread := hs.read i l job hl hjob
    rw [ho] at hread
    refine hs.line (l := { l with job := some { job with orders } }) hl rfl
      (allFloats_commit hs.stored (isFloat_readOff (hread _ List.mem_cons_self)) hc)
      (fun job' hj o ho' => ?_) (fun call hcall j hown => ?_) (fun hj => by cases hj)
      fun j hj hret => returned_iff.mpr fun call hcall hown => ?_
    · cases hj
      exact hread o (List.mem_cons_of_mem _ ho')
    · rcases committed_owner hcall with hcall | heq
      · exact hs.owned call hcall j hown
      · rw [heq] at hown
        cases hown
        exact (List.getElem?_eq_some_iff.mp hl).1
    · rcases committed_owner hcall with hcall | heq
      · exact returned_iff.mp hret call hcall hown
      · rw [heq] at hown
        cases hown
        exact absurd rfl hj
  | finish i l job conn hl hjob ho hret hc =>
    exact hs.line hl rfl hs.stored (fun job hj => by cases hj) hs.owned (fun _ => hret) fun j _ hj => hj
  | own a i b l conn ha hl hc =>
    exact hs.line hl rfl hs.stored (fun job => hs.read i l job hl) hs.owned (hs.idle i l hl) fun j _ hj => hj
  | leave i l hl hp hjob =>
    exact hs.line hl rfl hs.stored (fun job => hs.read i l job hl) hs.owned (hs.idle i l hl) fun j _ hj => hj
  | unsubscribe i l hl hp =>
    exact hs.line hl rfl hs.stored (fun job => hs.read i l job hl) hs.owned (hs.idle i l hl) fun j _ hj => hj

/-! ## The receive thread on its own -/

/-- The steps of receive thread `i` in its handler; its calls are those from number `m` on. -/
def Act.handles (i m : Nat) : Act Addr → Bool
  | .recv j _ _ | .order j _ | .finish j => j == i
  | .turn n => m ≤ n
  | _ => false

def Alone (i m : Nat) : Hub Addr → Hub Addr → Prop := Reach step fun _ a => a.handles i m = true

theorem Alone.turn {i m n : Nat} {h h' : Hub Addr} (hn : m ≤ n) (hs : h.step (.turn n) = some h') : Alone i m h h' :=
  .step (a := .turn n) .init (decide_eq_true hn) hs

def give (l : Line Addr) (evs : List IecEvent) : Line Addr :=
  { l with conn := { l.conn with que := l.conn.que ++ evs, log := l.conn.log ++ evs.map .put } }

omit [DecidableEq Addr] in
@[simp] theorem give_nil (l : Line Addr) : give l [] = l := by simp [give]

omit [DecidableEq Addr] in
@[simp] theorem give_give (l : Line Addr) (a b : List IecEvent) : give (give l a) b = give l (a ++ b) := by
  simp [give]

theorem turn_gives {h : Hub Addr} {n j : Nat} {call : Pending} {flight : Flight Nat Val} {event : Event Val}
    {l : Line Addr} (hcall : h.calls[n]? = some call)
    (hadv : call.flight.advance h.storage = some (some (j, event), flight)) (hl : h.lines[j]? = some l) :
    h.step (.turn n) = some { h.setLine j (give l [event.iec]) with calls := h.calls.set n { call with flight } } := by
  simp only [step, hcall, hadv, onConn, hl, Option.bind_eq_bind, Option.bind_some]
  rfl

theorem turn_reads {h : Hub Addr} {n : Nat} {call : Pending} {flight : Flight Nat Val}
    (hcall : h.calls[n]? = some call) (hadv : call.flight.advance h.storage = some (none, flight)) :
    h.step (.turn n) = some { h with calls := h.calls.set n { call with flight } } := by
  simp only [step, hcall, hadv, Option.bind_eq_bind, Option.bind_some]

/-- What has come of one call: it has given each queue its events. -/
structure Turned (h h' : Hub Addr) (n : Nat) (call : Pending) (given : Nat → List IecEvent) : Prop where
  storage : h'.storage = h.storage
  log : h'.log = h.log
  calls : h'.calls = h.calls.set n call
  lines : ∀ j, h'.lines[j]? = (h.lines[j]?).map fun l => give l (given j)

omit [DecidableEq Addr] in
theorem Turned.refl {h : Hub Addr} {n : Nat} {call : Pending} (hcall : h.calls[n]? = some call) :
    Turned h h n call fun _ => [] := by
  obtain ⟨hlt, rfl⟩ := List.getElem?_eq_some_iff.mp hcall
  refine ⟨rfl, rfl, (List.set_getElem_self hlt).symm, fun j => ?_⟩
  cases h.lines[j]? with
  | none => rfl
  | some l => exact congrArg some (give_nil l).symm

omit [DecidableEq Addr] in
theorem Turned.trans {h h' h'' : Hub Addr} {n : Nat} {call call' : Pending} {given given' : Nat → List IecEvent}
    (ht : Turned h h' n call given) (ht' : Turned h' h'' n call' given') :
    Turned h h'' n call' fun j => given j ++ given' j := by
  refine ⟨ht'.storage.trans ht.storage, ht'.log.trans ht.log, ?_, fun j => ?_⟩
  · rw [ht'.calls, ht.calls, List.set_set]
  · rw [ht'.lines, ht.lines]
    cases h.lines[j]? with
    | none => rfl
    | some l => exact congrArg some (give_give l (given j) (given' j))

omit [DecidableEq Addr] in
theorem Turned.next {h h' : Hub Addr} {n : Nat} {call : Pending} {given : Nat → List IecEvent}
    (ht : Turned h h' n call given) (hlt : n < h.calls.length) : h'.calls[n]? = some call := by
  rw [ht.calls, List.getElem?_set_self hlt]

theorem turned_put {h : Hub Addr} {n j : Nat} {call : Pending} {flight : Flight Nat Val} {event : Event Val}
    (hcall : h.calls[n]? = some call) (hadv : call.flight.advance h.storage = some (some (j, event), flight))
    (hj : j < h.lines.length) : ∃ h', h.step (.turn n) = some h' ∧
      Turned h h' n { call with flight } fun i => if i = j then [event.iec] else [] := by
  have hl : h.lines[j]? = some h.lines[j] := List.getElem?_eq_getElem hj
  refine ⟨_, turn_gives hcall hadv hl, rfl, rfl, rfl, fun i => ?_⟩
  refine (setLine_get hl _ i).trans ?_
  by_cases hi : i = j
  · rw [if_pos hi, hi, hl, if_pos rfl]
    rfl
  · rw [if_neg hi, if_neg hi]
    cases h.lines[i]? with
    | none => rfl
    | some l => exact congrArg some (give_nil l).symm

theorem turned_read {h : Hub Addr} {n : Nat} {call : Pending} {flight : Flight Nat Val}
    (hcall : h.calls[n]? = some call) (hadv : call.flight.advance h.storage = some (none, flight)) :
    ∃ h', h.step (.turn n) = some h' ∧ Turned h h' n { call with flight } fun _ => [] := by
  refine ⟨_, turn_reads hcall hadv, rfl, rfl, rfl, fun i => ?_⟩
  show h.lines[i]? = _
  cases h.lines[i]? with
  | none => rfl
  | some l => exact congrArg some (give_nil l).symm

omit [DecidableEq Addr] in
theorem Turned.lines_length {h h' : Hub Addr} {n : Nat} {call : Pending} {given : Nat → List IecEvent}
    (ht : Turned h h' n call given) {j : Nat} (hj : j < h.lines.length) : j < h'.lines.length := by
  have hget := ht.lines j
  rw [List.getElem?_eq_getElem hj] at hget
  exact (List.getElem?_eq_some_iff.mp hget).1

theorem turns_update {i m n : Nat} (hn : m ≤ n) {owner : Option Nat} {event : Event Val} (targets : List Nat)
    {h : Hub Addr} (hcall : h.calls[n]? = some ⟨owner, .update event targets⟩)
    (haim : ∀ q ∈ targets, q < h.lines.length) : ∃ h', Alone i m h h' ∧
      Turned h h' n ⟨owner, .update event []⟩ fun j => List.replicate (targets.count j) event.iec := by
  induction targets generalizing h with
  | nil => exact ⟨h, .init, Turned.refl hcall⟩
  | cons q targets ih =>
    have hlt : n < h.calls.length := (List.getElem?_eq_some_iff.mp hcall).1
    obtain ⟨h₁, hs, ht⟩ := turned_put hcall rfl (haim q List.mem_cons_self)
    obtain ⟨h', hr, ht'⟩ := ih (ht.next hlt) fun q' hq' => ht.lines_length (haim q' (List.mem_cons_of_mem _ hq'))
    refine ⟨h', Reach.trans (Alone.turn hn hs) hr, ?_⟩
    have hgiven : (fun j => (if j = q then [event.iec] else []) ++ List.replicate (targets.count j) event.iec) =
        fun j => List.replicate ((q :: targets).count j) event.iec := by
      funext j
      rw [List.count_cons]
      by_cases hj : j = q
      · simp [hj, List.replicate_succ]
      · simp [hj, Ne.symm hj]
    rw [← hgiven]
    exact ht.trans ht'

def readings (s : Signals Addr Nat) (snapshot : List Int) : List IecEvent :=
  ((snapshot.filterMap fun id => (s.signals.get id).map fun sg => sg.event 20).map Event.iec).filter
    fun ev => ev.asdu < 45

theorem turns_gi {i m n : Nat} (hn : m ≤ n) {owner : Option Nat} (snapshot : List Int) {h : Hub Addr}
    (hcall : h.calls[n]? = some ⟨owner, .gi i snapshot none⟩) (hi : i < h.lines.length) : ∃ h', Alone i m h h' ∧
      Turned h h' n ⟨owner, .gi i [] none⟩ fun j => if j = i then readings h.storage snapshot else [] := by
  induction snapshot generalizing h with
  | nil =>
    refine ⟨h, .init, ?_⟩
    simpa [readings] using Turned.refl hcall
  | cons id snapshot ih =>
    have hlt : n < h.calls.length := (List.getElem?_eq_some_iff.mp hcall).1
    have hadv : (Flight.gi i (id :: snapshot) none : Flight Nat Val).advance h.storage =
        some (none, .gi i snapshot ((h.storage.signals.get id).map fun sg => sg.event 20)) := rfl
    obtain ⟨h₁, hs₁, ht₁⟩ := turned_read hcall hadv
    have hcall₁ := ht₁.next hlt
    cases hg : h.storage.signals.get id with
    | none =>
      rw [hg] at hcall₁
      obtain ⟨h', hr, ht'⟩ := ih hcall₁ (ht₁.lines_length hi)
      refine ⟨h', Reach.trans (Alone.turn hn hs₁) hr, ?_⟩
      have ht := ht₁.trans ht'
      simpa [readings, hg, ht₁.storage] using ht
    | some sg =>
      rw [hg] at hcall₁
      have hlt₁ : n < h₁.calls.length := (List.getElem?_eq_some_iff.mp hcall₁).1
      have hput : ∃ h₂, h₁.step (.turn n) = some h₂ ∧ Turned h₁ h₂ n ⟨owner, .gi i snapshot none⟩
          fun j => if j = i ∧ sg.asdu < 45 then [(sg.event 20).iec] else [] := by
        by_cases ha : (sg.event 20).asdu < 45
        · have hadv : (Flight.gi i snapshot (some (sg.event 20))).advance h₁.storage =
              some (some (i, sg.event 20), .gi i snapshot none) := by simp [Flight.advance, ha]
          obtain ⟨h₂, hs₂, ht₂⟩ := turned_put hcall₁ hadv (ht₁.lines_length hi)
          have ha' : sg.asdu < 45 := ha
          exact ⟨h₂, hs₂, by simpa [ha'] using ht₂⟩
        · have hadv : (Flight.gi i snapshot (some (sg.event 20))).advance h₁.storage =
              some (none, .gi i snapshot none) := by simp [Flight.advance, ha]
          obtain ⟨h₂, hs₂, ht₂⟩ := turned_read hcall₁ hadv
          have ha' : ¬ sg.asdu < 45 := ha
          exact ⟨h₂, hs₂, by simpa [ha'] using ht₂⟩
      obtain ⟨h₂, hs₂, ht₂⟩ := hput
      obtain ⟨h', hr, ht'⟩ := ih (ht₂.next hlt₁) (ht₂.lines_length (ht₁.lines_length hi))
      refine ⟨h', Reach.trans (Reach.trans (Alone.turn hn hs₁) (Alone.turn hn hs₂)) hr, ?_⟩
      have ht := (ht₁.trans ht₂).trans ht'
      have hgiven : (fun j => ([] ++ if j = i ∧ sg.asdu < 45 then [(sg.event 20).iec] else []) ++
          if j = i then readings h₂.storage snapshot else []) =
          fun j => if j = i then readings h.storage (id :: snapshot) else [] := by
        funext j
        rw [ht₂.storage, ht₁.storage]
        by_cases hj : j = i
        · by_cases ha : sg.asdu < 45
          · simp [hj, readings, hg, ha, Event.iec, SignalConf.event]
          · simp [hj, readings, hg, ha, Event.iec, SignalConf.event]
        · simp [hj]
      rw [← hgiven]
      exact ht

/-! ## The commands of a frame -/

def PassesOn (addr : Addr) (now : Datetime)
    (g : Val → Nat → Signals Addr Nat → Bool × List IecEvent × Signals Addr Nat) : Prop :=
  ∀ val ioa s c, s.commit now { val, ioa := some (ioa : Int) } = .ok c → g val ioa s =
    (c.updated, if (s.subs.get addr).isSome then (c.event.map Event.iec).toList else [], c.storage)

theorem serving_onCommand (addr : Addr) (now : Datetime) :
    ∃ g, (serving addr now : Callbacks (Signals Addr Nat)).onCommand = some g ∧ PassesOn addr now g := by
  refine ⟨_, rfl, fun val ioa s c hc => ?_⟩
  rw [onCommand, hc]

/-- The receive thread has come on to `l`; the events `told` have been written, and put to every subscriber. -/
structure Served (h h' : Hub Addr) (i : Nat) (l : Line Addr) (told : List (Event Val)) : Prop where
  log : h'.log = h.log ++ told.map .wrote
  news : ∀ event ∈ told, event.cot = 3
  line : h'.lines[i]? = some l
  others : ∀ j, j ≠ i → h'.lines[j]? =
    (h.lines[j]?).map fun l => give l (if subscribed j h.log then told.map Event.iec else [])

omit [DecidableEq Addr] in
theorem subscribed_wrote (i : Nat) (log : List Entry) (told : List (Event Val)) :
    subscribed i (log ++ told.map .wrote) = subscribed i log := by
  induction told generalizing log with
  | nil => rw [List.map_nil, List.append_nil]
  | cons event told ih =>
    rw [List.map_cons, List.append_cons, ih, subscribed_snoc]
    rfl

omit [DecidableEq Addr] in
theorem Served.trans {h h' h'' : Hub Addr} {i : Nat} {l l' : Line Addr} {told told' : List (Event Val)}
    (hs : Served h h' i l told) (hs' : Served h' h'' i l' told') : Served h h'' i l' (told ++ told') := by
  refine ⟨?_, fun event hm => ?_, hs'.line, fun j hj => ?_⟩
  · rw [hs'.log, hs.log, List.append_assoc, List.map_append]
  · exact (List.mem_append.mp hm).elim (hs.news event) (hs'.news event)
  · rw [hs'.others j hj, hs.others j hj, hs.log, subscribed_wrote]
    cases h.lines[j]? with
    | none => rfl
    | some l =>
      by_cases hsub : subscribed j h.log = true
      · simp [hsub]
      · simp [hsub]

omit [DecidableEq Addr] in
theorem commit_news {s : Signals Addr Nat} {now : Datetime} {u : Update Val} {c : Commit Addr Nat Val F64}
    (hc : s.commit now u = .ok c) {event : Event Val} (he : c.event = some event) : event.cot = 3 := by
  rcases DataStorage.commit_ok hc with ⟨rfl, -⟩ | ⟨id, sg, -, -, rfl⟩
  · cases he
  · simp only [DataStorage.announce] at he
    split at he
    · cases he
    · cases he
      rfl

theorem Alone.keeps {i m : Nat} {h h' : Hub Addr} (hr : Alone i m h h') (he : h.Entered) (hs : h.Sound) :
    h'.Entered ∧ h'.Sound := by
  refine hr.inv (P := fun h => h.Entered ∧ h.Sound) ⟨he, hs⟩ fun h a h' hi hok hstep => ?_
  refine ⟨entered_step hi.1 ?_ hstep, sound_step hi.2 hstep⟩
  cases a <;> first | rfl | cases hok

variable {addr : Addr} {now : Datetime} {g : Val → Nat → Signals Addr Nat → Bool × List IecEvent × Signals Addr Nat}

theorem order_done (hg : PassesOn addr now g) {h : Hub Addr} {i m : Nat} {f : Bytes} {val : Val} {ioa : Nat}
    {os : List Command} {l : Line Addr} (he : h.Entered) (hs : h.Sound)
    (hl : h.lines[i]? = some { l with job := some ⟨f, now, (val, ioa) :: os⟩ }) (hm : m ≤ h.calls.length)
    (hret : h.returned i = true) (hc : h.client i = some addr) :
    ∃ h' told, Alone i m h h' ∧ m ≤ h'.calls.length ∧ h'.returned i = true ∧ h'.client i = some addr ∧
      h'.storage = (g val ioa h.storage).2.2 ∧ told.map Event.iec = (g val ioa h.storage).2.1 ∧
      Served h h' i (give { l with job := some ⟨f, now, os⟩ } (told.map Event.iec)) told := by
  have hread := hs.read i _ _ hl rfl (val, ioa) List.mem_cons_self
  obtain ⟨c, hcom⟩ := commit_goes hs.stored (u := { val, ioa := some (ioa : Int) }) (by simp)
    (isFloat_readOff hread) now
  have hlt : i < h.lines.length := (List.getElem?_eq_some_iff.mp hl).1
  have hsub : subscribed i h.log = true := by
    rw [he.told, hc]
    rfl
  have hstep : h.step (.order i now) =
      some ((h.committed (some i) c).setLine i { l with job := some ⟨f, now, os⟩ }) := by
    simp [step, hl, hret, hcom]
  have halone : Alone i m h ((h.committed (some i) c).setLine i { l with job := some ⟨f, now, os⟩ }) :=
    .step (a := .order i now) .init (beq_self_eq_true i) hstep
  rw [hg val ioa h.storage c hcom, (he.entry addr i).mpr hc]
  have hl₁ : (h.committed (some i) c).lines[i]? = some { l with job := some ⟨f, now, (val, ioa) :: os⟩ } := hl
  have hclient : ((h.committed (some i) c).setLine i { l with job := some ⟨f, now, os⟩ }).client i = some addr :=
    (setLine_client (l := { l with job := some ⟨f, now, os⟩ }) hl₁ rfl Iff.rfl i).trans hc
  cases hev : c.event with
  | none =>
    have hcalls : (h.committed (some i) c).calls = h.calls := by rw [committed_none h (some i) hev]
    have hlog : (h.committed (some i) c).log = h.log := by rw [committed_none h (some i) hev]
    refine ⟨_, [], halone, ?_, returned_iff.mpr ?_, hclient, rfl, rfl, ?_,
      fun _ hm => absurd hm List.not_mem_nil, ?_, fun j hj => ?_⟩
    · show m ≤ (h.committed (some i) c).calls.length
      rw [hcalls]
      exact hm
    · show ∀ call ∈ (h.committed (some i) c).calls, _
      rw [hcalls]
      exact returned_iff.mp hret
    · exact hlog.trans (List.append_nil _).symm
    · rw [setLine_get hl₁, if_pos rfl, List.map_nil, give_nil]
    · rw [setLine_get hl₁, if_neg hj]
      show h.lines[j]? = _
      cases h.lines[j]? with
      | none => rfl
      | some l => simp
  | some event =>
    have hcalls : (h.committed (some i) c).calls = h.calls ++ [⟨some i, .update event h.storage.subs.values⟩] := by
      rw [committed_some h (some i) hcom hev]
    have hlog : (h.committed (some i) c).log = h.log ++ [.wrote event] := by
      rw [committed_some h (some i) hcom hev]
    have hnew : ((h.committed (some i) c).setLine i { l with job := some ⟨f, now, os⟩ }).calls[h.calls.length]? =
        some ⟨some i, .update event h.storage.subs.values⟩ := by
      show (h.committed (some i) c).calls[h.calls.length]? = _
      rw [hcalls, List.getElem?_concat_length]
    have haim : ∀ q ∈ h.storage.subs.values,
        q < ((h.committed (some i) c).setLine i { l with job := some ⟨f, now, os⟩ }).lines.length := by
      intro q hq
      obtain ⟨addr', ha⟩ := Dict.mem_values.mp hq
      rw [setLine_length]
      exact client_lt ((he.entry addr' q).mp ha)
    obtain ⟨h', hr, ht⟩ := turns_update hm h.storage.subs.values hnew haim
    have hgiven : ∀ j, List.replicate (h.storage.subs.values.count j) event.iec =
        if subscribed j h.log then [event.iec] else [] := by
      intro j
      rw [he.count j]
      by_cases hj : subscribed j h.log = true
      · rw [if_pos hj, if_pos hj]
        rfl
      · rw [if_neg hj, if_neg hj]
        rfl
    have hend : h'.calls = (h.calls ++ [(⟨some i, .update event h.storage.subs.values⟩ : Pending)]).set
        h.calls.length ⟨some i, .update event []⟩ := by
      rw [← hcalls]
      exact ht.calls
    refine ⟨h', [event], Reach.trans halone hr, ?_, returned_done hret hend rfl, ?_, ht.storage, rfl,
      ?_, fun event' hm => ?_, ?_, fun j hj => ?_⟩
    · rw [hend, List.length_set, List.length_append]
      exact Nat.le_add_right_of_le hm
    · rw [client, ht.lines, setLine_get hl₁, if_pos rfl]
      rw [client, hl] at hc
      exact hc
    · rw [ht.log]
      exact hlog
    · rw [List.mem_singleton.mp hm]
      exact commit_news hcom hev
    · rw [ht.lines, setLine_get hl₁, if_pos rfl, hgiven, if_pos hsub]
      rfl
    · rw [ht.lines, setLine_get hl₁, if_neg hj, hgiven]
      rfl

theorem orders_done (hg : PassesOn addr now g) (os : List Command) {h : Hub Addr} {i m : Nat} {f : Bytes}
    {l : Line Addr} (he : h.Entered) (hs : h.Sound) (hl : h.lines[i]? = some { l with job := some ⟨f, now, os⟩ })
    (hm : m ≤ h.calls.length) (hret : h.returned i = true) (hc : h.client i = some addr) :
    ∃ h' told, Alone i m h h' ∧ h'.returned i = true ∧ h'.storage = (obeyed g h.storage os).2 ∧
      told.map Event.iec = (obeyed g h.storage os).1 ∧
      Served h h' i (give { l with job := some ⟨f, now, []⟩ } (told.map Event.iec)) told := by
  induction os generalizing h l with
  | nil =>
    refine ⟨h, [], .init, hret, rfl, rfl, (List.append_nil _).symm, fun _ hm => absurd hm List.not_mem_nil, ?_,
      fun j _ => ?_⟩
    · rw [List.map_nil, give_nil]
      exact hl
    · cases h.lines[j]? with
      | none => rfl
      | some l => simp
  | cons o os ih =>
    obtain ⟨val, ioa⟩ := o
    obtain ⟨h₁, told₁, hr₁, hm₁, hret₁, hc₁, hst₁, htold₁, hs₁⟩ := order_done hg he hs hl hm hret hc
    obtain ⟨he', hs'⟩ := hr₁.keeps he hs
    obtain ⟨h', told, hr, hret', hst, htold, hs₂⟩ :=
      ih (l := give l (told₁.map Event.iec)) he' hs' hs₁.line hm₁ hret₁ hc₁
    refine ⟨h', told₁ ++ told, Reach.trans hr₁ hr, hret', ?_, ?_, ?_⟩
    · rw [hst, hst₁, obeyed]
    · rw [List.map_append, htold, htold₁, hst₁, obeyed]
    · have hgive : give { l with job := some ⟨f, now, []⟩ } ((told₁ ++ told).map Event.iec) =
          give { give l (told₁.map Event.iec) with job := some ⟨f, now, []⟩ } (told.map Event.iec) := by
        simp [give]
      rw [hgive]
      exact hs₁.trans hs₂

/-! ## A whole frame -/

omit [DecidableEq Addr] in
/-- The signals of the snapshot are those of the table. -/
theorem readings_all (s : Signals Addr Nat) : readings s s.signals.keys = interrogated s := by
  have hread : (s.signals.keys.filterMap fun id => (s.signals.get id).map fun sg => sg.event 20) = s.getAllForGi := by
    rw [DataStorage.getAllForGi, ← Dict.filterMap_keys, List.map_filterMap]
  rw [readings, hread]
  rfl

theorem finish_goes {h : Hub Addr} {i : Nat} {f : Bytes} {now : Datetime} {l : Line Addr}
    (hl : h.lines[i]? = some { l with job := some ⟨f, now, []⟩ }) (hret : h.returned i = true)
    (hfree : l.conn.receiver = .free) (hframe : IsFrame f) : h.step (.finish i) = some (h.setLine i { l with
      job := none
      conn := { l.conn with
        st := (procFrame posting now f ⟨l.conn.st, (), [], []⟩).2.st
        receiver := .handling (procFrame posting now f ⟨l.conn.st, (), [], []⟩).1.toOption
          (procFrame posting now f ⟨l.conn.st, (), [], []⟩).2.puts
        log := l.conn.log ++ [.got f] } }) := by
  simp [step, hl, hret, Conn.step, Conn.recvStep, hfree, hframe]

/-- The end of the handler, behind what it has put. -/
theorem finish_served {h h₂ : Hub Addr} {i m : Nat} {f : Bytes} {l : Line Addr} {puts : List IecEvent}
    {told : List (Event Val)} (hs : Served h h₂ i (give { l with job := some ⟨f, now, []⟩ } puts) told)
    (hret : h₂.returned i = true) (hfree : l.conn.receiver = .free) (hframe : IsFrame f) :
    ∃ h', Alone i m h₂ h' ∧ h'.storage = h₂.storage ∧ Served h h' i { l with
      job := none
      conn := { l.conn with
        st := (procFrame posting now f ⟨l.conn.st, (), [], []⟩).2.st
        que := l.conn.que ++ puts
        receiver := .handling (procFrame posting now f ⟨l.conn.st, (), [], []⟩).1.toOption
          (procFrame posting now f ⟨l.conn.st, (), [], []⟩).2.puts
        log := l.conn.log ++ puts.map .put ++ [.got f] } } told := by
  have hstep := finish_goes (l := give l puts) hs.line hret hfree hframe
  refine ⟨_, .step (a := .finish i) .init (beq_self_eq_true i) hstep, rfl, hs.log, hs.news, ?_, fun j hj => ?_⟩
  · rw [setLine_get hs.line, if_pos rfl]
    rfl
  · rw [setLine_get hs.line, if_neg hj]
    exact hs.others j hj

structure Ready (h : Hub Addr) (i : Nat) (l : Line Addr) (f : Bytes) : Prop where
  line : h.lines[i]? = some l
  serving : l.phase = .serving
  job : l.job = none
  free : l.conn.receiver = .free
  frame : IsFrame f

theorem Ready.takes {h : Hub Addr} {i : Nat} {l : Line Addr} {f : Bytes} (hw : h.Ready i l f) (now : Datetime) :
    Alone i h.calls.length h { h.setLine i { l with job := some ⟨f, now, orders now f l.conn.st⟩ } with
      calls := h.calls ++ h.gi i l.conn.st f now } := by
  refine .step (a := .recv i f now) .init (beq_self_eq_true i) ?_
  simp [step, hw.line, hw.serving, hw.job, hw.free, hw.frame]

/-- An interrogation: nothing is written, and what is read goes to the queue of this connection. -/
theorem gi_done (now : Datetime) {h : Hub Addr} {i : Nat} {l : Line Addr} {f : Bytes} (hw : h.Ready i l f)
    (hret : h.returned i = true) (hi : interrogates now f l.conn.st = true) :
    ∃ h₂, Alone i h.calls.length h h₂ ∧ h₂.returned i = true ∧ h₂.storage = h.storage ∧
      Served h h₂ i (give { l with job := some ⟨f, now, []⟩ } (interrogated h.storage)) [] := by
  have hlt : i < h.lines.length := (List.getElem?_eq_some_iff.mp hw.line).1
  have halone := hw.takes now
  rw [orders_of_interrogates hi, show h.gi i l.conn.st f now = _ from if_pos hi] at halone
  obtain ⟨h₂, hr, ht⟩ := turns_gi (i := i) (m := h.calls.length) (Nat.le_refl _) h.storage.signals.keys
    (h := { h.setLine i { l with job := some ⟨f, now, []⟩ } with
      calls := h.calls ++ [⟨some i, .gi i h.storage.signals.keys none⟩] })
    List.getElem?_concat_length (by rw [show _ = h.lines.length from setLine_length h i _]; exact hlt)
  have hlines : ∀ j, h₂.lines[j]? = (if j = i then some { l with job := some ⟨f, now, []⟩ } else h.lines[j]?).map
      fun l => give l (if j = i then interrogated h.storage else []) := by
    intro j
    rw [ht.lines, ← readings_all]
    exact congrArg (Option.map _) (setLine_get hw.line _ j)
  refine ⟨h₂, Reach.trans halone hr, returned_done hret ht.calls rfl, ht.storage,
    ht.log.trans (List.append_nil _).symm, fun _ hm => absurd hm List.not_mem_nil, ?_, fun j hj => ?_⟩
  · rw [hlines, if_pos rfl, if_pos rfl]
    rfl
  · rw [hlines, if_neg hj, if_neg hj, List.map_nil, ite_self]

/-- Commands, or nothing to do. -/
theorem commands_done (hg : PassesOn addr now g) {h : Hub Addr} {i : Nat} {l : Line Addr} {f : Bytes} (he : h.Entered)
    (hs : h.Sound) (hw : h.Ready i l f) (hc : h.client i = some addr) (hi : interrogates now f l.conn.st = false) :
    ∃ h₂ told, Alone i h.calls.length h h₂ ∧ h₂.returned i = true ∧
      h₂.storage = (obeyed g h.storage (orders now f l.conn.st)).2 ∧
      told.map Event.iec = (obeyed g h.storage (orders now f l.conn.st)).1 ∧
      Served h h₂ i (give { l with job := some ⟨f, now, []⟩ } (told.map Event.iec)) told := by
  have halone := hw.takes now
  have hgi : h.gi i l.conn.st f now = [] := by
    rw [gi, hi]
    rfl
  rw [hgi, List.append_nil] at halone
  obtain ⟨he₁, hs₁⟩ := halone.keeps he hs
  have hl₁ := (setLine_get hw.line { l with job := some ⟨f, now, orders now f l.conn.st⟩ } i).trans (if_pos rfl)
  have hc₁ := (setLine_client (l := { l with job := some ⟨f, now, orders now f l.conn.st⟩ }) hw.line rfl
    Iff.rfl i).trans hc
  obtain ⟨h₂, told, hr, hret, hst, htold, hserved⟩ :=
    orders_done hg (orders now f l.conn.st) he₁ hs₁ hl₁ (Nat.le_refl _) (hs.idle i l hw.line hw.job) hc₁
  refine ⟨h₂, told, Reach.trans halone hr, hret, hst, htold, hserved.log, hserved.news, hserved.line, fun j hj => ?_⟩
  rw [hserved.others j hj]
  exact congrArg (Option.map _) ((setLine_get hw.line _ j).trans (if_neg hj))

/-- From every state the server can reach, a receive thread that is left to itself handles a frame as `proc_frame`
    does in one step: the storage, its connection's state and queue, and its answer are the same, the events it
    has written are put to every other subscriber once, and no other connection is touched. -/
theorem uninterrupted (conf : Conf) (ca : Int) (t : Datetime) (rows : List Row) (h : Hub Addr)
    (hr : Reach step (fun h a => h.addressFree a = true) (start conf ca t rows) h) (i : Nat) (l : Line Addr)
    (hl : h.lines[i]? = some l) (hserving : l.phase = .serving) (hjob : l.job = none)
    (hfree : l.conn.receiver = .free) (f : Bytes) (hframe : IsFrame f) (now : Datetime) :
    let r := procFrame (serving l.addr now) now f ⟨l.conn.st, h.storage, [], []⟩
    ∃ h' told puts rest, Alone i h.calls.length h h' ∧ h'.storage = r.2.store ∧ r.2.puts = puts ++ rest ∧
      (r.2.puts.filter fun ev => ev.cot = 3) = told.map Event.iec ∧
      Served h h' i { l with conn := { l.conn with
        st := r.2.st
        que := l.conn.que ++ puts
        receiver := .handling r.1.toOption rest
        log := l.conn.log ++ puts.map .put ++ [.got f] } } told := by
  intro r
  obtain ⟨he, hs⟩ : h.Entered ∧ h.Sound := hr.inv (P := fun h => h.Entered ∧ h.Sound)
    ⟨entered_start conf ca t rows, sound_start conf ca t rows⟩
    fun _ _ _ hi hok hstep => ⟨entered_step hi.1 hok hstep, sound_step hi.2 hstep⟩
  have hw : h.Ready i l f := ⟨hl, hserving, hjob, hfree, hframe⟩
  have hret := hs.idle i l hl hjob
  have hc : h.client i = some l.addr := by
    rw [client, hl]
    simp [hserving]
  obtain ⟨g, hg, hpass⟩ := serving_onCommand l.addr now
  obtain ⟨hres, hst, hstore, hputs⟩ := procFrame_carried hg rfl now f ⟨l.conn.st, h.storage, [], []⟩
  have hown := posting_puts now f l.conn.st
  by_cases hi : interrogates now f l.conn.st = true
  · rw [if_pos hi] at hown hputs
    have hputs' : r.2.puts = interrogated h.storage ++ [giTermination now] := hputs
    obtain ⟨h₂, hr₂, hret₂, hst₂, hserved⟩ := gi_done now hw hret hi
    obtain ⟨h', hr', hst', hs'⟩ := finish_served (m := h.calls.length) hserved hret₂ hfree hframe
    refine ⟨h', [], interrogated h.storage, [giTermination now], Reach.trans hr₂ hr', ?_, hputs', ?_, ?_⟩
    · rw [hst', hst₂, hstore, orders_of_interrogates hi]
      rfl
    · refine List.filter_eq_nil_iff.mpr fun ev hm => ?_
      rw [hputs'] at hm
      rcases List.mem_append.mp hm with hm | hm
      · rw [(interrogated_cot hm).2]
        decide
      · rw [List.mem_singleton.mp hm]
        simp [giTermination]
    · rw [← hjob, ← hres, ← hst, hown] at hs'
      exact hs'
  · rw [if_neg hi] at hown hputs
    obtain ⟨h₂, told, hr₂, hret₂, hst₂, htold, hserved⟩ := commands_done hpass he hs hw hc (Bool.eq_false_iff.mpr hi)
    obtain ⟨h', hr', hst', hs'⟩ := finish_served (m := h.calls.length) hserved hret₂ hfree hframe
    have htold' : r.2.puts = told.map Event.iec := by rw [hputs, htold, List.nil_append]
    refine ⟨h', told, told.map Event.iec, [], Reach.trans hr₂ hr', ?_, ?_, ?_, ?_⟩
    · rw [hst', hst₂, hstore]
    · rw [htold', List.append_nil]
    · rw [htold']
      refine List.filter_eq_self.mpr fun ev hm => ?_
      obtain ⟨event, hev, rfl⟩ := List.mem_map.mp hm
      exact decide_eq_true (hserved.news event hev)
    · rw [← hjob, ← hres, ← hst, hown] at hs'
      exact hs'

end Steps

theorem uninterrupted_close : ∃ (h h' : Hub String) (told : List (Event Val)), h.client 0 = some "first" ∧
    Alone 0 h.calls.length h h' ∧ told.map (fun event => event.ioa) = [100] ∧
    h'.log = h.log ++ told.map .wrote := by
  have hr : Reach step (fun h a => h.addressFree a = true) (start kp1Conf 1 sampleTime [switchRow])
      ((start kp1Conf 1 sampleTime [switchRow] : Hub String).opened "first") :=
    .step (a := .accept "first") .init rfl rfl
  obtain ⟨h', told, puts, rest, hal, -, -, htold, hs⟩ := uninterrupted kp1Conf 1 sampleTime [switchRow] _ hr 0 _ rfl
    rfl rfl rfl closeFrame (by decide) sampleTime
  refine ⟨_, h', told, rfl, hal, ?_, hs.log⟩
  have hioa : ((told.map Event.iec).map fun ev => ev.ioa) = [100] := by
    rw [← htold]
    decide +kernel
  rw [List.map_map] at hioa
  exact hioa

end Hub

end Drv60870.Server
