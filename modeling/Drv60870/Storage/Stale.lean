/-
  Drv60870.Storage.Stale — a stale event on its way.

  The calls in flight can be run to their ends in any order, so an event that a later commit
  made stale can be the last of its signal to arrive.

  Proved:
  - Any one call can be left to finish last (`drain_others`), and then its event has the last word
    (`lastWord_of_others`); so a stale event on its way is enough to end stale
    (`stale_unsound`).
  - The queues end fresh, however the calls in flight finish at any point of the run, exactly in
    the runs where no update is written while an event of its signal that says otherwise is on
    its way (`never_stale_iff`).
  - A put that is overtaken by a newer one breaks it (`an_older_value_comes_last`).
  - Where no other call is in flight, `update_val` does what it does in a sequential history
    (`update_alone`).
-/

import Drv60870.Storage.Delivery
import Drv60870.Storage.History

namespace Drv60870.Storage

open Lib Lib.Calendar Lib.Python Lib.Runs

variable {C Q V T : Type}

/-! ## Finishing the calls -/

/-- The turns a call still needs, at most. -/
def Flight.work : Flight Q V → Nat
  | update _ targets => targets.length
  | gi _ snapshot none => 2 * snapshot.length
  | gi _ snapshot (some _) => 2 * snapshot.length + 1

theorem Flight.advance_of_not_done {call : Flight Q V} (s : DataStorage C Q V T) (h : call.done = false) :
    ∃ out call', call.advance s = some (out, call') ∧ call'.work < call.work := by
  cases call with
  | update event targets =>
    cases targets with
    | nil => cases h
    | cons q targets => exact ⟨_, _, rfl, Nat.lt_succ_self _⟩
  | gi outQue snapshot held =>
    cases held with
    | some event => exact ⟨_, _, by simp only [advance]; rfl, Nat.lt_succ_self _⟩
    | none =>
      cases snapshot with
      | nil => cases h
      | cons id snapshot =>
        refine ⟨_, _, rfl, ?_⟩
        cases (s.signals.get id).map fun sg => sg.event 20 with
        | none => simp [work]
        | some event =>
          simp only [work, List.length_cons]
          omega

namespace World

variable [DecidableEq C] [DecidableEq Q] [Deadband V T]

theorem drain (w : World C Q V T) {i : Nat} {call : Flight Q V} (h : w.calls[i]? = some call) :
    ∃ t call', w.GoesOn t ∧ t.storage = w.storage ∧ t.calls = w.calls.set i call' ∧ call'.done = true := by
  obtain ⟨n, hn⟩ : ∃ n, call.work = n := ⟨_, rfl⟩
  induction n using Nat.strongRecOn generalizing w call with
  | _ n ih =>
    obtain ⟨hlt, hget⟩ := List.getElem?_eq_some_iff.mp h
    cases hd : call.done with
    | true => exact ⟨w, call, .init, rfl, by rw [← hget, List.set_getElem_self], hd⟩
    | false =>
      obtain ⟨out, call₁, ha, hwork⟩ := Flight.advance_of_not_done w.storage hd
      have hstep : w.step (.turn i) = some { w.put out with calls := w.calls.set i call₁ } := by
        simp [World.step, h, ha]
      have hcall : (w.calls.set i call₁)[i]? = some call₁ := List.getElem?_set_self hlt
      obtain ⟨t, call', ht, hst, hcalls, hdone⟩ :=
        ih call₁.work (by omega) { w.put out with calls := w.calls.set i call₁ } hcall rfl
      refine ⟨t, call', Reach.trans (.step .init rfl hstep) ht, ?_, ?_, hdone⟩
      · rw [hst]
        exact put_storage w out
      · rw [hcalls, List.set_set]

theorem drain_list (w : World C Q V T) (js : List Nat) :
    ∃ t, w.GoesOn t ∧ t.storage = w.storage ∧ t.calls.length = w.calls.length ∧
      (∀ k, k ∉ js → t.calls[k]? = w.calls[k]?) ∧ ∀ j ∈ js, ∀ call, t.calls[j]? = some call → call.done = true := by
  induction js generalizing w with
  | nil => exact ⟨w, .init, rfl, rfl, fun _ _ => rfl, fun j hj => (by cases hj)⟩
  | cons j js ih =>
    cases hj : w.calls[j]? with
    | none =>
      obtain ⟨t, ht, hst, hlen, hkeep, hdone⟩ := ih w
      refine ⟨t, ht, hst, hlen, fun k hk => hkeep k fun h => hk (List.mem_cons_of_mem _ h), ?_⟩
      intro k hk call hc
      rcases List.mem_cons.mp hk with rfl | hk
      · have hlt := (List.getElem?_eq_some_iff.mp hc).1
        rw [hlen] at hlt
        rw [List.getElem?_eq_getElem hlt] at hj
        cases hj
      · exact hdone k hk call hc
    | some call =>
      obtain ⟨w₁, call', ht₁, hst₁, hcalls, hd⟩ := w.drain hj
      obtain ⟨t, ht, hst, hlen, hkeep, hdone⟩ := ih w₁
      refine ⟨t, Reach.trans ht₁ ht, by rw [hst, hst₁], by rw [hlen, hcalls, List.length_set], ?_, ?_⟩
      · intro k hk
        have hne : j ≠ k := fun h => hk (h ▸ List.mem_cons_self)
        rw [hkeep k fun h => hk (List.mem_cons_of_mem _ h), hcalls, List.getElem?_set_ne hne]
      · intro k hk c hc
        by_cases hm : k ∈ js
        · exact hdone k hm c hc
        · rcases List.mem_cons.mp hk with rfl | hk
          · rw [hkeep k hm, hcalls, List.getElem?_set_self (List.getElem?_eq_some_iff.mp hj).1] at hc
            cases hc
            exact hd
          · exact absurd hk hm

/-! ## A call alone -/

theorem goesOn_puts (s : DataStorage C Q V T) (event : Event V) (targets : List Q) (queues : Q → List (Event V)) :
    GoesOn ⟨s, queues, [.update event targets]⟩ ⟨s, History.putAll queues event targets, [.update event []]⟩ := by
  induction targets generalizing queues with
  | nil => exact .init
  | cons q targets ih =>
    have hstep : World.step ⟨s, queues, [.update event (q :: targets)]⟩ (.turn 0) =
        some ⟨s, putNowait queues q event, [.update event targets]⟩ := rfl
    exact Reach.trans (.step .init rfl hstep) (ih _)

/-- Where no other call is in flight, `update_val` does what it does in a sequential history. -/
theorem update_alone {w : World C Q V T} (h : w.calls = []) (now : Datetime) (u : Update V) :
    ∃ w' t, w.step (.update now u) = some w' ∧ w'.GoesOn t ∧ t.Settled ∧
      History.World.mk t.storage t.queues = (History.World.updateVal ⟨w.storage, w.queues⟩ now u).2 := by
  obtain ⟨s, queues, calls⟩ := w
  cases h
  simp only [World.step, History.World.updateVal]
  cases s.commit now u with
  | error e => exact ⟨_, _, rfl, .init, fun call hc => (by cases hc), rfl⟩
  | ok c =>
    obtain ⟨updated, s', event⟩ := c
    cases event with
    | none => exact ⟨_, _, rfl, .init, fun call hc => (by cases hc), rfl⟩
    | some event =>
      refine ⟨_, _, rfl, goesOn_puts s' event s'.subs.values queues, fun call hc => ?_, rfl⟩
      rw [List.mem_singleton.mp hc]
      rfl

/-! ## A stale event on its way -/

theorem turn_unread {w w' : World C Q V T} {i : Nat} (h : w.step (.turn i) = some w') :
    ∀ id ∈ w'.unread, id ∈ w.unread := by
  obtain ⟨l, call, r, out, call', hl, -, ha, rfl⟩ := turn_cases h
  simp only [World.unread, hl, List.flatMap_append, List.flatMap_cons, List.mem_append]
  intro id hid
  rcases hid with hid | hid | hid
  · exact .inl hid
  · exact .inr (.inl (Flight.advance_unread ha id hid))
  · exact .inr (.inr hid)

/-- The event is the only one of its signal that can still come to the queue, or came last. -/
structure LastWord (w : World C Q V T) (q : Q) (event : Event V) : Prop where
  keyed : w.storage.Keyed
  coming : (q, event) ∈ w.inHand ∨ lastOf event.id (w.queues q) = some event
  only : ∀ p ∈ w.inHand, p.2.id = event.id → p.2 = event
  unread : event.id ∉ w.unread

theorem LastWord.turn {w w' : World C Q V T} {q : Q} {event : Event V} {i : Nat} (h : w.LastWord q event)
    (hs : w.step (.turn i) = some w') : w'.LastWord q event := by
  obtain ⟨out, hst, hqu, hout, hkeep, hnew⟩ := turn_inHand hs
  refine ⟨by rw [hst]; exact h.keyed, ?_, ?_, fun hid => h.unread (turn_unread hs _ hid)⟩
  · rw [hqu]
    cases out with
    | none =>
      rcases h.coming with hm | hl
      · rcases hkeep _ hm with ho | hm
        · cases ho
        · exact .inl hm
      · exact .inr hl
    | some p =>
      rw [lastOf_put]
      by_cases hp : q = p.1 ∧ p.2.id = event.id
      · rw [if_pos hp, h.only p (hout p rfl) hp.2]
        exact .inr rfl
      · rw [if_neg hp]
        rcases h.coming with hm | hl
        · rcases hkeep _ hm with ho | hm
          · cases ho
            exact absurd ⟨rfl, rfl⟩ hp
          · exact .inl hm
        · exact .inr hl
  · intro p hp hid
    rcases hnew p hp with hp | ⟨id, hun, sg, hg, he⟩
    · exact h.only p hp hid
    · have hsg : p.2.id = id := by
        rw [he]
        exact h.keyed id sg hg
      rw [← hsg, hid] at hun
      exact absurd hun h.unread

omit [DecidableEq C] [DecidableEq Q] [Deadband V T] in
theorem LastWord.settled {w : World C Q V T} {q : Q} {event : Event V} (h : w.LastWord q event) (hs : w.Settled) :
    lastOf event.id (w.queues q) = some event := by
  rcases h.coming with hm | hl
  · rw [hs.inHand] at hm
    cases hm
  · exact hl

theorem drain_others (w : World C Q V T) {i : Nat} {call : Flight Q V} (hi : w.calls[i]? = some call) :
    ∃ t, w.GoesOn t ∧ t.storage = w.storage ∧ t.calls[i]? = some call ∧
      ∀ k c, t.calls[k]? = some c → k ≠ i → c.done = true := by
  obtain ⟨t, ht, hst, hlen, hkeep, hdone⟩ := w.drain_list ((List.range w.calls.length).filter fun k => k ≠ i)
  refine ⟨t, ht, hst, by rw [hkeep i (by simp), hi], fun k c hk hne => hdone k ?_ c hk⟩
  have hlt := (List.getElem?_eq_some_iff.mp hk).1
  simp only [List.mem_filter, List.mem_range, decide_eq_true_eq]
  exact ⟨by omega, hne⟩

omit [DecidableEq C] [DecidableEq Q] [Deadband V T] in
/-- Where all other calls are done, the event a call has in hand has the last word. -/
theorem lastWord_of_others {t : World C Q V T} (hk : t.storage.Keyed) {i : Nat} {call : Flight Q V}
    (hb : call.Bound t.storage) (hi : t.calls[i]? = some call)
    (hothers : ∀ k c, t.calls[k]? = some c → k ≠ i → c.done = true) {p : Q × Event V} (hp : p ∈ call.inHand) :
    t.LastWord p.1 p.2 := by
  obtain ⟨hone, hun⟩ := hb.single hp
  have hmem : ∀ c ∈ t.calls, c = call ∨ c.done = true := by
    intro c hc
    obtain ⟨k, hk⟩ := List.mem_iff_getElem?.mp hc
    by_cases hki : k = i
    · rw [hki, hi] at hk
      exact .inl (Option.some.inj hk).symm
    · exact .inr (hothers k c hk hki)
  refine ⟨hk, .inl (List.mem_flatMap.mpr ⟨call, List.mem_of_getElem? hi, hp⟩), ?_, ?_⟩
  · intro p' hp' _
    obtain ⟨c, hc, hp'⟩ := List.mem_flatMap.mp hp'
    rcases hmem c hc with rfl | hd
    · exact hone p' hp'
    · rw [(Flight.inHand_of_done hd).1] at hp'
      cases hp'
  · intro hid
    obtain ⟨c, hc, hid⟩ := List.mem_flatMap.mp hid
    rcases hmem c hc with rfl | hd
    · exact hun hid
    · rw [(Flight.inHand_of_done hd).2] at hid
      cases hid

/-- A stale event on its way can be the last of its signal to arrive. -/
theorem stale_unsound {w : World C Q V T} (h : w.Inv) {p : Q × Event V} (hp : p ∈ w.inHand) {sg : SignalConf V T}
    (hg : w.storage.signals.get p.2.id = some sg) (hstale : ¬ sg.Carries p.2) : ¬ w.Sound := by
  intro hsound
  obtain ⟨hsub, sg', hg', hasdu⟩ := h.inHand hp
  rw [hg] at hg'
  cases hg'
  obtain ⟨call, hc, hpc⟩ := List.mem_flatMap.mp hp
  obtain ⟨i, hi⟩ := List.mem_iff_getElem?.mp hc
  -- every other call finishes first, then the one that holds it
  obtain ⟨t, ht, hst, hti, hothers⟩ := w.drain_others hi
  obtain ⟨t', call', ht', hst', hcalls, hd⟩ := t.drain hti
  have hlast : t.LastWord p.1 p.2 :=
    lastWord_of_others (by rw [hst]; exact h.keyed) (by rw [hst]; exact h.bound call hc) hti hothers hpc
  have hlast' : t'.LastWord p.1 p.2 :=
    ht'.inv (P := fun w => w.LastWord p.1 p.2) hlast fun _ _ _ hw hstep => LastWord.turn hw hstep
  have hsettled : t'.Settled := by
    intro c hc
    obtain ⟨k, hk⟩ := List.mem_iff_getElem?.mp hc
    rw [hcalls] at hk
    by_cases hki : i = k
    · rw [← hki, List.getElem?_set_self (List.getElem?_eq_some_iff.mp hti).1] at hk
      cases hk
      exact hd
    · rw [List.getElem?_set_ne hki] at hk
      exact hothers k c hk fun h => hki h.symm
  have hfresh := hsound t' (Reach.trans ht ht') hsettled
  rw [Fresh, hst', hst] at hfresh
  exact hstale (hfresh p.1 hsub p.2.id sg hg hasdu p.2 (hlast'.settled hsettled))

/-- An update that contradicts an event on its way leaves the queues to end stale. -/
theorem inTurn_of_sound {w w' : World C Q V T} {m : Move C V} (h : w.Clear) (hs : w.step m = some w')
    (hsound : w'.Sound) : w.InTurn m := by
  cases m with
  | turn i => trivial
  | gi client => trivial
  | update now u =>
    intro id hwr p hp hid
    rcases update_cases hs with ⟨-, hno⟩ | ⟨id', sg, hwr', hg, hw'⟩
    · exact absurd hwr (hno id)
    · cases hwr.unique hwr'
      by_contra hn
      have hpw : p ∈ w'.inHand := by
        rw [hw', World.inHand, List.flatMap_append]
        exact List.mem_append_left _ hp
      have hget : w'.storage.signals.get p.2.id = some (sg.written now u) := by
        rw [hw', hid]
        exact Dict.get_set_self ..
      exact stale_unsound (h.toInv.step hs) hpw hget hn hsound

/-- The queues end fresh, however the calls in flight finish at any point of the run, exactly
    when no update of the run contradicts an event of its signal on its way. -/
theorem never_stale_iff {w t : World C Q V T} {ms : List (Move C V)} (h : w.Ready) (hr : run step w ms = some t) :
    Along step Sound w ms ↔ Obeys step InTurn w ms :=
  along_iff_obeys_of (J := Clear) (fun _ _ _ hc hok hs => hc.step hok hs) (fun _ hc => hc.sound)
    (fun _ _ _ hc hs hsound => inTurn_of_sound hc hs hsound) h.clear hr

/-! ## Two updates -/

def oneSignal : Signals Nat Nat := (DataStorage.empty.addSignal sampleTime 1 100 36 none).2.subscribe 7 0

theorem keyed_oneSignal : oneSignal.Keyed := DataStorage.keyed_addSignal _ _ _ _ _ DataStorage.keyed_empty

def setOne (v : Int) : Move Nat Val := .update sampleTime { val := .int v, id := some 1 }

theorem never_stale_iff_two_updates : Along step Sound (start oneSignal) [setOne 1, .turn 0, setOne 2] := by
  have hrun : (run step (start oneSignal) [setOne 1, .turn 0, setOne 2]).isSome = true := by decide +kernel
  obtain ⟨t, ht⟩ := Option.isSome_iff_exists.mp hrun
  refine (never_stale_iff (ready_start keyed_oneSignal) ht).mpr ⟨?_, fun w hw => ⟨trivial, fun w' hw' => ⟨?_, ?_⟩⟩⟩
  · intro id _ p hp
    cases hp
  · have hhand : (run step (start oneSignal) [setOne 1, .turn 0]).map World.inHand = some [] := by decide +kernel
    rw [run, hw, Option.bind_some, run, hw'] at hhand
    intro id _ p hp
    rw [Option.some.inj hhand] at hp
    cases hp
  · exact fun _ _ => trivial

/-- The put of the older update comes last, and the queue ends on its value. -/
theorem an_older_value_comes_last :
    ¬ ∀ (s : Signals Nat Nat) ms t, s.Keyed → run step (start s) ms = some t → t.Settled → t.Fresh := by
  intro hall
  have hrun : (run step (start oneSignal) [setOne 1, setOne 2, .turn 1, .turn 0]).map
      (fun w => (w.calls.all Flight.done, (lastOf 1 (w.queues 0)).map Event.val, w.storage.subs.values,
        (w.storage.signals.get 1).map fun sg => (sg.asdu, sg.val))) =
      some (true, some (.int 1), [0], some (36, .int 2)) := by decide +kernel
  obtain ⟨t, ht, he⟩ := Option.map_eq_some_iff.mp hrun
  simp only [Prod.mk.injEq] at he
  obtain ⟨hdone, hlast, hsub, hsg⟩ := he
  obtain ⟨event, hlast, hval⟩ := Option.map_eq_some_iff.mp hlast
  obtain ⟨sg, hsg, he⟩ := Option.map_eq_some_iff.mp hsg
  simp only [Prod.mk.injEq] at he
  have hfresh := hall oneSignal _ t keyed_oneSignal ht (List.all_eq_true.mp hdone)
  have hcar := hfresh 0 (by rw [hsub]; decide) 1 sg hsg (by rw [he.1]; decide) event hlast
  rw [SignalConf.Carries, hval, he.2] at hcar
  exact absurd hcar.1 (by decide)

end World

end Drv60870.Storage
