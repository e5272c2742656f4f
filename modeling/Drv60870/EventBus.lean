/-
  Drv60870.EventBus — the event bus of the client (`event_bus.py`).

  A subscription gets, of every list published while it lasts, the objects of its filter,
  whatever the other subscribers do. `due` says so from the history alone, one subscription
  at a time (`Place`); what the bus does is in its table (`Follows`). A handler that raises is
  noted and passed over, and so is what closing a subscriber raises.

  Proved, for every history of calls:
  - What a subscription is due is of the filter it was made with (`due_wanted`), and it never
    gets too little (`due_length_le`).
  - The history delivers exactly what is due exactly when nothing is published while a
    subscription with an empty filter lasts (`delivered_iff`).
  - `subscribe` keeps no filter for an empty list: such a subscriber gets everything
    (`an_empty_filter_lets_everything_through`).
-/

import Mathlib.Data.Finset.Basic
import Mathlib.Data.List.Induction
import Drv60870.Lib.Dict
import Drv60870.Lib.Runs

namespace Drv60870.EventBus

open Lib

-- handlers, the functions that close them, published objects
variable {H K O : Type}

/-! ## The bus -/

structure Sub (H K : Type) where
  name : String
  ioaSet : Option (Finset Int)
  handler : H
  closeFn : Option K

structure Bus (H K : Type) where
  counter : Nat
  subs : Dict Nat (Sub H K)

/-- A call of a handler; `id` is the subscription it is made for. -/
structure Call (H O : Type) where
  id : Nat
  handler : H
  session : String
  objects : List O
  deriving DecidableEq

def createEventBus : Bus H K := ⟨0, .empty⟩

def ioaSetOf : Option (List Int) → Option (Finset Int)
  | some (ioa :: rest) => some (ioa :: rest).toFinset
  | _ => none

namespace Bus

def subscribe (b : Bus H K) (handler : H) (ioaFilter : Option (List Int)) (name : String) (closeFn : Option K) :
    Nat × Bus H K :=
  let sid := b.counter + 1
  (sid, ⟨sid, b.subs.set sid ⟨name, ioaSetOf ioaFilter, handler, closeFn⟩⟩)

/-- With the function that closes the subscriber, if there is one to call; what it raises is
    dropped. -/
def unsubscribe (b : Bus H K) (id : Nat) : Bool × Option K × Bus H K :=
  match b.subs.get id with
  | none => (false, none, b)
  | some entry => (true, entry.closeFn, { b with subs := b.subs.erase id })

def close (b : Bus H K) : List K × Bus H K :=
  (b.subs.values.filterMap Sub.closeFn, { b with subs := .empty })

end Bus

def filtered (ioa : O → Int) (ioaSet : Option (Finset Int)) (objects : List O) : List O :=
  match ioaSet with
  | some s => if s = ∅ then objects else objects.filter fun o => ioa o ∈ s
  | none => objects

/-- The loop of `publish`, with the calls made and the names of the subscribers that raised. -/
def fanOut (ioa : O → Int) (session : String) (objects : List O) (raises : Nat → Bool) :
    List (Nat × Sub H K) → List (Call H O) × List String
  | [] => ([], [])
  | (id, sub) :: snapshot =>
    let objs := filtered ioa sub.ioaSet objects
    let rest := fanOut ioa session objects raises snapshot
    if objs = [] then rest
    else (⟨id, sub.handler, session, objs⟩ :: rest.1, if raises id then sub.name :: rest.2 else rest.2)

def Bus.publish (b : Bus H K) (ioa : O → Int) (session : String) (objects : List O) (raises : Nat → Bool) :
    List (Call H O) × List String :=
  fanOut ioa session objects raises b.subs.entries

/-! ## Histories -/

/-- A call of the bus; in a publication each handler returns or raises. -/
inductive Op (H K O : Type) where
  | subscribe (handler : H) (ioaFilter : Option (List Int)) (name : String) (closeFn : Option K)
  | unsubscribe (id : Nat)
  | publish (session : String) (objects : List O) (raises : Nat → Bool)
  | close

structure World (H K O : Type) where
  bus : Bus H K
  calls : List (Call H O)

def World.step (ioa : O → Int) (w : World H K O) : Op H K O → World H K O
  | .subscribe handler ioaFilter name closeFn => { w with bus := (w.bus.subscribe handler ioaFilter name closeFn).2 }
  | .unsubscribe id => { w with bus := (w.bus.unsubscribe id).2.2 }
  | .publish session objects raises => { w with calls := w.calls ++ (w.bus.publish ioa session objects raises).1 }
  | .close => { w with bus := w.bus.close.2 }

def after (ioa : O → Int) (ops : List (Op H K O)) : World H K O :=
  ops.foldl (World.step ioa) ⟨createEventBus, []⟩

/-! ## What is due -/

/-- A subscription as the history has it: the number of subscriptions so far, what this one
    was made with, and whether it lasts. -/
structure Place (H : Type) where
  count : Nat := 0
  made : Option (H × Option (List Int)) := none
  lasts : Bool := false

def Place.next (id : Nat) (p : Place H) : Op H K O → Place H
  | .subscribe handler ioaFilter _ _ =>
    if p.count + 1 = id then ⟨p.count + 1, some (handler, ioaFilter), true⟩ else { p with count := p.count + 1 }
  | .unsubscribe i => if i = id then { p with lasts := false } else p
  | .publish _ _ _ => p
  | .close => { p with lasts := false }

def place (id : Nat) (ops : List (Op H K O)) : Place H := ops.foldl (Place.next id) {}

def Place.active (p : Place H) : Option (H × Option (List Int)) := if p.lasts then p.made else none

def wanted (ioa : O → Int) (ioaFilter : Option (List Int)) (objects : List O) : List O :=
  match ioaFilter with
  | none => objects
  | some l => objects.filter fun o => ioa o ∈ l

def callWith (id : Nat) (handler : H) (session : String) (objects : List O) : List (Call H O) :=
  if objects = [] then [] else [⟨id, handler, session, objects⟩]

/-- The call that an operation owes to a subscription. -/
def Place.due (ioa : O → Int) (id : Nat) (p : Place H) : Op H K O → List (Call H O)
  | .publish session objects _ =>
    match p.active with
    | some (handler, ioaFilter) => callWith id handler session (wanted ioa ioaFilter objects)
    | none => []
  | _ => []

def dueFrom (ioa : O → Int) (id : Nat) : Place H → List (Op H K O) → List (Call H O)
  | _, [] => []
  | p, op :: ops => p.due ioa id op ++ dueFrom ioa id (p.next id op) ops

def due (ioa : O → Int) (id : Nat) (ops : List (Op H K O)) : List (Call H O) := dueFrom ioa id {} ops

def callsFor (id : Nat) (calls : List (Call H O)) : List (Call H O) := calls.filter fun c => c.id = id

structure Delivered (ioa : O → Int) (ops : List (Op H K O)) : Prop where
  /-- Every subscription gets what it is due, in order, and nothing else. -/
  calls : ∀ id, callsFor id (after ioa ops).calls = due ioa id ops
  /-- Nothing from outside a filter. -/
  inside : ∀ c ∈ (after ioa ops).calls, ∀ handler l, (place c.id ops).made = some (handler, some l) →
    ∀ o ∈ c.objects, ioa o ∈ l

/-! ## The bus follows the history -/

theorem after_snoc (ioa : O → Int) (ops : List (Op H K O)) (op : Op H K O) :
    after ioa (ops ++ [op]) = (after ioa ops).step ioa op := by
  rw [after, List.foldl_append]
  rfl

theorem place_snoc (id : Nat) (ops : List (Op H K O)) (op : Op H K O) :
    place id (ops ++ [op]) = (place id ops).next id op := by
  rw [place, List.foldl_append]
  rfl

theorem dueFrom_append (ioa : O → Int) (id : Nat) (p : Place H) (ops ops' : List (Op H K O)) :
    dueFrom ioa id p (ops ++ ops') = dueFrom ioa id p ops ++ dueFrom ioa id (ops.foldl (Place.next id) p) ops' := by
  induction ops generalizing p with
  | nil => rfl
  | cons op ops ih => rw [List.cons_append, dueFrom, dueFrom, ih, List.append_assoc, List.foldl_cons]

theorem due_snoc (ioa : O → Int) (id : Nat) (ops : List (Op H K O)) (op : Op H K O) :
    due ioa id (ops ++ [op]) = due ioa id ops ++ (place id ops).due ioa id op := by
  rw [due, dueFrom_append, dueFrom, dueFrom, List.append_nil]
  rfl

/-- The bus holds the subscriptions that last, with the filter as `subscribe` keeps it. -/
structure Follows (ops : List (Op H K O)) (b : Bus H K) (id : Nat) : Prop where
  counter : b.counter = (place id ops).count
  entry : (b.subs.get id).map (fun sub => (sub.handler, sub.ioaSet)) =
    (place id ops).active.map fun m => (m.1, ioaSetOf m.2)
  /-- A subscription that has not been made is not there. -/
  fresh : (place id ops).count < id → (place id ops).made = none

theorem follows_step (ioa : O → Int) {ops : List (Op H K O)} {w : World H K O} {id : Nat} (h : Follows ops w.bus id)
    (op : Op H K O) : Follows (ops ++ [op]) (w.step ioa op).bus id := by
  have hp := place_snoc id ops op
  cases op with
  | subscribe handler ioaFilter name closeFn =>
    have hc : w.bus.counter + 1 = (place id ops).count + 1 := by rw [h.counter]
    by_cases hid : (place id ops).count + 1 = id
    · have hp' : place id (ops ++ [.subscribe handler ioaFilter name closeFn]) =
          ⟨(place id ops).count + 1, some (handler, ioaFilter), true⟩ := by rw [hp, Place.next, if_pos hid]
      refine ⟨by rw [hp']; exact hc, ?_, by rw [hp']; intro hlt; exact absurd hid (Nat.ne_of_lt hlt)⟩
      rw [hp']
      simp only [World.step, Bus.subscribe, hc, hid, Dict.get_set_self]
      rfl
    · have hp' : place id (ops ++ [.subscribe handler ioaFilter name closeFn]) =
          { place id ops with count := (place id ops).count + 1 } := by rw [hp, Place.next, if_neg hid]
      refine ⟨by rw [hp']; exact hc, ?_, ?_⟩
      · rw [hp']
        simp only [World.step, Bus.subscribe]
        rw [Dict.get_set_ne _ _ (by rw [hc]; exact fun he => hid he.symm)]
        exact h.entry
      · rw [hp']
        intro hlt
        exact h.fresh (Nat.lt_of_succ_lt hlt)
  | unsubscribe i =>
    have hbus : (World.step ioa w (.unsubscribe i)).bus.counter = w.bus.counter ∧
        (World.step ioa w (.unsubscribe i)).bus.subs.get id = if id = i then none else w.bus.subs.get id := by
      simp only [World.step, Bus.unsubscribe]
      cases hg : w.bus.subs.get i with
      | none =>
        refine ⟨rfl, ?_⟩
        by_cases he : id = i
        · rw [if_pos he, he]
          exact hg
        · rw [if_neg he]
      | some entry => exact ⟨rfl, Dict.get_erase _ _ _⟩
    by_cases hid : i = id
    · have hp' : place id (ops ++ [.unsubscribe i]) = { place id ops with lasts := false } := by
        rw [hp, Place.next, if_pos hid]
      refine ⟨by rw [hp', hbus.1]; exact h.counter, ?_, by rw [hp']; exact h.fresh⟩
      rw [hp', hbus.2, if_pos hid.symm]
      rfl
    · have hp' : place id (ops ++ [.unsubscribe i]) = place id ops := by rw [hp, Place.next, if_neg hid]
      refine ⟨by rw [hp', hbus.1]; exact h.counter, ?_, by rw [hp']; exact h.fresh⟩
      rw [hp', hbus.2, if_neg (fun he => hid he.symm)]
      exact h.entry
  | publish session objects raises =>
    exact ⟨by rw [hp]; exact h.counter, by rw [hp]; exact h.entry, by rw [hp]; exact h.fresh⟩
  | close => exact ⟨by rw [hp]; exact h.counter, by rw [hp]; rfl, by rw [hp]; exact h.fresh⟩

theorem follows (ioa : O → Int) (ops : List (Op H K O)) (id : Nat) : Follows ops (after ioa ops).bus id := by
  induction ops using List.reverseRecOn with
  | nil => exact ⟨rfl, rfl, fun _ => rfl⟩
  | append_singleton ops op ih =>
    rw [after_snoc]
    exact follows_step ioa ih op

/-! ## What is called -/

theorem callsFor_fanOut (ioa : O → Int) (session : String) (objects : List O) (raises : Nat → Bool) (id : Nat)
    (es : List (Nat × Sub H K)) (hn : (es.map Prod.fst).Nodup) :
    callsFor id (fanOut ioa session objects raises es).1 =
      match es.find? fun e => e.1 = id with
      | some e => callWith id e.2.handler session (filtered ioa e.2.ioaSet objects)
      | none => [] := by
  have hcons : ∀ e : Nat × Sub H K, ∀ es, (fanOut ioa session objects raises (e :: es)).1 =
      callWith e.1 e.2.handler session (filtered ioa e.2.ioaSet objects) ++
        (fanOut ioa session objects raises es).1 := by
    intro e es
    rw [fanOut, callWith]
    split <;> rfl
  have hone : ∀ i (sub : Sub H K), callsFor id (callWith i sub.handler session (filtered ioa sub.ioaSet objects)) =
      if i = id then callWith i sub.handler session (filtered ioa sub.ioaSet objects) else [] := by
    intro i sub
    unfold callsFor callWith
    split
    · simp
    · by_cases hi : i = id <;> simp [hi]
  induction es with
  | nil => rfl
  | cons e es ih =>
    obtain ⟨hnot, hn⟩ := List.nodup_cons.mp hn
    rw [hcons, callsFor, List.filter_append]
    rw [show List.filter (fun c => decide (c.id = id)) (callWith e.1 e.2.handler session _) = _ from hone e.1 e.2]
    rw [show List.filter (fun c => decide (c.id = id)) (fanOut ioa session objects raises es).1 = _ from ih hn]
    by_cases hi : e.1 = id
    · -- no other entry is of this subscription
      have hnone : es.find? (fun e => decide (e.1 = id)) = none := by
        apply List.find?_eq_none.mpr
        intro e' he' heq
        apply hnot
        rw [hi, ← of_decide_eq_true heq]
        exact List.mem_map_of_mem he'
      rw [if_pos hi, hnone, List.find?_cons_of_pos (by simpa using hi), List.append_nil, hi]
    · rw [if_neg hi, List.find?_cons_of_neg (by simpa using hi), List.nil_append]

def Place.actual (ioa : O → Int) (id : Nat) (p : Place H) : Op H K O → List (Call H O)
  | .publish session objects _ =>
    match p.active with
    | some (handler, ioaFilter) => callWith id handler session (filtered ioa (ioaSetOf ioaFilter) objects)
    | none => []
  | _ => []

theorem callsFor_snoc (ioa : O → Int) (id : Nat) (ops : List (Op H K O)) (op : Op H K O) :
    callsFor id (after ioa (ops ++ [op])).calls =
      callsFor id (after ioa ops).calls ++ (place id ops).actual ioa id op := by
  rw [after_snoc]
  cases op with
  | publish session objects raises =>
    have hf := (follows ioa ops id).entry
    rw [World.step, callsFor, List.filter_append]
    congr 1
    refine (callsFor_fanOut ioa session objects raises id _ (after ioa ops).bus.subs.nodup).trans ?_
    rw [Dict.get, Option.map_map] at hf
    rw [Place.actual]
    cases he : (after ioa ops).bus.subs.entries.find? (fun e => decide (e.1 = id)) with
    | none =>
      rw [he] at hf
      rw [Option.map_eq_none_iff.mp hf.symm]
    | some e =>
      rw [he] at hf
      obtain ⟨m, hm, heq⟩ := Option.map_eq_some_iff.mp hf.symm
      simp only [Function.comp_apply, Prod.mk.injEq] at heq
      rw [hm]
      dsimp only
      rw [heq.1, heq.2]
  | _ => exact (List.append_nil _).symm

/-! ## Empty filters -/

def Place.spills (p : Place H) : Op H K O → Prop
  | .publish _ objects _ => objects ≠ [] ∧ ∃ handler, p.active = some (handler, some [])
  | _ => False

theorem filtered_ioaSetOf (ioa : O → Int) {ioaFilter : Option (List Int)} (h : ioaFilter ≠ some [])
    (objects : List O) : filtered ioa (ioaSetOf ioaFilter) objects = wanted ioa ioaFilter objects := by
  match ioaFilter, h with
  | none, _ => rfl
  | some (a :: l), _ =>
    have hne : (a :: l).toFinset ≠ ∅ := by simp
    rw [ioaSetOf, filtered, if_neg hne, wanted]
    simp only [List.mem_toFinset]

theorem actual_eq_due (ioa : O → Int) (id : Nat) {p : Place H} {op : Op H K O} (h : ¬ p.spills op) :
    p.actual ioa id op = p.due ioa id op := by
  cases op with
  | publish session objects raises =>
    rw [Place.actual, Place.due]
    cases ha : p.active with
    | none => rfl
    | some m =>
      obtain ⟨handler, ioaFilter⟩ := m
      dsimp only
      by_cases he : ioaFilter = some []
      · have hnil : objects = [] := by
          by_cases hne : objects = []
          · exact hne
          · exact absurd ⟨hne, handler, by rw [ha, he]⟩ h
        rw [he, hnil]
        rfl
      · rw [filtered_ioaSetOf ioa he]
  | _ => rfl

theorem actual_of_spills (ioa : O → Int) (id : Nat) {p : Place H} {op : Op H K O} (h : p.spills op) :
    p.due ioa id op = [] ∧ (p.actual ioa id op).length = 1 := by
  cases op with
  | publish session objects raises =>
    obtain ⟨hne, handler, ha⟩ := h
    rw [Place.actual, Place.due, ha]
    simp [ioaSetOf, filtered, wanted, callWith, hne]
  | _ => cases h

def NoSpill (id : Nat) (ops : List (Op H K O)) : Prop := Runs.Always (fun pre op => ¬ (place id pre).spills op) ops

/-- Never too little is called. -/
theorem due_length_le (ioa : O → Int) (id : Nat) (ops : List (Op H K O)) :
    (due ioa id ops).length ≤ (callsFor id (after ioa ops).calls).length ∧
      ((callsFor id (after ioa ops).calls).length ≤ (due ioa id ops).length → NoSpill id ops) := by
  induction ops using List.reverseRecOn with
  | nil => exact ⟨Nat.le_refl _, fun _ => Runs.always_nil⟩
  | append_singleton ops op ih =>
    obtain ⟨hle, hno⟩ := ih
    rw [callsFor_snoc, due_snoc, List.length_append, List.length_append]
    by_cases hs : (place id ops).spills op
    · obtain ⟨hdue, hact⟩ := actual_of_spills ioa id hs
      rw [hdue, hact, List.length_nil]
      exact ⟨by omega, fun h => by omega⟩
    · rw [actual_eq_due ioa id hs]
      exact ⟨by omega, fun h => Runs.always_snoc.mpr ⟨hno (by omega), hs⟩⟩

theorem calls_eq_due (ioa : O → Int) {id : Nat} {ops : List (Op H K O)} (h : NoSpill id ops) :
    callsFor id (after ioa ops).calls = due ioa id ops := by
  induction ops using List.reverseRecOn with
  | nil => rfl
  | append_singleton ops op ih =>
    obtain ⟨hops, hop⟩ := Runs.always_snoc.mp h
    rw [callsFor_snoc, due_snoc, ih hops, actual_eq_due ioa id hop]

/-- What a subscription is due is of the filter it was made with. -/
theorem due_wanted (ioa : O → Int) (id : Nat) (ops : List (Op H K O)) : ∀ c ∈ due ioa id ops,
    ∃ handler ioaFilter objects, (place id ops).made = some (handler, ioaFilter) ∧
      c.objects = wanted ioa ioaFilter objects := by
  induction ops using List.reverseRecOn with
  | nil => exact fun c hc => by cases hc
  | append_singleton ops op ih =>
    have hkeep : ∀ m, (place id ops).made = some m → (place id (ops ++ [op])).made = some m := by
      intro m hm
      rw [place_snoc]
      cases op with
      | subscribe handler ioaFilter name closeFn =>
        rw [Place.next]
        split
        · rename_i hid
          rw [(follows ioa ops id).fresh (by omega)] at hm
          cases hm
        · exact hm
      | unsubscribe i =>
        rw [Place.next]
        split <;> exact hm
      | _ => exact hm
    intro c hc
    rw [due_snoc] at hc
    rcases List.mem_append.mp hc with hc | hc
    · obtain ⟨handler, ioaFilter, objects, hm, ho⟩ := ih c hc
      exact ⟨handler, ioaFilter, objects, hkeep _ hm, ho⟩
    · cases op with
      | publish session objects raises =>
        rw [Place.due] at hc
        cases ha : (place id ops).active with
        | none =>
          rw [ha] at hc
          cases hc
        | some m =>
          rw [ha] at hc
          unfold callWith at hc
          dsimp only at hc
          split at hc
          · cases hc
          · rw [List.mem_singleton.mp hc]
            refine ⟨m.1, m.2, objects, hkeep _ ?_, rfl⟩
            unfold Place.active at ha
            split at ha
            · exact ha
            · cases ha
      | _ => cases hc

/-- For every history. -/
theorem delivered_iff (ioa : O → Int) (ops : List (Op H K O)) : Delivered ioa ops ↔ ∀ id, NoSpill id ops := by
  constructor
  · intro h id
    apply (due_length_le ioa id ops).2
    rw [h.calls id]
  · intro h
    refine ⟨fun id => calls_eq_due ioa (h id), fun c hc handler l hm o ho => ?_⟩
    have hdue : c ∈ due ioa c.id ops := by
      rw [← calls_eq_due ioa (h c.id)]
      exact List.mem_filter.mpr ⟨hc, by simp⟩
    obtain ⟨handler', ioaFilter, objects, hm', ho'⟩ := due_wanted ioa c.id ops c hdue
    rw [hm] at hm'
    cases hm'
    rw [ho'] at ho
    simpa using (List.mem_filter.mp ho).2

/-- `ioa_filter = []`: a published object is delivered. -/
theorem an_empty_filter_lets_everything_through :
    ¬ ∀ ops : List (Op Nat Unit Int), Delivered id ops := by
  intro hall
  have h := (hall [.subscribe 7 (some []) "sink" none, .publish "PU_1" [45] fun _ => false]).calls 1
  exact absurd h (by decide)

end Drv60870.EventBus
