/-
  Drv60870.Storage.Signals — the signal storage (`create_data_storage` in `common.py`).

  The values and thresholds are of any type with the three operations `update_val` uses
  (`Deadband`): the server's are Python numbers, an idealised storage's may be rational.
  `commit` is the part of `update_val` under the lock; what it returns besides the result is
  the event it then puts to each subscriber's queue. `subscribe` and `unsubscribe` keep the
  queues under the clients' names, as the server does.

  Proved:
  - Where it returns, `commit` finds no such signal or no change, or has written the signal and
    has its event to tell (`commit_ok`, `commit_takes`, `commit_keeps`).
  - A commit names its signal once (`commit_one`).

  `conv` and `dsc` are left out, no function reads them; the name index comes in `Names`.
-/

import Drv60870.Common
import Drv60870.Lib.Dict

namespace Drv60870.Storage

open Lib Lib.Calendar Lib.Python

/-! ## Values -/

/-- The operations of `update_val` on values, and the value of a new signal. -/
class Deadband (V : Type) (T : outParam Type) where
  zero : V
  /-- `val != sg.val` -/
  ne : V → V → Bool
  /-- `abs(val - sg.val) >= sg.threshold` -/
  reaches : V → V → T → Except PyErr Bool

instance : Deadband Val F64 where
  zero := .float (Ieee.ofInt _ 0)
  ne := Val.ne
  reaches v w t := do return (← v.dist w).ge t

variable {C Q V T : Type}

structure SignalConf (V T : Type) where
  id : Int
  ioa : Int
  asdu : Int
  threshold : Option T
  val : V
  ts : Datetime
  q : Int := 0
  iv : Bool := false
  deriving DecidableEq

/-- `IecEvent` with a value of any type. -/
structure Event (V : Type) where
  id : Int
  ioa : Int
  asdu : Int
  val : V
  ts : Datetime
  q : Int
  iv : Bool
  cot : Int := 3
  deriving DecidableEq

def Event.iec (ev : Event Val) : IecEvent :=
  { id := ev.id, ioa := ev.ioa, asdu := ev.asdu, val := ev.val, ts := ev.ts, q := ev.q, iv := ev.iv, cot := ev.cot }

structure Update (V : Type) where
  val : V
  id : Option Int := none
  ioa : Option Int := none
  q : Int := 0
  iv : Bool := false
  ts : Option Datetime := none
  deriving DecidableEq

namespace SignalConf

def event (sg : SignalConf V T) (cot : Int) : Event V :=
  ⟨sg.id, sg.ioa, sg.asdu, sg.val, sg.ts, sg.q, sg.iv, cot⟩

def valChange [Deadband V T] (sg : SignalConf V T) (val : V) : Except PyErr Bool :=
  match sg.threshold with
  | none => .ok (Deadband.ne val sg.val)
  | some t =>
    match Deadband.reaches val sg.val t with
    | .error .valueError => .ok (Deadband.ne val sg.val)
    | r => r

def qChange (sg : SignalConf V T) (q : Int) (iv : Bool) : Bool := q != sg.q || iv != sg.iv

def takes [Deadband V T] (sg : SignalConf V T) (u : Update V) : Bool :=
  match sg.valChange u.val with
  | .ok valChange => valChange || sg.qChange u.q u.iv
  | .error _ => false

def written (sg : SignalConf V T) (now : Datetime) (u : Update V) : SignalConf V T :=
  { sg with ts := u.ts.getD now, val := u.val, q := u.q, iv := u.iv }

end SignalConf

/-! ## The storage -/

/-- `_signals`, `_ioa_idx` and `_subs`; clients are named by `C` and their queues by `Q`. -/
structure DataStorage (C Q V T : Type) where
  signals : Dict Int (SignalConf V T)
  ioaIdx : Dict Int Int
  subs : Dict C Q

/-- The server's storage: Python numbers with float thresholds. -/
abbrev Signals (C Q : Type) := DataStorage C Q Val F64

/-- What `update_val` has when it releases the lock. -/
structure Commit (C Q V T : Type) where
  updated : Bool
  storage : DataStorage C Q V T
  event : Option (Event V) := none

namespace DataStorage

def empty : DataStorage C Q V T := ⟨.empty, .empty, .empty⟩

/-- The signal's entry is written before its address is found taken. -/
def addSignal [Deadband V T] (s : DataStorage C Q V T) (now : Datetime) (id ioa asdu : Int) (threshold : Option T) :
    Except PyErr Unit × DataStorage C Q V T :=
  let s := { s with signals := s.signals.set id { id, ioa, asdu, threshold, val := Deadband.zero, ts := now } }
  if (s.ioaIdx.get ioa).isSome then (.error .valueError, s)
  else (.ok (), { s with ioaIdx := s.ioaIdx.set ioa id })

theorem addSignal_signals [Deadband V T] (s : DataStorage C Q V T) (now : Datetime) (id ioa asdu : Int)
    (threshold : Option T) : (s.addSignal now id ioa asdu threshold).2.signals =
      s.signals.set id { id, ioa, asdu, threshold, val := Deadband.zero, ts := now } := by
  unfold addSignal
  dsimp only
  split <;> rfl

theorem addSignal_subs [Deadband V T] (s : DataStorage C Q V T) (now : Datetime) (id ioa asdu : Int)
    (threshold : Option T) : (s.addSignal now id ioa asdu threshold).2.subs = s.subs := by
  unfold addSignal
  dsimp only
  split <;> rfl

def subscribe [DecidableEq C] (s : DataStorage C Q V T) (client : C) (queue : Q) : DataStorage C Q V T :=
  { s with subs := s.subs.set client queue }

def unsubscribe [DecidableEq C] (s : DataStorage C Q V T) (client : C) : DataStorage C Q V T :=
  { s with subs := s.subs.erase client }

def getAllForGi (s : DataStorage C Q V T) : List (Event V) := s.signals.values.map fun sg => sg.event 20

def resolve (s : DataStorage C Q V T) (u : Update V) : Option Int :=
  match u.ioa with
  | some ioa => s.ioaIdx.get ioa
  | none => u.id

def find (s : DataStorage C Q V T) (u : Update V) : Option (Int × SignalConf V T) :=
  (s.resolve u).bind fun id => (s.signals.get id).map fun sg => (id, sg)

theorem find_get {s : DataStorage C Q V T} {u : Update V} {id : Int} {sg : SignalConf V T}
    (h : s.find u = some (id, sg)) : s.signals.get id = some sg := by
  obtain ⟨id', -, h⟩ := Option.bind_eq_some_iff.mp h
  obtain ⟨sg', hg, he⟩ := Option.map_eq_some_iff.mp h
  cases he
  exact hg

variable [Deadband V T]

def commit (s : DataStorage C Q V T) (now : Datetime) (u : Update V) : Except PyErr (Commit C Q V T) :=
  if u.id.isSome = u.ioa.isSome then .error .valueError
  else
    match s.resolve u with
    | none => .ok ⟨false, s, none⟩
    | some id =>
      match s.signals.get id with
      | none => .ok ⟨false, s, none⟩
      | some sg =>
        match sg.valChange u.val with
        | .error e => .error e
        | .ok valChange =>
          if !valChange && !sg.qChange u.q u.iv then .ok ⟨false, s, none⟩
          else
            let sg := sg.written now u
            let event := if sg.asdu ≥ 45 then none else some { sg.event 3 with id }
            .ok ⟨true, { s with signals := s.signals.set id sg }, event⟩

/-! ## What a commit does -/

def write (s : DataStorage C Q V T) (now : Datetime) (u : Update V) (id : Int) (sg : SignalConf V T) :
    DataStorage C Q V T :=
  { s with signals := s.signals.set id (sg.written now u) }

def announce (now : Datetime) (u : Update V) (id : Int) (sg : SignalConf V T) : Option (Event V) :=
  if sg.asdu ≥ 45 then none else some { (sg.written now u).event 3 with id }

/-- The outcomes of `update_val`: no such signal or no change, or the signal is written. -/
theorem commit_ok {s : DataStorage C Q V T} {now : Datetime} {u : Update V} {c : Commit C Q V T}
    (h : s.commit now u = .ok c) :
    (c = ⟨false, s, none⟩ ∧ ∀ id sg, s.find u = some (id, sg) →
        sg.valChange u.val = .ok false ∧ sg.qChange u.q u.iv = false) ∨
      ∃ id sg, s.find u = some (id, sg) ∧ sg.takes u = true ∧
        c = ⟨true, s.write now u id sg, announce now u id sg⟩ := by
  unfold commit at h
  split at h
  · cases h
  · split at h
    · rename_i hr
      cases h
      refine .inl ⟨rfl, fun id sg hf => ?_⟩
      simp [find, hr] at hf
    · rename_i id hr
      split at h
      · rename_i hg
        cases h
        refine .inl ⟨rfl, fun id sg hf => ?_⟩
        simp [find, hr, hg] at hf
      · rename_i sg hg
        have hfind : s.find u = some (id, sg) := by simp [find, hr, hg]
        split at h
        · cases h
        · rename_i valChange hv
          split at h
          · rename_i hno
            cases h
            simp only [Bool.and_eq_true, Bool.not_eq_true'] at hno
            refine .inl ⟨rfl, fun id' sg' hf => ?_⟩
            rw [hfind] at hf
            cases hf
            exact ⟨by rw [hv, hno.1], hno.2⟩
          · rename_i hyes
            cases h
            refine .inr ⟨id, sg, hfind, ?_, rfl⟩
            simp only [SignalConf.takes, hv]
            cases valChange with
            | true => rfl
            | false => simpa using hyes

theorem commit_one {s : DataStorage C Q V T} {now : Datetime} {u : Update V} {c : Commit C Q V T}
    (h : s.commit now u = .ok c) : u.id.isSome ≠ u.ioa.isSome := by
  intro hu
  rw [commit, if_pos hu] at h
  cases h

theorem commit_takes {s : DataStorage C Q V T} (now : Datetime) {u : Update V} {id : Int} {sg : SignalConf V T}
    (hu : u.id.isSome ≠ u.ioa.isSome) (hf : s.find u = some (id, sg)) (ht : sg.takes u = true) :
    s.commit now u = .ok ⟨true, s.write now u id sg, announce now u id sg⟩ := by
  obtain ⟨id', hr, hf⟩ := Option.bind_eq_some_iff.mp hf
  obtain ⟨sg', hg, he⟩ := Option.map_eq_some_iff.mp hf
  cases he
  simp only [SignalConf.takes] at ht
  rw [commit, if_neg hu, hr]
  dsimp only
  rw [hg]
  dsimp only
  cases hv : sg.valChange u.val with
  | error e =>
    rw [hv] at ht
    cases ht
  | ok valChange =>
    rw [hv] at ht
    dsimp only at ht ⊢
    have hyes : ¬ (!valChange && !sg.qChange u.q u.iv) = true := by
      cases valChange with
      | true => simp
      | false => simpa using ht
    rw [if_neg hyes]
    rfl

theorem commit_keeps {s : DataStorage C Q V T} (now : Datetime) {u : Update V} {id : Int} {sg : SignalConf V T}
    (hu : u.id.isSome ≠ u.ioa.isSome) (hf : s.find u = some (id, sg)) (hv : sg.valChange u.val = .ok false)
    (hq : sg.qChange u.q u.iv = false) : s.commit now u = .ok ⟨false, s, none⟩ := by
  obtain ⟨id', hr, hf⟩ := Option.bind_eq_some_iff.mp hf
  obtain ⟨sg', hg, he⟩ := Option.map_eq_some_iff.mp hf
  cases he
  rw [commit, if_neg hu, hr]
  dsimp only
  rw [hg]
  dsimp only
  rw [hv, hq]
  rfl

/-! ## Keys -/

def Keyed (s : DataStorage C Q V T) : Prop := ∀ id sg, s.signals.get id = some sg → sg.id = id

omit [Deadband V T] in
theorem keyed_empty : (empty : DataStorage C Q V T).Keyed := by
  intro id sg h
  cases h

theorem keyed_addSignal {s : DataStorage C Q V T} (now : Datetime) (id ioa asdu : Int) (threshold : Option T)
    (h : s.Keyed) : (s.addSignal now id ioa asdu threshold).2.Keyed := by
  intro id' sg hg
  rw [addSignal_signals, Dict.get_set] at hg
  split at hg
  · rename_i he
    cases hg
    exact he.symm
  · exact h id' sg hg

omit [Deadband V T] in
theorem keyed_write {s : DataStorage C Q V T} (now : Datetime) (u : Update V) {id : Int} {sg : SignalConf V T}
    (h : s.Keyed) (hg : s.signals.get id = some sg) : (s.write now u id sg).Keyed := by
  intro id' sg' hg'
  rw [write, Dict.get_set] at hg'
  split at hg'
  · rename_i he
    cases hg'
    rw [he]
    exact h id sg hg
  · exact h id' sg' hg'

end DataStorage

/-! ## Queues -/

section Queues

def putNowait [DecidableEq Q] (queues : Q → List (Event V)) (q : Q) (event : Event V) : Q → List (Event V) :=
  fun q' => if q' = q then queues q' ++ [event] else queues q'

def lastOf (id : Int) (events : List (Event V)) : Option (Event V) := (events.filter fun e => e.id = id).getLast?

theorem lastOf_snoc (id : Int) (events : List (Event V)) (event : Event V) :
    lastOf id (events ++ [event]) = if event.id = id then some event else lastOf id events := by
  unfold lastOf
  by_cases h : event.id = id
  · rw [if_pos h, List.filter_append, List.filter_cons_of_pos (by simpa using h), List.filter_nil,
      List.getLast?_concat]
  · rw [if_neg h, List.filter_append, List.filter_cons_of_neg (by simpa using h), List.filter_nil, List.append_nil]

end Queues

end Drv60870.Storage
