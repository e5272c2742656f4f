/-
  Drv60870.Client.HistoryWriter — the history file of the client (`client.py`,
  `create_history_writer`) behind the event bus.

  The writer takes a list of objects and writes a line for each; `int(iv)` raises for an
  object whose time tag could not be decoded, and the bus drops the exception with the
  objects that were still to come. `archive` is a publication as the writer sees it, with what
  the other subscribers do.

  Proved:
  - It writes the rows of the objects before the first whose `iv` is missing (`write_eq`); and
    `iv` is missing exactly where the seven octets are no date and time of day (`decObj_iv`,
    `tagsValid_iff`).
  - A frame's objects are all written exactly if the time tags it contains are dates and times
    of day, for every frame that is decoded and every file (`history_complete_iff`).
  - Otherwise those behind the bad one are lost: of two single points the first has a bad tag,
    and neither is written (`a_bad_time_drops_the_rest`).
-/

import Mathlib.Data.List.TakeWhile
import Drv60870.Protocol.Contained
import Drv60870.Protocol.Time
import Drv60870.EventBus

namespace Drv60870.Client

open Lib.Octets Lib.Str Lib.Calendar Lib.Python Drv60870.Const Protocol EventBus

/-! ## The file -/

structure Row where
  ts : Text
  session : String
  ioa : Int
  asdu : Int
  val : Option Val
  q : Nat
  iv : Nat
  cot : Nat

/-- The fields between tabs; `str` is what `str()` makes of a value. -/
def Row.text (str : Option Val → Text) (r : Row) : Text :=
  r.ts ++ '\t' :: r.session.toList ++ '\t' :: intText r.ioa ++ '\t' :: intText r.asdu ++ '\t' :: str r.val ++
    '\t' :: intText r.q ++ '\t' :: intText r.iv ++ '\t' :: intText r.cot ++ ['\n']

def header : Text := "timestamp\tsession\tioa\tasdu\tvalue\tquality\tiv\tcot\n".toList

abbrev History := List Text

/-- `create_history_writer`: an empty file gets its header. -/
def openHistory (file : History) : History := if file = [] then [header] else file

def intIv : Option Bool → Option Nat
  | some iv => some iv.toNat
  | none => none

def rowOf (utcnow : Datetime) (session : String) (o : Obj) (iv : Nat) : Row :=
  ⟨((o.ts.getD utcnow).strftime).take 23, session, o.ioa, o.typeId, o.val, o.q, iv, o.cot⟩

/-- The loop of `write`, with whether it returns; `utcnow i` is the clock at the i-th object. -/
def write (str : Option Val → Text) (utcnow : Nat → Datetime) (session : String) :
    Nat → List Obj → History → History × Bool
  | _, [], file => (file, true)
  | i, o :: objects, file =>
    match intIv o.iv with
    | none => (file, false)
    | some iv => write str utcnow session (i + 1) objects (file ++ [(rowOf (utcnow i) session o iv).text str])

/-- The calls that a publication makes of the writer, whose subscription is `id`; with whether all
    of them return. What it raises, and what the other subscribers do, ends in the bus. -/
def archive {H K : Type} (bus : Bus H K) (id : Nat) (raises : Nat → Bool) (str : Option Val → Text)
    (utcnow : Nat → Datetime) (session : String) (objects : List Obj) (file : History) : History × Bool :=
  (callsFor id (bus.publish Obj.ioa session objects raises).1).foldl
    (fun p c => ((write str utcnow c.session 0 c.objects p.1).1, p.2 && (write str utcnow c.session 0 c.objects p.1).2))
    (file, true)

/-! ## What is owed -/

def Row.Tells (r : Row) (o : Obj) : Prop :=
  r.ioa = o.ioa ∧ r.asdu = o.typeId ∧ r.val = o.val ∧ r.q = o.q ∧ r.cot = o.cot

/-- The writer returns, and one row for each object is behind what was there. -/
def Complete (str : Option Val → Text) (objects : List Obj) (file : History) (out : History × Bool) : Prop :=
  out.2 = true ∧ ∃ rows : List Row, out.1 = file ++ rows.map (Row.text str) ∧ List.Forall₂ Row.Tells rows objects

/-- The time tags of the objects that a frame contains are dates and times of day. -/
def TagsValid (f : Bytes) : Prop :=
  ∀ t v n, f[6]? = some t → f[7]? = some v → asduDataSize.lookup (t.toNat : Int) = some n → (t.toNat : Int) ∈ tsTypes →
    ∀ j < slots f v n, ValidTag ((slotData f v n j).drop (n - 7))

/-! ## The writer -/

section Writer

variable (str : Option Val → Text) (utcnow : Nat → Datetime) (session : String)

/-- It writes the rows of the objects before the first whose `iv` is missing. -/
theorem write_eq : ∀ (objects : List Obj) (i : Nat) (file : History), ∃ rows : List Row,
    (write str utcnow session i objects file).1 = file ++ rows.map (Row.text str) ∧
      List.Forall₂ Row.Tells rows (objects.takeWhile fun o => o.iv.isSome) ∧
      (write str utcnow session i objects file).2 = objects.all fun o => o.iv.isSome := by
  intro objects
  induction objects with
  | nil => exact fun i file => ⟨[], (List.append_nil _).symm, .nil, rfl⟩
  | cons o objects ih =>
    intro i file
    rw [write]
    cases hiv : o.iv with
    | none =>
      refine ⟨[], (List.append_nil _).symm, ?_, ?_⟩
      · rw [List.takeWhile_cons, hiv]
        exact .nil
      · rw [List.all_cons, hiv]
        rfl
    | some iv =>
      obtain ⟨rows, hfile, hrows, hret⟩ := ih (i + 1) (file ++ [(rowOf (utcnow i) session o iv.toNat).text str])
      refine ⟨rowOf (utcnow i) session o iv.toNat :: rows, ?_, ?_, ?_⟩
      · rw [List.map_cons, List.append_cons]
        exact hfile
      · rw [List.takeWhile_cons, hiv]
        exact .cons ⟨rfl, rfl, rfl, rfl, rfl⟩ hrows
      · rw [List.all_cons, hiv]
        exact hret

theorem complete_iff {objects : List Obj} {file : History} :
    Complete str objects file (write str utcnow session 0 objects file) ↔ ∀ o ∈ objects, o.iv ≠ none := by
  obtain ⟨rows, hfile, hrows, hret⟩ := write_eq str utcnow session objects 0 file
  have hall : (objects.all fun o => o.iv.isSome) = true ↔ ∀ o ∈ objects, o.iv ≠ none := by
    simp only [List.all_eq_true, Option.isSome_iff_ne_none]
  rw [Complete, hret, hall]
  refine and_iff_left_of_imp fun h => ⟨rows, hfile, ?_⟩
  rwa [List.takeWhile_eq_self_iff.mpr (List.all_eq_true.mp (hall.mpr h))] at hrows

theorem archive_eq {H K : Type} {bus : Bus H K} {id : Nat} {sub : Sub H K} (hsub : bus.subs.get id = some sub)
    (hall : sub.ioaSet = none) (raises : Nat → Bool) (objects : List Obj) (file : History) :
    archive bus id raises str utcnow session objects file = write str utcnow session 0 objects file := by
  have hcalls : callsFor id (bus.publish Obj.ioa session objects raises).1 =
      callWith id sub.handler session objects := by
    refine (callsFor_fanOut Obj.ioa session objects raises id _ bus.subs.nodup).trans ?_
    obtain ⟨e, he, hs⟩ := Option.map_eq_some_iff.mp hsub
    rw [he]
    dsimp only
    rw [hs, hall]
    rfl
  rw [archive, hcalls, callWith]
  split
  · rename_i hnil
    rw [hnil]
    rfl
  · exact Prod.ext rfl (Bool.true_and _)

end Writer

/-! ## Frames -/

/-- `iv` is missing where the time tag is no date and time of day. -/
theorem decObj_iv {t : Int} {cot coa n ioa : Nat} {d : Bytes} {o : Obj} (h : decObj t cot coa n ioa d = .ok o) :
    o.iv = none ↔ t ∈ tsTypes ∧ ¬ ValidTag (d.drop (n - 7)) := by
  obtain ⟨vq, -, h⟩ := bind_eq_ok.mp h
  dsimp only at h
  by_cases ht : t ∈ tsTypes
  · rw [if_pos ht] at h
    obtain ⟨tv, htv, h⟩ := bind_eq_ok.mp h
    cases ok_inj h
    rw [and_iff_right ht]
    have h7 : 7 ≤ (d.drop (n - 7)).length := by
      by_contra hshort
      rw [fromCp56_short (Nat.not_le.mp hshort)] at htv
      cases htv
    by_cases hv : ValidTag (d.drop (n - 7))
    · rw [fromCp56_valid h7 hv] at htv
      cases htv
      exact iff_of_false (by simp) (not_not_intro hv)
    · rw [fromCp56_invalid h7 hv] at htv
      cases htv
      exact iff_of_true rfl hv
  · rw [if_neg ht] at h
    cases h
    exact iff_of_false (by simp) fun h => ht h.1

section Tags

variable {f : Bytes} {t v : UInt8} {n : Nat}

theorem tagsValid_short (h : f.length < 12) : TagsValid f := by
  intro t v n h6 h7 hn ht j hj
  have h15 : f.length - 15 = 0 := by omega
  have h12 : f.length - 12 = 0 := by omega
  rw [slots, h15, h12, Nat.zero_div, Nat.zero_div, ite_self, Nat.min_zero] at hj
  cases hj

theorem tagsValid_unknown (h6 : f[6]? = some t) (hn : asduDataSize.lookup (t.toNat : Int) = none) : TagsValid f := by
  intro t' v n h6' h7 hn' ht j hj
  rw [h6] at h6'
  cases h6'
  rw [hn] at hn'
  cases hn'

theorem tagsValid_known (h6 : f[6]? = some t) (h7 : f[7]? = some v)
    (hn : asduDataSize.lookup (t.toNat : Int) = some n) : TagsValid f ↔
      ((t.toNat : Int) ∈ tsTypes → ∀ j < slots f v n, ValidTag ((slotData f v n j).drop (n - 7))) := by
  constructor
  · exact fun h => h t v n h6 h7 hn
  · intro h t' v' n' h6' h7' hn'
    rw [h6] at h6'
    cases h6'
    rw [h7] at h7'
    cases h7'
    rw [hn] at hn'
    cases hn'
    exact h

end Tags

/-- Every object of a frame has its `iv` exactly if its time tags are all valid. -/
theorem tagsValid_iff {f : Bytes} {objs : List Obj} (hd : decodeIFrameObjects f = .ok objs) :
    (∀ o ∈ objs, o.iv ≠ none) ↔ TagsValid f := by
  cases heading f with
  | short h12 =>
    rw [decode_short h12] at hd
    cases hd
    exact iff_of_true (fun o ho => by cases ho) (tagsValid_short h12)
  | unknown t v h h6 h7 hn =>
    rw [decode_unknown h h6 h7 hn] at hd
    cases hd
    exact iff_of_true (fun o ho => by cases ho) (tagsValid_unknown h6 hn)
  | known t v n h h6 h7 hn =>
    have hslots := decode_slots h h6 h7 hn hd
    -- with a tag behind each value, the decoder takes the slots and no more
    have hlen (ht : (t.toNat : Int) ∈ tsTypes) : objs.length = slots f v n := by
      have h50 : (t.toNat : Int) ≠ AsduTypeId.cSeNc1 := fun he => absurd ht (by rw [he]; decide)
      exact (contained_iff_length h h6 h7 hn hd).mp (decode_sharp h h6 h7 hn h50 hd)
    rw [tagsValid_known h6 h7 hn]
    constructor
    · intro hiv ht j hj
      obtain ⟨o, hj'⟩ : ∃ o, objs[j]? = some o := ⟨_, List.getElem?_eq_getElem (by rw [hlen ht]; exact hj)⟩
      by_contra hv
      exact hiv o (List.mem_of_getElem? hj') ((decObj_iv (hslots j o hj')).mpr ⟨ht, hv⟩)
    · intro hv o ho hnone
      obtain ⟨i, hi⟩ := List.mem_iff_getElem?.mp ho
      obtain ⟨ht, hbad⟩ := (decObj_iv (hslots i o hi)).mp hnone
      refine hbad (hv ht i ?_)
      rw [← hlen ht]
      exact (List.getElem?_eq_some_iff.mp hi).1

/-- For every frame that is decoded and every file. -/
theorem history_complete_iff {H K : Type} {bus : Bus H K} {id : Nat} {sub : Sub H K} (hsub : bus.subs.get id = some sub)
    (hall : sub.ioaSet = none) {f : Bytes} {objs : List Obj} (hd : decodeIFrameObjects f = .ok objs)
    (raises : Nat → Bool) (str : Option Val → Text) (utcnow : Nat → Datetime) (session : String) (file : History) :
    Complete str objs file (archive bus id raises str utcnow session objs file) ↔ TagsValid f := by
  rw [archive_eq str utcnow session hsub hall, complete_iff, tagsValid_iff hd]

/-! ## Samples -/

def recordingBus : Bus Unit Unit := ((createEventBus.subscribe () none "history" (some ())).2 : Bus Unit Unit)

def strInt : Option Val → Text
  | some (.int n) => intText n
  | some (.float _) => "nan".toList
  | none => "None".toList

def zeroTagFrame : Bytes :=
  [0x68, 0x20, 0, 0, 0, 0, 30, 2, 3, 0, 1, 0, 100, 0, 0, 1, 0, 0, 0, 0, 0, 0, 0,
    101, 0, 0, 1, 0x5F, 0xEA, 0x3B, 0x17, 0x9D, 0x02, 0x18]

def taggedFrame : Bytes :=
  [0x68, 0x15, 0, 0, 0, 0, 30, 1, 3, 0, 1, 0, 101, 0, 0, 1, 0x5F, 0xEA, 0x3B, 0x17, 0x9D, 0x02, 0x18]

theorem history_complete_iff_tagged : ∃ objs, decodeIFrameObjects taggedFrame = .ok objs ∧ objs.length = 1 ∧
    Complete strInt objs (openHistory [])
      (archive recordingBus 1 (fun _ => false) strInt (fun _ => sampleTime) "PU_1" objs (openHistory [])) := by
  have hd : decodeIFrameObjects taggedFrame =
      .ok [⟨101, 30, some (.int 1), 0, 3, 1, some ⟨2024, 2, 29, 23, 59, 59, 999000, by decide⟩, some false⟩] := by
    decide
  have hsub : recordingBus.subs.get 1 = some ⟨"history", none, (), some ()⟩ := rfl
  refine ⟨_, hd, rfl, (history_complete_iff hsub rfl hd _ _ _ _ _).mpr fun t v n h6 h7 hn ht j hj => ?_⟩
  cases h6
  cases h7
  cases hn
  have hone : slots taggedFrame 1 8 = 1 := by decide
  have hj0 : j = 0 := by
    have hlt : j < slots taggedFrame 1 8 := hj
    omega
  subst hj0
  decide

/-- `int(iv)` of the first object raises, and neither is written. -/
theorem a_bad_time_drops_the_rest : ∃ objs, decodeIFrameObjects zeroTagFrame = .ok objs ∧ objs.length = 2 ∧
    archive recordingBus 1 (fun _ => true) strInt (fun _ => sampleTime) "PU_1" objs (openHistory []) =
      (openHistory [], false) ∧
    ¬ Complete strInt objs (openHistory []) (openHistory [], false) := by
  have hd : decodeIFrameObjects zeroTagFrame =
      .ok [⟨100, 30, some (.int 1), 0, 3, 1, none, none⟩,
        ⟨101, 30, some (.int 1), 0, 3, 1, some ⟨2024, 2, 29, 23, 59, 59, 999000, by decide⟩, some false⟩] := by decide
  refine ⟨_, hd, rfl, rfl, fun h => ?_⟩
  obtain ⟨hret, -⟩ := h
  cases hret

end Drv60870.Client
