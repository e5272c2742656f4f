/-
  Drv60870.Protocol.Contained — the objects a frame contains, and those the decoder returns.

  `Contained` is said by the octets: as many objects as are announced and there, each from its
  own slot. A type is `Sharp` when nothing is decoded that is not there; all types are but the
  set point (type 50), for which `_dec_val` reads nothing.

  Proved:
  - `decode_i_frame_objects` returns the objects wholly contained in a frame if and only if the
    frame does not end inside a time tag and is no set point frame that announces more than it
    contains (`decode_contained`).
  - In the one case ValueError escapes; in the other an object of no octets is returned for
    every one that is missing (`decode_setpoints`, `decode_fabricates`).
-/

import Drv60870.Protocol.Truncation

namespace Drv60870.Protocol

open Lib.Octets Lib.Python Drv60870.Const

/-! ## Slots -/

/-- The objects are those wholly contained in the frame: as many as are announced and there,
    the one at `i` read from the slot at `i`. -/
def Contained (f : Bytes) (objs : List Obj) : Prop :=
  match f[6]?, f[7]? with
  | some t, some vsq =>
    match asduDataSize.lookup (t.toNat : Int) with
    | none => objs = []
    | some size =>
      let count := vsq.toNat &&& 0x7F
      let dec := decObj t.toNat (leNat (slice f 8 10)) (leNat (slice f 10 12)) size
      if vsq.toNat &&& 0x80 ≠ 0 then
        objs.length = min count ((f.length - 15) / size) ∧ ∀ i o, objs[i]? = some o →
          dec (leNat (slice f 12 15) + i) (slice f (15 + i * size) (15 + i * size + size)) = .ok o
      else
        objs.length = min count ((f.length - 12) / (3 + size)) ∧ ∀ i o, objs[i]? = some o →
          dec (leNat (slice f (12 + i * (3 + size)) (15 + i * (3 + size))))
            (slice f (15 + i * (3 + size)) (15 + i * (3 + size) + size)) = .ok o
  | _, _ => objs = []

def slotIoa (f : Bytes) (vsq : UInt8) (size i : Nat) : Nat :=
  if vsq.toNat &&& 0x80 ≠ 0 then leNat (slice f 12 15) + i
  else leNat (slice f (12 + i * (3 + size)) (15 + i * (3 + size)))

def slotData (f : Bytes) (vsq : UInt8) (size i : Nat) : Bytes :=
  if vsq.toNat &&& 0x80 ≠ 0 then slice f (15 + i * size) (15 + i * size + size)
  else slice f (15 + i * (3 + size)) (15 + i * (3 + size) + size)

def slots (f : Bytes) (vsq : UInt8) (size : Nat) : Nat :=
  min (vsq.toNat &&& 0x7F) (if vsq.toNat &&& 0x80 ≠ 0 then (f.length - 15) / size else (f.length - 12) / (3 + size))

/-- A set point frame announces more objects than it contains. -/
def overdrawn (f : Bytes) : Bool :=
  match f[6]?, f[7]? with
  | some t, some vsq =>
    decide (12 ≤ f.length) && decide ((t.toNat : Int) = AsduTypeId.cSeNc1) &&
      if vsq.toNat &&& 0x80 ≠ 0 then decide ((f.length - 15) / 5 < vsq.toNat &&& 0x7F)
      else decide ((f.length - 12) / 8 < vsq.toNat &&& 0x7F)
  | _, _ => false

/-! ## The loops -/

section Loops

variable {dec : Nat → Bytes → Except PyErr Obj} {asdu : Bytes} {n base : Nat}

/-- What is not there is not decoded. -/
structure Sharp (dec : Nat → Bytes → Except PyErr Obj) (n : Nat) : Prop where
  whole : ∀ ioa d, n ≤ d.length → ∃ o, dec ioa d = .ok o
  short : ∀ ioa d, d.length < n → ∃ e, dec ioa d = .error e

theorem decSeq_length (h : Sharp dec n) (h0 : 0 < n) {count offset : Nat} {objs : List Obj}
    (hobjs : decSeq dec asdu n base count 0 offset = .ok objs) :
    objs.length = min count ((asdu.length - offset) / n) := by
  have hw : ∀ j, (j + 1) * n ≤ asdu.length - offset → ∃ o, seqSlot dec asdu n base offset j = .ok o :=
    fun j hj => seqSlot_whole h.whole asdu base offset hj
  have hs : ∀ j, asdu.length - offset < (j + 1) * n → ∃ e, seqSlot dec asdu n base offset j = .error e := by
    intro j hj
    rw [Nat.succ_mul] at hj
    exact h.short _ _ (by rw [length_seqSlot]; omega)
  rw [decSeq_eq] at hobjs
  exact readAll_length h0 hw hs hobjs

theorem decList_length (h : Sharp dec n) (h0 : 0 < n) {count offset : Nat} {objs : List Obj}
    (hobjs : decList dec asdu n count offset = .ok objs) :
    objs.length = min count ((asdu.length - offset) / (3 + n)) := by
  have hw : ∀ j, (j + 1) * (3 + n) ≤ asdu.length - offset → ∃ o, listSlot dec asdu n offset j = .ok o :=
    fun j hj => listSlot_whole h.whole asdu offset hj
  have hs : ∀ j, asdu.length - offset < (j + 1) * (3 + n) → ∃ e, listSlot dec asdu n offset j = .error e := by
    intro j hj
    rw [Nat.succ_mul] at hj
    exact h.short _ _ (by rw [length_listSlot]; omega)
  rw [decList_eq] at hobjs
  exact readAll_length (by omega) hw hs hobjs

end Loops

/-! ## Objects -/

theorem decObj_sharp {t : Int} {n : Nat} (hn : asduDataSize.lookup t = some n) (h50 : t ≠ AsduTypeId.cSeNc1)
    (cot coa : Nat) : Sharp (decObj t cot coa n) n := by
  by_cases ht : t ∈ tsTypes
  · have hcuts := decObj_cutsTime hn ht cot coa
    refine ⟨hcuts.whole, fun ioa d hd => ?_⟩
    by_cases hv : n - 7 ≤ d.length
    · exact ⟨_, hcuts.time ioa d hv hd⟩
    · rcases hcuts.value ioa d (by omega) with he | he
      · exact ⟨_, he⟩
      · exact ⟨_, he⟩
  · have hsize := size_eq hn h50
    rw [if_neg ht, Nat.add_zero] at hsize
    subst hsize
    refine ⟨fun ioa d hd => ?_, fun ioa d hd => ?_⟩
    · obtain ⟨vq, hv⟩ := (decVal_reads t d).ok hd
      exact ⟨⟨ioa, t, vq.1, vq.2, cot, coa, none, some false⟩, by
        simp only [decObj, hv, ht, if_false, bind, Except.bind, pure, Except.pure]⟩
    · rcases (decVal_reads t d).caught (Nat.not_le.mpr hd) with he | he
      · exact ⟨_, by rw [decObj, he]; rfl⟩
      · exact ⟨_, by rw [decObj, he]; rfl⟩

theorem decObj_setpoint (cot coa n ioa : Nat) (d : Bytes) : ∃ o, decObj AsduTypeId.cSeNc1 cot coa n ioa d = .ok o :=
  ⟨_, rfl⟩

/-! ## Frames -/

section Frames

variable {f : Bytes} {t v : UInt8} {n : Nat}

/-- Every returned object is of its own slot. -/
theorem decode_slots (h : 12 ≤ f.length) (h6 : f[6]? = some t) (h7 : f[7]? = some v)
    (hn : asduDataSize.lookup (t.toNat : Int) = some n) {objs : List Obj} (hd : decodeIFrameObjects f = .ok objs) :
    ∀ i o, objs[i]? = some o →
      decObj t.toNat (leNat (slice f 8 10)) (leNat (slice f 10 12)) n (slotIoa f v n i) (slotData f v n i) = .ok o := by
  intro i o hi
  rw [decode_eq h h6 h7 hn] at hd
  unfold slotIoa slotData
  by_cases hseq : v.toNat &&& 0x80 ≠ 0
  · rw [if_pos hseq] at hd
    rw [if_pos hseq, if_pos hseq]
    rw [decSeq_eq] at hd
    have hslot := readAll_slots hd i o hi
    rw [Nat.zero_add, seqSlot, slice_drop, ← Nat.add_assoc, ← Nat.add_assoc, ← Nat.add_assoc] at hslot
    exact hslot
  · rw [if_neg hseq] at hd
    rw [if_neg hseq, if_neg hseq]
    rw [decList_eq] at hd
    have hslot := readAll_slots hd i o hi
    rw [Nat.zero_add, listSlot, slice_drop, slice_drop] at hslot
    have h12 : ∀ k, 6 + (6 + k) = 12 + k := fun k => by omega
    have h15 : ∀ k, 6 + (6 + k + 3) = 15 + k := fun k => by omega
    have hend : ∀ k, 6 + (6 + k + 3 + n) = 15 + k + n := fun k => by omega
    rw [h12, h15, hend] at hslot
    exact hslot

theorem contained_iff_length (h : 12 ≤ f.length) (h6 : f[6]? = some t) (h7 : f[7]? = some v)
    (hn : asduDataSize.lookup (t.toNat : Int) = some n) {objs : List Obj} (hd : decodeIFrameObjects f = .ok objs) :
    Contained f objs ↔ objs.length = slots f v n := by
  have hslots := decode_slots h h6 h7 hn hd
  unfold slotIoa slotData at hslots
  rw [Contained, h6, h7]
  dsimp only
  rw [hn, slots]
  dsimp only
  by_cases hseq : v.toNat &&& 0x80 ≠ 0
  · simp only [if_pos hseq] at hslots ⊢
    exact and_iff_left hslots
  · simp only [if_neg hseq] at hslots ⊢
    exact and_iff_left hslots

/-- Any type but the set point: what the decoder returns is what the frame contains. -/
theorem decode_sharp (h : 12 ≤ f.length) (h6 : f[6]? = some t) (h7 : f[7]? = some v)
    (hn : asduDataSize.lookup (t.toNat : Int) = some n) (h50 : (t.toNat : Int) ≠ AsduTypeId.cSeNc1)
    {objs : List Obj} (hd : decodeIFrameObjects f = .ok objs) : Contained f objs := by
  rw [contained_iff_length h h6 h7 hn hd, slots]
  rw [decode_eq h h6 h7 hn] at hd
  have hsharp := decObj_sharp hn h50 (leNat (slice f 8 10)) (leNat (slice f 10 12))
  have h0 := (asduDataSize_bounds _ _ hn).1
  have hlen : (f.drop 6).length = f.length - 6 := List.length_drop
  by_cases hseq : v.toNat &&& 0x80 ≠ 0
  · rw [if_pos hseq] at hd ⊢
    rw [decSeq_length hsharp h0 hd, hlen, Nat.sub_sub]
  · rw [if_neg hseq] at hd ⊢
    rw [decList_length hsharp h0 hd, hlen, Nat.sub_sub]

/-- Set points: as many objects as are announced. -/
theorem decode_setpoints (h : 12 ≤ f.length) (h6 : f[6]? = some t) (h7 : f[7]? = some v)
    (h50 : (t.toNat : Int) = AsduTypeId.cSeNc1) :
    ∃ objs, decodeIFrameObjects f = .ok objs ∧ objs.length = v.toNat &&& 0x7F := by
  have hn : asduDataSize.lookup (t.toNat : Int) = some 5 := by rw [h50]; rfl
  rw [decode_eq h h6 h7 hn, h50]
  have hdec := decObj_setpoint (leNat (slice f 8 10)) (leNat (slice f 10 12)) 5
  by_cases hseq : v.toNat &&& 0x80 ≠ 0
  · rw [if_pos hseq, decSeq_eq]
    exact readAll_announced (fun j => hdec _ _) _ _
  · rw [if_neg hseq, decList_eq]
    exact readAll_announced (fun j => hdec _ _) _ _

theorem cutsTime_of_ok {objs : List Obj} (h : decodeIFrameObjects f = .ok objs) : cutsTime f = false := by
  rw [Bool.eq_false_iff]
  intro hc
  obtain ⟨e, he⟩ := (decode_raises_iff f).mpr hc
  rw [h] at he
  cases he

theorem overdrawn_iff (h : 12 ≤ f.length) (h6 : f[6]? = some t) (h7 : f[7]? = some v) :
    overdrawn f = true ↔ (t.toNat : Int) = AsduTypeId.cSeNc1 ∧
      (if v.toNat &&& 0x80 ≠ 0 then (f.length - 15) / 5 else (f.length - 12) / 8) < v.toNat &&& 0x7F := by
  rw [overdrawn, h6, h7]
  dsimp only
  rw [decide_eq_true h, Bool.true_and, Bool.and_eq_true, decide_eq_true_eq]
  by_cases hseq : v.toNat &&& 0x80 ≠ 0
  · rw [if_pos hseq, if_pos hseq, decide_eq_true_eq]
  · rw [if_neg hseq, if_neg hseq, decide_eq_true_eq]

theorem contained_short (h : f.length < 12) : Contained f [] := by
  unfold Contained
  have h15 : f.length - 15 = 0 := by omega
  have h12 : f.length - 12 = 0 := by omega
  split
  · split
    · rfl
    · dsimp only
      split
      · exact ⟨by rw [h15, Nat.zero_div, Nat.min_zero]; rfl, fun i o hi => by cases hi⟩
      · exact ⟨by rw [h12, Nat.zero_div, Nat.min_zero]; rfl, fun i o hi => by cases hi⟩
  · rfl

/-- The decoder returns what a frame contains exactly if the frame does not end inside a time
    tag and does not announce set points it has not got. -/
theorem decode_contained (f : Bytes) : (∃ objs, decodeIFrameObjects f = .ok objs ∧ Contained f objs) ↔
    cutsTime f = false ∧ overdrawn f = false := by
  cases heading f with
  | short h12 =>
    have hd := decode_short h12
    have ho : overdrawn f = false := by
      unfold overdrawn
      split
      · rw [decide_eq_false (Nat.not_le.mpr h12)]
        rfl
      · rfl
    exact iff_of_true ⟨[], hd, contained_short h12⟩ ⟨cutsTime_of_ok hd, ho⟩
  | unknown t v h h6 h7 hn =>
    have hd := decode_unknown h h6 h7 hn
    have hnil : Contained f [] := by
      rw [Contained, h6, h7]
      dsimp only
      rw [hn]
    refine iff_of_true ⟨[], hd, hnil⟩ ⟨cutsTime_of_ok hd, Bool.eq_false_iff.mpr fun ho => ?_⟩
    rw [((overdrawn_iff h h6 h7).mp ho).1] at hn
    cases hn
  | known t v n h h6 h7 hn =>
    by_cases h50 : (t.toNat : Int) = AsduTypeId.cSeNc1
    · -- set points: nothing raises, the count decides
      obtain ⟨objs, hd, hlen⟩ := decode_setpoints h h6 h7 h50
      have h5 : n = 5 := by
        rw [h50] at hn
        cases hn
        rfl
      subst h5
      have hcont : Contained f objs ↔ overdrawn f = false := by
        rw [contained_iff_length h h6 h7 hn hd, slots, hlen, ← Bool.not_eq_true, overdrawn_iff h h6 h7,
          and_iff_right h50]
        have h8 : (f.length - 12) / (3 + 5) = (f.length - 12) / 8 := rfl
        rw [h8]
        omega
      constructor
      · intro hc
        obtain ⟨objs', hd', hc⟩ := hc
        rw [hd] at hd'
        cases hd'
        exact ⟨cutsTime_of_ok hd, hcont.mp hc⟩
      · intro hc
        exact ⟨objs, hd, hcont.mpr hc.2⟩
    · have ho : overdrawn f = false := by
        rw [Bool.eq_false_iff]
        intro ho
        exact h50 ((overdrawn_iff h h6 h7).mp ho).1
      constructor
      · intro hc
        obtain ⟨objs, hd, -⟩ := hc
        exact ⟨cutsTime_of_ok hd, ho⟩
      · intro hc
        cases hd : decodeIFrameObjects f with
        | error e =>
          rw [(decode_raises_iff f).mp ⟨e, hd⟩] at hc
          cases hc.1
        | ok objs => exact ⟨objs, rfl, decode_sharp h h6 h7 hn h50 hd⟩

/-- A time tag that is cut off escapes as ValueError; a set point of no octets is returned. -/
theorem decode_fabricates :
    decodeIFrameObjects [0x68, 17, 0, 0, 0, 0, 30, 1, 3, 0, 1, 0, 100, 0, 0, 1, 0, 0, 0] = .error .valueError ∧
      ∃ o, decodeIFrameObjects [0x68, 10, 0, 0, 0, 0, 50, 1, 3, 0, 1, 0] = .ok [o] ∧
        ¬ Contained [0x68, 10, 0, 0, 0, 0, 50, 1, 3, 0, 1, 0] [o] := by
  refine ⟨by decide, ⟨0, 50, none, 0, 3, 1, none, some false⟩, by decide, fun hc => ?_⟩
  have hlen : 1 = min 1 0 := hc.1
  cases hlen

end Frames

end Drv60870.Protocol
