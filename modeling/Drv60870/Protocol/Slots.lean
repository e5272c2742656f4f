/-
  Drv60870.Protocol.Slots — the two loops of `decode_i_frame_objects` as one.

  Both read object after object from slots of one size, until one cannot be read; they differ
  in where a slot begins and where its address comes from. `readAll` is such a loop over any
  reader.

  Proved:
  - Both loops are of this kind (`decSeq_eq`, `decList_eq`), and the heading of a frame says
    which of them it is given to (`decode_eq`).
  - Every object returned is of its own slot (`readAll_slots`); a reader that fails exactly
    where a slot is not whole returns the whole ones (`readAll_length`), one that never fails
    as many as are announced (`readAll_announced`).
-/

import Drv60870.Protocol.Codec

namespace Drv60870.Protocol

open Lib.Octets Lib.Python Drv60870.Const

/-- Object after object, from the one at `j` on. `IndexError` and `struct.error` end it; other errors escape. -/
def readAll (read : Nat → Except PyErr Obj) : Nat → Nat → Except PyErr (List Obj)
  | 0, _ => return []
  | count + 1, j =>
    match read j with
    | .ok o => return o :: (← readAll read count (j + 1))
    | .error .indexError => return []
    | .error .structError => return []
    | .error e => .error e

section Forms

variable (dec : Nat → Bytes → Except PyErr Obj) (asdu : Bytes) (size : Nat)

def seqSlot (base offset j : Nat) : Except PyErr Obj :=
  dec (base + j) (slice asdu (offset + j * size) (offset + j * size + size))

def listSlot (offset j : Nat) : Except PyErr Obj :=
  dec (leNat (slice asdu (offset + j * (3 + size)) (offset + j * (3 + size) + 3)))
    (slice asdu (offset + j * (3 + size) + 3) (offset + j * (3 + size) + 3 + size))

theorem length_seqSlot (offset j : Nat) : (slice asdu (offset + j * size) (offset + j * size + size)).length =
    min size (asdu.length - offset - j * size) := by
  rw [length_slice]
  omega

theorem length_listSlot (offset j : Nat) :
    (slice asdu (offset + j * (3 + size) + 3) (offset + j * (3 + size) + 3 + size)).length =
      min size (asdu.length - offset - j * (3 + size) - 3) := by
  rw [length_slice]
  omega

theorem decSeq_from (base offset : Nat) : ∀ count j,
    decSeq dec asdu size base count j (offset + j * size) = readAll (seqSlot dec asdu size base offset) count j := by
  intro count
  induction count with
  | zero => exact fun j => rfl
  | succ count ih =>
    intro j
    have hnext : offset + j * size + size = offset + (j + 1) * size := by rw [Nat.succ_mul, Nat.add_assoc]
    rw [decSeq, readAll, hnext, ih, ← hnext]
    rfl

theorem decSeq_eq (base count offset : Nat) :
    decSeq dec asdu size base count 0 offset = readAll (seqSlot dec asdu size base offset) count 0 := by
  have h := decSeq_from dec asdu size base offset count 0
  rw [Nat.zero_mul, Nat.add_zero] at h
  exact h

theorem decList_from (offset : Nat) : ∀ count j,
    decList dec asdu size count (offset + j * (3 + size)) = readAll (listSlot dec asdu size offset) count j := by
  intro count
  induction count with
  | zero => exact fun j => rfl
  | succ count ih =>
    intro j
    have hnext : offset + j * (3 + size) + 3 + size = offset + (j + 1) * (3 + size) := by
      rw [Nat.succ_mul, Nat.add_assoc, Nat.add_assoc]
    rw [decList, readAll, hnext, ih, ← hnext]
    rfl

theorem decList_eq (count offset : Nat) :
    decList dec asdu size count offset = readAll (listSlot dec asdu size offset) count 0 := by
  have h := decList_from dec asdu size offset count 0
  rw [Nat.zero_mul, Nat.add_zero] at h
  exact h

end Forms

theorem seqSlot_whole {dec : Nat → Bytes → Except PyErr Obj} {size : Nat}
    (h : ∀ ioa d, size ≤ d.length → ∃ o, dec ioa d = .ok o) (asdu : Bytes) (base offset : Nat) {j : Nat}
    (hj : (j + 1) * size ≤ asdu.length - offset) : ∃ o, seqSlot dec asdu size base offset j = .ok o := by
  rw [Nat.succ_mul] at hj
  exact h _ _ (by rw [length_seqSlot]; omega)

theorem listSlot_whole {dec : Nat → Bytes → Except PyErr Obj} {size : Nat}
    (h : ∀ ioa d, size ≤ d.length → ∃ o, dec ioa d = .ok o) (asdu : Bytes) (offset : Nat) {j : Nat}
    (hj : (j + 1) * (3 + size) ≤ asdu.length - offset) : ∃ o, listSlot dec asdu size offset j = .ok o := by
  rw [Nat.succ_mul] at hj
  exact h _ _ (by rw [length_listSlot]; omega)

section Loop

variable {read : Nat → Except PyErr Obj}

/-- Every returned object is of its own slot. -/
theorem readAll_slots : ∀ {count i objs}, readAll read count i = .ok objs →
    ∀ j o, objs[j]? = some o → read (i + j) = .ok o := by
  intro count
  induction count with
  | zero =>
    intro i objs h j o hj
    cases h
    cases hj
  | succ count ih =>
    intro i objs h j o hj
    rw [readAll] at h
    split at h
    · rename_i o' ho
      obtain ⟨rest, hrest, h⟩ := bind_eq_ok.mp h
      cases ok_inj h
      cases j with
      | zero =>
        cases hj
        exact ho
      | succ j =>
        rw [Nat.add_comm j, ← Nat.add_assoc]
        exact ih hrest j o hj
    · cases h
      cases hj
    · cases h
      cases hj
    · cases h

/-- Where only the errors that end the loop are raised, it returns. -/
theorem readAll_caught (h : ∀ j e, read j = .error e → e = .indexError ∨ e = .structError) :
    ∀ count j, ∃ objs, readAll read count j = .ok objs := by
  intro count
  induction count with
  | zero => exact fun j => ⟨[], rfl⟩
  | succ count ih =>
    intro j
    rw [readAll]
    cases hd : read j with
    | ok o =>
      obtain ⟨objs, hobjs⟩ := ih (j + 1)
      rw [hobjs]
      exact ⟨_, rfl⟩
    | error e =>
      rcases h j e hd with rfl | rfl
      · exact ⟨[], rfl⟩
      · exact ⟨[], rfl⟩

/-- A reader that never fails returns as many objects as are announced. -/
theorem readAll_announced (h : ∀ j, ∃ o, read j = .ok o) :
    ∀ count j, ∃ objs, readAll read count j = .ok objs ∧ objs.length = count := by
  intro count
  induction count with
  | zero => exact fun j => ⟨[], rfl, rfl⟩
  | succ count ih =>
    intro j
    obtain ⟨o, ho⟩ := h j
    obtain ⟨objs, hobjs, hlen⟩ := ih (j + 1)
    refine ⟨o :: objs, ?_, by rw [List.length_cons, hlen]⟩
    rw [readAll, ho]
    dsimp only
    rw [hobjs]
    rfl

/-- A reader that fails where a slot is not whole returns the whole ones. -/
theorem readAll_length {total size : Nat} (h0 : 0 < size) (hw : ∀ j, (j + 1) * size ≤ total → ∃ o, read j = .ok o)
    (hs : ∀ j, total < (j + 1) * size → ∃ e, read j = .error e) :
    ∀ {count j objs}, readAll read count j = .ok objs → objs.length = min count (total / size - j) := by
  intro count
  induction count with
  | zero =>
    intro j objs h
    cases h
    rw [Nat.zero_min]
    rfl
  | succ count ih =>
    intro j objs h
    have hdiv : (j + 1) * size ≤ total ↔ j + 1 ≤ total / size := (Nat.le_div_iff_mul_le h0).symm
    rw [readAll] at h
    by_cases hj : (j + 1) * size ≤ total
    · obtain ⟨o, ho⟩ := hw j hj
      rw [ho] at h
      obtain ⟨rest, hrest, h⟩ := bind_eq_ok.mp h
      cases ok_inj h
      rw [List.length_cons, ih hrest]
      omega
    · obtain ⟨e, he⟩ := hs j (Nat.not_le.mp hj)
      rw [he] at h
      have hnil : objs = [] := by
        cases e with
        | indexError => exact (Except.ok.inj h).symm
        | structError => exact (Except.ok.inj h).symm
        | valueError => cases h
        | overflowError => cases h
      rw [hnil, List.length_nil]
      omega

end Loop

/-! ## The heading of a frame -/

section Frames

variable {f : Bytes} {t v : UInt8} {n : Nat}

theorem decode_short (h : f.length < 12) : decodeIFrameObjects f = .ok [] := if_pos h

/-- The decoder, by the octets of the frame. -/
theorem decode_eq (h : 12 ≤ f.length) (h6 : f[6]? = some t) (h7 : f[7]? = some v)
    (hn : asduDataSize.lookup (t.toNat : Int) = some n) : decodeIFrameObjects f =
      if v.toNat &&& 0x80 ≠ 0 then
        decSeq (decObj t.toNat (leNat (slice f 8 10)) (leNat (slice f 10 12)) n) (f.drop 6) n (leNat (slice f 12 15))
          (v.toNat &&& 0x7F) 0 9
      else
        decList (decObj t.toNat (leNat (slice f 8 10)) (leNat (slice f 10 12)) n) (f.drop 6) n
          (v.toNat &&& 0x7F) 6 := by
  have hlen : (f.drop 6).length = f.length - 6 := List.length_drop
  have ht : index (f.drop 6) 0 = .ok t := by rw [index, List.getElem?_drop, h6]
  have hv : index (f.drop 6) 1 = .ok v := by rw [index, List.getElem?_drop, h7]
  have hcot : unpackU 2 (slice (f.drop 6) 2 4) = .ok (leNat (slice f 8 10)) := by
    rw [unpackU_ok (by rw [length_slice]; omega), slice_drop]
  have hcoa : unpackU 2 (slice (f.drop 6) 4 6) = .ok (leNat (slice f 10 12)) := by
    rw [unpackU_ok (by rw [length_slice]; omega), slice_drop]
  have hbase : slice (f.drop 6) 6 9 = slice f 12 15 := slice_drop f 6 6 9
  simp only [decodeIFrameObjects, Nat.not_lt.mpr h, if_false, ht, hv, hcot, hcoa, hbase, hn, bind, Except.bind, pure,
    Except.pure]

/-- A type that is not in the table has no objects. -/
theorem decode_unknown (h : 12 ≤ f.length) (h6 : f[6]? = some t) (h7 : f[7]? = some v)
    (hn : asduDataSize.lookup (t.toNat : Int) = none) : decodeIFrameObjects f = .ok [] := by
  have hlen : (f.drop 6).length = f.length - 6 := List.length_drop
  have ht : index (f.drop 6) 0 = .ok t := by rw [index, List.getElem?_drop, h6]
  have hv : index (f.drop 6) 1 = .ok v := by rw [index, List.getElem?_drop, h7]
  have hcot := unpackU_ok (show (slice (f.drop 6) 2 4).length = 2 by rw [length_slice]; omega)
  have hcoa := unpackU_ok (show (slice (f.drop 6) 4 6).length = 2 by rw [length_slice]; omega)
  simp only [decodeIFrameObjects, Nat.not_lt.mpr h, if_false, ht, hv, hcot, hcoa, hn, bind, Except.bind, pure,
    Except.pure]

/-- A frame is too short to have objects, or its type is unknown or known. -/
inductive Heading (f : Bytes) : Prop
  | short : f.length < 12 → Heading f
  | unknown (t v : UInt8) : 12 ≤ f.length → f[6]? = some t → f[7]? = some v →
      asduDataSize.lookup (t.toNat : Int) = none → Heading f
  | known (t v : UInt8) (n : Nat) : 12 ≤ f.length → f[6]? = some t → f[7]? = some v →
      asduDataSize.lookup (t.toNat : Int) = some n → Heading f

theorem heading (f : Bytes) : Heading f := by
  by_cases h : f.length < 12
  · exact .short h
  · have h6 : f[6]? = some f[6] := List.getElem?_eq_getElem _
    have h7 : f[7]? = some f[7] := List.getElem?_eq_getElem _
    cases hn : asduDataSize.lookup (f[6].toNat : Int) with
    | none => exact .unknown _ _ (Nat.not_lt.mp h) h6 h7 hn
    | some n => exact .known _ _ n (Nat.not_lt.mp h) h6 h7 hn

end Frames

end Drv60870.Protocol
