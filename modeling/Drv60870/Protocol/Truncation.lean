/-
  Drv60870.Protocol.Truncation — frames that end inside an object.

  `decode_i_frame_objects` drops an object whose value is cut off: reading it raises
  IndexError or struct.error, and both are caught. A time tag that is cut off raises
  ValueError, and that escapes. `Reads p` is a reading that succeeds if `p` and otherwise
  raises what is caught; it composes (`Reads.bind`).

  Proved:
  - A value is read exactly where its octets are there (`decVal_reads`), and the table counts
    what is read and the time tag, but for set points (`size_eq`, `tagged_eq`).
  - The decoder raises exactly on a frame that ends inside a time tag (`decode_raises_iff`).
-/

import Drv60870.Protocol.Slots
import Drv60870.Protocol.Time

namespace Drv60870.Protocol

open Lib.Octets Lib.Calendar Lib.Ieee Lib.Python Drv60870.Const

/-! ## Reading -/

/-- A reading that succeeds if `p`, and otherwise raises what the decoder catches. -/
def Reads {α : Type} (x : Except PyErr α) (p : Prop) : Prop :=
  (p ∧ ∃ r, x = .ok r) ∨ (¬ p ∧ (x = .error .indexError ∨ x = .error .structError))

theorem Reads.ok {α : Type} {x : Except PyErr α} {p : Prop} (h : Reads x p) (hp : p) : ∃ r, x = .ok r := by
  rcases h with ⟨-, hr⟩ | ⟨hn, -⟩
  · exact hr
  · exact absurd hp hn

theorem Reads.caught {α : Type} {x : Except PyErr α} {p : Prop} (h : Reads x p) (hp : ¬ p) :
    x = .error .indexError ∨ x = .error .structError := by
  rcases h with ⟨hy, -⟩ | ⟨-, he⟩
  · exact absurd hy hp
  · exact he

theorem reads_pure {α : Type} (a : α) : Reads (pure a) True := .inl ⟨trivial, a, rfl⟩

theorem Reads.bind {α β : Type} {x : Except PyErr α} {f : α → Except PyErr β} {p q : Prop} (hx : Reads x p)
    (hf : ∀ a, Reads (f a) q) : Reads (x >>= f) (p ∧ q) := by
  rcases hx with ⟨hp, a, rfl⟩ | ⟨hp, he⟩
  · rcases hf a with ⟨hq, b, hb⟩ | ⟨hq, he⟩
    · exact .inl ⟨⟨hp, hq⟩, b, hb⟩
    · exact .inr ⟨fun h => hq h.2, he⟩
  · refine .inr ⟨fun h => hp h.1, ?_⟩
    rcases he with rfl | rfl
    · exact .inl rfl
    · exact .inr rfl

theorem Reads.congr {α : Type} {x : Except PyErr α} {p q : Prop} (h : Reads x p) (hpq : p ↔ q) : Reads x q := by
  rw [Reads, ← hpq]
  exact h

theorem reads_index (d : Bytes) (i : Nat) : Reads (index d i) (i < d.length) := by
  by_cases h : i < d.length
  · exact .inl ⟨h, _, index_ok h⟩
  · exact .inr ⟨h, .inl (index_error (Nat.not_lt.mp h))⟩

theorem reads_unpackU (w : Nat) (d : Bytes) : Reads (unpackU w d) (d.length = w) := by
  by_cases h : d.length = w
  · exact .inl ⟨h, _, unpackU_ok h⟩
  · exact .inr ⟨h, .inr (unpackU_error h)⟩

theorem reads_unpackS (w : Nat) (d : Bytes) : Reads (unpackS w d) (d.length = w) := by
  unfold unpackS
  split
  · rename_i h
    exact .inl ⟨h, _, rfl⟩
  · rename_i h
    exact .inr ⟨h, .inr rfl⟩

theorem reads_unpackF (d : Bytes) : Reads (unpackF d) (d.length = 4) := by
  unfold unpackF
  split
  · rename_i h
    exact .inl ⟨h, _, rfl⟩
  · rename_i h
    exact .inr ⟨h, .inr rfl⟩

theorem length_slice_eq {d : Bytes} {w : Nat} : (slice d 0 w).length = w ↔ w ≤ d.length := by
  rw [length_slice]
  omega

/-! ## Values -/

theorem reads_octet (d : Bytes) (g : UInt8 → Option Val × Nat) : Reads (do return g (← index d 0)) (1 ≤ d.length) :=
  ((reads_index d 0).bind fun a => reads_pure (g a)).congr (by rw [and_true]; exact Iff.rfl)

theorem reads_field {α : Type} {x : Except PyErr α} {d : Bytes} {w : Nat} (hx : Reads x ((slice d 0 w).length = w))
    (g : α → UInt8 → Option Val × Nat) : Reads (do let v ← x; let q ← index d w; return g v q) (w + 1 ≤ d.length) := by
  refine (hx.bind fun v => (reads_index d w).bind fun q => reads_pure (g v q)).congr ?_
  rw [length_slice_eq, and_true]
  omega

/-- A step position: the seven bits of the value are read before the quality. -/
theorem reads_step (d : Bytes) : Reads (do
    let a ← index d 0
    let v ← unpackS 1 [a &&& 0x7F]
    let q ← index d 1
    return (some (Val.int v), q.toNat)) (2 ≤ d.length) := by
  have hrest : ∀ a : UInt8, Reads (do
      let v ← unpackS 1 [a &&& 0x7F]
      let q ← index d 1
      return (some (Val.int v), q.toNat)) (1 < d.length) := by
    intro a
    refine ((reads_unpackS 1 [a &&& 0x7F]).bind fun v => (reads_index d 1).bind fun q => reads_pure _).congr ?_
    simp
  refine ((reads_index d 0).bind hrest).congr ?_
  omega

def valueSize (t : Int) : Nat :=
  if t ∈ [1, 30, 45] then 1
  else if t ∈ [3, 31, 46] then 1
  else if t ∈ [5, 32] then 2
  else if t ∈ [7, 33] then 5
  else if t ∈ [9, 11, 34, 35] then 3
  else if t ∈ [13, 36] then 5
  else if t ∈ [15, 37] then 5
  else if t = 100 then 1
  else 0

theorem decVal_reads (t : Int) (d : Bytes) : Reads (decVal t d) (valueSize t ≤ d.length) := by
  unfold decVal valueSize
  split
  · exact reads_octet d _
  split
  · exact reads_octet d _
  split
  · exact reads_step d
  split
  · exact reads_field (reads_unpackU 4 _) _
  split
  · exact reads_field (reads_unpackS 2 _) _
  split
  · exact reads_field (reads_unpackF _) _
  split
  · exact reads_field (reads_unpackS 4 _) _
  split
  · exact reads_octet d _
  · exact (reads_pure _).congr (iff_of_true trivial (Nat.zero_le _))

/-- The table counts what is read and the time tag; a set point (50) is not read. -/
theorem size_eq {t : Int} {n : Nat} (hn : asduDataSize.lookup t = some n) (h50 : t ≠ AsduTypeId.cSeNc1) :
    n = valueSize t + if t ∈ tsTypes then 7 else 0 := by
  have hall : ∀ p ∈ asduDataSize, p.1 ≠ AsduTypeId.cSeNc1 → p.2 = valueSize p.1 + if p.1 ∈ tsTypes then 7 else 0 := by
    decide
  obtain ⟨l, r, hl, -⟩ := List.lookup_eq_some_iff.mp hn
  exact hall (t, n) (by rw [hl]; exact List.mem_append_right _ List.mem_cons_self) h50

/-- A time tag stands behind a value and its quality. -/
theorem tagged_eq {t : Int} {n : Nat} (hn : asduDataSize.lookup t = some n) (ht : t ∈ tsTypes) :
    n = valueSize t + 7 := by
  have h50 : t ≠ AsduTypeId.cSeNc1 := by
    intro he
    rw [he] at ht
    exact absurd ht (by decide)
  have h := size_eq hn h50
  rw [if_pos ht] at h
  exact h

theorem tagged_size {t : Int} {n : Nat} (hn : asduDataSize.lookup t = some n) (ht : t ∈ tsTypes) : 7 < n := by
  have hall : ∀ t ∈ tsTypes, 0 < valueSize t := by decide
  have := hall t ht
  have := tagged_eq hn ht
  omega

/-! ## Objects -/

/-- An object of `n` octets by how much of it is there: all; its value, and not all of its
    time; less than its value. -/
structure CutsTime (dec : Nat → Bytes → Except PyErr Obj) (n : Nat) : Prop where
  whole : ∀ ioa d, n ≤ d.length → ∃ o, dec ioa d = .ok o
  time : ∀ ioa d, n - 7 ≤ d.length → d.length < n → dec ioa d = .error .valueError
  value : ∀ ioa d, d.length < n - 7 → dec ioa d = .error .indexError ∨ dec ioa d = .error .structError

theorem decObj_cutsTime {t : Int} {n : Nat} (hn : asduDataSize.lookup t = some n) (ht : t ∈ tsTypes) (cot coa : Nat) :
    CutsTime (decObj t cot coa n) n := by
  have hn7 := tagged_eq hn ht
  constructor
  · intro ioa d hd
    obtain ⟨vq, hv⟩ := (decVal_reads t d).ok (by omega)
    obtain ⟨tv, hts⟩ := fromCp56_ok (b := d.drop (n - 7)) (by
      rw [List.length_drop]
      omega)
    exact ⟨⟨ioa, t, vq.1, vq.2, cot, coa, tv.1, tv.2⟩, by
      simp only [decObj, hv, ht, if_true, hts, bind, Except.bind, pure, Except.pure]⟩
  · intro ioa d hd hlt
    obtain ⟨vq, hv⟩ := (decVal_reads t d).ok (by omega)
    have hts := fromCp56_short (b := d.drop (n - 7)) (by rw [List.length_drop]; omega)
    simp only [decObj, hv, ht, if_true, hts, bind, Except.bind]
  · intro ioa d hd
    rcases (decVal_reads t d).caught (by omega) with hv | hv
    · left
      rw [decObj, hv]
      rfl
    · right
      rw [decObj, hv]
      rfl

theorem decObj_caught {t : Int} (ht : t ∉ tsTypes) (cot coa n ioa : Nat) (d : Bytes) {e : PyErr}
    (h : decObj t cot coa n ioa d = .error e) : e = .indexError ∨ e = .structError := by
  have hr := decVal_reads t d
  by_cases hp : valueSize t ≤ d.length
  · obtain ⟨vq, hv⟩ := hr.ok hp
    simp only [decObj, hv, ht, if_false, bind, Except.bind, pure, Except.pure] at h
    cases h
  · rcases hr.caught hp with hv | hv
    · simp only [decObj, hv, bind, Except.bind] at h
      cases h
      exact .inl rfl
    · simp only [decObj, hv, bind, Except.bind] at h
      cases h
      exact .inr rfl

/-! ## The loops -/

/-- Objects of `size` octets end inside a time tag: among the `count` announced, the first that
    is not whole lacks fewer octets than a time tag has, or all of them. -/
def endsInTime (rest size count : Nat) : Prop := rest / size < count ∧ size - 7 ≤ rest % size

instance (rest size count : Nat) : Decidable (endsInTime rest size count) := inferInstanceAs (Decidable (_ ∧ _))

theorem endsInTime_whole {rest size count : Nat} (h0 : 0 < size) (h : size ≤ rest) :
    endsInTime rest size (count + 1) ↔ endsInTime (rest - size) size count := by
  rw [endsInTime, endsInTime, Nat.mod_eq_sub_mod h, Nat.div_eq_sub_div h0 h, Nat.add_lt_add_iff_right]

theorem endsInTime_part {rest size count : Nat} (h : rest < size) :
    endsInTime rest size (count + 1) ↔ size - 7 ≤ rest := by
  rw [endsInTime, Nat.div_eq_of_lt h, Nat.mod_eq_of_lt h]
  omega

theorem bind_raises {α β : Type} {x : Except PyErr α} {g : α → β} :
    (∃ e, (do return g (← x)) = Except.error e) ↔ ∃ e, x = .error e := by
  cases x with
  | error e => exact ⟨fun _ => ⟨e, rfl⟩, fun _ => ⟨e, rfl⟩⟩
  | ok a =>
    constructor
    · intro h
      obtain ⟨e, h⟩ := h
      cases h
    · intro h
      obtain ⟨e, h⟩ := h
      cases h

/-- A loop over slots by how much of the octets is left: it raises where they end inside a time tag. -/
theorem readAll_raises {read : Nat → Except PyErr Obj} {total size : Nat} (h7 : 7 < size)
    (hw : ∀ j, (j + 1) * size ≤ total → ∃ o, read j = .ok o)
    (ht : ∀ j, total < (j + 1) * size → j * size + (size - 7) ≤ total → read j = .error .valueError)
    (hv : ∀ j, total < j * size + (size - 7) → read j = .error .indexError ∨ read j = .error .structError) :
    ∀ count j, (∃ e, readAll read count j = .error e) ↔ endsInTime (total - j * size) size count := by
  intro count
  induction count with
  | zero =>
    intro j
    refine iff_of_false (fun he => ?_) fun he => absurd he.1 (Nat.not_lt_zero _)
    obtain ⟨e, he⟩ := he
    cases he
  | succ count ih =>
    intro j
    have hnext : (j + 1) * size = j * size + size := Nat.succ_mul j size
    rw [readAll]
    by_cases hj : (j + 1) * size ≤ total
    · obtain ⟨o, ho⟩ := hw j hj
      rw [ho]
      dsimp only
      rw [bind_raises, ih, endsInTime_whole (by omega) (by omega), hnext, Nat.sub_sub]
    · rw [endsInTime_part (by omega)]
      by_cases hl : j * size + (size - 7) ≤ total
      · rw [ht j (Nat.not_le.mp hj) hl]
        exact iff_of_true ⟨_, rfl⟩ (by omega)
      · refine iff_of_false (fun he => ?_) (by omega)
        obtain ⟨e, he⟩ := he
        rcases hv j (Nat.not_le.mp hl) with hd | hd
        · rw [hd] at he
          cases he
        · rw [hd] at he
          cases he

theorem decSeq_raises {dec : Nat → Bytes → Except PyErr Obj} {n : Nat} (h : CutsTime dec n) (h7 : 7 < n)
    (asdu : Bytes) (base count offset : Nat) : (∃ e, decSeq dec asdu n base count 0 offset = .error e) ↔
      endsInTime (asdu.length - offset) n count := by
  have hw : ∀ j, (j + 1) * n ≤ asdu.length - offset → ∃ o, seqSlot dec asdu n base offset j = .ok o :=
    fun j hj => seqSlot_whole h.whole asdu base offset hj
  have ht : ∀ j, asdu.length - offset < (j + 1) * n → j * n + (n - 7) ≤ asdu.length - offset →
      seqSlot dec asdu n base offset j = .error .valueError := by
    intro j hj hl
    rw [Nat.succ_mul] at hj
    exact h.time _ _ (by rw [length_seqSlot]; omega) (by rw [length_seqSlot]; omega)
  have hv : ∀ j, asdu.length - offset < j * n + (n - 7) → seqSlot dec asdu n base offset j = .error .indexError ∨
      seqSlot dec asdu n base offset j = .error .structError :=
    fun j hj => h.value _ _ (by rw [length_seqSlot]; omega)
  have hiff := readAll_raises h7 hw ht hv count 0
  rw [Nat.zero_mul, Nat.sub_zero, ← decSeq_eq] at hiff
  exact hiff

theorem decList_raises {dec : Nat → Bytes → Except PyErr Obj} {n : Nat} (h : CutsTime dec n) (h7 : 7 < n)
    (asdu : Bytes) (count offset : Nat) : (∃ e, decList dec asdu n count offset = .error e) ↔
      endsInTime (asdu.length - offset) (n + 3) count := by
  have hw : ∀ j, (j + 1) * (3 + n) ≤ asdu.length - offset → ∃ o, listSlot dec asdu n offset j = .ok o :=
    fun j hj => listSlot_whole h.whole asdu offset hj
  have ht : ∀ j, asdu.length - offset < (j + 1) * (3 + n) → j * (3 + n) + (3 + n - 7) ≤ asdu.length - offset →
      listSlot dec asdu n offset j = .error .valueError := by
    intro j hj hl
    rw [Nat.succ_mul] at hj
    exact h.time _ _ (by rw [length_listSlot]; omega) (by rw [length_listSlot]; omega)
  have hv : ∀ j, asdu.length - offset < j * (3 + n) + (3 + n - 7) →
      listSlot dec asdu n offset j = .error .indexError ∨ listSlot dec asdu n offset j = .error .structError :=
    fun j hj => h.value _ _ (by rw [length_listSlot]; omega)
  have hiff := readAll_raises (show 7 < 3 + n by omega) hw ht hv count 0
  rw [Nat.zero_mul, Nat.sub_zero, ← decList_eq, Nat.add_comm 3 n] at hiff
  exact hiff

theorem decSeq_caught {dec : Nat → Bytes → Except PyErr Obj}
    (h : ∀ ioa d e, dec ioa d = .error e → e = .indexError ∨ e = .structError) (asdu : Bytes)
    (n base count offset : Nat) : ∃ objs, decSeq dec asdu n base count 0 offset = .ok objs := by
  rw [decSeq_eq]
  exact readAll_caught (fun j e => h _ _ e) count 0

theorem decList_caught {dec : Nat → Bytes → Except PyErr Obj}
    (h : ∀ ioa d e, dec ioa d = .error e → e = .indexError ∨ e = .structError) (asdu : Bytes)
    (n count offset : Nat) : ∃ objs, decList dec asdu n count offset = .ok objs := by
  rw [decList_eq]
  exact readAll_caught (fun j e => h _ _ e) count 0

/-! ## Frames -/

def cutsTime (f : Bytes) : Bool :=
  match f[6]?, f[7]? with
  | some t, some vsq =>
    match asduDataSize.lookup (t.toNat : Int) with
    | none => false
    | some n =>
      decide (12 ≤ f.length) && decide ((t.toNat : Int) ∈ tsTypes) &&
        if vsq.toNat &&& 0x80 ≠ 0 then decide (endsInTime (f.length - 15) n (vsq.toNat &&& 0x7F))
        else decide (endsInTime (f.length - 12) (n + 3) (vsq.toNat &&& 0x7F))
  | _, _ => false

theorem decode_raises_iff (f : Bytes) : (∃ e, decodeIFrameObjects f = .error e) ↔ cutsTime f = true := by
  cases heading f with
  | short h12 =>
    refine iff_of_false (fun he => ?_) fun hc => ?_
    · obtain ⟨e, he⟩ := he
      rw [decode_short h12] at he
      cases he
    · unfold cutsTime at hc
      split at hc
      · split at hc
        · cases hc
        · simp only [Bool.and_eq_true, decide_eq_true_eq] at hc
          omega
      · cases hc
  | unknown t v h h6 h7 hn =>
    rw [decode_unknown h h6 h7 hn, cutsTime, h6, h7]
    dsimp only
    rw [hn]
    refine iff_of_false (fun he => ?_) Bool.false_ne_true
    obtain ⟨e, he⟩ := he
    cases he
  | known t v n h h6 h7 hn =>
    have hlen : (f.drop 6).length = f.length - 6 := List.length_drop
    rw [decode_eq h h6 h7 hn, cutsTime, h6, h7]
    dsimp only
    rw [hn]
    dsimp only
    rw [decide_eq_true h, Bool.true_and]
    generalize leNat (slice f 8 10) = cot
    generalize leNat (slice f 10 12) = coa
    by_cases hts : (t.toNat : Int) ∈ tsTypes
    · have hcuts := decObj_cutsTime hn hts cot coa
      have h0 := tagged_size hn hts
      rw [decide_eq_true hts, Bool.true_and]
      by_cases hseq : v.toNat &&& 0x80 ≠ 0
      · rw [if_pos hseq, if_pos hseq, decSeq_raises hcuts h0, decide_eq_true_eq, hlen, Nat.sub_sub]
      · rw [if_neg hseq, if_neg hseq, decList_raises hcuts h0, decide_eq_true_eq, hlen, Nat.sub_sub]
    · rw [decide_eq_false hts, Bool.false_and]
      refine iff_of_false (fun he => ?_) Bool.false_ne_true
      obtain ⟨e, he⟩ := he
      have hdec := fun ioa d e => decObj_caught (e := e) hts cot coa n ioa d
      by_cases hseq : v.toNat &&& 0x80 ≠ 0
      · obtain ⟨objs, hobjs⟩ := decSeq_caught hdec (f.drop 6) n (leNat (slice f 12 15)) (v.toNat &&& 0x7F) 9
        rw [if_pos hseq, hobjs] at he
        cases he
      · obtain ⟨objs, hobjs⟩ := decList_caught hdec (f.drop 6) n (v.toNat &&& 0x7F) 6
        rw [if_neg hseq, hobjs] at he
        cases he

end Drv60870.Protocol
