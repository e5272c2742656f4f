/-
  Drv60870.Protocol.Agreement — the two value codecs against each other (`_enc_val` and
  `_dec_val` in `protocol.py`).

  `placed` is what the encoder puts into the octets, its own masks applied; `unmasked` says
  that the decoder masks nothing of it away. The encoder keeps all bits of the quality octet
  beside a point's value and the sign of a step position; the decoder reads them without.

  Proved, for every supported type and every value and quality that are encoded, a floating
  point value being one of single precision:
  - The decoder returns what the encoder wrote if and only if the quality of a single point has
    none of the bits 1, 2 and 3, that of a double point none of the bits 2 and 3, and a step
    position is not negative (`decVal_encVal`).
  - A step position of -1 comes back as 127 (`decVal_step`).
-/

import Drv60870.Protocol.Ranges

namespace Drv60870.Protocol

open Lib.Octets Lib.Ieee Lib.Python

/-- The value and the quality that `_enc_val` writes. -/
def placed (t : Int) (v : Val) (q : Int) : Except PyErr (Option Val × Nat) := do
  if t ∈ [1, 30, 45] then
    let n ← v.toInt
    return (some (.int (n % 2)), mask q 0xFE)
  else if t ∈ [3, 31, 46] then
    let n ← v.toInt
    return (some (.int (n % 4)), mask q 0xFC)
  else if t ∈ [13, 36] then
    let x ← v.toFloat
    return (some (.float x), q.toNat)
  else if t = 100 then
    let n ← v.toInt
    return (some (.int (n % 256)), 0)
  else
    let n ← v.toInt
    return (some (.int n), q.toNat)

def unmasked (t : Int) (v : Val) (q : Int) : Bool :=
  if t ∈ [1, 30, 45] then mask q 0x0E == 0
  else if t ∈ [3, 31, 46] then mask q 0x0C == 0
  else if t ∈ [5, 32] then intIn 0 127 v
  else true

def Single (v : Val) : Prop := ∃ y : Datum binary32, v.toFloat = .ok (convert binary64 y)

/-! ## Masks -/

theorem and_mask (x : Int) (m n : Nat) : mask x m &&& n = mask x (m &&& n) := Nat.and_assoc ..

theorem mask_eq_mod (x : Int) {k : Nat} (hk : k ≤ 8) : ((mask x (2 ^ k - 1) : Nat) : Int) = x % 2 ^ k := by
  have hdvd : (2 : Int) ^ k ∣ 256 := by
    have h := Int.natCast_dvd_natCast.mpr (Nat.pow_dvd_pow 2 hk)
    rw [Int.natCast_pow] at h
    exact h
  rw [mask, Nat.and_two_pow_sub_one_eq_mod, Int.natCast_emod, Int.toNat_of_nonneg (Int.emod_nonneg x (by decide)),
    Int.natCast_pow]
  exact Int.emod_emod_of_dvd x hdvd

theorem siq_bits : ∀ x < 256, x &&& 0xF0 = x &&& 0xFE ↔ x &&& 0x0E = 0 := by decide +kernel

theorem diq_bits : ∀ x < 256, x &&& 0xF0 = x &&& 0xFC ↔ x &&& 0x0C = 0 := by decide +kernel

theorem point_octet (n q : Int) {k m : Nat} (hk : k ≤ 4) (hm : m &&& (2 ^ k - 1) = 0) (hq : m &&& 0xF0 = 0xF0)
    (hm' : m < 256) :
    let x := UInt8.ofNat (mask n (2 ^ k - 1) ||| mask q m)
    ((x.toNat &&& (2 ^ k - 1) : Nat) : Int) = n % 2 ^ k ∧ x.toNat &&& 0xF0 = mask q 0xF0 := by
  have hlow : 2 ^ k - 1 < 16 := by
    have : 2 ^ k ≤ 2 ^ 4 := Nat.pow_le_pow_right (by decide) hk
    omega
  have hx : (UInt8.ofNat (mask n (2 ^ k - 1) ||| mask q m)).toNat = mask n (2 ^ k - 1) ||| mask q m :=
    octet_toNat (Nat.or_lt_two_pow (n := 8) (mask_lt n (by omega)) (mask_lt q hm'))
  have hhigh : ∀ j < 16, j &&& 0xF0 = 0 := by decide
  refine ⟨?_, ?_⟩
  · rw [hx, Nat.and_or_distrib_right, and_mask, and_mask, hm, Nat.and_self, mask, mask, Nat.and_zero, Nat.or_zero]
    exact mask_eq_mod n (by omega)
  · rw [hx, Nat.and_or_distrib_right, and_mask, and_mask, hq, hhigh _ hlow, mask, Nat.and_zero, Nat.zero_or]

/-! ## Families of types -/

theorem pair_inj {v w : Val} {a b : Nat} :
    (Except.ok (some v, a) : Except PyErr (Option Val × Nat)) = .ok (some w, b) ↔ v = w ∧ a = b := by
  rw [Except.ok.injEq, Prod.mk.injEq, Option.some.injEq]

/-- A point: `m` masks the quality where it is written, `l` the bits of it that are not read. -/
theorem point_agrees {n q : Int} {k m l : Nat} {b : Bytes} (hk : k ≤ 4) (hm : m &&& (2 ^ k - 1) = 0)
    (hq : m &&& 0xF0 = 0xF0) (hm' : m < 256) (hl : ∀ x < 256, x &&& 0xF0 = x &&& m ↔ x &&& l = 0)
    (hb : byte (mask n (2 ^ k - 1) ||| mask q m : Nat) = .ok b) :
    (do let d ← index b 0
        return (some (.int (d.toNat &&& (2 ^ k - 1) : Nat)), d.toNat &&& 0xF0) : Except PyErr (Option Val × Nat)) =
      .ok (some (.int (n % 2 ^ k)), mask q m) ↔ (mask q l == 0) = true := by
  have hlow : 2 ^ k - 1 < 256 := by
    have : 2 ^ k ≤ 2 ^ 4 := Nat.pow_le_pow_right (by decide) hk
    omega
  obtain ⟨hv, hquality⟩ := point_octet n q hk hm hq hm'
  rw [byte_ok (Nat.or_lt_two_pow (n := 8) (mask_lt n hlow) (mask_lt q hm'))] at hb
  cases hb
  show Except.ok _ = _ ↔ _
  rw [pair_inj, hv, hquality, beq_iff_eq, mask, mask, mask, hl _ (by omega)]
  exact and_iff_right rfl

theorem field_quality {w : Nat} {b qb : Bytes} {q : Int} (hb : b.length = w) (hq : packU 1 q = .ok qb) :
    slice (b ++ qb) 0 w = b ∧ ∃ x : UInt8, index (b ++ qb) w = .ok x ∧ x.toNat = q.toNat := by
  refine ⟨?_, ?_⟩
  · have h := slice_mid (a := []) (b := b) qb (i := 0) (j := w) rfl (by rw [hb, Nat.zero_add])
    simpa using h
  · have hval := unpackU_packU hq
    obtain ⟨x, rfl⟩ := one_octet (length_packU hq)
    refine ⟨x, ?_, ?_⟩
    · subst hb
      simp [index]
    · have hx : unpackU 1 [x] = .ok x.toNat := by simp [unpackU, leNat]
      rw [hx] at hval
      exact Except.ok.inj hval

theorem field_agrees {α : Type} {w : Nat} {b qb : Bytes} {q : Int} {unpack : Bytes → Except PyErr α} {x : α}
    (val : α → Val) (hb : b.length = w) (hu : unpack b = .ok x) (hq : packU 1 q = .ok qb) :
    (do let y ← unpack (slice (b ++ qb) 0 w)
        let c ← index (b ++ qb) w
        return (some (val y), c.toNat) : Except PyErr (Option Val × Nat)) = .ok (some (val x), q.toNat) := by
  obtain ⟨hs, c, hc, hval⟩ := field_quality hb hq
  rw [hs, hu, hc, ← hval]
  rfl

theorem unsigned_agrees {w : Nat} {n q : Int} {b qb : Bytes} (hb : packU w n = .ok b) (hq : packU 1 q = .ok qb) :
    (do let y ← unpackU w (slice (b ++ qb) 0 w)
        let c ← index (b ++ qb) w
        return (some (.int y), c.toNat) : Except PyErr (Option Val × Nat)) = .ok (some (.int n), q.toNat) := by
  have hn : ((n.toNat : Nat) : Int) = n := by
    have := (packU_eq_ok.mp hb).1
    omega
  have h := field_agrees (fun y : Nat => .int y) (length_packU hb) (unpackU_packU hb) hq
  rwa [hn] at h

theorem signed_agrees {w : Nat} {n q : Int} {b qb : Bytes} (hb : packS w n = .ok b) (hq : packU 1 q = .ok qb) :
    (do let y ← unpackS w (slice (b ++ qb) 0 w)
        let c ← index (b ++ qb) w
        return (some (.int y), c.toNat) : Except PyErr (Option Val × Nat)) = .ok (some (.int n), q.toNat) :=
  field_agrees Val.int (length_packS hb) (unpackS_packS hb) hq

theorem step_octet {n : Int} {b : Bytes} (hb : packS 1 n = .ok b) :
    ∃ d : UInt8, b = [d] ∧ unpackS 1 [d &&& 0x7F] = .ok (n % 128) := by
  unfold packS at hb
  split at hb
  · cases hb
    refine ⟨UInt8.ofNat (n % 256 ^ 1).toNat, rfl, ?_⟩
    have hlow : (UInt8.ofNat (n % 256 ^ 1).toNat &&& 0x7F).toNat = (n % 128).toNat := by
      rw [UInt8.toNat_and, octet_toNat (by omega)]
      show (n % 256 ^ 1).toNat &&& 2 ^ 7 - 1 = _
      rw [Nat.and_two_pow_sub_one_eq_mod]
      omega
    have hval : leNat [UInt8.ofNat (n % 256 ^ 1).toNat &&& 0x7F] = (n % 128).toNat := by
      rw [leNat, hlow, leNat]
      omega
    rw [unpackS, hval, if_pos (List.length_singleton), if_pos (by omega)]
    congr 1
    omega
  · cases hb

/-- A step position is read without its sign. -/
theorem step_agrees {n q : Int} {b qb : Bytes} (hb : packS 1 n = .ok b) (hq : packU 1 q = .ok qb) :
    (do let d ← index (b ++ qb) 0
        let y ← unpackS 1 [d &&& 0x7F]
        let c ← index (b ++ qb) 1
        return (some (.int y), c.toNat) : Except PyErr (Option Val × Nat)) = .ok (some (.int n), q.toNat) ↔
      0 ≤ n ∧ n ≤ 127 := by
  obtain ⟨-, c, hc, hcval⟩ := field_quality (length_packS hb) hq
  obtain ⟨d, rfl, hread⟩ := step_octet hb
  have hd : index ([d] ++ qb) 0 = .ok d := rfl
  rw [hd, hc]
  show (do let y ← unpackS 1 [d &&& 0x7F]
           return (some (.int y), c.toNat) : Except PyErr (Option Val × Nat)) = _ ↔ _
  rw [hread]
  show Except.ok _ = _ ↔ _
  rw [pair_inj, Val.int.injEq, hcval]
  omega

/-! ## Agreement -/

theorem placed_int {t n q : Int} {v : Val} (ht : t ∈ [5, 32, 7, 33, 9, 11, 34, 35, 15, 37]) (hv : v.toInt = .ok n) :
    placed t v q = .ok (some (.int n), q.toNat) := by
  simp only [List.mem_cons, List.not_mem_nil, or_false] at ht
  rw [placed, if_neg (by simp; omega), if_neg (by simp; omega), if_neg (by simp; omega), if_neg (by omega), hv]
  rfl

theorem unmasked_int {t q : Int} {v : Val} (ht : t ∈ [7, 33, 9, 11, 34, 35, 13, 36, 15, 37, 100]) :
    unmasked t v q = true := by
  simp only [List.mem_cons, List.not_mem_nil, or_false] at ht
  rw [unmasked, if_neg (by simp; omega), if_neg (by simp; omega), if_neg (by simp; omega)]

/-- The decoder returns the value and the quality that were written exactly if it masks nothing
    of them away. -/
theorem decVal_encVal {t : Int} {ev : IecEvent} {d : Bytes} (h : encVal t ev = .ok (some d))
    (hf : t ∈ [13, 36] → Single ev.val) :
    decVal t d = placed t ev.val ev.q ↔ unmasked t ev.val ev.q = true := by
  unfold encVal at h
  split at h
  · rename_i ht
    obtain ⟨n, hn, h⟩ := bind_eq_ok.mp h
    obtain ⟨b, hb, h⟩ := bind_eq_ok.mp h
    cases ok_inj h
    rw [decVal, if_pos ht, placed, if_pos ht, unmasked, if_pos ht, hn]
    exact point_agrees (k := 1) (by decide) (by decide) (by decide) (by decide) siq_bits hb
  rename_i h1
  split at h
  · rename_i ht
    obtain ⟨n, hn, h⟩ := bind_eq_ok.mp h
    obtain ⟨b, hb, h⟩ := bind_eq_ok.mp h
    cases ok_inj h
    rw [decVal, if_neg h1, if_pos ht, placed, if_neg h1, if_pos ht, unmasked, if_neg h1, if_pos ht, hn]
    exact point_agrees (k := 2) (by decide) (by decide) (by decide) (by decide) diq_bits hb
  rename_i h3
  split at h
  · rename_i ht
    obtain ⟨n, hn, h⟩ := bind_eq_ok.mp h
    obtain ⟨b, hb, h⟩ := bind_eq_ok.mp h
    obtain ⟨qb, hq, h⟩ := bind_eq_ok.mp h
    cases ok_inj h
    rw [placed_int (List.mem_append_left [7, 33, 9, 11, 34, 35, 15, 37] ht) hn, decVal, if_neg h1, if_neg h3,
      if_pos ht, unmasked, if_neg h1, if_neg h3, if_pos ht, intIn, hn, decide_eq_true_iff]
    exact step_agrees hb hq
  rename_i h5
  split at h
  · rename_i ht
    obtain ⟨n, hn, h⟩ := bind_eq_ok.mp h
    obtain ⟨b, hb, h⟩ := bind_eq_ok.mp h
    obtain ⟨qb, hq, h⟩ := bind_eq_ok.mp h
    cases ok_inj h
    have hmem : t = 7 ∨ t = 33 := by simpa using ht
    rw [placed_int (by simp; omega) hn, unmasked_int (by simp; omega), decVal, if_neg h1, if_neg h3, if_neg h5,
      if_pos ht]
    exact iff_of_true (unsigned_agrees hb hq) rfl
  rename_i h7
  split at h
  · rename_i ht
    obtain ⟨n, hn, h⟩ := bind_eq_ok.mp h
    obtain ⟨b, hb, h⟩ := bind_eq_ok.mp h
    obtain ⟨qb, hq, h⟩ := bind_eq_ok.mp h
    cases ok_inj h
    have hmem : t = 9 ∨ t = 11 ∨ t = 34 ∨ t = 35 := by simpa using ht
    rw [placed_int (by simp; omega) hn, unmasked_int (by simp; omega), decVal, if_neg h1, if_neg h3, if_neg h5,
      if_neg h7, if_pos ht]
    exact iff_of_true (signed_agrees hb hq) rfl
  rename_i h9
  split at h
  · rename_i ht
    obtain ⟨x, hx, h⟩ := bind_eq_ok.mp h
    obtain ⟨b, hb, h⟩ := bind_eq_ok.mp h
    obtain ⟨qb, hq, h⟩ := bind_eq_ok.mp h
    cases ok_inj h
    obtain ⟨y, hy⟩ := hf ht
    have hmem : t = 13 ∨ t = 36 := by simpa using ht
    rw [unmasked_int (by simp; omega), placed, if_neg h1, if_neg h3, if_pos ht, decVal, if_neg h1, if_neg h3,
      if_neg h5, if_neg h7, if_neg h9, if_pos ht, hx]
    have hback := unpackF_packF hb
    rw [hx] at hy
    cases hy
    rw [convert_single y] at hback
    exact iff_of_true (field_agrees Val.float (length_packF hb) hback hq) rfl
  rename_i h13
  split at h
  · rename_i ht
    obtain ⟨n, hn, h⟩ := bind_eq_ok.mp h
    obtain ⟨b, hb, h⟩ := bind_eq_ok.mp h
    obtain ⟨qb, hq, h⟩ := bind_eq_ok.mp h
    cases ok_inj h
    have hmem : t = 15 ∨ t = 37 := by simpa using ht
    rw [placed_int (by simp; omega) hn, unmasked_int (by simp; omega), decVal, if_neg h1, if_neg h3, if_neg h5,
      if_neg h7, if_neg h9, if_neg h13, if_pos ht]
    exact iff_of_true (signed_agrees hb hq) rfl
  rename_i h15
  split at h
  · rename_i ht
    obtain ⟨n, hn, h⟩ := bind_eq_ok.mp h
    obtain ⟨b, hb, h⟩ := bind_eq_ok.mp h
    cases ok_inj h
    rw [unmasked_int (by simp; omega), placed, if_neg h1, if_neg h3, if_neg h13, if_pos ht, decVal, if_neg h1,
      if_neg h3, if_neg h5, if_neg h7, if_neg h9, if_neg h13, if_neg h15, if_pos ht, hn]
    rw [byte_ok (mask_lt n (by decide))] at hb
    cases hb
    refine iff_of_true ?_ rfl
    show Except.ok (some (Val.int (UInt8.ofNat (mask n 0xFF)).toNat), 0) = Except.ok (some (Val.int (n % 256)), 0)
    have hmod : ((mask n 0xFF : Nat) : Int) = n % 256 := mask_eq_mod n (k := 8) (by decide)
    rw [octet_toNat (mask_lt n (by decide)), hmod]
  · cases ok_inj h

def sampleFloat : IecEvent := { point 36 100 0 with val := .float (convert binary64 (ofBits binary32 0x40200000)) }

theorem decVal_encVal_sampleFloat : encVal 36 sampleFloat = .ok (some [0x00, 0x00, 0x20, 0x40, 0x00]) ∧
    (decVal 36 [0x00, 0x00, 0x20, 0x40, 0x00] = placed 36 sampleFloat.val sampleFloat.q ↔
      unmasked 36 sampleFloat.val sampleFloat.q = true) :=
  ⟨by decide +kernel, decVal_encVal (by decide +kernel) fun _ => ⟨ofBits binary32 0x40200000, rfl⟩⟩

/-- A step position of -1 comes back as 127, a single point without its quality bits 1 to 3. -/
theorem decVal_step : encVal 5 (point 5 100 (-1)) = .ok (some [0xFF, 0x00]) ∧
    decVal 5 [0xFF, 0x00] = .ok (some (.int 127), 0) ∧
    placed 5 (point 5 100 (-1)).val (point 5 100 (-1)).q = .ok (some (.int (-1)), 0) ∧
    encVal 1 { point 1 100 1 with q := 0x08 } = .ok (some [0x09]) ∧
    decVal 1 [0x09] = .ok (some (.int 1), 0) ∧ placed 1 (.int 1) 0x08 = .ok (some (.int 1), 0x08) := by
  decide +kernel

end Drv60870.Protocol
