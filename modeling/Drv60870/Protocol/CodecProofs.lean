/-
  Drv60870.Protocol.CodecProofs — what the encoder writes, the decoder reads.

  Proved:
  - An encoded value has the size the table announces, and the decoder reads it whatever
    follows (`encVal_some`).
  - A time of the years 2000 to 2127 comes back to the millisecond, with its IV flag
    (`cp56_roundtrip`).
  - Whatever `build_i_frame` returns is an I-frame with the connection's sequence numbers
    (`buildIFrame_some`). A batch of one type and cause that the encoder accepts, within the
    limit, is built (`buildIFrame_ok`), and any other of one type within the limit is found
    unsupported or raises (`buildIFrame_none`, `buildIFrame_total`).
  - A frame built from events of one supported type and cause decodes to one object per event,
    in order (`decode_build`).
-/

import Drv60870.Protocol.Apdu
import Drv60870.Protocol.Slots

namespace Drv60870.Protocol

open Lib.Octets Lib.Calendar Lib.Python Drv60870.Const

/-! ## Values -/

def timeLen (t : Int) : Nat := if t ∈ tsTypes then 7 else 0

theorem one_octet {b : Bytes} (h : b.length = 1) : ∃ x, b = [x] := List.length_eq_one_iff.mp h

theorem two_octets {b : Bytes} (h : b.length = 2) : ∃ x y, b = [x, y] := List.length_eq_two.mp h

theorem four_octets {b : Bytes} (h : b.length = 4) : ∃ x y z w, b = [x, y, z, w] := by
  match b, h with
  | [x, y, z, w], _ => exact ⟨x, y, z, w, rfl⟩

/-- What `encVal` writes has the announced size, and decodes alike with anything behind it. -/
theorem encVal_some {t : Int} {ev : IecEvent} {d : Bytes} (h : encVal t ev = .ok (some d)) :
    asduDataSize.lookup t = some (d.length + timeLen t) ∧
      ∃ vq, decVal t d = .ok vq ∧ ∀ x, decVal t (d ++ x) = .ok vq := by
  unfold encVal at h
  -- single points, double points
  iterate 2
    split at h
    · rename_i ht
      obtain ⟨v, -, h⟩ := bind_eq_ok.mp h
      obtain ⟨b, hb, h⟩ := bind_eq_ok.mp h
      cases ok_inj h
      obtain ⟨c, rfl⟩ := one_octet (length_byte hb)
      simp only [List.mem_cons, List.not_mem_nil, or_false] at ht
      rcases ht with rfl | rfl | rfl <;> exact ⟨rfl, _, rfl, fun x => rfl⟩
  -- step positions
  split at h
  · rename_i ht
    obtain ⟨v, -, h⟩ := bind_eq_ok.mp h
    obtain ⟨b, hb, h⟩ := bind_eq_ok.mp h
    obtain ⟨q, hq, h⟩ := bind_eq_ok.mp h
    cases ok_inj h
    obtain ⟨c, rfl⟩ := one_octet (length_packS hb)
    obtain ⟨q, rfl⟩ := one_octet (length_packU hq)
    simp only [List.mem_cons, List.not_mem_nil, or_false] at ht
    rcases ht with rfl | rfl <;> exact ⟨rfl, _, rfl, fun x => rfl⟩
  -- bit strings
  split at h
  · rename_i ht
    obtain ⟨v, -, h⟩ := bind_eq_ok.mp h
    obtain ⟨b, hb, h⟩ := bind_eq_ok.mp h
    obtain ⟨q, hq, h⟩ := bind_eq_ok.mp h
    cases ok_inj h
    obtain ⟨a, b, c, d, rfl⟩ := four_octets (length_packU hb)
    obtain ⟨q, rfl⟩ := one_octet (length_packU hq)
    simp only [List.mem_cons, List.not_mem_nil, or_false] at ht
    rcases ht with rfl | rfl <;> exact ⟨rfl, _, rfl, fun x => rfl⟩
  -- normalized and scaled values
  split at h
  · rename_i ht
    obtain ⟨v, -, h⟩ := bind_eq_ok.mp h
    obtain ⟨b, hb, h⟩ := bind_eq_ok.mp h
    obtain ⟨q, hq, h⟩ := bind_eq_ok.mp h
    cases ok_inj h
    obtain ⟨a, b, rfl⟩ := two_octets (length_packS hb)
    obtain ⟨q, rfl⟩ := one_octet (length_packU hq)
    simp only [List.mem_cons, List.not_mem_nil, or_false] at ht
    rcases ht with rfl | rfl | rfl | rfl <;> exact ⟨rfl, _, rfl, fun x => rfl⟩
  -- floating point values
  split at h
  · rename_i ht
    obtain ⟨v, -, h⟩ := bind_eq_ok.mp h
    obtain ⟨b, hb, h⟩ := bind_eq_ok.mp h
    obtain ⟨q, hq, h⟩ := bind_eq_ok.mp h
    cases ok_inj h
    obtain ⟨a, b, c, d, rfl⟩ := four_octets (length_packF hb)
    obtain ⟨q, rfl⟩ := one_octet (length_packU hq)
    simp only [List.mem_cons, List.not_mem_nil, or_false] at ht
    rcases ht with rfl | rfl <;> exact ⟨rfl, _, rfl, fun x => rfl⟩
  -- integrated totals
  split at h
  · rename_i ht
    obtain ⟨v, -, h⟩ := bind_eq_ok.mp h
    obtain ⟨b, hb, h⟩ := bind_eq_ok.mp h
    obtain ⟨q, hq, h⟩ := bind_eq_ok.mp h
    cases ok_inj h
    obtain ⟨a, b, c, d, rfl⟩ := four_octets (length_packS hb)
    obtain ⟨q, rfl⟩ := one_octet (length_packU hq)
    simp only [List.mem_cons, List.not_mem_nil, or_false] at ht
    rcases ht with rfl | rfl <;> exact ⟨rfl, _, rfl, fun x => rfl⟩
  -- interrogation
  split at h
  · rename_i ht
    obtain ⟨v, -, h⟩ := bind_eq_ok.mp h
    obtain ⟨b, hb, h⟩ := bind_eq_ok.mp h
    cases ok_inj h
    obtain ⟨c, rfl⟩ := one_octet (length_byte hb)
    subst ht
    exact ⟨rfl, _, rfl, fun x => rfl⟩
  · cases ok_inj h

/-! ## Times -/

theorem low_bits {n k : Nat} (h : n < 2 ^ k) : n &&& 2 ^ k - 1 = n := by
  rw [Nat.and_two_pow_sub_one_eq_mod, Nat.mod_eq_of_lt h]

theorem minute_bits : ∀ m < 64, (((m &&& 0x3F) ||| 0x80) &&& 0x3F = m ∧ ((m &&& 0x3F) ||| 0x80) &&& 0x80 ≠ 0 ∧
    ((m &&& 0x3F) ||| 0x80) < 256) ∧ (m &&& 0x3F) &&& 0x3F = m ∧ (m &&& 0x3F) &&& 0x80 = 0 := by
  decide

theorem day_bits : ∀ d < 32, ∀ w < 8, ((d &&& 0x1F) ||| ((w &&& 0x07) <<< 5)) &&& 0x1F = d ∧
    ((d &&& 0x1F) ||| ((w &&& 0x07) <<< 5)) < 256 := by
  decide

theorem octet_toNat {n : Nat} (h : n < 256) : (UInt8.ofNat n).toNat = n := by
  rw [UInt8.toNat_ofNat', Nat.mod_eq_of_lt h]

theorem low_octet (n : Nat) : n &&& 0xFF = n % 256 := Nat.and_two_pow_sub_one_eq_mod n 8

theorem high_octet (n : Nat) : (n >>> 8) &&& 0xFF = n / 256 % 256 := by
  rw [low_octet, Nat.shiftRight_eq_div_pow]

theorem joined_octets {lo : Nat} (h : lo < 256) (hi : Nat) : (hi <<< 8) ||| lo = lo + 256 * hi := by
  rw [← Nat.shiftLeft_add_eq_or_of_lt h, Nat.shiftLeft_eq]
  omega

/-- The millisecond count of a minute over its two octets. -/
theorem ms_bits {n : Nat} (h : n < 60000) :
    (UInt8.ofNat ((n >>> 8) &&& 0xFF)).toNat <<< 8 ||| (UInt8.ofNat (n &&& 0xFF)).toNat = n := by
  have hlow : n % 256 < 256 := Nat.mod_lt n (by decide)
  have hhigh : n / 256 % 256 = n / 256 := Nat.mod_eq_of_lt (by omega)
  rw [high_octet, hhigh, low_octet, octet_toNat hlow, octet_toNat (by omega), joined_octets hlow]
  omega

theorem cp56_roundtrip (t : Datetime) (iv : Bool) (h0 : 2000 ≤ t.year) (h1 : t.year ≤ 2127) :
    datetimeFromCp56 (datetimeToCp56 t iv) = .ok (some t.truncMs, some iv) := by
  have hv := t.valid
  have hs := hv.second_lt
  have hu := hv.microsecond_lt
  have hday : t.day < 32 := by have := hv.day_le; have := daysInMonth_le t.year t.month; omega
  have hwd : t.isoWeekday < 8 := by have := t.isoWeekday_le; omega
  obtain ⟨⟨hm1, hm2, hm3⟩, hm4, hm5⟩ := minute_bits t.minute (by have := hv.minute_lt; omega)
  obtain ⟨hd1, hd2⟩ := day_bits t.day hday t.isoWeekday hwd
  have hms : (t.second * 1000 + t.microsecond / 1000) % 60000 = t.second * 1000 + t.microsecond / 1000 :=
    Nat.mod_eq_of_lt (by omega)
  have hbits := ms_bits (n := t.second * 1000 + t.microsecond / 1000) (by omega)
  have hsec : (t.second * 1000 + t.microsecond / 1000) / 1000 = t.second := by omega
  have hmsec : (t.second * 1000 + t.microsecond / 1000) % 1000 = t.microsecond / 1000 := by omega
  have hmin : t.minute &&& 0x3F < 256 := Nat.lt_of_le_of_lt Nat.and_le_right (by decide)
  have hhour : t.hour &&& 0x1F = t.hour := low_bits (k := 5) (by have := hv.hour_lt; omega)
  have hmon : t.month &&& 0x0F = t.month := low_bits (k := 4) (by have := hv.month_le; omega)
  have hyear : mask ((t.year : Int) - 2000) 0x7F = t.year - 2000 := by
    have he : (((t.year : Int) - 2000) % 256).toNat = t.year - 2000 := by omega
    rw [mask, he]
    exact low_bits (k := 7) (by omega)
  have hyear' : t.year - 2000 &&& 0x7F = t.year - 2000 := low_bits (k := 7) (by omega)
  simp only [datetimeToCp56, datetimeFromCp56, hms, hbits, hsec, hmsec,
    hhour, hmon, hyear, octet_toNat hd2, hd1, octet_toNat (show t.hour < 256 by have := hv.hour_lt; omega),
    octet_toNat (show t.month < 256 by have := hv.month_le; omega), octet_toNat (show t.year - 2000 < 256 by omega),
    hyear', Nat.add_sub_of_le h0]
  have hf : Datetime.ofFields t.year t.month t.day t.hour t.minute t.second (t.microsecond / 1000 * 1000) =
      some t.truncMs := Datetime.ofFields_self t.truncMs
  cases iv
  · simp only [Bool.false_eq_true, if_false, octet_toNat hmin, hm4, hm5, hf]
    rfl
  · simp only [if_true, octet_toNat hm3, hm1, hf, bne_iff_ne.mpr hm2]

/-! ## Objects -/

def objBytes (t : Int) (ev : IecEvent) (d : Bytes) : Bytes :=
  leBytes 3 ev.ioa.toNat ++ (d ++ (if t ∈ tsTypes then datetimeToCp56 ev.ts ev.iv else []))

theorem length_cp56 (t : Datetime) (iv : Bool) : (datetimeToCp56 t iv).length = 7 := rfl

theorem encObj_some {t : Int} {ev : IecEvent} {b : Bytes} (h : encObj t ev = .ok (some b)) :
    ∃ d, encVal t ev = .ok (some d) ∧ 0 ≤ ev.ioa ∧ ev.ioa.toNat < 256 ^ 3 ∧ b = objBytes t ev d := by
  unfold encObj at h
  obtain ⟨od, hd, h⟩ := bind_eq_ok.mp h
  cases od with
  | none => cases ok_inj h
  | some d =>
    obtain ⟨ioa, hi, h⟩ := bind_eq_ok.mp h
    unfold toBytes at hi
    split at hi
    · rename_i hioa
      cases hi
      refine ⟨d, hd, hioa.1, hioa.2, ?_⟩
      split at h
      · rename_i ht
        cases ok_inj h
        simp [objBytes, ht]
      · rename_i ht
        cases ok_inj h
        simp [objBytes, ht]
    · cases hi

theorem encObj_ok {t : Int} {ev : IecEvent} {d : Bytes} (hd : encVal t ev = .ok (some d)) (h0 : 0 ≤ ev.ioa)
    (h1 : ev.ioa.toNat < 256 ^ 3) : encObj t ev = .ok (some (objBytes t ev d)) := by
  have hi : toBytes 3 ev.ioa = .ok (leBytes 3 ev.ioa.toNat) := by rw [toBytes, if_pos ⟨h0, h1⟩]
  by_cases ht : t ∈ tsTypes <;> simp [encObj, hd, hi, objBytes, ht, bind, Except.bind, pure, Except.pure]

theorem length_objBytes {t : Int} {ev : IecEvent} {d : Bytes} {n : Nat} (hd : encVal t ev = .ok (some d))
    (hn : asduDataSize.lookup t = some n) : (objBytes t ev d).length = 3 + n := by
  have hl := (encVal_some hd).1
  rw [hn] at hl
  have hl := Option.some.inj hl
  unfold timeLen at hl
  by_cases ht : t ∈ tsTypes
  · simp only [objBytes, ht, if_true, List.length_append, length_leBytes, length_cp56] at hl ⊢
    omega
  · simp only [objBytes, ht, if_false, List.length_append, length_leBytes, List.length_nil] at hl ⊢
    omega

theorem encObjs_cons {t : Int} {ev : IecEvent} {evs : List IecEvent} {parts : Bytes}
    (h : encObjs t (ev :: evs) = .ok (some parts)) :
    ∃ b rest, encObj t ev = .ok (some b) ∧ encObjs t evs = .ok (some rest) ∧ parts = b ++ rest := by
  unfold encObjs at h
  obtain ⟨ob, hb, h⟩ := bind_eq_ok.mp h
  cases ob with
  | none => cases ok_inj h
  | some b =>
    obtain ⟨orest, hr, h⟩ := bind_eq_ok.mp h
    cases orest with
    | none => cases ok_inj h
    | some rest =>
      cases ok_inj h
      exact ⟨b, rest, hb, hr, rfl⟩

theorem encObjs_ok (t : Int) : ∀ (evs : List IecEvent), (∀ ev ∈ evs, ∃ b, encObj t ev = .ok (some b)) →
    ∃ parts, encObjs t evs = .ok (some parts) := by
  intro evs
  induction evs with
  | nil => intro _; exact ⟨[], rfl⟩
  | cons ev evs ih =>
    intro h
    obtain ⟨b, hb⟩ := h ev List.mem_cons_self
    obtain ⟨rest, hr⟩ := ih fun e he => h e (List.mem_cons_of_mem _ he)
    exact ⟨b ++ rest, by simp [encObjs, hb, hr, bind, Except.bind, pure, Except.pure]⟩

theorem length_encObjs {t : Int} {n : Nat} (hn : asduDataSize.lookup t = some n) :
    ∀ {evs : List IecEvent} {parts : Bytes}, encObjs t evs = .ok (some parts) →
      parts.length = evs.length * (3 + n) := by
  intro evs
  induction evs with
  | nil =>
    intro parts h
    cases ok_inj h
    simp
  | cons ev evs ih =>
    intro parts h
    obtain ⟨b, rest, hb, hr, rfl⟩ := encObjs_cons h
    obtain ⟨d, hd, -, -, rfl⟩ := encObj_some hb
    rw [List.length_append, length_objBytes hd hn, ih hr, List.length_cons, Nat.add_mul]
    omega

/-! ## The batch limit -/

theorem maxObj_mul {t : Int} {k n : Nat} (hn : asduDataSize.lookup t = some n) (h : k ≤ maxObj t) :
    k * (3 + n) ≤ 243 := by
  have h2 : k ≤ 243 / (3 + n) := by
    rw [maxObj, hn] at h
    exact Nat.le_trans h (Nat.min_le_right _ _)
  exact Nat.le_trans (Nat.mul_le_mul_right _ h2) (Nat.div_mul_le_self _ _)

theorem maxObj_le (t : Int) : maxObj t ≤ 127 := Nat.min_le_left _ _

/-! ## Frames -/

def asduBytes (st : ClientState) (t cot : Int) (n : Nat) (parts : Bytes) : Bytes :=
  leBytes 1 t.toNat ++ (leBytes 1 n ++ (leBytes 2 cot.toNat ++ (leBytes 2 st.ca.toNat ++ parts)))

theorem length_asduBytes (st : ClientState) (t cot : Int) (n : Nat) (parts : Bytes) :
    (asduBytes st t cot n parts).length = parts.length + 6 := by
  simp only [asduBytes, List.length_append, length_leBytes]
  omega

theorem packU_eq_ok {w : Nat} {x : Int} {b : Bytes} :
    packU w x = .ok b ↔ (0 ≤ x ∧ x.toNat < 256 ^ w) ∧ b = leBytes w x.toNat := by
  unfold packU
  split
  · rename_i h
    exact ⟨fun e => ⟨h, (Except.ok.inj e).symm⟩, fun e => by rw [e.2]⟩
  · rename_i h
    exact ⟨fun e => (by cases e), fun e => absurd e.1 h⟩

theorem control_eq_ok {sq : Nat} {b : Bytes} :
    control sq = .ok b ↔ sq <<< 1 < 256 ^ 2 ∧ b = leBytes 2 (sq <<< 1) := by
  unfold control toBytes
  simp only [Int.toNat_natCast]
  split
  · rename_i h
    exact ⟨fun e => ⟨h.2, (Except.ok.inj e).symm⟩, fun e => by rw [e.2]⟩
  · rename_i h
    exact ⟨fun e => (by cases e), fun e => absurd ⟨Int.natCast_nonneg _, e.1⟩ h⟩

/-- Whatever `buildIFrame` returns is an I-frame with the connection's sequence numbers. -/
theorem buildIFrame_some {st : ClientState} {evs : List IecEvent} {f : Bytes}
    (h : buildIFrame st evs = .ok (some f)) :
    ∃ ev parts, evs.head? = some ev ∧ encObjs ev.asdu evs = .ok (some parts) ∧
      parts.length + 10 < 256 ∧
      f = iFrame st.sendSq st.recSq (asduBytes st ev.asdu ev.cot evs.length parts) := by
  unfold buildIFrame at h
  cases evs with
  | nil => cases ok_inj h
  | cons ev evs =>
    obtain ⟨op, hp, h⟩ := bind_eq_ok.mp h
    cases op with
    | none => cases ok_inj h
    | some parts =>
      obtain ⟨cb, hcb, h⟩ := bind_eq_ok.mp h
      obtain ⟨tb, htb, h⟩ := bind_eq_ok.mp h
      obtain ⟨nb, hnb, h⟩ := bind_eq_ok.mp h
      obtain ⟨ca, hca, h⟩ := bind_eq_ok.mp h
      obtain ⟨sb, hsb, h⟩ := bind_eq_ok.mp h
      obtain ⟨rb, hrb, h⟩ := bind_eq_ok.mp h
      obtain ⟨lb, hlb, h⟩ := bind_eq_ok.mp h
      cases ok_inj h
      obtain ⟨-, rfl⟩ := packU_eq_ok.mp hcb
      obtain ⟨-, rfl⟩ := packU_eq_ok.mp htb
      obtain ⟨-, rfl⟩ := packU_eq_ok.mp hnb
      obtain ⟨-, rfl⟩ := packU_eq_ok.mp hca
      obtain ⟨-, rfl⟩ := control_eq_ok.mp hsb
      obtain ⟨-, rfl⟩ := control_eq_ok.mp hrb
      unfold byte at hlb
      split at hlb
      · rename_i hl
        cases hlb
        refine ⟨ev, parts, rfl, hp, ?_, ?_⟩
        · simp only [List.length_append, length_leBytes] at hl
          omega
        · simp only [iFrame, asduBytes, Int.toNat_natCast, List.append_assoc, List.cons_append, List.nil_append]
      · cases hlb

theorem buildIFrame_ca {st : ClientState} {ev : IecEvent} {evs : List IecEvent} {f : Bytes}
    (h : buildIFrame st (ev :: evs) = .ok (some f)) : 0 ≤ st.ca ∧ st.ca.toNat < 256 ^ 2 := by
  obtain ⟨op, -, h⟩ := bind_eq_ok.mp h
  cases op with
  | none => cases ok_inj h
  | some parts =>
    obtain ⟨_, -, h⟩ := bind_eq_ok.mp h
    obtain ⟨_, -, h⟩ := bind_eq_ok.mp h
    obtain ⟨_, -, h⟩ := bind_eq_ok.mp h
    obtain ⟨_, hca, -⟩ := bind_eq_ok.mp h
    exact (packU_eq_ok.mp hca).1

theorem typeId_octet {t : Int} {n : Nat} (h : asduDataSize.lookup t = some n) : 0 ≤ t ∧ t < 256 := by
  have hall : ∀ p ∈ asduDataSize, 0 ≤ p.1 ∧ p.1 < 256 := by decide
  obtain ⟨l, r, hl, -⟩ := List.lookup_eq_some_iff.mp h
  exact hall (t, n) (by rw [hl]; simp)

/-- A batch of one type and cause that the encoder accepts, within the limit, is built. -/
theorem buildIFrame_ok {st : ClientState} {ev : IecEvent} {evs : List IecEvent} {parts : Bytes}
    (hc : st.Counters) (hca : 0 ≤ st.ca ∧ st.ca < 65536) (hcot : 0 ≤ ev.cot ∧ ev.cot < 65536)
    (hparts : encObjs ev.asdu (ev :: evs) = .ok (some parts)) (hlen : (ev :: evs).length ≤ maxObj ev.asdu) :
    buildIFrame st (ev :: evs) =
      .ok (some (iFrame st.sendSq st.recSq (asduBytes st ev.asdu ev.cot (ev :: evs).length parts))) := by
  obtain ⟨b, rest, hb, -, -⟩ := encObjs_cons hparts
  obtain ⟨d, hd, -, -, -⟩ := encObj_some hb
  have hn := (encVal_some hd).1
  have hmul := maxObj_mul hn hlen
  have hpl := length_encObjs hn hparts
  have ht := typeId_octet hn
  have h127 := Nat.le_trans hlen (maxObj_le ev.asdu)
  have e1 : packU 2 ev.cot = .ok (leBytes 2 ev.cot.toNat) := packU_eq_ok.mpr ⟨⟨hcot.1, by omega⟩, rfl⟩
  have e2 : packU 1 ev.asdu = .ok (leBytes 1 ev.asdu.toNat) := packU_eq_ok.mpr ⟨⟨ht.1, by omega⟩, rfl⟩
  have e3 : packU 1 ((ev :: evs).length : Nat) = .ok (leBytes 1 (ev :: evs).length) := packU_ok (by omega)
  have e4 : packU 2 st.ca = .ok (leBytes 2 st.ca.toNat) := packU_eq_ok.mpr ⟨⟨hca.1, by omega⟩, rfl⟩
  have e5 : control st.sendSq = .ok (leBytes 2 (st.sendSq <<< 1)) :=
    control_eq_ok.mpr ⟨shiftLeft_one_lt hc.sendSq_lt, rfl⟩
  have e6 : control st.recSq = .ok (leBytes 2 (st.recSq <<< 1)) :=
    control_eq_ok.mpr ⟨shiftLeft_one_lt hc.recSq_lt, rfl⟩
  have hasdu : leBytes 1 ev.asdu.toNat ++ leBytes 1 (ev :: evs).length ++ leBytes 2 ev.cot.toNat ++
      leBytes 2 st.ca.toNat ++ parts = asduBytes st ev.asdu ev.cot (ev :: evs).length parts := by
    simp [asduBytes]
  have e7 : byte ((asduBytes st ev.asdu ev.cot (ev :: evs).length parts).length + 4 : Nat) =
      .ok [UInt8.ofNat ((asduBytes st ev.asdu ev.cot (ev :: evs).length parts).length + 4)] :=
    byte_ok (by rw [length_asduBytes]; omega)
  simp only [buildIFrame, hparts, e1, e2, e3, e4, e5, e6, hasdu, e7, bind, Except.bind, pure, Except.pure]
  simp [iFrame]

/-! ## The round trip -/

structure Decoded (t cot coa : Int) (ev : IecEvent) (o : Obj) : Prop where
  ioa : o.ioa = ev.ioa
  typeId : o.typeId = t
  value : ∃ d, encVal t ev = .ok (some d) ∧ decVal t d = .ok (o.val, o.q)
  cot : (o.cot : Int) = cot
  coa : (o.coa : Int) = coa
  time : t ∈ tsTypes → o.ts = some ev.ts.truncMs ∧ o.iv = some ev.iv
  noTime : t ∉ tsTypes → o.ts = none ∧ o.iv = some false

def inCentury (ev : IecEvent) : Prop := 2000 ≤ ev.ts.year ∧ ev.ts.year ≤ 2127

theorem decObj_objBytes {t : Int} {ev : IecEvent} {d : Bytes} {n : Nat} (cot coa : Nat)
    (hd : encVal t ev = .ok (some d)) (hn : asduDataSize.lookup t = some n) (hy : inCentury ev) (h0 : 0 ≤ ev.ioa) :
    ∃ o, decObj t cot coa n ev.ioa.toNat (d ++ if t ∈ tsTypes then datetimeToCp56 ev.ts ev.iv else []) = .ok o ∧
      Decoded t cot coa ev o := by
  obtain ⟨hsize, vq, hvq, hext⟩ := encVal_some hd
  have hioa : ((ev.ioa.toNat : Nat) : Int) = ev.ioa := Int.toNat_of_nonneg h0
  by_cases ht : t ∈ tsTypes
  · have hn' : n = d.length + 7 := by
      rw [hn] at hsize
      simpa [timeLen, ht] using hsize
    have hdrop : (d ++ datetimeToCp56 ev.ts ev.iv).drop (n - 7) = datetimeToCp56 ev.ts ev.iv := by
      rw [hn', Nat.add_sub_cancel, List.drop_left]
    refine ⟨⟨ev.ioa.toNat, t, vq.1, vq.2, cot, coa, some ev.ts.truncMs, some ev.iv⟩, ?_, ?_⟩
    · simp only [decObj, ht, if_true, hext, hdrop, cp56_roundtrip _ _ hy.1 hy.2, bind, Except.bind, pure, Except.pure]
    · exact ⟨hioa, rfl, ⟨d, hd, hvq⟩, rfl, rfl, fun _ => ⟨rfl, rfl⟩, fun h => absurd ht h⟩
  · refine ⟨⟨ev.ioa.toNat, t, vq.1, vq.2, cot, coa, none, some false⟩, ?_, ?_⟩
    · simp only [decObj, ht, if_false, hext, bind, Except.bind, pure, Except.pure]
    · exact ⟨hioa, rfl, ⟨d, hd, hvq⟩, rfl, rfl, fun h => absurd h ht, fun _ => ⟨rfl, rfl⟩⟩

/-- The decoder's loop, started where the objects of `evs` start, gives one tuple per event. -/
theorem decList_encObjs {t : Int} {n : Nat} (cot coa : Nat) (hn : asduDataSize.lookup t = some n) :
    ∀ (evs : List IecEvent) (pre parts : Bytes), encObjs t evs = .ok (some parts) → (∀ ev ∈ evs, inCentury ev) →
      ∃ objs, decList (decObj t cot coa n) (pre ++ parts) n evs.length pre.length = .ok objs ∧
        List.Forall₂ (Decoded t cot coa) evs objs := by
  intro evs
  induction evs with
  | nil => intro pre parts _ _; exact ⟨[], rfl, .nil⟩
  | cons ev evs ih =>
    intro pre parts h hy
    obtain ⟨b, rest, hb, hrest, rfl⟩ := encObjs_cons h
    obtain ⟨d, hd, h0, hlt, rfl⟩ := encObj_some hb
    obtain ⟨o, ho, hdec⟩ := decObj_objBytes cot coa hd hn (hy ev List.mem_cons_self) h0
    have hlen := length_objBytes hd hn
    -- the object lies between what is already read and the remaining objects
    have hioa : slice (pre ++ (objBytes t ev d ++ rest)) pre.length (pre.length + 3) = leBytes 3 ev.ioa.toNat := by
      rw [objBytes, List.append_assoc]
      exact slice_mid _ rfl (by simp)
    have hdata : slice (pre ++ (objBytes t ev d ++ rest)) (pre.length + 3) (pre.length + 3 + n) =
        d ++ (if t ∈ tsTypes then datetimeToCp56 ev.ts ev.iv else []) := by
      have hsplit : pre ++ (objBytes t ev d ++ rest) = (pre ++ leBytes 3 ev.ioa.toNat) ++
          ((d ++ (if t ∈ tsTypes then datetimeToCp56 ev.ts ev.iv else [])) ++ rest) := by
        simp only [objBytes, List.append_assoc]
      rw [hsplit]
      apply slice_mid _ (by simp)
      rw [objBytes, List.length_append, length_leBytes] at hlen
      omega
    obtain ⟨objs, hobjs, hall⟩ := ih (pre ++ objBytes t ev d) rest hrest fun e he => hy e (List.mem_cons_of_mem _ he)
    rw [List.append_assoc, List.length_append, hlen, ← Nat.add_assoc] at hobjs
    refine ⟨o :: objs, ?_, .cons hdec hall⟩
    simp only [List.length_cons, decList, hioa, hdata, leNat_leBytes hlt, ho, hobjs, bind, Except.bind, pure,
      Except.pure]

/-- The header fields of a frame built from a batch read back. -/
theorem decode_asduBytes {st : ClientState} {t cot : Int} {n size : Nat} {parts : Bytes} {objs : List Obj}
    (ht : 0 ≤ t ∧ t < 256) (hn : n ≤ 127) (hcot : 0 ≤ cot ∧ cot < 65536) (hca : 0 ≤ st.ca ∧ st.ca < 65536)
    (hsize : asduDataSize.lookup t = some size) {f : Bytes} (hf : f.drop 6 = asduBytes st t cot n parts)
    (hobjs : decList (decObj t cot.toNat st.ca.toNat size) (asduBytes st t cot n parts) size n 6 = .ok objs) :
    decodeIFrameObjects f = .ok objs := by
  have hlen : 12 ≤ f.length := by
    have := congrArg List.length hf
    rw [List.length_drop, length_asduBytes] at this
    omega
  have hbyte : ∀ k < 256, leBytes 1 k = [UInt8.ofNat k] := fun k _ => rfl
  have h6 : f[6]? = some (UInt8.ofNat t.toNat) := by
    rw [← Nat.add_zero 6, ← List.getElem?_drop, hf, asduBytes, hbyte _ (by omega)]
    rfl
  have h7 : f[7]? = some (UInt8.ofNat n) := by
    rw [show 7 = 6 + 1 from rfl, ← List.getElem?_drop, hf, asduBytes, hbyte _ (by omega), hbyte _ (by omega)]
    rfl
  have hcs : leNat (slice f 8 10) = cot.toNat := by
    rw [← slice_drop f 6 2 4, hf, asduBytes, ← List.append_assoc, slice_mid _ (by simp) (by simp),
      leNat_leBytes (by omega)]
  have has : leNat (slice f 10 12) = st.ca.toNat := by
    rw [← slice_drop f 6 4 6, hf, asduBytes, ← List.append_assoc, ← List.append_assoc, slice_mid _ (by simp) (by simp),
      leNat_leBytes (by omega)]
  have htn : ((UInt8.ofNat t.toNat).toNat : Int) = t := by
    rw [octet_toNat (by omega)]
    exact Int.toNat_of_nonneg ht.1
  have hcount : n &&& 0x7F = n := low_bits (k := 7) (by omega)
  have hsq : n &&& 0x80 = 0 := (by decide : ∀ m < 128, m &&& 0x80 = 0) n (by omega)
  rw [decode_eq hlen h6 h7 (by rw [htn]; exact hsize), htn, hcs, has, hf, octet_toNat (by omega), hcount,
    if_neg (not_not_intro hsq)]
  exact hobjs

/-- A batch of one supported type and cause decodes to one tuple per event, in order. -/
theorem decode_build (st : ClientState) (t cot : Int) (evs : List IecEvent) (hc : st.Counters)
    (hca : 0 ≤ st.ca ∧ st.ca < 65536) (hcot : 0 ≤ cot ∧ cot < 65536) (hne : evs ≠ [])
    (hbatch : ∀ ev ∈ evs, ev.asdu = t ∧ ev.cot = cot) (hioa : ∀ ev ∈ evs, 0 ≤ ev.ioa ∧ ev.ioa < 2 ^ 24)
    (henc : ∀ ev ∈ evs, ∃ d, encVal t ev = .ok (some d)) (hy : ∀ ev ∈ evs, inCentury ev)
    (hlen : evs.length ≤ maxObj t) :
    ∃ frame objs, buildIFrame st evs = .ok (some frame) ∧ decodeIFrameObjects frame = .ok objs ∧
      List.Forall₂ (Decoded t cot st.ca) evs objs := by
  cases evs with
  | nil => exact absurd rfl hne
  | cons ev rest =>
    obtain ⟨rfl, rfl⟩ := hbatch ev List.mem_cons_self
    obtain ⟨d, hd⟩ := henc ev List.mem_cons_self
    have hsize := (encVal_some hd).1
    have ht := typeId_octet hsize
    obtain ⟨parts, hparts⟩ := encObjs_ok ev.asdu (ev :: rest) fun e he => by
      obtain ⟨d, hd⟩ := henc e he
      have := hioa e he
      exact ⟨_, encObj_ok hd this.1 (by omega)⟩
    have hbuild := buildIFrame_ok hc hca hcot hparts hlen
    have hpre : (asduBytes st ev.asdu ev.cot (ev :: rest).length []).length = 6 := length_asduBytes _ _ _ _ _
    have happ : asduBytes st ev.asdu ev.cot (ev :: rest).length [] ++ parts =
        asduBytes st ev.asdu ev.cot (ev :: rest).length parts := by
      simp only [asduBytes, List.append_assoc, List.nil_append]
    obtain ⟨objs, hobjs, hall⟩ := decList_encObjs ev.cot.toNat st.ca.toNat hsize (ev :: rest)
      (asduBytes st ev.asdu ev.cot (ev :: rest).length []) parts hparts hy
    rw [happ, hpre] at hobjs
    rw [Int.toNat_of_nonneg hcot.1, Int.toNat_of_nonneg hca.1] at hall
    exact ⟨_, objs, hbuild, decode_asduBytes ht (Nat.le_trans hlen (maxObj_le _)) hcot hca hsize
      (drop_iFrame _ _ _) hobjs, hall⟩

def sampleEvents : List IecEvent :=
  [{ id := 1, ioa := 45, asdu := 35, val := .int (-7), ts := sampleTime, q := 0x10 },
    { id := 2, ioa := 70000, asdu := 35, val := .int 1200, ts := sampleTime, iv := true }]

theorem decode_build_sample : ∃ frame objs, buildIFrame (createClientState kp1Conf 1) sampleEvents = .ok (some frame) ∧
    decodeIFrameObjects frame = .ok objs ∧ List.Forall₂ (Decoded 35 3 1) sampleEvents objs :=
  decode_build (createClientState kp1Conf 1) 35 3 sampleEvents (createClientState_counters _ _)
    (by decide) (by decide) (by decide) (by decide) (by decide)
    (by
      have hok : ∀ ev ∈ sampleEvents, encVal 35 ev = .ok (some ((encVal 35 ev).toOption.join.getD [])) := by decide
      intro ev hev
      exact ⟨_, hok ev hev⟩)
    (by unfold inCentury; decide) (by decide)

/-! ## Types the encoder does not know -/

/-- `_enc_val` returns `None` for the type. -/
def Unsupported (t : Int) : Prop := ∀ ev, encVal t ev = .ok none

theorem encObj_none {t : Int} {ev : IecEvent} (h : encObj t ev = .ok none) : encVal t ev = .ok none := by
  obtain ⟨o, ho, h⟩ := bind_eq_ok.mp h
  cases o with
  | none => exact ho
  | some d =>
    obtain ⟨ioa, -, h⟩ := bind_eq_ok.mp h
    split at h
    · cases ok_inj h
    · cases ok_inj h

/-- Whether a type is supported does not depend on the event. -/
theorem unsupported_of_encVal {t : Int} {ev : IecEvent} (h : encVal t ev = .ok none) : Unsupported t := by
  intro ev'
  unfold encVal at h ⊢
  iterate 2
    split at h
    · obtain ⟨_, -, h⟩ := bind_eq_ok.mp h
      obtain ⟨_, -, h⟩ := bind_eq_ok.mp h
      cases ok_inj h
  iterate 5
    split at h
    · obtain ⟨_, -, h⟩ := bind_eq_ok.mp h
      obtain ⟨_, -, h⟩ := bind_eq_ok.mp h
      obtain ⟨_, -, h⟩ := bind_eq_ok.mp h
      cases ok_inj h
  split at h
  · obtain ⟨_, -, h⟩ := bind_eq_ok.mp h
    obtain ⟨_, -, h⟩ := bind_eq_ok.mp h
    cases ok_inj h
  · simp only [*, if_false]

def supported (t : Int) : Bool :=
  t ∈ ([1, 30, 45, 3, 31, 46, 5, 32, 7, 33, 9, 11, 34, 35, 13, 36, 15, 37, 100] : List Int)

theorem unsupported_iff {t : Int} : Unsupported t ↔ supported t = false := by
  constructor
  · intro h
    have hall : ∀ t ∈ ([1, 30, 45, 3, 31, 46, 5, 32, 7, 33, 9, 11, 34, 35, 13, 36, 15, 37, 100] : List Int),
        encVal t (point t 0 0) ≠ .ok none := by decide +kernel
    rw [← Bool.not_eq_true]
    intro ht
    exact hall t (of_decide_eq_true ht) (h _)
  · intro h ev
    simp only [supported, List.mem_cons, List.not_mem_nil, or_false, decide_eq_false_iff_not, not_or] at h
    simp [encVal, h]
    rfl

theorem supported_of_encObjs {t : Int} {ev : IecEvent} {evs : List IecEvent} {parts : Bytes}
    (h : encObjs t (ev :: evs) = .ok (some parts)) : supported t = true := by
  rw [← Bool.not_eq_false, ← unsupported_iff]
  intro hun
  obtain ⟨b, rest, hb, -, -⟩ := encObjs_cons h
  rw [encObj, hun ev] at hb
  cases hb

theorem encObjs_none {t : Int} {evs : List IecEvent} (h : encObjs t evs = .ok none) : Unsupported t := by
  induction evs with
  | nil => cases ok_inj h
  | cons ev evs ih =>
    obtain ⟨o, ho, h⟩ := bind_eq_ok.mp h
    cases o with
    | none => exact unsupported_of_encVal (encObj_none ho)
    | some obj =>
      obtain ⟨ps, hps, h⟩ := bind_eq_ok.mp h
      cases ps with
      | none => exact ih hps
      | some parts => cases ok_inj h

theorem buildIFrame_none {st : ClientState} {ev : IecEvent} {rest : List IecEvent}
    (h : buildIFrame st (ev :: rest) = .ok none) : Unsupported ev.asdu := by
  obtain ⟨o, ho, h⟩ := bind_eq_ok.mp h
  cases o with
  | none => exact encObjs_none ho
  | some parts =>
    obtain ⟨_, -, h⟩ := bind_eq_ok.mp h
    obtain ⟨_, -, h⟩ := bind_eq_ok.mp h
    obtain ⟨_, -, h⟩ := bind_eq_ok.mp h
    obtain ⟨_, -, h⟩ := bind_eq_ok.mp h
    obtain ⟨_, -, h⟩ := bind_eq_ok.mp h
    obtain ⟨_, -, h⟩ := bind_eq_ok.mp h
    obtain ⟨_, -, h⟩ := bind_eq_ok.mp h
    cases ok_inj h

/-! ## Batches that do not raise -/

/-- The encoder does not raise on the event. -/
def Sendable (ev : IecEvent) : Prop := ∃ o, encObj ev.asdu ev = .ok o

theorem encObjs_total {t : Int} {evs : List IecEvent} (h : ∀ ev ∈ evs, ∃ o, encObj t ev = .ok o) :
    ∃ o, encObjs t evs = .ok o := by
  induction evs with
  | nil => exact ⟨some [], rfl⟩
  | cons ev evs ih =>
    obtain ⟨o, ho⟩ := h ev List.mem_cons_self
    obtain ⟨os, hos⟩ := ih fun e he => h e (List.mem_cons_of_mem _ he)
    rw [encObjs, ho]
    cases o with
    | none => exact ⟨none, rfl⟩
    | some obj => cases os <;> exact ⟨_, by rw [hos]; rfl⟩

/-- A batch of one type within the limit is built or found unsupported. -/
theorem buildIFrame_total {st : ClientState} {ev : IecEvent} {evs : List IecEvent} (hc : st.Counters)
    (hca : 0 ≤ st.ca ∧ st.ca < 65536) (hcot : 0 ≤ ev.cot ∧ ev.cot < 65536)
    (ht : ∀ e ∈ evs, e.asdu = ev.asdu) (hs : ∀ e ∈ ev :: evs, Sendable e)
    (hlen : (ev :: evs).length ≤ maxObj ev.asdu) : ∃ o, buildIFrame st (ev :: evs) = .ok o := by
  have hobjs : ∃ o, encObjs ev.asdu (ev :: evs) = .ok o := encObjs_total fun e he => by
    have hte : e.asdu = ev.asdu := by
      rcases List.mem_cons.mp he with rfl | he
      · rfl
      · exact ht e he
    rw [← hte]
    exact hs e he
  obtain ⟨o, ho⟩ := hobjs
  cases o with
  | none => exact ⟨none, by rw [buildIFrame, ho]; rfl⟩
  | some parts => exact ⟨_, buildIFrame_ok hc hca hcot ho hlen⟩

theorem one_le_maxObj (t : Int) : 1 ≤ maxObj t := by
  unfold maxObj
  cases h : asduDataSize.lookup t with
  | none => decide
  | some n =>
    have hn := asduDataSize_bounds t n h
    have : 1 ≤ 243 / (3 + n) := (Nat.le_div_iff_mul_le (by omega)).mpr (by omega)
    simp only [Option.getD_some]
    omega

end Drv60870.Protocol
