/-
  Drv60870.Protocol.Ranges — the values the encoder can take.

  Each type has a field of its own width and sign, and most an octet for the quality;
  `_enc_val` raises on anything else, and `int()` on a NaN or an infinity.

  Proved:
  - Exactly when a value and a quality are encoded without raising, type by type
    (`encVal_isOk`), and an event with its address (`sendable_iff`).
  - When a frame of one event is built or refused without raising, by the station's address,
    the cause and the event (`buildIFrame_single`); a batch of an unsupported type is refused
    (`buildIFrame_refused`).
-/

import Drv60870.Protocol.CodecProofs

namespace Drv60870.Protocol

open Lib.Octets Lib.Ieee Lib.Python Drv60870.Const

/-! ## The fields -/

def finite (v : Val) : Bool := v.toInt.isOk

def intIn (lo hi : Int) (v : Val) : Bool :=
  match v.toInt with
  | .ok n => decide (lo ≤ n ∧ n ≤ hi)
  | .error _ => false

/-- `float(v)` does not overflow a single; infinities and NaNs have their own codes. -/
def inSingle (v : Val) : Bool :=
  match v.toFloat with
  | .ok x => x.isInf || !(convert binary32 x).isInf
  | .error _ => false

def isOctet (q : Int) : Bool := decide (0 ≤ q ∧ q ≤ 255)

def fits (t : Int) (v : Val) (q : Int) : Bool :=
  if t ∈ [1, 30, 45] then finite v
  else if t ∈ [3, 31, 46] then finite v
  else if t ∈ [5, 32] then intIn (-128) 127 v && isOctet q
  else if t ∈ [7, 33] then intIn 0 4294967295 v && isOctet q
  else if t ∈ [9, 11, 34, 35] then intIn (-32768) 32767 v && isOctet q
  else if t ∈ [13, 36] then inSingle v && isOctet q
  else if t ∈ [15, 37] then intIn (-2147483648) 2147483647 v && isOctet q
  else if t = 100 then finite v
  else true

/-! ## When the encoder does not raise -/

theorem isOk_bind {α β : Type} (x : Except PyErr α) (f : α → Except PyErr β) :
    (x >>= f).isOk = match x with | .ok a => (f a).isOk | .error _ => false := by
  cases x <;> rfl

theorem isOk_iff {α : Type} {x : Except PyErr α} : x.isOk = true ↔ ∃ a, x = .ok a := by
  cases x <;> simp [Except.isOk, Except.toBool]

theorem mask_lt (x : Int) {m : Nat} (h : m < 256) : mask x m < 256 := Nat.lt_of_le_of_lt Nat.and_le_right h

theorem masked_isOk (x y : Int) {m n : Nat} (hm : m < 256) (hn : n < 256) :
    (byte (mask x m ||| mask y n : Nat)).isOk = true := by
  have h : mask x m ||| mask y n < 256 := Nat.or_lt_two_pow (n := 8) (mask_lt x hm) (mask_lt y hn)
  rw [byte_ok h]
  rfl

theorem isOk_ite {α : Type} {p : Prop} [Decidable p] (a : α) (e : PyErr) :
    (if p then .ok a else .error e : Except PyErr α).isOk = decide p := by
  by_cases h : p
  · rw [if_pos h, decide_eq_true h]
    rfl
  · rw [if_neg h, decide_eq_false h]
    rfl

theorem unsigned_isOk {w m : Nat} (h : 256 ^ w = m + 1) (n : Int) :
    (packU w n).isOk = decide (0 ≤ n ∧ n ≤ m) := by
  rw [packU, isOk_ite, decide_eq_decide]
  omega

theorem signed_isOk {w m : Nat} (h : (256 : Int) ^ w = 2 * (m + 1)) (n : Int) :
    (packS w n).isOk = decide (-(m + 1 : Int) ≤ n ∧ n ≤ m) := by
  rw [packS, isOk_ite, decide_eq_decide]
  omega

theorem quality_isOk (q : Int) : (packU 1 q).isOk = isOctet q := unsigned_isOk rfl q

theorem field_isOk {α : Type} (conv : Except PyErr α) (pack : α → Except PyErr Bytes) (q : Int) :
    (do let x ← conv
        let b ← pack x
        let qb ← packU 1 q
        return some (b ++ qb) : Except PyErr (Option Bytes)).isOk =
      ((match conv with | .ok x => (pack x).isOk | .error _ => false) && isOctet q) := by
  rw [isOk_bind]
  cases conv with
  | error e => rfl
  | ok x =>
    dsimp only
    rw [isOk_bind, ← quality_isOk]
    cases pack x with
    | error e => rfl
    | ok b =>
      dsimp only
      rw [isOk_bind]
      cases packU 1 q <;> rfl

theorem intField_isOk {lo hi : Int} {pack : Int → Except PyErr Bytes}
    (h : ∀ n, (pack n).isOk = decide (lo ≤ n ∧ n ≤ hi)) (v : Val) (q : Int) :
    (do let x ← v.toInt
        let b ← pack x
        let qb ← packU 1 q
        return some (b ++ qb) : Except PyErr (Option Bytes)).isOk = (intIn lo hi v && isOctet q) := by
  rw [field_isOk, intIn]
  cases v.toInt with
  | error e => rfl
  | ok n => simp only [h]

/-- A value of which only the low bits are sent. -/
theorem lowBits_isOk {f : Int → Nat} (h : ∀ n, (byte (f n : Nat)).isOk = true) (v : Val) :
    (do let x ← v.toInt
        let b ← byte (f x : Nat)
        return some b : Except PyErr (Option Bytes)).isOk = finite v := by
  rw [isOk_bind, finite]
  cases v.toInt with
  | error e => rfl
  | ok n =>
    dsimp only
    obtain ⟨b, hb⟩ := isOk_iff.mp (h n)
    rw [hb]
    rfl

theorem encVal_isOk (t : Int) (ev : IecEvent) : (encVal t ev).isOk = fits t ev.val ev.q := by
  unfold encVal fits
  split
  · exact lowBits_isOk (fun n => masked_isOk n ev.q (by decide) (by decide)) ev.val
  split
  · exact lowBits_isOk (fun n => masked_isOk n ev.q (by decide) (by decide)) ev.val
  split
  · exact intField_isOk (fun n => signed_isOk (m := 127) rfl n) ev.val ev.q
  split
  · exact intField_isOk (fun n => unsigned_isOk (m := 4294967295) rfl n) ev.val ev.q
  split
  · exact intField_isOk (fun n => signed_isOk (m := 32767) rfl n) ev.val ev.q
  split
  · rw [field_isOk, inSingle]
    cases ev.val.toFloat with
    | error e => rfl
    | ok x =>
      dsimp only
      congr 1
      unfold packF
      cases x.isInf <;> cases (convert binary32 x).isInf <;> rfl
  split
  · exact intField_isOk (fun n => signed_isOk (m := 2147483647) rfl n) ev.val ev.q
  split
  · refine lowBits_isOk (f := fun n => mask n 0xFF) (fun n => ?_) ev.val
    rw [byte_ok (mask_lt n (by decide))]
    rfl
  · rfl

/-! ## Events -/

def addressed (t ioa : Int) : Bool := !supported t || decide (0 ≤ ioa ∧ ioa < 16777216)

theorem encVal_none_iff {t : Int} {ev : IecEvent} : encVal t ev = .ok none ↔ supported t = false := by
  rw [← unsupported_iff]
  exact ⟨unsupported_of_encVal, fun h => h ev⟩

theorem address_isOk (ioa : Int) : (toBytes 3 ioa).isOk = decide (0 ≤ ioa ∧ ioa < 16777216) := by
  rw [toBytes, isOk_ite, decide_eq_decide]
  omega

theorem encObj_isOk (t : Int) (ev : IecEvent) :
    (encObj t ev).isOk = (fits t ev.val ev.q && addressed t ev.ioa) := by
  rw [encObj, isOk_bind, ← encVal_isOk]
  cases hv : encVal t ev with
  | error e => rfl
  | ok o =>
    cases o with
    | none =>
      have hun := encVal_none_iff.mp hv
      simp only [addressed, hun]
      rfl
    | some d =>
      have hsup : supported t = true := by
        have hnot : ¬ supported t = false := fun h => by
          rw [encVal_none_iff.mpr h] at hv
          cases hv
        simpa using hnot
      have ha : addressed t ev.ioa = (toBytes 3 ev.ioa).isOk := by simp [addressed, hsup, address_isOk]
      rw [ha]
      dsimp only
      rw [isOk_bind]
      cases toBytes 3 ev.ioa with
      | error e => rfl
      | ok b => by_cases ht : t ∈ tsTypes <;> simp only [ht, if_true, if_false] <;> rfl

theorem sendable_iff {ev : IecEvent} :
    Sendable ev ↔ fits ev.asdu ev.val ev.q = true ∧ addressed ev.asdu ev.ioa = true := by
  rw [Sendable, ← isOk_iff, encObj_isOk, Bool.and_eq_true]

/-! ## Batches -/

def Uniform (batch : List IecEvent) : Prop := ∀ a ∈ batch, ∀ b ∈ batch, a.asdu = b.asdu ∧ a.cot = b.cot

/-- No more objects than `client_send` packs. -/
def WithinLimit (batch : List IecEvent) : Prop := ∀ ev ∈ batch, batch.length ≤ maxObj ev.asdu

/-- A batch of an unsupported type is refused without raising. -/
theorem buildIFrame_refused (st : ClientState) {ev : IecEvent} (evs : List IecEvent)
    (h : supported ev.asdu = false) : buildIFrame st (ev :: evs) = .ok none := by
  simp [buildIFrame, encObjs, encObj, unsupported_iff.mpr h ev, bind, Except.bind, pure, Except.pure]

/-- A frame of one event: what its building asks of the station and of the event. -/
theorem buildIFrame_single {st : ClientState} {ev : IecEvent} (h : ∃ o, buildIFrame st [ev] = .ok o) :
    Sendable ev ∧ (supported ev.asdu = true → 0 ≤ st.ca ∧ st.ca < 65536) := by
  obtain ⟨o, h⟩ := h
  obtain ⟨op, hop, h⟩ := bind_eq_ok.mp h
  obtain ⟨oo, hoo, hrest⟩ := bind_eq_ok.mp hop
  refine ⟨⟨oo, hoo⟩, fun hsup => ?_⟩
  cases op with
  | none =>
    have hun := unsupported_iff.mp (encObjs_none hop)
    rw [hun] at hsup
    cases hsup
  | some parts =>
    obtain ⟨_, -, h⟩ := bind_eq_ok.mp h
    obtain ⟨_, -, h⟩ := bind_eq_ok.mp h
    obtain ⟨_, -, h⟩ := bind_eq_ok.mp h
    obtain ⟨ca, hca, -⟩ := bind_eq_ok.mp h
    have := (packU_eq_ok.mp hca).1
    omega

end Drv60870.Protocol
