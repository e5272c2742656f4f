/-
  Drv60870.Protocol.Apdu — the control fields of a frame.

  What a frame's octets say, whoever wrote it: its format (`isI`, `isS`, `isU`) and its
  sequence numbers (`nS`, `nR`). `iFrame` and `sFrame` are the layouts every builder of the
  driver produces. `Whole` is a frame of six octets or more, as many as its length octet says;
  `lastNr` is the last `N(R)` that a list of frames brings.

  Proved:
  - The fields of a layout read back (`nS_iFrame`, `nR_iFrame`, `nR_sFrame`).
  - Every control octet is of exactly one format (`format_cases`, `only_I`).
-/

import Drv60870.Common
import Drv60870.Const

namespace Drv60870.Protocol

open Lib.Octets Drv60870.Const

def ctrl (p : Nat → Bool) (f : Bytes) : Bool := (f[2]?.map fun c => p c.toNat).getD false

def isI : Bytes → Bool := ctrl fun c => c % 2 = 0
def isS : Bytes → Bool := ctrl fun c => c % 4 = 1
def isU : Bytes → Bool := ctrl fun c => c % 4 = 3

def nS (f : Bytes) : Nat := leNat (slice f 2 4) / 2
def nR (f : Bytes) : Nat := leNat (slice f 4 6) / 2

def numberedI (f : Bytes) : Bool := isI f && decide (6 ≤ f.length)

def numberedS (f : Bytes) : Bool := isS f && decide (6 ≤ f.length)

/-- A frame as the receivers cut it: its second octet counts the octets behind it. -/
def IsFrame (f : Bytes) : Prop := f[0]? = some startByte ∧ ∃ l : UInt8, f[1]? = some l ∧ f.length = l.toNat + 2

instance (f : Bytes) : Decidable (IsFrame f) :=
  match h : f[1]? with
  | some l => decidable_of_iff (f[0]? = some startByte ∧ f.length = l.toNat + 2)
      ⟨fun ⟨h0, hl⟩ => ⟨h0, l, h, hl⟩, fun ⟨h0, l', h', hl⟩ => ⟨h0, by rw [h] at h'; cases h'; exact hl⟩⟩
  | none => isFalse fun ⟨_, l, h', _⟩ => by rw [h] at h'; cases h'

def iFrame (ns nr : Nat) (asdu : Bytes) : Bytes :=
  startByte :: UInt8.ofNat (asdu.length + 4) :: (leBytes 2 (ns <<< 1) ++ (leBytes 2 (nr <<< 1) ++ asdu))

def sFrame (nr : Nat) : Bytes := startByte :: 0x04 :: 0x01 :: 0x00 :: leBytes 2 (nr <<< 1)

@[simp] theorem length_iFrame (ns nr : Nat) (asdu : Bytes) : (iFrame ns nr asdu).length = asdu.length + 6 := by
  simp [iFrame]; omega

@[simp] theorem length_sFrame (nr : Nat) : (sFrame nr).length = 6 := by simp [sFrame]

@[simp] theorem drop_iFrame (ns nr : Nat) (asdu : Bytes) : (iFrame ns nr asdu).drop 6 = asdu := by
  simp [iFrame, leBytes]

theorem shiftLeft_one_lt {n : Nat} (h : n < seqMod) : n <<< 1 < 256 ^ 2 := by
  rw [Nat.shiftLeft_eq]
  simp only [seqMod] at h
  omega

theorem shiftLeft_one_half (n : Nat) : n <<< 1 / 2 = n := by
  rw [Nat.shiftLeft_eq]
  omega

theorem nS_iFrame {ns : Nat} (nr : Nat) (asdu : Bytes) (h : ns < seqMod) : nS (iFrame ns nr asdu) = ns := by
  have hs : slice (iFrame ns nr asdu) 2 4 = leBytes 2 (ns <<< 1) := by simp [slice, iFrame, leBytes]
  rw [nS, hs, leNat_leBytes (shiftLeft_one_lt h), shiftLeft_one_half]

theorem nR_iFrame (ns : Nat) {nr : Nat} (asdu : Bytes) (h : nr < seqMod) : nR (iFrame ns nr asdu) = nr := by
  have hs : slice (iFrame ns nr asdu) 4 6 = leBytes 2 (nr <<< 1) := by simp [slice, iFrame, leBytes]
  rw [nR, hs, leNat_leBytes (shiftLeft_one_lt h), shiftLeft_one_half]

theorem nR_sFrame {nr : Nat} (h : nr < seqMod) : nR (sFrame nr) = nr := by
  have hs : slice (sFrame nr) 4 6 = leBytes 2 (nr <<< 1) := by simp [slice, sFrame, leBytes]
  rw [nR, hs, leNat_leBytes (shiftLeft_one_lt h), shiftLeft_one_half]

theorem isI_iFrame (ns nr : Nat) (asdu : Bytes) : isI (iFrame ns nr asdu) = true := by
  simp [isI, ctrl, iFrame, leBytes, Nat.shiftLeft_eq]

theorem isS_sFrame (nr : Nat) : isS (sFrame nr) = true := rfl
theorem isI_sFrame (nr : Nat) : isI (sFrame nr) = false := rfl

structure Whole (f : Bytes) : Prop where
  frame : IsFrame f
  long : 6 ≤ f.length

theorem whole_iFrame (ns nr : Nat) {asdu : Bytes} (h : asdu.length + 4 < 256) : Whole (iFrame ns nr asdu) := by
  refine ⟨⟨rfl, UInt8.ofNat (asdu.length + 4), rfl, ?_⟩, by simp⟩
  rw [length_iFrame, UInt8.toNat_ofNat_of_lt' h]

theorem whole_sFrame (nr : Nat) : Whole (sFrame nr) := ⟨⟨rfl, 0x04, rfl, length_sFrame nr⟩, by simp⟩

theorem Whole.length_le {f : Bytes} (h : Whole f) : f.length ≤ 257 := by
  obtain ⟨⟨-, l, -, hl⟩, -⟩ := h
  have := l.toNat_lt
  omega

theorem Whole.numberedI {f : Bytes} (h : Whole f) : numberedI f = isI f := by
  simp [Protocol.numberedI, h.long]

/-- The last `N(R)` that a list of frames brings, from 0. -/
def lastNr (fs : List Bytes) : Nat := fs.foldl (fun r f => if numberedI f || numberedS f then nR f else r) 0

theorem lastNr_snoc (fs : List Bytes) (f : Bytes) :
    lastNr (fs ++ [f]) = if numberedI f || numberedS f then nR f else lastNr fs := by
  rw [lastNr, List.foldl_append]
  rfl

/-- Every control octet is of exactly one format. -/
theorem format_cases {f : Bytes} (h : 2 < f.length) :
    (isI f = true ∧ isS f = false ∧ isU f = false) ∨ (isI f = false ∧ isS f = true ∧ isU f = false) ∨
      (isI f = false ∧ isS f = false ∧ isU f = true) := by
  simp only [isI, isS, isU, ctrl, List.getElem?_eq_getElem h, Option.map_some, Option.getD_some, decide_eq_true_eq,
    decide_eq_false_iff_not]
  omega

theorem ctrl_eq {f : Bytes} {p : Nat → Bool} {b : UInt8} (h : f[2]? = some b) : ctrl p f = p b.toNat := by
  simp [ctrl, h]

theorem two_lt_of_ctrl {f : Bytes} {p : Nat → Bool} (h : ctrl p f = true) : 2 < f.length := by
  unfold ctrl at h
  cases hb : f[2]? with
  | none => simp [hb] at h
  | some b => exact (List.getElem?_eq_some_iff.mp hb).1

/-- The formats exclude each other. -/
theorem only_I {f : Bytes} (h : isI f = true) : isS f = false ∧ isU f = false := by
  rcases format_cases (two_lt_of_ctrl h) with ⟨-, hr⟩ | ⟨hn, -⟩ | ⟨hn, -⟩
  · exact hr
  · rw [h] at hn; cases hn
  · rw [h] at hn; cases hn

theorem only_S {f : Bytes} (h : isS f = true) : isI f = false ∧ isU f = false := by
  rcases format_cases (two_lt_of_ctrl h) with ⟨-, hn, -⟩ | ⟨hi, -, hu⟩ | ⟨-, hn, -⟩
  · rw [h] at hn; cases hn
  · exact ⟨hi, hu⟩
  · rw [h] at hn; cases hn

theorem only_U {f : Bytes} (h : isU f = true) : isI f = false ∧ isS f = false := by
  rcases format_cases (two_lt_of_ctrl h) with ⟨-, -, hn⟩ | ⟨-, -, hn⟩ | ⟨hi, hs, -⟩
  · rw [h] at hn; cases hn
  · rw [h] at hn; cases hn
  · exact ⟨hi, hs⟩

/-- The sequence numbers a frame has are these counts. -/
def Numbers (written taken : Nat) (f : Bytes) : Prop :=
  (isI f = true → nS f = written % seqMod) ∧ (isI f = true ∨ isS f = true → nR f = taken % seqMod)

theorem numbers_of_isU {f : Bytes} (h : isU f = true) (written taken : Nat) : Numbers written taken f := by
  obtain ⟨hI, hS⟩ := only_U h
  simp [Numbers, hI, hS]

theorem numbers_iFrame {written taken w t : Nat} (asdu : Bytes) : Numbers written taken
    (iFrame (w % seqMod) (t % seqMod) asdu) ↔ w % seqMod = written % seqMod ∧ t % seqMod = taken % seqMod := by
  have hm : 0 < seqMod := by decide
  simp [Numbers, isI_iFrame, nS_iFrame _ _ (Nat.mod_lt w hm), nR_iFrame _ _ (Nat.mod_lt t hm)]

theorem numbers_sFrame (written taken : Nat) : Numbers written taken (sFrame (taken % seqMod)) := by
  have hm : 0 < seqMod := by decide
  simp [Numbers, isI_sFrame, nR_sFrame (Nat.mod_lt taken hm)]

end Drv60870.Protocol
