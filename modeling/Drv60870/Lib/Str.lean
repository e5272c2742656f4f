/-
  Drv60870.Lib.Str — text as lists of characters, its digits and its UTF-8 octets.

  ASCII text is one octet a character, so its octets can be cut anywhere and each part is
  decoded by itself (`encode_cut`).
-/

import Mathlib.Data.List.Basic
import Drv60870.Lib.Octets

namespace Drv60870.Lib.Str

open Octets

abbrev Text := List Char

/-- A number in decimal, with zeros in front of it up to `w` digits. -/
def pad (w n : Nat) : Text := (Nat.toDigits 10 n).leftpad w '0'

def intText (n : Int) : Text := (toString n).toList

/-! ## UTF-8 -/

def encode (t : Text) : Bytes := t.flatMap String.utf8EncodeChar

def decode (b : Bytes) : Option Text := b.toByteArray.utf8Decode?.map Array.toList

def Ascii (t : Text) : Prop := ∀ c ∈ t, c.val < 128

instance (t : Text) : Decidable (Ascii t) := List.decidableBAll (fun c : Char => c.val < 128) t

theorem encode_append (t u : Text) : encode (t ++ u) = encode t ++ encode u := List.flatMap_append

theorem decode_encode (t : Text) : decode (encode t) = some t := by
  have h : (encode t).toByteArray = t.utf8Encode := rfl
  rw [decode, h, List.utf8Decode?_utf8Encode]
  rfl

theorem Ascii.append {t u : Text} : Ascii (t ++ u) ↔ Ascii t ∧ Ascii u := List.forall_mem_append

/-- One octet a character. -/
theorem encode_ascii {t : Text} (h : Ascii t) : encode t = t.map fun c => c.val.toUInt8 := by
  induction t with
  | nil => rfl
  | cons c t ih =>
    obtain ⟨hc, ht⟩ := List.forall_mem_cons.mp h
    have hone : String.utf8EncodeChar c = [c.val.toUInt8] := by
      apply String.utf8EncodeChar_eq_singleton
      rw [Char.utf8Size_eq_one_iff, UInt32.le_iff_toNat_le]
      exact Nat.le_of_lt_succ (UInt32.lt_iff_toNat_lt.mp hc)
    rw [encode, List.flatMap_cons, hone, List.map_cons, ← ih ht]
    rfl

/-- Octets of ASCII text that are cut are the octets of the parts. -/
theorem encode_cut {t : Text} (h : Ascii t) {a b : Bytes} (he : a ++ b = encode t) :
    ∃ u v, t = u ++ v ∧ a = encode u ∧ b = encode v := by
  rw [encode_ascii h] at he
  obtain ⟨u, v, rfl, rfl, rfl⟩ := List.map_eq_append_iff.mp he.symm
  obtain ⟨hu, hv⟩ := Ascii.append.mp h
  exact ⟨u, v, rfl, (encode_ascii hu).symm, (encode_ascii hv).symm⟩

end Drv60870.Lib.Str
