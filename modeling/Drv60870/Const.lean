/-
  Drv60870.Const — the protocol constants the driver uses (`const.py`).

  Type identifiers and causes of transmission are plain integers, as in the source:
  a signal table may hold any, and the codec decides which it knows.
-/

import Drv60870.Lib.Octets

namespace Drv60870.Const

open Lib.Octets

def startByte : UInt8 := 0x68
def startdtAct : Bytes := [0x68, 0x04, 0x07, 0x00, 0x00, 0x00]
def testfrAct : Bytes := [0x68, 0x04, 0x43, 0x00, 0x00, 0x00]

inductive UTypeId where
  | startdtAct
  | startdtCon
  | stopdtAct
  | stopdtCon
  | testfrAct
  | testfrCon
  deriving DecidableEq, Repr

namespace UTypeId

def value : UTypeId → UInt8
  | .startdtAct => 0x07
  | .startdtCon => 0x0B
  | .stopdtAct => 0x13
  | .stopdtCon => 0x17
  | .testfrAct => 0x43
  | .testfrCon => 0x83

def all : List UTypeId := [.startdtAct, .startdtCon, .stopdtAct, .stopdtCon, .testfrAct, .testfrCon]

def ofByte (b : UInt8) : Option UTypeId := all.find? fun u => u.value == b

end UTypeId

def uResp : UTypeId → Option Bytes
  | .startdtAct => some [0x68, 0x04, 0x0B, 0x00, 0x00, 0x00]
  | .stopdtAct => some [0x68, 0x04, 0x17, 0x00, 0x00, 0x00]
  | .testfrAct => some [0x68, 0x04, 0x83, 0x00, 0x00, 0x00]
  | _ => none

namespace COT

def activation : Int := 6
def activationCon : Nat := 7

end COT

namespace AsduTypeId

def cScNa1 : Int := 45
def cSeNc1 : Int := 50
def cIcNa1 : Int := 100

end AsduTypeId

/-- `ASDU_DATA_SIZE`: octets of an object's value, quality and time, without its address. -/
def asduDataSize : List (Int × Nat) :=
  [(1, 1), (3, 1), (5, 2), (7, 5), (9, 3), (11, 3), (13, 5), (15, 5), (45, 1), (46, 1), (50, 5), (100, 1),
    (30, 8), (31, 8), (32, 9), (33, 12), (34, 10), (35, 10), (36, 12), (37, 12)]

theorem asduDataSize_bounds : ∀ t n, asduDataSize.lookup t = some n → 1 ≤ n ∧ n ≤ 12 := by
  intro t n h
  have hm : ∀ p ∈ asduDataSize, 1 ≤ p.2 ∧ p.2 ≤ 12 := by decide
  obtain ⟨l, r, hl, -⟩ := List.lookup_eq_some_iff.mp h
  exact hm (t, n) (by rw [hl]; simp)

end Drv60870.Const
