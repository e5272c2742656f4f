/-
  Drv60870.Protocol.Codec — values, times and I-frames as octets (`protocol.py`).

  `encVal` is `_enc_val`, `none` for a type the driver does not support; `encObj` puts the
  address before it and the time behind, `buildIFrame` the header and the control field before
  the objects of a batch. `decVal` is `_dec_val`, the value and the quality; `decSeq` and
  `decList` are the two loops of `decode_i_frame_objects`, each ending at the first object it
  cannot read.

  The encoder and the decoder share no layout code in the source and none here. Exceptions are
  those of Python, and where the source catches them, the model does.
-/

import Drv60870.Common
import Drv60870.Const

namespace Drv60870.Protocol

open Lib.Octets Lib.Calendar Lib.Python Drv60870.Const

def tsTypes : List Int := [30, 31, 32, 33, 34, 35, 36, 37]

/-! ## Encoding -/

def encVal (typeId : Int) (ev : IecEvent) : Except PyErr (Option Bytes) := do
  if typeId ∈ [1, 30, 45] then
    let v ← ev.val.toInt
    let b ← byte (mask v 0x01 ||| mask ev.q 0xFE : Nat)
    return some b
  else if typeId ∈ [3, 31, 46] then
    let v ← ev.val.toInt
    let b ← byte (mask v 0x03 ||| mask ev.q 0xFC : Nat)
    return some b
  else if typeId ∈ [5, 32] then
    let v ← ev.val.toInt
    let b ← packS 1 v
    let q ← packU 1 ev.q
    return some (b ++ q)
  else if typeId ∈ [7, 33] then
    let v ← ev.val.toInt
    let b ← packU 4 v
    let q ← packU 1 ev.q
    return some (b ++ q)
  else if typeId ∈ [9, 11, 34, 35] then
    let v ← ev.val.toInt
    let b ← packS 2 v
    let q ← packU 1 ev.q
    return some (b ++ q)
  else if typeId ∈ [13, 36] then
    let v ← ev.val.toFloat
    let b ← packF v
    let q ← packU 1 ev.q
    return some (b ++ q)
  else if typeId ∈ [15, 37] then
    let v ← ev.val.toInt
    let b ← packS 4 v
    let q ← packU 1 ev.q
    return some (b ++ q)
  else if typeId = 100 then
    let v ← ev.val.toInt
    let b ← byte (mask v 0xFF)
    return some b
  else
    return none

def datetimeToCp56 (dt : Datetime) (iv : Bool) : Bytes :=
  let msTotal := (dt.second * 1000 + dt.microsecond / 1000) % 60000
  let minute := dt.minute &&& 0x3F
  [UInt8.ofNat (msTotal &&& 0xFF),
   UInt8.ofNat ((msTotal >>> 8) &&& 0xFF),
   UInt8.ofNat (if iv then minute ||| 0x80 else minute),
   UInt8.ofNat (dt.hour &&& 0x1F),
   UInt8.ofNat ((dt.day &&& 0x1F) ||| ((dt.isoWeekday &&& 0x07) <<< 5)),
   UInt8.ofNat (dt.month &&& 0x0F),
   UInt8.ofNat (mask ((dt.year : Int) - 2000) 0x7F)]

def encObj (tAsdu : Int) (ev : IecEvent) : Except PyErr (Option Bytes) := do
  match ← encVal tAsdu ev with
  | none => return none
  | some data =>
    let ioa ← toBytes 3 ev.ioa
    if tAsdu ∈ tsTypes then return some (ioa ++ data ++ datetimeToCp56 ev.ts ev.iv)
    else return some (ioa ++ data)

/-- The loop of `build_i_frame`: it ends at the first event that cannot be encoded. -/
def encObjs (tAsdu : Int) : List IecEvent → Except PyErr (Option Bytes)
  | [] => return some []
  | ev :: evs => do
    match ← encObj tAsdu ev with
    | none => return none
    | some obj =>
      match ← encObjs tAsdu evs with
      | none => return none
      | some parts => return some (obj ++ parts)

/-- A control field: 15 bits above a zero bit. -/
def control (sq : Nat) : Except PyErr Bytes := toBytes 2 (sq <<< 1 : Nat)

def buildIFrame (st : ClientState) (events : List IecEvent) : Except PyErr (Option Bytes) := do
  match events with
  | [] => return none
  | ev :: _ =>
    match ← encObjs ev.asdu events with
    | none => return none
    | some parts =>
      let cotBytes ← packU 2 ev.cot
      let t ← packU 1 ev.asdu
      let n ← packU 1 events.length
      let ca ← packU 2 st.ca
      let asdu := t ++ n ++ cotBytes ++ ca ++ parts
      let sendSq ← control st.sendSq
      let recSq ← control st.recSq
      let len ← byte (asdu.length + 4 : Nat)
      return some (startByte :: len ++ sendSq ++ recSq ++ asdu)

/-- The batch size `client_send` allows for a type. -/
def maxObj (typeId : Int) : Nat := min 127 (243 / (3 + (asduDataSize.lookup typeId).getD 1))

/-! ## Decoding -/

/-- `datetime_from_cp56`: fields that are no calendar time give `(None, None)`. -/
def datetimeFromCp56 : Bytes → Except PyErr (Option Datetime × Option Bool)
  | b0 :: b1 :: b2 :: b3 :: b4 :: b5 :: b6 :: _ =>
    let msTotal := (b1.toNat <<< 8) ||| b0.toNat
    let sec := msTotal / 1000
    let msec := msTotal % 1000
    let mins := b2.toNat &&& 0x3F
    let iv := (b2.toNat &&& 0x80) != 0
    let hour := b3.toNat &&& 0x1F
    let day := b4.toNat &&& 0x1F
    let month := b5.toNat &&& 0x0F
    let year := 2000 + (b6.toNat &&& 0x7F)
    match Datetime.ofFields year month day hour mins sec (msec * 1000) with
    | some dt => .ok (some dt, some iv)
    | none => .ok (none, none)
  | _ => .error .valueError

def decVal (typeId : Int) (data : Bytes) : Except PyErr (Option Val × Nat) := do
  if typeId ∈ [1, 30, 45] then
    let d ← index data 0
    return (some (.int (d.toNat &&& 0x01 : Nat)), d.toNat &&& 0xF0)
  else if typeId ∈ [3, 31, 46] then
    let d ← index data 0
    return (some (.int (d.toNat &&& 0x03 : Nat)), d.toNat &&& 0xF0)
  else if typeId ∈ [5, 32] then
    let d ← index data 0
    let v ← unpackS 1 [d &&& 0x7F]
    let q ← index data 1
    return (some (.int v), q.toNat)
  else if typeId ∈ [7, 33] then
    let v ← unpackU 4 (slice data 0 4)
    let q ← index data 4
    return (some (.int v), q.toNat)
  else if typeId ∈ [9, 11, 34, 35] then
    let v ← unpackS 2 (slice data 0 2)
    let q ← index data 2
    return (some (.int v), q.toNat)
  else if typeId ∈ [13, 36] then
    let v ← unpackF (slice data 0 4)
    let q ← index data 4
    return (some (.float v), q.toNat)
  else if typeId ∈ [15, 37] then
    let v ← unpackS 4 (slice data 0 4)
    let q ← index data 4
    return (some (.int v), q.toNat)
  else if typeId = 100 then
    let d ← index data 0
    return (some (.int d.toNat), 0)
  else
    return (none, 0)

/-- One tuple of `decode_i_frame_objects`. -/
structure Obj where
  ioa : Int
  typeId : Int
  val : Option Val
  q : Nat
  cot : Nat
  coa : Nat
  ts : Option Datetime
  iv : Option Bool
  deriving DecidableEq

def decObj (typeId : Int) (cot coa valSize ioa : Nat) (d : Bytes) : Except PyErr Obj := do
  let vq ← decVal typeId d
  let tv ← if typeId ∈ tsTypes then datetimeFromCp56 (d.drop (valSize - 7)) else .ok (none, some false)
  return ⟨ioa, typeId, vq.1, vq.2, cot, coa, tv.1, tv.2⟩

/-- The sequence form's loop. `IndexError` and `struct.error` end it; other errors escape. -/
def decSeq (dec : Nat → Bytes → Except PyErr Obj) (asdu : Bytes) (valSize base : Nat) :
    Nat → Nat → Nat → Except PyErr (List Obj)
  | 0, _, _ => return []
  | n + 1, i, offset =>
    match dec (base + i) (slice asdu offset (offset + valSize)) with
    | .ok o => return o :: (← decSeq dec asdu valSize base n (i + 1) (offset + valSize))
    | .error .indexError => return []
    | .error .structError => return []
    | .error e => .error e

def decList (dec : Nat → Bytes → Except PyErr Obj) (asdu : Bytes) (valSize : Nat) :
    Nat → Nat → Except PyErr (List Obj)
  | 0, _ => return []
  | n + 1, offset =>
    match dec (leNat (slice asdu offset (offset + 3))) (slice asdu (offset + 3) (offset + 3 + valSize)) with
    | .ok o => return o :: (← decList dec asdu valSize n (offset + 3 + valSize))
    | .error .indexError => return []
    | .error .structError => return []
    | .error e => .error e

def decodeIFrameObjects (frame : Bytes) : Except PyErr (List Obj) := do
  if frame.length < 12 then return []
  else
    let asdu := frame.drop 6
    let typeId : Int := (← index asdu 0).toNat
    let vsq := (← index asdu 1).toNat
    let count := vsq &&& 0x7F
    let cot ← unpackU 2 (slice asdu 2 4)
    let coa ← unpackU 2 (slice asdu 4 6)
    match asduDataSize.lookup typeId with
    | none => return []
    | some valSize =>
      let dec := decObj typeId cot coa valSize
      if vsq &&& 0x80 ≠ 0 then decSeq dec asdu valSize (leNat (slice asdu 6 9)) count 0 9
      else decList dec asdu valSize count 6

end Drv60870.Protocol
