/-
  Drv60870.Protocol.Handlers — what the server does with a received frame (`protocol.py`).

  A handler runs on a `Ctx`: the connection's state, the signal store, and what it has
  emitted so far (events put to the queue, log records). Its result is Python's, a value
  or an exception; what it did before an exception stays done.

  `procFrame` gives a frame to the handler of its format. `handleIFrame` notes the numbers and
  reads the ASDU's header (`handleAsdu`), its objects (`handleObjs`), and branches on its type
  (`dispatch`): a command runs object by object (`runCommands`) and is confirmed, an
  interrogation puts its events and the termination.

  The two callbacks of the state are parameters. A command may put events to the
  connection's own queue, as `update_val` does for a subscriber. Only the base address of a
  sequence is unpacked; everything else is sliced, so that a short ASDU is noticed late.
-/

import Drv60870.Protocol.Apdu

namespace Drv60870.Protocol

open Lib.Octets Lib.Calendar Lib.Python Drv60870.Const

variable {σ : Type}

/-! ## Log records -/

inductive LogRec where
  | seqError (expected received : Nat)
  | asduTooShort
  | invalidCoa (coa : Nat) (ca : Int) (typeId : Nat)
  | invalidCoaGi (coa : Nat) (ca : Int) (typeId : Nat)
  | invalidCoaIgnored (coa : Nat) (ca : Int) (typeId : Nat)
  | asduTruncated
  | commandRejected (ioa : Nat)
  | uFrameInvalid (frame : Bytes)
  | sFrameTooShort
  deriving DecidableEq

def hexDigit (n : Nat) : Char := "0123456789ABCDEF".toList.getD n '0'

def hexUpper (b : Bytes) : String :=
  " ".intercalate (b.map fun x => String.ofList [hexDigit (x.toNat / 16), hexDigit (x.toNat % 16)])

namespace LogRec

def text : LogRec → String
  | .seqError expected received => s!"C->S [SEQ ERROR] Expected N(S)={expected} received {received}"
  | .asduTooShort => "C->S [ASDU] Length error: ASDU too short"
  | .invalidCoa coa ca typeId =>
    s!"C->S [COA] Invalid COA: received {coa}, expected {ca}. strict_coa=1, ignoring ASDU type {typeId}"
  | .invalidCoaGi coa ca typeId =>
    s!"C->S [COA] Invalid COA: received {coa}, expected {ca}. strict_coa=0, but this is GI, proceeding (ASDU type {typeId})"
  | .invalidCoaIgnored coa ca typeId =>
    s!"C->S [COA] Invalid COA: received {coa}, expected {ca}. strict_coa=0, ignoring ASDU type {typeId}"
  | .asduTruncated => "C->S [ASDU] Length error: packet truncated"
  | .commandRejected ioa => s!"Command on IOA {ioa} rejected"
  | .uFrameInvalid frame => "C->S [U-FRAME] Invalid byte " ++ hexUpper frame
  | .sFrameTooShort => "C->S [S-FRAME] Frame too short"

def isLengthError : LogRec → Bool
  | .asduTooShort | .asduTruncated | .sFrameTooShort => true
  | _ => false

end LogRec

/-! ## The context of a handler -/

structure Callbacks (σ : Type) where
  onCommand : Option (Val → Nat → σ → Bool × List IecEvent × σ)
  onGi : Option (σ → List IecEvent)

structure Ctx (σ : Type) where
  st : ClientState
  store : σ
  puts : List IecEvent := []
  logs : List LogRec := []

namespace Ctx

def log (c : Ctx σ) (r : LogRec) : Ctx σ := { c with logs := c.logs ++ [r] }
def put (c : Ctx σ) (evs : List IecEvent) : Ctx σ := { c with puts := c.puts ++ evs }

/-- The numbered header of an I-frame: `N(R)` is taken as it is, a wrong `N(S)` only logged. -/
def received (c : Ctx σ) (nS nR : Nat) : Ctx σ :=
  let c' := if nS ≠ c.st.recSq then c.log (.seqError c.st.recSq nS) else c
  { c' with st := { c.st with lastAckNr := nR, recSq := (c.st.recSq + 1) % seqMod } }

def command (cb : Callbacks σ) (c : Ctx σ) (val : Val) (ioa : Nat) : Ctx σ :=
  match cb.onCommand with
  | none => c
  | some f =>
    let (success, evs, store) := f val ioa c.store
    let c := { c.put evs with store }
    if success then c else c.log (.commandRejected ioa)

end Ctx

/-! ## I-frames -/

/-- `build_i_frame_ack`: the request's ASDU with another cause, and the next `N(S)`. -/
def buildIFrameAck (st : ClientState) (frame : Bytes) (cot : Nat) : Except PyErr (Bytes × ClientState) :=
  let asdu := frame.drop 6
  if 2 < asdu.length then do
    let asdu := asdu.set 2 (UInt8.ofNat cot)
    let ns ← toBytes 2 (st.sendSq <<< 1 : Nat)
    let nr ← toBytes 2 (st.recSq <<< 1 : Nat)
    let len ← byte (asdu.length + 4 : Nat)
    return (startByte :: (len ++ ns ++ nr ++ asdu), { st with sendSq := (st.sendSq + 1) % seqMod })
  else .error .indexError

def parseSeq (asdu : Bytes) (valSize base : Nat) : Nat → Nat → Nat → List (Nat × Bytes)
  | 0, _, _ => []
  | n + 1, i, offset =>
    (base + i, slice asdu offset (offset + valSize)) :: parseSeq asdu valSize base n (i + 1) (offset + valSize)

def parseList (asdu : Bytes) (valSize : Nat) : Nat → Nat → List (Nat × Bytes)
  | 0, _ => []
  | n + 1, offset =>
    (leNat (slice asdu offset (offset + 3)), slice asdu (offset + 3) (offset + 3 + valSize)) ::
      parseList asdu valSize n (offset + 3 + valSize)

def valSize (typeId : Nat) : Nat := (asduDataSize.lookup (typeId : Int)).getD 1

/-- The object loop of `handle_i_frame`. Only the base address of a sequence is unpacked;
    everything else is sliced, so a short ASDU gives short or empty values. -/
def parseObjs (asdu : Bytes) (typeId vsq : Nat) : Except PyErr (List (Nat × Bytes)) := do
  let count := vsq &&& 0x7F
  if vsq &&& 0x80 ≠ 0 then
    let base ← unpackU 4 (slice asdu 6 9 ++ [0x00])
    return parseSeq asdu (valSize typeId) base count 0 9
  else
    return parseList asdu (valSize typeId) count 6

def singleVal (data : Bytes) : Except PyErr Val := do
  let d ← index data 0
  return .int (d.toNat &&& 0x01 : Nat)

def setpointVal (data : Bytes) : Except PyErr Val := do
  let d := slice data 0 5
  if d.length = 5 then
    let v ← unpackF (slice d 0 4)
    return .float v
  else .error .structError

/-- The loop over a command's objects. -/
def runCommands (cb : Callbacks σ) (val : Bytes → Except PyErr Val) :
    List (Nat × Bytes) → Ctx σ → Except PyErr Unit × Ctx σ
  | [], c => (.ok (), c)
  | (ioa, data) :: objs, c =>
    match val data with
    | .error e => (.error e, c)
    | .ok v => runCommands cb val objs (c.command cb v ioa)

def giTermination (now : Datetime) : IecEvent :=
  { id := -1, ioa := 0, asdu := 100, val := .int 0, ts := now, cot := 10 }

def confirm (frame : Bytes) (c : Ctx σ) : Except PyErr (Option Bytes) × Ctx σ :=
  match buildIFrameAck c.st frame COT.activationCon with
  | .error e => (.error e, c)
  | .ok (ack, st) => (.ok (some ack), { c with st })

def obey (cb : Callbacks σ) (val : Bytes → Except PyErr Val) (frame : Bytes) (objs : List (Nat × Bytes))
    (c : Ctx σ) : Except PyErr (Option Bytes) × Ctx σ :=
  match runCommands cb val objs c with
  | (.error e, c) => (.error e, c)
  | (.ok (), c) => confirm frame c

def dispatch (cb : Callbacks σ) (now : Datetime) (frame : Bytes) (typeId : Nat) (objs : List (Nat × Bytes))
    (c : Ctx σ) : Except PyErr (Option Bytes) × Ctx σ :=
  if typeId = AsduTypeId.cIcNa1 then
    match cb.onGi with
    | some gi => confirm frame (c.put ((gi c.store).filter (fun ev => ev.asdu < 45) ++ [giTermination now]))
    | none => (.ok none, c)
  else if typeId = AsduTypeId.cScNa1 then obey cb singleVal frame objs c
  else if typeId = AsduTypeId.cSeNc1 then obey cb setpointVal frame objs c
  else (.ok none, c)

/-- An ASDU for this station: read the objects, then act on them. -/
def handleObjs (cb : Callbacks σ) (now : Datetime) (frame asdu : Bytes) (typeId vsq : Nat) (c : Ctx σ) :
    Except PyErr (Option Bytes) × Ctx σ :=
  match parseObjs asdu typeId vsq with
  | .error .indexError => (.ok none, c.log .asduTruncated)
  | .error e => (.error e, c)
  | .ok objs => dispatch cb now frame typeId objs c

/-- The ASDU part of `handle_i_frame`. -/
def handleAsdu (cb : Callbacks σ) (now : Datetime) (frame asdu : Bytes) (c : Ctx σ) :
    Except PyErr (Option Bytes) × Ctx σ :=
  if h : 6 ≤ asdu.length then
    let typeId := asdu[0].toNat
    let vsq := asdu[1].toNat
    let coa := leNat (slice asdu 4 6)
    if (coa : Int) ≠ c.st.ca ∧ c.st.conf.protStrictCoa = true then
      (.ok none, c.log (.invalidCoa coa c.st.ca typeId))
    else if (coa : Int) ≠ c.st.ca ∧ (typeId : Int) ≠ AsduTypeId.cIcNa1 then
      (.ok none, c.log (.invalidCoaIgnored coa c.st.ca typeId))
    else
      handleObjs cb now frame asdu typeId vsq
        (if (coa : Int) ≠ c.st.ca then c.log (.invalidCoaGi coa c.st.ca typeId) else c)
  else (.ok none, c.log .asduTooShort)

def handleIFrame (cb : Callbacks σ) (now : Datetime) (frame : Bytes) (c : Ctx σ) :
    Except PyErr (Option Bytes) × Ctx σ :=
  match unpackU 2 (slice frame 2 4) with
  | .error e => (.error e, c)
  | .ok ns =>
    match unpackU 2 (slice frame 4 6) with
    | .error e => (.error e, c)
    | .ok nr => handleAsdu cb now frame (frame.drop 6) (c.received (ns >>> 1) (nr >>> 1))

/-! ## U- and S-frames -/

def handleUFrame (frame : Bytes) (c : Ctx σ) : Except PyErr (Option Bytes) × Ctx σ :=
  match index frame 2 with
  | .error e => (.error e, c)
  | .ok b =>
    match UTypeId.ofByte b with
    | none => (.ok none, c.log (.uFrameInvalid frame))
    | some u =>
      let st := match u with
        | .startdtAct => { c.st with startdtConfirmed := true }
        | .stopdtAct => { c.st with startdtConfirmed := false }
        | _ => c.st
      (.ok (uResp u), { c with st })

def buildSFrame (st : ClientState) : Except PyErr Bytes := do
  let nr ← toBytes 2 (st.recSq <<< 1 : Nat)
  return [0x68, 0x04, 0x01, 0x00] ++ nr

def handleSFrame (frame : Bytes) (c : Ctx σ) : Except PyErr (Option Bytes) × Ctx σ :=
  if frame.length < 6 then (.ok none, c.log .sFrameTooShort)
  else
    match unpackU 2 (slice frame 4 6) with
    | .error e => (.error e, c)
    | .ok nr => (.ok none, { c with st := { c.st with lastAckNr := nr >>> 1 } })

/-! ## Any frame -/

inductive FrameType where
  | I
  | S
  | U
  deriving DecidableEq, Repr

def procFrame (cb : Callbacks σ) (now : Datetime) (frame : Bytes) (c : Ctx σ) :
    Except PyErr (FrameType × Option Bytes) × Ctx σ :=
  match index frame 2 with
  | .error e => (.error e, c)
  | .ok b =>
    if b.toNat &&& 0x01 = 0 then
      let r := handleIFrame cb now frame c
      (r.1.map (.I, ·), r.2)
    else if b.toNat &&& 0x02 ≠ 0 then
      let r := handleUFrame frame c
      (r.1.map (.U, ·), r.2)
    else
      let r := handleSFrame frame c
      (r.1.map (.S, ·), r.2)

end Drv60870.Protocol
