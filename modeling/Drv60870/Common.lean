/-
  Drv60870.Common — configuration, events and connection state (`common.py`).

  `ClientState` holds the protocol fields of the source's class; the queue, the socket
  and the locks belong to the threads' models. `conf` and `ca` are always set: both
  `create_client_state` and `create_session_state` assign them before a thread starts.
-/

import Drv60870.Lib.Calendar
import Drv60870.Lib.Python

namespace Drv60870

open Lib.Octets Lib.Calendar Lib.Python

/-- The `[prot]` and `[log]` settings the protocol code reads. -/
structure Conf where
  protK : Nat
  protW : Nat
  protStrictCoa : Bool
  maxRxBuf : Nat
  logIFrameStatsEvery : Nat
  deriving DecidableEq, Repr

structure IecEvent where
  id : Int
  ioa : Int
  asdu : Int
  val : Val
  ts : Datetime
  q : Int := 0
  iv : Bool := false
  cot : Int := 3
  deriving DecidableEq

structure ClientState where
  ca : Int
  conf : Conf
  recSq : Nat := 0
  sendSq : Nat := 0
  startdtConfirmed : Bool := false
  recCountSinceSend : Nat := 0
  lastAckNr : Nat := 0
  sentObj : Nat := 0
  deriving DecidableEq

/-- The state of a new connection (`create_client_state`, `create_session_state`). -/
def createClientState (conf : Conf) (ca : Int) : ClientState := { ca, conf }

def seqMod : Nat := 32768

structure ClientState.Counters (st : ClientState) : Prop where
  sendSq_lt : st.sendSq < seqMod
  recSq_lt : st.recSq < seqMod

theorem createClientState_counters (conf : Conf) (ca : Int) : (createClientState conf ca).Counters :=
  ⟨Nat.zero_lt_succ _, Nat.zero_lt_succ _⟩

/-! ## Sample data -/

def kp1Conf : Conf := ⟨30, 8, true, 16384, 1000⟩

def sampleTime : Datetime := ⟨2025, 3, 21, 14, 30, 25, 123456, by decide⟩

def point (asdu ioa val : Int) : IecEvent := { id := ioa, ioa, asdu, val := .int val, ts := sampleTime }

end Drv60870
