/-
  Drv60870.BusClient — JSON lines over TCP: the sender of the event bus (`event_bus.py`,
  `create_tcp_sender`) and the listener at the other end (`bus_client.py`, `listen_tcp`).

  `json.dumps` and `json.loads` are parameters. `Transported` says of a record that the one gives
  ASCII text without newlines for it and the other takes it back. What has not been printed is
  the listener's buffer and the stream still to come (`Pending`).

  Proved:
  - Whatever such records are sent, the listener prints them, in order and each once, however
    the stream is cut (`listen_tcp_prints`).
  - On the way: the complete lines of a buffer are printed, and what is left of the next one
    stays (`printLines_drain`).
-/

import Drv60870.Lib.Lines
import Drv60870.Lib.Str
import Drv60870.Protocol.Codec

namespace Drv60870.BusClient

open Lib.Octets Lib.Str Lib.Lines Lib.Python Protocol

/-! ## The sender -/

structure Record where
  s : String
  ioa : Int
  asdu : Int
  ca : Nat
  val : Option Val
  q : Nat
  iv : Bool
  cot : Nat
  ts : Option Text
  deriving DecidableEq

/-- `bool(iv)` of a missing flag is `False`. -/
def objToDict (sessionName : String) (o : Obj) : Record :=
  ⟨sessionName, o.ioa, o.typeId, o.coa, o.val, o.q, o.iv.getD false, o.cot, o.ts.map fun ts => ts.isoformatMs⟩

def send (dumps : Record → Text) (sessionName : String) (objects : List Obj) : Bytes :=
  encode (objects.map fun o => dumps (objToDict sessionName o) ++ ['\n']).flatten

def stream (dumps : Record → Text) (sends : List (String × List Obj)) : Bytes :=
  sends.flatMap fun call => send dumps call.1 call.2

def sentDicts (sends : List (String × List Obj)) : List Record :=
  sends.flatMap fun call => call.2.map (objToDict call.1)

/-! ## The listener -/

section Listener

variable (loads : Text → Except PyErr Record)

/-- The inner loop: what is printed, and the buffer behind the last newline. -/
def printLines (buf : Text) : List Record × Except PyErr Text :=
  match _h : cut '\n' buf with
  | none => ([], .ok buf)
  | some (line, rest) =>
    match loads line with
    | .error e => ([], .error e)
    | .ok obj => (obj :: (printLines rest).1, (printLines rest).2)
termination_by buf.length
decreasing_by all_goals exact cut_length_lt '\n' _h

/-- The loop of `listen_tcp` over what `recv` returns, until it returns no octets or there is no
    more: what is printed, and the buffer. -/
def listenTcp : Text → List Bytes → List Record × Except PyErr Text
  | buf, [] => ([], .ok buf)
  | buf, data :: chunks =>
    if data = [] then ([], .ok buf)
    else
      match decode data with
      | none => ([], .error .valueError)
      | some text =>
        match printLines loads (buf ++ text) with
        | (objs, .error e) => (objs, .error e)
        | (objs, .ok buf) => (objs ++ (listenTcp buf chunks).1, (listenTcp buf chunks).2)

end Listener

/-! ## What JSON is relied on for -/

/-- A record is dumped as ASCII text on one line, and loaded from it. -/
structure Transported (dumps : Record → Text) (loads : Text → Except PyErr Record) (d : Record) : Prop where
  ascii : Ascii (dumps d)
  line : '\n' ∉ dumps d
  loaded : loads (dumps d) = .ok d

/-! ## The stream -/

variable {dumps : Record → Text} {loads : Text → Except PyErr Record}

theorem stream_eq (sends : List (String × List Obj)) :
    stream dumps sends = encode (terminated '\n' ((sentDicts sends).map dumps)) := by
  induction sends with
  | nil => rfl
  | cons call sends ih =>
    have hdicts : sentDicts (call :: sends) = call.2.map (objToDict call.1) ++ sentDicts sends := List.flatMap_cons
    have hsend : send dumps call.1 call.2 = encode (terminated '\n' ((call.2.map (objToDict call.1)).map dumps)) := by
      rw [send, terminated, ended, List.map_map, List.map_map]
      rfl
    rw [stream, List.flatMap_cons, hsend, hdicts, List.map_append, terminated_append, encode_append, ← ih]
    rfl

theorem ascii_terminated {ds : List Record} (h : ∀ d ∈ ds, Transported dumps loads d) :
    Ascii (terminated '\n' (ds.map dumps)) := by
  induction ds with
  | nil => exact fun c hc => by cases hc
  | cons d ds ih =>
    obtain ⟨hd, hds⟩ := List.forall_mem_cons.mp h
    rw [List.map_cons, terminated_cons]
    exact Ascii.append.mpr ⟨hd.ascii, List.forall_mem_cons.mpr ⟨by decide, ih hds⟩⟩

/-! ## The listener follows the stream -/

theorem printLines_none {buf : Text} (h : '\n' ∉ buf) : printLines loads buf = ([], .ok buf) := by
  rw [printLines]
  split
  · rfl
  · rename_i hs
    rw [cut_none '\n' h] at hs
    cases hs

theorem printLines_line {l : Text} (h : '\n' ∉ l) (rest : Text) : printLines loads (l ++ '\n' :: rest) =
    match loads l with
    | .error e => ([], .error e)
    | .ok obj => (obj :: (printLines loads rest).1, (printLines loads rest).2) := by
  rw [printLines]
  split
  · rename_i hs
    rw [cut_line '\n' h] at hs
    cases hs
  · rename_i hs
    rw [cut_line '\n' h] at hs
    cases hs
    rfl

/-- The complete lines are printed, and what is left of the next stays. -/
theorem printLines_drain {ds : List Record} (h : ∀ d ∈ ds, Transported dumps loads d) {buf : Text}
    (hb : (drain '\n' buf).1 = ds.map dumps) : printLines loads buf = (ds, .ok (drain '\n' buf).2) := by
  induction ds generalizing buf with
  | nil =>
    rcases cut_cases '\n' buf with ⟨hn, -⟩ | ⟨l, rest, rfl, hl, -⟩
    · rw [printLines_none hn, drain_none hn]
    · rw [drain_line hl] at hb
      cases hb
  | cons d ds ih =>
    obtain ⟨hd, hds⟩ := List.forall_mem_cons.mp h
    rcases cut_cases '\n' buf with ⟨hn, -⟩ | ⟨l, rest, rfl, hl, -⟩
    · rw [drain_none hn] at hb
      cases hb
    · rw [drain_line hl] at hb
      obtain ⟨rfl, hrest⟩ := List.cons.inj hb
      rw [printLines_line hl, drain_line hl, hd.loaded, ih hds hrest]

/-- The records that are still to be printed: the buffer is the beginning of them, the text to come the rest. -/
structure Pending (dumps : Record → Text) (ds : List Record) (buf rest : Text) : Prop where
  text : buf ++ rest = terminated '\n' (ds.map dumps)
  tail : '\n' ∉ buf

theorem Pending.chunk {ds : List Record} (h : ∀ d ∈ ds, Transported dumps loads d) {buf text rest : Text}
    (hp : Pending dumps ds buf (text ++ rest)) : ∃ ds₁ ds₂ buf', ds = ds₁ ++ ds₂ ∧
      printLines loads (buf ++ text) = (ds₁, .ok buf') ∧ Pending dumps ds₂ buf' rest := by
  have hfree : ∀ l ∈ ds.map dumps, '\n' ∉ l := by
    intro l hl
    obtain ⟨d, hd, rfl⟩ := List.mem_map.mp hl
    exact (h d hd).line
  have htext : (buf ++ text) ++ rest = terminated '\n' (ds.map dumps) := by rw [List.append_assoc]; exact hp.text
  obtain ⟨ls₂, r, hls, hr, htail, hrest⟩ := drain_prefix hfree htext
  obtain ⟨ds₁, ds₂, rfl, h₁, rfl⟩ := List.map_eq_append_iff.mp hls
  refine ⟨ds₁, ds₂, r, rfl, ?_, hrest, htail⟩
  rw [printLines_drain (fun d hd => h d (List.mem_append_left _ hd)) h₁.symm, hr]

theorem Pending.done {ds : List Record} {buf : Text} (hp : Pending dumps ds buf []) : ds = [] ∧ buf = [] := by
  have ht := hp.text
  rw [List.append_nil] at ht
  cases ds with
  | nil => exact ⟨rfl, ht⟩
  | cons d ds =>
    refine absurd ?_ hp.tail
    rw [ht, List.map_cons, terminated_cons]
    exact List.mem_append_right _ List.mem_cons_self

theorem listenTcp_chunk {ds : List Record} {buf text buf' : Text} (hc : encode text ≠ [])
    (hp : printLines loads (buf ++ text) = (ds, .ok buf')) (chunks : List Bytes) :
    listenTcp loads buf (encode text :: chunks) =
      (ds ++ (listenTcp loads buf' chunks).1, (listenTcp loads buf' chunks).2) := by
  simp [listenTcp, hc, decode_encode, hp]

theorem listenTcp_pending : ∀ {chunks : List Bytes} {ds : List Record} {buf rest : Text},
    (∀ d ∈ ds, Transported dumps loads d) → (∀ c ∈ chunks, c ≠ []) → Ascii rest → chunks.flatten = encode rest →
    Pending dumps ds buf rest → listenTcp loads buf chunks = (ds, .ok []) := by
  intro chunks
  induction chunks with
  | nil =>
    intro ds buf rest h _ ha hs hp
    have hrest : rest = [] := by
      rw [encode_ascii ha] at hs
      exact List.map_eq_nil_iff.mp hs.symm
    subst hrest
    obtain ⟨rfl, rfl⟩ := hp.done
    rfl
  | cons c chunks ih =>
    intro ds buf rest h hne ha hs hp
    obtain ⟨hc, hcs⟩ := List.forall_mem_cons.mp hne
    rw [List.flatten_cons] at hs
    obtain ⟨text, rest, rfl, rfl, hrest⟩ := encode_cut ha hs
    obtain ⟨ds₁, ds₂, buf', rfl, hprint, hp'⟩ := hp.chunk h
    have hds₂ := ih (fun d hd => h d (List.mem_append_right _ hd)) hcs (Ascii.append.mp ha).2 hrest hp'
    rw [listenTcp_chunk hc hprint, hds₂]

/-- Whatever is sent, and however it arrives. -/
theorem listen_tcp_prints (sends : List (String × List Obj)) (hjson : ∀ d ∈ sentDicts sends, Transported dumps loads d)
    (chunks : List Bytes) (hne : ∀ c ∈ chunks, c ≠ []) (hs : chunks.flatten = stream dumps sends) :
    listenTcp loads [] chunks = (sentDicts sends, .ok []) := by
  rw [stream_eq] at hs
  exact listenTcp_pending hjson hne (ascii_terminated hjson) hs ⟨List.nil_append _, List.not_mem_nil⟩

/-! ## A sample -/

def quoted (t : Text) : Text := '"' :: t ++ ['"']
def field (key : String) (value : Text) : Text := quoted key.toList ++ ':' :: ' ' :: value

/-- `json.dumps` of a record with an integer value whose texts need no escapes. -/
def sampleDumps (d : Record) : Text :=
  let null := "null".toList
  let val := match d.val with
    | some (.int n) => intText n
    | _ => null
  '\x7b' :: List.intercalate [',', ' '] [field "s" (quoted d.s.toList), field "ioa" (intText d.ioa),
    field "asdu" (intText d.asdu), field "ca" (intText d.ca), field "val" val, field "q" (intText d.q),
    field "iv" (if d.iv then "true".toList else "false".toList), field "cot" (intText d.cot),
    field "ts" ((d.ts.map quoted).getD null)] ++ ['\x7d']

def sampleSends : List (String × List Obj) :=
  [("PU_1", [⟨100, 1, some (.int 1), 0, 3, 1, none, some false⟩]),
    ("PU_2", []),
    ("PU_2", [⟨7, 3, some (.int 2), 0x80, 20, 2, none, some false⟩,
      ⟨8, 31, some (.int 1), 0, 3, 2, some ⟨2024, 2, 29, 23, 59, 59, 999000, by decide⟩, some true⟩])]

def sampleLoads (line : Text) : Except PyErr Record :=
  match (sentDicts sampleSends).find? fun d => sampleDumps d = line with
  | some d => .ok d
  | none => .error .valueError

set_option maxRecDepth 4000 in
/-- The sample, an octet at a time. -/
theorem listen_tcp_prints_sample :
    listenTcp sampleLoads [] ((stream sampleDumps sampleSends).map fun b => [b]) =
      (sentDicts sampleSends, .ok []) := by
  have hall : ∀ d ∈ sentDicts sampleSends,
      Ascii (sampleDumps d) ∧ '\n' ∉ sampleDumps d ∧ sampleLoads (sampleDumps d) = .ok d := by decide
  refine listen_tcp_prints sampleSends (fun d hd => ⟨(hall d hd).1, (hall d hd).2.1, (hall d hd).2.2⟩) _ ?_ ?_
  · intro c hc
    obtain ⟨b, -, rfl⟩ := List.mem_map.mp hc
    exact List.cons_ne_nil b []
  · rw [← List.flatMap_def, List.flatMap_singleton']

end Drv60870.BusClient
