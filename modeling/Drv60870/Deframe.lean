/-
  Drv60870.Deframe — frames out of the socket (`client_rec`, `recv_loop`).

  `serverPass` and `clientPass` are one pass of the two inner `while` loops over the receive
  buffer; the loops end at a pass that cuts nothing. Each drops what precedes the next start
  octet, in its own way, and cuts the frame when all of it is there. `receive` is the outer loop
  over what `recv` returns, the server's with its buffer limit.

  Proved:
  - On six octets or more a pass does what resynchronising and cutting do (`Pass`), for either
    side, so the loops follow the one-pass parser (`Pass.follows`).
  - On a stream whose length octets are all 4 or more, both sides cut exactly the frames of the
    parser, however the stream arrives (`deframe`). The server keeps less than a frame between
    chunks, so its limit is never reached (`serverReceive_eq`).
-/

import Drv60870.Lib.Framing
import Drv60870.Protocol.Apdu

namespace Drv60870.Deframe

open Lib.Octets Lib.Framing Drv60870.Const

def apdu : Proto UInt8 := ⟨startByte, fun l => l.toNat + 2, fun l => by omega⟩

/-! ## The two loops -/

/-- One pass of `client_rec`'s loop over its buffer. -/
def serverPass (buffer : Bytes) : Option Bytes × Bytes :=
  if buffer.length < 6 then (none, buffer)
  else
    match buffer.idxOf? startByte with
    | none => (none, [])
    | some startIdx =>
      let buffer := if startIdx > 0 then buffer.drop startIdx else buffer
      match buffer[1]? with
      | none => (none, buffer)
      | some apduLen =>
        let totalFrameLen := apduLen.toNat + 2
        if buffer.length < totalFrameLen then (none, buffer)
        else (some (buffer.take totalFrameLen), buffer.drop totalFrameLen)

def clientPass (rxBuf : Bytes) : Option Bytes × Bytes :=
  if rxBuf.length < 6 then (none, rxBuf)
  else
    let synced := if rxBuf[0]? = some startByte then some rxBuf
      else (rxBuf.idxOf? startByte).map rxBuf.drop
    match synced with
    | none => (none, [])
    | some rxBuf =>
      match rxBuf[1]? with
      | none => (none, rxBuf)
      | some apduLen =>
        let totalLen := apduLen.toNat + 2
        if rxBuf.length < totalLen then (none, rxBuf)
        else (some (rxBuf.take totalLen), rxBuf.drop totalLen)

/-! ## What a pass does -/

/-- What both loops do once the buffer starts with a start octet. -/
def cutAt (b : Bytes) : Option Bytes × Bytes :=
  match b[1]? with
  | none => (none, b)
  | some l => if b.length < l.toNat + 2 then (none, b) else (some (b.take (l.toNat + 2)), b.drop (l.toNat + 2))

theorem serverPass_eq (b : Bytes) :
    serverPass b = if b.length < 6 then (none, b) else cutAt (sync apdu b) := by
  unfold serverPass
  split
  · rfl
  · rw [sync_eq_idxOf?]
    change (match b.idxOf? startByte with | none => _ | some startIdx => _) =
      cutAt (((b.idxOf? startByte).map b.drop).getD [])
    cases b.idxOf? startByte with
    | none => rfl
    | some i =>
      have hdrop : (if i > 0 then b.drop i else b) = b.drop i := by
        split
        · rfl
        · rw [show i = 0 by omega, List.drop_zero]
      simp only [hdrop]
      rfl

theorem clientPass_eq (b : Bytes) :
    clientPass b = if b.length < 6 then (none, b) else cutAt (sync apdu b) := by
  unfold clientPass
  split
  · rfl
  · have hs : sync apdu b =
        ((if b[0]? = some startByte then some b else (b.idxOf? startByte).map b.drop : Option Bytes)).getD [] := by
      by_cases h0 : b[0]? = some startByte
      · rw [if_pos h0]
        cases b with
        | nil => simp at h0
        | cons x b =>
          simp only [List.getElem?_cons_zero, Option.some.injEq] at h0
          simp [sync, apdu, h0]
      · rw [if_neg h0, sync_eq_idxOf?]
        rfl
    rw [hs]
    cases (if b[0]? = some startByte then some b else (b.idxOf? startByte).map b.drop : Option Bytes) <;> rfl

theorem cutAt_some {b f r : Bytes} (h : cutAt b = (some f, r)) :
    ∃ l, b[1]? = some l ∧ l.toNat + 2 ≤ b.length ∧ f = b.take (l.toNat + 2) ∧ r = b.drop (l.toNat + 2) := by
  unfold cutAt at h
  split at h
  · cases h
  · rename_i l hl
    split at h
    · cases h
    · cases h
      exact ⟨l, hl, by omega, rfl, rfl⟩

theorem cutAt_none {b r : Bytes} (h : cutAt b = (none, r)) :
    r = b ∧ ∀ l, b[1]? = some l → b.length < l.toNat + 2 := by
  unfold cutAt at h
  split at h
  · rename_i hn
    cases h
    exact ⟨rfl, fun l hl => by rw [hn] at hl; cases hl⟩
  · rename_i l hl
    split at h
    · rename_i hlt
      cases h
      exact ⟨rfl, fun l' hl' => by rw [hl] at hl'; cases hl'; exact hlt⟩
    · cases h

/-- A pass behaves as one that resynchronises and cuts, on six octets or more. -/
def Pass (pass : Bytes → Option Bytes × Bytes) : Prop :=
  ∀ b, pass b = if b.length < 6 then (none, b) else cutAt (sync apdu b)

theorem Pass.shrinks {pass : Bytes → Option Bytes × Bytes} (hp : Pass pass) (b f r : Bytes)
    (h : pass b = (some f, r)) : r.length < b.length := by
  rw [hp b] at h
  split at h
  · cases h
  · obtain ⟨l, hl, hle, -, rfl⟩ := cutAt_some h
    have := sync_length_le apdu b
    rw [List.length_drop]
    omega

def server : Cutter UInt8 := ⟨serverPass, Pass.shrinks serverPass_eq⟩
def client : Cutter UInt8 := ⟨clientPass, Pass.shrinks clientPass_eq⟩

def LongEnough (l : UInt8) : Prop := 4 ≤ l.toNat

/-- On such a stream a pass follows the parser: what it waits for is shorter than a frame. -/
theorem Pass.follows {C : Cutter UInt8} (hp : Pass C.cut) : C.Follows apdu LongEnough 256 := by
  constructor
  · intro b f r _ h
    rw [hp b] at h
    split at h
    · cases h
    · obtain ⟨l, hl, hle, rfl, rfl⟩ := cutAt_some h
      exact next_eq apdu hl hle
  · intro b r hc h
    rw [hp b] at h
    have nonext : (∀ l, (sync apdu b)[1]? = some l → (sync apdu b).length < l.toNat + 2) → next apdu b = none := by
      intro hlt
      cases hn : next apdu b with
      | none => rfl
      | some q =>
        obtain ⟨g, s⟩ := q
        obtain ⟨l, hl, hle, -, -⟩ := next_some apdu hn
        have := hlt l hl
        simp only [apdu] at hle this
        omega
    split at h
    · -- fewer than six octets hold no frame with a control field
      rename_i h6
      cases h
      refine ⟨nonext fun l hl => ?_, rfl, by omega⟩
      have h4 : 4 ≤ l.toNat := hc l (meets_second hl)
      have := sync_length_le apdu b
      omega
    · obtain ⟨rfl, hlt⟩ := cutAt_none h
      refine ⟨nonext hlt, sync_sync apdu b, ?_⟩
      cases hl : (sync apdu b)[1]? with
      | none =>
        have := List.getElem?_eq_none_iff.mp hl
        omega
      | some l =>
        have := hlt l hl
        have := l.toNat_lt
        omega

/-! ## The outer loops -/

/-- `client_rec` on what `recv` returns: the frames, and the buffer unless it overflowed. -/
def serverReceive (maxRxBuf : Nat) : Bytes → List Bytes → List Bytes × Option Bytes
  | buffer, [] => ([], some buffer)
  | buffer, data :: rest =>
    if (buffer ++ data).length > maxRxBuf then ([], none)
    else
      let drained := server.drain (buffer ++ data)
      let later := serverReceive maxRxBuf drained.2 rest
      (drained.1 ++ later.1, later.2)

def clientReceive : Bytes → List Bytes → List Bytes × Bytes
  | rxBuf, [] => ([], rxBuf)
  | rxBuf, data :: rest =>
    let drained := client.drain (rxBuf ++ data)
    let later := clientReceive drained.2 rest
    (drained.1 ++ later.1, later.2)

theorem clientReceive_eq : ∀ (cs : List Bytes) (b : Bytes), clientReceive b cs = feed client.drain b cs := by
  intro cs
  induction cs with
  | nil => intro b; rfl
  | cons c cs ih => intro b; simp only [clientReceive, feed, ih]

/-- Between chunks the server keeps less than a frame, so the limit is out of reach. -/
theorem serverReceive_eq {maxRxBuf : Nat} (hmax : 1280 ≤ maxRxBuf) : ∀ (cs : List Bytes) (b : Bytes),
    b.length ≤ 256 → Clean apdu LongEnough (b ++ cs.flatten) → (∀ c ∈ cs, c.length ≤ 1024) →
      serverReceive maxRxBuf b cs = ((feed server.drain b cs).1, some (feed server.drain b cs).2) := by
  intro cs
  induction cs with
  | nil => intro b _ _ _; rfl
  | cons c cs ih =>
    intro b hb hc hlen
    have hF := Cutter.Follows.faithful (C := server) (Pass.follows serverPass_eq)
    rw [List.flatten_cons, ← List.append_assoc] at hc
    have hfit : ¬ (b ++ c).length > maxRxBuf := by
      have := hlen c List.mem_cons_self
      rw [List.length_append]
      omega
    rw [serverReceive, if_neg hfit, feed]
    dsimp only
    rw [ih _ (hF.bound _ hc.left) (hF.clean_rest hc) fun d hd => hlen d (List.mem_cons_of_mem _ hd)]

/-- Server and client cut the frames of the one-pass parser, however each of them receives the stream. -/
theorem deframe (stream : Bytes) (maxRxBuf : Nat) (cs ds : List Bytes) (hmax : 1280 ≤ maxRxBuf)
    (hclean : Clean apdu LongEnough stream) (hcs : cs.flatten = stream) (hds : ds.flatten = stream)
    (hlen : ∀ c ∈ cs, c.length ≤ 1024) :
    (serverReceive maxRxBuf [] cs).1 = (parse apdu stream).1 ∧
      (serverReceive maxRxBuf [] cs).2.isSome = true ∧
      (clientReceive [] ds).1 = (parse apdu stream).1 := by
  have hS := Cutter.Follows.faithful (C := server) (Pass.follows serverPass_eq)
  have hC := Cutter.Follows.faithful (C := client) (Pass.follows clientPass_eq)
  have hnil : (parse apdu []).1 = [] := by rw [parse_none apdu rfl]
  rw [serverReceive_eq hmax cs [] (Nat.zero_le _) (by rw [List.nil_append, hcs]; exact hclean) hlen, clientReceive_eq]
  refine ⟨?_, rfl, ?_⟩
  · rw [feed_parse hS cs [] hnil (by rw [List.nil_append, hcs]; exact hclean), List.nil_append, hcs]
  · rw [feed_parse hC ds [] hnil (by rw [List.nil_append, hds]; exact hclean), List.nil_append, hds]

/-- A noise octet and a STARTDT activation, cut inside the frame. -/
theorem deframe_noise :
    (serverReceive 4096 [] [[0xFF, 0x68, 0x04], [0x07, 0x00], [0x00, 0x00]]).1 =
        (parse apdu (0xFF :: startdtAct)).1 ∧
      (serverReceive 4096 [] [[0xFF, 0x68, 0x04], [0x07, 0x00], [0x00, 0x00]]).2.isSome = true ∧
      (clientReceive [] [0xFF :: startdtAct]).1 = (parse apdu (0xFF :: startdtAct)).1 :=
  deframe (0xFF :: startdtAct) 4096 _ _ (by decide)
    (by
      intro l hl
      have hp : parse apdu (0xFF :: startdtAct) = ([startdtAct], []) := by
        rw [parse_some apdu (f := startdtAct) (r := []) rfl, parse_none apdu rfl]
        rfl
      rw [Meets, hp] at hl
      rcases hl with ⟨f, hf, hfl⟩ | hl
      · rw [List.mem_singleton.mp hf] at hfl
        cases hfl
        exact (by decide : 4 ≤ (0x04 : UInt8).toNat)
      · cases hl)
    rfl rfl (by decide)

end Drv60870.Deframe
