/-
  Drv60870.Client.SessionProofs — every step of a session.

  `Move` lists what a step can do, guards included, and `step_move` is the inversion the
  invariants start from. A received I-frame makes two of its cases: it is counted, or
  acknowledged with an S-frame.

  Proved:
  - What a whole I-frame does to the counters and what it is answered (`processFrame_I`); any
    other frame leaves them, and at most a test frame is answered (`processFrame_other`).
  - Sending changes `send_sq` alone (`afterSend_same`).
-/

import Drv60870.Lib.Runs
import Drv60870.Protocol.CodecProofs
import Drv60870.Protocol.HandlersProofs
import Drv60870.Client.Session

namespace Drv60870.Client

open Lib.Octets Lib.Calendar Lib.Python Lib.Runs Drv60870.Const Protocol Session

/-! ## Frames from the server -/

/-- An I-frame's header, counted and not acknowledged. -/
def counted (f : Bytes) (st : ClientState) : ClientState :=
  { st with
    lastAckNr := nR f
    recSq := (st.recSq + 1) % seqMod
    recCountSinceSend := st.recCountSinceSend + 1 }

structure SameCounts (st st' : ClientState) : Prop where
  conf : st'.conf = st.conf
  sendSq : st'.sendSq = st.sendSq
  recSq : st'.recSq = st.recSq
  recCount : st'.recCountSinceSend = st.recCountSinceSend

def delivered (onData : Bool) (f : Bytes) : Except PyErr Unit :=
  if onData then (decodeIFrameObjects f).map fun _ => () else .ok ()

theorem processFrame_I (onData : Bool) (st : ClientState) {f : Bytes} (h : numberedI f = true) :
    processFrame onData st f =
      if st.recCountSinceSend + 1 ≥ st.conf.protW then
        ⟨delivered onData f, { counted f st with recCountSinceSend := 0 }, some (sFrame (counted f st).recSq)⟩
      else ⟨delivered onData f, counted f st, none⟩ := by
  simp only [numberedI, Bool.and_eq_true, decide_eq_true_eq] at h
  obtain ⟨hI, h6⟩ := h
  obtain ⟨b, hb, heven⟩ := octet_I hI
  have hrec : (counted f st).recSq < seqMod := Nat.mod_lt _ (by decide)
  have hnr : leNat (slice f 4 6) >>> 1 = nR f := by rw [nR, Nat.shiftRight_eq_div_pow, Nat.pow_one]
  unfold processFrame
  simp only [index, hb]
  rw [if_pos heven, unpackU_ok (by simp; omega)]
  dsimp only
  rw [unpackU_ok (by simp; omega)]
  dsimp only
  rw [hnr]
  split
  · have hs := buildSFrame_eq hrec
    simp only [counted] at hs ⊢
    rw [hs]
    rfl
  · rfl

theorem processFrame_U (onData : Bool) (st : ClientState) {f : Bytes} (h : isU f = true) : processFrame onData st f =
    ⟨.ok (), if uFunction f = some .startdtCon then { st with startdtConfirmed := true } else st,
      if uFunction f = some .testfrAct then uResp .testfrAct else none⟩ := by
  obtain ⟨b, hb, hodd, hsecond⟩ := octet_U h
  have hfun : uFunction f = UTypeId.ofByte b := by rw [uFunction, if_pos h, hb]; rfl
  unfold processFrame
  simp only [index, hb]
  rw [if_neg hodd, if_pos hsecond, hfun]
  cases UTypeId.ofByte b with
  | none => rfl
  | some u => simp only [Option.some.injEq]

theorem processFrame_S (onData : Bool) (st : ClientState) {f : Bytes} (h : numberedS f = true) :
    processFrame onData st f = ⟨.ok (), { st with lastAckNr := nR f }, none⟩ := by
  simp only [numberedS, Bool.and_eq_true, decide_eq_true_eq] at h
  obtain ⟨hS, h6⟩ := h
  obtain ⟨b, hb, hodd, hsecond⟩ := octet_S hS
  have hnr : leNat (slice f 4 6) >>> 1 = nR f := by rw [nR, Nat.shiftRight_eq_div_pow, Nat.pow_one]
  unfold processFrame
  simp only [index, hb]
  rw [if_neg hodd, if_neg hsecond, unpackU_ok (by simp; omega)]
  dsimp only
  rw [hnr]

/-- A frame without its control field raises before anything else. -/
theorem processFrame_short (onData : Bool) (st : ClientState) {f : Bytes} (hU : isU f = false) (h6 : f.length < 6) :
    ∃ e, processFrame onData st f = ⟨.error e, st, none⟩ := by
  unfold processFrame
  by_cases h3 : f.length ≤ 2
  · rw [index_error h3]
    exact ⟨_, rfl⟩
  rcases format_cases (f := f) (by omega) with ⟨hI, -⟩ | ⟨-, hS, -⟩ | ⟨-, -, hU'⟩
  · obtain ⟨b, hb, heven⟩ := octet_I hI
    simp only [index, hb]
    rw [if_pos heven]
    cases unpackU 2 (slice f 2 4) with
    | error e => exact ⟨_, rfl⟩
    | ok ns =>
      dsimp only
      rw [unpackU_error (by rw [length_slice]; omega)]
      exact ⟨_, rfl⟩
  · obtain ⟨b, hb, hodd, hsecond⟩ := octet_S hS
    simp only [index, hb]
    rw [if_neg hodd, if_neg hsecond, unpackU_error (by rw [length_slice]; omega)]
    exact ⟨_, rfl⟩
  · rw [hU] at hU'
    cases hU'

inductive Control (f : Bytes) : Prop
  | information : numberedI f = true → Control f
  | supervisory : numberedS f = true → Control f
  | unnumbered : isU f = true → Control f
  | short : isU f = false → f.length < 6 → Control f

theorem control_cases (f : Bytes) : Control f := by
  cases hU : isU f with
  | true => exact .unnumbered hU
  | false =>
    by_cases h6 : 6 ≤ f.length
    · rcases format_cases (f := f) (by omega) with ⟨hI, -⟩ | ⟨-, hS, -⟩ | ⟨-, -, hU'⟩
      · exact .information (by simp [numberedI, hI, h6])
      · exact .supervisory (by simp [numberedS, hS, h6])
      · rw [hU] at hU'
        cases hU'
    · exact .short hU (Nat.not_le.mp h6)

/-- Any other frame than a whole I-frame leaves the counts, and at most a test frame is answered. -/
theorem processFrame_other (onData : Bool) (st : ClientState) {f : Bytes} (h : numberedI f = false) :
    SameCounts st (processFrame onData st f).st ∧
      ∀ g, (processFrame onData st f).reply = some g → uResp .testfrAct = some g := by
  have hsame : SameCounts st st := ⟨rfl, rfl, rfl, rfl⟩
  cases control_cases f with
  | information hI =>
    rw [h] at hI
    cases hI
  | supervisory hS =>
    rw [processFrame_S onData st hS]
    exact ⟨⟨rfl, rfl, rfl, rfl⟩, fun g hg => by cases hg⟩
  | unnumbered hU =>
    rw [processFrame_U onData st hU]
    constructor
    · dsimp only
      split
      · exact ⟨rfl, rfl, rfl, rfl⟩
      · exact hsame
    · intro g hg
      dsimp only at hg
      split at hg
      · exact hg
      · cases hg
  | short hU h6 =>
    obtain ⟨e, he⟩ := processFrame_short onData st hU h6
    rw [he]
    exact ⟨hsame, fun g hg => by cases hg⟩

/-! ## Steps -/

/-- Sending changes `send_sq` alone. -/
theorem afterSend_same (st : ClientState) (packet : Bytes) :
    (afterSend st packet).conf = st.conf ∧ (afterSend st packet).recSq = st.recSq ∧
      (afterSend st packet).recCountSinceSend = st.recCountSinceSend := by
  unfold afterSend
  split
  · exact ⟨rfl, rfl, rfl⟩
  · exact ⟨rfl, rfl, rfl⟩

inductive Move : Session → Act → Session → Prop
  | startdt (s) : Move s .startdt { s with que := s.que ++ [⟨startdtAct, none⟩] }
  -- `api.gi`
  | gi (s) : Move s .gi { s with calls := s.calls ++ [.reading s.st.sendSq (iWritten s.log)] }
  | build (s) (i now sq written asdu) : .reading sq written ∈ s.calls → asdu.length + 4 < 256 →
      Move s (.build i now) { s with
        calls := s.calls.set i (.built ⟨iFrame sq s.st.recSq asdu, some ⟨written, iTaken s.log⟩⟩) }
  | drop (s) (i now) : Move s (.build i now) { s with calls := s.calls.eraseIdx i }
  | enqueue (s) (i packet) : .built packet ∈ s.calls →
      Move s (.enqueue i) { s with que := s.que ++ [packet], calls := s.calls.eraseIdx i }
  -- `send_loop`
  | wait (s) (c) : s.sender = .idle → Move s (.send c) s
  | testfr (s) (c) : s.sender = .idle →
      Move s (.send c) { s with log := s.log ++ [.sent ⟨testfrAct, none⟩] }
  | get (s) (c packet que) : s.sender = .idle → s.que = packet :: que →
      Move s (.send c) { s with que, sender := .holding packet }
  | write (s) (c packet) : s.sender = .holding packet →
      Move s (.send c) { s with
        st := afterSend s.st packet.octets
        sender := .idle
        log := s.log ++ [.sent packet] }
  | stop (s) : s.sender = .idle → Move s .stop { s with sender := .stopped }
  -- `recv_loop`
  | count (s) (f alive) : IsFrame f → numberedI f = true → s.st.recCountSinceSend + 1 < s.st.conf.protW →
      Move s (.recv f) { s with st := counted f s.st, alive, log := s.log ++ [.got f] }
  | ack (s) (f alive) : IsFrame f → numberedI f = true → s.st.recCountSinceSend + 1 ≥ s.st.conf.protW →
      Move s (.recv f) { s with
        st := { counted f s.st with recCountSinceSend := 0 }
        alive
        log := s.log ++ [.got f] ++ [.reply (sFrame (counted f s.st).recSq)] }
  | pass (s) (f st alive) : IsFrame f → numberedI f = false → SameCounts s.st st →
      Move s (.recv f) { s with st, alive, log := s.log ++ [.got f] }
  | confirm (s) (f st alive g) : IsFrame f → numberedI f = false → SameCounts s.st st → uResp .testfrAct = some g →
      Move s (.recv f) { s with st, alive, log := s.log ++ [.got f] ++ [.reply g] }

theorem sendStep_move {s s' : Session} {clock : Bool} (h : s.sendStep clock = some s') : Move s (.send clock) s' := by
  unfold sendStep at h
  split at h
  · rename_i hpc
    split at h
    · split at h
      · cases h
        exact .testfr s clock hpc
      · cases h
        exact .wait s clock hpc
    · rename_i packet que hq
      cases h
      exact .get s clock packet que hpc hq
  · rename_i packet hpc
    cases h
    exact .write s clock packet hpc
  · cases h

theorem buildStep_move {s s' : Session} {i : Nat} {now : Datetime} (h : s.buildStep i now = some s') :
    Move s (.build i now) s' := by
  unfold buildStep at h
  split at h
  · rename_i sq written hc
    split at h
    · rename_i octets hb
      obtain ⟨ev, parts, -, -, hlen, rfl⟩ := buildIFrame_some hb
      cases h
      exact .build s i now sq written _ (List.mem_of_getElem? hc) (by rw [length_asduBytes]; omega)
    · cases h
      exact .drop s i now
  · cases h

theorem enqueueStep_move {s s' : Session} {i : Nat} (h : s.enqueueStep i = some s') : Move s (.enqueue i) s' := by
  unfold enqueueStep at h
  split at h
  · rename_i packet hc
    cases h
    exact .enqueue s i packet (List.mem_of_getElem? hc)
  · cases h

theorem recvStep_move {s s' : Session} {f : Bytes} (h : s.recvStep f = some s') : Move s (.recv f) s' := by
  unfold recvStep at h
  split at h
  · rename_i hg
    have hf := hg.2
    dsimp only at h
    cases hn : numberedI f with
    | true =>
      have hp := processFrame_I s.onData s.st hn
      rw [hp] at h
      by_cases hw : s.st.recCountSinceSend + 1 ≥ s.st.conf.protW
      · simp only [if_pos hw, Option.map_some, Option.toList_some] at h
        cases h
        have := Move.ack s f (delivered s.onData f).isOk hf hn hw
        rw [← List.append_cons] at this
        exact this
      · simp only [if_neg hw, Option.map_none, Option.toList_none] at h
        cases h
        exact .count s f _ hf hn (by omega)
    | false =>
      obtain ⟨hsame, hreply⟩ := processFrame_other s.onData s.st hn
      cases hr : (processFrame s.onData s.st f).reply with
      | none =>
        rw [hr] at h
        cases h
        exact .pass s f _ _ hf hn hsame
      | some g =>
        rw [hr] at h
        cases h
        have := Move.confirm s f _ (processFrame s.onData s.st f).result.isOk g hf hn hsame (hreply g hr)
        rw [← List.append_cons] at this
        exact this
  · cases h

theorem step_move {s s' : Session} {a : Act} (h : step s a = some s') : Move s a s' := by
  cases a with
  | startdt => cases h; exact .startdt s
  | gi => cases h; exact .gi s
  | build i now => exact buildStep_move h
  | enqueue i => exact enqueueStep_move h
  | send clock => exact sendStep_move h
  | stop =>
    simp only [step] at h
    split at h
    · rename_i hi
      cases h
      exact .stop s hi
    · cases h
  | recv f => exact recvStep_move h

/-! ## The history -/

theorem iWritten_snoc (log : List Obs) (o : Obs) :
    iWritten (log ++ [o]) = iWritten log + if o.writesI then 1 else 0 := by
  simp [iWritten, List.countP_append, List.countP_cons]

theorem iTaken_snoc (log : List Obs) (o : Obs) : iTaken (log ++ [o]) = iTaken log + if o.takesI then 1 else 0 := by
  simp [iTaken, List.countP_append, List.countP_cons]

end Drv60870.Client
