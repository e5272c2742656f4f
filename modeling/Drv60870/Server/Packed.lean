/-
  Drv60870.Server.Packed — the I-frames `client_send` writes are legal APDUs.

  The limit of a batch comes from the size table, the octets from the encoder. A batch is
  packed event by event, each of the type and cause of the first, until the limit of the type.

  Proved:
  - Encoder and table agree: each object of a batch takes the room the table gives its type
    (`encObjs_slots`).
  - A batch in hand is of one type and cause and within the limit of its type (`fits_step`),
    and whatever is built for such a batch is a frame of at most 255 octets with the number of
    objects it announces, its length octet and its sequence bit right (`packed_buildIFrame`).
  - So is every I-frame of `client_send`, in every run and from any queue (`packed_frames`).
-/

import Drv60870.Protocol.Ranges
import Drv60870.Server.Order

namespace Drv60870.Server

open Lib.Octets Lib.Calendar Lib.Python Lib.Runs Drv60870.Const Protocol Conn

variable {σ : Type} {cb : Callbacks σ}

structure Packed (batch : List IecEvent) (f : Bytes) : Prop where
  start : f[0]? = some 0x68
  length : ∃ l : UInt8, f[1]? = some l ∧ l.toNat + 2 = f.length ∧ l.toNat ≤ 253
  vsq : ∃ v : UInt8, f[7]? = some v ∧ v.toNat = batch.length ∧ v &&& 0x80 = 0
  count : 1 ≤ batch.length ∧ batch.length ≤ 127
  uniform : Uniform batch
  header : ∀ ev ∈ batch, (∃ t : UInt8, f[6]? = some t ∧ (t.toNat : Int) = ev.asdu) ∧
    (leNat (slice f 8 10) : Int) = ev.cot
  objects : ∃ size, (∀ ev ∈ batch, asduDataSize.lookup ev.asdu = some size) ∧
    (f.drop 12).length = batch.length * (3 + size) ∧
    ∀ i (h : i < batch.length), encObj batch[i].asdu batch[i] =
      .ok (some (slice f (12 + i * (3 + size)) (12 + (i + 1) * (3 + size))))

/-! ## Slots -/

/-- Each object of a batch takes the room the table gives its type, in the order of the batch. -/
theorem encObjs_slots {t : Int} {n : Nat} (hn : asduDataSize.lookup t = some n) :
    ∀ {evs : List IecEvent} {parts : Bytes}, encObjs t evs = .ok (some parts) →
      ∀ i (h : i < evs.length), encObj t evs[i] = .ok (some (slice parts (i * (3 + n)) ((i + 1) * (3 + n)))) := by
  intro evs
  induction evs with
  | nil =>
    intro parts _ i hi
    exact absurd hi (Nat.not_lt_zero i)
  | cons ev evs ih =>
    intro parts h i hi
    obtain ⟨b, rest, hb, hr, rfl⟩ := encObjs_cons h
    obtain ⟨d, hd, -, -, hd'⟩ := encObj_some hb
    have hlen : b.length = 3 + n := by
      rw [hd']
      exact length_objBytes hd hn
    cases i with
    | zero =>
      have hslot : slice (b ++ rest) (0 * (3 + n)) ((0 + 1) * (3 + n)) = b := by
        simp [slice, ← hlen]
      rw [hslot]
      exact hb
    | succ i =>
      have hslot : slice (b ++ rest) ((i + 1) * (3 + n)) ((i + 1 + 1) * (3 + n)) =
          slice rest (i * (3 + n)) ((i + 1) * (3 + n)) := by
        have hmul : ∀ k, (k + 1) * (3 + n) = 3 + n + k * (3 + n) := fun k => by rw [Nat.succ_mul, Nat.add_comm]
        have hdrop : (b ++ rest).drop (3 + n) = rest := by rw [← hlen, List.drop_left]
        rw [hmul (i + 1), hmul i, ← slice_drop, hdrop, ← hmul i]
      rw [hslot]
      exact ih hr i (Nat.lt_of_succ_lt_succ hi)

/-- The cause of a batch that is built fits its field. -/
theorem buildIFrame_cot {st : ClientState} {ev : IecEvent} {evs : List IecEvent} {f : Bytes}
    (h : buildIFrame st (ev :: evs) = .ok (some f)) : 0 ≤ ev.cot ∧ ev.cot.toNat < 256 ^ 2 := by
  obtain ⟨op, -, h⟩ := bind_eq_ok.mp h
  cases op with
  | none => cases ok_inj h
  | some parts =>
    obtain ⟨cot, hcot, -⟩ := bind_eq_ok.mp h
    exact (packU_eq_ok.mp hcot).1

theorem count_bits : ∀ n < 128, UInt8.ofNat n &&& 0x80 = 0 := by decide

theorem drop_asduBytes (st : ClientState) (t cot : Int) (n : Nat) (parts : Bytes) :
    (asduBytes st t cot n parts).drop 6 = parts := rfl

/-- Whatever is built for a batch of one type and cause within its limit. -/
theorem packed_buildIFrame {st : ClientState} {event : IecEvent} {rest : List IecEvent} {f : Bytes}
    (hall : ∀ ev ∈ event :: rest, ev.asdu = event.asdu ∧ ev.cot = event.cot)
    (hlim : (event :: rest).length ≤ maxObj event.asdu) (h : buildIFrame st (event :: rest) = .ok (some f)) :
    Packed (event :: rest) f := by
  obtain ⟨ev, parts, hev, hparts, -, hf⟩ := buildIFrame_some h
  cases hev
  obtain ⟨b, _, hb, -, -⟩ := encObjs_cons hparts
  obtain ⟨d, hd, -, -, -⟩ := encObj_some hb
  obtain ⟨size, hn⟩ : ∃ size, asduDataSize.lookup event.asdu = some size := ⟨_, (encVal_some hd).1⟩
  have hmul := maxObj_mul hn hlim
  have hlen := length_encObjs hn hparts
  have h127 := Nat.le_trans hlim (maxObj_le event.asdu)
  have hdrop : f.drop 12 = parts := by
    rw [hf, show 12 = 6 + 6 from rfl, ← List.drop_drop, drop_iFrame, drop_asduBytes]
  have hoct : (UInt8.ofNat (event :: rest).length).toNat = (event :: rest).length := octet_toNat (by omega)
  refine ⟨by rw [hf]; rfl, ?_, ?_, ⟨by simp, h127⟩, ?_, ?_, size, ?_, ?_, ?_⟩
  · have hl : (asduBytes st event.asdu event.cot (event :: rest).length parts).length + 4 < 256 := by
      rw [length_asduBytes]
      omega
    refine ⟨_, by rw [hf]; rfl, ?_, ?_⟩
    · rw [octet_toNat hl, hf, length_iFrame]
    · rw [octet_toNat hl, length_asduBytes]
      omega
  · refine ⟨UInt8.ofNat (event :: rest).length, by rw [hf]; rfl, hoct, count_bits _ (by omega)⟩
  · intro a ha c hc
    rw [(hall a ha).1, (hall a ha).2, (hall c hc).1, (hall c hc).2]
    exact ⟨rfl, rfl⟩
  · intro ev hev
    obtain ⟨h0, hcot⟩ := buildIFrame_cot h
    have ht := typeId_octet hn
    rw [(hall ev hev).1, (hall ev hev).2]
    refine ⟨⟨UInt8.ofNat event.asdu.toNat, by rw [hf]; rfl, ?_⟩, ?_⟩
    · rw [octet_toNat (by omega), Int.toNat_of_nonneg ht.1]
    · have hs : slice f 8 10 = leBytes 2 event.cot.toNat := by rw [hf]; rfl
      rw [hs, leNat_leBytes hcot, Int.toNat_of_nonneg h0]
  · intro ev hev
    rw [(hall ev hev).1]
    exact hn
  · rw [hdrop]
    exact hlen
  · intro i hi
    have hslot := encObjs_slots hn hparts i hi
    rw [← hdrop, slice_drop] at hslot
    rw [(hall _ (List.getElem_mem hi)).1]
    exact hslot

/-! ## Batches -/

/-- A batch in hand is of one type and cause and within its limit. -/
def SendPc.fits : SendPc → Prop
  | .packing event rest | .ready event rest | .mismatch event rest _ =>
    (∀ ev ∈ rest, ev.asdu = event.asdu ∧ ev.cot = event.cot) ∧ (event :: rest).length ≤ maxObj event.asdu
  | _ => True

theorem fits_step {s s' : Conn σ} {a : Act σ} (h : s.sender.fits) (hstep : step cb s a = some s') :
    s'.sender.fits := by
  cases step_move hstep with
  | pass c event hpc => exact ⟨by simp, one_le_maxObj _⟩
  | pack c event rest nxt que hpc hq hasdu hcot =>
    rw [hpc] at h
    have hroom := packing_room (show s.sendStep c = some _ from hstep) hpc rfl
    refine ⟨fun ev he => ?_, ?_⟩
    · rcases List.mem_append.mp he with he | he
      · exact h.1 ev he
      · rw [List.mem_singleton.mp he]
        exact ⟨hasdu, hcot⟩
    · simp only [List.length_cons, List.length_append, List.length_nil] at hroom ⊢
      omega
  | miss c event rest nxt que hpc | packed c event rest hpc | putBackNext c event rest nxt hpc =>
    rw [hpc] at h
    exact h
  | keep c pc hpc hpc' => rcases hpc' with rfl | rfl <;> trivial
  | stop | timeout | get | discard | enable | block | putBack | unsupported | write | ended | testfr => trivial
  | put | store | answer | take | handlerPut | raised | reply | sFrame | counted | done | close => exact h

theorem fits_ready {event : IecEvent} {rest : List IecEvent} (h : (SendPc.ready event rest).fits) :
    ∀ ev ∈ event :: rest, ev.asdu = event.asdu ∧ ev.cot = event.cot := by
  intro ev hev
  rcases List.mem_cons.mp hev with rfl | hev
  · exact ⟨rfl, rfl⟩
  · exact h.1 ev hev

/-! ## Runs -/

def packets (log : List Obs) : List (List IecEvent × Bytes) :=
  log.filterMap fun
    | .sent batch f => if isI f then some (batch, f) else none
    | _ => none

structure Packing (s : Conn σ) : Prop where
  fits : s.sender.fits
  sent : ∀ p ∈ packets s.log, Packed p.1 p.2

theorem packing_start (st : ClientState) (store : σ) (que : List IecEvent) : Packing (start st store que) := by
  refine ⟨trivial, fun p hp => ?_⟩
  obtain ⟨o, ho, hs⟩ := List.mem_filterMap.mp hp
  obtain ⟨ev, -, rfl⟩ := List.mem_map.mp ho
  cases hs

theorem packing_step {s s' : Conn σ} {a : Act σ} (h : Packing s) (hstep : step cb s a = some s') : Packing s' := by
  refine ⟨fits_step h.fits hstep, ?_⟩
  cases step_move hstep with
  | write c event rest packet hpc hl hb =>
    intro p hp
    rw [packets, List.filterMap_append] at hp
    rcases List.mem_append.mp hp with hp | hp
    · exact h.sent p hp
    · obtain ⟨o, ho, hs⟩ := List.mem_filterMap.mp hp
      cases List.mem_singleton.mp ho
      have hfits := h.fits
      rw [hpc] at hfits
      dsimp only at hs
      split at hs
      · cases hs
        exact packed_buildIFrame (fits_ready hfits) hfits.2 hb
      · cases hs
  | put | testfr | answer | take | handlerPut | reply | sFrame =>
    rw [packets, List.filterMap_append]
    show ∀ p ∈ packets s.log ++ [], Packed p.1 p.2
    rw [List.append_nil]
    exact h.sent
  | store | stop | timeout | get | discard | enable | block | pass | putBack | pack | miss | packed | putBackNext
  | unsupported | ended | keep | raised | counted | done | close => exact h.sent

/-- In every run, from any queue: every I-frame of `client_send` is a legal APDU of its batch. -/
theorem packed_frames (st : ClientState) (store : σ) (que : List IecEvent) (s : Conn σ)
    (h : Reach (step cb) anyway (start st store que) s) (batch : List IecEvent) (f : Bytes)
    (hf : Obs.sent batch f ∈ s.log) (hI : isI f = true) : Packed batch f := by
  have hp := h.inv (P := Packing) (packing_start st store que) fun _ _ _ hi _ hs => packing_step hi hs
  refine hp.sent (batch, f) (List.mem_filterMap.mpr ⟨_, hf, ?_⟩)
  simp [hI]

/-- 61 single points: the first frame takes 60, as many as its octets hold. -/
theorem packed_frames_full : ∃ (s : Conn Unit) (batch : List IecEvent) (f : Bytes),
    Obs.sent batch f ∈ s.log ∧ batch.length = 60 ∧ f.length = 252 ∧ Packed batch f := by
  have hrun : (run (step ⟨none, none⟩) (start startedState () (List.replicate 61 (point 1 45 1)))
      (List.replicate 64 (.send false))).map
        (fun s => (packets s.log).map fun p => (p.1.length, p.2.length)) = some [(60, 252)] := by decide +kernel
  obtain ⟨s, hr, hs⟩ := exists_of_run _ hrun
  obtain ⟨p, hp, hlen⟩ : ∃ p ∈ packets s.log, (p.1.length, p.2.length) = (60, 252) := by
    have hmem : (60, 252) ∈ (packets s.log).map fun p => (p.1.length, p.2.length) := by simp [hs]
    exact List.mem_map.mp hmem
  obtain ⟨o, ho, hsent⟩ := List.mem_filterMap.mp hp
  cases o with
  | sent batch f =>
    dsimp only at hsent
    split at hsent
    · rename_i hI
      cases hsent
      exact ⟨s, batch, f, ho, congrArg Prod.fst hlen, congrArg Prod.snd hlen,
        packed_frames startedState () _ s hr batch f ho hI⟩
    · cases hsent
  | put | reply | got => cases hsent

end Drv60870.Server
