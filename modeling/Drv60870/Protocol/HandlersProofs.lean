/-
  Drv60870.Protocol.HandlersProofs — what a received frame does to a connection.

  `noted` is what a frame's header alone does to the counters. `Treated` says what may become of
  an ASDU, and `Quiet` what a frame may come to that is not answered with an I-frame.

  Proved:
  - The counters change as the header says, whatever becomes of the rest; a response is an
    I-frame that takes the next `N(S)`, or the confirmation of a U-frame (`procFrame_cases`).
  - An interrogation that is answered puts an event for each signal and the termination behind
    them (`handleObjs_gi`); one that is not puts nothing (`handleAsdu_gi_cases`).
  - A frame that is no I-frame puts nothing and leaves the store (`procFrame_other`).
-/

import Drv60870.Protocol.Handlers

namespace Drv60870.Protocol

open Lib.Octets Lib.Calendar Lib.Python Drv60870.Const

variable {σ : Type} {cb : Callbacks σ} {now : Datetime} {f : Bytes} {c c' : Ctx σ}

/-! ## The header -/

def uFunction (f : Bytes) : Option UTypeId := if isU f then f[2]?.bind UTypeId.ofByte else none

def noted (f : Bytes) (st : ClientState) : ClientState :=
  { st with
    recSq := if numberedI f then (st.recSq + 1) % seqMod else st.recSq
    lastAckNr := if numberedI f || numberedS f then nR f else st.lastAckNr
    startdtConfirmed :=
      if uFunction f = some .startdtAct then true
      else if uFunction f = some .stopdtAct then false
      else st.startdtConfirmed }

/-! ## What the steps leave alone -/

@[simp] theorem Ctx.log_st (c : Ctx σ) (r : LogRec) : (c.log r).st = c.st := rfl
@[simp] theorem Ctx.put_st (c : Ctx σ) (evs : List IecEvent) : (c.put evs).st = c.st := rfl

@[simp] theorem Ctx.command_st (c : Ctx σ) (val : Val) (ioa : Nat) : (c.command cb val ioa).st = c.st := by
  unfold Ctx.command
  split
  · rfl
  · dsimp only
    split <;> rfl

theorem runCommands_st (cb : Callbacks σ) (val : Bytes → Except PyErr Val) : ∀ (objs : List (Nat × Bytes)) (c : Ctx σ),
    (runCommands cb val objs c).2.st = c.st := by
  intro objs
  induction objs with
  | nil => intro c; rfl
  | cons o objs ih =>
    intro c
    rw [runCommands]
    split
    · rfl
    · rw [ih, Ctx.command_st]

theorem Ctx.received_st (c : Ctx σ) (nS nR : Nat) :
    (c.received nS nR).st = { c.st with lastAckNr := nR, recSq := (c.st.recSq + 1) % seqMod } := rfl

theorem Ctx.received_puts (c : Ctx σ) (nS nR : Nat) : (c.received nS nR).puts = c.puts := by
  unfold received
  dsimp only
  split <;> rfl

theorem Ctx.received_store (c : Ctx σ) (nS nR : Nat) : (c.received nS nR).store = c.store := by
  unfold received
  dsimp only
  split <;> rfl

/-! ## Responses -/

def ackAsdu (f : Bytes) : Bytes := (f.drop 6).set 2 (UInt8.ofNat COT.activationCon)

theorem buildIFrameAck_ok {st st' : ClientState} {ack : Bytes}
    (h : buildIFrameAck st f COT.activationCon = .ok (ack, st')) :
    ack = iFrame st.sendSq st.recSq (ackAsdu f) ∧ st' = { st with sendSq := (st.sendSq + 1) % seqMod } := by
  unfold buildIFrameAck at h
  dsimp only at h
  split at h
  · obtain ⟨ns, hns, h⟩ := bind_eq_ok.mp h
    obtain ⟨nr, hnr, h⟩ := bind_eq_ok.mp h
    obtain ⟨len, hlen, h⟩ := bind_eq_ok.mp h
    cases ok_inj h
    unfold toBytes at hns hnr
    unfold byte at hlen
    split at hns
    · cases hns
      split at hnr
      · cases hnr
        split at hlen
        · cases hlen
          refine ⟨?_, rfl⟩
          simp only [iFrame, ackAsdu, Int.toNat_natCast, List.append_assoc, List.cons_append, List.nil_append]
        · cases hlen
      · cases hnr
    · cases hns
  · cases h

theorem buildSFrame_ok {st : ClientState} {f : Bytes} (h : buildSFrame st = .ok f) : f = sFrame st.recSq := by
  unfold buildSFrame at h
  obtain ⟨nr, hnr, h⟩ := bind_eq_ok.mp h
  cases ok_inj h
  unfold toBytes at hnr
  split at hnr
  · cases hnr
    rfl
  · cases hnr

theorem buildSFrame_eq {st : ClientState} (h : st.recSq < seqMod) : buildSFrame st = .ok (sFrame st.recSq) := by
  unfold buildSFrame
  rw [toBytes_ok (shiftLeft_one_lt h)]
  rfl

theorem isU_uResp {u : UTypeId} {f : Bytes} (h : uResp u = some f) : isU f = true := by
  cases u <;> cases h <;> decide

/-- What becomes of an ASDU: the state changes only when it is acknowledged. -/
def Treated (f : Bytes) (c : Ctx σ) (r : Except PyErr (Option Bytes) × Ctx σ) : Prop :=
  ∃ c₁ : Ctx σ, c₁.st = c.st ∧ (r = confirm f c₁ ∨ r = (.ok none, c₁) ∨ ∃ e, r = (.error e, c₁))

theorem obey_treated (val : Bytes → Except PyErr Val) (objs : List (Nat × Bytes)) :
    Treated f c (obey cb val f objs c) := by
  have hst := runCommands_st cb val objs c
  unfold obey
  split
  · rename_i e c₁ h
    exact ⟨c₁, by rw [h] at hst; exact hst, .inr (.inr ⟨e, rfl⟩)⟩
  · rename_i c₁ h
    exact ⟨c₁, by rw [h] at hst; exact hst, .inl rfl⟩

theorem dispatch_treated (typeId : Nat) (objs : List (Nat × Bytes)) :
    Treated f c (dispatch cb now f typeId objs c) := by
  unfold dispatch
  split
  · split
    · exact ⟨c.put _, rfl, .inl rfl⟩
    · exact ⟨c, rfl, .inr (.inl rfl)⟩
  split
  · exact obey_treated _ _
  split
  · exact obey_treated _ _
  · exact ⟨c, rfl, .inr (.inl rfl)⟩

theorem handleObjs_treated (cb : Callbacks σ) (now : Datetime) (asdu : Bytes) (typeId vsq : Nat) :
    Treated f c (handleObjs cb now f asdu typeId vsq c) := by
  unfold handleObjs
  split
  · exact ⟨c.log _, rfl, .inr (.inl rfl)⟩
  · exact ⟨c, rfl, .inr (.inr ⟨_, rfl⟩)⟩
  · exact dispatch_treated _ _

theorem handleAsdu_treated (cb : Callbacks σ) (now : Datetime) (f asdu : Bytes) (c : Ctx σ) :
    Treated f c (handleAsdu cb now f asdu c) := by
  unfold handleAsdu
  split
  · dsimp only
    split
    · exact ⟨c.log _, rfl, .inr (.inl rfl)⟩
    split
    · exact ⟨c.log _, rfl, .inr (.inl rfl)⟩
    · obtain ⟨c₁, h₁, hr⟩ := handleObjs_treated cb now (f := f) asdu _ _
      refine ⟨c₁, h₁.trans ?_, hr⟩
      split <;> rfl
  · exact ⟨c.log _, rfl, .inr (.inl rfl)⟩

/-! ## Frame formats -/

set_option maxRecDepth 4000 in
theorem even_iff (b : UInt8) : b.toNat &&& 0x01 = 0 ↔ b.toNat % 2 = 0 := by
  have h : ∀ n < 256, n &&& 0x01 = 0 ↔ n % 2 = 0 := by decide
  exact h b.toNat b.toNat_lt

set_option maxRecDepth 4000 in
theorem second_bit_iff (b : UInt8) : b.toNat &&& 0x02 ≠ 0 ↔ b.toNat / 2 % 2 = 1 := by
  have h : ∀ n < 256, n &&& 0x02 ≠ 0 ↔ n / 2 % 2 = 1 := by decide
  exact h b.toNat b.toNat_lt

/-- The bits that are tested, by the frame's format. -/
theorem octet_I (h : isI f = true) : ∃ b, f[2]? = some b ∧ b.toNat &&& 0x01 = 0 := by
  have h3 : 2 < f.length := two_lt_of_ctrl h
  have hb : f[2]? = some f[2] := List.getElem?_eq_getElem h3
  rw [isI, ctrl_eq hb, decide_eq_true_eq] at h
  exact ⟨_, hb, (even_iff _).mpr h⟩

theorem octet_U (h : isU f = true) :
    ∃ b, f[2]? = some b ∧ ¬ b.toNat &&& 0x01 = 0 ∧ b.toNat &&& 0x02 ≠ 0 := by
  have h3 : 2 < f.length := two_lt_of_ctrl h
  have hb : f[2]? = some f[2] := List.getElem?_eq_getElem h3
  rw [isU, ctrl_eq hb, decide_eq_true_eq] at h
  exact ⟨_, hb, by rw [even_iff]; omega, by rw [second_bit_iff]; omega⟩

theorem octet_S (h : isS f = true) :
    ∃ b, f[2]? = some b ∧ ¬ b.toNat &&& 0x01 = 0 ∧ ¬ b.toNat &&& 0x02 ≠ 0 := by
  have h3 : 2 < f.length := two_lt_of_ctrl h
  have hb : f[2]? = some f[2] := List.getElem?_eq_getElem h3
  rw [isS, ctrl_eq hb, decide_eq_true_eq] at h
  exact ⟨_, hb, by rw [even_iff]; omega, by rw [second_bit_iff]; omega⟩

/-- Which handler takes the frame. -/
theorem procFrame_short (h : f.length ≤ 2) : procFrame cb now f c = (.error .indexError, c) := by
  rw [procFrame, index_error h]

theorem procFrame_I (h : isI f = true) :
    procFrame cb now f c = ((handleIFrame cb now f c).1.map (.I, ·), (handleIFrame cb now f c).2) := by
  obtain ⟨b, hb, heven⟩ := octet_I h
  simp only [procFrame, index, hb, heven, if_true]

theorem procFrame_U (h : isU f = true) :
    procFrame cb now f c = ((handleUFrame f c).1.map (.U, ·), (handleUFrame f c).2) := by
  obtain ⟨b, hb, hodd, hsecond⟩ := octet_U h
  simp only [procFrame, index, hb, hodd, if_false, hsecond, ne_eq, not_false_eq_true, if_true]

theorem procFrame_S (h : isS f = true) :
    procFrame cb now f c = ((handleSFrame f c).1.map (.S, ·), (handleSFrame f c).2) := by
  obtain ⟨b, hb, hodd, hsecond⟩ := octet_S h
  simp only [procFrame, index, hb, hodd, hsecond, if_false]

/-! ## Whole frames -/

theorem noted_I {st : ClientState} (h : isI f = true) (hl : 6 ≤ f.length) :
    noted f st = { st with lastAckNr := nR f, recSq := (st.recSq + 1) % seqMod } := by
  simp [noted, numberedI, uFunction, h, hl, (only_I h).2]

theorem noted_short {st : ClientState} (h : isU f = false) (hl : f.length < 6) : noted f st = st := by
  simp [noted, numberedI, numberedS, uFunction, h, show ¬ 6 ≤ f.length by omega]

theorem noted_S {st : ClientState} (h : isS f = true) (hl : 6 ≤ f.length) :
    noted f st = { st with lastAckNr := nR f } := by
  simp [noted, numberedI, numberedS, uFunction, h, hl, (only_S h).1, (only_S h).2]

theorem noted_U {st : ClientState} (h : isU f = true) : noted f st =
    { st with
      startdtConfirmed :=
        if uFunction f = some .startdtAct then true
        else if uFunction f = some .stopdtAct then false
        else st.startdtConfirmed } := by
  simp [noted, numberedI, numberedS, (only_U h).1, (only_U h).2]

theorem noted_counters {st : ClientState} (h : st.Counters) (f : Bytes) : (noted f st).Counters := by
  refine ⟨h.sendSq_lt, ?_⟩
  simp only [noted]
  split
  · exact Nat.mod_lt _ (by decide)
  · exact h.recSq_lt

theorem handleIFrame_long (h : 6 ≤ f.length) :
    handleIFrame cb now f c = handleAsdu cb now f (f.drop 6) (c.received (nS f) (nR f)) := by
  rw [handleIFrame, unpackU_ok (by simp; omega)]
  dsimp only
  rw [unpackU_ok (by simp; omega)]
  simp only [nS, nR, Nat.shiftRight_eq_div_pow, Nat.pow_one]

theorem handleIFrame_short (cb : Callbacks σ) (now : Datetime) (c : Ctx σ) (h : f.length < 6) :
    ∃ e, handleIFrame cb now f c = (.error e, c) := by
  unfold handleIFrame
  split
  · exact ⟨_, rfl⟩
  · rw [unpackU_error (by simp; omega)]
    exact ⟨_, rfl⟩

theorem handleIFrame_noted (cb : Callbacks σ) (now : Datetime) (c : Ctx σ) (h : numberedI f = true) :
    ((handleIFrame cb now f c).1 = .ok (some (iFrame c.st.sendSq (noted f c.st).recSq (ackAsdu f))) ∧
      (handleIFrame cb now f c).2.st = { noted f c.st with sendSq := (c.st.sendSq + 1) % seqMod }) ∨
    (((handleIFrame cb now f c).1 = .ok none ∨ ∃ e, (handleIFrame cb now f c).1 = .error e) ∧
      (handleIFrame cb now f c).2.st = noted f c.st) := by
  simp only [numberedI, Bool.and_eq_true, decide_eq_true_eq] at h
  obtain ⟨hI, h6⟩ := h
  have hst : (c.received (nS f) (nR f)).st = noted f c.st := by rw [noted_I hI h6, Ctx.received_st]
  rw [handleIFrame_long h6]
  obtain ⟨c₁, h₁, hr⟩ := handleAsdu_treated cb now f (f.drop 6) (c.received (nS f) (nR f))
  rw [hst] at h₁
  rcases hr with hr | hr | ⟨e, hr⟩
  · rw [hr, confirm]
    split
    · exact .inr ⟨.inr ⟨_, rfl⟩, h₁⟩
    · rename_i ack st' hack
      obtain ⟨rfl, rfl⟩ := buildIFrameAck_ok hack
      rw [h₁]
      exact .inl ⟨rfl, rfl⟩
  · rw [hr]
    exact .inr ⟨.inl rfl, h₁⟩
  · rw [hr]
    exact .inr ⟨.inr ⟨e, rfl⟩, h₁⟩

theorem handleSFrame_noted (h : isS f = true) :
    (handleSFrame f c).1 = .ok none ∧ (handleSFrame f c).2.st = noted f c.st := by
  rw [handleSFrame]
  by_cases h6 : f.length < 6
  · rw [if_pos h6]
    exact ⟨rfl, (noted_short (only_S h).2 h6).symm⟩
  · rw [if_neg h6, unpackU_ok (by simp; omega)]
    refine ⟨rfl, ?_⟩
    simp only [noted_S h (Nat.not_lt.mp h6), nR, Nat.shiftRight_eq_div_pow, Nat.pow_one]

theorem handleUFrame_noted (h : isU f = true) :
    (handleUFrame f c).1 = .ok ((uFunction f).bind uResp) ∧ (handleUFrame f c).2.st = noted f c.st := by
  obtain ⟨b, hb, -⟩ := octet_U h
  have hfun : uFunction f = UTypeId.ofByte b := by simp [uFunction, h, hb]
  rw [noted_U h, hfun]
  simp only [handleUFrame, index, hb]
  cases UTypeId.ofByte b with
  | none => exact ⟨rfl, rfl⟩
  | some u => cases u <;> exact ⟨rfl, rfl⟩

inductive Quiet (f : Bytes) : Except PyErr (FrameType × Option Bytes) → Prop
  | information : numberedI f = true → Quiet f (.ok (.I, none))
  | unnumbered : isU f = true → Quiet f (.ok (.U, (uFunction f).bind uResp))
  | supervisory : isS f = true → Quiet f (.ok (.S, none))
  | raised (e : PyErr) : Quiet f (.error e)

theorem procFrame_cases {r : Except PyErr (FrameType × Option Bytes)} (h : procFrame cb now f c = (r, c')) :
    (r = .ok (.I, some (iFrame c.st.sendSq (noted f c.st).recSq (ackAsdu f))) ∧ numberedI f = true ∧
      c'.st = { noted f c.st with sendSq := (c.st.sendSq + 1) % seqMod }) ∨
    (Quiet f r ∧ c'.st = noted f c.st) := by
  by_cases hlen : f.length ≤ 2
  · rw [procFrame_short hlen] at h
    cases h
    have hu : isU f = false := Bool.eq_false_iff.mpr fun hu => Nat.not_lt.mpr hlen (two_lt_of_ctrl hu)
    exact .inr ⟨.raised _, (noted_short hu (by omega)).symm⟩
  rcases format_cases (f := f) (by omega) with ⟨hI, -, hU⟩ | ⟨-, hS, hU⟩ | ⟨-, -, hU⟩
  · rw [procFrame_I hI] at h
    by_cases h6 : 6 ≤ f.length
    · have hn : numberedI f = true := by simp [numberedI, hI, h6]
      cases h
      rcases handleIFrame_noted cb now c hn with ⟨hr, hst⟩ | ⟨hr | ⟨e, hr⟩, hst⟩
      · rw [hr]
        exact .inl ⟨rfl, hn, hst⟩
      · rw [hr]
        exact .inr ⟨.information hn, hst⟩
      · rw [hr]
        exact .inr ⟨.raised e, hst⟩
    · obtain ⟨e, he⟩ := handleIFrame_short cb now c (show f.length < 6 by omega)
      rw [he] at h
      cases h
      exact .inr ⟨.raised _, (noted_short hU (by omega)).symm⟩
  · rw [procFrame_S hS] at h
    cases h
    rw [(handleSFrame_noted hS).1]
    exact .inr ⟨.supervisory hS, (handleSFrame_noted hS).2⟩
  · rw [procFrame_U hU] at h
    cases h
    rw [(handleUFrame_noted hU).1]
    exact .inr ⟨.unnumbered hU, (handleUFrame_noted hU).2⟩

/-! ## Events -/

theorem confirm_puts (f : Bytes) (c : Ctx σ) : (confirm f c).2.puts = c.puts := by
  unfold confirm
  split <;> rfl

/-- An interrogation leaves the store, and what it is not answered for it puts nothing for. -/
theorem handleAsdu_gi_cases {asdu : Bytes} {gi : σ → List IecEvent} (hgi : cb.onGi = some gi)
    (ht : asdu[0]? = some 100) (c : Ctx σ) : (handleAsdu cb now f asdu c).2.store = c.store ∧
      (((handleAsdu cb now f asdu c).2.puts = c.puts ∧ ∀ ack, (handleAsdu cb now f asdu c).1 ≠ .ok (some ack)) ∨
        (handleAsdu cb now f asdu c).2.puts =
          c.puts ++ ((gi c.store).filter (fun ev => ev.asdu < 45) ++ [giTermination now])) := by
  have hobjs : ∀ (d : Ctx σ) (vsq : Nat), (handleObjs cb now f asdu 100 vsq d).2.store = d.store ∧
      (((handleObjs cb now f asdu 100 vsq d).2.puts = d.puts ∧
          ∀ ack, (handleObjs cb now f asdu 100 vsq d).1 ≠ .ok (some ack)) ∨
        (handleObjs cb now f asdu 100 vsq d).2.puts =
          d.puts ++ ((gi d.store).filter (fun ev => ev.asdu < 45) ++ [giTermination now])) := by
    intro d vsq
    unfold handleObjs
    split
    · exact ⟨rfl, .inl ⟨rfl, fun ack h => by cases h⟩⟩
    · exact ⟨rfl, .inl ⟨rfl, fun ack h => by cases h⟩⟩
    · rw [dispatch, if_pos (by rfl), hgi]
      refine ⟨?_, .inr (confirm_puts _ _)⟩
      show (confirm f _).2.store = d.store
      unfold confirm
      split <;> rfl
  unfold handleAsdu
  split
  · have h0 : asdu[0].toNat = 100 := by
      rw [List.getElem?_eq_getElem (by omega)] at ht
      rw [Option.some.inj ht]
      rfl
    simp only [h0]
    split
    · exact ⟨rfl, .inl ⟨rfl, fun ack h => by cases h⟩⟩
    · split
      · exact ⟨rfl, .inl ⟨rfl, fun ack h => by cases h⟩⟩
      · split
        · exact hobjs (c.log _) _
        · exact hobjs c _
  · exact ⟨rfl, .inl ⟨rfl, fun ack h => by cases h⟩⟩

/-- A frame that is no I-frame puts nothing and leaves the store. -/
theorem procFrame_other (cb : Callbacks σ) (now : Datetime) (c : Ctx σ) (h : isS f = true ∨ isU f = true) :
    (procFrame cb now f c).2.puts = c.puts ∧ (procFrame cb now f c).2.store = c.store := by
  rcases h with hS | hU
  · rw [procFrame_S hS, handleSFrame]
    split
    · exact ⟨rfl, rfl⟩
    · split <;> exact ⟨rfl, rfl⟩
  · rw [procFrame_U hU, handleUFrame]
    split
    · exact ⟨rfl, rfl⟩
    · split <;> exact ⟨rfl, rfl⟩

end Drv60870.Protocol
