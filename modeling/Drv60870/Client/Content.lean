/-
  Drv60870.Client.Content — what the I-frames of a session contain.

  The only command the API builds is the general interrogation; the other frames of a session
  are STARTDT, test frames with their confirmations, and S-frames.

  Proved:
  - Every I-frame a session writes has the ASDU of the interrogation, at the session's address
    (`content_step`, `content_start`).
  - The station's confirmation of it, the ASDU with another cause, decodes to one object with
    that cause (`decode_confirmation`).
  - A session never writes a STOPDT (`written_no_stopdt`).
-/

import Drv60870.Client.Frames

namespace Drv60870.Client

open Lib.Octets Lib.Calendar Lib.Python Lib.Runs Drv60870.Const Protocol Session

/-- `C_IC_NA_1` of the station at `ca`: one object at address 0, the qualifier 20. -/
def giAsdu (ca : Int) : Bytes := asduBytes (createClientState kp1Conf ca) 100 6 1 [0x00, 0x00, 0x00, 0x14]

/-- If it is an I-frame, it is the interrogation of the station at `ca`. -/
def Interrogates (ca : Int) (f : Bytes) : Prop :=
  isI f = true → (0 ≤ ca ∧ ca < 65536) ∧ ∃ ns nr, f = iFrame ns nr (giAsdu ca)

theorem encObjs_gi (now : Datetime) : encObjs 100 [giEvent now] = .ok (some [0x00, 0x00, 0x00, 0x14]) := by
  have hv : encVal 100 (giEvent now) = .ok (some [0x14]) := rfl
  have ho := encObj_ok hv (show (0 : Int) ≤ 0 by decide) (show (0 : Int).toNat < 256 ^ 3 by decide)
  have hb : objBytes 100 (giEvent now) [0x14] = [0x00, 0x00, 0x00, 0x14] := by
    simp [objBytes, giEvent, leBytes, tsTypes]
  rw [encObjs, ho, hb]
  rfl

theorem buildIFrame_gi {st : ClientState} {now : Datetime} {f : Bytes}
    (h : buildIFrame st [giEvent now] = .ok (some f)) :
    (0 ≤ st.ca ∧ st.ca < 65536) ∧ f = iFrame st.sendSq st.recSq (giAsdu st.ca) := by
  obtain ⟨hca0, hca⟩ := buildIFrame_ca h
  obtain ⟨ev, parts, hev, hparts, -, rfl⟩ := buildIFrame_some h
  cases hev
  rw [show (giEvent now).asdu = 100 from rfl, encObjs_gi] at hparts
  cases hparts
  exact ⟨⟨hca0, by omega⟩, rfl⟩

theorem buildStep_content {s s' : Session} {i : Nat} {now : Datetime} (h : s.buildStep i now = some s') :
    s' = { s with calls := s.calls.eraseIdx i } ∨ ∃ sq stamp, (0 ≤ s.st.ca ∧ s.st.ca < 65536) ∧
      s' = { s with calls := s.calls.set i (.built ⟨iFrame sq s.st.recSq (giAsdu s.st.ca), some stamp⟩) } := by
  unfold buildStep at h
  split at h
  · split at h
    · rename_i octets hb
      cases h
      obtain ⟨hca, rfl⟩ := buildIFrame_gi hb
      exact .inr ⟨_, _, hca, rfl⟩
    · cases h
      exact .inl rfl
  · cases h

/-! ## The invariant -/

structure Content (ca : Int) (s : Session) : Prop where
  address : s.st.ca = ca
  waiting : ∀ p, s.Waits p → Interrogates ca p.octets
  wrote : ∀ f ∈ written s.log, Interrogates ca f

theorem interrogates_of_isU {ca : Int} {f : Bytes} (h : isU f = true) : Interrogates ca f := by
  intro hI
  rw [(only_U h).1] at hI
  cases hI

theorem afterSend_ca (st : ClientState) (packet : Bytes) : (afterSend st packet).ca = st.ca := by
  unfold afterSend
  split
  · rfl
  · rfl

theorem processFrame_ca (onData : Bool) (st : ClientState) (f : Bytes) : (processFrame onData st f).st.ca = st.ca := by
  cases control_cases f with
  | information h =>
    rw [processFrame_I onData st h]
    split
    · rfl
    · rfl
  | supervisory h => rw [processFrame_S onData st h]
  | unnumbered h =>
    rw [processFrame_U onData st h]
    dsimp only
    split
    · rfl
    · rfl
  | short h h6 =>
    obtain ⟨e, he⟩ := processFrame_short onData st h h6
    rw [he]

theorem Content.waits {ca : Int} {s s' : Session} (h : Content ca s) (hst : s'.st = s.st) (hlog : s'.log = s.log)
    (hw : ∀ p, s'.Waits p → s.Waits p ∨ Interrogates ca p.octets) : Content ca s' := by
  refine ⟨by rw [hst]; exact h.address, fun p hp => ?_, by rw [hlog]; exact h.wrote⟩
  rcases hw p hp with hp | hp
  · exact h.waiting p hp
  · exact hp

/-- Frames are written that are no other command. -/
theorem Content.wrote_more {ca : Int} {s s' : Session} (h : Content ca s) (hst : s'.st.ca = s.st.ca) {os : List Obs}
    (hlog : s'.log = s.log ++ os) (hw : ∀ p, s'.Waits p → s.Waits p) (ho : ∀ f ∈ written os, Interrogates ca f) :
    Content ca s' := by
  refine ⟨by rw [hst]; exact h.address, fun p hp => h.waiting p (hw p hp), fun f hf => ?_⟩
  rw [hlog, written_append] at hf
  rcases List.mem_append.mp hf with hf | hf
  · exact h.wrote f hf
  · exact ho f hf

theorem content_recv {ca : Int} {s s' : Session} {f : Bytes} (h : Content ca s) (hs : s.recvStep f = some s') :
    Content ca s' := by
  unfold recvStep at hs
  split at hs
  · cases hs
    refine h.wrote_more (processFrame_ca s.onData s.st f) rfl (fun p hp => hp) fun g hg => ?_
    have hr : (processFrame s.onData s.st f).reply = some g := by
      cases hr : (processFrame s.onData s.st f).reply with
      | none => simp [hr, written, Obs.written] at hg
      | some r => simpa [hr, written, Obs.written, eq_comm] using hg
    by_cases hn : numberedI f = true
    · rw [processFrame_I s.onData s.st hn] at hr
      intro hI
      split at hr
      · cases hr
        rw [isI_sFrame] at hI
        cases hI
      · cases hr
    · have hother := processFrame_other s.onData s.st (f := f) (by simpa using hn)
      exact interrogates_of_isU (isU_uResp (hother.2 g hr))
  · cases hs

theorem content_step {ca : Int} {s s' : Session} {a : Act} (h : Content ca s) (hs : s.step a = some s') :
    Content ca s' := by
  have hwaits : (∀ i now, a ≠ .build i now) → ∀ p, s'.Waits p → s.Waits p ∨ Interrogates ca p.octets := by
    intro hno p hp
    rcases waits_move (step_move hs) hp with hp | rfl | ⟨i, now, -, -, -, ha, -⟩
    · exact .inl hp
    · exact .inr (interrogates_of_isU whole_startdtAct.1)
    · exact absurd ha (hno i now)
  cases a with
  | startdt =>
    cases hs
    exact h.waits rfl rfl (hwaits nofun)
  | gi =>
    cases hs
    exact h.waits rfl rfl (hwaits nofun)
  | build i now =>
    rcases buildStep_content hs with rfl | ⟨sq, stamp, hca, rfl⟩
    · refine h.waits rfl rfl fun p hp => .inl ?_
      rcases hp with hp | hp
      · exact .inl (List.mem_of_mem_eraseIdx hp)
      · exact .inr hp
    · refine h.waits rfl rfl fun p hp => ?_
      rcases hp with hp | hp
      · rcases List.mem_or_eq_of_mem_set hp with hp | hp
        · exact .inl (.inl hp)
        · cases hp
          rw [h.address] at hca
          exact .inr fun _ => ⟨hca, _, _, by rw [h.address]⟩
      · exact .inl (.inr hp)
  | enqueue i =>
    cases step_move (a := .enqueue i) hs with
    | enqueue i packet hb => exact h.waits rfl rfl (hwaits nofun)
  | send clock =>
    cases step_move (a := .send clock) hs with
    | wait c hpc => exact h
    | testfr c hpc =>
      refine h.wrote_more rfl rfl (fun p hp => hp) fun f hf => ?_
      rw [List.mem_singleton.mp hf]
      exact interrogates_of_isU whole_testfrAct.1
    | get c packet que hpc hq => exact h.waits rfl rfl (hwaits nofun)
    | write c packet hpc =>
      refine h.wrote_more (afterSend_ca s.st packet.octets) rfl (fun p hp => ?_) fun f hf => ?_
      · rcases hp with hp | hp | hp
        · exact .inl hp
        · exact .inr (.inl hp)
        · cases hp
      · rw [List.mem_singleton.mp hf]
        exact h.waiting packet (.inr (.inr hpc))
  | stop =>
    cases step_move (a := .stop) hs with
    | stop hpc => exact h.waits rfl rfl (hwaits nofun)
  | recv f => exact content_recv h hs

theorem content_start (st : ClientState) (onData : Bool) : Content st.ca (start st onData) := by
  refine ⟨rfl, fun p hp => ?_, fun f hf => by cases hf⟩
  rcases hp with hp | hp | hp
  · cases hp
  · cases hp
  · cases hp

/-! ## No STOPDT -/

def Plain (s : Session) : Prop :=
  ∀ p, s.Waits p ∨ .sent p ∈ s.log → p.stamp = none → p.octets = startdtAct ∨ p.octets = testfrAct

/-- What is written was under way, or is a test frame of `send_loop`. -/
theorem sent_move {s s' : Session} {a : Act} (hm : Move s a s') {p : Packet} (hp : .sent p ∈ s'.log) :
    .sent p ∈ s.log ∨ s.Waits p ∨ p = ⟨testfrAct, none⟩ := by
  cases hm with
  | testfr c hpc =>
    rcases List.mem_append.mp hp with hp | hp
    · exact .inl hp
    · cases List.mem_singleton.mp hp
      exact .inr (.inr rfl)
  | write c packet hpc =>
    rcases List.mem_append.mp hp with hp | hp
    · exact .inl hp
    · cases List.mem_singleton.mp hp
      exact .inr (.inl (.inr (.inr hpc)))
  | count | pass | ack | confirm => exact .inl (by simpa using hp)
  | startdt | gi | build | drop | enqueue | wait | get | stop => exact .inl hp

theorem plain_move {s s' : Session} {a : Act} (h : Plain s) (hm : Move s a s') : Plain s' := by
  intro p hp hnone
  rcases hp with hp | hp
  · rcases waits_move hm hp with hold | rfl | ⟨i, now, sq, written, asdu, -, -, -, rfl⟩
    · exact h p (.inl hold) hnone
    · exact .inl rfl
    · cases hnone
  · rcases sent_move hm hp with hold | hold | rfl
    · exact h p (.inr hold) hnone
    · exact h p (.inl hold) hnone
    · exact .inr rfl

theorem plain_start (st : ClientState) (onData : Bool) : Plain (start st onData) := by
  intro p hp _
  rcases hp with (hp | hp | hp) | hp
  · cases hp
  · cases hp
  · cases hp
  · cases hp

/-- The API has no STOPDT, and nothing a session writes is one. -/
theorem written_no_stopdt {s : Session} (ht : Tracked s) (h : Plain s) :
    ∀ f ∈ written s.log, uFunction f ≠ some .stopdtAct := by
  intro f hf
  obtain ⟨o, ho, he⟩ := List.mem_filterMap.mp hf
  obtain ⟨pre, post, hlog⟩ := List.append_of_mem ho
  have hl := ht.wire pre o post hlog
  match o, hl, he, ho with
  | .sent ⟨f, none⟩, hl, he, ho =>
    cases he
    rcases h _ (.inr ho) rfl with hf | hf
    · rw [show f = startdtAct from hf]
      decide
    · rw [show f = testfrAct from hf]
      decide
  | .sent ⟨f, some t⟩, ⟨_, _, asdu, _, hfr⟩, he, _ =>
    cases he
    subst hfr
    simp [uFunction, (only_I (isI_iFrame _ _ asdu)).2]
  | .reply g, hl, he, _ =>
    cases he
    rcases hl with hu | rfl
    · cases hu
      decide
    · simp [uFunction, (only_S (isS_sFrame _)).2]

/-! ## The confirmation -/

def giConfirmation (ca : Int) : Obj := ⟨0, 100, some (.int 20), 0, 7, ca.toNat, none, some false⟩

/-- The interrogation's ASDU sent back decodes to one object, with the cause of a confirmation. -/
theorem decode_confirmation {ca : Int} (hca : 0 ≤ ca ∧ ca < 65536) {f g : Bytes} {ns nr : Nat}
    (hg : g = iFrame ns nr (giAsdu ca)) (hf : f.drop 6 = ackAsdu g) :
    decodeIFrameObjects f = .ok [giConfirmation ca] := by
  have hasdu : f.drop 6 = asduBytes (createClientState kp1Conf ca) 100 7 1 [0x00, 0x00, 0x00, 0x14] := by
    rw [hf, hg, ackAsdu, drop_iFrame]
    rfl
  have hsize : asduDataSize.lookup 100 = some 1 := rfl
  refine decode_asduBytes (by decide) (by decide) (by decide) hca hsize hasdu ?_
  rfl

end Drv60870.Client
