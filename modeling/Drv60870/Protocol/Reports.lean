/-
  Drv60870.Protocol.Reports — which frames are answered, refused or fatal.

  Every slice of a short ASDU succeeds, so the object loop notices a missing octet only
  when a value is read from it. A frame is `sound` when the octets are there that the handlers
  read, and `Reported` when it is answered with `None` and a length error is logged.

  Proved:
  - What the object loop needs: a base address always, values only once they are read
    (`parseObjs_spec`). The branch that reports a truncated packet is never taken
    (`handleObjs_noLengthError`).
  - The I-frames that are answered with an I-frame (`answered_iff`).
  - A frame as the receivers cut it is taken without an exception, and reported if it is short,
    exactly if it is sound (`reports_iff`). A command is read before anything notices that it
    is not there (`a_truncated_command_raises`).
-/

import Drv60870.Protocol.HandlersProofs

namespace Drv60870.Protocol

open Lib.Octets Lib.Calendar Lib.Python Drv60870.Const

variable {σ : Type} {cb : Callbacks σ} {now : Datetime} {f : Bytes} {c : Ctx σ}

/-! ## Objects -/

def wanted (typeId vsq : Nat) : Nat :=
  if vsq &&& 0x80 ≠ 0 then 9 + (vsq &&& 0x7F) * valSize typeId else 6 + (vsq &&& 0x7F) * (3 + valSize typeId)

def complete : Bytes → Bool
  | t :: vsq :: rest => decide (wanted t.toNat vsq.toNat ≤ rest.length + 2)
  | _ => false

theorem parseSeq_full (asdu : Bytes) (size base : Nat) : ∀ n i offset, offset ≤ asdu.length →
    ((∀ o ∈ parseSeq asdu size base n i offset, size ≤ o.2.length) ↔ offset + n * size ≤ asdu.length) := by
  intro n
  induction n with
  | zero => intro i offset h; simpa [parseSeq] using h
  | succ n ih =>
    intro i offset h
    simp only [parseSeq, List.forall_mem_cons, length_slice, Nat.add_mul, Nat.one_mul]
    constructor
    · intro h
      obtain ⟨h1, h2⟩ := h
      rw [ih _ _ (by omega)] at h2
      omega
    · intro h1
      exact ⟨by omega, (ih _ _ (by omega)).mpr (by omega)⟩

theorem parseList_full (asdu : Bytes) (size : Nat) : ∀ n offset, offset ≤ asdu.length →
    ((∀ o ∈ parseList asdu (size + 1) n offset, size + 1 ≤ o.2.length) ↔
      offset + n * (3 + (size + 1)) ≤ asdu.length) := by
  intro n
  induction n with
  | zero => intro offset h; simpa [parseList] using h
  | succ n ih =>
    intro offset h
    simp only [parseList, List.forall_mem_cons, length_slice, Nat.add_mul, Nat.one_mul]
    constructor
    · intro h
      obtain ⟨h1, h2⟩ := h
      rw [ih _ (by omega)] at h2
      omega
    · intro h1
      exact ⟨by omega, (ih _ (by omega)).mpr (by omega)⟩

theorem one_le_valSize (typeId : Nat) : 1 ≤ valSize typeId := by
  unfold valSize
  cases h : asduDataSize.lookup (typeId : Int) with
  | none => exact Nat.le_refl 1
  | some n => exact (asduDataSize_bounds _ _ h).1

/-- A base address is always needed, values only once they are read. -/
theorem parseObjs_spec {asdu : Bytes} (typeId vsq : Nat) (h : 6 ≤ asdu.length) :
    (∃ objs, parseObjs asdu typeId vsq = .ok objs ∧ (vsq &&& 0x80 ≠ 0 → 9 ≤ asdu.length) ∧
      ((∀ o ∈ objs, valSize typeId ≤ o.2.length) ↔ wanted typeId vsq ≤ asdu.length)) ∨
    (parseObjs asdu typeId vsq = .error .structError ∧ vsq &&& 0x80 ≠ 0 ∧ asdu.length < 9) := by
  obtain ⟨size, hsize⟩ : ∃ k, valSize typeId = k + 1 := ⟨valSize typeId - 1, by have := one_le_valSize typeId; omega⟩
  by_cases hsq : vsq &&& 0x80 ≠ 0
  · by_cases h9 : 9 ≤ asdu.length
    · refine .inl ⟨parseSeq asdu (valSize typeId) (leNat (slice asdu 6 9 ++ [0x00])) (vsq &&& 0x7F) 0 9, ?_,
        fun _ => h9, ?_⟩
      · rw [parseObjs, if_pos hsq, unpackU_ok (by simp; omega)]
        rfl
      · rw [parseSeq_full _ _ _ _ _ _ h9, wanted, if_pos hsq]
    · refine .inr ⟨?_, hsq, by omega⟩
      rw [parseObjs, if_pos hsq, unpackU_error (by simp; omega)]
      rfl
  · refine .inl ⟨parseList asdu (valSize typeId) (vsq &&& 0x7F) 6, ?_, fun h => absurd h hsq, ?_⟩
    · rw [parseObjs, if_neg hsq]
      rfl
    · rw [wanted, if_neg hsq, hsize]
      exact parseList_full _ _ _ _ h

/-! ## Commands -/

theorem singleVal_ok (data : Bytes) : (∃ v, singleVal data = .ok v) ↔ valSize 45 ≤ data.length := by
  have hv : valSize 45 = 1 := rfl
  rw [hv]
  cases data with
  | nil => simp [singleVal, index, bind, Except.bind]
  | cons d data => simp [singleVal, index, bind, Except.bind, pure, Except.pure]

theorem setpointVal_ok (data : Bytes) : (∃ v, setpointVal data = .ok v) ↔ valSize 50 ≤ data.length := by
  have hv : valSize 50 = 5 := rfl
  rw [hv]
  unfold setpointVal
  dsimp only
  by_cases h : 5 ≤ data.length
  · have h4 : (slice (slice data 0 5) 0 4).length = 4 := by simp; omega
    simp [h, unpackF, h4, bind, Except.bind, pure, Except.pure]
  · have h5 : ¬ (slice data 0 5).length = 5 := by simp; omega
    rw [if_neg h5]
    simp [h]

theorem runCommands_ok (cb : Callbacks σ) (val : Bytes → Except PyErr Val) : ∀ (objs : List (Nat × Bytes)) (c : Ctx σ),
    (runCommands cb val objs c).1 = .ok () ↔ ∀ o ∈ objs, ∃ v, val o.2 = .ok v := by
  intro objs
  induction objs with
  | nil => intro c; simp [runCommands]
  | cons o objs ih =>
    intro c
    rw [List.forall_mem_cons]
    cases hv : val o.2 with
    | error e => simp [runCommands, hv]
    | ok v => simp [runCommands, hv, ih]

/-! ## Answers -/

/-- The octet string fits a frame of the receivers and is long enough for an ASDU header. -/
def Bounded (f : Bytes) : Prop := 12 ≤ f.length ∧ f.length ≤ 257

theorem confirm_ok (hb : Bounded f) (hc : c.st.Counters) : ∃ resp, (confirm f c).1 = .ok (some resp) := by
  have h1 : 2 < (f.drop 6).length := by rw [List.length_drop]; have := hb.1; omega
  have h2 : ((f.drop 6).set 2 (UInt8.ofNat COT.activationCon)).length + 4 < 256 := by
    rw [List.length_set, List.length_drop]; have := hb.2; omega
  simp only [confirm, buildIFrameAck, h1, if_true, toBytes_ok (shiftLeft_one_lt hc.sendSq_lt),
    toBytes_ok (shiftLeft_one_lt hc.recSq_lt), byte_ok h2, bind, Except.bind, pure, Except.pure]
  exact ⟨_, rfl⟩

def isCommand (typeId : Nat) : Bool := typeId = 45 || typeId = 50

/-- A command raises exactly when a value is not all there, else it is confirmed. -/
theorem obey_cases (cb : Callbacks σ) {val : Bytes → Except PyErr Val} {n : Nat}
    (hval : ∀ d, (∃ v, val d = .ok v) ↔ n ≤ d.length) (objs : List (Nat × Bytes)) (hb : Bounded f)
    (hc : c.st.Counters) :
    ((∃ resp, (obey cb val f objs c).1 = .ok (some resp)) ∧ ∀ o ∈ objs, n ≤ o.2.length) ∨
    ((∃ e, (obey cb val f objs c).1 = .error e) ∧ ¬ ∀ o ∈ objs, n ≤ o.2.length) := by
  have hok := runCommands_ok cb val objs c
  simp only [hval] at hok
  have hst := runCommands_st cb val objs c
  unfold obey
  split
  · rename_i e c₁ h
    rw [h] at hok
    exact .inr ⟨⟨e, rfl⟩, fun hall => by cases hok.mpr hall⟩
  · rename_i c₁ h
    rw [h] at hok hst
    exact .inl ⟨confirm_ok hb (by rw [hst]; exact hc), hok.mp rfl⟩

theorem dispatch_spec (cb : Callbacks σ) (now : Datetime) (typeId : Nat) (objs : List (Nat × Bytes)) (hb : Bounded f)
    (hc : c.st.Counters) :
    ((∃ o, (dispatch cb now f typeId objs c).1 = .ok o) ↔
      (isCommand typeId = true → ∀ o ∈ objs, valSize typeId ≤ o.2.length)) ∧
    ((∃ resp, (dispatch cb now f typeId objs c).1 = .ok (some resp)) ↔
      (typeId = 100 ∧ cb.onGi.isSome = true) ∨
        (isCommand typeId = true ∧ ∀ o ∈ objs, valSize typeId ≤ o.2.length)) := by
  by_cases h100 : typeId = 100
  · subst h100
    have hcmd : isCommand 100 = false := rfl
    rw [dispatch, if_pos (by rfl), hcmd]
    cases hgi : cb.onGi with
    | none => simp
    | some gi =>
      obtain ⟨resp, hr⟩ := confirm_ok (f := f)
        (c := c.put ((gi c.store).filter (fun ev => ev.asdu < 45) ++ [giTermination now])) hb hc
      simp [hr]
  rw [dispatch, if_neg (by unfold AsduTypeId.cIcNa1; omega)]
  by_cases h45 : typeId = 45
  · subst h45
    have hcmd : isCommand 45 = true := rfl
    rw [if_pos (by rfl), hcmd]
    rcases obey_cases cb singleVal_ok objs hb hc with ⟨⟨resp, hr⟩, hall⟩ | ⟨⟨e, he⟩, hn⟩
    · simpa [hr] using hall
    · simpa [he] using hn
  rw [if_neg (by unfold AsduTypeId.cScNa1; omega)]
  by_cases h50 : typeId = 50
  · subst h50
    have hcmd : isCommand 50 = true := rfl
    rw [if_pos (by rfl), hcmd]
    rcases obey_cases cb setpointVal_ok objs hb hc with ⟨⟨resp, hr⟩, hall⟩ | ⟨⟨e, he⟩, hn⟩
    · simpa [hr] using hall
    · simpa [he] using hn
  · rw [if_neg (by unfold AsduTypeId.cSeNc1; omega)]
    have hcmd : isCommand typeId = false := by simp [isCommand, h45, h50]
    simp [hcmd, h100]

/-! ## The whole ASDU -/

/-- The ASDU is for this station: its own address, or an interrogation where the check is not strict. -/
def accepted (st : ClientState) (asdu : Bytes) (typeId : Nat) : Bool :=
  (leNat (slice asdu 4 6) : Int) = st.ca || (!st.conf.protStrictCoa && typeId = 100)

def Ctx.NoLengthError (c : Ctx σ) : Prop := ∀ r ∈ c.logs, r.isLengthError = false

theorem Ctx.NoLengthError.log {r : LogRec} (h : c.NoLengthError) (hr : r.isLengthError = false) :
    (c.log r).NoLengthError := by
  intro x hx
  rcases List.mem_append.mp hx with hx | hx
  · exact h x hx
  · rw [List.mem_singleton.mp hx]; exact hr

theorem Ctx.NoLengthError.command (h : c.NoLengthError) (val : Val) (ioa : Nat) :
    (c.command cb val ioa).NoLengthError := by
  unfold Ctx.command
  split
  · exact h
  · dsimp only
    split
    · exact h
    · exact Ctx.NoLengthError.log h rfl

theorem runCommands_noLengthError (cb : Callbacks σ) (val : Bytes → Except PyErr Val) :
    ∀ (objs : List (Nat × Bytes)) (c : Ctx σ), c.NoLengthError → (runCommands cb val objs c).2.NoLengthError := by
  intro objs
  induction objs with
  | nil => intro c h; exact h
  | cons o objs ih =>
    intro c h
    rw [runCommands]
    split
    · exact h
    · exact ih _ (h.command _ _)

theorem confirm_logs (f : Bytes) (c : Ctx σ) : (confirm f c).2.logs = c.logs := by
  unfold confirm
  split <;> rfl

theorem Ctx.NoLengthError.confirm (h : c.NoLengthError) : (Protocol.confirm f c).2.NoLengthError := by
  unfold Ctx.NoLengthError
  rw [confirm_logs]
  exact h

theorem obey_noLengthError (h : c.NoLengthError) (val : Bytes → Except PyErr Val) (objs : List (Nat × Bytes)) :
    (obey cb val f objs c).2.NoLengthError := by
  have hr := runCommands_noLengthError cb val objs c h
  unfold obey
  split
  · rename_i e c₁ he
    rw [he] at hr
    exact hr
  · rename_i c₁ he
    rw [he] at hr
    exact hr.confirm

theorem dispatch_noLengthError (h : c.NoLengthError) (typeId : Nat) (objs : List (Nat × Bytes)) :
    (dispatch cb now f typeId objs c).2.NoLengthError := by
  unfold dispatch
  split
  · split
    · rename_i gi _
      exact Ctx.NoLengthError.confirm (c := c.put _) h
    · exact h
  split
  · exact obey_noLengthError h _ _
  split
  · exact obey_noLengthError h _ _
  · exact h

/-- The branch that reports a truncated packet is never taken. -/
theorem handleObjs_noLengthError {asdu : Bytes} (h : c.NoLengthError) (typeId vsq : Nat) (h6 : 6 ≤ asdu.length) :
    (handleObjs cb now f asdu typeId vsq c).2.NoLengthError := by
  unfold handleObjs
  rcases parseObjs_spec typeId vsq h6 with ⟨objs, ho, -, -⟩ | ⟨he, -, -⟩
  · rw [ho]
    exact dispatch_noLengthError h _ _
  · rw [he]
    exact h

theorem handleObjs_spec {asdu : Bytes} (typeId vsq : Nat) (h6 : 6 ≤ asdu.length) (hb : Bounded f)
    (hc : c.st.Counters) :
    ((∃ o, (handleObjs cb now f asdu typeId vsq c).1 = .ok o) ↔
      (vsq &&& 0x80 ≠ 0 → 9 ≤ asdu.length) ∧ (isCommand typeId = true → wanted typeId vsq ≤ asdu.length)) ∧
    ((∃ resp, (handleObjs cb now f asdu typeId vsq c).1 = .ok (some resp)) ↔
      (vsq &&& 0x80 ≠ 0 → 9 ≤ asdu.length) ∧ ((typeId = 100 ∧ cb.onGi.isSome = true) ∨
        (isCommand typeId = true ∧ wanted typeId vsq ≤ asdu.length))) := by
  unfold handleObjs
  rcases parseObjs_spec typeId vsq h6 with ⟨objs, ho, h9, hfull⟩ | ⟨he, hsq, h9⟩
  · rw [ho, ← hfull]
    have hd := dispatch_spec cb now typeId objs hb hc
    exact ⟨hd.1.trans (and_iff_right h9).symm, hd.2.trans (and_iff_right h9).symm⟩
  · rw [he]
    have hn : ¬ (vsq &&& 0x80 ≠ 0 → 9 ≤ asdu.length) := fun h => absurd (h hsq) (by omega)
    simp [hn]

/-- The address check either ends the matter or leads to the objects. -/
theorem handleAsdu_cases (cb : Callbacks σ) (now : Datetime) (f : Bytes) (c : Ctx σ) (t vsq : UInt8)
    {rest : Bytes} (h : 4 ≤ rest.length) :
    (accepted c.st (t :: vsq :: rest) t.toNat = true ∧ ∃ c₁ : Ctx σ, c₁.st = c.st ∧
      (c.NoLengthError → c₁.NoLengthError) ∧
      handleAsdu cb now f (t :: vsq :: rest) c = handleObjs cb now f (t :: vsq :: rest) t.toNat vsq.toNat c₁) ∨
    (accepted c.st (t :: vsq :: rest) t.toNat = false ∧ ∃ r, r.isLengthError = false ∧
      handleAsdu cb now f (t :: vsq :: rest) c = (.ok none, c.log r)) := by
  have h6 : 6 ≤ (t :: vsq :: rest).length := by simp only [List.length_cons]; omega
  have h100 : (t.toNat : Int) = AsduTypeId.cIcNa1 ↔ t.toNat = 100 := by unfold AsduTypeId.cIcNa1; omega
  rw [handleAsdu, dif_pos h6]
  dsimp only [List.getElem_cons_zero, List.getElem_cons_succ]
  by_cases hca : (leNat (slice (t :: vsq :: rest) 4 6) : Int) = c.st.ca
  · refine .inl ⟨by simp [accepted, hca], c, rfl, id, ?_⟩
    simp [hca]
  · by_cases hs : c.st.conf.protStrictCoa = true
    · refine .inr ⟨by simp [accepted, hca, hs], .invalidCoa (leNat (slice (t :: vsq :: rest) 4 6)) c.st.ca t.toNat,
        rfl, ?_⟩
      simp [hca, hs]
    · by_cases ht : t.toNat = 100
      · refine .inl ⟨by simp [accepted, hca, hs, ht],
          c.log (.invalidCoaGi (leNat (slice (t :: vsq :: rest) 4 6)) c.st.ca t.toNat), rfl, fun h => h.log rfl, ?_⟩
        rw [if_neg (fun h => hs h.2), if_neg (fun h => h.2 (h100.mpr ht)), if_pos hca]
      · refine .inr ⟨by simp [accepted, hca, hs, ht],
          .invalidCoaIgnored (leNat (slice (t :: vsq :: rest) 4 6)) c.st.ca t.toNat, rfl, ?_⟩
        rw [if_neg (fun h => hs h.2), if_pos ⟨hca, fun h => ht (h100.mp h)⟩]

/-! ## The whole frame -/

def answered (cb : Callbacks σ) (st : ClientState) (f : Bytes) : Bool :=
  isI f &&
    match f.drop 6 with
    | t :: vsq :: rest =>
      decide (4 ≤ rest.length) && accepted st (t :: vsq :: rest) t.toNat &&
        decide (vsq.toNat &&& 0x80 ≠ 0 → 7 ≤ rest.length) &&
        ((decide (t.toNat = 100) && cb.onGi.isSome) || (isCommand t.toNat && complete (t :: vsq :: rest)))
    | _ => false

theorem map_I_eq {x : Except PyErr (Option Bytes)} {t : FrameType} {o : Option Bytes} :
    x.map (FrameType.I, ·) = .ok (t, o) ↔ t = .I ∧ x = .ok o := by
  cases x with
  | error e => simp [Except.map]
  | ok a => simp [Except.map, eq_comm]

theorem long_asdu (h : 12 ≤ f.length) : ∃ t vsq rest, f.drop 6 = t :: vsq :: rest ∧ rest.length + 8 = f.length := by
  have hl : (f.drop 6).length = f.length - 6 := List.length_drop
  match hd : f.drop 6, hl with
  | [], hl => simp at hl; omega
  | [x], hl => simp at hl; omega
  | t :: vsq :: rest, hl =>
    simp only [List.length_cons] at hl
    exact ⟨t, vsq, rest, rfl, by omega⟩

theorem Ctx.received_counters (hc : c.st.Counters) (a b : Nat) : (c.received a b).st.Counters :=
  ⟨hc.sendSq_lt, Nat.mod_lt _ (by decide)⟩

theorem procFrame_long (hI : isI f = true) (h : 6 ≤ f.length) :
    procFrame cb now f c = ((handleAsdu cb now f (f.drop 6) (c.received (nS f) (nR f))).1.map (.I, ·),
      (handleAsdu cb now f (f.drop 6) (c.received (nS f) (nR f))).2) := by
  rw [procFrame_I hI, handleIFrame_long h]

theorem handleAsdu_short {asdu : Bytes} (h : asdu.length < 6) :
    handleAsdu cb now f asdu c = (.ok none, c.log .asduTooShort) := by
  rw [handleAsdu, dif_neg (by omega)]

theorem answered_iff (hl : f.length ≤ 257) (hc : c.st.Counters) :
    (∃ resp, (procFrame cb now f c).1 = .ok (.I, some resp)) ↔ answered cb c.st f = true := by
  by_cases hI : isI f = true
  · by_cases h12 : 12 ≤ f.length
    · obtain ⟨t, vsq, rest, hd, hlen⟩ := long_asdu h12
      have h4 : 4 ≤ rest.length := by omega
      have h6 : 6 ≤ (t :: vsq :: rest).length := by simp only [List.length_cons]; omega
      have h97 : 9 ≤ (t :: vsq :: rest).length ↔ 7 ≤ rest.length := by simp only [List.length_cons]; omega
      rw [procFrame_long hI (by omega), hd]
      simp only [map_I_eq, true_and]
      rcases handleAsdu_cases cb now f (c.received (nS f) (nR f)) t vsq h4 with ⟨ha, c₁, hst, -, he⟩ | ⟨ha, r, -, he⟩
      · have hc₁ : c₁.st.Counters := by rw [hst]; exact Ctx.received_counters hc _ _
        have ha' : accepted c.st (t :: vsq :: rest) t.toNat = true := ha
        rw [he, (handleObjs_spec t.toNat vsq.toNat h6 ⟨h12, hl⟩ hc₁).2, h97]
        simp only [answered, hI, hd, h4, ha', complete, decide_true, Bool.true_and, Bool.and_eq_true,
          Bool.or_eq_true, decide_eq_true_eq, List.length_cons, Nat.add_assoc, Nat.reduceAdd]
      · have ha' : accepted c.st (t :: vsq :: rest) t.toNat = false := ha
        rw [he]
        simp [answered, hd, ha']
    · have hn : answered cb c.st f = false := by
        unfold answered
        split
        · rename_i t vsq rest hd
          have := congrArg List.length hd
          simp only [List.length_drop, List.length_cons] at this
          simp [show ¬ 4 ≤ rest.length by omega]
        · simp
      rw [hn]
      by_cases h6 : 6 ≤ f.length
      · rw [procFrame_long hI h6, handleAsdu_short (by rw [List.length_drop]; omega)]
        simp [Except.map]
      · obtain ⟨e, he⟩ := handleIFrame_short cb now c (show f.length < 6 by omega)
        rw [procFrame_I hI, he]
        simp [Except.map]
  · have hn : answered cb c.st f = false := by simp [answered, hI]
    rw [hn]
    refine ⟨fun h => ?_, fun h => by cases h⟩
    obtain ⟨resp, hr⟩ := h
    obtain ⟨r, c', he⟩ : ∃ r c', procFrame cb now f c = (r, c') := ⟨_, _, rfl⟩
    rw [he] at hr
    rcases procFrame_cases he with ⟨-, hnum, -⟩ | ⟨hq, -⟩
    · simp [numberedI, hI] at hnum
    · obtain rfl : r = _ := hr
      cases hq

/-! ## Short frames -/

def tooShort (f : Bytes) : Prop := f.length < 6 ∨ (isI f = true ∧ f.length < 12)

def truncated (f : Bytes) : Prop := isI f = true ∧ 12 ≤ f.length ∧ complete (f.drop 6) = false

/-- The frame is answered with `None` and a length error is logged. -/
def Reported (r : Except PyErr (FrameType × Option Bytes) × Ctx σ) : Prop :=
  (∃ t, r.1 = .ok (t, none)) ∧ ∃ rec ∈ r.2.logs, rec.isLengthError = true

/-- Long enough for what the handlers read: a control octet; the six header octets, except of an
    S-frame, whose handler checks them itself; every octet of the objects an ASDU announces. -/
def sound (f : Bytes) : Prop :=
  3 ≤ f.length ∧ (isU f = true → 6 ≤ f.length) ∧
    (isI f = true → 6 ≤ f.length ∧ (f.length < 12 ∨ complete (f.drop 6) = true))

theorem Ctx.NoLengthError.received (h : c.NoLengthError) (a b : Nat) : (c.received a b).NoLengthError := by
  unfold Ctx.received
  dsimp only
  split
  · exact Ctx.NoLengthError.log h rfl
  · exact h

theorem handleUFrame_spec (h : 2 < f.length) :
    (∃ resp, (handleUFrame f c).1 = .ok resp) ∧ (c.NoLengthError → (handleUFrame f c).2.NoLengthError) := by
  rw [handleUFrame, index_ok h]
  dsimp only
  split
  · exact ⟨⟨_, rfl⟩, fun hn => hn.log rfl⟩
  · exact ⟨⟨_, rfl⟩, fun hn => hn⟩

/-- An ASDU with its header raises only over its objects, and never reports a length. -/
theorem handleAsdu_spec (cb : Callbacks σ) (now : Datetime) (t vsq : UInt8) {rest : Bytes} (h : 4 ≤ rest.length)
    (hb : Bounded f) (hc : c.st.Counters) :
    (complete (t :: vsq :: rest) = true → ∃ o, (handleAsdu cb now f (t :: vsq :: rest) c).1 = .ok o) ∧
    (c.NoLengthError → (handleAsdu cb now f (t :: vsq :: rest) c).2.NoLengthError) := by
  have h6 : 6 ≤ (t :: vsq :: rest).length := by simp only [List.length_cons]; omega
  rcases handleAsdu_cases cb now f c t vsq h with
    ⟨-, c₁, hst, hlog, he⟩ | ⟨-, r, hr, he⟩
  · rw [he]
    refine ⟨fun hfull => ?_, fun hn => handleObjs_noLengthError (hlog hn) _ _ h6⟩
    have hw : wanted t.toNat vsq.toNat ≤ (t :: vsq :: rest).length := of_decide_eq_true hfull
    refine (handleObjs_spec t.toNat vsq.toNat h6 hb (by rw [hst]; exact hc)).1.mpr ⟨fun hsq => ?_, fun _ => hw⟩
    rw [wanted, if_pos hsq] at hw
    omega
  · rw [he]
    exact ⟨fun _ => ⟨_, rfl⟩, fun hn => hn.log hr⟩

def Handled (f : Bytes) (r : Except PyErr (FrameType × Option Bytes) × Ctx σ) : Prop :=
  (∃ t resp, r.1 = .ok (t, resp)) ∧ (tooShort f ∨ truncated f → Reported r)

/-- A frame that is not short needs no report. -/
theorem handled_of_ok {r : Except PyErr (FrameType × Option Bytes) × Ctx σ} {t : FrameType} {o : Option Bytes}
    (h : r.1 = .ok (t, o)) (hs : ¬ tooShort f) (ht : ¬ truncated f) : Handled f r :=
  ⟨⟨t, o, h⟩, fun hshort => absurd hshort (by simp [hs, ht])⟩

/-- A frame whose length error is logged is handled, short or not. -/
theorem handled_of_logged {r : Except PyErr (FrameType × Option Bytes) × Ctx σ} {t : FrameType} (x : LogRec)
    (h : r.1 = .ok (t, none)) (hr : x ∈ r.2.logs) (hl : x.isLengthError = true) : Handled f r :=
  ⟨⟨t, none, h⟩, fun _ => ⟨⟨t, h⟩, x, hr, hl⟩⟩

theorem Ctx.NoLengthError.silent (h : c.NoLengthError) : ¬ ∃ rec ∈ c.logs, rec.isLengthError = true := by
  intro hex
  obtain ⟨rec, hm, ht⟩ := hex
  rw [h rec hm] at ht
  cases ht

theorem handled_I (cb : Callbacks σ) (now : Datetime) (hI : isI f = true) (hl : f.length ≤ 257)
    (hc : c.st.Counters) (hquiet : c.NoLengthError) : Handled f (procFrame cb now f c) ↔ sound f := by
  have hU := (only_I hI).2
  have h3 := two_lt_of_ctrl hI
  by_cases h6 : 6 ≤ f.length
  · rw [procFrame_long hI h6]
    by_cases h12 : 12 ≤ f.length
    · obtain ⟨t, vsq, rest, hd, hlen⟩ := long_asdu h12
      obtain ⟨hok, hlog⟩ := handleAsdu_spec cb now t vsq (show 4 ≤ rest.length by omega) ⟨h12, hl⟩
        (Ctx.received_counters hc (nS f) (nR f))
      rw [hd]
      constructor
      · intro h
        refine ⟨h3, fun _ => h6, fun _ => ⟨h6, .inr ?_⟩⟩
        cases hfull : complete (f.drop 6) with
        | true => rfl
        | false =>
          have hrep := (h.2 (.inr ⟨hI, h12, hfull⟩)).2
          exact absurd hrep (hlog (hquiet.received (nS f) (nR f))).silent
      · intro h
        have hfull : complete (f.drop 6) = true := (h.2.2 hI).2.resolve_left (by omega)
        obtain ⟨o, ho⟩ := hok (by rw [← hd]; exact hfull)
        exact handled_of_ok (map_I_eq.mpr ⟨rfl, ho⟩) (by simp [tooShort]; omega) (by simp [truncated, hfull])
    · rw [handleAsdu_short (by rw [List.length_drop]; omega)]
      apply iff_of_true
      · exact handled_of_logged .asduTooShort rfl (List.mem_append_right _ (List.mem_singleton_self _)) rfl
      · exact ⟨h3, fun _ => h6, fun _ => ⟨h6, .inl (by omega)⟩⟩
  · obtain ⟨e, he⟩ := handleIFrame_short cb now c (show f.length < 6 by omega)
    rw [procFrame_I hI, he]
    refine iff_of_false (fun h => ?_) fun h => absurd (h.2.2 hI).1 h6
    obtain ⟨⟨t, resp, hr⟩, -⟩ := h
    cases hr

theorem handled_S (cb : Callbacks σ) (now : Datetime) (c : Ctx σ) (hS : isS f = true) :
    Handled f (procFrame cb now f c) ↔ sound f := by
  obtain ⟨hI, hU⟩ := only_S hS
  have hsound : sound f := ⟨two_lt_of_ctrl hS, fun h => absurd h (by simp [hU]), fun h => absurd h (by simp [hI])⟩
  rw [procFrame_S hS, handleSFrame]
  refine iff_of_true ?_ hsound
  by_cases h6 : f.length < 6
  · rw [if_pos h6]
    exact handled_of_logged .sFrameTooShort rfl (List.mem_append_right _ (List.mem_singleton_self _)) rfl
  · rw [if_neg h6, unpackU_ok (by simp; omega)]
    exact handled_of_ok rfl (by simp [tooShort, hI, h6]) (by simp [truncated, hI])

theorem handled_U (cb : Callbacks σ) (now : Datetime) (hU : isU f = true) (hquiet : c.NoLengthError) :
    Handled f (procFrame cb now f c) ↔ sound f := by
  have hI := (only_U hU).1
  have h3 := two_lt_of_ctrl hU
  obtain ⟨⟨resp, hr⟩, hlog⟩ := handleUFrame_spec (c := c) h3
  rw [procFrame_U hU]
  constructor
  · intro h
    refine ⟨h3, fun _ => ?_, fun h => by rw [hI] at h; cases h⟩
    by_contra h6
    exact (hlog hquiet).silent (h.2 (.inl (.inl (by omega)))).2
  · intro h
    have h6 := h.2.1 hU
    exact handled_of_ok (by rw [hr]; rfl) (by simp [tooShort, hI]; omega) (by simp [truncated, hI])

/-- A received frame is taken without an exception, and reported if it is short, exactly if it is sound. -/
theorem reports_iff (cb : Callbacks σ) (now : Datetime) (st : ClientState) (store : σ) (f : Bytes)
    (hf : IsFrame f) (hc : st.Counters) :
    ((∃ t resp, (procFrame cb now f ⟨st, store, [], []⟩).1 = .ok (t, resp)) ∧
      (tooShort f ∨ truncated f → Reported (procFrame cb now f ⟨st, store, [], []⟩))) ↔ sound f := by
  have hl : f.length ≤ 257 := by
    obtain ⟨-, l, -, hl⟩ := hf
    have := l.toNat_lt
    omega
  have hquiet : Ctx.NoLengthError (⟨st, store, [], []⟩ : Ctx σ) := by
    intro r hr
    cases hr
  by_cases h3 : 2 < f.length
  · rcases format_cases h3 with ⟨hI, -, -⟩ | ⟨-, hS, -⟩ | ⟨-, -, hU⟩
    · exact handled_I cb now hI hl hc hquiet
    · exact handled_S cb now _ hS
    · exact handled_U cb now hU hquiet
  · rw [procFrame_short (by omega)]
    refine iff_of_false (fun h => ?_) fun h => h3 h.1
    obtain ⟨⟨t, resp, hr⟩, -⟩ := h
    cases hr

def emptyStation : Callbacks Unit := ⟨some fun _ _ store => (false, [], store), some fun _ => []⟩

def bareCommand : Bytes := [0x68, 0x0A, 0x00, 0x00, 0x00, 0x00, 0x2D, 0x01, 0x06, 0x00, 0x01, 0x00]

/-- The command is read before anything notices that it is not there. -/
theorem a_truncated_command_raises :
    IsFrame bareCommand ∧ truncated bareCommand ∧
      (procFrame emptyStation sampleTime bareCommand ⟨createClientState kp1Conf 1, (), [], []⟩).1 =
        .error .indexError ∧
      ¬ ((∃ t resp, (procFrame emptyStation sampleTime bareCommand ⟨createClientState kp1Conf 1, (), [], []⟩).1 =
          .ok (t, resp)) ∧
        (tooShort bareCommand ∨ truncated bareCommand →
          Reported (procFrame emptyStation sampleTime bareCommand ⟨createClientState kp1Conf 1, (), [], []⟩))) := by
  have he : (procFrame emptyStation sampleTime bareCommand ⟨createClientState kp1Conf 1, (), [], []⟩).1 =
      .error .indexError := by decide
  refine ⟨by decide, by unfold truncated; decide, he, fun hall => ?_⟩
  obtain ⟨⟨t, resp, h⟩, -⟩ := hall
  rw [he] at h
  cases h

theorem reports_iff_bareCommand :
    ((∃ t resp, (procFrame emptyStation sampleTime bareCommand ⟨createClientState kp1Conf 1, (), [], []⟩).1 =
        .ok (t, resp)) ∧
      (tooShort bareCommand ∨ truncated bareCommand →
        Reported (procFrame emptyStation sampleTime bareCommand ⟨createClientState kp1Conf 1, (), [], []⟩))) ↔
      sound bareCommand :=
  reports_iff emptyStation sampleTime (createClientState kp1Conf 1) () bareCommand (by decide)
    (createClientState_counters _ _)

end Drv60870.Protocol
