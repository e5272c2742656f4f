/-
  Drv60870.Protocol.Executed — the commands of a frame and their confirmation
  (`handle_i_frame` and `build_i_frame_ack` in `protocol.py`).

  Reading the objects and obeying them are two loops, and a value that is cut off is noticed
  in the second only. `commandFrame` lays a command out by the standard, in either form of its
  objects; `calls` are those of `on_command`.

  Proved:
  - The objects of such a frame are read as they are laid out (`parseObjs_layout`).
  - A command laid out whole is obeyed object by object, in order, and confirmed, whatever
    stands behind the objects; the counters advance by one (`executed_exactly`).
  - A command is obeyed whole and confirmed, or not at all, if and only if all its objects are
    there, or none is announced, or not even the first is there (`all_or_nothing`). Otherwise
    those before the cut are obeyed and then the handler raises (`cutSwitches_half`).
-/

import Drv60870.Protocol.Commands
import Drv60870.Protocol.Reports

namespace Drv60870.Protocol

open Lib.Octets Lib.Calendar Lib.Ieee Lib.Python Drv60870.Const

variable {σ : Type} {cb : Callbacks σ} {now : Datetime} {f : Bytes} {c : Ctx σ}

/-! ## Calls -/

def calls (cb : Callbacks σ) (now : Datetime) (f : Bytes) (c : Ctx σ) : List Command :=
  (handleIFrame cb.recorded now f ⟨c.st, (c.store, []), c.puts, c.logs⟩).2.store.2

def commandVal (typeId : Nat) : Bytes → Except PyErr Val := if typeId = 45 then singleVal else setpointVal

/-- The loop's calls: up to the first value that cannot be read. -/
def executed (val : Bytes → Except PyErr Val) : List (Nat × Bytes) → List Command
  | [] => []
  | (ioa, data) :: objs =>
    match val data with
    | .ok v => (v, ioa) :: executed val objs
    | .error _ => []

theorem commandVal_ok {typeId : Nat} (ht : isCommand typeId = true) (data : Bytes) :
    (∃ v, commandVal typeId data = .ok v) ↔ valSize typeId ≤ data.length := by
  have hcases : typeId = 45 ∨ typeId = 50 := by simpa [isCommand] using ht
  rcases hcases with rfl | rfl
  · exact singleVal_ok data
  · exact setpointVal_ok data

theorem recorded_onCommand {g : Val → Nat → σ → Bool × List IecEvent × σ} (hcb : cb.onCommand = some g) :
    cb.recorded.onCommand = some fun val ioa s =>
      ((g val ioa s.1).1, (g val ioa s.1).2.1, (g val ioa s.1).2.2, s.2 ++ [(val, ioa)]) := by
  rw [Callbacks.recorded, hcb]
  rfl

theorem command_recorded (hcb : cb.onCommand.isSome = true) (c : Ctx (σ × List Command)) (val : Val) (ioa : Nat) :
    (c.command cb.recorded val ioa).store.2 = c.store.2 ++ [(val, ioa)] := by
  obtain ⟨g, hg⟩ := Option.isSome_iff_exists.mp hcb
  unfold Ctx.command
  rw [recorded_onCommand hg]
  dsimp only
  split <;> rfl

theorem runCommands_calls (hcb : cb.onCommand.isSome = true) (val : Bytes → Except PyErr Val) :
    ∀ (objs : List (Nat × Bytes)) (c : Ctx (σ × List Command)),
      (runCommands cb.recorded val objs c).2.store.2 = c.store.2 ++ executed val objs := by
  intro objs
  induction objs with
  | nil => exact fun c => (List.append_nil _).symm
  | cons o objs ih =>
    intro c
    rw [runCommands, executed]
    cases val o.2 with
    | error e => exact (List.append_nil _).symm
    | ok v =>
      dsimp only
      rw [ih, command_recorded hcb, List.append_assoc]
      rfl

theorem executed_all {val : Bytes → Except PyErr Val} {value : Bytes → Val} {objs : List (Nat × Bytes)}
    (h : ∀ o ∈ objs, val o.2 = .ok (value o.2)) : executed val objs = objs.map fun o => (value o.2, o.1) := by
  induction objs with
  | nil => rfl
  | cons o objs ih =>
    rw [executed, h o List.mem_cons_self]
    dsimp only
    rw [ih fun o' ho' => h o' (List.mem_cons_of_mem o ho'), List.map_cons]

theorem confirm_store (f : Bytes) (c : Ctx σ) : (confirm f c).2.store = c.store := by
  unfold confirm
  split <;> rfl

theorem obey_calls (hcb : cb.onCommand.isSome = true) (val : Bytes → Except PyErr Val) (objs : List (Nat × Bytes))
    (c : Ctx (σ × List Command)) : (obey cb.recorded val f objs c).2.store.2 = c.store.2 ++ executed val objs := by
  have hr := runCommands_calls hcb val objs c
  unfold obey
  split
  · rename_i e c₁ h
    rw [h] at hr
    exact hr
  · rename_i c₁ h
    rw [h] at hr
    rw [confirm_store]
    exact hr

/-! ## The handler on a command -/

/-- A command for this station: read the objects, then obey. -/
theorem handleIFrame_command (cb : Callbacks σ) (now : Datetime) (h : 12 ≤ f.length) (ht : isCommand f[6].toNat = true)
    (hca : (leNat (slice f 10 12) : Int) = c.st.ca) : handleIFrame cb now f c =
      match parseObjs (f.drop 6) f[6].toNat f[7].toNat with
      | .ok objs => obey cb (commandVal f[6].toNat) f objs (c.received (nS f) (nR f))
      | .error e => (.error e, c.received (nS f) (nR f)) := by
  have hlen : (f.drop 6).length = f.length - 6 := List.length_drop
  have ht0 : (f.drop 6)[0] = f[6] := List.getElem_drop
  have hv : (f.drop 6)[1] = f[7] := List.getElem_drop
  have hcoa : ¬ ((leNat (slice (f.drop 6) 4 6) : Nat) : Int) ≠ (c.received (nS f) (nR f)).st.ca := by
    rw [slice_drop, Ctx.received_st]
    exact not_not.mpr hca
  have hcases : f[6].toNat = 45 ∨ f[6].toNat = 50 := by simpa [isCommand] using ht
  rw [handleIFrame_long (by omega), handleAsdu, dif_pos (by omega)]
  dsimp only
  rw [if_neg (fun hn => hcoa hn.1), if_neg (fun hn => hcoa hn.1), if_neg hcoa, ht0, hv, handleObjs]
  have hindex : parseObjs (f.drop 6) f[6].toNat f[7].toNat ≠ .error .indexError := by
    intro he
    rcases parseObjs_spec f[6].toNat f[7].toNat (show 6 ≤ (f.drop 6).length by omega) with ⟨objs, ho, -⟩ | ⟨ho, -⟩
    · rw [he] at ho
      cases ho
    · rw [he] at ho
      cases ho
  cases hp : parseObjs (f.drop 6) f[6].toNat f[7].toNat with
  | error e =>
    cases e with
    | indexError => exact absurd hp hindex
    | _ => rfl
  | ok objs =>
    dsimp only
    rw [dispatch, commandVal]
    rcases hcases with h45 | h50
    · rw [h45]
      rfl
    · rw [h50]
      rfl

/-! ## Commands laid out whole -/

/-- The objects of a command: with an address each, or a base address and values. -/
inductive Payload where
  | list (objs : List (Nat × Bytes))
  | seq (base : Nat) (data : List Bytes)

namespace Payload

def objs : Payload → List (Nat × Bytes)
  | list objs => objs
  | seq base data => data.zipIdx.map fun p => (base + p.2, p.1)

def vsq : Payload → Nat
  | list objs => objs.length
  | seq _ data => data.length ||| 0x80

def octets : Payload → Bytes
  | list objs => objs.flatMap fun o => leBytes 3 o.1 ++ o.2
  | seq base data => leBytes 3 base ++ data.flatten

def addresses : Payload → List Nat
  | list objs => objs.map Prod.fst
  | seq base _ => [base]

structure Fits (size : Nat) (p : Payload) : Prop where
  count : p.objs.length ≤ 127
  address : ∀ a ∈ p.addresses, a < 256 ^ 3
  data : ∀ o ∈ p.objs, o.2.length = size

end Payload

/-- A command: six octets of control field, the header of its ASDU, its objects and what follows. -/
def commandFrame (head : Bytes) (typeId : Nat) (cot0 cot1 : UInt8) (ca : Nat) (p : Payload) (rest : Bytes) : Bytes :=
  head ++ UInt8.ofNat typeId :: UInt8.ofNat p.vsq :: cot0 :: cot1 :: (leBytes 2 ca ++ (p.octets ++ rest))

def encoded (typeId : Nat) (data : Bytes) : Val :=
  if typeId = 45 then .int ((data.headD 0).toNat % 2 : Nat)
  else .float (convert binary64 (ofBits binary32 (leNat (data.take 4))))

theorem commandVal_encoded {typeId : Nat} (ht : isCommand typeId = true) {data : Bytes}
    (h : data.length = valSize typeId) : commandVal typeId data = .ok (encoded typeId data) := by
  have hcases : typeId = 45 ∨ typeId = 50 := by simpa [isCommand] using ht
  rcases hcases with rfl | rfl
  · obtain ⟨d, rfl⟩ := List.length_eq_one_iff.mp h
    show Except.ok (Val.int (d.toNat &&& 0x01 : Nat)) = Except.ok (Val.int (d.toNat % 2 : Nat))
    rw [Nat.and_one_is_mod]
  · have h5 : data.length = 5 := h
    have hd : slice data 0 5 = data := by
      rw [slice, List.drop_zero, List.take_of_length_le (by omega)]
    have h4 : slice data 0 4 = data.take 4 := List.drop_zero
    show setpointVal data = _
    rw [setpointVal, hd, if_pos h5, h4, unpackF, if_pos (by rw [List.length_take]; omega)]
    rfl

theorem parseList_layout {size : Nat} {objs : List (Nat × Bytes)} (rest : Bytes)
    (h : ∀ o ∈ objs, o.1 < 256 ^ 3 ∧ o.2.length = size) : ∀ {pre : Bytes} {offset : Nat}, pre.length = offset →
      parseList (pre ++ ((objs.flatMap fun o => leBytes 3 o.1 ++ o.2) ++ rest)) size objs.length offset = objs := by
  induction objs with
  | nil => exact fun _ => rfl
  | cons o objs ih =>
    intro pre offset hpre
    obtain ⟨ha, hd⟩ := h o List.mem_cons_self
    have hioa : slice (pre ++ (((o :: objs).flatMap fun o => leBytes 3 o.1 ++ o.2) ++ rest)) offset (offset + 3) =
        leBytes 3 o.1 := by
      rw [List.flatMap_cons, List.append_assoc, List.append_assoc]
      exact slice_mid _ hpre (by rw [length_leBytes])
    have hdata : slice (pre ++ (((o :: objs).flatMap fun o => leBytes 3 o.1 ++ o.2) ++ rest)) (offset + 3)
        (offset + 3 + size) = o.2 := by
      rw [List.flatMap_cons, List.append_assoc, List.append_assoc, ← List.append_assoc pre]
      exact slice_mid _ (by rw [List.length_append, length_leBytes, hpre]) (by rw [hd])
    have hpre' : (pre ++ (leBytes 3 o.1 ++ o.2)).length = offset + 3 + size := by
      rw [List.length_append, List.length_append, length_leBytes, hpre, hd]
      omega
    have hnext := ih (fun o' ho' => h o' (List.mem_cons_of_mem o ho')) hpre'
    rw [List.length_cons, parseList, hioa, hdata, leNat_leBytes ha, List.flatMap_cons, List.append_assoc,
      ← List.append_assoc pre, hnext]

theorem parseSeq_layout {size base : Nat} {data : List Bytes} (rest : Bytes) (h : ∀ d ∈ data, d.length = size) :
    ∀ {pre : Bytes} {i offset : Nat}, pre.length = offset →
      parseSeq (pre ++ (data.flatten ++ rest)) size base data.length i offset =
        (data.zipIdx i).map fun p => (base + p.2, p.1) := by
  induction data with
  | nil => exact fun _ => rfl
  | cons d data ih =>
    intro pre i offset hpre
    have hd := h d List.mem_cons_self
    have hdata : slice (pre ++ ((d :: data).flatten ++ rest)) offset (offset + size) = d := by
      rw [List.flatten_cons, List.append_assoc]
      exact slice_mid _ hpre (by rw [hd])
    have hpre' : (pre ++ d).length = offset + size := by rw [List.length_append, hpre, hd]
    rw [List.length_cons, parseSeq, hdata, List.flatten_cons, List.append_assoc, ← List.append_assoc pre,
      ih (fun d' hd' => h d' (List.mem_cons_of_mem d hd')) hpre', List.zipIdx_cons, List.map_cons]

theorem vsq_bits : ∀ n < 128, (n &&& 0x7F = n ∧ n &&& 0x80 = 0) ∧ (n ||| 0x80) &&& 0x7F = n ∧
    (n ||| 0x80) &&& 0x80 ≠ 0 ∧ n ||| 0x80 < 256 := by
  decide +kernel

theorem Payload.Fits.vsq_bits {size : Nat} {p : Payload} (h : p.Fits size) :
    p.vsq < 256 ∧ p.vsq &&& 0x7F = p.objs.length ∧ (p.vsq &&& 0x80 ≠ 0 ↔ ∃ base data, p = .seq base data) := by
  cases p with
  | list objs =>
    have hc : objs.length ≤ 127 := h.count
    obtain ⟨⟨hlow, hhigh⟩, -⟩ := Protocol.vsq_bits objs.length (by omega)
    refine ⟨by show objs.length < 256; omega, hlow, iff_of_false (not_not.mpr hhigh) fun he => ?_⟩
    obtain ⟨base, data, he⟩ := he
    cases he
  | seq base data =>
    have hlen : (Payload.seq base data).objs.length = data.length := by
      rw [Payload.objs, List.length_map, List.length_zipIdx]
    have hc : data.length ≤ 127 := hlen ▸ h.count
    obtain ⟨-, hlow, hhigh, hlt⟩ := Protocol.vsq_bits data.length (by omega)
    exact ⟨hlt, hlow.trans hlen.symm, iff_of_true hhigh ⟨base, data, rfl⟩⟩

/-- The objects are read as they are laid out. -/
theorem parseObjs_layout {typeId : Nat} {p : Payload} {pre : Bytes} (rest : Bytes) (h : p.Fits (valSize typeId))
    (hpre : pre.length = 6) : parseObjs (pre ++ (p.octets ++ rest)) typeId p.vsq = .ok p.objs := by
  obtain ⟨-, hcount, hseq⟩ := h.vsq_bits
  rw [parseObjs]
  cases p with
  | list objs =>
    have hno : ¬ (Payload.list objs).vsq &&& 0x80 ≠ 0 := by
      rw [hseq]
      intro he
      obtain ⟨base, data, he⟩ := he
      cases he
    have haddr : ∀ o ∈ objs, o.1 < 256 ^ 3 ∧ o.2.length = valSize typeId :=
      fun o ho => ⟨h.address _ (List.mem_map_of_mem ho), h.data o ho⟩
    rw [if_neg hno, hcount]
    exact congrArg Except.ok (parseList_layout rest haddr hpre)
  | seq base data =>
    have hdata : ∀ d ∈ data, d.length = valSize typeId := by
      intro d hd
      obtain ⟨i, hi, hid⟩ := List.getElem_of_mem hd
      refine h.data (base + i, d) (List.mem_map.mpr ⟨(d, i), ?_, rfl⟩)
      rw [← hid]
      exact List.mem_zipIdx_iff_getElem?.mpr (List.getElem?_eq_getElem hi)
    have hbase : unpackU 4 (slice (pre ++ ((Payload.seq base data).octets ++ rest)) 6 9 ++ [0x00]) = .ok base := by
      have hslice : slice (pre ++ ((Payload.seq base data).octets ++ rest)) 6 9 = leBytes 3 base := by
        rw [Payload.octets, List.append_assoc]
        exact slice_mid _ hpre (by rw [length_leBytes])
      rw [hslice, unpackU_ok (by rw [List.length_append, length_leBytes]; rfl), leNat_zero,
        leNat_leBytes (h.address base List.mem_cons_self)]
    have hseq' := hseq.mpr ⟨base, data, rfl⟩
    have hlen : (Payload.seq base data).objs.length = data.length := by
      rw [Payload.objs, List.length_map, List.length_zipIdx]
    rw [if_pos hseq', hbase, hcount, hlen, Payload.octets, List.append_assoc, ← List.append_assoc pre]
    exact congrArg Except.ok (parseSeq_layout rest hdata (by rw [List.length_append, length_leBytes, hpre]))

/-! ## Confirmation -/

/-- The answer to a request: its ASDU with the cause of a confirmation, numbered as the next
    frame of this connection. -/
structure Confirms (st : ClientState) (f resp : Bytes) : Prop where
  frame : IsFrame resp
  isI : isI resp = true
  asdu : resp.drop 6 = (f.drop 6).set 2 0x07
  nS : nS resp = st.sendSq
  nR : nR resp = (st.recSq + 1) % seqMod

theorem confirm_eq (h12 : 12 ≤ f.length) (h257 : f.length ≤ 257) (hc : c.st.Counters) :
    confirm f c = (.ok (some (iFrame c.st.sendSq c.st.recSq (ackAsdu f))),
      { c with st := { c.st with sendSq := (c.st.sendSq + 1) % seqMod } }) := by
  obtain ⟨resp, hr⟩ := confirm_ok (f := f) ⟨h12, h257⟩ hc
  unfold confirm at hr ⊢
  cases hb : buildIFrameAck c.st f COT.activationCon with
  | error e =>
    rw [hb] at hr
    cases hr
  | ok p =>
    obtain ⟨ack, st⟩ := p
    obtain ⟨rfl, rfl⟩ := buildIFrameAck_ok hb
    rfl

theorem confirms {st : ClientState} (h12 : 12 ≤ f.length) (h257 : f.length ≤ 257) (hc : st.Counters) :
    Confirms st f (iFrame st.sendSq ((st.recSq + 1) % seqMod) (ackAsdu f)) := by
  have hlen : (ackAsdu f).length + 4 < 256 := by
    rw [ackAsdu, List.length_set, List.length_drop]
    omega
  have hr : (st.recSq + 1) % seqMod < seqMod := Nat.mod_lt _ (by decide)
  exact ⟨(whole_iFrame _ _ hlen).frame, isI_iFrame _ _ _, drop_iFrame _ _ _, nS_iFrame _ _ hc.sendSq_lt,
    nR_iFrame _ _ hr⟩

/-- A command whose values are all read: obeyed object by object, and confirmed. -/
theorem obey_ok (cb : Callbacks σ) (c : Ctx σ) {val : Bytes → Except PyErr Val} {objs : List (Nat × Bytes)}
    (h12 : 12 ≤ f.length) (h257 : f.length ≤ 257) (hc : c.st.Counters) (hv : ∀ o ∈ objs, ∃ v, val o.2 = .ok v) :
    (obey cb val f objs c).1 = .ok (some (iFrame c.st.sendSq c.st.recSq (ackAsdu f))) ∧
      (obey cb val f objs c).2.st = { c.st with sendSq := (c.st.sendSq + 1) % seqMod } := by
  have hok := (runCommands_ok cb val objs c).mpr hv
  have hst := runCommands_st cb val objs c
  unfold obey
  split
  · rename_i e c₁ h
    rw [h] at hok
    cases hok
  · rename_i c₁ h
    rw [h] at hst
    have hst' : c₁.st = c.st := hst
    rw [confirm_eq h12 h257 (by rw [hst']; exact hc), hst']
    exact ⟨rfl, rfl⟩

/-- The calls that a command causes: those of its objects that can be read before one cannot. -/
theorem calls_command (hcb : cb.onCommand.isSome = true) (now : Datetime) (h : 12 ≤ f.length)
    (ht : isCommand f[6].toNat = true) (hca : (leNat (slice f 10 12) : Int) = c.st.ca) : calls cb now f c =
      match parseObjs (f.drop 6) f[6].toNat f[7].toNat with
      | .ok objs => executed (commandVal f[6].toNat) objs
      | .error _ => [] := by
  rw [calls, handleIFrame_command cb.recorded now (c := ⟨c.st, (c.store, []), c.puts, c.logs⟩) h ht hca]
  cases parseObjs (f.drop 6) f[6].toNat f[7].toNat with
  | error e =>
    dsimp only
    rw [Ctx.received_store]
  | ok objs =>
    dsimp only
    rw [obey_calls hcb, Ctx.received_store]
    rfl

/-! ## Whole commands are executed exactly -/

section Layout

variable {head : Bytes} {typeId ca : Nat} {p : Payload} (cot0 cot1 : UInt8) (rest : Bytes)

/-- The octets of a command, as the handler looks at them. -/
theorem commandFrame_octets (hh : head.length = 6) (ht : isCommand typeId = true) (hca : ca < 65536)
    (hp : p.Fits (valSize typeId)) :
    let f := commandFrame head typeId cot0 cot1 ca p rest
    ∃ h : 12 ≤ f.length, f[6].toNat = typeId ∧ f[7].toNat = p.vsq ∧ leNat (slice f 10 12) = ca ∧
      parseObjs (f.drop 6) typeId p.vsq = .ok p.objs := by
  have hcases : typeId = 45 ∨ typeId = 50 := by simpa [isCommand] using ht
  have hlen : 12 ≤ (commandFrame head typeId cot0 cot1 ca p rest).length := by
    simp only [commandFrame, List.length_append, List.length_cons, length_leBytes, hh]
    omega
  have hdrop : (commandFrame head typeId cot0 cot1 ca p rest).drop 6 =
      [UInt8.ofNat typeId, UInt8.ofNat p.vsq, cot0, cot1] ++ leBytes 2 ca ++ (p.octets ++ rest) := by
    rw [commandFrame, List.drop_left' hh]
    simp only [List.cons_append, List.nil_append]
  refine ⟨hlen, ?_, ?_, ?_, ?_⟩
  · simp only [commandFrame, List.getElem_append_right, hh, Nat.le_refl, Nat.sub_self, List.getElem_cons_zero]
    exact UInt8.toNat_ofNat_of_lt' (by have := hcases; show typeId < 256; omega)
  · have h7 : (commandFrame head typeId cot0 cot1 ca p rest)[7] = UInt8.ofNat p.vsq := by
      simp only [commandFrame]
      rw [List.getElem_append_right (by omega)]
      simp only [hh]
      rfl
    rw [h7]
    exact UInt8.toNat_ofNat_of_lt' hp.vsq_bits.1
  · have hslice : slice (commandFrame head typeId cot0 cot1 ca p rest) 10 12 = leBytes 2 ca := by
      have hsplit : commandFrame head typeId cot0 cot1 ca p rest =
          (head ++ [UInt8.ofNat typeId, UInt8.ofNat p.vsq, cot0, cot1]) ++ (leBytes 2 ca ++ (p.octets ++ rest)) := by
        rw [commandFrame, List.append_assoc]
        rfl
      rw [hsplit]
      exact slice_mid _ (by rw [List.length_append, hh]; rfl) (by rw [length_leBytes])
    rw [hslice, leNat_leBytes hca]
  · rw [hdrop]
    exact parseObjs_layout rest hp (by rw [List.length_append, length_leBytes]; rfl)

/-- A command laid out whole is obeyed object by object, in order, and confirmed; the counters
    advance by one. -/
theorem executed_exactly (hcb : cb.onCommand.isSome = true) (now : Datetime) (hc : c.st.Counters)
    (ht : isCommand typeId = true) (hca : c.st.ca = ca) (hca' : ca < 65536) (hh : head.length = 6)
    (hp : p.Fits (valSize typeId)) (hlen : (commandFrame head typeId cot0 cot1 ca p rest).length ≤ 255) :
    let f := commandFrame head typeId cot0 cot1 ca p rest
    (∃ resp, (handleIFrame cb now f c).1 = .ok (some resp) ∧ Confirms c.st f resp) ∧
      (handleIFrame cb now f c).2.st = { c.st with
        sendSq := (c.st.sendSq + 1) % seqMod
        recSq := (c.st.recSq + 1) % seqMod
        lastAckNr := nR f } ∧
      calls cb now f c = p.objs.map fun o => (encoded typeId o.2, o.1) := by
  obtain ⟨h12, ht', hv, hcoa, hobjs⟩ := commandFrame_octets cot0 cot1 rest hh ht hca' hp
  intro f
  have h257 : f.length ≤ 257 := Nat.le_trans hlen (by decide)
  have hcmd : isCommand f[6].toNat = true := by rw [ht']; exact ht
  have hca₁ : (leNat (slice f 10 12) : Int) = c.st.ca := by rw [hcoa, hca]
  have hparse : parseObjs (f.drop 6) f[6].toNat f[7].toNat = .ok p.objs := by rw [ht', hv]; exact hobjs
  have hread : ∀ o ∈ p.objs, commandVal f[6].toNat o.2 = .ok (encoded typeId o.2) := by
    intro o ho
    rw [ht']
    exact commandVal_encoded ht (hp.data o ho)
  have hrun : handleIFrame cb now f c = obey cb (commandVal f[6].toNat) f p.objs (c.received (nS f) (nR f)) := by
    rw [handleIFrame_command cb now h12 hcmd hca₁, hparse]
  obtain ⟨hresp, hst⟩ := obey_ok cb (c.received (nS f) (nR f)) h12 h257
    (Ctx.received_counters hc _ _) (fun o ho => ⟨_, hread o ho⟩)
  refine ⟨⟨_, by rw [hrun]; exact hresp, ?_⟩, ?_, ?_⟩
  · rw [Ctx.received_st]
    exact confirms h12 h257 hc
  · rw [hrun, hst, Ctx.received_st]
  · rw [calls_command hcb now h12 hcmd hca₁, hparse]
    exact executed_all hread

end Layout

def obedient : Callbacks Unit := { onCommand := some fun _ _ s => (true, [], s), onGi := none }

def freshConn : Ctx Unit := { st := createClientState kp1Conf 1, store := () }

def sampleSwitches : Payload := .seq 100 [[0x01], [0x00]]

theorem executed_exactly_sample :
    let f := commandFrame [0x68, 0x10, 0x00, 0x00, 0x00, 0x00] 45 0x06 0x00 1 sampleSwitches [0xAA]
    (∃ resp, (handleIFrame obedient sampleTime f freshConn).1 = .ok (some resp) ∧ Confirms freshConn.st f resp) ∧
      (handleIFrame obedient sampleTime f freshConn).2.st = { freshConn.st with
        sendSq := 1
        recSq := 1
        lastAckNr := nR f } ∧
      calls obedient sampleTime f freshConn = [(.int 1, 100), (.int 0, 101)] :=
  executed_exactly 0x06 0x00 [0xAA] rfl sampleTime (createClientState_counters kp1Conf 1) rfl rfl (by decide) rfl
    ⟨by decide, by decide, by decide⟩ (by decide)

/-! ## All or nothing -/

def announced (f : Bytes) : Nat := ((f[7]?).getD 0).toNat &&& 0x7F

/-- `on_command` is called for every announced object, in order, and the frame confirmed. -/
def AllDone (cb : Callbacks σ) (now : Datetime) (f : Bytes) (c : Ctx σ) : Prop :=
  ∃ objs, parseObjs (f.drop 6) ((f[6]?).getD 0).toNat ((f[7]?).getD 0).toNat = .ok objs ∧
    objs.length = announced f ∧ (calls cb now f c).map Prod.snd = objs.map Prod.fst ∧
      ∃ resp, (handleIFrame cb now f c).1 = .ok (some resp) ∧ Confirms c.st f resp

def NothingDone (cb : Callbacks σ) (now : Datetime) (f : Bytes) (c : Ctx σ) : Prop :=
  calls cb now f c = [] ∧ (handleIFrame cb now f c).2.store = c.store

theorem length_parseSeq (asdu : Bytes) (size base : Nat) : ∀ n i offset,
    (parseSeq asdu size base n i offset).length = n := by
  intro n
  induction n with
  | zero => exact fun i offset => rfl
  | succ n ih => exact fun i offset => congrArg Nat.succ (ih _ _)

theorem length_parseList (asdu : Bytes) (size : Nat) : ∀ n offset, (parseList asdu size n offset).length = n := by
  intro n
  induction n with
  | zero => exact fun offset => rfl
  | succ n ih => exact fun offset => congrArg Nat.succ (ih _)

/-- As many objects as are announced; the first is behind the header and three octets of address. -/
theorem parseObjs_first {asdu : Bytes} {typeId vsq : Nat} {objs : List (Nat × Bytes)}
    (h : parseObjs asdu typeId vsq = .ok objs) : objs.length = vsq &&& 0x7F ∧
      ∀ o rest, objs = o :: rest → (valSize typeId ≤ o.2.length ↔ 9 + valSize typeId ≤ asdu.length) := by
  have h1 := one_le_valSize typeId
  rw [parseObjs] at h
  by_cases hseq : vsq &&& 0x80 ≠ 0
  · rw [if_pos hseq] at h
    obtain ⟨base, -, h⟩ := bind_eq_ok.mp h
    cases ok_inj h
    refine ⟨length_parseSeq _ _ _ _ _ _, fun o rest ho => ?_⟩
    cases hn : vsq &&& 0x7F with
    | zero =>
      rw [hn] at ho
      cases ho
    | succ n =>
      rw [hn, parseSeq] at ho
      cases ho
      rw [length_slice]
      omega
  · rw [if_neg hseq] at h
    cases ok_inj h
    refine ⟨length_parseList _ _ _ _, fun o rest ho => ?_⟩
    cases hn : vsq &&& 0x7F with
    | zero =>
      rw [hn] at ho
      cases ho
    | succ n =>
      rw [hn, parseList] at ho
      cases ho
      rw [length_slice]
      omega

theorem executed_addresses {val : Bytes → Except PyErr Val} {objs : List (Nat × Bytes)}
    (h : ∀ o ∈ objs, ∃ v, val o.2 = .ok v) : (executed val objs).map Prod.snd = objs.map Prod.fst := by
  induction objs with
  | nil => rfl
  | cons o objs ih =>
    obtain ⟨v, hv⟩ := h o List.mem_cons_self
    rw [executed, hv]
    dsimp only
    rw [List.map_cons, List.map_cons, ih fun o' ho' => h o' (List.mem_cons_of_mem o ho')]

theorem executed_nil {val : Bytes → Except PyErr Val} {objs : List (Nat × Bytes)} :
    executed val objs = [] ↔ ∀ o rest, objs = o :: rest → ¬ ∃ v, val o.2 = .ok v := by
  cases objs with
  | nil => exact iff_of_true rfl fun o rest h => by cases h
  | cons o objs =>
    rw [executed]
    cases hv : val o.2 with
    | error e =>
      refine iff_of_true rfl fun o' rest h hr => ?_
      cases h
      obtain ⟨v, hr⟩ := hr
      rw [hv] at hr
      cases hr
    | ok v => exact iff_of_false (fun h => by cases h) fun h => h o objs rfl ⟨v, hv⟩

theorem obey_store {val : Bytes → Except PyErr Val} {objs : List (Nat × Bytes)} (h : executed val objs = []) :
    (obey cb val f objs c).2.store = c.store := by
  cases objs with
  | nil => exact confirm_store f c
  | cons o objs =>
    cases hv : val o.2 with
    | error e => rw [obey, runCommands, hv]
    | ok v =>
      rw [executed, hv] at h
      cases h

theorem complete_iff (h : 12 ≤ f.length) :
    complete (f.drop 6) = true ↔ wanted f[6].toNat f[7].toNat ≤ (f.drop 6).length := by
  obtain ⟨t, vsq, rest, hd, -⟩ := long_asdu h
  have ht : f[6] = t := by
    have h0 : (f.drop 6)[0]? = some t := by rw [hd]; rfl
    rw [List.getElem?_drop, List.getElem?_eq_getElem (by omega)] at h0
    exact Option.some.inj h0
  have hv : f[7] = vsq := by
    have h1 : (f.drop 6)[1]? = some vsq := by rw [hd]; rfl
    rw [List.getElem?_drop, List.getElem?_eq_getElem (by omega)] at h1
    exact Option.some.inj h1
  rw [hd, complete, decide_eq_true_eq, ht, hv]
  rfl

theorem Confirms.length_le {st : ClientState} {resp : Bytes} (h : Confirms st f resp) : f.length ≤ 257 := by
  obtain ⟨-, l, -, hl⟩ := h.frame
  have hlt := l.toNat_lt
  have hlen := congrArg List.length h.asdu
  rw [List.length_set, List.length_drop, List.length_drop] at hlen
  omega

/-- A command that raises no error has all its values. -/
theorem obey_reads {val : Bytes → Except PyErr Val} {objs : List (Nat × Bytes)} {r : Option Bytes}
    (h : (obey cb val f objs c).1 = .ok r) : ∀ o ∈ objs, ∃ v, val o.2 = .ok v := by
  rw [← runCommands_ok cb val objs c]
  unfold obey at h
  split at h
  · cases h
  · rename_i c₁ hr
    rw [hr]

/-- A command is obeyed whole and confirmed, or not at all, exactly if all its objects are
    there, or none is announced, or not even the first is there. -/
theorem all_or_nothing (hcb : cb.onCommand.isSome = true) (now : Datetime) (hc : c.st.Counters)
    (h12 : 12 ≤ f.length) (ht : isCommand f[6].toNat = true) (hca : (leNat (slice f 10 12) : Int) = c.st.ca) :
    AllDone cb now f c ∨ NothingDone cb now f c ↔
      complete (f.drop 6) = true ∧ f.length ≤ 257 ∨ announced f = 0 ∨ f.length < 15 + valSize f[6].toNat := by
  have hcalls := calls_command hcb now h12 ht hca
  have hrun := handleIFrame_command cb now h12 ht hca
  have h6 : ((f[6]?).getD 0).toNat = f[6].toNat := by rw [List.getElem?_eq_getElem (by omega)]; rfl
  have h7 : ((f[7]?).getD 0).toNat = f[7].toNat := by rw [List.getElem?_eq_getElem (by omega)]; rfl
  have hlen : (f.drop 6).length = f.length - 6 := List.length_drop
  rcases parseObjs_spec f[6].toNat f[7].toNat (show 6 ≤ (f.drop 6).length by omega) with
    ⟨objs, ho, -, hfull⟩ | ⟨he, -, h9⟩
  · rw [ho] at hcalls hrun
    dsimp only at hcalls hrun
    obtain ⟨hcount, hfirst⟩ := parseObjs_first ho
    have hwhole : complete (f.drop 6) = true ↔ ∀ o ∈ objs, ∃ v, commandVal f[6].toNat o.2 = .ok v := by
      rw [complete_iff h12, ← hfull]
      exact forall₂_congr fun o _ => (commandVal_ok ht o.2).symm
    have hnil : calls cb now f c = [] ↔ announced f = 0 ∨ f.length < 15 + valSize f[6].toNat := by
      rw [hcalls, executed_nil, announced, h7, ← hcount]
      cases hobjs : objs with
      | nil => exact iff_of_true (fun o rest h => by cases h) (.inl rfl)
      | cons o rest =>
        have hf := hfirst o rest hobjs
        constructor
        · intro h
          have hno := h o rest rfl
          rw [commandVal_ok ht] at hno
          exact .inr (by omega)
        · intro h o' rest' ho'
          cases ho'
          rw [commandVal_ok ht]
          rcases h with h | h
          · cases h
          · omega
    constructor
    · intro h
      rcases h with ⟨objs', ho', -, -, resp, hresp, hconf⟩ | ⟨hno, -⟩
      · rw [hrun] at hresp
        exact .inl ⟨hwhole.mpr (obey_reads hresp), hconf.length_le⟩
      · exact .inr (hnil.mp hno)
    · intro h
      rcases h with ⟨hw, h257⟩ | h
      · have hread := hwhole.mp hw
        refine .inl ⟨objs, by rw [h6, h7]; exact ho, by rw [hcount, announced, h7], ?_, _, ?_, confirms h12 h257 hc⟩
        · rw [hcalls]
          exact executed_addresses hread
        · rw [hrun]
          have hresp := (obey_ok cb (c.received (nS f) (nR f)) h12 h257
            (Ctx.received_counters hc _ _) hread).1
          rw [Ctx.received_st] at hresp
          exact hresp
      · have hno := hnil.mpr h
        refine .inr ⟨hno, ?_⟩
        rw [hcalls] at hno
        rw [hrun, obey_store hno, Ctx.received_store]
  · rw [he] at hcalls hrun
    refine iff_of_true (.inr ⟨hcalls, ?_⟩) (.inr (.inr (by have := one_le_valSize f[6].toNat; omega)))
    rw [hrun]
    exact Ctx.received_store ..

def cutSwitches : Bytes := [0x68, 0x0E, 0x00, 0x00, 0x00, 0x00, 45, 0x02, 0x06, 0x00, 0x01, 0x00, 100, 0, 0, 0x01]

theorem all_or_nothing_whole :
    let f := commandFrame [0x68, 0x10, 0x00, 0x00, 0x00, 0x00] 45 0x06 0x00 1 sampleSwitches []
    AllDone obedient sampleTime f freshConn ∨ NothingDone obedient sampleTime f freshConn ↔
      complete (f.drop 6) = true ∧ f.length ≤ 257 ∨ announced f = 0 ∨ f.length < 15 + valSize 45 :=
  all_or_nothing rfl sampleTime (createClientState_counters kp1Conf 1) (by decide) rfl rfl

/-- The first switch is thrown, and then the handler raises. -/
theorem cutSwitches_half : calls obedient sampleTime cutSwitches freshConn = [(.int 1, 100)] ∧
    (handleIFrame obedient sampleTime cutSwitches freshConn).1 = .error .indexError ∧
    ¬ (AllDone obedient sampleTime cutSwitches freshConn ∨ NothingDone obedient sampleTime cutSwitches freshConn) := by
  have hcalls : calls obedient sampleTime cutSwitches freshConn = [(.int 1, 100)] := by decide
  have hraise : (handleIFrame obedient sampleTime cutSwitches freshConn).1 = .error .indexError := by decide
  refine ⟨hcalls, hraise, fun h => ?_⟩
  rcases h with ⟨objs, -, -, -, resp, hresp, -⟩ | ⟨hno, -⟩
  · rw [hraise] at hresp
    cases hresp
  · rw [hcalls] at hno
    cases hno

end Drv60870.Protocol
