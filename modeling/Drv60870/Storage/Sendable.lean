/-
  Drv60870.Storage.Sendable — which updates the encoder can send.

  Values enter the storage by the console (`set`, `setioa`) and by a peer's commands;
  none of these ways knows the signal's type. What is produced from a storage are the events that
  calls of `update_val` publish, and those an interrogation between them reads (`Produced`).

  Proved:
  - A batch of produced events never makes `build_i_frame` raise exactly when every signal's
    address fits and every update that is written fits its signal's type
    (`never_raises_iff`). A new signal's zero fits every type (`zero_fits`).
  - `set 40000 1` stores a value that no normalized value can carry (`a_stored_value_raises`).
-/

import Mathlib.Data.List.Induction
import Drv60870.Protocol.Ranges
import Drv60870.Protocol.Reports
import Drv60870.Storage.Signals

namespace Drv60870.Storage

open Lib Lib.Octets Lib.Calendar Lib.Ieee Lib.Python Drv60870.Const Protocol

variable {C Q : Type}

/-! ## The ways in -/

inductive Call where
  /-- `_cmd_set` -/
  | set (value : F64) (id q : Int) (iv : Bool)
  /-- `_cmd_setioa` -/
  | setioa (value : F64) (ioa : Int)
  /-- A single command (C_SC_NA_1). -/
  | single (on : Bool) (ioa : Nat)
  /-- A setpoint command (C_SE_NC_1). -/
  | setpoint (value : Datum binary32) (ioa : Nat)

def Call.update : Call → Update Val
  | .set value id q iv => { val := .float value, id := some id, q, iv }
  | .setioa value ioa => { val := .float value, ioa := some ioa }
  | .single on ioa => { val := .int (if on then 1 else 0), ioa := some (ioa : Int) }
  | .setpoint value ioa => { val := .float (convert binary64 value), ioa := some (ioa : Int) }

theorem Call.one_key (c : Call) : c.update.id.isSome ≠ c.update.ioa.isSome := by cases c <;> simp [Call.update]

/-- What the command loop passes on is the value of one of these calls. -/
theorem singleVal_call {data : Bytes} {v : Val} (h : singleVal data = .ok v) (ioa : Nat) :
    ∃ on, v = (Call.single on ioa).update.val := by
  obtain ⟨d, -, h⟩ := bind_eq_ok.mp h
  cases ok_inj h
  rcases Nat.mod_two_eq_zero_or_one d.toNat with h0 | h1
  · exact ⟨false, by simp [Call.update, Nat.and_one_is_mod, h0]⟩
  · exact ⟨true, by simp [Call.update, Nat.and_one_is_mod, h1]⟩

theorem setpointVal_call {data : Bytes} {v : Val} (h : setpointVal data = .ok v) (ioa : Nat) :
    ∃ x, v = (Call.setpoint x ioa).update.val := by
  unfold setpointVal at h
  dsimp only at h
  split at h
  · obtain ⟨x, hx, h⟩ := bind_eq_ok.mp h
    cases ok_inj h
    unfold unpackF at hx
    split at hx
    · cases hx
      exact ⟨_, rfl⟩
    · cases hx
  · cases h

/-! ## A signal table and its history -/

structure Row where
  id : Int
  ioa : Int
  asdu : Int
  threshold : Option F64

def load (now : Datetime) (rows : List Row) : Signals C Q :=
  rows.foldl (fun s r => (s.addSignal now r.id r.ioa r.asdu r.threshold).2) .empty

def apply (s : Signals C Q) (x : Datetime × Call) : Signals C Q :=
  match s.commit x.1 x.2.update with
  | .ok c => c.storage
  | .error _ => s

def after (s : Signals C Q) (calls : List (Datetime × Call)) : Signals C Q := calls.foldl apply s

def published (s : Signals C Q) (x : Datetime × Call) : List IecEvent :=
  match s.commit x.1 x.2.update with
  | .ok c => (c.event.map Event.iec).toList
  | .error _ => []

/-- The event was published by one of the calls, or an interrogation between them reads it. -/
def Produced (s : Signals C Q) (calls : List (Datetime × Call)) (ev : IecEvent) : Prop :=
  ∃ pre post, calls = pre ++ post ∧
    (ev ∈ (after s pre).getAllForGi.map Event.iec ∨ ∃ x rest, post = x :: rest ∧ ev ∈ published (after s pre) x)

def NeverRaises (st : ClientState) (s : Signals C Q) (calls : List (Datetime × Call)) : Prop :=
  ∀ batch, Uniform batch → WithinLimit batch → (∀ ev ∈ batch, Produced s calls ev) →
    ∀ e, buildIFrame st batch ≠ .error e

/-! ## The condition -/

def Addressable (st : ClientState) (s : Signals C Q) : Prop :=
  ∀ sg ∈ s.signals.values, supported sg.asdu = true →
    (0 ≤ st.ca ∧ st.ca < 65536) ∧ 0 ≤ sg.ioa ∧ sg.ioa < 16777216

def UpdatesFit (s : Signals C Q) (calls : List (Datetime × Call)) : Prop :=
  ∀ pre x post, calls = pre ++ x :: post → ∀ id sg, (after s pre).find x.2.update = some (id, sg) →
    sg.takes x.2.update = true → fits sg.asdu x.2.update.val x.2.update.q = true

/-! ## The invariant -/

def StoredFits (st : ClientState) (s : Signals C Q) : Prop :=
  ∀ sg ∈ s.signals.values, fits sg.asdu sg.val sg.q = true ∧
    (supported sg.asdu = true → (0 ≤ st.ca ∧ st.ca < 65536) ∧ 0 ≤ sg.ioa ∧ sg.ioa < 16777216)

/-- The value of a new signal fits every type. -/
theorem zero_fits (t : Int) : fits t (Deadband.zero : Val) 0 = true := by
  have h : finite (Deadband.zero : Val) = true ∧ inSingle (Deadband.zero : Val) = true ∧
      intIn (-128) 127 (Deadband.zero : Val) = true ∧ intIn 0 4294967295 (Deadband.zero : Val) = true ∧
      intIn (-32768) 32767 (Deadband.zero : Val) = true ∧
      intIn (-2147483648) 2147483647 (Deadband.zero : Val) = true := by decide +kernel
  simp [fits, h, isOctet]

theorem load_initial (now : Datetime) (rows : List Row) :
    ∀ sg ∈ (load now rows : Signals C Q).signals.values, sg.val = Deadband.zero ∧ sg.q = 0 := by
  have hfold : ∀ (rows : List Row) (s : Signals C Q),
      (∀ sg ∈ s.signals.values, sg.val = Deadband.zero ∧ sg.q = 0) →
      ∀ sg ∈ (rows.foldl (fun s r => (s.addSignal now r.id r.ioa r.asdu r.threshold).2) s).signals.values,
        sg.val = Deadband.zero ∧ sg.q = 0 := by
    intro rows
    induction rows with
    | nil => intro s h; exact h
    | cons r rows ih =>
      intro s h
      apply ih
      intro sg hsg
      rw [DataStorage.addSignal_signals] at hsg
      rcases Dict.mem_values_set hsg with rfl | hsg
      · exact ⟨rfl, rfl⟩
      · exact h sg hsg
  exact hfold rows .empty fun sg hsg => by cases hsg

/-- A call writes one signal and publishes it, or does nothing. -/
theorem apply_cases (s : Signals C Q) (x : Datetime × Call) :
    (apply s x = s ∧ published s x = []) ∨
      ∃ id sg, s.find x.2.update = some (id, sg) ∧ sg.takes x.2.update = true ∧
        apply s x = s.write x.1 x.2.update id sg ∧
        published s x = ((DataStorage.announce x.1 x.2.update id sg).map Event.iec).toList := by
  unfold apply published
  cases hc : s.commit x.1 x.2.update with
  | error e => exact .inl ⟨rfl, rfl⟩
  | ok c =>
    rcases DataStorage.commit_ok hc with ⟨rfl, -⟩ | ⟨id, sg, hf, ht, rfl⟩
    · exact .inl ⟨rfl, rfl⟩
    · exact .inr ⟨id, sg, hf, ht, rfl, rfl⟩

theorem storedFits_apply {st : ClientState} {s : Signals C Q} {x : Datetime × Call} (h : StoredFits st s)
    (hfit : ∀ id sg, s.find x.2.update = some (id, sg) → sg.takes x.2.update = true →
      fits sg.asdu x.2.update.val x.2.update.q = true) : StoredFits st (apply s x) := by
  rcases apply_cases s x with ⟨he, -⟩ | ⟨id, sg, hf, ht, he, -⟩
  · rw [he]
    exact h
  · rw [he]
    intro sg' hsg'
    rcases Dict.mem_values_set hsg' with rfl | hsg'
    · exact ⟨hfit id sg hf ht, (h sg (Dict.mem_values.mpr ⟨id, DataStorage.find_get hf⟩)).2⟩
    · exact h sg' hsg'

theorem after_snoc (s : Signals C Q) (calls : List (Datetime × Call)) (x : Datetime × Call) :
    after s (calls ++ [x]) = apply (after s calls) x := by
  rw [after, List.foldl_append]
  rfl

theorem UpdatesFit.prefix {s : Signals C Q} {pre post : List (Datetime × Call)} (h : UpdatesFit s (pre ++ post)) :
    UpdatesFit s pre :=
  fun p x q he => h p x (q ++ post) (by rw [he, List.append_assoc, List.cons_append])

theorem storedFits_after {st : ClientState} {s : Signals C Q} {calls : List (Datetime × Call)}
    (h : StoredFits st s) (hfit : UpdatesFit s calls) : StoredFits st (after s calls) := by
  induction calls using List.reverseRecOn with
  | nil => exact h
  | append_singleton calls x ih =>
    rw [after_snoc]
    exact storedFits_apply (ih hfit.prefix) fun id sg hf ht => hfit calls x [] rfl id sg hf ht

/-- Whatever is produced fits, and bears a cause of the driver's. -/
theorem produced_fits {st : ClientState} {s : Signals C Q} {calls : List (Datetime × Call)} (h : StoredFits st s)
    (hfit : UpdatesFit s calls) {ev : IecEvent} (hev : Produced s calls ev) :
    (fits ev.asdu ev.val ev.q = true ∧
      (supported ev.asdu = true → (0 ≤ st.ca ∧ st.ca < 65536) ∧ 0 ≤ ev.ioa ∧ ev.ioa < 16777216)) ∧
      0 ≤ ev.cot ∧ ev.cot < 65536 := by
  obtain ⟨pre, post, rfl, hev⟩ := hev
  have hpre := storedFits_after h hfit.prefix
  rcases hev with hev | ⟨x, rest, rfl, hev⟩
  · obtain ⟨e, he, rfl⟩ := List.mem_map.mp hev
    obtain ⟨sg, hsg, rfl⟩ := List.mem_map.mp he
    exact ⟨hpre sg hsg, by simp [Event.iec, SignalConf.event], by simp [Event.iec, SignalConf.event]⟩
  · rcases apply_cases (after s pre) x with ⟨-, hp⟩ | ⟨id, sg, hf, ht, -, hp⟩
    · rw [hp] at hev
      cases hev
    · rw [hp, DataStorage.announce] at hev
      split at hev
      · cases hev
      · cases List.mem_singleton.mp hev
        exact ⟨⟨hfit pre x rest rfl id sg hf ht,
          (hpre sg (Dict.mem_values.mpr ⟨id, DataStorage.find_get hf⟩)).2⟩,
          by simp [Event.iec, SignalConf.event], by simp [Event.iec, SignalConf.event]⟩

/-- What an interrogation reads can be sent alone. -/
theorem sendable_of_neverRaises {st : ClientState} {s : Signals C Q} (pre post : List (Datetime × Call))
    (h : NeverRaises st s (pre ++ post)) {sg : SignalConf Val F64} (hsg : sg ∈ (after s pre).signals.values) :
    Sendable (sg.event 20).iec ∧ (supported sg.asdu = true → 0 ≤ st.ca ∧ st.ca < 65536) := by
  have hprod : Produced s (pre ++ post) (sg.event 20).iec :=
    ⟨pre, post, rfl, .inl (List.mem_map.mpr ⟨_, List.mem_map.mpr ⟨sg, hsg, rfl⟩, rfl⟩)⟩
  apply buildIFrame_single
  cases hb : buildIFrame st [(sg.event 20).iec] with
  | ok o => exact ⟨o, rfl⟩
  | error e =>
    refine absurd hb (h [(sg.event 20).iec] ?_ ?_ ?_ e)
    · intro a ha b hb
      rw [List.mem_singleton.mp ha, List.mem_singleton.mp hb]
      exact ⟨rfl, rfl⟩
    · intro ev _
      exact one_le_maxObj _
    · intro ev hev
      rw [List.mem_singleton.mp hev]
      exact hprod

/-- For every signal table and every sequence of calls. -/
theorem never_raises_iff (st : ClientState) (hc : st.Counters) (now : Datetime) (rows : List Row)
    (calls : List (Datetime × Call)) :
    NeverRaises st (load now rows : Signals C Q) calls ↔
      Addressable st (load now rows : Signals C Q) ∧ UpdatesFit (load now rows : Signals C Q) calls := by
  constructor
  · intro h
    refine ⟨fun sg hsg hsup => ?_, fun pre x post he id sg hf ht => ?_⟩
    · obtain ⟨hs, hca⟩ := sendable_of_neverRaises [] calls h hsg
      have ha : addressed sg.asdu sg.ioa = true := (sendable_iff.mp hs).2
      rw [addressed, hsup] at ha
      exact ⟨hca hsup, by simpa using ha⟩
    · subst he
      rw [List.append_cons] at h
      -- the signal as the update has written it
      have hsg : sg.written x.1 x.2.update ∈ (after (load now rows) (pre ++ [x]) : Signals C Q).signals.values := by
        rw [after_snoc, apply, DataStorage.commit_takes x.1 x.2.one_key hf ht]
        exact Dict.mem_values.mpr ⟨id, Dict.get_set_self _ _ _⟩
      exact (sendable_iff.mp (sendable_of_neverRaises (pre ++ [x]) post h hsg).1).1
  · intro h batch hu hl hprod e he
    obtain ⟨haddr, hfit⟩ := h
    have h0 : StoredFits st (load now rows : Signals C Q) := by
      intro sg hsg
      obtain ⟨hv, hq⟩ := load_initial now rows sg hsg
      refine ⟨?_, haddr sg hsg⟩
      rw [hv, hq]
      exact zero_fits sg.asdu
    have hall : ∀ ev ∈ batch, _ := fun ev hev => produced_fits h0 hfit (hprod ev hev)
    cases batch with
    | nil => cases he
    | cons ev evs =>
      have hev := hall ev List.mem_cons_self
      cases hsup : supported ev.asdu with
      | false =>
        rw [buildIFrame_refused st evs hsup] at he
        cases he
      | true =>
        obtain ⟨o, ho⟩ := buildIFrame_total hc (hev.1.2 hsup).1 hev.2
          (fun e he => (hu e (List.mem_cons_of_mem _ he) ev List.mem_cons_self).1)
          (fun e he => sendable_iff.mpr ⟨(hall e he).1.1, by
            cases hs : supported e.asdu with
            | false => simp [addressed, hs]
            | true => simpa [addressed, hs] using ((hall e he).1.2 hs).2⟩)
          (hl ev List.mem_cons_self)
        rw [ho] at he
        cases he

def normalizedTable : Signals Unit Unit := load sampleTime [⟨1, 45, 9, none⟩]

/-- `set 40000 1`: the value is stored, and no normalized value can carry it. -/
theorem a_stored_value_raises :
    ¬ ∀ rows calls, NeverRaises (createClientState kp1Conf 1) (load sampleTime rows : Signals Unit Unit) calls := by
  intro hall
  have hfits : ∀ sg ∈ (after normalizedTable [(sampleTime, .set (ofInt binary64 40000) 1 0 false)]).signals.values,
      fits sg.asdu sg.val sg.q = true := by
    intro sg hsg
    exact (sendable_iff.mp (sendable_of_neverRaises _ [] (hall [⟨1, 45, 9, none⟩] _) hsg).1).1
  exact absurd hfits (by decide +kernel)

theorem never_raises_iff_normalized :
    NeverRaises (createClientState kp1Conf 1) normalizedTable [(sampleTime, .set (ofInt binary64 400) 1 0 false)] := by
  refine (never_raises_iff _ (createClientState_counters _ _) sampleTime _ _).mpr ⟨?_, ?_⟩
  · have haddr : ∀ sg ∈ normalizedTable.signals.values, 0 ≤ sg.ioa ∧ sg.ioa < 16777216 := by decide +kernel
    exact fun sg hsg _ => ⟨by decide, haddr sg hsg⟩
  · intro pre x post he id sg hf _
    cases pre with
    | nil =>
      cases he
      have hnine : (normalizedTable.find (Call.set (ofInt binary64 400) 1 0 false).update).map (fun p => p.2.asdu) =
          some 9 := by decide +kernel
      have hasdu : sg.asdu = 9 := by
        rw [show normalizedTable.find _ = some (id, sg) from hf] at hnine
        exact Option.some.inj hnine
      rw [hasdu]
      decide +kernel
    | cons y pre => simp at he

end Drv60870.Storage
