/-
  Drv60870.Server.Content — what the frames of a connection contain.

  Every I-frame of the connection is one of two kinds. `client_send` writes a batch, built at
  the connection's address; `client_rec` sends back the ASDU of an I-frame it has taken, with
  another cause.

  Proved:
  - Each I-frame written is of one of these kinds (`content_step`, `content_start`).
  - A batch of one type and cause decodes to the images of its events, one tuple an event and
    in order (`decode_batch`), the time cut to milliseconds where the type has one.
-/

import Mathlib.Data.List.Forall2
import Drv60870.Server.Frames
import Drv60870.Server.Packed

namespace Drv60870.Server

open Lib.Octets Lib.Calendar Lib.Python Lib.Runs Drv60870.Const Protocol Conn

variable {σ : Type} {cb : Callbacks σ}

structure BuiltFor (ca : Int) (batch : List IecEvent) (f : Bytes) : Prop where
  fits : ∃ event rest, batch = event :: rest ∧ (SendPc.ready event rest).fits
  built : ∃ st : ClientState, st.ca = ca ∧ buildIFrame st batch = .ok (some f)

def Echoes (pre : List Obs) (f : Bytes) : Prop := ∃ g ∈ taken pre, numberedI g = true ∧ f.drop 6 = ackAsdu g

def Contains (ca : Int) (pre : List Obs) : Obs → Prop
  | .sent batch f => (batch = [] ∧ f = testfrAct) ∨ BuiltFor ca batch f
  | .reply f => isI f = true → Echoes pre f
  | _ => True

theorem Echoes.append {pre : List Obs} {f : Bytes} (h : Echoes pre f) (os : List Obs) : Echoes (pre ++ os) f := by
  obtain ⟨g, hg, hn, he⟩ := h
  refine ⟨g, ?_, hn, he⟩
  rw [taken_append]
  exact List.mem_append_left _ hg

structure Content (ca : Int) (s : Conn σ) : Prop where
  address : s.st.ca = ca
  fits : s.sender.fits
  reply : ∀ t f puts, s.receiver = .handling (some (t, some f)) puts → isI f = true → Echoes s.log f
  wrote : Always (Contains ca) s.log

theorem Content.same {ca : Int} {s s' : Conn σ} (h : Content ca s) (hf : s'.sender.fits) (hst : s'.st.ca = s.st.ca)
    (hlog : s'.log = s.log) (hr : ∀ t f puts, s'.receiver = .handling (some (t, some f)) puts →
      ∃ puts', s.receiver = .handling (some (t, some f)) puts') : Content ca s' := by
  refine ⟨by rw [hst]; exact h.address, hf, fun t f puts he hI => ?_, by rw [hlog]; exact h.wrote⟩
  obtain ⟨puts', he'⟩ := hr t f puts he
  rw [hlog]
  exact h.reply t f puts' he' hI

theorem Content.note {ca : Int} {s s' : Conn σ} {o : Obs} (h : Content ca s) (hf : s'.sender.fits)
    (hst : s'.st.ca = s.st.ca) (hlog : s'.log = s.log ++ [o]) (ho : Contains ca s.log o)
    (hr : ∀ t f puts, s'.receiver = .handling (some (t, some f)) puts → isI f = true →
      Echoes (s.log ++ [o]) f) : Content ca s' := by
  refine ⟨by rw [hst]; exact h.address, hf, fun t f puts he hI => ?_, ?_⟩
  · rw [hlog]
    exact hr t f puts he hI
  · rw [hlog]
    exact always_snoc.mpr ⟨h.wrote, ho⟩

theorem noted_ca (f : Bytes) (st : ClientState) : (noted f st).ca = st.ca := rfl

theorem content_step {ca : Int} {s s' : Conn σ} {a : Act σ} (h : Content ca s) (hstep : step cb s a = some s') :
    Content ca s' := by
  have hf := fits_step h.fits hstep
  cases step_move hstep with
  | put event =>
    exact h.note hf rfl rfl trivial fun t f puts he hI => (h.reply t f puts he hI).append _
  | store | stop | timeout | get | discard | enable | block | pass | putBack | pack | miss | packed | putBackNext
  | unsupported | ended | keep => exact h.same hf rfl rfl fun t f puts he => ⟨puts, he⟩
  | write c event rest packet hpc hl hb =>
    refine h.note hf rfl rfl (.inr ⟨⟨event, rest, rfl, ?_⟩, s.st, h.address, hb⟩) fun t f puts he hI =>
      (h.reply t f puts he hI).append _
    have hfits := h.fits
    rw [hpc] at hfits
    exact hfits
  | testfr c hpc =>
    exact h.note hf rfl rfl (.inl ⟨rfl, rfl⟩) fun t f puts he hI => (h.reply t f puts he hI).append _
  | answer frame now store puts hfree hframe hn ha =>
    refine h.note hf (noted_ca frame s.st) rfl trivial fun t f puts' he hI => ?_
    cases he
    exact ⟨frame, by simp [taken, Obs.taken], hn, drop_iFrame _ _ _⟩
  | take frame now store puts result hfree hframe hq =>
    refine h.note hf (noted_ca frame s.st) rfl trivial fun t f puts' he hI => ?_
    cases he
    have hU := hq.response.2.2.1
    rw [(only_U hU).1] at hI
    cases hI
  | handlerPut result event puts hr =>
    refine h.note hf rfl rfl trivial fun t f puts' he hI => ?_
    cases he
    exact (h.reply t f _ hr hI).append _
  | raised result hr => exact h.same hf rfl rfl fun t f puts he => by cases he
  | reply fType response hr =>
    exact h.note hf rfl rfl (h.reply fType response [] hr) fun t f puts he => by cases he
  | sFrame hr =>
    refine h.note hf rfl rfl (fun hI => ?_) fun t f puts he => by cases he
    rw [isI_sFrame] at hI
    cases hI
  | counted hr | done fType hr | close hr => exact h.same hf rfl rfl fun t f puts he => by cases he

theorem content_start (st : ClientState) (store : σ) (que : List IecEvent) : Content st.ca (start st store que) :=
  ⟨rfl, trivial, fun t f puts he => (by cases he), always_puts (fun _ _ => trivial) que⟩

/-! ## Batches -/

/-- The decoder's tuple for an event sent from the station at `ca`. -/
def EventImage (ca : Int) (ev : IecEvent) (o : Obj) : Prop := Decoded ev.asdu ev.cot ca ev o

/-- A batch of one type and cause that was built decodes to one tuple per event, in order. -/
theorem decode_batch {ca : Int} {batch : List IecEvent} {f : Bytes} (h : BuiltFor ca batch f)
    (hy : ∀ ev ∈ batch, inCentury ev) :
    ∃ objs, decodeIFrameObjects f = .ok objs ∧ List.Forall₂ (EventImage ca) batch objs := by
  obtain ⟨⟨event, rest, rfl, hfits⟩, st, rfl, hb⟩ := h
  have hall := fits_ready hfits
  obtain ⟨hcot0, hcot⟩ := buildIFrame_cot hb
  obtain ⟨hca0, hca⟩ := buildIFrame_ca hb
  obtain ⟨ev, parts, hev, hparts, -, rfl⟩ := buildIFrame_some hb
  cases hev
  obtain ⟨b, _, hobj, -, -⟩ := encObjs_cons hparts
  obtain ⟨d, hd, -, -, -⟩ := encObj_some hobj
  have hsize := (encVal_some hd).1
  have hpre : (asduBytes st event.asdu event.cot (event :: rest).length []).length = 6 := length_asduBytes _ _ _ _ _
  have happ : asduBytes st event.asdu event.cot (event :: rest).length [] ++ parts =
      asduBytes st event.asdu event.cot (event :: rest).length parts := by
    simp only [asduBytes, List.append_assoc, List.nil_append]
  obtain ⟨objs, hobjs, himg⟩ := decList_encObjs event.cot.toNat st.ca.toNat hsize (event :: rest)
    (asduBytes st event.asdu event.cot (event :: rest).length []) parts hparts hy
  rw [happ, hpre] at hobjs
  rw [Int.toNat_of_nonneg hcot0, Int.toNat_of_nonneg hca0] at himg
  refine ⟨objs, decode_asduBytes (typeId_octet hsize) (Nat.le_trans hfits.2 (maxObj_le _)) ⟨hcot0, by omega⟩
    ⟨hca0, by omega⟩ hsize (drop_iFrame _ _ _) hobjs, ?_⟩
  refine ((List.forall₂_and_left _ _).mpr ⟨hall, himg⟩).imp fun ev o hev => ?_
  obtain ⟨⟨hasdu, hcot⟩, hdec⟩ := hev
  rw [EventImage, hasdu, hcot]
  exact hdec

end Drv60870.Server
