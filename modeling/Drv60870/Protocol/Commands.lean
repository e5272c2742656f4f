/-
  Drv60870.Protocol.Commands — handlers on another store, and the `on_command` calls a
  frame causes.

  A map of stores and events that the callbacks respect (`Image`) may be taken before a frame is
  handled or after it. `Callbacks.recorded` writes each call down beside the store, and
  forgetting the record is such a map.

  Proved:
  - Such a map commutes with every handler (`procFrame_map`).
  - The record is kept beside the run and changes nothing in it (`procFrame_recorded`), so
    `commands` are the calls that handling a frame makes.
-/

import Drv60870.Protocol.HandlersProofs

namespace Drv60870.Protocol

open Lib.Octets Lib.Calendar Lib.Python Drv60870.Const

variable {σ τ : Type} {cb : Callbacks σ} {cb' : Callbacks τ} {φ : σ → τ} {ψ : IecEvent → IecEvent}
  {now now' : Datetime} {f : Bytes}

/-! ## Maps of stores -/

/-- `cb'` does to the images what `cb` does. -/
structure Image (φ : σ → τ) (ψ : IecEvent → IecEvent) (cb : Callbacks σ) (cb' : Callbacks τ) : Prop where
  onCommand : (cb.onCommand = none ∧ cb'.onCommand = none) ∨
    ∃ g g', cb.onCommand = some g ∧ cb'.onCommand = some g' ∧ ∀ val ioa s,
      g' val ioa (φ s) = ((g val ioa s).1, (g val ioa s).2.1.map ψ, φ (g val ioa s).2.2)
  onGi : (cb.onGi = none ∧ cb'.onGi = none) ∨
    ∃ g g', cb.onGi = some g ∧ cb'.onGi = some g' ∧ ∀ s, g' (φ s) = (g s).map ψ
  asdu : ∀ ev, (ψ ev).asdu = ev.asdu

def Ctx.map (φ : σ → τ) (ψ : IecEvent → IecEvent) (c : Ctx σ) : Ctx τ := ⟨c.st, φ c.store, c.puts.map ψ, c.logs⟩

@[simp] theorem Ctx.map_st (c : Ctx σ) : (c.map φ ψ).st = c.st := rfl
@[simp] theorem Ctx.map_store (c : Ctx σ) : (c.map φ ψ).store = φ c.store := rfl
@[simp] theorem Ctx.map_log (c : Ctx σ) (r : LogRec) : (c.map φ ψ).log r = (c.log r).map φ ψ := rfl

theorem Ctx.map_put (c : Ctx σ) (evs : List IecEvent) : (c.map φ ψ).put (evs.map ψ) = (c.put evs).map φ ψ := by
  simp [Ctx.put, Ctx.map]

theorem Ctx.map_received (c : Ctx σ) (nS nR : Nat) : (c.map φ ψ).received nS nR = (c.received nS nR).map φ ψ := by
  unfold Ctx.received
  by_cases h : nS = c.st.recSq
  · simp [Ctx.map, h]
  · simp [Ctx.map, Ctx.log, h]

theorem Ctx.map_command (h : Image φ ψ cb cb') (c : Ctx σ) (val : Val) (ioa : Nat) :
    (c.map φ ψ).command cb' val ioa = (c.command cb val ioa).map φ ψ := by
  unfold Ctx.command
  rcases h.onCommand with ⟨hn, hn'⟩ | ⟨g, g', hg, hg', hgg⟩
  · rw [hn, hn']
  · rw [hg, hg']
    dsimp only
    rw [Ctx.map_store, hgg]
    by_cases hs : (g val ioa c.store).1 = true
    · simp [Ctx.map, Ctx.put, hs]
    · simp [Ctx.map, Ctx.put, Ctx.log, hs]

theorem runCommands_map (h : Image φ ψ cb cb') (val : Bytes → Except PyErr Val) (objs : List (Nat × Bytes))
    (c : Ctx σ) : runCommands cb' val objs (c.map φ ψ) =
      ((runCommands cb val objs c).1, (runCommands cb val objs c).2.map φ ψ) := by
  induction objs generalizing c with
  | nil => rfl
  | cons o objs ih =>
    rw [runCommands, runCommands]
    cases val o.2 with
    | error e => rfl
    | ok v =>
      dsimp only
      rw [Ctx.map_command h]
      exact ih _

theorem confirm_map (c : Ctx σ) : confirm f (c.map φ ψ) = ((confirm f c).1, (confirm f c).2.map φ ψ) := by
  unfold confirm
  rw [Ctx.map_st]
  cases buildIFrameAck c.st f COT.activationCon <;> rfl

theorem obey_map (h : Image φ ψ cb cb') (val : Bytes → Except PyErr Val) (objs : List (Nat × Bytes)) (c : Ctx σ) :
    obey cb' val f objs (c.map φ ψ) = ((obey cb val f objs c).1, (obey cb val f objs c).2.map φ ψ) := by
  unfold obey
  rw [runCommands_map h]
  cases hr : runCommands cb val objs c with
  | mk r c' =>
    cases r with
    | error e => rfl
    | ok u => exact confirm_map c'

theorem giEvents_map (h : Image φ ψ cb cb') (ht : ψ (giTermination now) = giTermination now') (evs : List IecEvent) :
    ((evs.map ψ).filter fun ev => ev.asdu < 45) ++ [giTermination now'] =
      ((evs.filter fun ev => ev.asdu < 45) ++ [giTermination now]).map ψ := by
  have hp : (fun ev : IecEvent => decide (ev.asdu < 45)) ∘ ψ = fun ev => decide (ev.asdu < 45) := by
    funext ev
    simp [h.asdu]
  rw [List.filter_map, hp, List.map_append, List.map_singleton, ht]

theorem dispatch_map (h : Image φ ψ cb cb') (ht : ψ (giTermination now) = giTermination now') (typeId : Nat)
    (objs : List (Nat × Bytes)) (c : Ctx σ) : dispatch cb' now' f typeId objs (c.map φ ψ) =
      ((dispatch cb now f typeId objs c).1, (dispatch cb now f typeId objs c).2.map φ ψ) := by
  unfold dispatch
  split
  · rcases h.onGi with ⟨hn, hn'⟩ | ⟨g, g', hg, hg', hgg⟩
    · rw [hn, hn']
    · rw [hg, hg']
      dsimp only
      rw [Ctx.map_store, hgg, giEvents_map h ht, Ctx.map_put]
      exact confirm_map _
  split
  · exact obey_map h _ _ _
  split
  · exact obey_map h _ _ _
  · rfl

theorem handleObjs_map (h : Image φ ψ cb cb') (ht : ψ (giTermination now) = giTermination now') (asdu : Bytes)
    (typeId vsq : Nat) (c : Ctx σ) : handleObjs cb' now' f asdu typeId vsq (c.map φ ψ) =
      ((handleObjs cb now f asdu typeId vsq c).1, (handleObjs cb now f asdu typeId vsq c).2.map φ ψ) := by
  unfold handleObjs
  cases parseObjs asdu typeId vsq with
  | error e => cases e <;> rfl
  | ok objs => exact dispatch_map h ht _ _ _

theorem handleAsdu_map (h : Image φ ψ cb cb') (ht : ψ (giTermination now) = giTermination now') (asdu : Bytes)
    (c : Ctx σ) : handleAsdu cb' now' f asdu (c.map φ ψ) =
      ((handleAsdu cb now f asdu c).1, (handleAsdu cb now f asdu c).2.map φ ψ) := by
  unfold handleAsdu
  by_cases h6 : 6 ≤ asdu.length
  · simp only [dif_pos h6, Ctx.map_st]
    by_cases hca : (leNat (slice asdu 4 6) : Int) = c.st.ca
    · simp only [hca, ne_eq, not_true_eq_false, false_and, if_false]
      exact handleObjs_map h ht _ _ _ _
    · simp only [hca, ne_eq, not_false_eq_true, true_and, if_true]
      split
      · rfl
      split
      · rfl
      · exact handleObjs_map h ht _ _ _ (c.log _)
  · simp only [dif_neg h6]
    rfl

theorem handleIFrame_map (h : Image φ ψ cb cb') (ht : ψ (giTermination now) = giTermination now') (c : Ctx σ) :
    handleIFrame cb' now' f (c.map φ ψ) =
      ((handleIFrame cb now f c).1, (handleIFrame cb now f c).2.map φ ψ) := by
  unfold handleIFrame
  split
  · rfl
  split
  · rfl
  · rw [Ctx.map_received]
    exact handleAsdu_map h ht _ _

theorem handleSFrame_map (c : Ctx σ) :
    handleSFrame f (c.map φ ψ) = ((handleSFrame f c).1, (handleSFrame f c).2.map φ ψ) := by
  unfold handleSFrame
  split
  · rfl
  split <;> rfl

theorem handleUFrame_map (c : Ctx σ) :
    handleUFrame f (c.map φ ψ) = ((handleUFrame f c).1, (handleUFrame f c).2.map φ ψ) := by
  unfold handleUFrame
  split
  · rfl
  split <;> rfl

theorem procFrame_map (h : Image φ ψ cb cb') (ht : ψ (giTermination now) = giTermination now') (f : Bytes)
    (c : Ctx σ) : procFrame cb' now' f (c.map φ ψ) =
      ((procFrame cb now f c).1, (procFrame cb now f c).2.map φ ψ) := by
  by_cases hlen : f.length ≤ 2
  · rw [procFrame_short hlen, procFrame_short hlen]
  rcases format_cases (f := f) (by omega) with ⟨hI, -, -⟩ | ⟨-, hS, -⟩ | ⟨-, -, hU⟩
  · rw [procFrame_I hI, procFrame_I hI, handleIFrame_map h ht]
  · rw [procFrame_S hS, procFrame_S hS, handleSFrame_map]
  · rw [procFrame_U hU, procFrame_U hU, handleUFrame_map]

/-! ## The calls -/

abbrev Command := Val × Nat

def Callbacks.recorded (cb : Callbacks σ) : Callbacks (σ × List Command) where
  onCommand := cb.onCommand.map fun f val ioa s =>
    let (success, evs, store) := f val ioa s.1
    (success, evs, store, s.2 ++ [(val, ioa)])
  onGi := cb.onGi.map fun gi s => gi s.1

def commands (cb : Callbacks σ) (now : Datetime) (f : Bytes) (st : ClientState) (store : σ) : List Command :=
  (procFrame cb.recorded now f ⟨st, (store, []), [], []⟩).2.store.2

/-- Forgetting the record. -/
theorem image_recorded (cb : Callbacks σ) : Image Prod.fst id cb.recorded cb := by
  refine ⟨?_, ?_, fun _ => rfl⟩
  · cases hg : cb.onCommand with
    | none => exact .inl ⟨by rw [Callbacks.recorded, hg]; rfl, rfl⟩
    | some g => exact .inr ⟨_, g, by rw [Callbacks.recorded, hg]; rfl, rfl, fun val ioa s => by simp⟩
  · cases hg : cb.onGi with
    | none => exact .inl ⟨by rw [Callbacks.recorded, hg]; rfl, rfl⟩
    | some g => exact .inr ⟨_, g, by rw [Callbacks.recorded, hg]; rfl, rfl, fun s => by simp⟩

/-- A map of stores leaves the record. -/
theorem Image.recorded (h : Image φ ψ cb cb') : Image (Prod.map φ id) ψ cb.recorded cb'.recorded := by
  refine ⟨?_, ?_, h.asdu⟩
  · rcases h.onCommand with ⟨hn, hn'⟩ | ⟨g, g', hg, hg', hgg⟩
    · exact .inl ⟨by rw [Callbacks.recorded, hn]; rfl, by rw [Callbacks.recorded, hn']; rfl⟩
    · refine .inr ⟨_, _, by rw [Callbacks.recorded, hg]; rfl, by rw [Callbacks.recorded, hg']; rfl, fun val ioa s => ?_⟩
      simp [hgg]
  · rcases h.onGi with ⟨hn, hn'⟩ | ⟨g, g', hg, hg', hgg⟩
    · exact .inl ⟨by rw [Callbacks.recorded, hn]; rfl, by rw [Callbacks.recorded, hn']; rfl⟩
    · refine .inr ⟨_, _, by rw [Callbacks.recorded, hg]; rfl, by rw [Callbacks.recorded, hg']; rfl, fun s => ?_⟩
      simp [hgg]

/-- The record is kept beside the run and changes nothing in it. -/
theorem procFrame_recorded (cb : Callbacks σ) (now : Datetime) (f : Bytes) (c : Ctx (σ × List Command)) :
    procFrame cb now f (c.map Prod.fst id) =
      ((procFrame cb.recorded now f c).1, (procFrame cb.recorded now f c).2.map Prod.fst id) :=
  procFrame_map (image_recorded cb) rfl f c

end Drv60870.Protocol
