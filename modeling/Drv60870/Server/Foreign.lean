/-
  Drv60870.Server.Foreign — commands for another station.

  A connection that checks the address strictly logs an ASDU for another station and leaves
  it. The frame still counts: `rec_sq` and `last_ack_nr` move. Nothing a handler does
  depends on these two but the `N(R)` of an acknowledgement, so the run and the run without
  the foreign frames agree on everything else. `serving` are the callbacks a connection has in
  the server (`create_client_state`), over its storage.

  Proved:
  - The two runs agree, and stop at the same frame (`agrees_procFrames`).
  - They need not read the same clock: for every sequence of frames and of clock readings on
    both sides the storage is the same but for the times (`foreign_frames_change_nothing`).
    `dated` sets all times to one and the storage commutes with it, so each run is compared
    with itself at a stopped clock.
  - Of a storage that was loaded and updated, `serving` gives what `update_val` returns, and
    no command raises (`onCommand_returns`, `serving_returns`).
-/

import Drv60870.Protocol.Orders
import Drv60870.Server.Interrogation
import Drv60870.Storage.Floats

namespace Drv60870.Server

open Lib Lib.Octets Lib.Calendar Lib.Python Drv60870.Const Protocol Storage

variable {σ : Type} {cb : Callbacks σ} {now : Datetime} {f : Bytes} {c c' : Ctx σ}

/-! ## Runs of the handler -/

/-- Frames handled one after another, each at a time of the clock; with the frames left from
    the one that raised. -/
def procFrames (cb : Datetime → Callbacks σ) :
    List (Bytes × Datetime) → Ctx σ → List (Bytes × Datetime) × Ctx σ
  | [], c => ([], c)
  | (f, now) :: fs, c =>
    match procFrame (cb now) now f c with
    | (.ok _, c) => procFrames cb fs c
    | (.error _, c) => ((f, now) :: fs, c)

/-- An I-frame with the ASDU header of another station. -/
def foreign (ca : Int) (f : Bytes) : Bool :=
  isI f && decide (12 ≤ f.length) && decide ((leNat (slice (f.drop 6) 4 6) : Int) ≠ ca)

/-! ## Agreement -/

/-- The same but for the counters of the peer's frames, and the log. -/
structure Agrees (c c' : Ctx σ) : Prop where
  store : c'.store = c.store
  puts : c'.puts = c.puts
  ca : c'.st.ca = c.st.ca
  conf : c'.st.conf = c.st.conf
  sendSq : c'.st.sendSq = c.st.sendSq
  startdtConfirmed : c'.st.startdtConfirmed = c.st.startdtConfirmed

structure Alike {α : Type} (r r' : Except PyErr α × Ctx σ) : Prop where
  result : r'.1.isOk = r.1.isOk
  agrees : Agrees r.2 r'.2

theorem Agrees.refl (c : Ctx σ) : Agrees c c := ⟨rfl, rfl, rfl, rfl, rfl, rfl⟩

theorem Agrees.log (h : Agrees c c') (r r' : LogRec) : Agrees (c.log r) (c'.log r') :=
  ⟨h.store, h.puts, h.ca, h.conf, h.sendSq, h.startdtConfirmed⟩

theorem Agrees.put (h : Agrees c c') (evs : List IecEvent) : Agrees (c.put evs) (c'.put evs) :=
  ⟨h.store, by rw [Ctx.put, Ctx.put, h.puts], h.ca, h.conf, h.sendSq, h.startdtConfirmed⟩

theorem Agrees.received (h : Agrees c c') (nS nR : Nat) : Agrees (c.received nS nR) (c'.received nS nR) := by
  refine ⟨?_, ?_, h.ca, h.conf, h.sendSq, h.startdtConfirmed⟩
  · rw [Ctx.received_store, Ctx.received_store, h.store]
  · rw [Ctx.received_puts, Ctx.received_puts, h.puts]

theorem Agrees.command (h : Agrees c c') (val : Val) (ioa : Nat) :
    Agrees (c.command cb val ioa) (c'.command cb val ioa) := by
  unfold Ctx.command
  cases cb.onCommand with
  | none => exact h
  | some g =>
    dsimp only
    rw [h.store]
    have hp := h.put (g val ioa c.store).2.1
    have hs : Agrees { c.put (g val ioa c.store).2.1 with store := (g val ioa c.store).2.2 }
        { c'.put (g val ioa c.store).2.1 with store := (g val ioa c.store).2.2 } :=
      ⟨rfl, hp.puts, hp.ca, hp.conf, hp.sendSq, hp.startdtConfirmed⟩
    split
    · exact hs
    · exact hs.log _ _

theorem runCommands_alike (val : Bytes → Except PyErr Val) (objs : List (Nat × Bytes)) (h : Agrees c c') :
    Alike (runCommands cb val objs c) (runCommands cb val objs c') := by
  induction objs generalizing c c' with
  | nil => exact ⟨rfl, h⟩
  | cons o objs ih =>
    rw [runCommands, runCommands]
    cases val o.2 with
    | error e => exact ⟨rfl, h⟩
    | ok v => exact ih (h.command v o.1)

/-- The number acknowledged is always one that can be written. -/
theorem confirm_alike (h : Agrees c c') (hr : c.st.recSq < seqMod) (hr' : c'.st.recSq < seqMod) :
    Alike (confirm f c) (confirm f c') := by
  unfold confirm buildIFrameAck
  rw [h.sendSq, toBytes_ok (shiftLeft_one_lt hr), toBytes_ok (shiftLeft_one_lt hr')]
  by_cases hl : 2 < (f.drop 6).length
  · simp only [if_pos hl]
    cases toBytes 2 (c.st.sendSq <<< 1 : Nat) with
    | error e => exact ⟨rfl, h⟩
    | ok ns =>
      cases byte (((f.drop 6).set 2 (UInt8.ofNat COT.activationCon)).length + 4 : Nat) with
      | error e => exact ⟨rfl, h⟩
      | ok len => exact ⟨rfl, h.store, h.puts, h.ca, h.conf, rfl, h.startdtConfirmed⟩
  · simp only [if_neg hl]
    exact ⟨rfl, h⟩

theorem obey_alike (val : Bytes → Except PyErr Val) (objs : List (Nat × Bytes)) (h : Agrees c c')
    (hr : c.st.recSq < seqMod) (hr' : c'.st.recSq < seqMod) :
    Alike (obey cb val f objs c) (obey cb val f objs c') := by
  have hrun : Alike (runCommands cb val objs c) (runCommands cb val objs c') := runCommands_alike val objs h
  have hst := runCommands_st cb val objs c
  have hst' := runCommands_st cb val objs c'
  unfold obey
  rcases hx : runCommands cb val objs c with ⟨x, d⟩
  rcases hx' : runCommands cb val objs c' with ⟨x', d'⟩
  rw [hx, hx'] at hrun
  rw [hx] at hst
  rw [hx'] at hst'
  have hres := hrun.result
  cases x with
  | error e =>
    cases x' with
    | error e' => exact ⟨rfl, hrun.agrees⟩
    | ok u => cases hres
  | ok u =>
    cases x' with
    | error e' => cases hres
    | ok u' => exact confirm_alike hrun.agrees (by rw [hst]; exact hr) (by rw [hst']; exact hr')

theorem dispatch_alike (typeId : Nat) (objs : List (Nat × Bytes)) (h : Agrees c c')
    (hr : c.st.recSq < seqMod) (hr' : c'.st.recSq < seqMod) :
    Alike (dispatch cb now f typeId objs c) (dispatch cb now f typeId objs c') := by
  unfold dispatch
  split
  · split
    · rw [h.store]
      exact confirm_alike (h.put _) hr hr'
    · exact ⟨rfl, h⟩
  split
  · exact obey_alike _ _ h hr hr'
  split
  · exact obey_alike _ _ h hr hr'
  · exact ⟨rfl, h⟩

theorem handleObjs_alike (asdu : Bytes) (typeId vsq : Nat) (h : Agrees c c')
    (hr : c.st.recSq < seqMod) (hr' : c'.st.recSq < seqMod) :
    Alike (handleObjs cb now f asdu typeId vsq c) (handleObjs cb now f asdu typeId vsq c') := by
  unfold handleObjs
  cases parseObjs asdu typeId vsq with
  | error e =>
    cases e with
    | indexError => exact ⟨rfl, h.log _ _⟩
    | _ => exact ⟨rfl, h⟩
  | ok objs => exact dispatch_alike _ _ h hr hr'

theorem handleAsdu_alike (asdu : Bytes) (h : Agrees c c') (hr : c.st.recSq < seqMod) (hr' : c'.st.recSq < seqMod) :
    Alike (handleAsdu cb now f asdu c) (handleAsdu cb now f asdu c') := by
  unfold handleAsdu
  rw [h.ca, h.conf]
  split
  · dsimp only
    split
    · exact ⟨rfl, h.log _ _⟩
    split
    · exact ⟨rfl, h.log _ _⟩
    split
    · exact handleObjs_alike _ _ _ (h.log _ _) hr hr'
    · exact handleObjs_alike _ _ _ h hr hr'
  · exact ⟨rfl, h.log _ _⟩

theorem Alike.map {α β : Type} {r r' : Except PyErr α × Ctx σ} (h : Alike r r') (g : α → β) :
    Alike (r.1.map g, r.2) (r'.1.map g, r'.2) := by
  refine ⟨?_, h.agrees⟩
  have hres := h.result
  cases hx : r.1 <;> cases hx' : r'.1 <;> rw [hx, hx'] at hres <;> first | rfl | cases hres

theorem procFrame_alike (h : Agrees c c') : Alike (procFrame cb now f c) (procFrame cb now f c') := by
  by_cases hlen : f.length ≤ 2
  · rw [procFrame_short hlen, procFrame_short hlen]
    exact ⟨rfl, h⟩
  rcases format_cases (f := f) (by omega) with ⟨hI, -, -⟩ | ⟨-, hS, -⟩ | ⟨-, -, hU⟩
  · rw [procFrame_I hI, procFrame_I hI]
    apply Alike.map
    unfold handleIFrame
    split
    · exact ⟨rfl, h⟩
    split
    · exact ⟨rfl, h⟩
    · exact handleAsdu_alike _ (h.received _ _) (Nat.mod_lt _ (by decide)) (Nat.mod_lt _ (by decide))
  · rw [procFrame_S hS, procFrame_S hS]
    apply Alike.map
    unfold handleSFrame
    split
    · exact ⟨rfl, h.log _ _⟩
    split
    · exact ⟨rfl, h⟩
    · exact ⟨rfl, h.store, h.puts, h.ca, h.conf, h.sendSq, h.startdtConfirmed⟩
  · rw [procFrame_U hU, procFrame_U hU]
    apply Alike.map
    unfold handleUFrame
    split
    · exact ⟨rfl, h⟩
    split
    · exact ⟨rfl, h.log _ _⟩
    · rename_i u _
      refine ⟨rfl, h.store, h.puts, ?_, ?_, ?_, ?_⟩
      · cases u <;> exact h.ca
      · cases u <;> exact h.conf
      · cases u <;> exact h.sendSq
      · cases u <;> first | rfl | exact h.startdtConfirmed

/-- A foreign frame is not answered and leaves what agrees. -/
theorem procFrame_foreign (hstrict : c.st.conf.protStrictCoa = true) (hf : foreign c.st.ca f = true)
    (h : Agrees c c') :
    (procFrame cb now f c).1 = .ok (.I, none) ∧ Agrees (procFrame cb now f c).2 c' := by
  simp only [foreign, Bool.and_eq_true, decide_eq_true_eq] at hf
  obtain ⟨⟨hI, h12⟩, hca⟩ := hf
  rw [procFrame_I hI, handleIFrame_long (by omega), handleAsdu, dif_pos (by simp; omega)]
  dsimp only
  rw [if_pos ⟨hca, hstrict⟩]
  refine ⟨rfl, ?_, ?_, h.ca, h.conf, h.sendSq, h.startdtConfirmed⟩
  · rw [h.store]
    exact (Ctx.received_store c (nS f) (nR f)).symm
  · rw [h.puts]
    exact (Ctx.received_puts c (nS f) (nR f)).symm

/-! ## Two runs on one clock -/

theorem procFrame_ca (cb : Callbacks σ) (now : Datetime) (f : Bytes) (c : Ctx σ) :
    (procFrame cb now f c).2.st.ca = c.st.ca ∧ (procFrame cb now f c).2.st.conf = c.st.conf := by
  have hr : procFrame cb now f c = ((procFrame cb now f c).1, (procFrame cb now f c).2) := rfl
  rcases procFrame_cases hr with ⟨-, -, hst⟩ | ⟨-, hst⟩
  · rw [hst]
    exact ⟨rfl, rfl⟩
  · rw [hst]
    exact ⟨rfl, rfl⟩

/-- The run without the foreign frames: it agrees, and it stops at the same frame. -/
theorem agrees_procFrames (cb : Datetime → Callbacks σ) (ca : Int) (fs : List (Bytes × Datetime)) {c c' : Ctx σ}
    (hca : c.st.ca = ca) (hstrict : c.st.conf.protStrictCoa = true) (h : Agrees c c') :
    Agrees (procFrames cb fs c).2 (procFrames cb (fs.filter fun p => !foreign ca p.1) c').2 ∧
      (procFrames cb (fs.filter fun p => !foreign ca p.1) c').1 =
        (procFrames cb fs c).1.filter (fun p => !foreign ca p.1) ∧
      ∀ p ∈ (procFrames cb fs c).1.head?, foreign ca p.1 = false := by
  induction fs generalizing c c' with
  | nil => exact ⟨h, rfl, fun p hp => by cases hp⟩
  | cons p fs ih =>
    obtain ⟨f, now⟩ := p
    obtain ⟨hca₁, hconf₁⟩ := procFrame_ca (cb now) now f c
    cases hf : foreign ca f with
    | true =>
      have hforeign : (procFrame (cb now) now f c).1 = .ok (.I, none) ∧ Agrees (procFrame (cb now) now f c).2 c' :=
        procFrame_foreign hstrict (by rw [hca]; exact hf) h
      obtain ⟨hok, hag⟩ := hforeign
      have hrun : procFrames cb ((f, now) :: fs) c = procFrames cb fs (procFrame (cb now) now f c).2 := by
        rw [procFrames]
        split
        · rename_i d hd
          rw [hd]
        · rename_i e d hd
          rw [hd] at hok
          cases hok
      have hskip : (((f, now) :: fs).filter fun p => !foreign ca p.1) = fs.filter fun p => !foreign ca p.1 := by
        simp [hf]
      rw [hrun, hskip]
      exact ih (by rw [hca₁, hca]) (by rw [hconf₁]; exact hstrict) hag
    | false =>
      have halike : Alike (procFrame (cb now) now f c) (procFrame (cb now) now f c') := procFrame_alike h
      have hkeep : (((f, now) :: fs).filter fun p => !foreign ca p.1) =
          (f, now) :: fs.filter fun p => !foreign ca p.1 := by simp [hf]
      rw [hkeep, procFrames, procFrames]
      rcases hx : procFrame (cb now) now f c with ⟨x, d⟩
      rcases hx' : procFrame (cb now) now f c' with ⟨x', d'⟩
      rw [hx, hx'] at halike
      rw [hx] at hca₁ hconf₁
      have hres := halike.result
      cases x with
      | error e =>
        cases x' with
        | error e' => exact ⟨halike.agrees, hkeep.symm, fun p hp => by cases hp; exact hf⟩
        | ok u => cases hres
      | ok u =>
        cases x' with
        | error e' => cases hres
        | ok u' => exact ih (by rw [hca₁, hca]) (by rw [hconf₁]; exact hstrict) halike.agrees

/-! ## A stopped clock -/

theorem procFrames_map {τ : Type} (cb : Datetime → Callbacks σ) (cb' : Datetime → Callbacks τ) (t : Datetime)
    {φ : σ → τ} {ψ : IecEvent → IecEvent} (h : ∀ now, Image φ ψ (cb now) (cb' t))
    (ht : ∀ now, ψ (giTermination now) = giTermination t) (fs : List (Bytes × Datetime)) (c : Ctx σ) :
    procFrames cb' (fs.map fun p => (p.1, t)) (c.map φ ψ) =
      ((procFrames cb fs c).1.map fun p => (p.1, t), (procFrames cb fs c).2.map φ ψ) := by
  induction fs generalizing c with
  | nil => rfl
  | cons p fs ih =>
    obtain ⟨f, now⟩ := p
    rw [List.map_cons, procFrames, procFrames, procFrame_map (h now) (ht now)]
    rcases procFrame (cb now) now f c with ⟨x, d⟩
    cases x with
    | error e => rfl
    | ok u => exact ih d

variable {C Q V T : Type}

def evDated (t : Datetime) (ev : IecEvent) : IecEvent := { ev with ts := t }

def sgDated (t : Datetime) (sg : SignalConf V T) : SignalConf V T := { sg with ts := t }

/-- The storage as if everything had been written at one time. -/
def dated (t : Datetime) (s : DataStorage C Q V T) : DataStorage C Q V T :=
  { s with signals := s.signals.mapValues (sgDated t) }

/-- `update_val` at that time, and then what it returned. -/
theorem commit_dated [Deadband V T] (t now : Datetime) (s : DataStorage C Q V T) {u : Update V} (hu : u.ts = none) :
    (dated t s).commit t u = (s.commit now u).map fun c =>
      ⟨c.updated, dated t c.storage, c.event.map fun ev => { ev with ts := t }⟩ := by
  have hres : (dated t s).resolve u = s.resolve u := rfl
  unfold DataStorage.commit
  rw [hres]
  by_cases hkey : u.id.isSome = u.ioa.isSome
  · rw [if_pos hkey, if_pos hkey]
    rfl
  rw [if_neg hkey, if_neg hkey]
  cases s.resolve u with
  | none => rfl
  | some id =>
    dsimp only [dated]
    rw [Dict.get_mapValues]
    cases s.signals.get id with
    | none => rfl
    | some sg =>
      dsimp only [Option.map_some]
      have hval : (sgDated t sg).valChange u.val = sg.valChange u.val := rfl
      rw [hval]
      cases sg.valChange u.val with
      | error e => rfl
      | ok valChange =>
        have hq : (sgDated t sg).qChange u.q u.iv = sg.qChange u.q u.iv := rfl
        have hw : (sgDated t sg).written t u = sgDated t (sg.written now u) := by
          simp [SignalConf.written, sgDated, hu]
        dsimp only
        rw [hq, hw]
        by_cases hno : (!valChange && !sg.qChange u.q u.iv) = true
        · rw [if_pos hno, if_pos hno]
          rfl
        · rw [if_neg hno, if_neg hno]
          dsimp only [Except.map]
          rw [Dict.set_mapValues]
          by_cases hasdu : (sg.written now u).asdu ≥ 45
          · simp [sgDated, hasdu]
          · simp [sgDated, SignalConf.event, hasdu]

/-- `on_command` of a client's connection (`create_client_state`): `update_val` puts its event to the
    client's own queue while the client is subscribed. Where it raised, the storage would be left. -/
def onCommand [DecidableEq C] (client : C) (now : Datetime) (val : Val) (ioa : Nat) (s : Signals C Q) :
    Bool × List IecEvent × Signals C Q :=
  match s.commit now { val, ioa := some (ioa : Int) } with
  | .ok c => (c.updated, if (s.subs.get client).isSome then (c.event.map Event.iec).toList else [], c.storage)
  | .error _ => (false, [], s)

def serving [DecidableEq C] (client : C) (now : Datetime) : Callbacks (Signals C Q) :=
  station (some (onCommand client now))

theorem onCommand_returns [DecidableEq C] (client : C) (now : Datetime) {os : List Command} {s : Signals C Q}
    (hs : AllFloats s) (hos : ∀ o ∈ os, ReadOff o.1) : AllFloats (obeyed (onCommand client now) s os).2 ∧
      ∀ pre o post, os = pre ++ o :: post → ∃ c, (obeyed (onCommand client now) s pre).2.commit now
        { val := o.1, ioa := some (o.2 : Int) } = .ok c := by
  induction os generalizing s with
  | nil => exact ⟨hs, fun pre o post h => by simp at h⟩
  | cons p os ih =>
    obtain ⟨hp, hos⟩ := List.forall_mem_cons.mp hos
    have hv : IsFloat p.1 := isFloat_readOff hp
    obtain ⟨c, hc⟩ := commit_goes hs (u := { val := p.1, ioa := some (p.2 : Int) }) (by simp) hv now
    have hstep : (onCommand client now p.1 p.2 s).2.2 = c.storage := by rw [onCommand, hc]
    obtain ⟨hall, hrest⟩ := ih (s := c.storage) (allFloats_commit hs hv hc) hos
    refine ⟨?_, fun pre o post h => ?_⟩
    · rw [obeyed, hstep]
      exact hall
    · rcases List.cons_eq_append_iff.mp h with ⟨rfl, he⟩ | ⟨pre', rfl, he⟩
      · cases he
        exact ⟨c, hc⟩
      · rw [obeyed, hstep]
        exact hrest pre' o post he

/-- Of the storages that are loaded and updated, `serving` gives what `update_val` returns. -/
theorem serving_returns [DecidableEq C] (client : C) (now : Datetime) (f : Bytes) {c : Ctx (Signals C Q)}
    (hs : AllFloats c.store) : AllFloats (procFrame (serving client now) now f c).2.store ∧
      ∀ pre o post, orders now f c.st = pre ++ o :: post →
        ∃ d, (obeyed (onCommand client now) c.store pre).2.commit now
          { val := o.1, ioa := some (o.2 : Int) } = .ok d := by
  have hcommand : (serving client now : Callbacks (Signals C Q)).onCommand = some (onCommand client now) := rfl
  obtain ⟨-, -, hstore, -⟩ := procFrame_carried hcommand rfl now f c
  rw [hstore]
  exact onCommand_returns client now hs fun o ho => orders_read ho

theorem image_serving [DecidableEq C] (client : C) (t now : Datetime) :
    Image (dated t) (evDated t) (serving client now : Callbacks (Signals C Q)) (serving client t) := by
  refine ⟨.inr ⟨_, _, rfl, rfl, fun val ioa s => ?_⟩, .inr ⟨_, _, rfl, rfl, fun s => ?_⟩, fun _ => rfl⟩
  · unfold onCommand
    rw [commit_dated t now s rfl]
    cases s.commit now { val, ioa := some (ioa : Int) } with
    | error e => rfl
    | ok c =>
      dsimp only [Except.map, dated]
      by_cases hsub : (s.subs.get client).isSome = true
      · cases c.event <;> simp [hsub, Event.iec, evDated]
      · simp [hsub]
  · simp only [DataStorage.getAllForGi, dated, Dict.values_mapValues, List.map_map]
    rfl

/-- On a connection that checks the address strictly, for every sequence of frames and every
    sequence of clock readings on both sides. -/
theorem foreign_frames_change_nothing [DecidableEq C] (client : C) (st : ClientState)
    (hstrict : st.conf.protStrictCoa = true) (store : Signals C Q) (fs gs : List (Bytes × Datetime))
    (hgs : gs.map Prod.fst = (fs.map Prod.fst).filter fun f => !foreign st.ca f) (t : Datetime) :
    let r := procFrames (fun now => (serving client now).recorded) fs ⟨st, (store, []), [], []⟩
    let r' := procFrames (fun now => (serving client now).recorded) gs ⟨st, (store, []), [], []⟩
    dated t r'.2.store.1 = dated t r.2.store.1 ∧
      r'.2.store.2 = r.2.store.2 ∧
      r'.2.puts.map (evDated t) = r.2.puts.map (evDated t) ∧
      r'.2.st.startdtConfirmed = r.2.st.startdtConfirmed ∧
      r'.2.st.sendSq = r.2.st.sendSq ∧
      r'.1.map Prod.fst = (r.1.map Prod.fst).filter (fun f => !foreign st.ca f) ∧
      ∀ f ∈ (r.1.map Prod.fst).head?, foreign st.ca f = false := by
  intro r r'
  -- both runs with the clock stopped at `t`
  let c₀ : Ctx (Signals C Q × List Command) := ⟨st, (store, []), [], []⟩
  have himage : ∀ now, Image (Prod.map (dated t) id) (evDated t) (serving client now : Callbacks (Signals C Q)).recorded
      (serving client t).recorded := fun now => (image_serving client t now).recorded
  have hstop := procFrames_map _ (fun now => (serving client now).recorded) t himage (fun _ => rfl) fs c₀
  have hstop' := procFrames_map _ (fun now => (serving client now).recorded) t himage (fun _ => rfl) gs c₀
  have hframes : (gs.map fun p => (p.1, t)) = (fs.map fun p => (p.1, t)).filter fun p => !foreign st.ca p.1 := by
    have hg : (gs.map fun p => (p.1, t)) = (gs.map Prod.fst).map fun f => (f, t) := by rw [List.map_map]; rfl
    have hf : (fs.map fun p => (p.1, t)) = (fs.map Prod.fst).map fun f => (f, t) := by rw [List.map_map]; rfl
    rw [hg, hf, hgs]
    generalize fs.map Prod.fst = l
    rw [List.filter_map]
    rfl
  obtain ⟨hag, hrest, hhead⟩ := agrees_procFrames (fun now => (serving client now).recorded) st.ca
    (fs.map fun p => (p.1, t)) (c := c₀.map (Prod.map (dated t) id) (evDated t)) rfl hstrict (.refl _)
  rw [← hframes, hstop, hstop'] at hag hrest
  rw [hstop] at hhead
  have hstore : Prod.map (dated t) id r'.2.store = Prod.map (dated t) id r.2.store := hag.store
  refine ⟨(Prod.ext_iff.mp hstore).1, (Prod.ext_iff.mp hstore).2, hag.puts, hag.startdtConfirmed, hag.sendSq, ?_,
    ?_⟩
  · have hfst := congrArg (List.map Prod.fst) hrest
    simp only [List.map_map, List.filter_map, Function.comp_def] at hfst
    simpa only [List.filter_map, Function.comp_def] using hfst
  · intro f hf
    rw [List.head?_map, Option.mem_map] at hf
    obtain ⟨p, hp, rfl⟩ := hf
    apply hhead (p.1, t)
    rw [List.head?_map]
    exact Option.mem_map_of_mem _ hp

def switchOn (station : UInt8) : Bytes :=
  [0x68, 0x0E, 0x00, 0x00, 0x00, 0x00, 0x2D, 0x01, 0x06, 0x00, station, 0x00, 0x2D, 0x00, 0x00, 0x01]

def switchRun (stations : List UInt8) : List (Bytes × Datetime) × Ctx (Signals Unit Unit × List Command) :=
  procFrames (fun now => (serving () now).recorded) (stations.map fun station => (switchOn station, sampleTime))
    ⟨createClientState kp1Conf 1, (stationSignals [1], []), [], []⟩

theorem foreign_frames_change_nothing_switch :
    (switchRun [2, 1]).2.store.2 = [(.int 1, 45)] ∧ (switchRun [1]).2.store.2 = (switchRun [2, 1]).2.store.2 ∧
      dated sampleTime (switchRun [1]).2.store.1 = dated sampleTime (switchRun [2, 1]).2.store.1 := by
  have hcalls : (switchRun [2, 1]).2.store.2 = [(.int 1, 45)] := by decide +kernel
  refine ⟨hcalls, ?_⟩
  have h := foreign_frames_change_nothing () (createClientState kp1Conf 1) rfl (stationSignals [1])
    ([2, 1].map fun station => (switchOn station, sampleTime)) ([1].map fun station => (switchOn station, sampleTime))
    (by decide) sampleTime
  unfold switchRun
  exact ⟨h.2.1, h.1⟩

end Drv60870.Server
