/-
  Drv60870.Server.ConnProofs — every step of a connection, and its history read off.

  `Move` lists what a step can do, guards included, and `step_move` is the inversion every
  invariant of a connection starts from. A received frame makes two of its cases: it is
  answered with an I-frame (`answer`) or not (`take`). What a history shows is read off by
  filters: the frames taken and written, the events put and transmitted.

  Proved:
  - What ends `client_send` is a frame that cannot be built or a closed socket
    (`sendStep_ended`), and the handler's frame is what `proc_frame` makes of it
    (`recvStep_handling`).
  - A batch that grows was within the limit of its type (`packing_room`).
  - The events that a handler still has to put change no other step (`pending_puts`).
-/

import Drv60870.Lib.Runs
import Drv60870.Protocol.CodecProofs
import Drv60870.Protocol.Reports
import Drv60870.Server.Conn

namespace Drv60870.Server

open Lib.Octets Lib.Calendar Lib.Python Lib.Cyclic Lib.Runs Drv60870.Const Protocol Conn

variable {σ : Type} {cb : Callbacks σ}

/-- What `proc_frame` may return for a frame it does not answer with an I-frame; `none` for an exception. -/
def QuietResult (frame : Bytes) (result : Option (FrameType × Option Bytes)) : Prop :=
  ∃ r, Quiet frame r ∧ result = r.toOption

inductive Move (cb : Callbacks σ) : Conn σ → Act σ → Conn σ → Prop
  | put (s) (event) : Move cb s (.put event) { s with que := s.que ++ [event], log := s.log ++ [.put event] }
  | store (s) (x) : Move cb s (.store x) { s with store := x }
  -- `client_send`
  | stop (s) : s.sender = .idle → Move cb s .stop { s with sender := .stopped }
  | timeout (s) (c) : s.sender = .idle → s.que = [] → Move cb s (.send c) { s with sender := .tail }
  | get (s) (c) (event que) : s.sender = .idle → s.que = event :: que →
      Move cb s (.send c) { s with que, sender := .got event }
  | discard (s) (c) (event) : s.sender = .got event → s.st.startdtConfirmed = false →
      Move cb s (.send c) { s with sender := .idle }
  | enable (s) (c) (event) : s.sender = .got event → s.st.startdtConfirmed = true →
      Move cb s (.send c) { s with sender := .enabled event }
  | block (s) (c) (event) : s.sender = .enabled event → s.receiver.locked = false →
      Move cb s (.send c) { s with sender := .blocked event }
  | pass (s) (c) (event) : s.sender = .enabled event → s.receiver.locked = false →
      window seqMod s.st.sendSq s.st.lastAckNr < s.st.conf.protK →
      Move cb s (.send c) { s with sender := .packing event [] }
  | putBack (s) (c) (event) : s.sender = .blocked event →
      Move cb s (.send c) { s with que := s.que ++ [event], sender := .idle }
  | pack (s) (c) (event rest nxt que) : s.sender = .packing event rest → s.que = nxt :: que →
      nxt.asdu = event.asdu → nxt.cot = event.cot →
      Move cb s (.send c) { s with que, sender := .packing event (rest ++ [nxt]) }
  | miss (s) (c) (event rest nxt que) : s.sender = .packing event rest → s.que = nxt :: que →
      Move cb s (.send c) { s with que, sender := .mismatch event rest nxt }
  | packed (s) (c) (event rest) : s.sender = .packing event rest →
      Move cb s (.send c) { s with sender := .ready event rest }
  | putBackNext (s) (c) (event rest nxt) : s.sender = .mismatch event rest nxt →
      Move cb s (.send c) { s with que := s.que ++ [nxt], sender := .ready event rest }
  | unsupported (s) (c) (event rest) : s.sender = .ready event rest →
      buildIFrame s.st (event :: rest) = .ok none → Move cb s (.send c) { s with sender := .idle }
  | write (s) (c) (event rest packet) : s.sender = .ready event rest → s.receiver.locked = false →
      buildIFrame s.st (event :: rest) = .ok (some packet) →
      Move cb s (.send c) { s with
        st := afterBatch s.st (event :: rest).length c
        sender := .tail
        log := s.log ++ [.sent (event :: rest) packet] }
  | ended (s) (c) : s.sender ≠ .stopped → Move cb s (.send c) { s with sender := .stopped }
  | keep (s) (c) (pc) : s.sender = .tail → pc = .test ∨ pc = .idle → Move cb s (.send c) { s with sender := pc }
  | testfr (s) (c) : s.sender = .test →
      Move cb s (.send c) { s with sender := .idle, log := s.log ++ [.sent [] testfrAct] }
  -- `client_rec`
  | answer (s) (frame now store puts) : s.receiver = .free → IsFrame frame → numberedI frame = true →
      (s.st.Counters → answered cb s.st frame = true) →
      Move cb s (.recv frame now) { s with
        st := { noted frame s.st with sendSq := (s.st.sendSq + 1) % seqMod }
        store
        receiver := .handling
          (some (.I, some (iFrame s.st.sendSq (noted frame s.st).recSq (ackAsdu frame)))) puts
        log := s.log ++ [.got frame] }
  | take (s) (frame now store puts result) : s.receiver = .free → IsFrame frame → QuietResult frame result →
      Move cb s (.recv frame now) { s with
        st := noted frame s.st
        store
        receiver := .handling result puts
        log := s.log ++ [.got frame] }
  | handlerPut (s) (result event puts) : s.receiver = .handling result (event :: puts) →
      Move cb s .handle { s with
        que := s.que ++ [event], receiver := .handling result puts, log := s.log ++ [.put event] }
  | raised (s) (result) : s.receiver = .handling result [] → result = none ∨ result = some (.I, none) →
      Move cb s .handle { s with receiver := .failed }
  | reply (s) (fType response) : s.receiver = .handling (some (fType, some response)) [] →
      Move cb s .handle { s with
        st := { s.st with recCountSinceSend := 0 }
        receiver := .free
        log := s.log ++ [.reply response] }
  | sFrame (s) : s.receiver = .handling (some (.I, none)) [] →
      Move cb s .handle { s with
        st := { s.st with recCountSinceSend := 0 }
        receiver := .free
        log := s.log ++ [.reply (sFrame s.st.recSq)] }
  | counted (s) : s.receiver = .handling (some (.I, none)) [] →
      s.st.recCountSinceSend + 1 < s.st.conf.protW →
      Move cb s .handle { s with
        st := { s.st with recCountSinceSend := s.st.recCountSinceSend + 1 }, receiver := .free }
  | done (s) (fType) : s.receiver = .handling (some (fType, none)) [] → fType ≠ .I →
      Move cb s .handle { s with receiver := .free }
  | close (s) : s.receiver = .free ∨ s.receiver = .failed → Move cb s .close { s with receiver := .closed }

theorem sendStep_move {s s' : Conn σ} {clock : Bool} (h : s.sendStep clock = some s') :
    Move cb s (.send clock) s' := by
  unfold sendStep at h
  split at h
  · rename_i hpc
    split at h
    · rename_i hq
      cases h
      exact .timeout s clock hpc hq
    · rename_i event que hq
      cases h
      exact .get s clock event que hpc hq
  · rename_i event hpc
    split at h
    · rename_i hst
      cases h
      exact .enable s clock event hpc hst
    · rename_i hst
      cases h
      exact .discard s clock event hpc (by simpa using hst)
  · rename_i event hpc
    split at h
    · cases h
    · rename_i hl
      have hl : s.receiver.locked = false := by simpa using hl
      split at h
      · cases h
        exact .block s clock event hpc hl
      · rename_i hw
        cases h
        exact .pass s clock event hpc hl (by omega)
  · rename_i event hpc
    cases h
    exact .putBack s clock event hpc
  · rename_i event rest hpc
    split at h
    · split at h
      · cases h
        exact .packed s clock event rest hpc
      · rename_i nxt que hq
        split at h
        · rename_i hsame
          cases h
          exact .pack s clock event rest nxt que hpc hq hsame.1 hsame.2
        · cases h
          exact .miss s clock event rest nxt que hpc hq
    · cases h
      exact .packed s clock event rest hpc
  · rename_i event rest nxt hpc
    cases h
    exact .putBackNext s clock event rest nxt hpc
  · rename_i event rest hpc
    split at h
    · cases h
    · rename_i hl
      split at h
      · cases h
        exact .ended s clock (by rw [hpc]; simp)
      · rename_i hb
        cases h
        exact .unsupported s clock event rest hpc hb
      · rename_i packet hb
        split at h
        · cases h
          exact .ended s clock (by rw [hpc]; simp)
        · cases h
          exact .write s clock event rest packet hpc (by simpa using hl) hb
  · rename_i hpc
    split at h
    · cases h
    · cases h
      exact .keep s clock _ hpc (by cases clock <;> simp)
  · rename_i hpc
    split at h
    · cases h
      exact .ended s clock (by rw [hpc]; simp)
    · cases h
      exact .testfr s clock hpc
  · cases h

theorem recvStep_move {s s' : Conn σ} {frame : Bytes} {now : Datetime} (h : recvStep cb s frame now = some s') :
    Move cb s (.recv frame now) s' := by
  unfold recvStep at h
  split at h
  · rename_i hg
    have hlen : frame.length ≤ 257 := by
      obtain ⟨-, l, -, hl⟩ := hg.2
      have := l.toNat_lt
      omega
    dsimp only at h
    obtain ⟨r, c, hp⟩ : ∃ r c, procFrame cb now frame ⟨s.st, s.store, [], []⟩ = (r, c) := ⟨_, _, rfl⟩
    rw [hp] at h
    cases h
    rcases procFrame_cases hp with ⟨rfl, hn, hst⟩ | ⟨hq, hst⟩
    · have ha : s.st.Counters → answered cb s.st frame = true := by
        intro hc
        have hresp : ∃ f, (procFrame cb now frame ⟨s.st, s.store, [], []⟩).1 = .ok (.I, some f) := ⟨_, by rw [hp]⟩
        exact (answered_iff hlen hc).mp hresp
      have := Move.answer s frame now c.store c.puts hg.1 hg.2 hn ha
      rw [← hst] at this
      exact this
    · have htake : Move cb s (.recv frame now) _ :=
        .take s frame now c.store c.puts r.toOption hg.1 hg.2 ⟨r, hq, rfl⟩
      rw [← hst] at htake
      exact htake
  · cases h

theorem handleStep_move {s s' : Conn σ} (h : s.handleStep = some s') : Move cb s .handle s' := by
  unfold handleStep at h
  split at h
  · rename_i result event puts hr
    cases h
    exact .handlerPut s result event puts hr
  · rename_i hr
    cases h
    exact .raised s none hr (.inl rfl)
  · rename_i fType response hr
    dsimp only at h
    cases response with
    | some response =>
      cases h
      exact .reply s fType response hr
    | none =>
      by_cases ht : fType = .I
      · subst ht
        simp only [true_and, if_true] at h
        split at h
        · split at h
          · cases h
            exact .raised s _ hr (.inr rfl)
          · rename_i f hf
            cases h
            rw [buildSFrame_ok hf]
            exact .sFrame s hr
        · rename_i hw
          cases h
          exact .counted s hr (by omega)
      · simp only [ht, false_and, if_false] at h
        cases h
        exact .done s fType hr ht
  · cases h

theorem step_move {s s' : Conn σ} {a : Act σ} (h : step cb s a = some s') : Move cb s a s' := by
  cases a with
  | put event => cases h; exact .put s event
  | store x => cases h; exact .store s x
  | send clock => exact sendStep_move h
  | stop =>
    simp only [step] at h
    split at h
    · rename_i hi
      cases h
      exact .stop s hi
    · cases h
  | recv frame now => exact recvStep_move h
  | handle => exact handleStep_move h
  | close =>
    simp only [step] at h
    split at h
    · rename_i hr
      cases h
      exact .close s hr
    · cases h

/-- What ends `client_send`: a frame that cannot be built, or a closed socket. -/
theorem sendStep_ended {s s' : Conn σ} {clock : Bool} (h : s.sendStep clock = some s') (hs : s'.sender = .stopped) :
    (s.sender = .test ∧ s.receiver = .closed) ∨
      ∃ event rest, s.sender = .ready event rest ∧
        ((∃ e, buildIFrame s.st (event :: rest) = .error e) ∨ s.receiver = .closed) := by
  cases hpc : s.sender with
  | ready event rest =>
    refine .inr ⟨event, rest, rfl, ?_⟩
    simp only [sendStep, hpc] at h
    split at h
    · cases h
    · split at h
      · rename_i e he
        exact .inl ⟨e, he⟩
      · cases h
        cases hs
      · split at h
        · rename_i hc
          exact .inr hc
        · cases h
          cases hs
  | test =>
    simp only [sendStep, hpc] at h
    split at h
    · rename_i hc
      exact .inl ⟨rfl, hc⟩
    · cases h
      cases hs
  | tail =>
    exfalso
    simp only [sendStep, hpc] at h
    split at h
    · cases h
    · cases h
      cases clock <;> cases hs
  | stopped =>
    simp only [sendStep, hpc] at h
    cases h
  | idle | got event | enabled event | blocked event | packing event rest | mismatch event rest nxt =>
    exfalso
    simp only [sendStep, hpc] at h
    repeat' split at h
    all_goals cases h
    all_goals cases hs

/-- A batch that grows was within its limit. -/
theorem packing_room {s s' : Conn σ} {clock : Bool} {event : IecEvent} {rest rest' : List IecEvent}
    (h : s.sendStep clock = some s') (hpc : s.sender = .packing event rest)
    (hpc' : s'.sender = .packing event rest') : (event :: rest).length < maxObj event.asdu := by
  simp only [sendStep, hpc] at h
  split at h
  · rename_i hlt
    exact hlt
  · cases h
    cases hpc'

theorem recvStep_handling {s s' : Conn σ} {frame : Bytes} {now : Datetime} (h : recvStep cb s frame now = some s') :
    s'.receiver = .handling (procFrame cb now frame ⟨s.st, s.store, [], []⟩).1.toOption
      (procFrame cb now frame ⟨s.st, s.store, [], []⟩).2.puts := by
  unfold recvStep at h
  split at h
  · cases h
    rfl
  · cases h

theorem recvStep_other {s s' : Conn σ} {frame : Bytes} {now : Datetime} (h : recvStep cb s frame now = some s')
    (hf : isS frame = true ∨ isU frame = true) : ∃ result, s'.receiver = .handling result [] := by
  have hr := recvStep_handling h
  rw [(procFrame_other cb now _ hf).1] at hr
  exact ⟨_, hr⟩

/-! ## The history -/

def Obs.written : Obs → Option Bytes
  | .sent _ f => some f
  | .reply f => some f
  | _ => none

def Obs.writesI (o : Obs) : Bool := (o.written.map isI).getD false

def Obs.takesI : Obs → Bool
  | .got f => numberedI f
  | _ => false

def iWritten (log : List Obs) : Nat := log.countP Obs.writesI
def iTaken (log : List Obs) : Nat := log.countP Obs.takesI

theorem iWritten_snoc (log : List Obs) (o : Obs) :
    iWritten (log ++ [o]) = iWritten log + if o.writesI then 1 else 0 := by
  simp [iWritten, List.countP_append, List.countP_cons]

theorem iTaken_snoc (log : List Obs) (o : Obs) : iTaken (log ++ [o]) = iTaken log + if o.takesI then 1 else 0 := by
  simp [iTaken, List.countP_append, List.countP_cons]

def RecPc.pending : RecPc → Nat
  | .handling (some (.I, some _)) _ => 1
  | _ => 0

theorem pending_of_unlocked {pc : RecPc} (h : pc.locked = false) : pc.pending = 0 := by
  cases pc with
  | handling result puts => cases h
  | _ => rfl

/-- What the handler still has to put does not matter. -/
theorem pending_puts (result : Option (FrameType × Option Bytes)) (puts puts' : List IecEvent) :
    (RecPc.handling result puts).pending = (RecPc.handling result puts').pending := by
  cases result with
  | none => rfl
  | some r =>
    obtain ⟨t, o⟩ := r
    cases t <;> cases o <;> rfl

theorem pending_handling {t : FrameType} {o : Option Bytes} {puts : List IecEvent} (h : t ≠ .I ∨ o = none) :
    (RecPc.handling (some (t, o)) puts).pending = 0 := by
  cases t <;> cases o <;> first | rfl | simp at h

theorem QuietResult.response {frame f : Bytes} {t : FrameType} (h : QuietResult frame (some (t, some f))) :
    t = .U ∧ isU frame = true ∧ isU f = true ∧ (uFunction frame).bind uResp = some f := by
  obtain ⟨r, hq, hr⟩ := h
  cases hq with
  | information hn => cases hr
  | supervisory hs => cases hr
  | raised e => cases hr
  | unnumbered hu =>
    simp only [Except.toOption, Option.some.injEq, Prod.mk.injEq] at hr
    obtain ⟨rfl, hr⟩ := hr
    obtain ⟨u, -, hresp⟩ := Option.bind_eq_some_iff.mp hr.symm
    exact ⟨rfl, hu, isU_uResp hresp, hr.symm⟩

theorem QuietResult.pending {frame : Bytes} {result : Option (FrameType × Option Bytes)}
    (h : QuietResult frame result) (puts : List IecEvent) : (RecPc.handling result puts).pending = 0 := by
  match result, h with
  | none, _ => rfl
  | some (t, none), _ => exact pending_handling (.inr rfl)
  | some (t, some f), h => exact pending_handling (.inl (by rw [h.response.1]; decide))

/-! ## A history of producers -/

theorem countP_puts (p : Obs → Bool) (hp : ∀ ev, p (.put ev) = false) (que : List IecEvent) :
    (que.map Obs.put).countP p = 0 := by
  rw [List.countP_map, List.countP_eq_zero]
  intro ev _
  simp [hp ev]

theorem foldl_puts {α : Type} (f : α → Obs → α) (hf : ∀ x ev, f x (.put ev) = x) (x : α) (que : List IecEvent) :
    (que.map Obs.put).foldl f x = x := by
  induction que with
  | nil => rfl
  | cons ev que ih => rw [List.map_cons, List.foldl_cons, hf, ih]

theorem always_puts {P : List Obs → Obs → Prop} (hP : ∀ pre ev, P pre (.put ev)) (que : List IecEvent) :
    Always P (que.map Obs.put) := by
  intro pre o post he
  have ho : o ∈ que.map Obs.put := by
    rw [he]
    simp
  obtain ⟨ev, -, rfl⟩ := List.mem_map.mp ho
  exact hP pre ev

end Drv60870.Server
