/-
  Drv60870.Link.Pipe — one direction of a connection: the octets on their way, and the
  receive buffer of the thread at the end of it.

  Writing appends octets to the stream, `recv` moves at most 1024 of them into the buffer, and
  a pass of the receive loop cuts one frame off the buffer or ends the loop. `Carries p fs` says
  what is in the pipe in terms of frames: `fs`, in order, and of whole frames; outside its
  loop the thread holds less than the first of them.

  Proved, of the loops of both stations:
  - Writing adds frames at the end (`Carries.send`), `recv` leaves them (`Carries.recv`), a
    pass takes the first (`Carries.pass`) or ends the loop (`Carries.done`).
  - A pipe with nothing on its way and nothing to cut carries none (`Carries.empty`).
-/

import Drv60870.Deframe

namespace Drv60870.Link

open Lib.Octets Lib.Framing Drv60870.Const Protocol Deframe

structure Pipe where
  chan : Bytes := []
  buf : Bytes := []
  /-- The thread is in the loop over its buffer. -/
  draining : Bool := false
  deriving DecidableEq

namespace Pipe

def send (p : Pipe) (fs : List Bytes) : Pipe := { p with chan := p.chan ++ fs.flatten }

def recv (p : Pipe) (n : Nat) : Option Pipe :=
  if p.draining = false ∧ 1 ≤ n ∧ n ≤ 1024 ∧ n ≤ p.chan.length then
    some { chan := p.chan.drop n, buf := p.buf ++ p.chan.take n, draining := true }
  else none

def pass (cut : Bytes → Option Bytes × Bytes) (p : Pipe) : Option (Option Bytes × Pipe) :=
  if p.draining then
    match cut p.buf with
    | (some f, rest) => some (some f, { p with buf := rest })
    | (none, rest) => some (none, { p with buf := rest, draining := false })
  else none

end Pipe

/-- The pipe holds these frames; outside its loop the thread holds less than the first. -/
structure Carries (p : Pipe) (fs : List Bytes) : Prop where
  octets : p.buf ++ p.chan = fs.flatten
  whole : ∀ f ∈ fs, Whole f
  waiting : p.draining = false → ∀ f rest, fs = f :: rest → p.buf.length < f.length

variable {p p' : Pipe} {fs : List Bytes} {f : Bytes} {cut : Bytes → Option Bytes × Bytes}

theorem carries_nothing : Carries {} [] := by
  refine ⟨rfl, fun f hf => (by cases hf), fun _ f rest h => (by cases h)⟩

theorem Carries.send (h : Carries p fs) {gs : List Bytes} (hg : ∀ f ∈ gs, Whole f) :
    Carries (p.send gs) (fs ++ gs) := by
  refine ⟨?_, ?_, ?_⟩
  · rw [Pipe.send, ← List.append_assoc, h.octets, List.flatten_append]
  · intro f hf
    rcases List.mem_append.mp hf with hf | hf
    · exact h.whole f hf
    · exact hg f hf
  · intro hd f rest he
    cases fs with
    | nil =>
      have hbuf : p.buf = [] := (List.append_eq_nil_iff.mp h.octets).1
      have hf : Whole f := hg f (by rw [← List.nil_append gs, he]; exact List.mem_cons_self)
      have := hf.long
      show p.buf.length < f.length
      rw [hbuf, List.length_nil]
      omega
    | cons g fs =>
      cases he
      exact h.waiting hd _ fs rfl

theorem Carries.recv (h : Carries p fs) {n : Nat} (hr : p.recv n = some p') : Carries p' fs := by
  unfold Pipe.recv at hr
  split at hr
  · cases hr
    refine ⟨?_, h.whole, fun hd => (by cases hd)⟩
    rw [List.append_assoc, List.take_append_drop]
    exact h.octets
  · cases hr

theorem front_of_whole (hf : Whole f) {b c x : Bytes} (he : b ++ c = f ++ x) (h6 : 6 ≤ b.length) :
    b[0]? = some startByte ∧ ∃ l : UInt8, b[1]? = some l ∧ f.length = l.toNat + 2 := by
  obtain ⟨⟨h0, l, hl, hlen⟩, hlong⟩ := hf
  have hget : ∀ i < 2, b[i]? = f[i]? := by
    intro i hi
    have hb : (b ++ c)[i]? = b[i]? := List.getElem?_append_left (by omega)
    rw [← hb, he, List.getElem?_append_left (by omega)]
  rw [hget 0 (by omega), hget 1 (by omega)]
  exact ⟨h0, l, hl, hlen⟩

theorem sync_of_start {b : Bytes} (h : b[0]? = some startByte) : sync apdu b = b := by
  cases b with
  | nil => rfl
  | cons x b =>
    rw [List.getElem?_cons_zero, Option.some.injEq] at h
    simp [sync, apdu, h]

/-- A pass over a buffer that the first frame starts in: the frame, or nothing while it is not complete. -/
theorem cut_front (hc : Pass cut) (hf : Whole f) {b c x : Bytes} (he : b ++ c = f ++ x) :
    cut b = if b.length < f.length then (none, b) else (some f, b.drop f.length) := by
  rw [hc b]
  by_cases h6 : b.length < 6
  · have := hf.long
    rw [if_pos h6, if_pos (by omega)]
  · obtain ⟨h0, l, hl, hlen⟩ := front_of_whole hf he (by omega)
    rw [if_neg h6, sync_of_start h0, cutAt, hl]
    dsimp only
    rw [← hlen]
    split
    · rfl
    · rename_i hle
      have htake : b.take f.length = f := by
        have := congrArg (List.take f.length) he
        rwa [List.take_append_of_le_length (by omega), List.take_left] at this
      rw [htake]

theorem cut_nil (hc : Pass cut) : cut [] = (none, []) := by
  rw [hc []]
  rfl

theorem Pipe.pass_some (hp : p.pass cut = some (some f, p')) :
    p.draining = true ∧ ∃ r, cut p.buf = (some f, r) ∧ p' = { p with buf := r } := by
  unfold Pipe.pass at hp
  split at hp
  · rename_i hd
    split at hp
    · rename_i g r hcut
      cases hp
      exact ⟨hd, r, hcut, rfl⟩
    · cases hp
  · cases hp

theorem Pipe.pass_none (hp : p.pass cut = some (none, p')) :
    ∃ r, cut p.buf = (none, r) ∧ p' = { p with buf := r, draining := false } := by
  unfold Pipe.pass at hp
  split at hp
  · split at hp
    · cases hp
    · rename_i r hcut
      cases hp
      exact ⟨r, hcut, rfl⟩
  · cases hp

theorem Carries.pass (hc : Pass cut) (h : Carries p fs) (hp : p.pass cut = some (some f, p')) :
    ∃ rest, fs = f :: rest ∧ Carries p' rest := by
  obtain ⟨hd, r, hcut, rfl⟩ := Pipe.pass_some hp
  cases fs with
  | nil =>
    rw [(List.append_eq_nil_iff.mp h.octets).1, cut_nil hc] at hcut
    cases hcut
  | cons g rest =>
    have hg := h.whole g List.mem_cons_self
    rw [cut_front hc hg h.octets] at hcut
    split at hcut
    · cases hcut
    · rename_i hle
      cases hcut
      refine ⟨rest, rfl, ?_, fun f hf => h.whole f (List.mem_cons_of_mem _ hf), fun hn => ?_⟩
      · have := congrArg (List.drop f.length) h.octets
        rwa [List.drop_append_of_le_length (by omega), List.flatten_cons, List.drop_left] at this
      · rw [show p.draining = false from hn] at hd
        cases hd

theorem Carries.done (hc : Pass cut) (h : Carries p fs) (hp : p.pass cut = some (none, p')) : Carries p' fs := by
  obtain ⟨r, hcut, rfl⟩ := Pipe.pass_none hp
  cases fs with
  | nil =>
    have hbuf := (List.append_eq_nil_iff.mp h.octets).1
    rw [hbuf, cut_nil hc] at hcut
    cases hcut
    refine ⟨?_, h.whole, fun _ f rest he => (by cases he)⟩
    rw [← h.octets, hbuf]
  | cons g rest =>
    rw [cut_front hc (h.whole g List.mem_cons_self) h.octets] at hcut
    split at hcut
    · rename_i hlt
      cases hcut
      refine ⟨h.octets, h.whole, fun _ f rest he => ?_⟩
      cases he
      exact hlt
    · cases hcut

theorem Carries.empty (h : Carries p fs) (hc : p.chan = []) (hd : p.draining = false) : fs = [] := by
  cases fs with
  | nil => rfl
  | cons f rest =>
    have hlt := h.waiting hd f rest rfl
    have hlen := congrArg List.length h.octets
    rw [hc, List.append_nil, List.flatten_cons, List.length_append] at hlen
    omega

end Drv60870.Link
