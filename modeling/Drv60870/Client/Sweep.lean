/-
  Drv60870.Client.Sweep — what `run_client_loop` removes.

  It tests the sessions of its copy of the table and removes by name, so between the copy and
  the removal the name may come to stand for another session.

  Proved:
  - Whatever the sweep removes, stops and closes has stopped before
    (`sweepsDead_of_nameFree`), with any number of calls and sweeps in flight, where no
    session is registered under a name that a sweep has yet to go through or to remove.
    Until then such a name stands for the session of the copy, or for none (`led_step`), and
    a session tested and found stopped stays so (`tested_step`).
  - Without that it fails: a name that is disconnected and connected again while the sweep is
    at work on another loses its new session (`the_sweep_removes_a_live_session`).
-/

import Drv60870.Client.Pool

namespace Drv60870.Client

open Lib Lib.Runs

/-- The sessions of the copy that the sweep has yet to go through, or to remove. -/
def Flight.ahead : Flight → List (String × Entry)
  | .sweeping rest | .swept _ rest => rest
  | .found name tested rest => (name, tested) :: rest
  | .checked _ | .opened _ | .popped _ => []

namespace Pool

/-- What the sweep has removed, and goes on to stop and close, had stopped. -/
def SweepsDead (s : Pool) : Prop := ∀ x rest, .swept x rest ∈ s.flights → x ∉ s.live

/-- No session is registered under a name that a sweep has ahead. -/
def nameFree (s : Pool) : Act → Bool
  | .add i =>
    match s.flights[i]? with
    | some (.opened session) =>
      (s.table.get session.name).isSome || s.flights.all fun f => f.ahead.all fun e => e.1 ≠ session.name
    | _ => true
  | _ => true

/-! ## Steps -/

inductive Adds (s : Pool) : Act → Flight → Prop
  | call (a) (f) : f.ahead = [] → (∀ name x rest, f ≠ .found name x rest) → (∀ x rest, f ≠ .swept x rest) → Adds s a f
  | list : Adds s .list (.sweeping s.table.entries)
  | passed (i name x rest) : s.flights[i]? = some (.sweeping ((name, x) :: rest)) → Adds s (.test i) (.sweeping rest)
  | found (i name x rest) : s.flights[i]? = some (.sweeping ((name, x) :: rest)) → x ∉ s.live →
      Adds s (.test i) (.found name x rest)
  | gone (i name tested rest) : s.flights[i]? = some (.found name tested rest) → Adds s (.remove i) (.sweeping rest)
  | swept (i name tested rest x) : s.flights[i]? = some (.found name tested rest) → s.table.get name = some x →
      Adds s (.remove i) (.swept x rest)
  | stopped (i x rest) : s.flights[i]? = some (.swept x rest) → Adds s (.stop i) (.sweeping rest)

theorem mem_land {s : Pool} {i : Nat} {f : Flight} (h : f ∈ (s.land i).flights) : f ∈ s.flights :=
  List.mem_of_mem_eraseIdx h

theorem mem_fly {s : Pool} {i : Nat} {f g : Flight} (h : f ∈ (s.fly i g).flights) : f ∈ s.flights ∨ f = g :=
  List.mem_or_eq_of_mem_set h

theorem mem_pop {s : Pool} {name : String} {f : Flight} (h : f ∈ (s.pop name).flights) :
    f ∈ s.flights ∨ ∃ x, f = .popped x := by
  unfold pop at h
  split at h
  · exact .inl h
  · rename_i x _
    rcases List.mem_append.mp h with h | h
    · exact .inl h
    · exact .inr ⟨x, List.mem_singleton.mp h⟩

theorem register_flights (s : Pool) (x : Entry) : (s.register x).flights = s.flights := by
  unfold register
  split
  · rfl
  · split <;> rfl

theorem flights_step {s s' : Pool} {a : Act} (h : s.step a = some s') :
    ∀ f ∈ s'.flights, f ∈ s.flights ∨ Adds s a f := by
  intro f hf
  cases a with
  | connect name =>
    simp only [step] at h
    split at h
    · cases h
      exact .inl hf
    · cases h
      rcases List.mem_append.mp hf with hf | hf
      · exact .inl hf
      · rw [List.mem_singleton.mp hf]
        exact .inr (.call _ _ rfl (by simp) (by simp))
  | start i accepted =>
    simp only [step] at h
    split at h
    · split at h
      · cases h
        rcases List.mem_append.mp hf with hf | hf
        · exact .inl (List.mem_of_mem_eraseIdx hf)
        · rw [List.mem_singleton.mp hf]
          exact .inr (.call _ _ rfl (by simp) (by simp))
      · cases h
        exact .inl (mem_land hf)
    · cases h
  | add i =>
    simp only [step] at h
    split at h
    · cases h
      rw [register_flights] at hf
      exact .inl (mem_land hf)
    · cases h
  | disconnect name =>
    cases h
    rcases mem_pop hf with hf | hf
    · exact .inl hf
    · obtain ⟨x, rfl⟩ := hf
      exact .inr (.call _ _ rfl (by simp) (by simp))
  | list =>
    cases h
    rcases List.mem_append.mp hf with hf | hf
    · exact .inl hf
    · rw [List.mem_singleton.mp hf]
      exact .inr .list
  | test i =>
    simp only [step] at h
    split at h
    · rename_i name x rest hi
      cases h
      rcases mem_fly hf with hf | rfl
      · exact .inl hf
      · split
        · exact .inr (.passed i name x rest hi)
        · rename_i hx
          exact .inr (.found i name x rest hi hx)
    · cases h
      exact .inl (mem_land hf)
    · cases h
  | remove i =>
    simp only [step] at h
    split at h
    · rename_i name tested rest hi
      split at h
      · cases h
        rcases mem_fly hf with hf | rfl
        · exact .inl hf
        · exact .inr (.gone i name tested rest hi)
      · rename_i x hg
        cases h
        rcases mem_fly hf with hf | rfl
        · exact .inl hf
        · exact .inr (.swept i name tested rest x hi hg)
    · cases h
  | stop i =>
    simp only [step] at h
    split at h
    · cases h
      exact .inl (mem_land hf)
    · rename_i x rest hi
      cases h
      rcases mem_fly hf with hf | rfl
      · exact .inl hf
      · exact .inr (.stopped i x rest hi)
    · cases h
  | die x =>
    simp only [step] at h
    split at h
    · cases h
      exact .inl hf
    · cases h

theorem ahead_step {s s' : Pool} {a : Act} (h : s.step a = some s') {f : Flight} (hf : f ∈ s'.flights)
    {e : String × Entry} (he : e ∈ f.ahead) : (∃ g ∈ s.flights, e ∈ g.ahead) ∨ (a = .list ∧ e ∈ s.table.entries) := by
  rcases flights_step h f hf with hf | hadd
  · exact .inl ⟨f, hf, he⟩
  · cases hadd with
    | call _ _ hno =>
      rw [hno] at he
      cases he
    | list => exact .inr ⟨rfl, he⟩
    | passed i name x rest hi =>
      exact .inl ⟨_, List.mem_of_getElem? hi, List.mem_cons_of_mem _ he⟩
    | found i name x rest hi => exact .inl ⟨_, List.mem_of_getElem? hi, he⟩
    | gone i name tested rest hi => exact .inl ⟨_, List.mem_of_getElem? hi, List.mem_cons_of_mem _ he⟩
    | swept i name tested rest x hi => exact .inl ⟨_, List.mem_of_getElem? hi, List.mem_cons_of_mem _ he⟩
    | stopped i x rest hi => exact .inl ⟨_, List.mem_of_getElem? hi, he⟩

theorem live_step {s s' : Pool} {a : Act} (h : s.step a = some s') :
    s.next ≤ s'.next ∧ ∀ x ∈ s'.live, x ∈ s.live ∨ x.id = s.next := by
  cases step_moved h with
  | kept _ _ _ _ hl hn => exact ⟨Nat.le_of_eq hn.symm, fun x hx => .inl (hl.subset hx)⟩
  | started _ _ y _ hid _ hl hn =>
    refine ⟨by rw [hn]; exact Nat.le_succ _, fun x hx => ?_⟩
    rw [hl] at hx
    rcases List.mem_append.mp hx with hx | hx
    · exact .inl hx
    · rw [List.mem_singleton.mp hx]
      exact .inr hid
  | stopped _ _ y _ _ hl hn =>
    refine ⟨Nat.le_of_eq hn.symm, fun x hx => ?_⟩
    rw [hl] at hx
    exact .inl (List.mem_of_mem_erase hx)
  | dropped _ _ y _ _ _ hl hn =>
    refine ⟨Nat.le_of_eq hn.symm, fun x hx => ?_⟩
    rw [hl] at hx
    exact .inl hx

theorem dead_step {s s' : Pool} {a : Act} (h : s.step a = some s') {x : Entry} (hx : x ∉ s.live)
    (hid : x.id < s.next) : x ∉ s'.live := by
  intro hl
  rcases (live_step h).2 x hl with hl | hn
  · exact hx hl
  · omega

/-- Only `add_session` makes a name stand for a session. -/
theorem table_step {s s' : Pool} {a : Act} (h : s.step a = some s') {n : String} {x : Entry}
    (hx : s'.table.get n = some x) :
    s.table.get n = some x ∨
      ∃ i, a = .add i ∧ s.flights[i]? = some (.opened x) ∧ s.table.get n = none ∧ x.name = n := by
  cases a with
  | add i =>
    simp only [step] at h
    split at h
    · rename_i y hi
      cases h
      unfold register at hx
      split at hx
      · exact .inl hx
      · rename_i hfree
        have hnone : s.table.get y.name = none := Option.not_isSome_iff_eq_none.mp hfree
        split at hx
        · exact .inl hx
        · simp only [Dict.get_set] at hx
          split at hx
          · rename_i hn
            cases hx
            rw [← hn] at hnone
            exact .inr ⟨i, rfl, hi, hnone, hn.symm⟩
          · exact .inl hx
    · cases h
  | disconnect name =>
    cases h
    unfold pop at hx
    split at hx
    · exact .inl hx
    · simp only [Dict.get_erase] at hx
      split at hx
      · cases hx
      · exact .inl hx
  | remove i =>
    simp only [step] at h
    split at h
    · split at h
      · cases h
        exact .inl hx
      · cases h
        simp only [Dict.get_erase] at hx
        split at hx
        · cases hx
        · exact .inl hx
    · cases h
  | list =>
    cases h
    exact .inl hx
  | connect | test | stop | die =>
    simp only [step] at h
    split at h <;> cases h <;> exact .inl hx
  | start i accepted =>
    simp only [step] at h
    split at h
    · split at h <;> cases h <;> exact .inl hx
    · cases h

/-! ## Runs -/

/-- What the sweep knows of the sessions: those it tested have stopped, and a name it has ahead
    stands for the session of its copy, or for none. -/
structure Kept (s : Pool) : Prop where
  sound : Sound s
  known : ∀ f ∈ s.flights, ∀ e ∈ f.ahead, e.2.id < s.next
  led : ∀ f ∈ s.flights, ∀ e ∈ f.ahead, ∀ x, s.table.get e.1 = some x → x = e.2
  tested : ∀ name x rest, .found name x rest ∈ s.flights → x ∉ s.live
  swept : s.SweepsDead

theorem kept_empty : Kept empty where
  sound := sound_empty
  known := fun f hf => by cases hf
  led := fun f hf => by cases hf
  tested := fun name x rest hf => by cases hf
  swept := fun x rest hf => by cases hf

theorem Kept.fresh {s : Pool} (h : Kept s) {name : String} {x : Entry} (hx : s.table.get name = some x) :
    x.id < s.next :=
  h.sound.fresh x (List.mem_append_right _ (List.mem_append_left _ (Dict.mem_values.mpr ⟨name, hx⟩)))

theorem nameFree_add {s : Pool} {i : Nat} {x : Entry} (h : s.nameFree (.add i) = true)
    (hi : s.flights[i]? = some (.opened x)) (hx : s.table.get x.name = none) :
    ∀ f ∈ s.flights, ∀ e ∈ f.ahead, e.1 ≠ x.name := by
  simp only [nameFree, hi, hx, Option.isSome_none, Bool.false_or] at h
  intro f hf e he
  have hall := List.all_eq_true.mp h f hf
  exact of_decide_eq_true (List.all_eq_true.mp hall e he)

theorem led_step {s s' : Pool} {a : Act} (h : Kept s) (hok : s.nameFree a = true) (hs : s.step a = some s') :
    ∀ f ∈ s'.flights, ∀ e ∈ f.ahead, ∀ x, s'.table.get e.1 = some x → x = e.2 := by
  intro f hf e he x hx
  rcases ahead_step hs hf he with hold | ⟨rfl, htable⟩
  · obtain ⟨g, hg, he⟩ := hold
    rcases table_step hs hx with hx | hadd
    · exact h.led g hg e he x hx
    · obtain ⟨i, rfl, hi, hnone, hn⟩ := hadd
      rw [← hn] at hnone
      exact absurd hn.symm (nameFree_add hok hi hnone g hg e he)
  · rcases table_step hs hx with hx | hadd
    · rw [Dict.get_eq_some.mpr htable] at hx
      exact (Option.some.inj hx).symm
    · obtain ⟨i, hi, -⟩ := hadd
      cases hi

theorem tested_step {s s' : Pool} {a : Act} (h : Kept s) (hs : s.step a = some s') {name : String} {x : Entry}
    {rest : List (String × Entry)} (hf : .found name x rest ∈ s'.flights) : x ∉ s'.live := by
  have hid : ∀ f ∈ s.flights, (name, x) ∈ f.ahead → x.id < s.next := fun f hf he => h.known f hf _ he
  rcases flights_step hs _ hf with hf | hadd
  · exact dead_step hs (h.tested name x rest hf) (hid _ hf List.mem_cons_self)
  · cases hadd with
    | call _ _ _ hno => exact absurd rfl (hno name x rest)
    | found i _ _ _ hi hdead => exact dead_step hs hdead (hid _ (List.mem_of_getElem? hi) List.mem_cons_self)

/-- The name popped stands for the session tested. -/
theorem swept_step {s s' : Pool} {a : Act} (h : Kept s) (hs : s.step a = some s') : s'.SweepsDead := by
  intro x rest hf
  rcases flights_step hs _ hf with hf | hadd
  · have hplace : x ∈ s.places := mem_places.mpr (.inr ⟨_, hf, rfl⟩)
    exact dead_step hs (h.swept x rest hf) (h.sound.fresh x (List.mem_append_right _ hplace))
  · cases hadd with
    | call _ _ _ _ hno => exact absurd rfl (hno x rest)
    | swept i name tested _ _ hi hx =>
      have hfound := List.mem_of_getElem? hi
      have he : x = tested := h.led _ hfound (name, tested) List.mem_cons_self x hx
      rw [he] at hx ⊢
      exact dead_step hs (h.tested name tested rest hfound) (h.fresh hx)

theorem kept_step {s s' : Pool} {a : Act} (h : Kept s) (hok : s.nameFree a = true) (hs : s.step a = some s') :
    Kept s' := by
  refine ⟨sound_step h.sound hs, fun f hf e he => ?_, led_step h hok hs, fun _ _ _ hf => tested_step h hs hf,
    swept_step h hs⟩
  rcases ahead_step hs hf he with hold | ⟨-, htable⟩
  · obtain ⟨g, hg, he⟩ := hold
    exact Nat.lt_of_lt_of_le (h.known g hg e he) (live_step hs).1
  · exact Nat.lt_of_lt_of_le (h.fresh (Dict.get_eq_some.mpr htable)) (live_step hs).1

/-- In every run, with any number of calls and sweeps in flight. -/
theorem sweepsDead_of_nameFree {s : Pool} (h : Reach step (fun s a => s.nameFree a = true) empty s) : s.SweepsDead :=
  (h.inv (P := Kept) kept_empty fun _ _ _ hk hok hs => kept_step hk hok hs).swept

/-- A session that stops by itself is removed; the one that goes on is not. -/
theorem sweepsDead_of_nameFree_stopped : ∃ s : Pool,
    s.flights = [.swept ⟨0, "PU_1"⟩ [("PU_2", ⟨1, "PU_2"⟩)]] ∧ s.live = [⟨1, "PU_2"⟩] ∧ s.SweepsDead := by
  have hrun : (run (checked nameFree step) empty
      (connectTo "PU_1" ++ connectTo "PU_2" ++ [.die ⟨0, "PU_1"⟩, .list, .test 0, .remove 0])).map
      (fun s => (s.flights, s.live)) =
      some ([.swept ⟨0, "PU_1"⟩ [("PU_2", ⟨1, "PU_2"⟩)]], [⟨1, "PU_2"⟩]) := by decide
  obtain ⟨s, hr, he⟩ := exists_of_run _ hrun
  simp only [Prod.mk.injEq] at he
  exact ⟨s, he.1, he.2, sweepsDead_of_nameFree (reach_of_checked hr)⟩

/-! ## A name that comes back -/

def sweepOver : List Act :=
  connectTo "PU_1" ++ connectTo "PU_2" ++ [.die ⟨0, "PU_1"⟩, .list, .test 0, .remove 0] ++
    [.disconnect "PU_2", .stop 1, .connect "PU_2", .start 1 true, .add 1] ++ [.stop 0, .test 0, .remove 0]

theorem the_sweep_removes_a_live_session :
    ¬ ∀ as s, run step empty as = some s → Along step SweepsDead empty as := by
  intro hall
  have hrun : (run step empty sweepOver).map (fun s => (s.flights, s.live)) =
      some ([.swept ⟨2, "PU_2"⟩ []], [⟨2, "PU_2"⟩]) := by decide
  obtain ⟨s, hs, he⟩ := Option.map_eq_some_iff.mp hrun
  simp only [Prod.mk.injEq] at he
  have hdead := (hall _ s hs).last hs ⟨2, "PU_2"⟩ [] (by rw [he.1]; exact List.mem_cons_self)
  rw [he.2] at hdead
  exact hdead List.mem_cons_self

end Pool

end Drv60870.Client
