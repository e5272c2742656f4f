/-
  Drv60870.Lib.Lines — sequences of lines, each ended by a terminator.

  `cut` takes the first line off, `readlines` all of them with their terminators and what
  is behind the last. A suffix of terminated lines is a part of one line and whole lines
  behind it (`suffix_terminated`); a prefix gives the lines that are complete in it, and
  what is left continues them (`drain_prefix`).
-/

import Mathlib.Data.List.TakeWhile

namespace Drv60870.Lib.Lines

variable {α : Type} [DecidableEq α] (d : α)

/-! ## The first line -/

def cut (b : List α) : Option (List α × List α) :=
  match b.dropWhile (· != d) with
  | [] => none
  | _ :: rest => some (b.takeWhile (· != d), rest)

theorem ne_of_free {l : List α} (h : d ∉ l) : ∀ a ∈ l, (a != d) = true := by
  intro a ha
  rw [bne_iff_ne]
  rintro rfl
  exact h ha

theorem cut_line {l : List α} (h : d ∉ l) (rest : List α) : cut d (l ++ d :: rest) = some (l, rest) := by
  have hd : (d != d) = false := bne_self_eq_false d
  unfold cut
  rw [List.dropWhile_append_of_pos (ne_of_free d h), List.takeWhile_append_of_pos (ne_of_free d h),
    List.dropWhile_cons, List.takeWhile_cons, hd]
  simp

theorem cut_none {b : List α} (h : d ∉ b) : cut d b = none := by
  have hb : b.dropWhile (· != d) = [] := List.dropWhile_eq_nil_iff.mpr (ne_of_free d h)
  unfold cut
  rw [hb]

theorem cut_cases (b : List α) : (d ∉ b ∧ cut d b = none) ∨
    ∃ l rest, b = l ++ d :: rest ∧ d ∉ l ∧ cut d b = some (l, rest) := by
  by_cases h : d ∈ b
  · obtain ⟨l, rest, rfl, hl⟩ := List.eq_append_cons_of_mem h
    exact .inr ⟨l, rest, rfl, hl, cut_line d hl rest⟩
  · exact .inl ⟨h, cut_none d h⟩

theorem cut_some {b l rest : List α} (h : cut d b = some (l, rest)) : b = l ++ d :: rest ∧ d ∉ l := by
  rcases cut_cases d b with ⟨-, hn⟩ | ⟨l', rest', hb, hl, hs⟩
  · rw [hn] at h
    cases h
  · rw [hs] at h
    cases h
    exact ⟨hb, hl⟩

theorem cut_length_lt {b l rest : List α} (h : cut d b = some (l, rest)) : rest.length < b.length := by
  rw [(cut_some d h).1, List.length_append, List.length_cons]
  omega

/-! ## All lines -/

def ended (ls : List (List α)) : List (List α) := ls.map (· ++ [d])

def terminated (ls : List (List α)) : List α := (ended d ls).flatten

/-- The lines with their terminators, and what is behind the last. -/
def readlines (b : List α) : List (List α) :=
  match _h : cut d b with
  | none => if b = [] then [] else [b]
  | some (l, rest) => (l ++ [d]) :: readlines rest
termination_by b.length
decreasing_by exact cut_length_lt d _h

variable {d} {ls : List (List α)}

omit [DecidableEq α] in
theorem terminated_cons (l : List α) (ls : List (List α)) : terminated d (l :: ls) = l ++ d :: terminated d ls := by
  rw [terminated, ended, List.map_cons, List.flatten_cons, List.append_assoc]
  rfl

omit [DecidableEq α] in
theorem terminated_append (ls ls' : List (List α)) :
    terminated d (ls ++ ls') = terminated d ls ++ terminated d ls' := by
  rw [terminated, ended, List.map_append, List.flatten_append]
  rfl

theorem readlines_none {b : List α} (h : d ∉ b) : readlines d b = if b = [] then [] else [b] := by
  rw [readlines]
  split
  · rfl
  · rename_i hs
    rw [cut_none d h] at hs
    cases hs

theorem readlines_line {l : List α} (h : d ∉ l) (rest : List α) :
    readlines d (l ++ d :: rest) = (l ++ [d]) :: readlines d rest := by
  rw [readlines]
  split
  · rename_i hs
    rw [cut_line d h] at hs
    cases hs
  · rename_i hs
    rw [cut_line d h] at hs
    cases hs
    rfl

theorem readlines_flatten (b : List α) : (readlines d b).flatten = b := by
  induction b using (measure List.length).wf.induction with
  | _ b ih =>
  rcases cut_cases d b with ⟨hn, -⟩ | ⟨l, rest, rfl, hl, hs⟩
  · rw [readlines_none hn]
    split
    · rename_i hb
      rw [hb]
      rfl
    · exact List.flatten_singleton
  · rw [readlines_line hl, List.flatten_cons, ih rest (cut_length_lt d hs), List.append_assoc]
    rfl

theorem readlines_terminated (h : ∀ l ∈ ls, d ∉ l) : readlines d (terminated d ls) = ended d ls := by
  induction ls with
  | nil =>
    rw [readlines_none (by exact List.not_mem_nil)]
    rfl
  | cons l ls ih =>
    obtain ⟨hl, hls⟩ := List.forall_mem_cons.mp h
    rw [terminated_cons, readlines_line hl, ih hls]
    rfl

theorem count_terminated (h : ∀ l ∈ ls, d ∉ l) : (terminated d ls).count d = ls.length := by
  induction ls with
  | nil => rfl
  | cons l ls ih =>
    obtain ⟨hl, hls⟩ := List.forall_mem_cons.mp h
    rw [terminated_cons, List.count_append, List.count_eq_zero.mpr hl, List.count_cons_self, ih hls, List.length_cons]
    omega

/-! ## Where a sequence of lines is cut -/

omit [DecidableEq α] in
/-- A suffix of lines: the end of one and the lines behind it. -/
theorem suffix_terminated {s : List α} (hs : s <:+ terminated d ls) (hne : s ≠ []) :
    ∃ ls₁ l ls₂ r, ls = ls₁ ++ l :: ls₂ ∧ r <:+ l ∧ s = r ++ d :: terminated d ls₂ := by
  induction ls with
  | nil => exact absurd (List.suffix_nil.mp hs) hne
  | cons l ls ih =>
    rw [terminated_cons] at hs
    obtain ⟨p, hp⟩ := hs
    rcases List.append_eq_append_iff.mp hp with ⟨r, hl, hs⟩ | ⟨q, -, hq⟩
    · exact ⟨[], l, ls, r, rfl, ⟨p, hl.symm⟩, hs⟩
    · cases q with
      | nil => exact ⟨[], l, ls, [], rfl, List.nil_suffix, hq.symm⟩
      | cons a q =>
        obtain ⟨-, hq⟩ := List.cons.inj hq
        obtain ⟨ls₁, l', ls₂, r, rfl, hr, hs⟩ := ih ⟨q, hq.symm⟩
        exact ⟨l :: ls₁, l', ls₂, r, rfl, hr, hs⟩

/-- As many lines are read from a suffix as it has terminators. -/
theorem length_readlines_suffix (h : ∀ l ∈ ls, d ∉ l) {s : List α} (hs : s <:+ terminated d ls) :
    (readlines d s).length = s.count d := by
  by_cases hne : s = []
  · rw [hne, readlines_none (by exact List.not_mem_nil)]
    rfl
  · obtain ⟨ls₁, l, ls₂, r, rfl, hr, rfl⟩ := suffix_terminated hs hne
    have hls₂ : ∀ l ∈ ls₂, d ∉ l := fun l' hl' => h l' (by simp [hl'])
    have hr' : d ∉ r := fun hd => h l (by simp) (hr.subset hd)
    rw [readlines_line hr', readlines_terminated hls₂, List.count_append, List.count_eq_zero.mpr hr',
      List.count_cons_self, count_terminated hls₂, List.length_cons, ended, List.length_map]
    omega

/-! ## Lines that arrive in parts -/

variable (d) in
/-- The complete lines, and what is left of the next. -/
def drain (b : List α) : List (List α) × List α :=
  match _h : cut d b with
  | none => ([], b)
  | some (l, rest) => (l :: (drain rest).1, (drain rest).2)
termination_by b.length
decreasing_by all_goals exact cut_length_lt d _h

theorem drain_none {b : List α} (h : d ∉ b) : drain d b = ([], b) := by
  rw [drain]
  split
  · rfl
  · rename_i hs
    rw [cut_none d h] at hs
    cases hs

theorem drain_line {l : List α} (h : d ∉ l) (rest : List α) :
    drain d (l ++ d :: rest) = (l :: (drain d rest).1, (drain d rest).2) := by
  rw [drain]
  split
  · rename_i hs
    rw [cut_line d h] at hs
    cases hs
  · rename_i hs
    rw [cut_line d h] at hs
    cases hs
    rfl

/-- A prefix of lines: those that are complete in it, and the rest continues what is left. -/
theorem drain_prefix {b x : List α} (h : ∀ l ∈ ls, d ∉ l) (hb : b ++ x = terminated d ls) :
    ∃ ls₂ r, ls = (drain d b).1 ++ ls₂ ∧ (drain d b).2 = r ∧ d ∉ r ∧ r ++ x = terminated d ls₂ := by
  induction ls generalizing b with
  | nil =>
    obtain ⟨rfl, rfl⟩ := List.append_eq_nil_iff.mp hb
    rw [drain_none (by exact List.not_mem_nil)]
    exact ⟨[], [], rfl, rfl, List.not_mem_nil, rfl⟩
  | cons l ls ih =>
    obtain ⟨hl, hls⟩ := List.forall_mem_cons.mp h
    rw [terminated_cons] at hb
    rcases List.append_eq_append_iff.mp hb with ⟨p, hp, hx⟩ | ⟨q, hq, hx⟩
    · have hb' : d ∉ b := fun hd => hl (by rw [hp]; exact List.mem_append_left _ hd)
      rw [drain_none hb']
      refine ⟨l :: ls, b, rfl, rfl, hb', ?_⟩
      rw [terminated_cons]
      exact hb
    · cases q with
      | nil =>
        rw [List.append_nil] at hq
        have hb' : d ∉ b := by rw [hq]; exact hl
        rw [drain_none hb']
        refine ⟨l :: ls, b, rfl, rfl, hb', ?_⟩
        rw [terminated_cons]
        exact hb
      | cons a q =>
        obtain ⟨rfl, hrest⟩ := List.cons.inj hx
        obtain ⟨ls₂, r, hsplit, hr, hfree, hrest⟩ := ih hls hrest.symm
        rw [hq, drain_line hl]
        exact ⟨ls₂, r, by rw [List.cons_append, ← hsplit], hr, hfree, hrest⟩

end Drv60870.Lib.Lines
