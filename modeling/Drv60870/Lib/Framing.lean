/-
  Drv60870.Lib.Framing — frames cut out of a stream.

  A frame starts with the symbol `start`; its second symbol gives its length. The
  reference parser (`parse`) reads the whole stream in one pass: it drops what precedes
  the next start, takes the frame when all of it is there, and goes on behind it; what it
  cannot use yet is the leftover.

  A receiver sees the stream in chunks and keeps a buffer between them. `Faithful` says
  what its drain loop has to do on one buffer: cut the reference frames and keep a rest
  that no later data can tell from the leftover. Proved: a faithful drain fed any chunks
  cuts exactly the reference frames of the whole stream (`feed_parse`), with a buffer
  that stays within the drain's bound. `Cutter.Follows.faithful`: a loop is faithful when its
  body is.
-/

import Mathlib.Data.List.DropRight

namespace Drv60870.Lib.Framing

structure Proto (α : Type) where
  start : α
  total : α → Nat
  two_le : ∀ l, 2 ≤ total l

variable {α : Type} [DecidableEq α] (P : Proto α)

def sync (b : List α) : List α := b.dropWhile (· != P.start)

/-- The first frame of `b` and what follows it, when all of the frame is there. -/
def next (b : List α) : Option (List α × List α) :=
  match (sync P b)[1]? with
  | some l =>
    if P.total l ≤ (sync P b).length then some ((sync P b).take (P.total l), (sync P b).drop (P.total l)) else none
  | none => none

theorem sync_length_le (b : List α) : (sync P b).length ≤ b.length := (List.dropWhile_sublist _).length_le

theorem next_some {b f r : List α} (h : next P b = some (f, r)) :
    ∃ l, (sync P b)[1]? = some l ∧ P.total l ≤ (sync P b).length ∧ f = (sync P b).take (P.total l) ∧
      r = (sync P b).drop (P.total l) := by
  unfold next at h
  split at h
  · rename_i l hl
    split at h
    · rename_i hle
      cases h
      exact ⟨l, hl, hle, rfl, rfl⟩
    · cases h
  · cases h

theorem next_eq {b : List α} {l : α} (hl : (sync P b)[1]? = some l) (hle : P.total l ≤ (sync P b).length) :
    next P b = some ((sync P b).take (P.total l), (sync P b).drop (P.total l)) := by
  simp only [next, hl, hle, if_true]

theorem next_length_lt {b f r : List α} (h : next P b = some (f, r)) : r.length < b.length := by
  obtain ⟨l, -, hle, -, rfl⟩ := next_some P h
  have h2 := P.two_le l
  have hs := sync_length_le P b
  rw [List.length_drop]
  omega

def parse (b : List α) : List (List α) × List α :=
  match _h : next P b with
  | some (f, r) => (f :: (parse r).1, (parse r).2)
  | none => ([], sync P b)
termination_by b.length
decreasing_by all_goals exact next_length_lt P _h

theorem parse_some {b f r : List α} (h : next P b = some (f, r)) :
    parse P b = (f :: (parse P r).1, (parse P r).2) := by
  rw [parse]
  split
  · rename_i f' r' h'
    rw [h] at h'
    cases h'
    rfl
  · rename_i h'
    rw [h] at h'
    cases h'

theorem parse_none {b : List α} (h : next P b = none) : parse P b = ([], sync P b) := by
  rw [parse]
  split
  · rename_i h'
    rw [h] at h'
    cases h'
  · rfl

/-! ## More data -/

/-- Once a start is found, later data only extends what follows it. -/
theorem sync_append_of_ne_nil {b : List α} (x : List α) (h : sync P b ≠ []) : sync P (b ++ x) = sync P b ++ x := by
  unfold sync at h ⊢
  rw [List.dropWhile_append, if_neg fun he => h (List.isEmpty_iff.mp he)]

theorem sync_append_of_nil {b : List α} (x : List α) (h : sync P b = []) : sync P (b ++ x) = sync P x := by
  unfold sync at h ⊢
  rw [List.dropWhile_append, if_pos (List.isEmpty_iff.mpr h)]

@[simp] theorem sync_sync (b : List α) : sync P (sync P b) = sync P b := List.dropWhile_idempotent _ _

theorem sync_eq_idxOf? (b : List α) : sync P b = ((b.idxOf? P.start).map b.drop).getD [] := by
  induction b with
  | nil => rfl
  | cons a b ih =>
    unfold sync at ih ⊢
    rw [List.idxOf?_cons]
    by_cases ha : a = P.start
    · simp [ha]
    · simp only [List.dropWhile_cons, bne_iff_ne, ne_eq, ha, not_false_eq_true, if_true, beq_iff_eq, if_false, ih,
        Option.map_map]
      rfl

theorem sync_append (b x : List α) : sync P (sync P b ++ x) = sync P (b ++ x) := by
  by_cases h : sync P b = []
  · rw [sync_append_of_nil P x h, h, List.nil_append]
  · rw [sync_append_of_ne_nil P x h, sync_append_of_ne_nil P x (by rwa [sync_sync]), sync_sync]

theorem next_congr {b c : List α} (h : sync P b = sync P c) : next P b = next P c := by
  simp only [next, h]

theorem parse_congr {b c : List α} (h : sync P b = sync P c) : parse P b = parse P c := by
  have hn := next_congr P h
  cases hb : next P b with
  | some q =>
    obtain ⟨f, r⟩ := q
    rw [parse_some P hb, parse_some P (hn.symm.trans hb)]
  | none => rw [parse_none P hb, parse_none P (hn.symm.trans hb), h]

theorem next_append {b f r : List α} (x : List α) (h : next P b = some (f, r)) :
    next P (b ++ x) = some (f, r ++ x) := by
  obtain ⟨l, hl, hle, rfl, rfl⟩ := next_some P h
  have hne : sync P b ≠ [] := by intro e; simp [e] at hl
  have hs := sync_append_of_ne_nil P x hne
  have hl' : (sync P (b ++ x))[1]? = some l := by
    rw [hs, List.getElem?_append_left (List.getElem?_eq_some_iff.mp hl).1, hl]
  rw [next_eq P hl' (by rw [hs, List.length_append]; omega), hs, List.take_append_of_le_length hle,
    List.drop_append_of_le_length hle]

/-- Parsing a stream in two parts: the leftover of the first goes before the second. -/
theorem parse_append : ∀ b x : List α,
    parse P (b ++ x) = ((parse P b).1 ++ (parse P ((parse P b).2 ++ x)).1, (parse P ((parse P b).2 ++ x)).2) := by
  intro b
  induction b using (measure List.length).wf.induction with
  | _ b ih =>
  intro x
  cases h : next P b with
  | some q =>
    obtain ⟨f, r⟩ := q
    rw [parse_some P (next_append P x h), parse_some P h, ih r (next_length_lt P h) x]
    rfl
  | none =>
    rw [parse_none P h, ← parse_congr P (sync_append P b x)]
    rfl

theorem sync_leftover : ∀ b : List α, sync P (parse P b).2 = (parse P b).2 := by
  intro b
  induction b using (measure List.length).wf.induction with
  | _ b ih =>
  cases h : next P b with
  | some q =>
    obtain ⟨f, r⟩ := q
    rw [parse_some P h]
    exact ih r (next_length_lt P h)
  | none => rw [parse_none P h, sync_sync]

theorem parse_leftover : ∀ b : List α, (parse P (parse P b).2).1 = [] := by
  intro b
  have h := parse_append P b []
  have := congrArg (fun t => t.1.length) h
  simp only [List.append_nil, List.length_append] at this
  exact List.eq_nil_of_length_eq_zero (by omega)

/-! ## The length symbols the parser meets -/

def Meets (b : List α) (l : α) : Prop := (∃ f ∈ (parse P b).1, f[1]? = some l) ∨ (parse P b).2[1]? = some l

def Clean (Q : α → Prop) (b : List α) : Prop := ∀ l, Meets P b l → Q l

variable {P} {Q : α → Prop}

/-- The length symbol behind the start is met. -/
theorem meets_second {b : List α} {l : α} (h : (sync P b)[1]? = some l) : Meets P b l := by
  cases hn : next P b with
  | some q =>
    obtain ⟨f, r⟩ := q
    obtain ⟨l', hl', hle, rfl, -⟩ := next_some P hn
    obtain rfl : l = l' := by rw [h] at hl'; exact Option.some.inj hl'
    refine Or.inl ⟨_, by rw [parse_some P hn]; exact List.mem_cons_self, ?_⟩
    rw [List.getElem?_take, if_pos (by have := P.two_le l; omega), h]
  | none => exact Or.inr (by rw [parse_none P hn]; exact h)

theorem Clean.congr {b c : List α} (hs : sync P b = sync P c) (h : Clean P Q b) : Clean P Q c := by
  intro l hl
  apply h l
  unfold Meets at hl ⊢
  rwa [parse_congr P hs]

/-- What a receiver holds after the stream so far is as clean as the whole stream. -/
theorem Clean.rest {b x : List α} (h : Clean P Q (b ++ x)) : Clean P Q ((parse P b).2 ++ x) := by
  intro l hl
  apply h l
  unfold Meets at hl ⊢
  rw [parse_append P b x]
  rcases hl with ⟨f, hf, hfl⟩ | hl
  · exact Or.inl ⟨f, List.mem_append_right _ hf, hfl⟩
  · exact Or.inr hl

theorem Clean.left {b x : List α} (h : Clean P Q (b ++ x)) : Clean P Q b := by
  intro l hm
  rcases hm with ⟨f, hf, hfl⟩ | hl
  · apply h l
    rw [Meets, parse_append P b x]
    exact Or.inl ⟨f, List.mem_append_left _ hf, hfl⟩
  · have hne : sync P (parse P b).2 ≠ [] := by
      intro e
      rw [sync_leftover] at e
      simp [e] at hl
    apply h.rest l
    apply meets_second
    rw [sync_append_of_ne_nil P x hne, sync_leftover, List.getElem?_append_left (List.getElem?_eq_some_iff.mp hl).1, hl]

/-! ## Chunks -/

section Chunks

/-- On a buffer with length symbols in `Q`, the drain loop cuts the reference frames and
    keeps at most `N` symbols, which resynchronise to the leftover. -/
structure Faithful (P : Proto α) (Q : α → Prop) (N : Nat) (drain : List α → List (List α) × List α) : Prop where
  frames : ∀ b, Clean P Q b → (drain b).1 = (parse P b).1
  rest : ∀ b, Clean P Q b → sync P (drain b).2 = (parse P b).2
  bound : ∀ b, Clean P Q b → (drain b).2.length ≤ N

def feed (drain : List α → List (List α) × List α) : List α → List (List α) → List (List α) × List α
  | b, [] => ([], b)
  | b, c :: cs => ((drain (b ++ c)).1 ++ (feed drain (drain (b ++ c)).2 cs).1, (feed drain (drain (b ++ c)).2 cs).2)

variable {N : Nat} {drain : List α → List (List α) × List α}

/-- The stream still to come is parsed behind the kept buffer as behind the leftover. -/
theorem Faithful.sync_rest (hd : Faithful P Q N drain) {b : List α} (h : Clean P Q b) (x : List α) :
    sync P ((drain b).2 ++ x) = sync P ((parse P b).2 ++ x) := by
  rw [← hd.rest b h, sync_append]

theorem Faithful.clean_rest (hd : Faithful P Q N drain) {b x : List α} (h : Clean P Q (b ++ x)) :
    Clean P Q ((drain b).2 ++ x) :=
  h.rest.congr (hd.sync_rest h.left x).symm

/-- However the stream is cut, the receiver cuts the reference frames. -/
theorem feed_parse (hd : Faithful P Q N drain) : ∀ (cs : List (List α)) (b : List α), (parse P b).1 = [] →
    Clean P Q (b ++ cs.flatten) → (feed drain b cs).1 = (parse P (b ++ cs.flatten)).1 := by
  intro cs
  induction cs with
  | nil => intro b hb _; simp [feed, hb]
  | cons c cs ih =>
    intro b _ hc
    rw [List.flatten_cons, ← List.append_assoc] at hc ⊢
    have hbuf := hc.left
    have hdone : (parse P (drain (b ++ c)).2).1 = [] := by
      rw [parse_congr P (c := (parse P (b ++ c)).2) (by rw [hd.rest _ hbuf, sync_leftover]), parse_leftover]
    rw [feed, ih _ hdone (hd.clean_rest hc), hd.frames _ hbuf, parse_append P (b ++ c),
      parse_congr P (hd.sync_rest hbuf cs.flatten)]

end Chunks

/-! ## Drain loops -/

/-- The body of a drain loop: the frame it cuts, if any, and the buffer it leaves. -/
structure Cutter (α : Type) where
  cut : List α → Option (List α) × List α
  shrinks : ∀ b f r, cut b = (some f, r) → r.length < b.length

def Cutter.drain (C : Cutter α) (b : List α) : List (List α) × List α :=
  match _h : C.cut b with
  | (some f, r) => (f :: (C.drain r).1, (C.drain r).2)
  | (none, r) => ([], r)
termination_by b.length
decreasing_by all_goals exact C.shrinks _ _ _ _h

variable {N : Nat} (C : Cutter α)

omit [DecidableEq α] in
theorem Cutter.drain_some {b f r : List α} (h : C.cut b = (some f, r)) :
    C.drain b = (f :: (C.drain r).1, (C.drain r).2) := by
  rw [Cutter.drain]
  split
  · rename_i f' r' h'
    rw [h] at h'
    cases h'
    rfl
  · rename_i r' h'
    rw [h] at h'
    cases h'

omit [DecidableEq α] in
theorem Cutter.drain_none {b r : List α} (h : C.cut b = (none, r)) : C.drain b = ([], r) := by
  rw [Cutter.drain]
  split
  · rename_i f' r' h'
    rw [h] at h'
    cases h'
  · rename_i r' h'
    rw [h] at h'
    cases h'
    rfl

/-- The frame behind a cut one is as clean. -/
theorem Clean.behind {b f r : List α} (h : Clean P Q b) (hn : next P b = some (f, r)) : Clean P Q r := by
  intro l hl
  apply h l
  unfold Meets at hl ⊢
  rw [parse_some P hn]
  rcases hl with ⟨g, hg, hgl⟩ | hl
  · exact Or.inl ⟨g, List.mem_cons_of_mem _ hg, hgl⟩
  · exact Or.inr hl

/-- What the body of a faithful loop does: it cuts the next reference frame if there is one,
    and otherwise leaves a short buffer that resynchronises as before. -/
structure Cutter.Follows (P : Proto α) (Q : α → Prop) (N : Nat) (C : Cutter α) : Prop where
  cuts : ∀ b f r, Clean P Q b → C.cut b = (some f, r) → next P b = some (f, r)
  leaves : ∀ b r, Clean P Q b → C.cut b = (none, r) → next P b = none ∧ sync P r = sync P b ∧ r.length ≤ N

theorem Cutter.Follows.faithful {C : Cutter α} (hC : C.Follows P Q N) : Faithful P Q N C.drain := by
  have key : ∀ b, Clean P Q b → (C.drain b).1 = (parse P b).1 ∧ sync P (C.drain b).2 = (parse P b).2 ∧
      (C.drain b).2.length ≤ N := by
    intro b
    induction b using (measure List.length).wf.induction with
    | _ b ih =>
    intro hb
    cases hc : C.cut b with
    | mk o r =>
      cases o with
      | none =>
        obtain ⟨hn, hs, hl⟩ := hC.leaves b r hb hc
        rw [C.drain_none hc, parse_none P hn]
        exact ⟨rfl, hs, hl⟩
      | some f =>
        have hn := hC.cuts b f r hb hc
        obtain ⟨h1, h2, h3⟩ := ih r (C.shrinks b f r hc) (hb.behind hn)
        rw [C.drain_some hc, parse_some P hn]
        exact ⟨by rw [h1], h2, h3⟩
  exact ⟨fun b hb => (key b hb).1, fun b hb => (key b hb).2.1, fun b hb => (key b hb).2.2⟩

end Drv60870.Lib.Framing
