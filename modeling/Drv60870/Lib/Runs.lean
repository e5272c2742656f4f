/-
  Drv60870.Lib.Runs — runs of a labelled transition function, and histories.

  `step s a` is the state after action `a`, or `none` when `a` is not possible in `s`.
  `Reach step ok s₀` holds of the states reached from `s₀` by steps whose state and
  action satisfy `ok`; `Reach.inv` is the invariant rule and `reach_of_run` turns a
  computed run into a reachable state.

  `settles` and `descends` are the progress rules: a run of given actions that does some of the
  work left with each of them ends, and where some action always does, there is a run that ends.

  `audited step note` runs `step` and keeps an account beside it, which no step reads.

  A history is the list of what happened so far. `Always P h` says that each of its
  entries satisfies `P` of the entries before it.
-/

import Mathlib.Data.List.Basic

namespace Drv60870.Lib.Runs

variable {S A : Type}

/-! ## Runs -/

inductive Reach (step : S → A → Option S) (ok : S → A → Prop) (s₀ : S) : S → Prop
  | init : Reach step ok s₀ s₀
  | step {s s' : S} {a : A} : Reach step ok s₀ s → ok s a → step s a = some s' → Reach step ok s₀ s'

def anyway (_ : S) (_ : A) : Prop := True

variable {step : S → A → Option S} {ok ok' : S → A → Prop} {s₀ s : S}

/-- The invariant rule: what holds at the start and is kept by every allowed step. -/
theorem Reach.inv {P : S → Prop} (h0 : P s₀) (hs : ∀ s a s', P s → ok s a → step s a = some s' → P s')
    (h : Reach step ok s₀ s) : P s := by
  induction h with
  | init => exact h0
  | step _ hok hstep ih => exact hs _ _ _ ih hok hstep

/-- A run under a stronger condition is a run under a weaker one. -/
theorem Reach.mono (hok : ∀ s a, ok s a → ok' s a) (h : Reach step ok s₀ s) : Reach step ok' s₀ s := by
  induction h with
  | init => exact .init
  | step _ h hs ih => exact .step ih (hok _ _ h) hs

theorem Reach.trans {t : S} (h : Reach step ok s₀ s) (h' : Reach step ok s t) : Reach step ok s₀ t := by
  induction h' with
  | init => exact h
  | step _ hok hs ih => exact .step ih hok hs

def run (step : S → A → Option S) : S → List A → Option S
  | s, [] => some s
  | s, a :: as => (step s a).bind fun s' => run step s' as

theorem run_snoc (step : S → A → Option S) (s : S) (as : List A) (a : A) :
    run step s (as ++ [a]) = (run step s as).bind fun t => step t a := by
  induction as generalizing s with
  | nil =>
    show (step s a).bind some = step s a
    exact Option.bind_fun_some (step s a)
  | cons b bs ih =>
    show (step s b).bind (fun t => run step t (bs ++ [a])) = ((step s b).bind fun t => run step t bs).bind _
    rw [Option.bind_assoc]
    exact congrArg _ (funext ih)

theorem Reach.run_from {as : List A} {s' : S} (h : Reach step anyway s₀ s) (hr : run step s as = some s') :
    Reach step anyway s₀ s' := by
  induction as generalizing s with
  | nil => cases hr; exact h
  | cons a as ih =>
    obtain ⟨t, ht, hr⟩ := Option.bind_eq_some_iff.mp hr
    exact ih (.step h trivial ht) hr

theorem reach_of_run {as : List A} (hr : run step s₀ as = some s) : Reach step anyway s₀ s :=
  Reach.init.run_from hr

/-- A run computed as far as `g` shows: its end is reachable. -/
theorem exists_of_run {B : Type} {as : List A} (g : S → B) {b : B} (h : (run step s₀ as).map g = some b) :
    ∃ s, Reach step anyway s₀ s ∧ g s = b := by
  obtain ⟨s, hs, hg⟩ := Option.map_eq_some_iff.mp h
  exact ⟨s, reach_of_run hs, hg⟩

def checked (ok : S → A → Bool) (step : S → A → Option S) (s : S) (a : A) : Option S :=
  if ok s a then step s a else none

theorem reach_of_checked {ok : S → A → Bool} (h : Reach (checked ok step) anyway s₀ s) :
    Reach step (fun s a => ok s a = true) s₀ s := by
  induction h with
  | init => exact .init
  | step _ _ hs ih =>
    unfold checked at hs
    split at hs
    · rename_i hok
      exact .step ih hok hs
    · cases hs

/-! ## Every state of a run -/

/-- `P` holds in every state of the run that these actions make. -/
def Along (step : S → A → Option S) (P : S → Prop) : S → List A → Prop
  | s, [] => P s
  | s, a :: as => P s ∧ ∀ s', step s a = some s' → Along step P s' as

theorem Along.last {P : S → Prop} {as : List A} {t : S} (h : Along step P s as) (hr : run step s as = some t) :
    P t := by
  induction as generalizing s with
  | nil =>
    cases hr
    exact h
  | cons a as ih =>
    obtain ⟨s', hstep, hr⟩ := Option.bind_eq_some_iff.mp hr
    exact ih (h.2 s' hstep) hr

def Obeys (step : S → A → Option S) (ok : S → A → Prop) : S → List A → Prop
  | _, [] => True
  | s, a :: as => ok s a ∧ ∀ s', step s a = some s' → Obeys step ok s' as

/-- Where `J` is kept by the steps that are `ok` and grants `P`, and only an `ok` step leaves `P`,
    the runs that satisfy `P` throughout are those whose steps are all `ok`. -/
theorem along_iff_obeys_of {J P : S → Prop} (hJ : ∀ s a s', J s → ok s a → step s a = some s' → J s')
    (hP : ∀ s, J s → P s) (hok : ∀ s a s', J s → step s a = some s' → P s' → ok s a) {as : List A} {t : S}
    (hs : J s) (hr : run step s as = some t) : Along step P s as ↔ Obeys step ok s as := by
  induction as generalizing s with
  | nil => exact ⟨fun _ => trivial, fun _ => hP s hs⟩
  | cons a as ih =>
    obtain ⟨s', hstep, hr⟩ := Option.bind_eq_some_iff.mp hr
    constructor
    · intro h
      have hal := h.2 s' hstep
      have hp' : P s' := by
        cases as with
        | nil => exact hal
        | cons b bs => exact hal.1
      have hok' := hok s a s' hs hstep hp'
      refine ⟨hok', fun s'' h'' => ?_⟩
      rw [hstep] at h''
      cases h''
      exact (ih (hJ s a s' hs hok' hstep) hr).mp hal
    · intro h
      refine ⟨hP s hs, fun s'' h'' => ?_⟩
      rw [hstep] at h''
      cases h''
      exact (ih (hJ s a s' hs h.1 hstep) hr).mpr (h.2 s' hstep)

/-- Where every step keeps `I`, and keeps `P` exactly when it is `ok`. -/
theorem along_iff_obeys {I P : S → Prop} (hI : ∀ s a s', I s → step s a = some s' → I s')
    (hP : ∀ s a s', I s → P s → step s a = some s' → (P s' ↔ ok s a)) {as : List A} {t : S} (hs : I s) (hp : P s)
    (hr : run step s as = some t) : Along step P s as ↔ Obeys step ok s as :=
  along_iff_obeys_of (J := fun s => I s ∧ P s)
    (fun s a s' h hok hstep => ⟨hI s a s' h.1 hstep, (hP s a s' h.1 h.2 hstep).mpr hok⟩) (fun _ h => h.2)
    (fun s a s' h hstep hp' => (hP s a s' h.1 h.2 hstep).mp hp') ⟨hs, hp⟩ hr

/-- Where a step leads to `P` exactly from a state with `P` and when it is `ok`, a run ends with `P`
    exactly if it begins with it and all its steps are `ok`. -/
theorem last_iff_obeys {I P : S → Prop} (hI : ∀ s a s', I s → step s a = some s' → I s')
    (hP : ∀ s a s', I s → step s a = some s' → (P s' ↔ P s ∧ ok s a)) {as : List A} {t : S} (hs : I s)
    (hr : run step s as = some t) : P t ↔ P s ∧ Obeys step ok s as := by
  induction as generalizing s with
  | nil =>
    cases hr
    exact ⟨fun h => ⟨h, trivial⟩, fun h => h.1⟩
  | cons a as ih =>
    obtain ⟨s', hstep, hr⟩ := Option.bind_eq_some_iff.mp hr
    have hobeys : Obeys step ok s (a :: as) ↔ ok s a ∧ Obeys step ok s' as := by
      refine ⟨fun h => ⟨h.1, h.2 s' hstep⟩, fun h => ⟨h.1, fun s'' h'' => ?_⟩⟩
      rw [hstep] at h''
      cases h''
      exact h.2
    rw [ih (hI s a s' hs hstep) hr, hP s a s' hs hstep, hobeys, and_assoc]

/-! ## Progress -/

/-- The progress rule: where each of the actions can be taken and keeps `J`, and does some of the
    `work` that is left unless the state is settled, which it then stays, the run of that many
    actions is there and ends settled. -/
theorem settles {J : S → Prop} (settled : S → Prop) (work : S → Nat) {as : List A}
    (hnext : ∀ s, J s → ∀ a ∈ as, ∃ s', step s a = some s' ∧ J s' ∧ (settled s → settled s') ∧
      (settled s ∨ work s' < work s))
    (hdone : ∀ s, J s → work s = 0 → settled s) (hs : J s) (h : settled s ∨ work s ≤ as.length) :
    ∃ t, run step s as = some t ∧ J t ∧ settled t := by
  induction as generalizing s with
  | nil =>
    refine ⟨s, rfl, hs, ?_⟩
    rcases h with h | h
    · exact h
    · exact hdone s hs (Nat.le_zero.mp h)
  | cons a as ih =>
    obtain ⟨s', hstep, hs', hstay, hwork⟩ := hnext s hs a List.mem_cons_self
    have hleft : settled s' ∨ work s' ≤ as.length := by
      by_cases hset : settled s
      · exact .inl (hstay hset)
      · have hlt := hwork.resolve_left hset
        have hle := h.resolve_left hset
        simp only [List.length_cons] at hle
        exact .inr (by omega)
    obtain ⟨t, ht, hJt, hset⟩ := ih (fun s hs b hb => hnext s hs b (List.mem_cons_of_mem _ hb)) hs' hleft
    refine ⟨t, ?_, hJt, hset⟩
    simp only [run, hstep, Option.bind_some]
    exact ht

/-- Where a step of less and less work can be found until the goal is reached, a run reaches it. -/
theorem descends {J : S → Prop} (goal : S → Prop) (work : S → Nat)
    (hnext : ∀ s, J s → ¬ goal s → ∃ a s', ok s a ∧ step s a = some s' ∧ J s' ∧ work s' < work s) (hs : J s) :
    ∃ t, Reach step ok s t ∧ J t ∧ goal t := by
  induction hn : work s using Nat.strongRecOn generalizing s with
  | ind n ih =>
    subst hn
    by_cases hg : goal s
    · exact ⟨s, .init, hs, hg⟩
    · obtain ⟨a, s', hok, hstep, hs', hlt⟩ := hnext s hs hg
      obtain ⟨t, ht, hJ, hgoal⟩ := ih _ hlt hs' rfl
      exact ⟨t, Reach.trans (.step .init hok hstep) ht, hJ, hgoal⟩

/-! ## Runs with an account -/

section Account

variable {G : Type} {note : S → A → G → G}

def audited (step : S → A → Option S) (note : S → A → G → G) (p : S × G) (a : A) : Option (S × G) :=
  (step p.1 a).map fun s => (s, note p.1 a p.2)

theorem audited_some {p p' : S × G} {a : A} (h : audited step note p a = some p') :
    step p.1 a = some p'.1 ∧ p'.2 = note p.1 a p.2 := by
  obtain ⟨s, hs, rfl⟩ := Option.map_eq_some_iff.mp h
  exact ⟨hs, rfl⟩

/-- Every run has its account. -/
theorem Reach.audit (note : S → A → G → G) (g₀ : G) (h : Reach step ok s₀ s) :
    ∃ g, Reach (audited step note) (fun p a => ok p.1 a) (s₀, g₀) (s, g) := by
  induction h with
  | init => exact ⟨g₀, .init⟩
  | @step s s' a _ hok hs ih =>
    obtain ⟨g, hg⟩ := ih
    exact ⟨note s a g, .step hg hok (by rw [audited, hs]; rfl)⟩

theorem along_audited {P : S → Prop} {as : List A} {g : G} :
    Along (audited step note) (fun p => P p.1) (s, g) as ↔ Along step P s as := by
  induction as generalizing s g with
  | nil => exact Iff.rfl
  | cons a as ih =>
    constructor
    · intro h
      refine ⟨h.1, fun s' hs => ih.mp (h.2 (s', note s a g) ?_)⟩
      rw [audited, hs]
      rfl
    · intro h
      refine ⟨h.1, fun p' hp => ?_⟩
      obtain ⟨hs, hg⟩ := audited_some hp
      rw [show p' = (p'.1, note s a g) from Prod.ext rfl hg]
      exact ih.mpr (h.2 p'.1 hs)

theorem run_audited {as : List A} {t : S} (h : run step s as = some t) (g : G) :
    ∃ g', run (audited step note) (s, g) as = some (t, g') := by
  induction as generalizing s g with
  | nil =>
    cases h
    exact ⟨g, rfl⟩
  | cons a as ih =>
    obtain ⟨s', hs, hr⟩ := Option.bind_eq_some_iff.mp h
    obtain ⟨g', hg⟩ := ih hr (note s a g)
    refine ⟨g', ?_⟩
    rw [run, audited, hs]
    exact hg

end Account

/-! ## Histories -/

section History

variable {α : Type} {P Q : List α → α → Prop}

def Always (P : List α → α → Prop) (h : List α) : Prop :=
  ∀ pre x post, h = pre ++ x :: post → P pre x

theorem always_nil : Always P [] := by
  intro pre x post h
  simp at h

/-- One more entry: it must satisfy `P` of all before it. -/
theorem always_snoc {h : List α} {x : α} : Always P (h ++ [x]) ↔ Always P h ∧ P h x := by
  constructor
  · intro hp
    refine ⟨fun pre y post he => hp pre y (post ++ [x]) (by simp [he]), hp h x [] rfl⟩
  · intro h pre y post he
    obtain ⟨hp, hx⟩ := h
    rcases List.eq_nil_or_concat post with rfl | ⟨post', z, rfl⟩
    · obtain ⟨rfl, e⟩ := List.append_inj' he rfl
      cases e
      exact hx
    · rw [List.concat_eq_append, ← List.cons_append, ← List.append_assoc] at he
      obtain ⟨rfl, -⟩ := List.append_inj' he rfl
      exact hp pre y post' rfl

theorem Always.mono {h : List α} (hpq : ∀ pre x, P pre x → Q pre x) (hp : Always P h) : Always Q h :=
  fun pre x post he => hpq pre x (hp pre x post he)

/-- What the entries show, in order: each thing shown has its entry, behind the entries of the others. -/
theorem shown_split {β : Type} {g : α → Option β} {h : List α} {pre post : List β} {y : β}
    (he : h.filterMap g = pre ++ y :: post) :
    ∃ pre' x post', h = pre' ++ x :: post' ∧ pre'.filterMap g = pre ∧ g x = some y := by
  obtain ⟨l₁, l₂, rfl, h₁, h₂⟩ := List.filterMap_eq_append_iff.mp he
  obtain ⟨m₁, x, m₂, rfl, hnone, hx, -⟩ := List.filterMap_eq_cons_iff.mp h₂
  have hm : m₁.filterMap g = [] := List.filterMap_eq_nil_iff.mpr hnone
  refine ⟨l₁ ++ m₁, x, m₂, ?_, ?_, hx⟩
  · rw [List.append_assoc]
  · rw [List.filterMap_append, h₁, hm, List.append_nil]

/-- Two ways of showing the entries that agree entry by entry, agree in order. -/
theorem forall₂_shown {β γ : Type} {R : β → γ → Prop} {g : α → Option β} {g' : α → Option γ} {h : List α}
    (hr : ∀ x ∈ h, Option.Rel R (g x) (g' x)) : List.Forall₂ R (h.filterMap g) (h.filterMap g') := by
  induction h with
  | nil => exact .nil
  | cons x h ih =>
    have hx := hr x List.mem_cons_self
    have hrest := ih fun y hy => hr y (List.mem_cons_of_mem _ hy)
    rw [List.filterMap_cons, List.filterMap_cons]
    cases hg : g x with
    | none =>
      rw [hg] at hx
      cases hg' : g' x with
      | none => exact hrest
      | some c =>
        rw [hg'] at hx
        cases hx
    | some b =>
      rw [hg] at hx
      cases hg' : g' x with
      | none =>
        rw [hg'] at hx
        cases hx
      | some c =>
        rw [hg'] at hx
        cases hx with
        | some hbc => exact .cons hbc hrest

end History

end Drv60870.Lib.Runs
