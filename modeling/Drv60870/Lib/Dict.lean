/-
  Drv60870.Lib.Dict — Python's `dict`: a finite map that remembers the order of insertion.

  Setting a key that is there replaces its value in place, setting a new one appends. No key
  occurs twice, by construction.
-/

import Mathlib.Data.List.Nodup

namespace Drv60870.Lib

structure Dict (K V : Type) where
  entries : List (K × V)
  nodup : (entries.map Prod.fst).Nodup

namespace Dict

variable {K V : Type}

def empty : Dict K V := ⟨[], List.nodup_nil⟩

def keys (d : Dict K V) : List K := d.entries.map Prod.fst

def values (d : Dict K V) : List V := d.entries.map Prod.snd

def size (d : Dict K V) : Nat := d.entries.length

variable [DecidableEq K]

def get (d : Dict K V) (k : K) : Option V := (d.entries.find? fun e => e.1 = k).map Prod.snd

def replace (k : K) (v : V) (e : K × V) : K × V := if e.1 = k then (e.1, v) else e

theorem fst_replace (k : K) (v : V) (e : K × V) : (replace k v e).1 = e.1 := by
  unfold replace
  split <;> rfl

theorem map_fst_replace (k : K) (v : V) (es : List (K × V)) :
    (es.map (replace k v)).map Prod.fst = es.map Prod.fst := by
  rw [List.map_map]
  exact List.map_congr_left fun e _ => fst_replace k v e

def set (d : Dict K V) (k : K) (v : V) : Dict K V :=
  if h : k ∈ d.keys then ⟨d.entries.map (replace k v), by rw [map_fst_replace]; exact d.nodup⟩
  else
    ⟨d.entries ++ [(k, v)], by
      rw [List.map_append, List.nodup_append]
      refine ⟨d.nodup, List.nodup_singleton _, fun a ha b hb => ?_⟩
      rw [List.mem_singleton.mp hb]
      intro he
      rw [he] at ha
      exact h ha⟩

def erase (d : Dict K V) (k : K) : Dict K V :=
  ⟨d.entries.filter fun e => e.1 ≠ k, d.nodup.sublist (List.filter_sublist.map _)⟩

/-! ## Looking up -/

@[simp] theorem get_empty (k : K) : (empty : Dict K V).get k = none := rfl

/-- The entries are the pairs `get` finds. -/
theorem get_eq_some {d : Dict K V} {k : K} {v : V} : d.get k = some v ↔ (k, v) ∈ d.entries := by
  constructor
  · intro h
    obtain ⟨e, he, rfl⟩ := Option.map_eq_some_iff.mp h
    have hk : e.1 = k := by simpa using List.find?_some he
    subst hk
    exact List.mem_of_find?_eq_some he
  · intro h
    cases hf : d.entries.find? (fun e => e.1 = k) with
    | none =>
      have := List.find?_eq_none.mp hf (k, v) h
      simp at this
    | some e =>
      have hk : e.1 = k := by simpa using List.find?_some hf
      have he := List.inj_on_of_nodup_map d.nodup (List.mem_of_find?_eq_some hf) h hk
      rw [get, hf, he]
      rfl

theorem mem_keys {d : Dict K V} {k : K} : k ∈ d.keys ↔ ∃ v, d.get k = some v := by
  constructor
  · intro h
    obtain ⟨e, he, rfl⟩ := List.mem_map.mp h
    exact ⟨e.2, get_eq_some.mpr he⟩
  · intro h
    obtain ⟨v, hv⟩ := h
    exact List.mem_map.mpr ⟨(k, v), get_eq_some.mp hv, rfl⟩

theorem mem_values {d : Dict K V} {v : V} : v ∈ d.values ↔ ∃ k, d.get k = some v := by
  constructor
  · intro h
    obtain ⟨e, he, rfl⟩ := List.mem_map.mp h
    exact ⟨e.1, get_eq_some.mpr he⟩
  · intro h
    obtain ⟨k, hk⟩ := h
    exact List.mem_map.mpr ⟨(k, v), get_eq_some.mp hk, rfl⟩

/-- Looking every key up gives the values. -/
theorem filterMap_keys (d : Dict K V) : d.keys.filterMap d.get = d.values := by
  have hget : ∀ e ∈ d.entries, d.get e.1 = some e.2 := fun e he => get_eq_some.mpr he
  rw [keys, List.filterMap_map, values, ← List.filterMap_eq_map]
  exact List.filterMap_congr hget

theorem get_set (d : Dict K V) (k k' : K) (v : V) :
    (d.set k v).get k' = if k' = k then some v else d.get k' := by
  by_cases hk : k' = k
  · rw [if_pos hk, hk, get_eq_some, set]
    split
    · rename_i h
      obtain ⟨e, he, rfl⟩ := List.mem_map.mp h
      exact List.mem_map.mpr ⟨e, he, by simp [replace]⟩
    · exact List.mem_append_right _ List.mem_cons_self
  · rw [if_neg hk, get, get, set]
    split
    · rw [List.find?_map, Option.map_map]
      have hp : (fun e : K × V => decide (e.1 = k')) ∘ replace k v = fun e => decide (e.1 = k') := by
        funext e
        simp [fst_replace]
      rw [hp]
      cases hf : d.entries.find? (fun e => e.1 = k') with
      | none => rfl
      | some e =>
        have he : e.1 = k' := by simpa using List.find?_some hf
        have hne : e.1 ≠ k := by
          rw [he]
          exact hk
        simp [replace, hne]
    · rw [List.find?_append]
      have hnone : List.find? (fun e : K × V => decide (e.1 = k')) [(k, v)] = none := by
        simpa using fun h => hk h.symm
      rw [hnone, Option.or_none]

@[simp] theorem get_set_self (d : Dict K V) (k : K) (v : V) : (d.set k v).get k = some v := by
  rw [get_set, if_pos rfl]

theorem get_set_ne (d : Dict K V) {k k' : K} (v : V) (h : k' ≠ k) : (d.set k v).get k' = d.get k' := by
  rw [get_set, if_neg h]

theorem mem_values_set {d : Dict K V} {k : K} {v w : V} (h : w ∈ (d.set k v).values) : w = v ∨ w ∈ d.values := by
  obtain ⟨k', hk⟩ := mem_values.mp h
  rw [get_set] at hk
  split at hk
  · exact .inl (Option.some.inj hk).symm
  · exact .inr (mem_values.mpr ⟨k', hk⟩)

theorem get_erase (d : Dict K V) (k k' : K) : (d.erase k).get k' = if k' = k then none else d.get k' := by
  apply Option.ext
  intro v
  by_cases hk : k' = k
  · rw [if_pos hk, get_eq_some, hk]
    simp [erase]
  · rw [if_neg hk, get_eq_some, get_eq_some]
    simp [erase, hk]

theorem values_set_new {d : Dict K V} {k : K} (v : V) (h : d.get k = none) : (d.set k v).values = d.values ++ [v] := by
  have hk : k ∉ d.keys := by
    intro hk
    obtain ⟨w, hw⟩ := mem_keys.mp hk
    rw [h] at hw
    cases hw
  rw [set, dif_neg hk, values, values, List.map_append]
  rfl

theorem values_erase {d : Dict K V} {k : K} {v : V} (h : d.get k = some v) :
    d.values.Perm (v :: (d.erase k).values) := by
  obtain ⟨l, r, he⟩ := List.append_of_mem (get_eq_some.mp h)
  have hn := d.nodup
  rw [he, List.map_append, List.map_cons, List.nodup_middle] at hn
  have hne : ∀ e ∈ l ++ r, e.1 ≠ k := by
    intro e hm hk
    apply (List.nodup_cons.mp hn).1
    rw [← List.map_append, show (k, v).1 = e.1 from hk.symm]
    exact List.mem_map_of_mem hm
  have herase : (d.erase k).entries = l ++ r := by
    have hl : l.filter (fun e => e.1 ≠ k) = l :=
      List.filter_eq_self.mpr fun e hm => decide_eq_true (hne e (List.mem_append_left _ hm))
    have hr : r.filter (fun e => e.1 ≠ k) = r :=
      List.filter_eq_self.mpr fun e hm => decide_eq_true (hne e (List.mem_append_right _ hm))
    have hf : (d.erase k).entries = d.entries.filter fun e => e.1 ≠ k := rfl
    rw [hf, he, List.filter_append, hl, List.filter_cons_of_neg (by simp), hr]
  rw [values, values, herase, he, List.map_append, List.map_append]
  exact List.perm_middle

/-- Setting a key to the value it has changes nothing, and nothing else does not. -/
theorem set_eq_self {d : Dict K V} {k : K} {v : V} : d.set k v = d ↔ d.get k = some v := by
  constructor
  · intro h
    rw [← h]
    exact get_set_self d k v
  · intro h
    rw [set, dif_pos (mem_keys.mpr ⟨v, h⟩)]
    cases d with
    | mk entries nodup =>
      rw [mk.injEq]
      have hsame : entries.map (replace k v) = entries.map id := by
        apply List.map_congr_left
        intro e he
        unfold replace
        split
        · rename_i hk
          have hv : get ⟨entries, nodup⟩ e.1 = some e.2 := get_eq_some.mpr he
          rw [hk, h] at hv
          cases hv
          rfl
        · rfl
      rw [hsame, List.map_id]

theorem filter_key (d : Dict K V) (k : K) :
    d.entries.filter (fun e => decide (e.1 = k)) = ((d.get k).map fun v => (k, v)).toList := by
  obtain ⟨entries, hn⟩ := d
  induction entries with
  | nil => rfl
  | cons e es ih =>
    rw [List.map_cons, List.nodup_cons] at hn
    by_cases hk : e.1 = k
    · have hes : es.filter (fun e => decide (e.1 = k)) = [] := by
        apply List.filter_eq_nil_iff.mpr
        intro e' he' hk'
        apply hn.1
        rw [hk, ← of_decide_eq_true hk']
        exact List.mem_map_of_mem he'
      subst hk
      simp [get, hes]
    · simp only [get, List.filter_cons, List.find?_cons, decide_eq_false hk]
      exact ih hn.2

theorem count_values [DecidableEq V] {d : Dict K V} {k : K} {v : V} (h : d.get k = some v)
    (hu : ∀ k', d.get k' = some v → k' = k) : d.values.count v = 1 := by
  have hno : v ∉ (d.erase k).values := by
    intro hm
    obtain ⟨k', hk'⟩ := mem_values.mp hm
    rw [get_erase] at hk'
    split at hk'
    · cases hk'
    · rename_i hne
      exact hne (hu k' hk')
  rw [(values_erase h).count_eq, List.count_cons_self, List.count_eq_zero.mpr hno]

/-! ## Mapping the values -/

section Map

variable {W : Type}

def mapValues (f : V → W) (d : Dict K V) : Dict K W :=
  ⟨d.entries.map fun e => (e.1, f e.2), by rw [List.map_map]; exact d.nodup⟩

omit [DecidableEq K] in
theorem values_mapValues (f : V → W) (d : Dict K V) : (d.mapValues f).values = d.values.map f := by
  simp [values, mapValues]

theorem get_mapValues (f : V → W) (d : Dict K V) (k : K) : (d.mapValues f).get k = (d.get k).map f := by
  simp only [get, mapValues, List.find?_map, Option.map_map]
  rfl

theorem set_mapValues (f : V → W) (d : Dict K V) (k : K) (v : V) :
    (d.set k v).mapValues f = (d.mapValues f).set k (f v) := by
  have hkeys : (d.mapValues f).keys = d.keys := by simp [keys, mapValues]
  simp only [set, hkeys]
  split
  · simp only [mapValues, List.map_map, mk.injEq]
    apply List.map_congr_left
    intro e _
    simp only [Function.comp_apply, replace]
    split <;> rfl
  · simp [mapValues]

end Map

/-! ## Sizes -/

theorem size_set_new {d : Dict K V} {k : K} (v : V) (h : k ∉ d.keys) : (d.set k v).size = d.size + 1 := by
  rw [set, dif_neg h, size, size, List.length_append]
  rfl

theorem size_erase_le (d : Dict K V) (k : K) : (d.erase k).size ≤ d.size := List.length_filter_le ..

end Dict

end Drv60870.Lib
