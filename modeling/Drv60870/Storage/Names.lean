/-
  Drv60870.Storage.Names — the signal storage with its index of names (`add_signal`,
  `get_signal`, `get_signal_by_name` and `get_all` in `common.py`).

  A signal is known by its id, by its address and by its name in lower case; `add_signal`
  refuses an address that is taken and nothing else. `str.lower` is a parameter that makes no
  character special to `fnmatch` (`Casing`).

  Proved:
  - After calls that return, every look-up finds the signal it names if and only if no id and no
    lower-cased name was given twice (`load_coherent`). A second signal of one id leaves the
    first one's address leading to it (`load_same_id`), a second one of one name hides the
    first.
  - A refused call leaves the tables as they were if and only if it would have stored what is
    stored already (`addSignal_atomic`); the signal is written before its address is tested, so
    otherwise it stays, for an interrogation and for `get_all` (`refused_stays`).
  - A name without special characters is looked up as it is (`getSignalByName_plain`), and an
    update by address writes the signal that the address leads to (`updateVal_ioa`).

  `name` is the one field of `SignalConf` kept apart, in `names`: both are written together
  and nothing changes a name afterwards.
-/

import Mathlib.Data.List.Induction
import Drv60870.Lib.Glob
import Drv60870.Lib.Runs
import Drv60870.Storage.Signals

namespace Drv60870.Storage

open Lib Lib.Calendar Lib.Glob Lib.Python

/-- `str.lower`: it makes no character special to `fnmatch`. -/
structure Casing where
  lower : String → String
  plain : ∀ s, Plain s → Plain (lower s)

theorem toLower_plain (s : String) (h : Plain s) : Plain s.toLower := by
  intro c hc
  rw [show s.toLower = s.map Char.toLower from rfl, String.toList_map] at hc
  obtain ⟨d, hd, rfl⟩ := List.mem_map.mp hc
  have hp := h d hd
  unfold Char.toLower
  split
  · rename_i hup
    -- lower-case letters come after every special character
    refine ⟨?_, ?_, ?_⟩
    all_goals
      intro he
      have hv := congrArg (fun c : Char => c.val.toNat) he
      simp [UInt32.le_iff_toNat_le] at hup hv
      omega
  · exact hp

def ascii : Casing := ⟨String.toLower, toLower_plain⟩

/-- `_name_idx` beside the other tables, and the `name` of every stored signal. -/
structure NamedStorage (C Q V T : Type) extends DataStorage C Q V T where
  names : Dict Int String
  nameIdx : Dict String Int

variable {C Q V T : Type} (K : Casing)

namespace NamedStorage

def empty : NamedStorage C Q V T := ⟨.empty, .empty, .empty⟩

section Calls

variable [Deadband V T]

def addSignal (s : NamedStorage C Q V T) (now : Datetime) (id ioa asdu : Int) (name : String) (threshold : Option T) :
    Except PyErr Unit × NamedStorage C Q V T :=
  let stored := s.toDataStorage.addSignal now id ioa asdu threshold
  let s := { s with toDataStorage := stored.2, names := s.names.set id name }
  match stored.1 with
  | .error e => (.error e, s)
  | .ok () => (.ok (), { s with nameIdx := s.nameIdx.set (K.lower name) id })

def updateVal (s : NamedStorage C Q V T) (now : Datetime) (u : Update V) :
    Except PyErr (Bool × NamedStorage C Q V T) := do
  let c ← s.commit now u
  return (c.updated, { s with toDataStorage := c.storage })

end Calls

def getSignal (s : NamedStorage C Q V T) (id ioa : Option Int) : Except PyErr (Dict Int (SignalConf V T)) :=
  if id.isSome = ioa.isSome then .error .valueError
  else
    match id.or (ioa.bind s.ioaIdx.get) with
    | none => .ok .empty
    | some id =>
      match s.signals.get id with
      | none => .ok .empty
      | some sg => .ok (Dict.empty.set id sg)

/-- `none` where the index leads to no signal (`KeyError`). -/
def getSignalByName (s : NamedStorage C Q V T) (namePatt : String) : Option (Dict Int (SignalConf V T)) :=
  (s.nameIdx.entries.filter fun e => fnmatch e.1 (K.lower namePatt)).foldlM
    (fun d e => (s.signals.get e.2).map fun sg => d.set e.2 sg) .empty

def getAll (s : NamedStorage C Q V T) : Dict Int (SignalConf V T) := s.signals

/-! ## A call that is refused -/

section Calls

variable [Deadband V T]

def fresh (now : Datetime) (id ioa asdu : Int) (threshold : Option T) : SignalConf V T :=
  { id, ioa, asdu, threshold, val := Deadband.zero, ts := now }

theorem addSignal_cases (s : NamedStorage C Q V T) (now : Datetime) (id ioa asdu : Int) (name : String)
    (threshold : Option T) :
    (∃ id', s.ioaIdx.get ioa = some id' ∧ s.addSignal K now id ioa asdu name threshold =
        (.error .valueError, { s with signals := s.signals.set id (fresh now id ioa asdu threshold),
                                      names := s.names.set id name })) ∨
      s.ioaIdx.get ioa = none ∧ s.addSignal K now id ioa asdu name threshold =
        (.ok (), { s with signals := s.signals.set id (fresh now id ioa asdu threshold),
                          ioaIdx := s.ioaIdx.set ioa id,
                          names := s.names.set id name,
                          nameIdx := s.nameIdx.set (K.lower name) id }) := by
  cases hi : s.ioaIdx.get ioa with
  | some id' =>
    refine .inl ⟨id', rfl, ?_⟩
    simp only [addSignal, DataStorage.addSignal, hi, Option.isSome_some, if_true]
    rfl
  | none =>
    refine .inr ⟨rfl, ?_⟩
    simp only [addSignal, DataStorage.addSignal, hi, Option.isSome_none, Bool.false_eq_true, if_false]
    rfl

/-- A refused call changes nothing exactly if its id has this very signal. -/
theorem addSignal_atomic (s : NamedStorage C Q V T) (now : Datetime) (id ioa asdu : Int) (name : String)
    (threshold : Option T) {e : PyErr} (h : (s.addSignal K now id ioa asdu name threshold).1 = .error e) :
    (s.addSignal K now id ioa asdu name threshold).2 = s ↔
      s.signals.get id = some (fresh now id ioa asdu threshold) ∧ s.names.get id = some name := by
  rcases addSignal_cases K s now id ioa asdu name threshold with ⟨id', -, hs⟩ | ⟨-, hs⟩
  · rw [hs]
    rcases s with ⟨⟨signals, ioaIdx, subs⟩, names, nameIdx⟩
    simp only [mk.injEq, DataStorage.mk.injEq, and_true, Dict.set_eq_self]
  · rw [hs] at h
    cases h

def sampleStore : NamedStorage Nat Nat Val F64 := (empty.addSignal ascii sampleTime 1 100 36 "pressure" none).2

theorem addSignal_atomic_sample :
    (sampleStore.addSignal ascii sampleTime 1 100 36 "pressure" none).1 = .error .valueError ∧
      ((sampleStore.addSignal ascii sampleTime 1 100 36 "pressure" none).2 = sampleStore ↔
        sampleStore.signals.get 1 = some (fresh sampleTime 1 100 36 none) ∧
          sampleStore.names.get 1 = some "pressure") :=
  ⟨rfl, addSignal_atomic ascii sampleStore sampleTime 1 100 36 "pressure" none rfl⟩

/-- A refused signal is there for an interrogation. -/
theorem refused_stays :
    (sampleStore.addSignal ascii sampleTime 2 100 36 "level" none).1 = .error .valueError ∧
      (sampleStore.addSignal ascii sampleTime 2 100 36 "level" none).2.getAllForGi.map Event.id = [1, 2] ∧
      (sampleStore.addSignal ascii sampleTime 2 100 36 "level" none).2.getAll.keys = [1, 2] ∧
      sampleStore.getAllForGi.map Event.id = [1] ∧ sampleStore.getAll.keys = [1] ∧
      (sampleStore.addSignal ascii sampleTime 2 100 36 "level" none).2 ≠ sampleStore := by
  refine ⟨rfl, rfl, rfl, rfl, rfl, fun he => ?_⟩
  have hids := congrArg (fun s : NamedStorage Nat Nat Val F64 => s.getAllForGi.map Event.id) he
  cases hids

end Calls

/-! ## Looking up a name -/

/-- A name without special characters is looked up as it is. -/
theorem getSignalByName_plain (s : NamedStorage C Q V T) {name : String} (h : Plain name) :
    s.getSignalByName K name = match s.nameIdx.get (K.lower name) with
      | none => some .empty
      | some id => (s.signals.get id).map fun sg => Dict.empty.set id sg := by
  have hfilter : s.nameIdx.entries.filter (fun e => fnmatch e.1 (K.lower name)) =
      s.nameIdx.entries.filter fun e => decide (e.1 = K.lower name) := by
    apply List.filter_congr
    intro e _
    rw [Bool.eq_iff_iff, fnmatch_plain (K.plain name h), decide_eq_true_eq]
  rw [getSignalByName, hfilter, Dict.filter_key]
  cases s.nameIdx.get (K.lower name) with
  | none => rfl
  | some id =>
    show ((s.signals.get id).map fun sg => Dict.empty.set id sg).bind some = _
    exact Option.bind_fun_some _

/-! ## Loading -/

structure Addition (T : Type) where
  now : Datetime
  id : Int
  ioa : Int
  asdu : Int
  name : String
  threshold : Option T

section Calls

variable [Deadband V T]

def Addition.signal (a : Addition T) : SignalConf V T := fresh a.now a.id a.ioa a.asdu a.threshold

def add (s : NamedStorage C Q V T) (a : Addition T) : Option (NamedStorage C Q V T) :=
  match s.addSignal K a.now a.id a.ioa a.asdu a.name a.threshold with
  | (.ok (), s') => some s'
  | (.error _, _) => none

theorem add_some {s s' : NamedStorage C Q V T} {a : Addition T} (h : s.add K a = some s') :
    s.ioaIdx.get a.ioa = none ∧
      s' = { s with signals := s.signals.set a.id a.signal, ioaIdx := s.ioaIdx.set a.ioa a.id,
                    names := s.names.set a.id a.name, nameIdx := s.nameIdx.set (K.lower a.name) a.id } := by
  unfold add at h
  rcases addSignal_cases K s a.now a.id a.ioa a.asdu a.name a.threshold with ⟨id', -, hs⟩ | ⟨hfree, hs⟩
  · rw [hs] at h
    cases h
  · rw [hs] at h
    cases h
    exact ⟨hfree, rfl⟩

structure Loaded (adds : List (Addition T)) (s : NamedStorage C Q V T) : Prop where
  ioas : (adds.map Addition.ioa).Nodup
  signals : ∀ id sg, s.signals.get id = some sg →
    ∃ a ∈ adds, a.id = id ∧ a.signal = sg ∧ s.names.get id = some a.name
  stored : ∀ a ∈ adds, ∃ sg, s.signals.get a.id = some sg
  ioaIdx : ∀ ioa id, s.ioaIdx.get ioa = some id ↔ ∃ a ∈ adds, a.ioa = ioa ∧ a.id = id
  nameIdx : ∀ key id, s.nameIdx.get key = some id → ∃ a ∈ adds, K.lower a.name = key ∧ a.id = id
  named : ∀ a ∈ adds, ∃ id, s.nameIdx.get (K.lower a.name) = some id

theorem loaded_step {adds : List (Addition T)} {s s' : NamedStorage C Q V T} {a : Addition T}
    (hl : s.Loaded K adds) (h : s.add K a = some s') : s'.Loaded K (adds ++ [a]) := by
  obtain ⟨hfree, rfl⟩ := add_some K h
  have hnew : ∀ b ∈ adds, b.ioa ≠ a.ioa := by
    intro b hb he
    rw [(hl.ioaIdx a.ioa b.id).mpr ⟨b, hb, he, rfl⟩] at hfree
    cases hfree
  have hself : a ∈ adds ++ [a] := List.mem_append_right _ List.mem_cons_self
  have hold : ∀ b ∈ adds, b ∈ adds ++ [a] := fun b hb => List.mem_append_left _ hb
  refine ⟨?_, ?_, ?_, ?_, ?_, ?_⟩
  · rw [List.map_append, List.nodup_append]
    refine ⟨hl.ioas, List.nodup_singleton _, fun i hi j hj he => ?_⟩
    obtain ⟨b, hb, rfl⟩ := List.mem_map.mp hi
    rw [List.mem_singleton.mp hj] at he
    exact hnew b hb he
  · intro id sg hg
    simp only [Dict.get_set] at hg ⊢
    by_cases he : id = a.id
    · rw [if_pos he] at hg ⊢
      cases hg
      exact ⟨a, hself, he.symm, rfl, rfl⟩
    · rw [if_neg he] at hg ⊢
      obtain ⟨b, hb, hrest⟩ := hl.signals id sg hg
      exact ⟨b, hold b hb, hrest⟩
  · intro b hb
    simp only [Dict.get_set]
    by_cases he : b.id = a.id
    · exact ⟨a.signal, if_pos he⟩
    · rw [if_neg he]
      rcases List.mem_append.mp hb with hb | hb
      · exact hl.stored b hb
      · rw [List.mem_singleton.mp hb] at he
        exact absurd rfl he
  · intro ioa id
    simp only [Dict.get_set]
    by_cases he : ioa = a.ioa
    · rw [if_pos he]
      constructor
      · intro hi
        cases hi
        exact ⟨a, hself, he.symm, rfl⟩
      · intro hi
        obtain ⟨b, hb, hioa, rfl⟩ := hi
        rcases List.mem_append.mp hb with hb | hb
        · exact absurd (hioa.trans he) (hnew b hb)
        · rw [List.mem_singleton.mp hb]
    · rw [if_neg he, hl.ioaIdx]
      constructor
      · intro hi
        obtain ⟨b, hb, hrest⟩ := hi
        exact ⟨b, hold b hb, hrest⟩
      · intro hi
        obtain ⟨b, hb, hioa, hid⟩ := hi
        rcases List.mem_append.mp hb with hb | hb
        · exact ⟨b, hb, hioa, hid⟩
        · rw [List.mem_singleton.mp hb] at hioa
          exact absurd hioa.symm he
  · intro key id hk
    simp only [Dict.get_set] at hk
    by_cases he : key = K.lower a.name
    · rw [if_pos he] at hk
      cases hk
      exact ⟨a, hself, he.symm, rfl⟩
    · rw [if_neg he] at hk
      obtain ⟨b, hb, hrest⟩ := hl.nameIdx key id hk
      exact ⟨b, hold b hb, hrest⟩
  · intro b hb
    simp only [Dict.get_set]
    by_cases he : K.lower b.name = K.lower a.name
    · exact ⟨a.id, if_pos he⟩
    · rw [if_neg he]
      rcases List.mem_append.mp hb with hb | hb
      · exact hl.named b hb
      · rw [List.mem_singleton.mp hb] at he
        exact absurd rfl he

theorem loaded {adds : List (Addition T)} {s : NamedStorage C Q V T}
    (h : Runs.run (add K) (empty : NamedStorage C Q V T) adds = some s) : s.Loaded K adds := by
  induction adds using List.reverseRecOn generalizing s with
  | nil =>
    cases h
    refine ⟨List.nodup_nil, ?_, ?_, ?_, ?_, ?_⟩
    · intro id sg hg
      cases hg
    · intro a ha
      cases ha
    · intro ioa id
      constructor
      · intro hi
        cases hi
      · intro hi
        obtain ⟨a, ha, -⟩ := hi
        cases ha
    · intro key id hk
      cases hk
    · intro a ha
      cases ha
  | append_singleton adds a ih =>
    rw [Runs.run_snoc] at h
    obtain ⟨t, ht, hstep⟩ := Option.bind_eq_some_iff.mp h
    exact loaded_step K (ih ht) hstep

end Calls

/-! ## Coherence -/

section Calls

variable [Deadband V T]

/-- Every look-up finds the signal it names. -/
structure Coherent (s : NamedStorage C Q V T) : Prop where
  indexed : ∀ ioa id, s.ioaIdx.get ioa = some id → ∃ sg, s.signals.get id = some sg ∧ sg.ioa = ioa
  byIoa : ∀ id sg, s.signals.get id = some sg → s.getSignal none (some sg.ioa) = .ok (Dict.empty.set id sg)
  updates : ∀ id sg u, s.signals.get id = some sg → u.id = none → u.ioa = some sg.ioa → s.find u = some (id, sg)
  byName : ∀ id sg, s.signals.get id = some sg → ∃ name found, s.names.get id = some name ∧
    s.getSignalByName K name = some found ∧ found.get id = some sg
  /-- An update by address changes no signal of another address. -/
  routed : ∀ now u ioa r s', u.ioa = some ioa → s.updateVal now u = .ok (r, s') →
    ∀ id sg, s.signals.get id = some sg → sg.ioa ≠ ioa → s'.signals.get id = some sg

structure Apart (adds : List (Addition T)) : Prop where
  ids : (adds.map Addition.id).Nodup
  names : (adds.map fun a => K.lower a.name).Nodup

omit [Deadband V T] in
/-- Where distinct calls have distinct values of `f`, equal values are of one call. -/
theorem one_of_nodup {α : Type} {f : Addition T → α} {adds : List (Addition T)} (hn : (adds.map f).Nodup)
    {a b : Addition T} (ha : a ∈ adds) (hb : b ∈ adds) (he : f a = f b) : a = b :=
  List.inj_on_of_nodup_map hn ha hb he

variable {K}

/-- Coherent tables give an id one address. -/
theorem Loaded.ids_nodup {adds : List (Addition T)} {s : NamedStorage C Q V T} (hl : s.Loaded K adds)
    (hc : s.Coherent K) : (adds.map Addition.id).Nodup := by
  apply List.Nodup.map_on _ (List.Nodup.of_map _ hl.ioas)
  intro a ha b hb he
  obtain ⟨sg, hg, hioa⟩ := hc.indexed a.ioa a.id ((hl.ioaIdx _ _).mpr ⟨a, ha, rfl, rfl⟩)
  obtain ⟨sg', hg', hioa'⟩ := hc.indexed b.ioa b.id ((hl.ioaIdx _ _).mpr ⟨b, hb, rfl, rfl⟩)
  rw [← he, hg] at hg'
  cases hg'
  exact one_of_nodup hl.ioas ha hb (hioa.symm.trans hioa')

/-- The name index of coherent tables leads every name to the signal it was given for. -/
theorem Loaded.leads {adds : List (Addition T)} {s : NamedStorage C Q V T} (hl : s.Loaded K adds)
    (hc : s.Coherent K) (hp : ∀ a ∈ adds, Plain a.name) {a : Addition T} (ha : a ∈ adds) :
    s.nameIdx.get (K.lower a.name) = some a.id := by
  obtain ⟨sg, hg⟩ := hl.stored a ha
  obtain ⟨a', ha', hid, -, hname⟩ := hl.signals a.id sg hg
  cases one_of_nodup (hl.ids_nodup hc) ha' ha hid
  obtain ⟨name, found, hname', hfound, hget⟩ := hc.byName a.id sg hg
  rw [hname] at hname'
  cases hname'
  rw [getSignalByName_plain K s (hp a ha)] at hfound
  obtain ⟨id, hid'⟩ := hl.named a ha
  rw [hid'] at hfound ⊢
  obtain ⟨sg', hg', rfl⟩ := Option.map_eq_some_iff.mp hfound
  rw [Dict.get_set] at hget
  by_cases he : a.id = id
  · rw [he]
  · rw [if_neg he] at hget
    cases hget

/-- An update by address writes the signal that the address leads to, or nothing. -/
theorem updateVal_ioa {s s' : NamedStorage C Q V T} {now : Datetime} {u : Update V} {ioa : Int} {r : Bool}
    (hu : u.ioa = some ioa) (h : s.updateVal now u = .ok (r, s')) :
    s' = s ∨ ∃ id sg, s.ioaIdx.get ioa = some id ∧ s.signals.get id = some sg ∧
      s' = { s with signals := s.signals.set id (sg.written now u) } := by
  obtain ⟨c, hc, hr⟩ := bind_eq_ok.mp h
  cases ok_inj hr
  rcases DataStorage.commit_ok hc with ⟨rfl, -⟩ | ⟨id, sg, hf, -, rfl⟩
  · exact .inl rfl
  · refine .inr ⟨id, sg, ?_, DataStorage.find_get hf, rfl⟩
    obtain ⟨id', hres, hf⟩ := Option.bind_eq_some_iff.mp hf
    obtain ⟨sg', -, he⟩ := Option.map_eq_some_iff.mp hf
    cases he
    simpa only [DataStorage.resolve, hu] using hres

theorem Loaded.coherent {adds : List (Addition T)} {s : NamedStorage C Q V T} (hl : s.Loaded K adds)
    (ha : Apart K adds) (hp : ∀ a ∈ adds, Plain a.name) : s.Coherent K := by
  have hindexed : ∀ ioa id, s.ioaIdx.get ioa = some id → ∃ sg, s.signals.get id = some sg ∧ sg.ioa = ioa := by
    intro ioa id hi
    obtain ⟨a, hma, rfl, rfl⟩ := (hl.ioaIdx ioa id).mp hi
    obtain ⟨sg, hg⟩ := hl.stored a hma
    obtain ⟨a', hma', hid, rfl, -⟩ := hl.signals a.id sg hg
    cases one_of_nodup ha.ids hma' hma hid
    exact ⟨_, hg, rfl⟩
  have hown : ∀ id sg, s.signals.get id = some sg → s.ioaIdx.get sg.ioa = some id := by
    intro id sg hg
    obtain ⟨a, hma, rfl, rfl, -⟩ := hl.signals id sg hg
    exact (hl.ioaIdx _ _).mpr ⟨a, hma, rfl, rfl⟩
  refine ⟨hindexed, ?_, ?_, ?_, ?_⟩
  · intro id sg hg
    simp only [getSignal, Option.isSome_none, Option.isSome_some, Bool.false_eq_true, if_false, Option.none_or,
      Option.bind_some, hown id sg hg, hg]
  · intro id sg u hg _ hu
    simp only [DataStorage.find, DataStorage.resolve, hu, hown id sg hg, Option.bind_some, hg, Option.map_some]
  · intro id sg hg
    obtain ⟨a, hma, rfl, -, hname⟩ := hl.signals id sg hg
    refine ⟨a.name, Dict.empty.set a.id sg, hname, ?_, Dict.get_set_self ..⟩
    obtain ⟨id', hid'⟩ := hl.named a hma
    obtain ⟨a', hma', hlower, rfl⟩ := hl.nameIdx _ _ hid'
    cases one_of_nodup ha.names hma' hma hlower
    rw [getSignalByName_plain K s (hp a hma), hid']
    simp only [hg, Option.map_some]
  · intro now u ioa r s' hu hs' id sg hg hne
    rcases updateVal_ioa hu hs' with rfl | ⟨id', sg', hi, -, rfl⟩
    · exact hg
    · have hid : id ≠ id' := by
        intro he
        obtain ⟨sg'', hg'', hioa⟩ := hindexed ioa id' hi
        rw [← he, hg] at hg''
        cases hg''
        exact hne hioa
      show (s.signals.set id' (sg'.written now u)).get id = some sg
      rw [Dict.get_set_ne _ _ hid, hg]

variable (K)

/-- Loaded tables are coherent exactly if no id and no lower-cased name was given twice. -/
theorem load_coherent {adds : List (Addition T)} {s : NamedStorage C Q V T} (hp : ∀ a ∈ adds, Plain a.name)
    (h : Runs.run (add K) (empty : NamedStorage C Q V T) adds = some s) : s.Coherent K ↔ Apart K adds := by
  have hl := loaded K h
  constructor
  · intro hc
    refine ⟨hl.ids_nodup hc, ?_⟩
    apply List.Nodup.map_on _ (List.Nodup.of_map _ hl.ioas)
    intro a ha b hb he
    have hid := hl.leads hc hp ha
    rw [he, hl.leads hc hp hb] at hid
    exact (one_of_nodup (hl.ids_nodup hc) hb ha (Option.some.inj hid)).symm
  · intro ha
    exact hl.coherent ha hp

def sampleAdds : List (Addition F64) :=
  [⟨sampleTime, 1, 100, 36, "Pressure", none⟩, ⟨sampleTime, 2, 101, 1, "Pump_on", none⟩]

theorem load_coherent_sampleAdds : ∃ s : NamedStorage Nat Nat Val F64,
    Runs.run (add ascii) empty sampleAdds = some s ∧ (s.Coherent ascii ↔ Apart ascii sampleAdds) :=
  ⟨_, rfl, load_coherent ascii (by decide) rfl⟩

/-- A second signal of one id takes the first one's address with it. -/
theorem load_same_id : ∃ s : NamedStorage Nat Nat Val F64,
    Runs.run (add ascii) empty [⟨sampleTime, 1, 100, 36, "pressure", none⟩, ⟨sampleTime, 1, 101, 1, "pump", none⟩] =
        some s ∧
      s.ioaIdx.get 100 = some 1 ∧ (s.signals.get 1).map SignalConf.ioa = some 101 ∧ ¬ s.Coherent ascii := by
  refine ⟨_, rfl, rfl, rfl, fun hc => ?_⟩
  obtain ⟨sg, hg, hioa⟩ := hc.indexed 100 1 rfl
  cases hg
  cases hioa

end Calls

end NamedStorage

end Drv60870.Storage
