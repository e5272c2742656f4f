/-
  Drv60870.Protocol.Orders — what a frame asks of the storage.

  A handler passes commands on and reads the storage through its callbacks only. So what it
  asks for is known without them: the calls of `on_command` it will make (`orders`), and
  whether it will interrogate (`interrogates`).

  Proved:
  - With any callbacks a frame does what carrying out its orders does, and nothing else depends
    on them (`procFrame_carried`).
  - What it passes on was read off the frame (`orders_read`), and an interrogation passes no
    command on (`orders_of_interrogates`).
-/

import Drv60870.Protocol.Commands

namespace Drv60870.Protocol

open Lib.Octets Lib.Calendar Lib.Python Drv60870.Const

variable {σ : Type} {cb : Callbacks σ} {now : Datetime} {f : Bytes}

/-! ## Orders -/

/-- Callbacks of a connection whose storage is looked after elsewhere: a command passed on is
    taken as done, and an interrogation finds nothing to read. -/
def posting : Callbacks Unit := ⟨some fun _ _ s => (true, [], s), some fun _ => []⟩

def orders (now : Datetime) (f : Bytes) (st : ClientState) : List Command := commands posting now f st ()

/-- Handling the frame reads every signal: it puts a termination. -/
def interrogates (now : Datetime) (f : Bytes) (st : ClientState) : Bool :=
  !(procFrame posting now f ⟨st, (), [], []⟩).2.puts.isEmpty

/-! ## Carrying them out -/

def obeyed (g : Val → Nat → σ → Bool × List IecEvent × σ) (s : σ) : List Command → List IecEvent × σ
  | [] => ([], s)
  | (val, ioa) :: os =>
    let rest := obeyed g (g val ioa s).2.2 os
    ((g val ioa s).2.1 ++ rest.1, rest.2)

theorem obeyed_snoc (g : Val → Nat → σ → Bool × List IecEvent × σ) (s : σ) (os : List Command) (o : Command) :
    obeyed g s (os ++ [o]) =
      ((obeyed g s os).1 ++ (g o.1 o.2 (obeyed g s os).2).2.1, (g o.1 o.2 (obeyed g s os).2).2.2) := by
  induction os generalizing s with
  | nil => simp [obeyed]
  | cons p os ih =>
    rw [List.cons_append, obeyed, obeyed, ih]
    simp only [List.append_assoc]

def ReadOff (v : Val) : Prop := ∃ data, singleVal data = .ok v ∨ setpointVal data = .ok v

/-- `q` has the orders of a frame on record, and `c` is `c₀` with them carried out. -/
structure Carried (g : Val → Nat → σ → Bool × List IecEvent × σ) (gi : σ → List IecEvent) (now : Datetime)
    (c₀ c : Ctx σ) (q : Ctx (Unit × List Command)) : Prop where
  st : c.st = q.st
  store : c.store = (obeyed g c₀.store q.store.2).2
  read : ∀ o ∈ q.store.2, ReadOff o.1
  puts : (q.puts = [] ∧ c.puts = c₀.puts ++ (obeyed g c₀.store q.store.2).1) ∨
    (q.puts = [giTermination now] ∧ q.store.2 = [] ∧
      c.puts = c₀.puts ++ ((gi c₀.store).filter (fun ev => ev.asdu < 45) ++ [giTermination now]))

section Carried

variable {g : Val → Nat → σ → Bool × List IecEvent × σ} {gi : σ → List IecEvent}
  {c₀ c : Ctx σ} {q : Ctx (Unit × List Command)}

theorem carried_start (c : Ctx σ) : Carried g gi now c c ⟨c.st, ((), []), [], []⟩ :=
  ⟨rfl, rfl, fun _ ho => absurd ho List.not_mem_nil, .inl ⟨rfl, (List.append_nil _).symm⟩⟩

theorem Carried.log (h : Carried g gi now c₀ c q) (r : LogRec) : Carried g gi now c₀ (c.log r) (q.log r) :=
  ⟨h.st, h.store, h.read, h.puts⟩

theorem Carried.received (h : Carried g gi now c₀ c q) (nS nR : Nat) :
    Carried g gi now c₀ (c.received nS nR) (q.received nS nR) := by
  refine ⟨?_, ?_, ?_, ?_⟩
  · simp only [Ctx.received, h.st]
  · rw [Ctx.received_store, Ctx.received_store]
    exact h.store
  · rw [Ctx.received_store]
    exact h.read
  · rw [Ctx.received_puts, Ctx.received_puts, Ctx.received_store]
    exact h.puts

theorem posting_command (q : Ctx (Unit × List Command)) (val : Val) (ioa : Nat) :
    q.command posting.recorded val ioa = { q with store := ((), q.store.2 ++ [(val, ioa)]) } := by
  simp [Ctx.command, posting, Callbacks.recorded, Ctx.put]

theorem Carried.command (hcb : cb.onCommand = some g) (h : Carried g gi now c₀ c q) (hq : q.puts = [])
    {val : Val} (hval : ReadOff val) (ioa : Nat) :
    Carried g gi now c₀ (c.command cb val ioa) (q.command posting.recorded val ioa) := by
  have hputs : c.puts = c₀.puts ++ (obeyed g c₀.store q.store.2).1 := by
    rcases h.puts with ⟨-, hp⟩ | ⟨hq', -, -⟩
    · exact hp
    · rw [hq] at hq'
      cases hq'
  rw [posting_command]
  have hdone : Carried g gi now c₀ { c.put (g val ioa c.store).2.1 with store := (g val ioa c.store).2.2 }
      { q with store := ((), q.store.2 ++ [(val, ioa)]) } := by
    refine ⟨h.st, ?_, fun o ho => ?_, .inl ⟨hq, ?_⟩⟩
    · show (g val ioa c.store).2.2 = _
      rw [obeyed_snoc, h.store]
    · rcases List.mem_append.mp ho with ho | ho
      · exact h.read o ho
      · rw [List.mem_singleton.mp ho]
        exact hval
    · show c.puts ++ (g val ioa c.store).2.1 = _
      rw [obeyed_snoc, h.store, hputs, List.append_assoc]
  unfold Ctx.command
  rw [hcb]
  dsimp only
  split
  · exact hdone
  · exact ⟨hdone.st, hdone.store, hdone.read, hdone.puts⟩

def CarriedOut {α : Type} (g : Val → Nat → σ → Bool × List IecEvent × σ) (gi : σ → List IecEvent) (now : Datetime)
    (c₀ : Ctx σ) (r : Except PyErr α × Ctx σ) (p : Except PyErr α × Ctx (Unit × List Command)) : Prop :=
  r.1 = p.1 ∧ Carried g gi now c₀ r.2 p.2

theorem runCommands_carried (hcb : cb.onCommand = some g) {val : Bytes → Except PyErr Val}
    (hval : ∀ data v, val data = .ok v → ReadOff v) (objs : List (Nat × Bytes)) (h : Carried g gi now c₀ c q)
    (hq : q.puts = []) :
    CarriedOut g gi now c₀ (runCommands cb val objs c) (runCommands posting.recorded val objs q) ∧
      (runCommands posting.recorded val objs q).2.puts = [] := by
  induction objs generalizing c q with
  | nil => exact ⟨⟨rfl, h⟩, hq⟩
  | cons o objs ih =>
    rw [runCommands, runCommands]
    cases hv : val o.2 with
    | error e => exact ⟨⟨rfl, h⟩, hq⟩
    | ok v =>
      refine ih (h.command hcb hq (hval o.2 v hv) o.1) ?_
      rw [posting_command]
      exact hq

theorem confirm_carried (h : Carried g gi now c₀ c q) : CarriedOut g gi now c₀ (confirm f c) (confirm f q) := by
  unfold confirm
  rw [h.st]
  cases buildIFrameAck q.st f COT.activationCon with
  | error e => exact ⟨rfl, h⟩
  | ok r => exact ⟨rfl, rfl, h.store, h.read, h.puts⟩

theorem obey_carried (hcb : cb.onCommand = some g) {val : Bytes → Except PyErr Val}
    (hval : ∀ data v, val data = .ok v → ReadOff v) (objs : List (Nat × Bytes)) (h : Carried g gi now c₀ c q)
    (hq : q.puts = []) :
    CarriedOut g gi now c₀ (obey cb val f objs c) (obey posting.recorded val f objs q) := by
  obtain ⟨⟨hres, hc⟩, -⟩ := runCommands_carried hcb hval objs h hq
  unfold obey
  rcases hx : runCommands cb val objs c with ⟨x, d⟩
  rcases hy : runCommands posting.recorded val objs q with ⟨y, e⟩
  rw [hx, hy] at hres hc
  dsimp only at hres
  subst hres
  cases x with
  | error err => exact ⟨rfl, hc⟩
  | ok u => exact confirm_carried hc

theorem dispatch_carried (hcb : cb.onCommand = some g) (hgi : cb.onGi = some gi) (typeId : Nat)
    (objs : List (Nat × Bytes)) (h : Carried g gi now c₀ c q) (hq : q.puts = []) (ho : q.store.2 = []) :
    CarriedOut g gi now c₀ (dispatch cb now f typeId objs c) (dispatch posting.recorded now f typeId objs q) := by
  unfold dispatch
  split
  · have hc : c.store = c₀.store ∧ c.puts = c₀.puts := by
      rcases h.puts with ⟨-, hp⟩ | ⟨hq', -, -⟩
      · have hs := h.store
        rw [ho] at hs hp
        exact ⟨hs, by rw [hp]; exact List.append_nil _⟩
      · rw [hq] at hq'
        cases hq'
    rw [hgi]
    refine confirm_carried ⟨h.st, h.store, h.read, .inr ⟨?_, ho, ?_⟩⟩
    · show q.puts ++ _ = _
      rw [hq]
      rfl
    · show c.puts ++ _ = _
      rw [hc.1, hc.2]
  split
  · exact obey_carried hcb (fun data v hv => ⟨data, .inl hv⟩) _ h hq
  split
  · exact obey_carried hcb (fun data v hv => ⟨data, .inr hv⟩) _ h hq
  · exact ⟨rfl, h⟩

theorem handleObjs_carried (hcb : cb.onCommand = some g) (hgi : cb.onGi = some gi) (asdu : Bytes) (typeId vsq : Nat)
    (h : Carried g gi now c₀ c q) (hq : q.puts = []) (ho : q.store.2 = []) :
    CarriedOut g gi now c₀ (handleObjs cb now f asdu typeId vsq c)
      (handleObjs posting.recorded now f asdu typeId vsq q) := by
  unfold handleObjs
  cases parseObjs asdu typeId vsq with
  | error e =>
    cases e with
    | indexError => exact ⟨rfl, h.log _⟩
    | _ => exact ⟨rfl, h⟩
  | ok objs => exact dispatch_carried hcb hgi typeId objs h hq ho

theorem handleAsdu_carried (hcb : cb.onCommand = some g) (hgi : cb.onGi = some gi) (asdu : Bytes)
    (h : Carried g gi now c₀ c q) (hq : q.puts = []) (ho : q.store.2 = []) :
    CarriedOut g gi now c₀ (handleAsdu cb now f asdu c) (handleAsdu posting.recorded now f asdu q) := by
  unfold handleAsdu
  rw [h.st]
  split
  · dsimp only
    split
    · exact ⟨rfl, h.log _⟩
    split
    · exact ⟨rfl, h.log _⟩
    split
    · exact handleObjs_carried hcb hgi _ _ _ (h.log _) hq ho
    · exact handleObjs_carried hcb hgi _ _ _ h hq ho
  · exact ⟨rfl, h.log _⟩

theorem handleUFrame_carried (h : Carried g gi now c₀ c q) :
    CarriedOut g gi now c₀ (handleUFrame f c) (handleUFrame f q) := by
  unfold handleUFrame
  rw [h.st]
  split
  · exact ⟨rfl, h⟩
  split
  · exact ⟨rfl, h.log _⟩
  · exact ⟨rfl, rfl, h.store, h.read, h.puts⟩

theorem handleSFrame_carried (h : Carried g gi now c₀ c q) :
    CarriedOut g gi now c₀ (handleSFrame f c) (handleSFrame f q) := by
  unfold handleSFrame
  rw [h.st]
  split
  · exact ⟨rfl, h.log _⟩
  split
  · exact ⟨rfl, h⟩
  · exact ⟨rfl, rfl, h.store, h.read, h.puts⟩

theorem CarriedOut.map {α β : Type} {r : Except PyErr α × Ctx σ} {p : Except PyErr α × Ctx (Unit × List Command)}
    (h : CarriedOut g gi now c₀ r p) (k : α → β) : CarriedOut g gi now c₀ (r.1.map k, r.2) (p.1.map k, p.2) :=
  ⟨congrArg (Except.map k) h.1, h.2⟩

theorem procFrame_record (hcb : cb.onCommand = some g) (hgi : cb.onGi = some gi) (now : Datetime) (f : Bytes)
    (c : Ctx σ) : CarriedOut g gi now c (procFrame cb now f c)
      (procFrame posting.recorded now f ⟨c.st, ((), []), [], []⟩) := by
  by_cases hlen : f.length ≤ 2
  · rw [procFrame_short hlen, procFrame_short hlen]
    exact ⟨rfl, carried_start c⟩
  rcases format_cases (f := f) (by omega) with ⟨hI, -, -⟩ | ⟨-, hS, -⟩ | ⟨-, -, hU⟩
  · rw [procFrame_I hI, procFrame_I hI]
    apply CarriedOut.map
    unfold handleIFrame
    split
    · exact ⟨rfl, carried_start c⟩
    split
    · exact ⟨rfl, carried_start c⟩
    · refine handleAsdu_carried hcb hgi _ ((carried_start c).received _ _) ?_ ?_
      · rw [Ctx.received_puts]
      · rw [Ctx.received_store]
  · rw [procFrame_S hS, procFrame_S hS]
    exact (handleSFrame_carried (carried_start c)).map _
  · rw [procFrame_U hU, procFrame_U hU]
    exact (handleUFrame_carried (carried_start c)).map _

theorem posting_onCommand : posting.onCommand = some fun _ _ s => (true, [], s) := rfl

theorem posting_recorded (now : Datetime) (f : Bytes) (st : ClientState) :
    procFrame posting now f ⟨st, (), [], []⟩ =
      ((procFrame posting.recorded now f ⟨st, ((), []), [], []⟩).1,
        (procFrame posting.recorded now f ⟨st, ((), []), [], []⟩).2.map Prod.fst id) :=
  procFrame_recorded posting now f ⟨st, ((), []), [], []⟩

/-- What the connection itself puts: the termination of an interrogation. -/
theorem posting_puts (now : Datetime) (f : Bytes) (st : ClientState) :
    (procFrame posting now f ⟨st, (), [], []⟩).2.puts =
      if interrogates now f st then [giTermination now] else [] := by
  have hrec := (procFrame_record posting_onCommand rfl now f ⟨st, (), [], []⟩).2.puts
  have hq : (procFrame posting now f ⟨st, (), [], []⟩).2.puts =
      (procFrame posting.recorded now f ⟨st, ((), []), [], []⟩).2.puts := by
    rw [posting_recorded]
    exact List.map_id _
  unfold interrogates
  rw [hq]
  rcases hrec with ⟨hq, -⟩ | ⟨hq, -⟩
  · rw [hq]
    rfl
  · rw [hq]
    rfl

theorem orders_read {now : Datetime} {f : Bytes} {st : ClientState} {o : Command} (ho : o ∈ orders now f st) :
    ReadOff o.1 :=
  (procFrame_record posting_onCommand rfl now f ⟨st, (), [], []⟩).2.read o ho

/-- With any callbacks, a frame does what carrying out its orders does. -/
theorem procFrame_carried (hcb : cb.onCommand = some g) (hgi : cb.onGi = some gi) (now : Datetime) (f : Bytes)
    (c : Ctx σ) :
    (procFrame cb now f c).1 = (procFrame posting now f ⟨c.st, (), [], []⟩).1 ∧
      (procFrame cb now f c).2.st = (procFrame posting now f ⟨c.st, (), [], []⟩).2.st ∧
      (procFrame cb now f c).2.store = (obeyed g c.store (orders now f c.st)).2 ∧
      (procFrame cb now f c).2.puts = c.puts ++
        if interrogates now f c.st then (gi c.store).filter (fun ev => ev.asdu < 45) ++ [giTermination now]
        else (obeyed g c.store (orders now f c.st)).1 := by
  obtain ⟨hres, hst, hstore, -, hputs⟩ := procFrame_record hcb hgi now f c
  have hq := posting_puts now f c.st
  rw [posting_recorded] at hq ⊢
  have hq : (procFrame posting.recorded now f ⟨c.st, ((), []), [], []⟩).2.puts =
      if interrogates now f c.st then [giTermination now] else [] := (List.map_id _).symm.trans hq
  refine ⟨hres, hst, hstore, ?_⟩
  rw [hq] at hputs
  by_cases hi : interrogates now f c.st = true
  · rw [if_pos hi] at hputs ⊢
    rcases hputs with ⟨hn, -⟩ | ⟨-, -, hp⟩
    · cases hn
    · exact hp
  · rw [if_neg hi] at hputs ⊢
    rcases hputs with ⟨-, hp⟩ | ⟨hn, -⟩
    · exact hp
    · cases hn

/-- An interrogation passes no command on. -/
theorem orders_of_interrogates {now : Datetime} {f : Bytes} {st : ClientState} (h : interrogates now f st = true) :
    orders now f st = [] := by
  have hq := posting_puts now f st
  rw [posting_recorded, if_pos h] at hq
  rcases (procFrame_record posting_onCommand rfl now f ⟨st, (), [], []⟩).2.puts with ⟨hn, -⟩ | ⟨-, ho, -⟩
  · have hnil := (List.map_id _).symm.trans hq
    rw [hn] at hnil
    cases hnil
  · exact ho

end Carried

end Drv60870.Protocol
