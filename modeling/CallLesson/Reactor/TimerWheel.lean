import CallLesson.Framework.Exec

/-! # The timer wheel

    `TimerTask` and `TimerWheel` of `Reactor_http/source/server.hpp`: a ring
    of 60 slots of `shared_ptr<TimerTask>`, advanced one slot per second. A
    task runs its callback from its destructor, that is, when the last of its
    pointers is dropped; refreshing a task adds one more pointer in a later
    slot, and cancelling it only marks it.

    The only owners that outlive a call are the pointers in the slots, so the
    use count of a task is the number of its handles in the wheel, and
    `weak_ptr::lock` fails exactly when that is 0. -/

namespace CallLesson.Reactor

open Exec List

/-! ## Model -/

/-- Task objects are numbered in the order of their allocation. -/
abbrev Handle := Nat

structure TimerTask (κ : Type) where
  /-- `_id`. -/
  id : Nat
  /-- `_timeout`, a `uint32_t`. -/
  timeout : Nat
  /-- `_task_cb`. -/
  taskCb : κ
  /-- `_cancel`. -/
  cancel : Bool
  deriving DecidableEq

def capacity : Nat := 60

structure TimerWheel (κ : Type) where
  /-- `_tick`. -/
  tick : Nat
  /-- `_wheel`: the pointers in each slot, in the order they were pushed. -/
  wheel : Nat → List Handle
  /-- `_timers`: the weak pointer registered under an id. -/
  timers : Nat → Option Handle
  /-- The task behind each handle. -/
  tasks : List (TimerTask κ)

def toInt32 (n : Nat) : Int :=
  if n % 2 ^ 32 < 2 ^ 31 then (n % 2 ^ 32 : Nat) else (n % 2 ^ 32 : Nat) - 2 ^ 32

theorem toInt32_eq_self {n : Nat} (hn : n < 2 ^ 31) : toInt32 n = n := by
  have hmod : n % 2 ^ 32 = n := Nat.mod_eq_of_lt (by omega)
  rw [toInt32, hmod, if_pos hn]

namespace TimerWheel

variable {κ : Type}

def empty (κ : Type) : TimerWheel κ where
  tick := 0
  wheel := fun _ => []
  timers := fun _ => none
  tasks := []

def setSlot (w : TimerWheel κ) (p : Nat) (slot : List Handle) : TimerWheel κ :=
  { w with wheel := fun q => if q = p then slot else w.wheel q }

def pushSlot (w : TimerWheel κ) (p : Nat) (h : Handle) : TimerWheel κ :=
  w.setSlot p (w.wheel p ++ [h])

def setTimer (w : TimerWheel κ) (id : Nat) (entry : Option Handle) : TimerWheel κ :=
  { w with timers := fun i => if i = id then entry else w.timers i }

def useCount (w : TimerWheel κ) (h : Handle) : Nat :=
  ((range capacity).map fun p => (w.wheel p).count h).sum

def lock (w : TimerWheel κ) (h : Handle) : Option Handle :=
  if w.useCount h = 0 then none else some h

def remove (w : TimerWheel κ) (id : Nat) : TimerWheel κ := w.setTimer id none

def hasTimer (w : TimerWheel κ) (id : Nat) : Bool := (w.timers id).isSome

def timerAddInLoop (w : TimerWheel κ) (id timeout : Nat) (cb : κ) : TimerWheel κ :=
  let pt := w.tasks.length
  let pos := (w.tick + timeout) % 2 ^ 32 % capacity
  let task : TimerTask κ := ⟨id, timeout, cb, false⟩
  let w := { w with tasks := w.tasks ++ [task] }
  (w.pushSlot pos pt).setTimer id (some pt)

def timerRefreshInLoop (w : TimerWheel κ) (id : Nat) : Except Fault (TimerWheel κ) :=
  match w.timers id with
  | none => .ok w
  | some weak =>
      match w.lock weak with
      | none => .error .nullPointer
      | some pt =>
          match w.tasks[pt]? with
          | none => .error .badAccess
          | some task =>
              let pos := (w.tick + toInt32 task.timeout).tmod capacity
              if pos < 0 then .error .badAccess else .ok (w.pushSlot pos.toNat pt)

def setCancel (w : TimerWheel κ) (h : Handle) : TimerWheel κ :=
  { w with tasks := w.tasks.modify h fun task => { task with cancel := true } }

def timerCancelInLoop (w : TimerWheel κ) (id : Nat) : TimerWheel κ :=
  match w.timers id with
  | none => w
  | some weak =>
      match w.lock weak with
      | none => w
      | some pt => w.setCancel pt

def advance (w : TimerWheel κ) : TimerWheel κ := { w with tick := (w.tick + 1) % capacity }

end TimerWheel

/-! ### The tick, inside the program the wheel belongs to -/

/-- A program with a wheel, whose callbacks are code of that program. -/
structure Host (σ κ : Type) where
  wheelOf : σ → TimerWheel κ
  setWheel : TimerWheel κ → σ → σ
  wheelOf_setWheel : ∀ w s, wheelOf (setWheel w s) = w

namespace Host

variable {σ κ : Type} (H : Host σ κ)

def update (f : TimerWheel κ → TimerWheel κ) (s : σ) : σ := H.setWheel (f (H.wheelOf s)) s

variable (runCb : Handle → TimerTask κ → EStateM Fault σ Unit)

def destroy (h : Handle) : EStateM Fault σ Unit := do
  let s ← get
  match (H.wheelOf s).tasks[h]? with
  | none => throw .badAccess
  | some task =>
      whenever (task.cancel = false) (runCb h task)
      modify (H.update (·.remove task.id))

def dropFront (p : Nat) (h : Handle) (rest : List Handle) : EStateM Fault σ Unit := do
  modify (H.update (·.setSlot p rest))
  let s ← get
  whenever ((H.wheelOf s).useCount h = 0) (destroy H runCb h)

def clearSlot (p : Nat) : List Handle → EStateM Fault σ Unit
  | [] => pure ()
  | h :: rest => do
      dropFront H runCb p h rest
      clearSlot p rest

def timerRefresh (id : Nat) : EStateM Fault σ Unit := do
  let s ← get
  match (H.wheelOf s).timerRefreshInLoop id with
  | .ok w => set (H.setWheel w s)
  | .error fault => throw fault

def runTimerTask : EStateM Fault σ Unit := do
  modify (H.update (·.advance))
  let s ← get
  clearSlot H runCb (H.wheelOf s).tick ((H.wheelOf s).wheel (H.wheelOf s).tick)

end Host

/-! ## Slots, pointers and registrations -/

namespace TimerWheel

variable {κ : Type}

section

variable (w : TimerWheel κ)

@[simp] theorem setSlot_wheel_self (p : Nat) (slot : List Handle) :
    (w.setSlot p slot).wheel p = slot := by
  simp [setSlot]

@[simp] theorem setSlot_wheel_ne {p q : Nat} (slot : List Handle) (h : q ≠ p) :
    (w.setSlot p slot).wheel q = w.wheel q := by
  simp [setSlot, h]

@[simp] theorem setSlot_timers (p : Nat) (slot : List Handle) :
    (w.setSlot p slot).timers = w.timers := rfl

@[simp] theorem setSlot_tasks (p : Nat) (slot : List Handle) :
    (w.setSlot p slot).tasks = w.tasks := rfl

@[simp] theorem setTimer_timers_self (id : Nat) (entry : Option Handle) :
    (w.setTimer id entry).timers id = entry := by
  simp [setTimer]

@[simp] theorem setTimer_timers_ne {id i : Nat} (entry : Option Handle) (h : i ≠ id) :
    (w.setTimer id entry).timers i = w.timers i := by
  simp [setTimer, h]

end

def Held (w : TimerWheel κ) (h : Handle) : Prop := ∃ p < capacity, h ∈ w.wheel p

variable {w w' : TimerWheel κ} {h h' : Handle}

theorem useCount_eq_zero : w.useCount h = 0 ↔ ¬ w.Held h := by
  unfold useCount Held
  rw [List.sum_eq_zero_iff_forall_eq_nat]
  simp only [List.mem_map, List.mem_range, forall_exists_index, and_imp,
    forall_apply_eq_imp_iff₂, List.count_eq_zero, not_exists, not_and]

theorem lock_eq_some (hheld : w.Held h) : w.lock h = some h :=
  if_neg fun hzero => useCount_eq_zero.mp hzero hheld

theorem lock_eq_none (hheld : ¬ w.Held h) : w.lock h = none :=
  if_pos (useCount_eq_zero.mpr hheld)

structure Inv (w : TimerWheel κ) : Prop where
  tick_lt : w.tick < capacity
  slot_lt : ∀ p h, h ∈ w.wheel p → p < capacity
  registered : ∀ p h, h ∈ w.wheel p → ∃ task, w.tasks[h]? = some task ∧ w.timers task.id = some h
  live : ∀ id h, w.timers id = some h → w.Held h ∧ ∃ task, w.tasks[h]? = some task ∧ task.id = id

theorem Inv.timer_of_held (hinv : Inv w) {task : TimerTask κ}
    (hheld : w.Held h) (htask : w.tasks[h]? = some task) : w.timers task.id = some h := by
  obtain ⟨p, _, hp⟩ := hheld
  obtain ⟨task', htask', htimer⟩ := hinv.registered p h hp
  rw [htask] at htask'
  cases htask'
  exact htimer

theorem empty_inv : Inv (empty κ) := by
  refine ⟨Nat.zero_lt_succ _, ?_, ?_, ?_⟩
  · intro p h hp; cases hp
  · intro p h hp; cases hp
  · intro id h hid; cases hid

/-! ## What each operation does -/

variable {p q id d : Nat}

theorem mem_pushSlot : h' ∈ (w.pushSlot p h).wheel q ↔ h' ∈ w.wheel q ∨ (q = p ∧ h' = h) := by
  by_cases hq : q = p
  · subst hq
    simp [pushSlot]
  · simp [pushSlot, hq]

variable {rest : List Handle}

theorem mem_setSlot_tail (hslot : w.wheel p = h :: rest) (hmem : h' ∈ (w.setSlot p rest).wheel q) :
    h' ∈ w.wheel q := by
  by_cases hq : q = p
  · subst hq
    rw [setSlot_wheel_self] at hmem
    rw [hslot]
    exact mem_cons_of_mem h hmem
  · rwa [setSlot_wheel_ne w rest hq] at hmem

theorem held_setSlot_tail (hslot : w.wheel p = h :: rest) (hne : h' ≠ h) (hheld : w.Held h') :
    (w.setSlot p rest).Held h' := by
  obtain ⟨q, hq, hmem⟩ := hheld
  refine ⟨q, hq, ?_⟩
  by_cases hqp : q = p
  · subst hqp
    rw [hslot] at hmem
    rw [setSlot_wheel_self]
    exact (mem_cons.mp hmem).resolve_left hne
  · rwa [setSlot_wheel_ne w rest hqp]

theorem Inv.task (hinv : Inv w) (hid : w.timers id = some h) :
    ∃ task, w.tasks[h]? = some task ∧ task.id = id :=
  (hinv.live id h hid).2

theorem Inv.lt_length (hinv : Inv w) (hmem : h ∈ w.wheel p) : h < w.tasks.length := by
  obtain ⟨task, htask, _⟩ := hinv.registered p h hmem
  exact (List.getElem?_eq_some_iff.mp htask).1

theorem Inv.pushSlot (hinv : Inv w)
    (hp : p < capacity) (hid : w.timers id = some h) : Inv (w.pushSlot p h) := by
  obtain ⟨task, htask, rfl⟩ := hinv.task hid
  refine ⟨hinv.tick_lt, ?_, ?_, ?_⟩
  · intro q h' hmem
    rcases mem_pushSlot.mp hmem with hold | ⟨rfl, _⟩
    · exact hinv.slot_lt q h' hold
    · exact hp
  · intro q h' hmem
    rcases mem_pushSlot.mp hmem with hold | ⟨_, rfl⟩
    · exact hinv.registered q h' hold
    · exact ⟨task, htask, hid⟩
  · intro id' h' hid'
    obtain ⟨⟨q, hq, hmem⟩, htask'⟩ := hinv.live id' h' hid'
    exact ⟨⟨q, hq, mem_pushSlot.mpr (Or.inl hmem)⟩, htask'⟩

theorem pushSlot_wheel_self (w : TimerWheel κ) (p : Nat) (h : Handle) :
    (w.pushSlot p h).wheel p = w.wheel p ++ [h] :=
  setSlot_wheel_self w p _

theorem add_slot {tick : Nat} (htick : tick < capacity) (hd : d ≤ capacity) :
    (tick + d) % 2 ^ 32 % capacity = (tick + d) % capacity := by
  unfold capacity at *
  omega

theorem refresh_cases (hok : w.timerRefreshInLoop id = .ok w') : (w.timers id = none ∧ w' = w) ∨
    ∃ (h : Handle) (task : TimerTask κ) (p : Nat),
      w.timers id = some h ∧ w.Held h ∧ w.tasks[h]? = some task ∧
      (p : Int) = (w.tick + toInt32 task.timeout).tmod capacity ∧ w' = w.pushSlot p h := by
  unfold timerRefreshInLoop at hok
  split at hok
  · next hid =>
    cases hok
    exact Or.inl ⟨hid, rfl⟩
  · next h hid =>
    right
    by_cases hheld : w.Held h
    · simp only [lock_eq_some hheld] at hok
      split at hok
      · cases hok
      · next task htask =>
        split at hok
        · cases hok
        · next hpos =>
          cases hok
          exact ⟨h, task, _, hid, hheld, htask, Int.toNat_of_nonneg (Int.not_lt.mp hpos), rfl⟩
    · rw [lock_eq_none hheld] at hok
      cases hok

theorem refresh_slot_lt {n : Int} (hp : (p : Int) = n.tmod capacity) : p < capacity := by
  have hlt := Int.tmod_lt_of_pos n (show (0 : Int) < capacity by decide)
  omega

theorem cancel_cases (w : TimerWheel κ) (id : Nat) :
    ((w.timers id).bind w.lock = none ∧ w.timerCancelInLoop id = w) ∨
    ∃ h, w.timers id = some h ∧ w.Held h ∧ w.timerCancelInLoop id = w.setCancel h := by
  cases hid : w.timers id with
  | none => exact Or.inl ⟨rfl, by simp [timerCancelInLoop, hid]⟩
  | some h =>
    by_cases hheld : w.Held h
    · exact Or.inr ⟨h, rfl, hheld, by simp [timerCancelInLoop, hid, lock_eq_some hheld]⟩
    · refine Or.inl ⟨?_, by simp [timerCancelInLoop, hid, lock_eq_none hheld]⟩
      rw [Option.bind_some, lock_eq_none hheld]

theorem Inv.refresh_spec (hinv : Inv w) (id : Nat) :
    (w.timers id = none ∧ w.timerRefreshInLoop id = .ok w) ∨
    ∃ h task, w.timers id = some h ∧ w.tasks[h]? = some task ∧ task.id = id ∧
      (task.timeout ≤ capacity →
        w.timerRefreshInLoop id = .ok (w.pushSlot ((w.tick + task.timeout) % capacity) h)) := by
  cases hid : w.timers id with
  | none => exact Or.inl ⟨rfl, by simp [timerRefreshInLoop, hid]⟩
  | some h =>
    obtain ⟨task, htask, htid⟩ := hinv.task hid
    refine Or.inr ⟨h, task, rfl, htask, htid, ?_⟩
    intro hle
    have hint := toInt32_eq_self (Nat.lt_of_le_of_lt hle (by decide))
    have hpos : ((w.tick : Int) + (task.timeout : Int)).tmod (capacity : Int) =
        (((w.tick + task.timeout) % capacity : Nat) : Int) := rfl
    simp only [timerRefreshInLoop, hid, lock_eq_some (hinv.live id h hid).1, htask, hint, hpos]
    rw [if_neg (by omega), Int.toNat_natCast]

theorem Inv.cancel_spec (hinv : Inv w) (id : Nat) :
    (w.timers id = none ∧ w.timerCancelInLoop id = w) ∨
    ∃ h, w.timers id = some h ∧ w.timerCancelInLoop id = w.setCancel h := by
  rcases w.cancel_cases id with ⟨hnone, hw⟩ | ⟨h, hid, _, hw⟩
  · cases hid : w.timers id with
    | none => exact Or.inl ⟨rfl, hw⟩
    | some h =>
      rw [hid, Option.bind_some, lock_eq_some (hinv.live id h hid).1] at hnone
      cases hnone
  · exact Or.inr ⟨h, hid, hw⟩

@[simp] theorem timerAddInLoop_tasks (w : TimerWheel κ) (id d : Nat) (cb : κ) :
    (w.timerAddInLoop id d cb).tasks = w.tasks ++ [⟨id, d, cb, false⟩] := rfl

theorem timerAddInLoop_timers (w : TimerWheel κ) (id d : Nat) (cb : κ) (i : Nat) :
    (w.timerAddInLoop id d cb).timers i =
      if i = id then some w.tasks.length else w.timers i := rfl

theorem mem_timerAddInLoop {cb : κ} : h ∈ (w.timerAddInLoop id d cb).wheel q ↔
      h ∈ w.wheel q ∨ (q = (w.tick + d) % 2 ^ 32 % capacity ∧ h = w.tasks.length) :=
  mem_pushSlot

theorem getElem?_add_of_some {cb : κ} {task : TimerTask κ} (htask : w.tasks[h]? = some task) :
    (w.timerAddInLoop id d cb).tasks[h]? = some task := by
  rw [timerAddInLoop_tasks, List.getElem?_append_left (List.getElem?_eq_some_iff.mp htask).1]
  exact htask

theorem getElem?_add_cases {cb : κ}
    {task : TimerTask κ} (htask : (w.timerAddInLoop id d cb).tasks[h]? = some task) :
    w.tasks[h]? = some task ∨ (h = w.tasks.length ∧ task = ⟨id, d, cb, false⟩) := by
  rw [timerAddInLoop_tasks, getElem?_append] at htask
  by_cases hlt : h < w.tasks.length
  · rw [if_pos hlt] at htask
    exact Or.inl htask
  · rw [if_neg hlt, getElem?_singleton] at htask
    split at htask
    · next hzero =>
      have heq : h = w.tasks.length := Nat.le_antisymm (Nat.le_of_sub_eq_zero hzero) (Nat.le_of_not_lt hlt)
      exact Or.inr ⟨heq, (Option.some.inj htask).symm⟩
    · cases htask

theorem Inv.add (hinv : Inv w) (d : Nat) (cb : κ)
    (hid : w.timers id = none) : Inv (w.timerAddInLoop id d cb) := by
  have hnew : (w.timerAddInLoop id d cb).tasks[w.tasks.length]? = some ⟨id, d, cb, false⟩ := by
    simp
  refine ⟨hinv.tick_lt, ?_, ?_, ?_⟩
  · intro q h hmem
    rcases mem_timerAddInLoop.mp hmem with hold | ⟨rfl, _⟩
    · exact hinv.slot_lt q h hold
    · exact Nat.mod_lt _ (Nat.zero_lt_succ _)
  · intro q h hmem
    rcases mem_timerAddInLoop.mp hmem with hold | ⟨_, rfl⟩
    · obtain ⟨task, htask, htimer⟩ := hinv.registered q h hold
      refine ⟨task, getElem?_add_of_some htask, ?_⟩
      have hne : task.id ≠ id := by
        intro heq
        rw [heq, hid] at htimer
        cases htimer
      rw [timerAddInLoop_timers, if_neg hne]
      exact htimer
    · refine ⟨_, hnew, ?_⟩
      rw [timerAddInLoop_timers, if_pos rfl]
  · intro i h hi
    rw [timerAddInLoop_timers] at hi
    split at hi
    · next heq =>
      cases hi
      refine ⟨⟨_, Nat.mod_lt _ (Nat.zero_lt_succ _), mem_timerAddInLoop.mpr (Or.inr ⟨rfl, rfl⟩)⟩,
        _, hnew, heq.symm⟩
    · obtain ⟨⟨q, hq, hmem⟩, task, htask, htid⟩ := hinv.live i h hi
      exact ⟨⟨q, hq, mem_timerAddInLoop.mpr (Or.inl hmem)⟩, task, getElem?_add_of_some htask, htid⟩

theorem getElem?_setCancel (w : TimerWheel κ) (h h' : Handle) :
    (w.setCancel h).tasks[h']? = (w.tasks[h']?).map fun task =>
      if h = h' then { task with cancel := true } else task :=
  getElem?_modify _ _ _ _

theorem getElem?_setCancel_some {task : TimerTask κ} (htask : w.tasks[h']? = some task) :
    (w.setCancel h).tasks[h']? = some { task with cancel := (h == h') || task.cancel } := by
  rw [getElem?_setCancel, htask]
  by_cases heq : h = h'
  · simp [heq]
  · have hbeq : (h == h') = false := beq_false_of_ne heq
    simp [heq, hbeq]

theorem getElem?_setCancel_inv {task : TimerTask κ}
    (htask : (w.setCancel h).tasks[h']? = some task) :
    ∃ task0, w.tasks[h']? = some task0 ∧
      task = { task0 with cancel := (h == h') || task0.cancel } := by
  cases hold : w.tasks[h']? with
  | none => rw [getElem?_setCancel, hold] at htask; cases htask
  | some task0 =>
    rw [getElem?_setCancel_some hold] at htask
    exact ⟨task0, rfl, (Option.some.inj htask).symm⟩

theorem mem_setCancel {task : TimerTask κ}
    (hmem : task ∈ (w.setCancel h).tasks) : ∃ task0 ∈ w.tasks, task.taskCb = task0.taskCb := by
  obtain ⟨h', hh'⟩ := mem_iff_getElem?.mp hmem
  obtain ⟨task0, htask0, rfl⟩ := getElem?_setCancel_inv hh'
  exact ⟨task0, mem_of_getElem? htask0, rfl⟩

theorem mem_timerCancelInLoop {task : TimerTask κ} (hmem : task ∈ (w.timerCancelInLoop id).tasks) :
    ∃ task0 ∈ w.tasks, task.taskCb = task0.taskCb := by
  rcases w.cancel_cases id with ⟨_, hw⟩ | ⟨h, _, _, hw⟩
  · rw [hw] at hmem
    exact ⟨task, hmem, rfl⟩
  · rw [hw] at hmem
    exact mem_setCancel hmem

theorem timerRefreshInLoop_tasks (hok : w.timerRefreshInLoop id = .ok w') : w'.tasks = w.tasks := by
  rcases refresh_cases hok with ⟨_, rfl⟩ | ⟨_, _, _, _, _, _, _, rfl⟩
  · rfl
  · rfl

variable {w : TimerWheel κ} (hinv : Inv w)

include hinv

theorem Inv.setCancel (h : Handle) : Inv (w.setCancel h) := by
  refine ⟨hinv.tick_lt, hinv.slot_lt, ?_, ?_⟩
  · intro q h' hmem
    obtain ⟨task, htask, htimer⟩ := hinv.registered q h' hmem
    exact ⟨_, getElem?_setCancel_some htask, htimer⟩
  · intro i h' hi
    obtain ⟨hheld, task, htask, htid⟩ := hinv.live i h' hi
    exact ⟨hheld, _, getElem?_setCancel_some htask, htid⟩

theorem Inv.advance : Inv w.advance :=
  ⟨Nat.mod_lt _ (Nat.zero_lt_succ _), hinv.slot_lt, hinv.registered, hinv.live⟩

theorem Inv.drop_held (hslot : w.wheel p = h :: rest)
    (hheld : (w.setSlot p rest).Held h) : Inv (w.setSlot p rest) := by
  refine ⟨hinv.tick_lt, ?_, ?_, ?_⟩
  · intro q h' hmem
    exact hinv.slot_lt q h' (mem_setSlot_tail hslot hmem)
  · intro q h' hmem
    exact hinv.registered q h' (mem_setSlot_tail hslot hmem)
  · intro i h' hi
    obtain ⟨hheld', htask⟩ := hinv.live i h' hi
    refine ⟨?_, htask⟩
    by_cases hne : h' = h
    · rwa [hne]
    · exact held_setSlot_tail hslot hne hheld'

theorem Inv.drop_last {task : TimerTask κ}
    (hslot : w.wheel p = h :: rest) (htask : w.tasks[h]? = some task)
    (hheld : ¬ (w.setSlot p rest).Held h) : Inv ((w.setSlot p rest).remove task.id) := by
  have htimer : w.timers task.id = some h := by
    have hp : h ∈ w.wheel p := by rw [hslot]; exact mem_cons_self
    exact hinv.timer_of_held ⟨p, hinv.slot_lt p h hp, hp⟩ htask
  refine ⟨hinv.tick_lt, ?_, ?_, ?_⟩
  · intro q h' hmem
    exact hinv.slot_lt q h' (mem_setSlot_tail hslot hmem)
  · intro q h' hmem
    have hold := mem_setSlot_tail hslot hmem
    obtain ⟨task', htask', htimer'⟩ := hinv.registered q h' hold
    refine ⟨task', htask', ?_⟩
    have hne : task'.id ≠ task.id := by
      intro heq
      rw [heq, htimer] at htimer'
      cases htimer'
      exact hheld ⟨q, hinv.slot_lt q h hold, hmem⟩
    rw [remove, setTimer_timers_ne _ _ hne]
    exact htimer'
  · intro i h' hi
    by_cases hne : i = task.id
    · rw [hne, remove, setTimer_timers_self] at hi
      cases hi
    · rw [remove, setTimer_timers_ne _ _ hne, setSlot_timers] at hi
      obtain ⟨hheld', task', htask', htid⟩ := hinv.live i h' hi
      refine ⟨held_setSlot_tail hslot ?_ hheld', task', htask', htid⟩
      intro heq
      rw [heq, htask] at htask'
      cases htask'
      exact hne htid.symm

end TimerWheel

namespace Host

variable {σ κ : Type} {H : Host σ κ} {runCb : Handle → TimerTask κ → EStateM Fault σ Unit}

theorem wp_clearSlot (I : List Handle → σ → Prop) (E : σ → Prop) {p : Nat}
    (hdrop : ∀ h rest s, I (h :: rest) s →
      wp (dropFront H runCb p h rest) (fun _ s' => I rest s') E s) :
    ∀ (slot : List Handle) (s : σ), I slot s →
      wp (clearSlot H runCb p slot) (fun _ s' => I [] s') E s := by
  intro slot
  induction slot with
  | nil =>
    intro s hI
    rw [clearSlot, wp_pure]
    exact hI
  | cons h rest ih =>
    intro s hI
    rw [clearSlot, wp_bind]
    refine wp_imp (hdrop h rest s hI) ?_
    intro _ s' hI'
    exact ih s' hI'

section respects

variable {G : Exec.Guarantee σ}
  (hset : ∀ w s, w.tasks = (H.wheelOf s).tasks → G.ret s (H.setWheel w s))
  (hcb : ∀ h task s, (H.wheelOf s).tasks[h]? = some task →
    wp (runCb h task) (fun _ s' => G.ret s s') (fun s' => G.fault s s') s)

include hset in
theorem update_respects {f : TimerWheel κ → TimerWheel κ} (hf : ∀ w, (f w).tasks = w.tasks) :
    Exec.Respects G (modify (H.update f) : EStateM Fault σ Unit) :=
  respects_modify fun s => hset _ s (hf _)

include hset hcb

theorem destroy_respects (h : Handle) : Exec.Respects G (destroy H runCb h) := by
  apply respects_get_bind
  intro s
  cases htask : (H.wheelOf s).tasks[h]? with
  | none => exact (wp_throw _ _ _ _).mpr (G.fault_refl s)
  | some task =>
    dsimp only
    have hremove : Exec.Respects G (modify (H.update (·.remove task.id)) : EStateM Fault σ Unit) :=
      update_respects hset fun _ => rfl
    rw [wp_bind, wp_whenever]
    constructor
    · intro _
      exact wp_mono (hcb h task s htask) (fun _ _ h' => hremove.after h') (fun _ h' => h')
    · intro _
      exact hremove s

theorem clearSlot_respects (p : Nat) (slot : List Handle) :
    Exec.Respects G (clearSlot H runCb p slot) := by
  induction slot with
  | nil => exact respects_pure ()
  | cons h rest ih =>
    rw [clearSlot, dropFront]
    refine respects_bind ?_ fun _ => ih
    apply respects_bind (update_respects hset fun w => TimerWheel.setSlot_tasks w p rest)
    intro _
    apply respects_bind respects_get
    intro s
    exact respects_whenever _ (destroy_respects hset hcb h)

theorem runTimerTask_respects : Exec.Respects G (runTimerTask H runCb) := by
  have hadvance : Exec.Respects G (modify (H.update (·.advance)) : EStateM Fault σ Unit) :=
    update_respects hset fun _ => rfl
  apply respects_bind hadvance
  intro _
  apply respects_bind respects_get
  intro s
  exact clearSlot_respects hset hcb _ _

end respects

end Host

end CallLesson.Reactor
