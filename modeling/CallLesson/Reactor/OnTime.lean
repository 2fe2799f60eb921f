import CallLesson.Framework.System
import CallLesson.Reactor.TimerWheel

/-! # The wheel fires on time

    Runs of the timer wheel on its own: adds of unregistered ids with a
    timeout of 1 to 60 s, refreshes, cancels and ticks in any order, with
    callbacks that do not touch the wheel. A refresh leaves the old pointers
    where they are, so what decides when a task dies is the last of its
    pointers. -/

namespace CallLesson.Reactor

/-! ## Runs of the wheel -/

structure Clock (κ : Type) where
  wheel : TimerWheel κ
  /-- The number of ticks executed. -/
  now : Nat
  /-- The number of ticks executed when the task was added or last refreshed. -/
  armed : Handle → Nat
  /-- A cancel was called while the task was registered. -/
  cancelled : Handle → Bool
  /-- The callbacks run, each with the tick it ran in. -/
  ran : List (Nat × Handle)

inductive WheelOp (κ : Type) where
  | add (id timeout : Nat) (cb : κ)
  | refresh (id : Nat)
  | cancel (id : Nat)
  | tick
  deriving DecidableEq

open TimerWheel Exec

variable {h : Handle} {rest : List Handle}

namespace Clock

variable {κ : Type}

def initial (κ : Type) : Clock κ where
  wheel := TimerWheel.empty κ
  now := 0
  armed := fun _ => 0
  cancelled := fun _ => false
  ran := []

def host (κ : Type) : Host (Clock κ) κ where
  wheelOf := wheel
  setWheel := fun w s => { s with wheel := w }
  wheelOf_setWheel := fun _ _ => rfl

def logRun (h : Handle) (_ : TimerTask κ) : EStateM Fault (Clock κ) Unit :=
  modify fun s => { s with ran := s.ran ++ [(s.now, h)] }

def arm (s : Clock κ) (h : Handle) : Clock κ :=
  { s with armed := fun i => if i = h then s.now else s.armed i }

def mark (s : Clock κ) (h : Handle) : Clock κ :=
  { s with cancelled := fun i => if i = h then true else s.cancelled i }

def noteArmed (id : Nat) (s : Clock κ) : Clock κ :=
  match s.wheel.timers id with
  | none => s
  | some h => s.arm h

def noteCancelled (id : Nat) (s : Clock κ) : Clock κ :=
  match s.wheel.timers id with
  | none => s
  | some h => s.mark h

def exec : WheelOp κ → EStateM Fault (Clock κ) Unit
  | .add id d cb => do
      modify ((host κ).update (·.timerAddInLoop id d cb))
      modify (noteArmed id)
  | .refresh id => do
      (host κ).timerRefresh id
      modify (noteArmed id)
  | .cancel id => do
      modify (noteCancelled id)
      modify ((host κ).update (·.timerCancelInLoop id))
  | .tick => do
      modify fun s => { s with now := s.now + 1 }
      (host κ).runTimerTask logRun

def Allowed (s : Clock κ) : WheelOp κ → Prop
  | .add id d _ => s.wheel.hasTimer id = false ∧ 1 ≤ d ∧ d ≤ 60
  | _ => True

def runsOfWheel (κ : Type) : System (Clock κ) (WheelOp κ) where
  init := fun s => s = initial κ
  step := fun s op s' => Allowed s op ∧ exec op s = .ok () s'

def runs (s : Clock κ) (h : Handle) : List Nat :=
  (s.ran.filter fun r => r.2 = h).map Prod.fst

/-! ## Every pointer has a tick to be dropped in -/

structure Timed (lo : Nat) (s : Clock κ) : Prop where
  inv : s.wheel.Inv
  tick_eq : s.wheel.tick = s.now % capacity
  range : ∀ h task, s.wheel.tasks[h]? = some task →
    1 ≤ task.timeout ∧ task.timeout ≤ capacity ∧ s.armed h < lo
  cancel_eq : ∀ h task, s.wheel.tasks[h]? = some task → task.cancel = s.cancelled h
  fresh : ∀ h, s.wheel.tasks.length ≤ h → s.cancelled h = false ∧ s.runs h = []
  pointer : ∀ p h task, h ∈ s.wheel.wheel p → s.wheel.tasks[h]? = some task →
    ∃ t, lo ≤ t ∧ t < lo + capacity ∧ t ≤ s.armed h + task.timeout ∧ t % capacity = p
  pending : ∀ h task, s.wheel.tasks[h]? = some task → s.now < s.armed h + task.timeout →
    h ∈ s.wheel.wheel ((s.armed h + task.timeout) % capacity)
  held : ∀ h, s.wheel.Held h → s.runs h = []
  done : ∀ h task, s.wheel.tasks[h]? = some task → ¬ s.wheel.Held h →
    s.runs h = if s.cancelled h then [] else [s.armed h + task.timeout]

theorem initial_timed : Timed 1 (initial κ) where
  inv := empty_inv
  tick_eq := rfl
  range := by intro h task htask; cases htask
  cancel_eq := by intro h task htask; cases htask
  fresh := fun _ _ => ⟨rfl, rfl⟩
  pointer := by intro p h task hmem; cases hmem
  pending := by intro h task htask; cases htask
  held := fun _ _ => rfl
  done := by intro h task htask; cases htask

/-! ### Add, refresh and cancel -/

theorem arm_armed_self (s : Clock κ) (h : Handle) : (s.arm h).armed h = s.now := if_pos rfl

variable {h' : Handle}

theorem arm_armed_ne (s : Clock κ) (hne : h' ≠ h) : (s.arm h).armed h' = s.armed h' := if_neg hne

variable {s : Clock κ} {task : TimerTask κ}

theorem Timed.armed_le (ht : Timed (s.now + 1) s)
    (htask : s.wheel.tasks[h']? = some task) (h : Handle) : s.armed h' ≤ (s.arm h).armed h' := by
  by_cases heq : h' = h
  · have hlt := (ht.range h' task htask).2.2
    rw [heq] at hlt ⊢
    rw [arm_armed_self]
    exact Nat.le_of_lt_succ hlt
  · exact Nat.le_of_eq (arm_armed_ne s heq).symm

theorem slot_of_tick {tick now d : Nat} (htick : tick = now % capacity) :
    (tick + d) % capacity = (now + d) % capacity := by
  rw [htick, Nat.mod_add_mod]

theorem Timed.add (ht : Timed (s.now + 1) s) {id d : Nat} (cb : κ) (hid : s.wheel.timers id = none)
    (hd : 1 ≤ d) (hd' : d ≤ capacity) :
    Timed (s.now + 1)
      ({ s with wheel := s.wheel.timerAddInLoop id d cb }.arm s.wheel.tasks.length) := by
  have hslot : (s.wheel.tick + d) % 2 ^ 32 % capacity = (s.now + d) % capacity := by
    rw [add_slot ht.inv.tick_lt hd', slot_of_tick ht.tick_eq]
  -- the handles of the old tasks are not the new one
  have hne : ∀ {h task}, s.wheel.tasks[h]? = some task → h ≠ s.wheel.tasks.length :=
    fun htask => Nat.ne_of_lt (List.getElem?_eq_some_iff.mp htask).1
  refine ⟨ht.inv.add d cb hid, ht.tick_eq, ?_, ?_, ?_, ?_, ?_, ?_, ?_⟩
  · intro h task htask
    rcases getElem?_add_cases htask with hold | ⟨rfl, rfl⟩
    · rw [arm_armed_ne _ (hne hold)]
      exact ht.range h task hold
    · rw [arm_armed_self]
      exact ⟨hd, hd', Nat.lt_succ_self _⟩
  · intro h task htask
    rcases getElem?_add_cases htask with hold | ⟨rfl, rfl⟩
    · exact ht.cancel_eq h task hold
    · exact (ht.fresh _ (Nat.le_refl _)).1.symm
  · intro h hle
    have hlen : s.wheel.tasks.length ≤ h := by
      have : s.wheel.tasks.length + 1 ≤ h := by simpa [arm] using hle
      omega
    exact ht.fresh h hlen
  · intro p h task hmem htask
    rcases mem_timerAddInLoop.mp hmem with hold | ⟨rfl, rfl⟩
    · obtain ⟨task', htask', _⟩ := ht.inv.registered p h hold
      have hsame : task = task' :=
        Option.some.inj (htask.symm.trans (getElem?_add_of_some htask'))
      rw [hsame, arm_armed_ne _ (hne htask')]
      exact ht.pointer p h task' hold htask'
    · rcases getElem?_add_cases htask with hold | ⟨_, rfl⟩
      · exact absurd rfl (hne hold)
      · rw [arm_armed_self]
        refine ⟨s.now + d, ?_, ?_, Nat.le_refl _, hslot.symm⟩ <;> omega
  · intro h task htask hlt
    rcases getElem?_add_cases htask with hold | ⟨rfl, rfl⟩
    · rw [arm_armed_ne _ (hne hold)] at hlt ⊢
      exact mem_timerAddInLoop.mpr (Or.inl (ht.pending h task hold hlt))
    · rw [arm_armed_self]
      exact mem_timerAddInLoop.mpr (Or.inr ⟨hslot.symm, rfl⟩)
  · intro h hheld
    obtain ⟨p, hp, hmem⟩ := hheld
    rcases mem_timerAddInLoop.mp hmem with hold | ⟨_, rfl⟩
    · exact ht.held h ⟨p, hp, hold⟩
    · exact (ht.fresh _ (Nat.le_refl _)).2
  · intro h task htask hheld
    rcases getElem?_add_cases htask with hold | ⟨rfl, rfl⟩
    · have hheld' : ¬ s.wheel.Held h := fun ⟨p, hp, hmem⟩ =>
        hheld ⟨p, hp, mem_timerAddInLoop.mpr (Or.inl hmem)⟩
      rw [arm_armed_ne _ (hne hold)]
      exact ht.done h task hold hheld'
    · exact absurd ⟨_, Nat.mod_lt _ (Nat.zero_lt_succ _),
        mem_timerAddInLoop.mpr (Or.inr ⟨rfl, rfl⟩)⟩ hheld

theorem Timed.refresh (ht : Timed (s.now + 1) s) {id : Nat} (hid : s.wheel.timers id = some h)
    (htask : s.wheel.tasks[h]? = some task) :
    Timed (s.now + 1)
      ({ s with wheel := s.wheel.pushSlot ((s.wheel.tick + task.timeout) % capacity) h }.arm h) := by
  obtain ⟨hlo, hhi, _⟩ := ht.range h task htask
  have hslot := slot_of_tick (d := task.timeout) ht.tick_eq
  refine ⟨ht.inv.pushSlot (Nat.mod_lt _ (Nat.zero_lt_succ _)) hid, ht.tick_eq, ?_,
    ht.cancel_eq, ht.fresh, ?_, ?_, ?_, ?_⟩
  · intro h' task' htask'
    refine ⟨(ht.range h' task' htask').1, (ht.range h' task' htask').2.1, ?_⟩
    by_cases heq : h' = h
    · rw [heq, arm_armed_self]
      exact Nat.lt_succ_self _
    · rw [arm_armed_ne _ heq]
      exact (ht.range h' task' htask').2.2
  · intro p h' task' hmem htask'
    rcases mem_pushSlot.mp hmem with hold | ⟨rfl, rfl⟩
    · -- a pointer from before the refresh stays, and is now not the last one
      obtain ⟨t, h1, h2, h3, h4⟩ := ht.pointer p h' task' hold htask'
      exact ⟨t, h1, h2, Nat.le_trans h3 (Nat.add_le_add_right (ht.armed_le htask' h) _), h4⟩
    · rw [show task' = task from Option.some.inj (htask'.symm.trans htask), arm_armed_self]
      refine ⟨s.now + task.timeout, ?_, ?_, Nat.le_refl _, hslot.symm⟩ <;> omega
  · intro h' task' htask' hlt
    by_cases heq : h' = h
    · subst heq
      rw [show task' = task from Option.some.inj (htask'.symm.trans htask), arm_armed_self]
      exact mem_pushSlot.mpr (Or.inr ⟨hslot.symm, rfl⟩)
    · rw [arm_armed_ne _ heq] at hlt ⊢
      exact mem_pushSlot.mpr (Or.inl (ht.pending h' task' htask' hlt))
  · intro h' hheld
    obtain ⟨p, hp, hmem⟩ := hheld
    rcases mem_pushSlot.mp hmem with hold | ⟨_, rfl⟩
    · exact ht.held h' ⟨p, hp, hold⟩
    · exact ht.held h' (ht.inv.live id h' hid).1
  · intro h' task' htask' hheld
    have hheld' : ¬ s.wheel.Held h' := fun ⟨p, hp, hmem⟩ =>
      hheld ⟨p, hp, mem_pushSlot.mpr (Or.inl hmem)⟩
    have hne : h' ≠ h := fun heq => hheld' (heq ▸ (ht.inv.live id h hid).1)
    rw [arm_armed_ne _ hne]
    exact ht.done h' task' htask' hheld'

theorem mark_cancelled_self (s : Clock κ) (h : Handle) : (s.mark h).cancelled h = true :=
  if_pos rfl

theorem mark_cancelled_ne (s : Clock κ) (hne : h' ≠ h) :
    (s.mark h).cancelled h' = s.cancelled h' := if_neg hne

theorem Timed.cancel (ht : Timed (s.now + 1) s) {id : Nat} (hid : s.wheel.timers id = some h) :
    Timed (s.now + 1) ({ s with wheel := s.wheel.setCancel h }.mark h) := by
  have hheld := (ht.inv.live id h hid).1
  refine ⟨ht.inv.setCancel h, ht.tick_eq, ?_, ?_, ?_, ?_, ?_, ht.held, ?_⟩
  · intro h' task' htask'
    obtain ⟨task, htask, rfl⟩ := getElem?_setCancel_inv htask'
    exact ht.range h' task htask
  · intro h' task' htask'
    obtain ⟨task, htask, rfl⟩ := getElem?_setCancel_inv htask'
    have hcancel := ht.cancel_eq h' task htask
    by_cases heq : h' = h
    · rw [heq, mark_cancelled_self]
      simp
    · rw [mark_cancelled_ne _ heq]
      simp [Ne.symm heq, hcancel]
  · -- a handle that has not been given out is not the one that is marked
    intro h' hle
    have hle' : s.wheel.tasks.length ≤ h' := by
      simpa [setCancel, mark] using hle
    obtain ⟨p, _, hmem⟩ := hheld
    have hne : h' ≠ h := Nat.ne_of_gt (Nat.lt_of_lt_of_le (ht.inv.lt_length hmem) hle')
    refine ⟨?_, (ht.fresh h' hle').2⟩
    rw [mark_cancelled_ne _ hne]
    exact (ht.fresh h' hle').1
  · intro p h' task' hmem htask'
    obtain ⟨task, htask, rfl⟩ := getElem?_setCancel_inv htask'
    exact ht.pointer p h' task hmem htask
  · intro h' task' htask' hlt
    obtain ⟨task, htask, rfl⟩ := getElem?_setCancel_inv htask'
    exact ht.pending h' task htask hlt
  · intro h' task' htask' hheld'
    obtain ⟨task, htask, rfl⟩ := getElem?_setCancel_inv htask'
    have hne : h' ≠ h := fun heq => hheld' (heq ▸ hheld)
    rw [mark_cancelled_ne _ hne]
    exact ht.done h' task htask hheld'

/-! ### The tick -/

theorem runs_append_self (s : Clock κ) (w : TimerWheel κ) (t : Nat) (h : Handle) :
    ({ s with wheel := w, ran := s.ran ++ [(t, h)] } : Clock κ).runs h = s.runs h ++ [t] := by
  simp [runs]

theorem runs_append_ne (s : Clock κ) (w : TimerWheel κ) (t : Nat) (hne : h' ≠ h) :
    ({ s with wheel := w, ran := s.ran ++ [(t, h)] } : Clock κ).runs h' = s.runs h' := by
  simp [runs, Ne.symm hne]

theorem Timed.advance (ht : Timed (s.now + 1) s) :
    Timed (s.now + 1) { s with now := s.now + 1, wheel := s.wheel.advance } := by
  refine ⟨ht.inv.advance, ?_, ht.range, ht.cancel_eq, ht.fresh, ht.pointer, ?_, ht.held, ht.done⟩
  · show (s.wheel.tick + 1) % capacity = (s.now + 1) % capacity
    exact slot_of_tick ht.tick_eq
  · intro h task htask hlt
    exact ht.pending h task htask (Nat.lt_of_succ_lt hlt)

section

variable (ht : Timed s.now s)

include ht

theorem Timed.due_of_mem (hmem : h ∈ s.wheel.wheel s.wheel.tick)
    (htask : s.wheel.tasks[h]? = some task) : s.now ≤ s.armed h + task.timeout := by
  obtain ⟨t, hlo, _, hdue, _⟩ := ht.pointer _ h task hmem htask
  exact Nat.le_trans hlo hdue

theorem Timed.pending_slot_ne (htask : s.wheel.tasks[h]? = some task)
    (hlt : s.now < s.armed h + task.timeout) :
    (s.armed h + task.timeout) % capacity ≠ s.wheel.tick := by
  obtain ⟨_, hhi, harmed⟩ := ht.range h task htask
  rw [ht.tick_eq]
  unfold capacity at *
  omega

theorem Timed.pending_setSlot (rest : List Handle) (htask : s.wheel.tasks[h]? = some task)
    (hlt : s.now < s.armed h + task.timeout) :
    h ∈ (s.wheel.setSlot s.wheel.tick rest).wheel ((s.armed h + task.timeout) % capacity) := by
  rw [setSlot_wheel_ne _ _ (ht.pending_slot_ne htask hlt)]
  exact ht.pending h task htask hlt

theorem Timed.drop_held (hslot : s.wheel.wheel s.wheel.tick = h :: rest)
    (hheld : (s.wheel.setSlot s.wheel.tick rest).Held h) :
    Timed s.now { s with wheel := s.wheel.setSlot s.wheel.tick rest } := by
  refine ⟨ht.inv.drop_held hslot hheld, ht.tick_eq, ht.range, ht.cancel_eq, ht.fresh, ?_, ?_, ?_, ?_⟩
  · intro p h' task hmem htask
    exact ht.pointer p h' task (mem_setSlot_tail hslot hmem) htask
  · intro h' task htask hlt
    exact ht.pending_setSlot rest htask hlt
  · intro h' hheld'
    obtain ⟨p, hp, hmem⟩ := hheld'
    exact ht.held h' ⟨p, hp, mem_setSlot_tail hslot hmem⟩
  · intro h' task htask hheld'
    refine ht.done h' task htask (fun hold => hheld' ?_)
    by_cases heq : h' = h
    · rw [heq]
      exact hheld
    · exact held_setSlot_tail hslot heq hold

theorem Timed.drop_last (hslot : s.wheel.wheel s.wheel.tick = h :: rest)
    (htask : s.wheel.tasks[h]? = some task) (hheld : ¬ (s.wheel.setSlot s.wheel.tick rest).Held h) :
    Timed s.now { s with
      wheel := (s.wheel.setSlot s.wheel.tick rest).remove task.id
      ran := if task.cancel then s.ran else s.ran ++ [(s.now, h)] } := by
  have hmem : h ∈ s.wheel.wheel s.wheel.tick := by rw [hslot]; exact List.mem_cons_self
  have hwas : s.wheel.Held h := ⟨_, ht.inv.tick_lt, hmem⟩
  have hdue : s.armed h + task.timeout = s.now := by
    refine Nat.le_antisymm (Nat.le_of_not_lt fun hlt => hheld ?_) (ht.due_of_mem hmem htask)
    exact ⟨_, Nat.mod_lt _ (Nat.zero_lt_succ _), ht.pending_setSlot rest htask hlt⟩
  -- nothing else is written down in this step
  have hother : ∀ h', h' ≠ h → ({ s with
      wheel := (s.wheel.setSlot s.wheel.tick rest).remove task.id
      ran := if task.cancel then s.ran else s.ran ++ [(s.now, h)] } : Clock κ).runs h' =
      s.runs h' := by
    intro h' hne
    cases task.cancel with
    | true => rfl
    | false => exact runs_append_ne s _ _ hne
  refine ⟨ht.inv.drop_last hslot htask hheld, ht.tick_eq, ht.range, ht.cancel_eq, ?_, ?_, ?_, ?_, ?_⟩
  · intro h' hle
    have hne : h' ≠ h := Nat.ne_of_gt (Nat.lt_of_lt_of_le (ht.inv.lt_length hmem) hle)
    exact ⟨(ht.fresh h' hle).1, (hother h' hne).trans (ht.fresh h' hle).2⟩
  · intro p h' task' hmem' htask'
    exact ht.pointer p h' task' (mem_setSlot_tail hslot hmem') htask'
  · intro h' task' htask' hlt
    exact ht.pending_setSlot rest htask' hlt
  · intro h' hheld'
    have hne : h' ≠ h := fun heq => hheld (heq ▸ hheld')
    obtain ⟨p, hp, hmem'⟩ := hheld'
    exact (hother h' hne).trans (ht.held h' ⟨p, hp, mem_setSlot_tail hslot hmem'⟩)
  · intro h' task' htask' hheld'
    by_cases heq : h' = h
    · subst heq
      cases htask.symm.trans htask'
      show _ = if s.cancelled h' then [] else [s.armed h' + task.timeout]
      rw [← ht.cancel_eq h' task htask, hdue]
      cases task.cancel with
      | true => exact ht.held h' hwas
      | false =>
        have hrun := runs_append_self s ((s.wheel.setSlot s.wheel.tick rest).remove task.id) s.now h'
        rw [ht.held h' hwas] at hrun
        exact hrun
    · refine (hother h' heq).trans (ht.done h' task' htask' (fun hold => hheld' ?_))
      exact held_setSlot_tail hslot heq hold

theorem Timed.tick_done (hslot : s.wheel.wheel s.wheel.tick = []) : Timed (s.now + 1) s := by
  refine ⟨ht.inv, ht.tick_eq, ?_, ht.cancel_eq, ht.fresh, ?_, ht.pending, ht.held, ht.done⟩
  · intro h task htask
    obtain ⟨h1, h2, h3⟩ := ht.range h task htask
    exact ⟨h1, h2, Nat.lt_succ_of_lt h3⟩
  · intro p h task hmem htask
    obtain ⟨t, hlo, hhi, hdue, hp⟩ := ht.pointer p h task hmem htask
    refine ⟨t, Nat.succ_le_of_lt (Nat.lt_of_le_of_ne hlo ?_), by omega, hdue, hp⟩
    intro heq
    rw [← hp, ← heq, ← ht.tick_eq, hslot] at hmem
    cases hmem

end

structure Clearing (p : Nat) (rest : List Handle) (s : Clock κ) : Prop where
  timed : Timed s.now s
  tick_eq : s.wheel.tick = p
  slot : s.wheel.wheel p = rest

theorem Clearing.dropFront {p : Nat} (hc : Clearing p (h :: rest) s) :
    wp ((host κ).dropFront logRun p h rest) (fun _ s' => Clearing p rest s')
      (fun _ => False) s := by
  obtain ⟨ht, rfl, hslot⟩ := hc
  have hmem : h ∈ s.wheel.wheel s.wheel.tick := by rw [hslot]; exact List.mem_cons_self
  obtain ⟨task, htask, _⟩ := ht.inv.registered _ h hmem
  rw [Host.dropFront, wp_bind, wp_modify, wp_bind, wp_get, wp_whenever]
  refine ⟨?_, ?_⟩
  · intro hzero
    have hlast := ht.drop_last hslot htask (useCount_eq_zero.mp hzero)
    have htask' : ((host κ).wheelOf ((host κ).update (·.setSlot s.wheel.tick rest) s)).tasks[h]? =
        some task := htask
    rw [Host.destroy, wp_bind, wp_get]
    simp only [htask', wp_bind, wp_whenever, wp_modify, logRun]
    refine ⟨?_, ?_⟩
    · intro hcancel
      rw [hcancel] at hlast
      exact ⟨hlast, rfl, setSlot_wheel_self _ _ _⟩
    · intro hcancel
      rw [Bool.not_eq_false] at hcancel
      rw [hcancel] at hlast
      exact ⟨hlast, rfl, setSlot_wheel_self _ _ _⟩
  · intro hpos
    have hheld : (s.wheel.setSlot s.wheel.tick rest).Held h := by
      by_contra hnot
      exact hpos (useCount_eq_zero.mpr hnot)
    exact ⟨ht.drop_held hslot hheld, rfl, setSlot_wheel_self _ _ _⟩

theorem Timed.tick (ht : Timed (s.now + 1) s) :
    wp (exec .tick) (fun _ s' => Timed (s'.now + 1) s') (fun _ => False) s := by
  rw [exec, wp_bind, wp_modify, Host.runTimerTask, wp_bind, wp_modify, wp_bind, wp_get]
  refine wp_imp (Host.wp_clearSlot (fun rest s' => Clearing _ rest s') _
    (fun h rest s' hc => hc.dropFront) _ _ ⟨ht.advance, rfl, rfl⟩) ?_
  intro _ s' hc
  exact hc.timed.tick_done (hc.tick_eq ▸ hc.slot)

theorem exec_timed {op : WheelOp κ} (ht : Timed (s.now + 1) s) (hop : Allowed s op) :
    wp (exec op) (fun _ s' => Timed (s'.now + 1) s') (fun _ => False) s := by
  cases op with
  | add id d cb =>
    obtain ⟨hfree, hd, hd'⟩ := hop
    have hid : s.wheel.timers id = none := by
      simpa [hasTimer] using hfree
    rw [exec, wp_bind, wp_modify, wp_modify]
    have hnote : noteArmed id ((host κ).update (·.timerAddInLoop id d cb) s) =
        { s with wheel := s.wheel.timerAddInLoop id d cb }.arm s.wheel.tasks.length := by
      have : ((host κ).update (·.timerAddInLoop id d cb) s).wheel.timers id =
          some s.wheel.tasks.length := setTimer_timers_self _ _ _
      rw [noteArmed, this]
      rfl
    rw [hnote]
    exact ht.add cb hid hd hd'
  | refresh id =>
    rw [exec, wp_bind, Host.timerRefresh, wp_bind, wp_get]
    rcases ht.inv.refresh_spec id with ⟨hid, hspec⟩ | ⟨h, task, hid, htask, _, hspec⟩
    · have hw : ((host κ).wheelOf s).timerRefreshInLoop id = .ok s.wheel := hspec
      simp only [hw, wp_set, wp_modify]
      have hnote : noteArmed id ((host κ).setWheel s.wheel s) = s := by
        have : ((host κ).setWheel s.wheel s).wheel.timers id = none := hid
        rw [noteArmed, this]
        rfl
      rw [hnote]
      exact ht
    · have hw : ((host κ).wheelOf s).timerRefreshInLoop id =
          .ok (s.wheel.pushSlot ((s.wheel.tick + task.timeout) % capacity) h) :=
        hspec (ht.range h task htask).2.1
      simp only [hw, wp_set, wp_modify]
      have hnote : noteArmed id ((host κ).setWheel
          (s.wheel.pushSlot ((s.wheel.tick + task.timeout) % capacity) h) s) =
          { s with wheel := s.wheel.pushSlot ((s.wheel.tick + task.timeout) % capacity) h }.arm h := by
        have : ((host κ).setWheel (s.wheel.pushSlot ((s.wheel.tick + task.timeout) % capacity) h)
            s).wheel.timers id = some h := hid
        rw [noteArmed, this]
        rfl
      rw [hnote]
      exact ht.refresh hid htask
  | cancel id =>
    rw [exec, wp_bind, wp_modify, wp_modify]
    rcases ht.inv.cancel_spec id with ⟨hid, hspec⟩ | ⟨h, hid, hspec⟩
    · have hnote : (host κ).update (·.timerCancelInLoop id) (noteCancelled id s) = s := by
        rw [noteCancelled, hid]
        show { s with wheel := s.wheel.timerCancelInLoop id } = s
        rw [hspec]
      rw [hnote]
      exact ht
    · have hnote : (host κ).update (·.timerCancelInLoop id) (noteCancelled id s) =
          { s with wheel := s.wheel.setCancel h }.mark h := by
        rw [noteCancelled, hid]
        show { s.mark h with wheel := s.wheel.timerCancelInLoop id } = _
        rw [hspec]
        rfl
      rw [hnote]
      exact ht.cancel hid
  | tick => exact ht.tick

/-! ## On time -/

theorem reachable_timed (h : (runsOfWheel κ).Reachable s) : Timed (s.now + 1) s := by
  refine System.invariant (fun s => Timed (s.now + 1) s) ?_ ?_ s h
  · intro s hinit
    rw [show s = initial κ from hinit]
    exact initial_timed
  · intro s op s' ht hstep
    have ht' := wp_ok (exec_timed ht hstep.1) hstep.2
    exact ht'

theorem Timed.held_iff (ht : Timed (s.now + 1) s) (htask : s.wheel.tasks[h]? = some task) :
    s.wheel.Held h ↔ s.now < s.armed h + task.timeout := by
  refine ⟨?_, ?_⟩
  · intro ⟨p, _, hmem⟩
    obtain ⟨t, hlo, _, hdue, _⟩ := ht.pointer p h task hmem htask
    omega
  · intro hlt
    exact ⟨_, Nat.mod_lt _ (Nat.zero_lt_succ _), ht.pending h task htask hlt⟩

theorem Timed.timer_iff (ht : Timed (s.now + 1) s) (htask : s.wheel.tasks[h]? = some task) :
    s.wheel.timers task.id = some h ↔ s.now < s.armed h + task.timeout := by
  rw [← ht.held_iff htask]
  exact ⟨fun htimer => (ht.inv.live _ h htimer).1, fun hheld => ht.inv.timer_of_held hheld htask⟩

/-- **On time.** In every state a run reaches, for every task: before tick
    `n + d`, where `n` ticks had been executed at its add or latest refresh
    and `d` is its timeout, it is registered and its callback has not run;
    from that tick on it is not registered, and its callback has run once, in
    tick `n + d`, or never if the task was cancelled. `HasTimer(id)` says
    whether some task of the id is still waiting, and no call faults. -/
theorem fires_on_time (κ : Type) (s : Clock κ) (hs : (runsOfWheel κ).Reachable s) :
    (∀ h task, s.wheel.tasks[h]? = some task →
      (s.now < s.armed h + task.timeout → s.wheel.timers task.id = some h ∧ s.runs h = []) ∧
      (s.armed h + task.timeout ≤ s.now → s.wheel.timers task.id ≠ some h ∧
        s.runs h = if s.cancelled h then [] else [s.armed h + task.timeout])) ∧
    (∀ id, s.wheel.hasTimer id = true ↔
      ∃ h task, s.wheel.tasks[h]? = some task ∧ task.id = id ∧ s.now < s.armed h + task.timeout) ∧
    (∀ op, Allowed s op → ∃ s', (runsOfWheel κ).step s op s') := by
  have ht := reachable_timed hs
  refine ⟨?_, ?_, ?_⟩
  · intro h task htask
    refine ⟨?_, ?_⟩
    · intro hlt
      exact ⟨(ht.timer_iff htask).mpr hlt, ht.held h ((ht.held_iff htask).mpr hlt)⟩
    · intro hle
      have hnot := Nat.not_lt_of_le hle
      refine ⟨fun htimer => hnot ((ht.timer_iff htask).mp htimer), ?_⟩
      exact ht.done h task htask (fun hheld => hnot ((ht.held_iff htask).mp hheld))
  · intro id
    rw [TimerWheel.hasTimer, Option.isSome_iff_exists]
    refine ⟨?_, ?_⟩
    · intro ⟨h, hid⟩
      obtain ⟨task, htask, rfl⟩ := ht.inv.task hid
      exact ⟨h, task, htask, rfl, (ht.timer_iff htask).mp hid⟩
    · intro ⟨h, task, htask, hid, hlt⟩
      exact ⟨h, hid ▸ (ht.timer_iff htask).mpr hlt⟩
  · intro op hop
    obtain ⟨_, s', hexec, _⟩ := exists_of_wp (exec_timed ht hop)
    exact ⟨s', hop, hexec⟩

/-- A task of 2 s that is refreshed after one tick runs in tick 3. -/
theorem fires_on_time_refreshed : ∃ s : Clock Unit,
    (runsOfWheel Unit).Reachable s ∧ s.now = 3 ∧ s.armed 0 = 1 ∧ s.runs 0 = [3] := by
  have hrun : ∃ s : Clock Unit, (runsOfWheel Unit).Steps (initial Unit)
      [.add 7 2 (), .tick, .refresh 7, .tick, .tick] s ∧
      s.now = 3 ∧ s.armed 0 = 1 ∧ s.wheel.tasks[0]? = some ⟨7, 2, (), false⟩ ∧
      s.cancelled 0 = false := by
    refine ⟨_, .cons _ _ ⟨⟨rfl, by decide, by decide⟩, rfl⟩ (.cons _ _ ⟨trivial, rfl⟩
      (.cons _ _ ⟨trivial, rfl⟩ (.cons _ _ ⟨trivial, rfl⟩ (.cons _ _ ⟨trivial, rfl⟩ (.nil _))))),
      rfl, rfl, rfl, rfl⟩
  obtain ⟨s, hsteps, hnow, harmed, htask, hcancel⟩ := hrun
  have hs : (runsOfWheel Unit).Reachable s := ⟨_, _, rfl, hsteps⟩
  have hdone := ((fires_on_time Unit s hs).1 0 _ htask).2 (by rw [hnow, harmed]; decide)
  rw [hcancel, harmed] at hdone
  exact ⟨s, hs, hnow, harmed, hdone.2⟩

end Clock

end CallLesson.Reactor
