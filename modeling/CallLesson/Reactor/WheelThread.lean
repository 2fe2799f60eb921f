import CallLesson.Framework.System
import CallLesson.Reactor.TimerWheel

/-! # The wheel and its callbacks, step by step

    The callback of a task runs inside of `_wheel[_tick].clear()`, on the loop
    thread, and may itself call `TimerAdd`, `TimerRefresh` and `TimerCancel`:
    they run at once, in the middle of the tick. Here a run is cut where control
    passes between the wheel and its callers. -/

namespace CallLesson.Reactor

/-! ## Model -/

structure WheelThread (κ : Type) where
  wheel : TimerWheel κ
  /-- The pointers `clear` has still to drop, inside of a tick. -/
  clearing : Option (List Handle)
  /-- The task whose destructor waits for its callback. -/
  dying : Option Handle
  /-- The expiration counts the calls of `OnTime` have read. -/
  counts : List Nat
  /-- The number of ticks begun when the task was added. -/
  armed : Handle → Nat
  /-- The task has been refreshed or cancelled. -/
  touched : Handle → Bool
  /-- The callbacks run, each with the tick it ran in. -/
  ran : List (Nat × Handle)

inductive WheelStep (κ : Type) where
  | add (id timeout : Nat) (cb : κ)
  | refresh (id : Nat)
  | cancel (id : Nat)
  /-- `OnTime` has read the timer and moved `_tick`; `clear` is about to begin. -/
  | onTime (times : Nat)
  /-- `clear` drops a pointer; with the last one to a task its callback is called. -/
  | drop
  /-- The callback returns, and the destructor calls `_release`. -/
  | ret
  /-- `clear` returns. -/
  | done
  deriving DecidableEq

open TimerWheel Exec List

variable {h : Handle} {rest : List Handle}

namespace WheelThread

variable {κ : Type}

def initial (κ : Type) : WheelThread κ where
  wheel := TimerWheel.empty κ
  clearing := none
  dying := none
  counts := []
  armed := fun _ => 0
  touched := fun _ => false
  ran := []

def now (s : WheelThread κ) : Nat := s.counts.length

def runs (s : WheelThread κ) (h : Handle) : List Nat :=
  (s.ran.filter fun r => r.2 = h).map Prod.fst

def CanCall (s : WheelThread κ) : Prop := s.clearing = none ∨ s.dying.isSome

instance (s : WheelThread κ) : Decidable s.CanCall := inferInstanceAs (Decidable (_ ∨ _))

def Apart (s : WheelThread κ) (w : TimerWheel κ) : Prop :=
  s.clearing = none ∨ w.wheel s.wheel.tick = s.wheel.wheel s.wheel.tick

instance (s : WheelThread κ) (w : TimerWheel κ) : Decidable (s.Apart w) :=
  inferInstanceAs (Decidable (_ ∨ _))

def added (s : WheelThread κ) (id timeout : Nat) (cb : κ) : WheelThread κ :=
  { s with
    wheel := s.wheel.timerAddInLoop id timeout cb
    armed := fun h => if h = s.wheel.tasks.length then s.now else s.armed h }

def touch (s : WheelThread κ) (id : Nat) : WheelThread κ :=
  match (s.wheel.timers id).bind s.wheel.lock with
  | none => s
  | some pt => { s with touched := fun h => if h = pt then true else s.touched h }

def ticked (s : WheelThread κ) (times : Nat) : WheelThread κ :=
  { s with
    wheel := s.wheel.advance
    clearing := some (s.wheel.advance.wheel s.wheel.advance.tick)
    counts := s.counts ++ [times] }

def dropped (s : WheelThread κ) (rest : List Handle) : WheelThread κ :=
  { s with
    wheel := s.wheel.setSlot s.wheel.tick rest
    clearing := some rest }

def entered (s : WheelThread κ) (h : Handle) : WheelThread κ :=
  { s with
    dying := some h
    ran := s.ran ++ [(s.now, h)] }

def released (s : WheelThread κ) (id : Nat) : WheelThread κ :=
  { s with
    wheel := s.wheel.remove id
    dying := none }

def next (s : WheelThread κ) : WheelStep κ → Option (WheelThread κ)
  | .add id d cb =>
      if s.CanCall ∧ d < 2 ^ 32 ∧ s.Apart (s.wheel.timerAddInLoop id d cb) then
        some (s.added id d cb)
      else none
  | .refresh id =>
      match s.wheel.timerRefreshInLoop id with
      -- `DelayTime` on a null pointer, or a negative index
      | .error _ => none
      | .ok w => if s.CanCall ∧ s.Apart w then some { s.touch id with wheel := w } else none
  | .cancel id =>
      if s.CanCall then some { s.touch id with wheel := s.wheel.timerCancelInLoop id }
      else none
  | .onTime times => if s.clearing = none then some (s.ticked times) else none
  | .drop =>
      match s.clearing, s.dying with
      | some (h :: rest), none =>
          let s := s.dropped rest
          if s.wheel.useCount h = 0 then
            -- `~TimerTask`, up to the callback or, without one, to its end
            match s.wheel.tasks[h]? with
            | none => none
            | some task => if task.cancel then some (s.released task.id) else some (s.entered h)
          else some s
      | _, _ => none
  | .ret =>
      match s.dying with
      | none => none
      | some h =>
          match s.wheel.tasks[h]? with
          | none => none
          | some task => some (s.released task.id)
  | .done =>
      match s.clearing, s.dying with
      | some [], none => some { s with clearing := none }
      | _, _ => none

def system (κ : Type) : System (WheelThread κ) (WheelStep κ) :=
  System.ofNext (initial κ) next

/-! ## What each step does -/

def pushed (s : WheelThread κ) (p : Nat) (pt : Handle) : WheelThread κ :=
  { s with
    wheel := s.wheel.pushSlot p pt
    touched := fun h => if h = pt then true else s.touched h }

def marked (s : WheelThread κ) (pt : Handle) : WheelThread κ :=
  { s with
    wheel := s.wheel.setCancel pt
    touched := fun h => if h = pt then true else s.touched h }

def Clear (s : WheelThread κ) (p : Nat) : Prop := s.clearing = none ∨ p ≠ s.wheel.tick

inductive Moves (s : WheelThread κ) : WheelStep κ → WheelThread κ → Prop where
  | add (id d : Nat) (cb : κ) (hcall : s.CanCall) (hd : d < 2 ^ 32)
      (hclear : s.Clear ((s.wheel.tick + d) % 2 ^ 32 % capacity)) :
      Moves s (.add id d cb) (s.added id d cb)
  | refresh (id : Nat) (h p : Nat) (hcall : s.CanCall) (hid : s.wheel.timers id = some h)
      (hheld : s.wheel.Held h) (hp : p < capacity) (hclear : s.Clear p) :
      Moves s (.refresh id) (s.pushed p h)
  | refreshNone (id : Nat) (hid : s.wheel.timers id = none) : Moves s (.refresh id) s
  | cancel (id : Nat) (h : Handle) (hid : s.wheel.timers id = some h)
      (hheld : s.wheel.Held h) : Moves s (.cancel id) (s.marked h)
  | cancelNone (id : Nat) : Moves s (.cancel id) s
  | onTime (times : Nat) (hidle : s.clearing = none) : Moves s (.onTime times) (s.ticked times)
  | dropShared (h : Handle) (rest : List Handle) (hclearing : s.clearing = some (h :: rest))
      (hdying : s.dying = none) (hheld : (s.dropped rest).wheel.Held h) :
      Moves s .drop (s.dropped rest)
  | dropCancelled (h : Handle) (rest : List Handle) (task : TimerTask κ)
      (hclearing : s.clearing = some (h :: rest)) (hdying : s.dying = none)
      (hheld : ¬ (s.dropped rest).wheel.Held h) (htask : s.wheel.tasks[h]? = some task)
      (hcancel : task.cancel = true) :
      Moves s .drop ((s.dropped rest).released task.id)
  | dropLast (h : Handle) (rest : List Handle) (task : TimerTask κ)
      (hclearing : s.clearing = some (h :: rest)) (hdying : s.dying = none)
      (hheld : ¬ (s.dropped rest).wheel.Held h) (htask : s.wheel.tasks[h]? = some task)
      (hcancel : task.cancel = false) :
      Moves s .drop ((s.dropped rest).entered h)
  | ret (h : Handle) (task : TimerTask κ) (hdying : s.dying = some h)
      (htask : s.wheel.tasks[h]? = some task) : Moves s .ret (s.released task.id)
  | done (hclearing : s.clearing = some []) (hdying : s.dying = none) :
      Moves s .done { s with clearing := none }

variable {s s' : WheelThread κ} {task : TimerTask κ} {p id : Nat}

theorem clear_of_apart {w : TimerWheel κ} (hslot : w.wheel p = s.wheel.wheel p ++ [h])
    (hapart : s.Apart w) : s.Clear p := by
  rcases hapart with hidle | hsame
  · exact Or.inl hidle
  · right
    intro heq
    rw [heq, hsame] at hslot
    have hlen := congrArg length hslot
    rw [length_append, length_singleton] at hlen
    omega

theorem touch_of_some (hid : s.wheel.timers id = some h) (hheld : s.wheel.Held h) :
    s.touch id = { s with touched := fun i => if i = h then true else s.touched i } := by
  have hbind : (s.wheel.timers id).bind s.wheel.lock = some h := by
    rw [hid, Option.bind_some, lock_eq_some hheld]
  rw [touch, hbind]

theorem touch_of_none (hid : (s.wheel.timers id).bind s.wheel.lock = none) : s.touch id = s := by
  rw [touch, hid]

theorem touch_clearing (s : WheelThread κ) (id : Nat) : (s.touch id).clearing = s.clearing := by
  unfold touch
  split <;> rfl

theorem touch_dying (s : WheelThread κ) (id : Nat) : (s.touch id).dying = s.dying := by
  unfold touch
  split <;> rfl

theorem moves_of_next {l : WheelStep κ} (h : s.next l = some s') : s.Moves l s' := by
  cases l with
  | add id d cb =>
    simp only [next] at h
    split at h
    · next hguard =>
      cases h
      obtain ⟨hcall, hd, hapart⟩ := hguard
      exact .add id d cb hcall hd
        (clear_of_apart (pushSlot_wheel_self _ _ s.wheel.tasks.length) hapart)
    · cases h
  | refresh id =>
    simp only [next] at h
    split at h
    · cases h
    · next w hok =>
      split at h
      · next hguard =>
        cases h
        obtain ⟨hcall, hapart⟩ := hguard
        rcases refresh_cases hok with ⟨hid, rfl⟩ | ⟨pt, task, p, hid, hheld, _, hp, rfl⟩
        · rw [touch_of_none (by rw [hid, Option.bind_none])]
          exact .refreshNone id hid
        · rw [touch_of_some hid hheld]
          exact .refresh id pt p hcall hid hheld (refresh_slot_lt hp)
            (clear_of_apart (pushSlot_wheel_self _ _ pt) hapart)
      · cases h
  | cancel id =>
    simp only [next] at h
    split at h
    · cases h
      rcases s.wheel.cancel_cases id with ⟨hnone, hw⟩ | ⟨pt, hid, hheld, hw⟩
      · rw [touch_of_none hnone, hw]
        exact .cancelNone id
      · rw [touch_of_some hid hheld, hw]
        exact .cancel id pt hid hheld
    · cases h
  | onTime times =>
    simp only [next] at h
    split at h
    · next hidle =>
      cases h
      exact .onTime times hidle
    · cases h
  | drop =>
    simp only [next] at h
    split at h
    · next pt rest hclearing hdying =>
      split at h
      · next hzero =>
        have hheld := useCount_eq_zero.mp hzero
        split at h
        · cases h
        · next task htask =>
          split at h
          · next hcancel =>
            cases h
            exact .dropCancelled pt rest task hclearing hdying hheld htask hcancel
          · next hcancel =>
            cases h
            exact .dropLast pt rest task hclearing hdying hheld htask (by simpa using hcancel)
      · next hcount =>
        cases h
        refine .dropShared pt rest hclearing hdying ?_
        by_contra hheld
        exact hcount (useCount_eq_zero.mpr hheld)
    · cases h
  | ret =>
    simp only [next] at h
    split at h
    · cases h
    · next pt hdying =>
      split at h
      · cases h
      · next task htask =>
        cases h
        exact .ret pt task hdying htask
  | done =>
    simp only [next] at h
    split at h
    · next hclearing hdying =>
      cases h
      exact .done hclearing hdying
    · cases h

theorem next_add {d : Nat} (id : Nat) (cb : κ) (hcall : s.CanCall) (hd : d < 2 ^ 32)
    (hclear : s.Clear ((s.wheel.tick + d) % 2 ^ 32 % capacity)) :
    s.next (.add id d cb) = some (s.added id d cb) := by
  have hapart : s.Apart (s.wheel.timerAddInLoop id d cb) :=
    hclear.imp (fun hidle => hidle) fun hne => setSlot_wheel_ne _ _ (Ne.symm hne)
  simp only [next]
  rw [if_pos ⟨hcall, hd, hapart⟩]

/-! ## The wheel in the middle of a tick -/

structure Sound (s : WheelThread κ) : Prop where
  tick_eq : s.wheel.tick = s.now % capacity
  slot_lt : ∀ p h, h ∈ s.wheel.wheel p → p < capacity
  handle_lt : ∀ p h, h ∈ s.wheel.wheel p → h < s.wheel.tasks.length
  slot : ∀ rest, s.clearing = some rest → s.wheel.wheel s.wheel.tick = rest
  dying : ∀ h, s.dying = some h → s.clearing.isSome ∧ h < s.wheel.tasks.length ∧ ¬ s.wheel.Held h
  live : ∀ id h, s.wheel.timers id = some h → (s.wheel.Held h ∨ s.dying = some h) ∧
    ∃ task, s.wheel.tasks[h]? = some task ∧ task.id = id

theorem initial_sound : Sound (initial κ) where
  tick_eq := rfl
  slot_lt := fun _ _ hmem => (by cases hmem)
  handle_lt := fun _ _ hmem => (by cases hmem)
  slot := fun _ hrest => (by cases hrest)
  dying := fun _ hdying => (by cases hdying)
  live := fun _ _ hid => (by cases hid)

theorem Sound.held (hs : Sound s) (hmem : h ∈ s.wheel.wheel p) : s.wheel.Held h :=
  ⟨p, hs.slot_lt p h hmem, hmem⟩

theorem Sound.front (hs : Sound s) (hclearing : s.clearing = some (h :: rest)) :
    s.wheel.wheel s.wheel.tick = h :: rest ∧ s.wheel.Held h := by
  have hslot := hs.slot _ hclearing
  refine ⟨hslot, hs.held (p := s.wheel.tick) ?_⟩
  rw [hslot]
  exact mem_cons_self

theorem Sound.added (hs : Sound s) (id d : Nat) (cb : κ)
    (hclear : s.Clear ((s.wheel.tick + d) % 2 ^ 32 % capacity)) : Sound (s.added id d cb) where
  tick_eq := hs.tick_eq
  slot_lt := by
    intro q h hmem
    rcases mem_timerAddInLoop.mp hmem with hold | ⟨rfl, _⟩
    · exact hs.slot_lt q h hold
    · exact Nat.mod_lt _ (Nat.zero_lt_succ _)
  handle_lt := by
    intro q h hmem
    have hlen : (s.added id d cb).wheel.tasks.length = s.wheel.tasks.length + 1 :=
      length_append
    rw [hlen]
    rcases mem_timerAddInLoop.mp hmem with hold | ⟨_, rfl⟩
    · exact Nat.lt_succ_of_lt (hs.handle_lt q h hold)
    · exact Nat.lt_succ_self _
  slot := by
    -- the new pointer goes to another slot than the one that is being cleared
    intro rest hrest
    have hne := hclear.resolve_left (by rw [show s.clearing = some rest from hrest]; simp)
    exact (setSlot_wheel_ne _ _ (Ne.symm hne)).trans (hs.slot rest hrest)
  dying := by
    intro h hdying
    obtain ⟨hclearing, hlt, hheld⟩ := hs.dying h hdying
    refine ⟨hclearing, ?_, ?_⟩
    · exact Nat.lt_of_lt_of_le hlt (by simp [WheelThread.added])
    · intro hheld'
      obtain ⟨q, hq, hmem⟩ := hheld'
      rcases mem_timerAddInLoop.mp hmem with hold | ⟨_, rfl⟩
      · exact hheld ⟨q, hq, hold⟩
      · exact Nat.lt_irrefl _ hlt
  live := by
    intro i h hi
    have hi' := (timerAddInLoop_timers s.wheel id d cb i).symm.trans hi
    split at hi'
    · next heq =>
      cases hi'
      refine ⟨Or.inl ⟨_, Nat.mod_lt _ (Nat.zero_lt_succ _),
        mem_timerAddInLoop.mpr (Or.inr ⟨rfl, rfl⟩)⟩, ⟨id, d, cb, false⟩, ?_, heq.symm⟩
      simp [WheelThread.added]
    · obtain ⟨hlive, task, htask, htid⟩ := hs.live i h hi'
      refine ⟨?_, task, getElem?_add_of_some htask, htid⟩
      rcases hlive with ⟨q, hq, hmem⟩ | hdying
      · exact Or.inl ⟨q, hq, mem_timerAddInLoop.mpr (Or.inl hmem)⟩
      · exact Or.inr hdying

theorem Sound.pushed (hs : Sound s) {pt : Handle} (hheld : s.wheel.Held pt)
    (hp : p < capacity) (hclear : s.Clear p) :
    Sound (s.pushed p pt) where
  tick_eq := hs.tick_eq
  slot_lt := by
    intro q h hmem
    rcases mem_pushSlot.mp hmem with hold | ⟨rfl, _⟩
    · exact hs.slot_lt q h hold
    · exact hp
  handle_lt := by
    intro q h hmem
    rcases mem_pushSlot.mp hmem with hold | ⟨_, rfl⟩
    · exact hs.handle_lt q h hold
    · obtain ⟨q', _, hmem'⟩ := hheld
      exact hs.handle_lt q' _ hmem'
  slot := by
    intro rest hrest
    have hne := hclear.resolve_left (by rw [show s.clearing = some rest from hrest]; simp)
    exact (setSlot_wheel_ne _ _ (Ne.symm hne)).trans (hs.slot rest hrest)
  dying := by
    intro h hdying
    obtain ⟨hclearing, hlt, hnot⟩ := hs.dying h hdying
    refine ⟨hclearing, hlt, ?_⟩
    intro hheld'
    obtain ⟨q, hq, hmem⟩ := hheld'
    rcases mem_pushSlot.mp hmem with hold | ⟨_, rfl⟩
    · exact hnot ⟨q, hq, hold⟩
    · exact hnot hheld
  live := by
    intro i h hi
    obtain ⟨hlive, htask⟩ := hs.live i h hi
    refine ⟨?_, htask⟩
    rcases hlive with ⟨q, hq, hmem⟩ | hdying
    · exact Or.inl ⟨q, hq, mem_pushSlot.mpr (Or.inl hmem)⟩
    · exact Or.inr hdying

theorem Sound.marked (hs : Sound s) (pt : Handle) : Sound (s.marked pt) := by
  have hlen : (s.marked pt).wheel.tasks.length = s.wheel.tasks.length := length_modify _ _ _
  refine ⟨hs.tick_eq, hs.slot_lt, ?_, hs.slot, ?_, ?_⟩
  · intro p h hmem
    rw [hlen]
    exact hs.handle_lt p h hmem
  · intro h hdying
    rw [hlen]
    exact hs.dying h hdying
  · intro i h hi
    obtain ⟨hlive, task, htask, htid⟩ := hs.live i h hi
    exact ⟨hlive, _, getElem?_setCancel_some htask, htid⟩

theorem Sound.ticked (hs : Sound s) (times : Nat) (hidle : s.clearing = none) :
    Sound (s.ticked times) where
  tick_eq := by
    have hnow : (s.ticked times).now = s.now + 1 := length_append
    rw [hnow]
    change (s.wheel.tick + 1) % capacity = (s.now + 1) % capacity
    rw [hs.tick_eq]
    unfold capacity
    omega
  slot_lt := hs.slot_lt
  handle_lt := hs.handle_lt
  slot := fun rest hrest => Option.some.inj hrest
  dying := by
    intro h hdying
    have hsome := (hs.dying h hdying).1
    rw [hidle] at hsome
    cases hsome
  live := hs.live

theorem dropped_wheel_self (s : WheelThread κ) (rest : List Handle) :
    (s.dropped rest).wheel.wheel s.wheel.tick = rest :=
  setSlot_wheel_self _ _ _

theorem dropped_wheel_ne (s : WheelThread κ) (rest : List Handle)
    (hp : p ≠ s.wheel.tick) : (s.dropped rest).wheel.wheel p = s.wheel.wheel p :=
  setSlot_wheel_ne _ _ hp

theorem Sound.dropped (hs : Sound s) (hclearing : s.clearing = some (h :: rest))
    (hdying : s.dying = none) (hheld : (s.dropped rest).wheel.Held h) : Sound (s.dropped rest) := by
  have hslot := (hs.front hclearing).1
  refine ⟨hs.tick_eq, ?_, ?_, ?_, ?_, ?_⟩
  · intro q h' hmem
    exact hs.slot_lt q h' (mem_setSlot_tail hslot hmem)
  · intro q h' hmem
    exact hs.handle_lt q h' (mem_setSlot_tail hslot hmem)
  · intro rest' hrest
    cases hrest
    exact dropped_wheel_self s rest
  · intro h' hdying'
    rw [show s.dying = some h' from hdying'] at hdying
    cases hdying
  · intro i h' hi
    obtain ⟨hlive, htask⟩ := hs.live i h' hi
    refine ⟨Or.inl ?_, htask⟩
    have hheld' := hlive.resolve_right (by rw [hdying]; simp)
    by_cases hne : h' = h
    · rwa [hne]
    · exact held_setSlot_tail hslot hne hheld'

theorem Sound.entered (hs : Sound s) (hclearing : s.clearing = some (h :: rest))
    (hdying : s.dying = none) (hheld : ¬ (s.dropped rest).wheel.Held h) :
    Sound ((s.dropped rest).entered h) := by
  obtain ⟨hslot, p, _, hmem⟩ := hs.front hclearing
  refine ⟨hs.tick_eq, ?_, ?_, ?_, ?_, ?_⟩
  · intro q h' hmem
    exact hs.slot_lt q h' (mem_setSlot_tail hslot hmem)
  · intro q h' hmem
    exact hs.handle_lt q h' (mem_setSlot_tail hslot hmem)
  · intro rest' hrest
    cases hrest
    exact dropped_wheel_self s rest
  · intro h' hdying'
    cases hdying'
    exact ⟨rfl, hs.handle_lt p h hmem, hheld⟩
  · intro i h' hi
    obtain ⟨hlive, htask⟩ := hs.live i h' hi
    refine ⟨?_, htask⟩
    have hheld' := hlive.resolve_right (by rw [hdying]; simp)
    by_cases hne : h' = h
    · exact Or.inr (congrArg some hne.symm)
    · exact Or.inl (held_setSlot_tail hslot hne hheld')

theorem Sound.released (hs : Sound s) (hdying : s.dying = some h)
    (htask : s.wheel.tasks[h]? = some task) : Sound (s.released task.id) := by
  refine ⟨hs.tick_eq, hs.slot_lt, hs.handle_lt, hs.slot, ?_, ?_⟩
  · intro h' hdying'
    cases hdying'
  · intro i h' hi
    by_cases heq : i = task.id
    · subst heq
      have hnone := (setTimer_timers_self s.wheel task.id none).symm.trans hi
      cases hnone
    · have hi' := (setTimer_timers_ne s.wheel none heq).symm.trans hi
      obtain ⟨hlive, task', htask', htid⟩ := hs.live i h' hi'
      refine ⟨Or.inl (hlive.resolve_right ?_), task', htask', htid⟩
      -- the dying task is registered under its own id only, whose entry is gone
      intro hdying'
      rw [hdying] at hdying'
      cases hdying'
      rw [htask] at htask'
      cases htask'
      exact heq htid.symm

theorem Moves.sound {l : WheelStep κ} (hs : Sound s) (hm : s.Moves l s') : Sound s' := by
  cases hm with
  | add id d cb hcall hd hclear => exact hs.added id d cb hclear
  | refresh id h p hcall hid hheld hp hclear => exact hs.pushed hheld hp hclear
  | refreshNone id hid => exact hs
  | cancel id h hid hheld => exact hs.marked h
  | cancelNone id => exact hs
  | onTime times hidle => exact hs.ticked times hidle
  | dropShared h rest hclearing hdying hheld => exact hs.dropped hclearing hdying hheld
  | dropCancelled h rest task hclearing hdying hheld htask hcancel =>
    -- the destructor without the callback
    have hrel := (hs.entered hclearing hdying hheld).released rfl htask
    exact ⟨hrel.tick_eq, hrel.slot_lt, hrel.handle_lt, hrel.slot, hrel.dying, hrel.live⟩
  | dropLast h rest task hclearing hdying hheld htask hcancel =>
    exact hs.entered hclearing hdying hheld
  | ret h task hdying htask => exact hs.released hdying htask
  | done hclearing hdying =>
    refine ⟨hs.tick_eq, hs.slot_lt, hs.handle_lt, fun rest hrest => (by cases hrest), ?_, hs.live⟩
    intro h hdying'
    rw [show s.dying = some h from hdying'] at hdying
    cases hdying

theorem steps_sound {ls : List (WheelStep κ)} (hrun : (system κ).Steps s ls s') (hs : Sound s) :
    Sound s' :=
  hrun.preserves Sound (fun _ _ _ hsound hstep => (moves_of_next hstep).sound hsound) hs

theorem reachable_sound (hs : (system κ).Reachable s) : Sound s := by
  obtain ⟨s0, ls, hinit, hrun⟩ := hs
  subst hinit
  exact steps_sound hrun initial_sound

theorem Sound.dying_none (hs : Sound s) (hidle : s.clearing = none) : s.dying = none := by
  cases hdying : s.dying with
  | none => rfl
  | some h =>
    have hsome := (hs.dying h hdying).1
    rw [hidle] at hsome
    cases hsome

/-! ## The wheel always gets to the end of its tick -/

structure Settles (s s' : WheelThread κ) : Prop where
  idle : s'.clearing = none
  counts_eq : s'.counts = s.counts
  armed_eq : s'.armed = s.armed
  touched_eq : s'.touched = s.touched
  tasks_eq : s'.wheel.tasks = s.wheel.tasks

theorem Settles.of_step {s1 : WheelThread κ} (h : Settles s1 s') (hcounts : s1.counts = s.counts)
    (harmed : s1.armed = s.armed) (htouched : s1.touched = s.touched)
    (htasks : s1.wheel.tasks = s.wheel.tasks) : Settles s s' :=
  ⟨h.idle, h.counts_eq.trans hcounts, h.armed_eq.trans harmed, h.touched_eq.trans htouched,
    h.tasks_eq.trans htasks⟩

section drop

variable {s : WheelThread κ} {h : Handle} {rest : List Handle} {task : TimerTask κ}
  (hclearing : s.clearing = some (h :: rest)) (hdying : s.dying = none)

include hclearing hdying

theorem next_drop_shared (hheld : (s.dropped rest).wheel.Held h) :
    s.next .drop = some (s.dropped rest) := by
  simp only [next, hclearing, hdying]
  rw [if_neg fun hzero => useCount_eq_zero.mp hzero hheld]

theorem next_drop_cancelled (hheld : ¬ (s.dropped rest).wheel.Held h)
    (htask : (s.dropped rest).wheel.tasks[h]? = some task) (hcancel : task.cancel = true) :
    s.next .drop = some ((s.dropped rest).released task.id) := by
  have hzero := useCount_eq_zero.mpr hheld
  simp only [next, hclearing, hdying, hzero, htask, hcancel, if_true]

theorem next_drop_last (hheld : ¬ (s.dropped rest).wheel.Held h)
    (htask : (s.dropped rest).wheel.tasks[h]? = some task) (hcancel : task.cancel = false) :
    s.next .drop = some ((s.dropped rest).entered h) := by
  have hzero := useCount_eq_zero.mpr hheld
  simp only [next, hclearing, hdying, hzero, htask, hcancel, if_true, if_false, Bool.false_eq_true]

end drop

theorem next_ret (hdying : s.dying = some h) (htask : s.wheel.tasks[h]? = some task) :
    s.next .ret = some (s.released task.id) := by
  simp only [next, hdying, htask]

theorem Sound.clear_ends : ∀ (rest : List Handle) {s : WheelThread κ}, Sound s →
    s.clearing = some rest → s.dying = none → ∃ ls s', (system κ).Steps s ls s' ∧ Settles s s' := by
  intro rest
  induction rest with
  | nil =>
    intro s hs hclearing hdying
    have hstep : s.next .done = some { s with clearing := none } := by
      simp only [next, hclearing, hdying]
    exact ⟨[.done], _, .cons _ _ hstep (.nil _), ⟨rfl, rfl, rfl, rfl, rfl⟩⟩
  | cons h rest ih =>
    intro s hs hclearing hdying
    obtain ⟨_, p, _, hmem⟩ := hs.front hclearing
    obtain ⟨task, htask⟩ : ∃ task, (s.dropped rest).wheel.tasks[h]? = some task :=
      ⟨_, getElem?_eq_getElem (hs.handle_lt p h hmem)⟩
    by_cases hheld : (s.dropped rest).wheel.Held h
    · -- other slots hold the task
      have hstep := next_drop_shared hclearing hdying hheld
      obtain ⟨ls, s', hrun, hend⟩ := ih (hs.dropped hclearing hdying hheld) rfl hdying
      exact ⟨.drop :: ls, s', .cons _ _ hstep hrun, hend.of_step rfl rfl rfl rfl⟩
    · cases hcancel : task.cancel with
      | true =>
        have hstep := next_drop_cancelled hclearing hdying hheld htask hcancel
        have hs1 : Sound ((s.dropped rest).released task.id) := (moves_of_next hstep).sound hs
        obtain ⟨ls, s', hrun, hend⟩ := ih hs1 rfl rfl
        exact ⟨.drop :: ls, s', .cons _ _ hstep hrun, hend.of_step rfl rfl rfl rfl⟩
      | false =>
        -- the callback is called and returns at once
        have hstep := next_drop_last hclearing hdying hheld htask hcancel
        have hret : ((s.dropped rest).entered h).next .ret = _ := next_ret rfl htask
        have hs1 := (hs.entered hclearing hdying hheld).released rfl htask
        obtain ⟨ls, s', hrun, hend⟩ := ih hs1 rfl rfl
        exact ⟨.drop :: .ret :: ls, s', .cons _ _ hstep (.cons _ _ hret hrun),
          hend.of_step rfl rfl rfl rfl⟩

theorem Sound.settles (hs : Sound s) (hcall : s.CanCall) :
    ∃ ls s', (system κ).Steps s ls s' ∧ Settles s s' := by
  cases hclearing : s.clearing with
  | none => exact ⟨[], s, .nil s, ⟨hclearing, rfl, rfl, rfl, rfl⟩⟩
  | some rest =>
    obtain ⟨h, hdying⟩ := Option.isSome_iff_exists.mp (hcall.resolve_left (by simp [hclearing]))
    have htask := getElem?_eq_getElem (hs.dying h hdying).2.1
    obtain ⟨ls, s', hrun, hend⟩ :=
      Sound.clear_ends rest (hs.released hdying htask) hclearing rfl
    exact ⟨.ret :: ls, s', .cons _ _ (next_ret hdying htask) hrun, hend.of_step rfl rfl rfl rfl⟩

theorem Sound.ticks (cs : List Nat) : ∀ {s : WheelThread κ}, Sound s → s.clearing = none →
    ∃ ls s', (system κ).Steps s ls s' ∧ s'.clearing = none ∧ s'.counts = s.counts ++ cs ∧
      s'.armed = s.armed ∧ s'.touched = s.touched ∧ s'.wheel.tasks = s.wheel.tasks := by
  induction cs with
  | nil =>
    intro s hs hidle
    exact ⟨[], s, .nil s, hidle, (append_nil _).symm, rfl, rfl, rfl⟩
  | cons c cs ih =>
    intro s hs hidle
    have hstep : s.next (.onTime c) = some (s.ticked c) := by
      simp only [next, hidle, if_true]
    have hs1 := hs.ticked c hidle
    obtain ⟨ls1, s1, hrun1, hend⟩ := Sound.clear_ends _ hs1 rfl (hs.dying_none hidle)
    obtain ⟨ls2, s2, hrun2, hidle2, hcounts, harmed, htouched, htasks⟩ :=
      ih (steps_sound hrun1 hs1) hend.idle
    refine ⟨.onTime c :: (ls1 ++ ls2), s2, .cons _ _ hstep (hrun1.append hrun2), hidle2, ?_,
      harmed.trans hend.armed_eq, htouched.trans hend.touched_eq, htasks.trans hend.tasks_eq⟩
    rw [hcounts, hend.counts_eq, append_cons]
    rfl

/-! ## A tick of the code is a run of steps

    `RunTimerTask` of the wheel inside a program, with callbacks that are code of
    that program, passes through the states of this file. What the callbacks may
    do is subject to a condition `P` on the tasks there are in the end. -/

section simulation

variable {σ : Type} {H : Host σ κ} {runCb : Handle → TimerTask κ → EStateM Fault σ Unit}
  {P : List (TimerTask κ) → Prop} {t : WheelThread κ} {p : Nat}

structure InTick (H : Host σ κ) (t : WheelThread κ) (p : Nat) (dying : Option Handle)
    (rest : List Handle) (s : σ) (ls : List (WheelStep κ)) (t' : WheelThread κ) : Prop where
  run : (system κ).Steps t ls t'
  wheel_eq : t'.wheel = H.wheelOf s
  tick_eq : t'.wheel.tick = p
  clearing_eq : t'.clearing = some rest
  dying_eq : t'.dying = dying

def Reaches (H : Host σ κ) (P : List (TimerTask κ) → Prop) (t : WheelThread κ) (p : Nat)
    (dying : Option Handle) (rest : List Handle) (s : σ) : Prop :=
  P (H.wheelOf s).tasks → ∃ ls t', InTick H t p dying rest s ls t'

def CallsOnly (H : Host σ κ) (runCb : Handle → TimerTask κ → EStateM Fault σ Unit)
    (P : List (TimerTask κ) → Prop) (t : WheelThread κ) (p : Nat) : Prop :=
  ∀ h task rest s, (H.wheelOf s).tasks[h]? = some task → Reaches H P t p (some h) rest s →
    wp (runCb h task) (fun _ s' => Reaches H P t p (some h) rest s' ∧
      ∃ task', (H.wheelOf s').tasks[h]? = some task' ∧ task'.id = task.id) (fun _ => True) s

theorem wheelOf_update (f : TimerWheel κ → TimerWheel κ) (s : σ) :
    H.wheelOf (H.update f s) = f (H.wheelOf s) :=
  H.wheelOf_setWheel _ _

theorem Reaches.ret {s : σ} (hreach : Reaches H P t p (some h) rest s)
    (htask : (H.wheelOf s).tasks[h]? = some task) :
    Reaches H P t p none rest (H.update (·.remove task.id) s) := by
  intro hP
  rw [wheelOf_update] at hP
  obtain ⟨ls, t', hin⟩ := hreach hP
  have hret : t'.next .ret = some (t'.released task.id) :=
    next_ret hin.dying_eq (by rw [hin.wheel_eq, htask])
  refine ⟨_, _, hin.run.append (.cons _ _ hret (.nil _)), ?_, hin.tick_eq, hin.clearing_eq, rfl⟩
  rw [wheelOf_update, ← hin.wheel_eq]
  rfl

theorem Reaches.dropFront {s : σ} (hcb : CallsOnly H runCb P t p)
    (hreach : Reaches H P t p none (h :: rest) s) :
    wp (H.dropFront runCb p h rest) (fun _ s' => Reaches H P t p none rest s')
      (fun _ => True) s := by
  have hwheel : H.wheelOf (H.update (·.setSlot p rest) s) = (H.wheelOf s).setSlot p rest :=
    wheelOf_update _ s
  have hdropped : ∀ {ls t'}, InTick H t p none (h :: rest) s ls t' →
      (t'.dropped rest).wheel = H.wheelOf (H.update (·.setSlot p rest) s) := by
    intro ls t' hin
    rw [hwheel, ← hin.wheel_eq, ← hin.tick_eq]
    rfl
  rw [Host.dropFront, wp_bind, wp_modify, wp_bind, wp_get, wp_whenever, useCount_eq_zero]
  generalize H.update (·.setSlot p rest) s = s1 at hwheel hdropped ⊢
  have htasks : (H.wheelOf s1).tasks = (H.wheelOf s).tasks := by
    rw [hwheel]
    rfl
  constructor
  · intro hheld
    rw [Host.destroy, wp_bind, wp_get]
    cases htask : (H.wheelOf s1).tasks[h]? with
    | none =>
      rw [wp_throw]
      trivial
    | some task =>
      dsimp only
      rw [wp_bind, wp_whenever]
      constructor
      · -- `drop` enters the callback, and `ret` follows when it is back
        intro hcancel
        have hentered : Reaches H P t p (some h) rest s1 := by
          intro hP
          rw [htasks] at hP
          obtain ⟨ls, t', hin⟩ := hreach hP
          have hstep := next_drop_last hin.clearing_eq hin.dying_eq (hdropped hin ▸ hheld)
            (by rw [hdropped hin, htask]) hcancel
          exact ⟨_, _, hin.run.append (.cons _ _ hstep (.nil _)), hdropped hin, hin.tick_eq, rfl,
            rfl⟩
        refine wp_mono (hcb h task rest s1 htask hentered) ?_ (fun _ h' => h')
        intro _ s' hafter
        obtain ⟨hreach', task', htask', hid⟩ := hafter
        rw [wp_modify, ← hid]
        exact hreach'.ret htask'
      · -- a cancelled task: `drop` is the whole destructor
        intro hcancel
        rw [wp_modify]
        intro hP
        rw [wheelOf_update] at hP
        obtain ⟨ls, t', hin⟩ := hreach (htasks ▸ hP)
        have hstep := next_drop_cancelled hin.clearing_eq hin.dying_eq (hdropped hin ▸ hheld)
          (by rw [hdropped hin, htask]) (by simpa using hcancel)
        refine ⟨_, _, hin.run.append (.cons _ _ hstep (.nil _)), ?_, hin.tick_eq, rfl, rfl⟩
        rw [wheelOf_update, ← hdropped hin]
        rfl
  · intro hheld hP
    obtain ⟨ls, t', hin⟩ := hreach (htasks ▸ hP)
    have hstep := next_drop_shared hin.clearing_eq hin.dying_eq (hdropped hin ▸ not_not.mp hheld)
    exact ⟨_, _, hin.run.append (.cons _ _ hstep (.nil _)), hdropped hin, hin.tick_eq, rfl,
      hin.dying_eq⟩

theorem runTimerTask_steps {s : σ} (times : Nat) (hidle : t.clearing = none)
    (hdying : t.dying = none) (hwheel : t.wheel = H.wheelOf s)
    (hcb : CallsOnly H runCb P (t.ticked times) t.wheel.advance.tick) :
    wp (H.runTimerTask runCb)
      (fun _ s' => P (H.wheelOf s').tasks →
        ∃ ls t', (system κ).Steps t (.onTime times :: ls) t' ∧ t'.wheel = H.wheelOf s' ∧
          t'.wheel.tick = t.wheel.advance.tick ∧ t'.clearing = none ∧ t'.dying = none)
      (fun _ => True) s := by
  have hadvance : H.wheelOf (H.update (·.advance) s) = t.wheel.advance := by
    rw [wheelOf_update, hwheel]
  have hstep : t.next (.onTime times) = some (t.ticked times) := by
    simp only [next, hidle, if_true]
  rw [Host.runTimerTask, wp_bind, wp_modify, wp_bind, wp_get, hadvance]
  have hclear := Host.wp_clearSlot
    (Reaches H P (t.ticked times) t.wheel.advance.tick none) (fun _ => True)
    (fun h rest s' hreach => Reaches.dropFront hcb hreach)
    (t.wheel.advance.wheel t.wheel.advance.tick) (H.update (·.advance) s)
    (fun _ => ⟨[], t.ticked times, .nil _, hadvance.symm, rfl, rfl, hdying⟩)
  refine wp_mono hclear ?_ (fun _ h' => h')
  intro _ s' hreach hP
  obtain ⟨ls, t', hin⟩ := hreach hP
  have hdone : t'.next .done = some { t' with clearing := none } := by
    simp only [next, hin.clearing_eq, hin.dying_eq]
  have hend : (system κ).Steps t' [.done] { t' with clearing := none } := .cons _ _ hdone (.nil _)
  exact ⟨ls ++ [.done], { t' with clearing := none }, .cons _ _ hstep (hin.run.append hend),
    hin.wheel_eq, hin.tick_eq, rfl, hin.dying_eq⟩

end simulation

end WheelThread

end CallLesson.Reactor
