import CallLesson.Reactor.WheelThread
import CallLesson.Reactor.Connection

/-! # What is registered

    `_timers` refers to tasks by weak pointers, an add overwrites the entry of its
    id, and the destructor of a task erases the entry of its id, after the
    callback, whatever task it refers to by then. So two things can go wrong around
    a destructor: the entry of a newer task is erased, and while the callback runs
    the entry refers to a task that is already gone. -/

namespace CallLesson.Reactor

open TimerWheel

namespace WheelThread

variable {κ : Type}

/-! ## Live timers are registered -/

def Alive (s : WheelThread κ) (h : Handle) : Prop := s.wheel.Held h ∨ s.dying = some h

def Registered (s : WheelThread κ) : Prop :=
  ∀ h, s.Alive h → ∃ task, s.wheel.tasks[h]? = some task ∧ s.wheel.timers task.id = some h

def AddsUnregistered (s : WheelThread κ) : WheelStep κ → Prop
  | .add id _ _ => s.wheel.hasTimer id = false
  | _ => True

instance (s : WheelThread κ) : ∀ l, Decidable (s.AddsUnregistered l)
  | .add _ _ _ => inferInstanceAs (Decidable (_ = _))
  | .refresh _ => inferInstanceAs (Decidable True)
  | .cancel _ => inferInstanceAs (Decidable True)
  | .onTime _ => inferInstanceAs (Decidable True)
  | .drop => inferInstanceAs (Decidable True)
  | .ret => inferInstanceAs (Decidable True)
  | .done => inferInstanceAs (Decidable True)

variable {s : WheelThread κ}

theorem Registered.added (hr : Registered s) (id d : Nat) (cb : κ)
    (hid : s.wheel.hasTimer id = false) : Registered (s.added id d cb) := by
  have hnone : s.wheel.timers id = none := by simpa [hasTimer] using hid
  have hold : ∀ h, s.Alive h → ∃ task, (s.added id d cb).wheel.tasks[h]? = some task ∧
      (s.added id d cb).wheel.timers task.id = some h := by
    intro h halive
    obtain ⟨task, htask, htimer⟩ := hr h halive
    refine ⟨task, getElem?_add_of_some htask, ?_⟩
    -- the id has no entry, so it is not the id of a task that is alive
    have hne : task.id ≠ id := by
      intro heq
      rw [heq, hnone] at htimer
      cases htimer
    exact (if_neg hne).trans htimer
  intro h halive
  rcases halive with ⟨q, hq, hmem⟩ | hdying
  · rcases mem_timerAddInLoop.mp hmem with hmem' | ⟨_, rfl⟩
    · exact hold h (Or.inl ⟨q, hq, hmem'⟩)
    · exact ⟨⟨id, d, cb, false⟩, by simp [WheelThread.added], if_pos rfl⟩
  · exact hold h (Or.inr hdying)

theorem Registered.released {s' : WheelThread κ} {h : Handle} {task : TimerTask κ}
    (hr : Registered s) (halive : s.Alive h) (htask : s.wheel.tasks[h]? = some task)
    (htasks : s'.wheel.tasks = s.wheel.tasks) (htimers : s'.wheel.timers = s.wheel.timers)
    (hheld : ∀ h', s'.wheel.Held h' → h' ≠ h ∧ s.Alive h') : Registered (s'.released task.id) := by
  intro h' halive'
  obtain ⟨hne, hold⟩ := hheld h' (halive'.resolve_right fun hdying => (by cases hdying))
  obtain ⟨task', htask', htimer'⟩ := hr h' hold
  obtain ⟨task1, htask1, htimer⟩ := hr h halive
  rw [htask] at htask1
  cases htask1
  refine ⟨task', htasks ▸ htask', ?_⟩
  -- both would be registered under the one id
  have hid : task'.id ≠ task.id := by
    intro heq
    rw [heq, htimer] at htimer'
    cases htimer'
    exact hne rfl
  have hkeep : (s'.released task.id).wheel.timers task'.id = s'.wheel.timers task'.id :=
    setTimer_timers_ne _ _ hid
  rw [hkeep, htimers]
  exact htimer'

theorem held_of_dropped (hs : Sound s) {h h' : Handle} {rest : List Handle}
    (hclearing : s.clearing = some (h :: rest)) (hheld : (s.dropped rest).wheel.Held h') :
    s.wheel.Held h' := by
  obtain ⟨q, hq, hmem⟩ := hheld
  exact ⟨q, hq, mem_setSlot_tail (hs.front hclearing).1 hmem⟩

theorem Moves.registered {s' : WheelThread κ} {l : WheelStep κ} (hs : Sound s) (hr : Registered s)
    (hadd : s.AddsUnregistered l) (hm : s.Moves l s') : Registered s' := by
  cases hm with
  | add id d cb hcall hd hclear => exact hr.added id d cb hadd
  | refresh id pt p hcall hid hheld hp hclear =>
    intro h halive
    apply hr h
    rcases halive with ⟨q, hq, hmem⟩ | hdying
    · rcases mem_pushSlot.mp hmem with hold | ⟨_, rfl⟩
      · exact Or.inl ⟨q, hq, hold⟩
      · exact Or.inl hheld
    · exact Or.inr hdying
  | refreshNone id hid => exact hr
  | cancel id pt hid hheld =>
    intro h halive
    obtain ⟨task, htask, htimer⟩ := hr h halive
    exact ⟨_, getElem?_setCancel_some htask, htimer⟩
  | cancelNone id => exact hr
  | onTime times hidle => exact hr
  | dropShared h rest hclearing hdying hheld =>
    intro h' halive
    exact hr h' (halive.imp (held_of_dropped hs hclearing) fun hdying' => hdying')
  | dropCancelled h rest task hclearing hdying hheld htask hcancel =>
    refine hr.released (Or.inl (hs.front hclearing).2) htask rfl rfl ?_
    intro h' hheld'
    refine ⟨?_, Or.inl (held_of_dropped hs hclearing hheld')⟩
    intro heq
    exact hheld (heq ▸ hheld')
  | dropLast h rest task hclearing hdying hheld htask hcancel =>
    intro h' halive
    rcases halive with hheld' | hdying'
    · exact hr h' (Or.inl (held_of_dropped hs hclearing hheld'))
    · cases hdying'
      exact hr h (Or.inl (hs.front hclearing).2)
  | ret h task hdying htask =>
    -- until now the dying task was the one registered under its id
    refine hr.released (Or.inr hdying) htask rfl rfl ?_
    intro h' hheld'
    refine ⟨?_, Or.inl hheld'⟩
    intro heq
    exact (hs.dying h hdying).2.2 (heq ▸ hheld')
  | done hclearing hdying => exact hr

theorem reachable_registered (hs : ((system κ).restrict AddsUnregistered).Reachable s) :
    Sound s ∧ Registered s := by
  refine System.invariant (fun s => Sound s ∧ Registered s) ?_ ?_ s hs
  · intro s0 hinit
    rw [show s0 = initial κ from hinit]
    refine ⟨initial_sound, ?_⟩
    intro h halive
    rcases halive with ⟨q, hq, hmem⟩ | hdying
    · cases hmem
    · cases hdying
  · intro s l s' hinv hstep
    have hm := moves_of_next hstep.2
    exact ⟨hm.sound hinv.1, hm.registered hinv.1 hinv.2 hstep.1⟩

/-- **Live timers are addressable if only unregistered ids are added.** In every
    run in which each `TimerAdd`, from outside of the wheel or from a callback, is
    called with an id that has no entry: with control outside of the wheel, a task
    that is held and not cancelled and is the latest of its id is the one the id
    refers to, so that `HasTimer` finds it and `TimerRefresh` and `TimerCancel` act
    on it. -/
theorem latest_is_registered (s : WheelThread κ)
    (hs : ((system κ).restrict AddsUnregistered).Reachable s) (_hidle : s.clearing = none)
    (h : Handle) (task : TimerTask κ) (htask : s.wheel.tasks[h]? = some task)
    (hheld : s.wheel.Held h) (_hcancel : task.cancel = false)
    (_hlatest : ∀ h' task', h < h' → s.wheel.tasks[h']? = some task' → task'.id ≠ task.id) :
    s.wheel.timers task.id = some h ∧ s.wheel.hasTimer task.id = true ∧
      (∀ w, s.wheel.timerRefreshInLoop task.id = .ok w → ∃ p, w = s.wheel.pushSlot p h) ∧
      s.wheel.timerCancelInLoop task.id = s.wheel.setCancel h := by
  obtain ⟨task', htask', htimer⟩ := (reachable_registered hs).2 h (Or.inl hheld)
  rw [htask] at htask'
  cases htask'
  refine ⟨htimer, by rw [TimerWheel.hasTimer, htimer]; rfl, ?_, ?_⟩
  · intro w hok
    rcases TimerWheel.refresh_cases hok with ⟨hnone, _⟩ | ⟨h', _, p, hid, _, _, _, hw⟩
    · rw [hnone] at htimer
      cases htimer
    · rw [hid] at htimer
      cases htimer
      exact ⟨p, hw⟩
  · simp only [TimerWheel.timerCancelInLoop, htimer, TimerWheel.lock_eq_some hheld]

/-- Two tasks of different ids, one of them past its time. -/
theorem latest_is_registered_two :
    ∃ s : WheelThread Unit, s.clearing = none ∧ s.wheel.Held 1 ∧ s.wheel.timers 8 = some 1 ∧
      s.wheel.hasTimer 8 = true := by
  have hrun : ∃ s, System.run (System.gate AddsUnregistered next) (initial Unit)
      [.add 7 1 (), .add 8 5 (), .onTime 1, .drop, .ret, .done] = some s ∧ s.clearing = none ∧
      s.wheel.tasks = [⟨7, 1, (), false⟩, ⟨8, 5, (), false⟩] ∧ 1 ∈ s.wheel.wheel 5 :=
    ⟨_, rfl, rfl, rfl, List.mem_singleton_self 1⟩
  obtain ⟨s, hsteps, hidle, htasks, hmem⟩ := hrun
  have hheld : s.wheel.Held 1 := ⟨5, by decide, hmem⟩
  have hreg := latest_is_registered s ⟨_, _, rfl, System.restrict_steps_of_run hsteps⟩ hidle 1
    ⟨8, 5, (), false⟩ (by rw [htasks]; rfl) hheld rfl (by
      intro h' task' hlt htask'
      rw [htasks, List.getElem?_eq_none (Nat.succ_le_of_lt hlt)] at htask'
      cases htask')
  exact ⟨s, hidle, hheld, hreg.1, hreg.2.1⟩

/-- A callback that adds its own id again, and an id that is added while it is
    registered: the destructor of the old task erases the entry of the new one. -/
theorem newer_entry_erased : (∃ s, (system Unit).Steps (initial Unit)
        [.add 7 1 (), .onTime 1, .drop, .add 7 5 (), .ret, .done] s ∧ s.clearing = none ∧
        s.wheel.tasks = [⟨7, 1, (), false⟩, ⟨7, 5, (), false⟩] ∧ s.wheel.Held 1 ∧
        s.wheel.timers 7 = none) ∧
    (∃ s, (system Unit).Steps (initial Unit)
        [.add 7 1 (), .add 7 5 (), .onTime 1, .drop, .ret, .done] s ∧ s.clearing = none ∧
        s.wheel.tasks = [⟨7, 1, (), false⟩, ⟨7, 5, (), false⟩] ∧ s.wheel.Held 1 ∧
        s.wheel.timers 7 = none) :=
  ⟨⟨_, System.steps_of_run rfl, rfl, rfl, ⟨6, by decide, List.mem_singleton_self 1⟩, rfl⟩,
    ⟨_, System.steps_of_run rfl, rfl, rfl, ⟨5, by decide, List.mem_singleton_self 1⟩, rfl⟩⟩

/-! ## What a refresh meets -/

/-- **A refresh meets a live task unless that task is being destroyed.** In every
    state of every run: a refresh of a registered id obtains its task from the weak
    pointer, and does not call through a null pointer, exactly if the task is not
    the one whose callback is running. -/
theorem refresh_obtains_live_iff (s : WheelThread κ) (hs : (system κ).Reachable s) (id : Nat)
    (h : Handle) (hid : s.wheel.timers id = some h) :
    (s.wheel.lock h = some h ∧ s.wheel.timerRefreshInLoop id ≠ .error .nullPointer) ↔
      s.dying ≠ some h := by
  have hsound := reachable_sound hs
  constructor
  · -- the last pointer was dropped before the callback was called
    intro hlive hdying
    have hlock := hlive.1
    rw [TimerWheel.lock_eq_none (hsound.dying h hdying).2.2] at hlock
    cases hlock
  · intro hdying
    obtain ⟨hlive, task, htask, _⟩ := hsound.live id h hid
    have hlock := TimerWheel.lock_eq_some (hlive.resolve_right hdying)
    refine ⟨hlock, ?_⟩
    simp only [TimerWheel.timerRefreshInLoop, hid, hlock, htask]
    split
    · intro hfault
      cases hfault
    · intro hfault
      cases hfault

theorem refresh_obtains_live_in_callback :
    ∃ s : WheelThread Unit, s.dying = some 0 ∧ s.wheel.timers 8 = some 1 ∧
      s.wheel.lock 1 = some 1 ∧ s.wheel.timerRefreshInLoop 8 ≠ .error .nullPointer := by
  have hrun : ∃ s, (system Unit).Steps (initial Unit)
      [.add 7 1 (), .add 8 5 (), .onTime 1, .drop] s ∧ s.dying = some 0 ∧
      s.wheel.timers 8 = some 1 := ⟨_, System.steps_of_run rfl, rfl, rfl⟩
  obtain ⟨s, hsteps, hdying, hid⟩ := hrun
  have hlive := (refresh_obtains_live_iff s ⟨_, _, rfl, hsteps⟩ 8 1 hid).mpr (by
    rw [hdying]
    decide)
  exact ⟨s, hdying, hid, hlive⟩

end WheelThread

def Env.reenabling : Env :=
  { Env.reset with
    user := fun _ uc =>
      match uc with
      | .closed c => [.enableInactiveRelease c 5]
      | _ => [] }

/-- The idle timer of a connection expires, its closed callback enables the release
    again, and the refresh calls through a null pointer. -/
theorem refresh_in_closed_callback : ∃ s, Exec.runAll (LoopStep.exec Env.reenabling 2)
      [.functor baseLoop (.established 1), .functor baseLoop (.enableInactiveRelease 1 1),
        .tick baseLoop] (World.initial Config.single) = .error .nullPointer s :=
  ⟨_, rfl⟩

end CallLesson.Reactor
