import CallLesson.Reactor.Frames
import CallLesson.Reactor.WheelThread

/-! # The loops work their wheels by calls

    The code of connections, the user's callbacks included, touches a timer wheel
    by `TimerAdd`, `TimerRefresh` and `TimerCancel` only, and the loops make it
    tick. So the wheel of a loop goes through the states of `WheelThread`, in every
    run of every number of loops, connections and callbacks. The one exception is a
    timeout that makes a callback push into the slot that is being cleared; with
    timeouts of 1 to 59 s that cannot happen. -/

namespace CallLesson.Reactor

open Exec WheelThread LoopStep

/-! ## Calls on a wheel -/

def TimeoutsInRange (tasks : List (TimerTask TimerCb)) : Prop :=
  ∀ task ∈ tasks, 1 ≤ task.timeout ∧ task.timeout < capacity

def TasksKept (w w' : TimerWheel TimerCb) : Prop :=
  ∀ (h : Handle) (task : TimerTask TimerCb), w.tasks[h]? = some task →
    ∃ task', w'.tasks[h]? = some task' ∧ task'.id = task.id ∧ task'.timeout = task.timeout

open TimerWheel

theorem TasksKept.refl (w : TimerWheel TimerCb) : TasksKept w w :=
  fun _ task htask => ⟨task, htask, rfl, rfl⟩

variable {w w' : TimerWheel TimerCb} {s : World} {l : LoopId}

theorem TasksKept.trans {w'' : TimerWheel TimerCb} (h : TasksKept w w') (h' : TasksKept w' w'') :
    TasksKept w w'' := by
  intro i task htask
  obtain ⟨task1, htask1, hid1, hd1⟩ := h i task htask
  obtain ⟨task2, htask2, hid2, hd2⟩ := h' i task1 htask1
  exact ⟨task2, htask2, hid2.trans hid1, hd2.trans hd1⟩

theorem TasksKept.inRange (h : TasksKept w w') (hrange : TimeoutsInRange w'.tasks) :
    TimeoutsInRange w.tasks := by
  intro task hmem
  obtain ⟨i, hi⟩ := List.mem_iff_getElem?.mp hmem
  obtain ⟨task', htask', _, hd⟩ := h i task hi
  rw [← hd]
  exact hrange task' (List.mem_of_getElem? htask')

structure ByCalls (w w' : TimerWheel TimerCb) : Prop where
  kept : TasksKept w w'
  tick_eq : w'.tick = w.tick
  steps : TimeoutsInRange w'.tasks → w.tick < capacity →
    ∀ t : WheelThread TimerCb, t.wheel = w → t.CanCall →
      ∃ ls t', (system TimerCb).Steps t ls t' ∧ t'.wheel = w' ∧
        t'.clearing = t.clearing ∧ t'.dying = t.dying

theorem ByCalls.refl (w : TimerWheel TimerCb) : ByCalls w w :=
  ⟨TasksKept.refl w, rfl, fun _ _ t hw _ => ⟨[], t, .nil t, hw, rfl, rfl⟩⟩

theorem ByCalls.trans {w'' : TimerWheel TimerCb} (h : ByCalls w w') (h' : ByCalls w' w'') :
    ByCalls w w'' where
  kept := h.kept.trans h'.kept
  tick_eq := h'.tick_eq.trans h.tick_eq
  steps := by
    intro hrange htick t hw hcall
    obtain ⟨ls, t', hrun, hw', hclearing, hdying⟩ :=
      h.steps (h'.kept.inRange hrange) htick t hw hcall
    have hcall' : t'.CanCall := by
      rw [WheelThread.CanCall, hclearing, hdying]
      exact hcall
    obtain ⟨ls', t'', hrun', hw'', hclearing', hdying'⟩ :=
      h'.steps hrange (h.tick_eq ▸ htick) t' hw' hcall'
    exact ⟨ls ++ ls', t'', hrun.append hrun', hw'', hclearing'.trans hclearing,
      hdying'.trans hdying⟩

theorem slot_ne_tick {tick d : Nat} (hpos : 1 ≤ d) (hd : d < capacity) :
    (tick + d) % capacity ≠ tick := by
  unfold capacity at *
  omega

theorem ByCalls.add (w : TimerWheel TimerCb) (id d : Nat) (cb : TimerCb) :
    ByCalls w (w.timerAddInLoop id d cb) where
  kept := fun _ task htask => ⟨task, getElem?_add_of_some htask, rfl, rfl⟩
  tick_eq := rfl
  steps := by
    intro hrange htick t hw hcall
    subst hw
    -- the task that is added has its timeout in range
    obtain ⟨hpos, hd⟩ := hrange ⟨id, d, cb, false⟩ (by simp)
    have hclear : t.Clear ((t.wheel.tick + d) % 2 ^ 32 % capacity) := by
      right
      rw [add_slot htick (Nat.le_of_lt hd)]
      exact slot_ne_tick hpos hd
    have hstep := next_add id cb hcall (Nat.lt_trans hd (by decide)) hclear
    exact ⟨_, _, .cons _ _ hstep (.nil _), rfl, rfl, rfl⟩

theorem refresh_slot {tick d p : Nat} (hd : d < capacity)
    (hp : (p : Int) = (tick + toInt32 d).tmod capacity) : p = (tick + d) % capacity := by
  rw [toInt32_eq_self (Nat.lt_trans hd (by decide))] at hp
  exact Int.ofNat.inj hp

theorem ByCalls.refresh {id : Nat} (hok : w.timerRefreshInLoop id = .ok w') : ByCalls w w' := by
  have hcases := refresh_cases hok
  refine ⟨?_, ?_, ?_⟩
  · rcases hcases with ⟨_, rfl⟩ | ⟨_, _, _, _, _, _, _, rfl⟩
    · exact TasksKept.refl _
    · exact TasksKept.refl _
  · rcases hcases with ⟨_, rfl⟩ | ⟨_, _, _, _, _, _, _, rfl⟩
    · rfl
    · rfl
  · intro hrange _ t hw hcall
    subst hw
    have hapart : t.Apart w' := by
      right
      rcases hcases with ⟨_, rfl⟩ | ⟨h, task, p, _, _, htask, hp, rfl⟩
      · rfl
      · obtain ⟨hpos, hd⟩ := hrange task (List.mem_of_getElem? htask)
        rw [refresh_slot hd hp]
        exact setSlot_wheel_ne _ _ (Ne.symm (slot_ne_tick hpos hd))
    have hstep : t.next (.refresh id) = some { t.touch id with wheel := w' } := by
      simp only [next, hok]
      rw [if_pos ⟨hcall, hapart⟩]
    exact ⟨_, _, .cons _ _ hstep (.nil _), rfl, t.touch_clearing id, t.touch_dying id⟩

theorem ByCalls.cancel (w : TimerWheel TimerCb) (id : Nat) :
    ByCalls w (w.timerCancelInLoop id) := by
  have hcases := w.cancel_cases id
  refine ⟨?_, ?_, ?_⟩
  · rcases hcases with ⟨_, hw⟩ | ⟨h, _, _, hw⟩
    · rw [hw]
      exact TasksKept.refl w
    · rw [hw]
      exact fun _ _ htask => ⟨_, getElem?_setCancel_some htask, rfl, rfl⟩
  · rcases hcases with ⟨_, hw⟩ | ⟨h, _, _, hw⟩
    · rw [hw]
    · rw [hw]
      rfl
  · intro _ _ t hw hcall
    subst hw
    have hstep : t.next (.cancel id) =
        some { t.touch id with wheel := t.wheel.timerCancelInLoop id } := by
      simp only [next]
      rw [if_pos hcall]
    exact ⟨_, _, .cons _ _ hstep (.nil _), rfl, t.touch_clearing id, t.touch_dying id⟩

/-! ## The code of connections -/

def calling (l : LoopId) : Guarantee World :=
  Guarantee.ofPreorder (fun s s' => ByCalls (s.loops l).wheel (s'.loops l).wheel)
    (fun s => ByCalls.refl (s.loops l).wheel) ByCalls.trans

section calling

variable {l : LoopId}

theorem calling_of_eq {s' : World} (h : (s'.loops l).wheel = (s.loops l).wheel) :
    (calling l).ret s s' := by
  show ByCalls (s.loops l).wheel (s'.loops l).wheel
  rw [h]
  exact ByCalls.refl _

theorem calling_modify {f : World → World} (h : ∀ s, ((f s).loops l).wheel = (s.loops l).wheel) :
    Respects (calling l) (modify f : Code) :=
  respects_modify fun s => calling_of_eq (h s)

theorem calling_logEvent (e : Event) : Respects (calling l) (logEvent e) :=
  calling_modify fun _ => rfl

theorem setLoop_wheel (s : World) (l' : LoopId) (lp : Loop) :
    ((s.setLoop l' lp).loops l).wheel = if l = l' then lp.wheel else (s.loops l).wheel := by
  by_cases hl : l = l' <;> simp [World.setLoop, hl]

theorem setLoop_wheel_eq (s : World) {l' : LoopId} {lp : Loop}
    (hlp : lp.wheel = (s.loops l').wheel) :
    ((s.setLoop l' lp).loops l).wheel = (s.loops l).wheel := by
  rw [setLoop_wheel, hlp]
  by_cases hl : l = l' <;> simp [hl]

theorem calling_setWheel (l' : LoopId) (h : ByCalls (s.loops l').wheel w) :
    (calling l).ret s ((wheelHost l').setWheel w s) := by
  -- the other wheels are not touched
  by_cases hl : l = l'
  · subst hl
    show ByCalls (s.loops l).wheel ((wheelHost l).wheelOf ((wheelHost l).setWheel w s))
    rw [(wheelHost l).wheelOf_setWheel]
    exact h
  · apply calling_of_eq
    exact (setLoop_wheel s l' _).trans (if_neg hl)

theorem calling_tryConn (d : ConnId) (f : Conn → Except Fault Conn) :
    Respects (calling l) (tryConn d f) := by
  apply respects_get_bind
  intro s
  split
  · exact (wp_set _ _ _ _).mpr (calling_of_eq rfl)
  · exact (wp_throw _ _ _ _).mpr ((calling l).refl s)

theorem calling_timerRefresh (d : ConnId) : Respects (calling l) (timerRefresh d) := by
  apply respects_bind respects_get
  intro s0
  apply respects_get_bind
  intro s
  split
  · next w hw => exact (wp_set _ _ _ _).mpr (calling_setWheel _ (ByCalls.refresh hw))
  · exact (wp_throw _ _ _ _).mpr ((calling l).refl s)

theorem calling_updateEvent (d : ConnId) : Respects (calling l) (updateEvent d) := by
  apply calling_modify
  intro s
  dsimp only
  split
  · exact setLoop_wheel_eq s rfl
  · rfl

theorem calling_allowsSmall (d : ConnId) : AllowsSmall (calling l) d where
  nextCall := fun s => (wp_nextCall _ _ s).mpr (calling_of_eq rfl)
  modifyConn := fun _ _ => calling_modify fun _ => rfl
  tryConn := fun f _ => calling_tryConn d f
  updateEvent := calling_updateEvent d
  removeEvent := calling_modify fun s => setLoop_wheel_eq s rfl
  pushTask := fun _ _ _ _ => calling_modify fun s => setLoop_wheel_eq s rfl
  timerRefresh := calling_timerRefresh d
  timerCancel := respects_modify fun _ => calling_setWheel _ (ByCalls.cancel _ d)
  timerAdd := fun sec => respects_modify fun _ => calling_setWheel _ (ByCalls.add _ d sec _)

theorem calling_allowsOn (d : ConnId) : AllowsOn (calling l) d where
  log := fun e _ _ => calling_logEvent e
  statu := fun _ => calling_modify fun _ => rfl
  enter := fun _ => calling_modify fun _ => rfl
  leave := calling_modify fun _ => rfl
  close := calling_modify fun _ => rfl

theorem calling_sendInLoop (d : ConnId) (buf : Buffer) :
    Respects (calling l) (sendInLoop d buf) := by
  apply respects_bind (calling_logEvent _)
  intro _
  apply respects_bind respects_get
  intro s
  apply respects_ite
  · exact respects_pure ()
  · apply respects_bind (calling_tryConn d _)
    intro _
    apply respects_bind respects_get
    intro s
    exact respects_whenever _ (calling_allowsSmall d).enableWrite

theorem calling_removeConnection (self : LoopId) (d : ConnId) :
    Respects (calling l) (removeConnection self d) :=
  respects_ite _ (calling_modify fun _ => rfl) (calling_modify fun s => setLoop_wheel_eq s rfl)

theorem calling_disableWrite (d : ConnId) : Respects (calling l) (disableWrite d) :=
  respects_bind (calling_modify fun _ => rfl) fun _ => calling_updateEvent d

section user

variable {self : LoopId} {user : UserCode → Code} (huser : ∀ uc, Respects (calling l) (user uc))

include huser

theorem calling_releaseInLoop (d : ConnId) : Respects (calling l) (releaseInLoop user self d) :=
  releaseInLoop_respects (calling_allowsSmall d) (calling_allowsOn d)
    (calling_logEvent _) (calling_removeConnection self d) huser

theorem calling_shutdownInLoop (d : ConnId) : Respects (calling l) (shutdownInLoop user self d) :=
  shutdownInLoop_respects (calling_allowsSmall d) (calling_allowsOn d) huser
    (calling_releaseInLoop huser d)

theorem calling_timerCallback (h : Handle) (task : TimerTask TimerCb) :
    Respects (calling l) (timerCallback user self h task) := by
  unfold timerCallback
  split
  · next c _ => exact during_respects (calling_allowsOn c) _ (calling_releaseInLoop huser c)
  · exact huser .task

theorem calling_channelHandleEvent (env : Env) (d : ConnId) (revents : Events) :
    Respects (calling l) (channelHandleEvent user self env d revents) := by
  have hsmall := calling_allowsSmall (l := l) d
  have hon := calling_allowsOn (l := l) d
  have hrelease : Respects (calling l) (releaseInLoop user self d) := calling_releaseInLoop huser d
  apply respects_bind (calling_logEvent _)
  intro _
  apply handleRevents_respects hsmall huser
  · exact handleRead_respects hsmall huser (calling_shutdownInLoop huser d)
  · intro env
    exact during_respects hon _ (handleWriteBody_respects hsmall hon huser hrelease
      (fun _ => calling_tryConn d _) (calling_disableWrite d) env)
  · exact during_respects hon _ (handleCloseBody_respects huser hrelease)

theorem calling_runFunctor (f : Functor) : Respects (calling l) (runFunctor user self f) := by
  cases f with
  | established d =>
    exact establishedInLoop_respects (calling_allowsSmall d) (calling_allowsOn d) huser
  | send d data => exact sendFunctor_respects (fun buf _ => calling_sendInLoop d buf) data
  | shutdown d => exact calling_shutdownInLoop huser d
  | enableInactiveRelease d sec => exact (calling_allowsSmall d).enable sec
  | cancelInactiveRelease d => exact (calling_allowsSmall d).cancelInLoop
  | removeConnection d => exact calling_modify fun _ => rfl

theorem calling_onTime_ne (hne : l ≠ self) : Respects (calling l) (onTime user self) := by
  apply Host.runTimerTask_respects
  · intro w s _
    exact calling_of_eq ((setLoop_wheel s self _).trans (if_neg hne))
  · intro h task s _
    exact calling_timerCallback huser h task s

end user

theorem calling_callback (env : Env) (self : LoopId) (depth : Nat) (uc : UserCode) :
    Respects (calling l) (callback env self depth uc) :=
  callback_respects env calling_allowsSmall (fun d buf _ => calling_sendInLoop d buf)
    (fun _ d huser => calling_shutdownInLoop huser d) depth uc

end calling

/-! ## Runs of the loops -/

def keepingTasks (l : LoopId) : Guarantee World :=
  Guarantee.ofPreorder (fun s s' => TasksKept (s.loops l).wheel (s'.loops l).wheel)
    (fun s => TasksKept.refl (s.loops l).wheel) TasksKept.trans

theorem keepingTasks_of_calling {x : Code} (h : Respects (calling l) x) :
    Respects (keepingTasks l) x :=
  h.weaken (fun _ _ hcalls => hcalls.kept) (fun _ _ hcalls => hcalls.kept)

theorem onTime_keepsTasks {user : UserCode → Code} (huser : ∀ uc, Respects (calling l) (user uc)) :
    Respects (keepingTasks l) (onTime user l) := by
  apply Host.runTimerTask_respects
  · intro w s hw
    show TasksKept (s.loops l).wheel ((wheelHost l).wheelOf ((wheelHost l).setWheel w s))
    rw [(wheelHost l).wheelOf_setWheel]
    intro h task htask
    exact ⟨task, by rw [hw]; exact htask, rfl, rfl⟩
  · intro h task s _
    exact keepingTasks_of_calling (calling_timerCallback huser h task) s

theorem callsOnly_timerCallback {user : UserCode → Code}
    (huser : ∀ uc, Respects (calling l) (user uc)) (t : WheelThread TimerCb) {p : Nat}
    (hp : p < capacity) :
    WheelThread.CallsOnly (wheelHost l) (timerCallback user l) TimeoutsInRange t p := by
  intro h task rest s htask hreach
  refine wp_mono (calling_timerCallback huser h task s) ?_ (fun _ _ => trivial)
  intro _ s' hcalls
  obtain ⟨task', htask', hid, _⟩ := hcalls.kept h task htask
  refine ⟨?_, task', htask', hid⟩
  intro hrange
  obtain ⟨ls, t', hin⟩ := hreach (hcalls.kept.inRange hrange)
  have htick : (s.loops l).wheel.tick = p := by
    rw [← hin.tick_eq, hin.wheel_eq]
    rfl
  have hcall : t'.CanCall := Or.inr (by rw [hin.dying_eq]; rfl)
  obtain ⟨ls', t'', hrun, hwheel, hclearing, hdying⟩ :=
    hcalls.steps hrange (htick ▸ hp) t' hin.wheel_eq hcall
  refine ⟨ls ++ ls', t'', hin.run.append hrun, hwheel, ?_, hclearing.trans hin.clearing_eq,
    hdying.trans hin.dying_eq⟩
  rw [hwheel, hcalls.tick_eq, htick]

def Stepped (l : LoopId) (s : World) : Prop :=
  TimeoutsInRange (s.loops l).wheel.tasks →
    ∃ t, (system TimerCb).Reachable t ∧ t.wheel = (s.loops l).wheel ∧
      t.clearing = none ∧ t.dying = none

theorem Stepped.of_calling {s' : World} (hs : Stepped l s)
    (hcalls : ByCalls (s.loops l).wheel (s'.loops l).wheel) : Stepped l s' := by
  intro hrange
  obtain ⟨t, ⟨s0, ls, hinit, hrun⟩, hwheel, hidle, hdying⟩ := hs (hcalls.kept.inRange hrange)
  have htick : t.wheel.tick < capacity := by
    rw [(reachable_sound ⟨s0, ls, hinit, hrun⟩).tick_eq]
    exact Nat.mod_lt _ (Nat.zero_lt_succ _)
  obtain ⟨ls', t', hrun', hwheel', hclearing', hdying'⟩ :=
    hcalls.steps hrange (hwheel ▸ htick) t hwheel (Or.inl hidle)
  exact ⟨t', ⟨s0, ls ++ ls', hinit, hrun.append hrun'⟩, hwheel', hclearing'.trans hidle,
    hdying'.trans hdying⟩

theorem LoopStep.exec_stepped (env : Env) (depth : Nat) (l : LoopId) (step : LoopStep)
    (hs : Stepped l s) :
    wp (exec env depth step) (fun _ s' => Stepped l s') (fun _ => True) s := by
  have hcalling : ∀ {x : Code}, Respects (calling l) x →
      wp x (fun _ s' => Stepped l s') (fun _ => True) s := by
    intro x hx
    exact wp_mono (hx s) (fun _ _ hcalls => hs.of_calling hcalls) (fun _ _ => trivial)
  have huser : ∀ self uc, Respects (calling l) (callback env self depth uc) :=
    fun self uc => calling_callback env self depth uc
  cases step with
  | event self c revents => exact hcalling (calling_channelHandleEvent (huser self) env c revents)
  | functor self f => exact hcalling (calling_runFunctor (huser self) f)
  | tick self =>
    by_cases hself : l = self
    · subst hself
      by_cases hrange : TimeoutsInRange (s.loops l).wheel.tasks
      · obtain ⟨t, ⟨s0, ls, hinit, hrun⟩, hwheel, hidle, hdying⟩ := hs hrange
        have hp : t.wheel.advance.tick < capacity := Nat.mod_lt _ (Nat.zero_lt_succ _)
        refine wp_imp (runTimerTask_steps 1 hidle hdying hwheel
          (callsOnly_timerCallback (huser l) (t.ticked 1) hp)) ?_
        intro _ s' hafter hrange'
        obtain ⟨ls', t', hrun', hwheel', _, hidle', hdying'⟩ := hafter hrange'
        exact ⟨t', ⟨s0, _, hinit, hrun.append hrun'⟩, hwheel', hidle', hdying'⟩
      · -- a timeout out of range stays there
        refine wp_mono (onTime_keepsTasks (huser l) s) ?_ (fun _ _ => trivial)
        intro _ s' hkept hrange'
        exact absurd (TasksKept.inRange hkept hrange') hrange
    · -- the tick of another loop is code like any other to this wheel
      exact hcalling (calling_onTime_ne (huser self) hself)

theorem stepped_of_run (cfg : Config) (env : Env) (depth : Nat) (l : LoopId) {steps : List LoopStep}
    (hrun : runAll (exec env depth) steps (World.initial cfg) = .ok () s) :
    Stepped l s := by
  have hinit : Stepped l (World.initial cfg) := by
    intro _
    refine ⟨initial TimerCb, ⟨_, [], rfl, .nil _⟩, ?_, rfl, rfl⟩
    show empty TimerCb = (if l = baseLoop then _ else _ : Loop).wheel
    split <;> rfl
  have hall : wp (runAll (exec env depth) steps) (fun _ s' => Stepped l s') (fun _ => True)
      (World.initial cfg) :=
    wp_runAll (fun step _ hs => exec_stepped env depth l step hs) steps _ hinit
  have hend := wp_ok hall hrun
  exact hend

/-- **The wheels of the loops**: after every run of the loops that returns, with any callbacks
    nested to any depth and timeouts of 1 to 59 s, the wheel of each loop is one that a run of
    `WheelThread` gets to, and what it has registered is alive: a refresh meets a task that is
    gone only from a callback of the wheel. -/
theorem wheel_of_run (cfg : Config) (env : Env) (depth : Nat) (l : LoopId) {steps : List LoopStep}
    (hrun : runAll (exec env depth) steps (World.initial cfg) = .ok () s)
    (hrange : TimeoutsInRange (s.loops l).wheel.tasks) :
    (∃ t, (system TimerCb).Reachable t ∧ t.wheel = (s.loops l).wheel ∧
      t.clearing = none ∧ t.dying = none) ∧
    ∀ id h, (s.loops l).wheel.timers id = some h → (s.loops l).wheel.lock h = some h := by
  obtain ⟨t, ht, hwheel, hidle, hdying⟩ := stepped_of_run cfg env depth l hrun hrange
  refine ⟨⟨t, ht, hwheel, hidle, hdying⟩, fun id h hid => ?_⟩
  rw [← hwheel] at hid ⊢
  have hlive := ((reachable_sound ht).live id h hid).1
  exact lock_eq_some (hlive.resolve_right (by rw [hdying]; simp))

/-- A connection with a timer, after one tick. -/
theorem wheel_of_run_enabled : ∃ s, runAll (exec .reset 1)
      [.functor baseLoop (.enableInactiveRelease 1 5), .tick baseLoop] (World.initial .single) =
        .ok () s ∧
    (s.loops baseLoop).wheel.timers 1 = some 0 ∧ (s.loops baseLoop).wheel.lock 0 = some 0 := by
  have hrun : runAll (exec .reset 1)
      [.functor baseLoop (.enableInactiveRelease 1 5), .tick baseLoop] (World.initial .single) =
        .ok () _ := rfl
  refine ⟨_, hrun, rfl, ?_⟩
  refine (wheel_of_run .single .reset 1 baseLoop hrun ?_).2 1 0 rfl
  unfold TimeoutsInRange
  decide +kernel

end CallLesson.Reactor
