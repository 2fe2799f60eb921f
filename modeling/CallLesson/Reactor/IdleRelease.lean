import CallLesson.Reactor.Frames

/-! # Idle release

    Runs of `EnableInactiveRelease`, `CancelInactiveRelease`, activity on
    connections (`Connection::HandleEvent`) and ticks, on any number of
    connections and loops. Cancelling only marks the task, which stays
    registered until its last pointer is dropped, and enabling refreshes
    whatever task is registered; so what an enable does depends on whether a
    cancelled task is still there. -/

namespace CallLesson.Reactor

open Exec TimerWheel

/-! ## Runs -/

inductive IdleStep where
  | enable (c : ConnId) (sec : Nat)
  | cancel (c : ConnId)
  | activity (c : ConnId)
  | tick (l : LoopId)
  deriving DecidableEq

def IdleStep.conn? : IdleStep → Option ConnId
  | .enable c _ => some c
  | .cancel c => some c
  | .activity c => some c
  | .tick _ => none

def IdleStep.inRange : IdleStep → Bool
  | .enable _ sec => decide (sec ≤ 60)
  | _ => true

def IdleStep.exec (user : UserCode → Code) : IdleStep → Code
  | .enable c sec => enableInactiveReleaseInLoop c sec
  | .cancel c => cancelInactiveReleaseInLoop c
  | .activity c => handleEvent user c
  | .tick l => onTime user l

def afterIdle (cfg : Config) (user : UserCode → Code) (steps : List IdleStep) : World :=
  stateAfter (runAll (IdleStep.exec user) steps) (World.initial cfg)

def World.wheelFor (s : World) (c : ConnId) : TimerWheel TimerCb :=
  (s.loops (s.conns c).loop).wheel

def TimerWheel.cancelled {κ : Type} (w : TimerWheel κ) (id : Nat) : Bool :=
  ((w.timers id).bind fun h => w.tasks[h]?).any (·.cancel)

def IdleStep.uncancelled (s : World) : IdleStep → Bool
  | .enable c _ => !(s.wheelFor c).cancelled c
  | _ => true

def New (e : Event) (s s' : World) : Prop := ∃ t, s'.trace = s.trace ++ t ∧ e ∈ t

structure Kept (s s' : World) : Prop where
  wheel : ∀ l, (s'.loops l).wheel = (s.loops l).wheel
  loop : ∀ c, (s'.conns c).loop = (s.conns c).loop
  enabled : ∀ c, (s'.conns c).enableInactiveRelease = (s.conns c).enableInactiveRelease
  trace : s.trace <+: s'.trace

def Keeps (x : Code) : Prop := ∀ s, wp x (fun _ s' => Kept s s') (fun _ => False) s

/-! ## The wheel -/

open List World

variable {h : Handle} {rest : List Handle} {s0 s'' : World} {p n : Nat}

namespace TimerWheel

variable {κ : Type}

def Armed (w : TimerWheel κ) (id : Nat) : Prop :=
  ∃ h task, w.timers id = some h ∧ w.tasks[h]? = some task ∧ task.cancel = false

def DueBy (w : TimerWheel κ) (id lo hi : Nat) : Prop :=
  ∀ h p, w.timers id = some h → h ∈ w.wheel p → ∃ j, lo ≤ j ∧ j ≤ hi ∧ p = (w.tick + j) % capacity

inductive Move (id : Nat) (cb : κ) : TimerWheel κ → TimerWheel κ → Prop where
  | stay (w) : Move id cb w w
  | add (w d) : w.timers id = none → d ≤ capacity → Move id cb w (w.timerAddInLoop id d cb)
  | push (w h p) : w.timers id = some h → p < capacity → Move id cb w (w.pushSlot p h)
  | cancel (w h) : w.timers id = some h → Move id cb w (w.setCancel h)

variable {w w' : TimerWheel κ} {id i n : Nat} {cb : κ}

theorem Inv.dueBy (hinv : Inv w) (id : Nat) : DueBy w id 1 capacity := by
  intro h p _ hmem
  have hp := hinv.slot_lt p h hmem
  have htick := hinv.tick_lt
  refine ⟨(p + capacity - w.tick - 1) % capacity + 1, ?_, ?_, ?_⟩ <;> unfold capacity at * <;> omega

theorem DueBy.pos (hdue : DueBy w id 1 n) (hinv : Inv w) (harmed : Armed w id) : 0 < n := by
  obtain ⟨h, _, htimer, _, _⟩ := harmed
  obtain ⟨⟨p, _, hmem⟩, _⟩ := hinv.live id h htimer
  obtain ⟨j, hlo, hhi, _⟩ := hdue h p htimer hmem
  omega

theorem armed_add (w : TimerWheel κ) (id d : Nat) (cb : κ) : Armed (w.timerAddInLoop id d cb) id := by
  refine ⟨w.tasks.length, ⟨id, d, cb, false⟩, ?_, ?_, rfl⟩
  · rw [timerAddInLoop_timers, if_pos rfl]
  · simp

theorem armed_of_cancelled (hinv : Inv w) (htimer : w.hasTimer id = true)
    (hcancelled : w.cancelled id = false) : Armed w id := by
  obtain ⟨h, hh⟩ := Option.isSome_iff_exists.mp htimer
  obtain ⟨task, htask, _⟩ := hinv.task hh
  refine ⟨h, task, hh, htask, ?_⟩
  simpa [cancelled, hh, htask] using hcancelled

theorem Inv.handle_ne (hinv : Inv w) {h' : Handle} (hne : i ≠ id) (htimer : w.timers id = some h)
    (htimer' : w.timers i = some h') : h' ≠ h := by
  rintro rfl
  obtain ⟨task, htask, hid⟩ := hinv.task htimer
  obtain ⟨task', htask', hid'⟩ := hinv.task htimer'
  cases htask.symm.trans htask'
  exact hne (hid'.symm.trans hid)

theorem Move.inv (hmove : Move id cb w w') (hinv : Inv w) : Inv w' := by
  cases hmove with
  | stay => exact hinv
  | add d hnone _ => exact hinv.add d cb hnone
  | push h p htimer hp => exact hinv.pushSlot hp htimer
  | cancel h _ => exact hinv.setCancel h

theorem Move.armed_ne (hmove : Move id cb w w') (hinv : Inv w) (hne : i ≠ id)
    (harmed : Armed w i) : Armed w' i := by
  obtain ⟨h', task, htimer', htask, hcancel⟩ := harmed
  cases hmove with
  | stay => exact ⟨h', task, htimer', htask, hcancel⟩
  | add d _ _ =>
    refine ⟨h', task, ?_, getElem?_add_of_some htask, hcancel⟩
    rw [timerAddInLoop_timers, if_neg hne]
    exact htimer'
  | push h p _ _ => exact ⟨h', task, htimer', htask, hcancel⟩
  | cancel h htimer =>
    refine ⟨h', _, htimer', getElem?_setCancel_some htask, ?_⟩
    have hbeq : (h == h') = false := beq_false_of_ne (hinv.handle_ne hne htimer htimer').symm
    rw [hbeq]
    exact hcancel

theorem Move.dueBy_ne (hmove : Move id cb w w') (hinv : Inv w) (hne : i ≠ id)
    (hdue : DueBy w i 1 n) : DueBy w' i 1 n := by
  intro h' p htimer' hmem
  cases hmove with
  | stay => exact hdue h' p htimer' hmem
  | add d _ _ =>
    rw [timerAddInLoop_timers, if_neg hne] at htimer'
    rcases mem_timerAddInLoop.mp hmem with hold | ⟨_, rfl⟩
    · exact hdue h' p htimer' hold
    · -- the new task is registered under no other id
      obtain ⟨⟨q, _, hq⟩, _⟩ := hinv.live i _ htimer'
      exact absurd (hinv.lt_length hq) (Nat.lt_irrefl _)
  | push h q htimer _ =>
    rcases mem_pushSlot.mp hmem with hold | ⟨_, rfl⟩
    · exact hdue h' p htimer' hold
    · exact absurd rfl (hinv.handle_ne hne htimer htimer')
  | cancel h _ => exact hdue h' p htimer' hmem

theorem Armed.remove (harmed : Armed w i) (hne : i ≠ id) : Armed (w.remove id) i := by
  obtain ⟨h, task, htimer, htask, hcancel⟩ := harmed
  refine ⟨h, task, ?_, htask, hcancel⟩
  rw [TimerWheel.remove, setTimer_timers_ne _ _ hne]
  exact htimer

theorem Armed.cancel_eq {task : TimerTask κ} (harmed : Armed w task.id) (hinv : Inv w)
    (hmem : h ∈ w.wheel p) (htask : w.tasks[h]? = some task) : task.cancel = false := by
  obtain ⟨h', task', htimer', htask', hcancel⟩ := harmed
  have htimer := hinv.timer_of_held ⟨p, hinv.slot_lt p h hmem, hmem⟩ htask
  cases htimer.symm.trans htimer'
  cases htask.symm.trans htask'
  exact hcancel

theorem DueBy.remove {lo hi : Nat} (hdue : DueBy w i lo hi) : DueBy (w.remove id) i lo hi := by
  intro h p htimer hmem
  by_cases hi : i = id
  · rw [hi, TimerWheel.remove, setTimer_timers_self] at htimer
    cases htimer
  · rw [TimerWheel.remove, setTimer_timers_ne _ _ hi] at htimer
    exact hdue h p htimer hmem

theorem DueBy.setSlot_tail {lo hi : Nat} (hslot : w.wheel p = h :: rest) (hdue : DueBy w i lo hi) :
    DueBy (w.setSlot p rest) i lo hi :=
  fun h' q htimer hmem => hdue h' q htimer (mem_setSlot_tail hslot hmem)

theorem DueBy.advance (hdue : DueBy w i 1 n) : DueBy w.advance i 0 (n - 1) := by
  intro h p htimer hmem
  obtain ⟨j, hlo, hhi, hp⟩ := hdue h p htimer hmem
  refine ⟨j - 1, Nat.zero_le _, Nat.sub_le_sub_right hhi 1, ?_⟩
  show p = ((w.tick + 1) % capacity + (j - 1)) % capacity
  rw [Nat.mod_add_mod, hp]
  congr 1
  omega

theorem DueBy.tick_done (hdue : DueBy w i 0 n) (hinv : Inv w) (hslot : w.wheel w.tick = []) :
    DueBy w i 1 n := by
  intro h p htimer hmem
  obtain ⟨j, _, hhi, hp⟩ := hdue h p htimer hmem
  refine ⟨j, ?_, hhi, hp⟩
  rcases Nat.eq_zero_or_pos j with rfl | hpos
  · rw [Nat.add_zero, Nat.mod_eq_of_lt hinv.tick_lt] at hp
    rw [hp, hslot] at hmem
    cases hmem
  · exact hpos

theorem Move.mem_tasks (hmove : Move id cb w w') {task : TimerTask κ} (hmem : task ∈ w'.tasks) :
    (∃ task0 ∈ w.tasks, task.id = task0.id ∧ task.timeout = task0.timeout ∧
      task.taskCb = task0.taskCb) ∨
    (task.id = id ∧ task.timeout ≤ capacity ∧ task.taskCb = cb) := by
  cases hmove with
  | stay => exact Or.inl ⟨task, hmem, rfl, rfl, rfl⟩
  | add d _ hd =>
    rcases mem_append.mp hmem with hold | hnew
    · exact Or.inl ⟨task, hold, rfl, rfl, rfl⟩
    · rw [mem_singleton.mp hnew]
      exact Or.inr ⟨rfl, hd, rfl⟩
  | push h p _ _ => exact Or.inl ⟨task, hmem, rfl, rfl, rfl⟩
  | cancel h _ =>
    obtain ⟨h', hh'⟩ := mem_iff_getElem?.mp hmem
    obtain ⟨task0, htask0, rfl⟩ := getElem?_setCancel_inv hh'
    exact Or.inl ⟨task0, mem_of_getElem? htask0, rfl, rfl, rfl⟩

end TimerWheel

/-! ## Code that leaves the timers alone -/

theorem New.log (e : Event) (s : World) : New e s (s.log e) := ⟨[e], rfl, mem_singleton_self e⟩

variable {s s' : World} {c : ConnId} {user : UserCode → Code} {l : LoopId}

theorem New.after {e : Event} (h : s.trace <+: s'.trace) (h' : New e s' s'') : New e s s'' := by
  obtain ⟨t, ht⟩ := h
  obtain ⟨t', ht', hmem⟩ := h'
  refine ⟨t ++ t', ?_, mem_append_right t hmem⟩
  rw [ht', ← ht, append_assoc]

theorem New.before {e : Event} (h : New e s s') (h' : s'.trace <+: s''.trace) : New e s s'' := by
  obtain ⟨t, ht, hmem⟩ := h
  obtain ⟨t', ht'⟩ := h'
  refine ⟨t ++ t', ?_, mem_append_left t' hmem⟩
  rw [← ht', ht, append_assoc]

theorem Kept.refl (s : World) : Kept s s :=
  ⟨fun _ => rfl, fun _ => rfl, fun _ => rfl, prefix_rfl⟩

theorem Kept.trans (h : Kept s s') (h' : Kept s' s'') : Kept s s'' where
  wheel := fun l => (h'.wheel l).trans (h.wheel l)
  loop := fun c => (h'.loop c).trans (h.loop c)
  enabled := fun c => (h'.enabled c).trans (h.enabled c)
  trace := h.trace.trans h'.trace

theorem Kept.wheelFor (h : Kept s s') (c : ConnId) : s'.wheelFor c = s.wheelFor c := by
  rw [World.wheelFor, h.loop c]
  exact h.wheel _

theorem Kept.log (s : World) (e : Event) : Kept s (s.log e) :=
  ⟨fun _ => rfl, fun _ => rfl, fun _ => rfl, prefix_append s.trace [e]⟩

theorem Kept.setConn {k : Conn} (hloop : k.loop = (s.conns c).loop)
    (henabled : k.enableInactiveRelease = (s.conns c).enableInactiveRelease) :
    Kept s (s.setConn c k) := by
  refine ⟨fun _ => rfl, fun d => ?_, fun d => ?_, prefix_rfl⟩
  · by_cases hd : d = c
    · rw [hd, setConn_conns_self]
      exact hloop
    · rw [setConn_conns_ne s k hd]
  · by_cases hd : d = c
    · rw [hd, setConn_conns_self]
      exact henabled
    · rw [setConn_conns_ne s k hd]

theorem Kept.setLoop {lp : Loop} (h : lp.wheel = (s.loops l).wheel) : Kept s (s.setLoop l lp) := by
  refine ⟨fun l' => ?_, fun _ => rfl, fun _ => rfl, List.prefix_rfl⟩
  by_cases hl : l' = l
  · simp [World.setLoop, hl, h]
  · simp [World.setLoop, hl]

theorem keeps_modify {f : World → World} (h : ∀ s, Kept s (f s)) : Keeps (modify f) :=
  fun s => (wp_modify f _ _ s).mpr (h s)

theorem keeps_get_bind {f : World → Code} (h : ∀ s, Keeps (f s)) : Keeps (get >>= f) := by
  intro s
  rw [wp_bind, wp_get]
  exact h s s

theorem Keeps.after {x : Code} (hx : Keeps x) (h : Kept s s') :
    wp x (fun _ s'' => Kept s s'') (fun _ => False) s' :=
  wp_mono (hx s') (fun _ _ h' => h.trans h') (fun _ h' => h')

theorem Keeps.bind {x : Code} {f : Unit → Code} (hx : Keeps x) (hf : Keeps (f ())) :
    Keeps (x >>= f) := by
  intro s
  rw [wp_bind]
  exact wp_imp (hx s) (fun _ _ h => hf.after h)

theorem Keeps.whenever {x : Code} (hx : Keeps x) (p : Prop) [Decidable p] :
    Keeps (whenever p x) := by
  intro s
  rw [wp_whenever]
  exact ⟨fun _ => hx s, fun _ => Kept.refl s⟩

theorem keeps_logEvent (e : Event) : Keeps (logEvent e) := keeps_modify fun s => Kept.log s e

theorem keeps_setStatu (c : ConnId) (st : ConnStatu) : Keeps (setStatu c st) :=
  Keeps.bind (keeps_modify fun _ => Kept.setConn rfl rfl) (keeps_logEvent _)

theorem keeps_removeEvent (c : ConnId) : Keeps (removeEvent c) :=
  keeps_modify fun _ => Kept.setLoop rfl

theorem keeps_socketClose (c : ConnId) : Keeps (socketClose c) :=
  keeps_modify fun _ => Kept.setConn rfl rfl

theorem keeps_removeConnection (self : LoopId) (c : ConnId) : Keeps (removeConnection self c) := by
  unfold removeConnection
  split
  · exact keeps_modify fun _ =>
      ⟨fun _ => rfl, fun _ => rfl, fun _ => rfl, prefix_rfl⟩
  · exact keeps_modify fun _ => Kept.setLoop rfl

theorem keeps_serverClosedCallback (self : LoopId) (c : ConnId) :
    Keeps (serverClosedCallback self c) :=
  keeps_get_bind fun _ =>
    (Keeps.bind (keeps_logEvent _) (keeps_removeConnection self c)).whenever _

/-! ## What the steps do -/

structure Disabled (c : ConnId) (s s' : World) : Prop where
  wheel : ∀ l, (s'.loops l).wheel = (s.loops l).wheel
  loop : ∀ d, (s'.conns d).loop = (s.conns d).loop
  enabled_ne : ∀ d, d ≠ c → (s'.conns d).enableInactiveRelease = (s.conns d).enableInactiveRelease
  disabled : (s'.conns c).enableInactiveRelease = false
  trace : s.trace <+: s'.trace

theorem Disabled.after (h : Kept s s') (h' : Disabled c s' s'') : Disabled c s s'' where
  wheel := fun l => (h'.wheel l).trans (h.wheel l)
  loop := fun d => (h'.loop d).trans (h.loop d)
  enabled_ne := fun d hd => (h'.enabled_ne d hd).trans (h.enabled d)
  disabled := h'.disabled
  trace := h.trace.trans h'.trace

theorem Disabled.before (h : Disabled c s s') (h' : Kept s' s'') : Disabled c s s'' where
  wheel := fun l => (h'.wheel l).trans (h.wheel l)
  loop := fun d => (h'.loop d).trans (h.loop d)
  enabled_ne := fun d hd => (h'.enabled d).trans (h.enabled_ne d hd)
  disabled := (h'.enabled c).trans h.disabled
  trace := h.trace.trans h'.trace

structure Flagged (c : ConnId) (b : Bool) (s s' : World) : Prop where
  loops : s'.loops = s.loops
  loop : ∀ d, (s'.conns d).loop = (s.conns d).loop
  enabled_ne : ∀ d, d ≠ c → (s'.conns d).enableInactiveRelease = (s.conns d).enableInactiveRelease
  enabled : (s'.conns c).enableInactiveRelease = b
  trace : s'.trace = s.trace

theorem Flagged.setConn (s : World) (c : ConnId) (b : Bool) :
    Flagged c b s (s.setConn c { s.conns c with enableInactiveRelease := b }) := by
  refine ⟨rfl, fun d => ?_, fun d hd => ?_, ?_, rfl⟩
  · by_cases hd : d = c
    · rw [hd, setConn_conns_self]
    · rw [setConn_conns_ne s _ hd]
  · rw [setConn_conns_ne s _ hd]
  · rw [setConn_conns_self]

theorem Flagged.wheelFor {b : Bool} (h : Flagged c b s s') (d : ConnId) :
    s'.wheelFor d = s.wheelFor d := by
  rw [World.wheelFor, h.loops, h.loop]
  rfl

theorem TimerWheel.timerCancelInLoop_of_lock {κ : Type} {w : TimerWheel κ} {id : Nat}
    (hlock : ∀ h, w.timers id = some h → w.lock h = none) : w.timerCancelInLoop id = w := by
  unfold timerCancelInLoop
  cases htimer : w.timers id with
  | none => rfl
  | some h =>
    dsimp only
    rw [hlock h htimer]

theorem cancel_expired {self : LoopId} (hself : self = (s.conns c).loop)
    (hlock : ∀ h, (s.wheelFor c).timers c = some h → (s.wheelFor c).lock h = none) :
    wp (cancelInactiveRelease self c) (fun _ s' => Disabled c s s') (fun _ => False) s := by
  rw [cancelInactiveRelease, wp_bind, wp_get, if_pos hself, cancelInactiveReleaseInLoop, wp_bind,
    modifyConn, wp_modify]
  have hflag := Flagged.setConn s c false
  generalize s.setConn c { s.conns c with enableInactiveRelease := false } = s1 at *
  have hwheel := hflag.wheelFor c
  have hdisabled : Disabled c s s1 := by
    refine ⟨fun l => ?_, hflag.loop, hflag.enabled_ne, hflag.enabled, ?_⟩
    · rw [hflag.loops]
    · exact hflag.trace ▸ prefix_rfl
  rw [wp_bind, wp_get, wp_whenever]
  constructor
  · intro _
    have hcancel : (s1.wheelFor c).timerCancelInLoop c = s1.wheelFor c := by
      rw [hwheel]
      exact timerCancelInLoop_of_lock hlock
    rw [timerCancel, wp_modify]
    show Disabled c s ((wheelHost (s1.conns c).loop).setWheel
      ((s1.wheelFor c).timerCancelInLoop c) s1)
    rw [hcancel]
    exact hdisabled.before (Kept.setLoop rfl)
  · intro _
    exact hdisabled

section steps

variable {user : UserCode → Code} (huser : ∀ uc, Keeps (user uc))

include huser

theorem releaseInLoop_expired {self : LoopId} (hself : self = (s.conns c).loop)
    (htimer : (s.wheelFor c).hasTimer c = true)
    (hlock : ∀ h, (s.wheelFor c).timers c = some h → (s.wheelFor c).lock h = none) :
    wp (releaseInLoop user self c) (fun _ s' => Disabled c s s' ∧ New (.release c) s s')
      (fun _ => False) s := by
  rw [releaseInLoop, wp_bind, logEvent, wp_modify, releaseBody, wp_bind, closeConnection, wp_bind]
  have hnew := New.log (.release c) s
  refine wp_imp ((keeps_setStatu c _).after (Kept.refl _)) ?_
  intro _ s1 h1
  rw [wp_bind]
  refine wp_imp ((keeps_removeEvent c).after h1) ?_
  intro _ s2 h2
  rw [wp_bind]
  refine wp_imp ((keeps_socketClose c).after h2) ?_
  intro _ s3 h3
  -- nothing so far has touched the wheel, so the cancel meets the dying task
  have hkept : Kept s s3 := (Kept.log s (.release c)).trans h3
  have hwheel := hkept.wheelFor c
  rw [wp_bind, wp_get, wp_bind, wp_whenever]
  constructor
  · intro _
    have hself3 : self = (s3.conns c).loop := hself.trans (hkept.loop c).symm
    have hlock3 : ∀ h, (s3.wheelFor c).timers c = some h → (s3.wheelFor c).lock h = none := by
      rw [hwheel]
      exact hlock
    refine wp_imp (cancel_expired hself3 hlock3) ?_
    intro _ s4 h4
    have hclosed : Keeps (do
        let s ← get
        whenever (s.conns c).callbacks.closed do
          logEvent (.closed c)
          user (.closed c)) :=
      keeps_get_bind fun _ => (Keeps.bind (keeps_logEvent _) (huser _)).whenever _
    refine wp_imp (hclosed s4) ?_
    intro _ s5 h5
    refine wp_imp (keeps_serverClosedCallback self c s5) ?_
    intro _ s6 h6
    have hafter := h5.trans h6
    exact ⟨(Disabled.after hkept h4).before hafter,
      hnew.before (h3.trace.trans (h4.trace.trans hafter.trace))⟩
  · intro hno
    refine absurd ?_ hno
    show (s3.wheelFor c).hasTimer c = true
    rw [hwheel]
    exact htimer

theorem timerCallback_expired {self : LoopId} {task : TimerTask TimerCb}
    (hcb : task.taskCb = .release c) (hself : self = (s.conns c).loop)
    (htimer : (s.wheelFor c).hasTimer c = true)
    (hlock : ∀ h, (s.wheelFor c).timers c = some h → (s.wheelFor c).lock h = none) :
    wp (timerCallback user self h task) (fun _ s' => Disabled c s s' ∧ New (.release c) s s')
      (fun _ => False) s := by
  have henter : Kept s (s.enter .idleTimer c) :=
    ⟨fun _ => rfl, fun _ => rfl, fun _ => rfl, prefix_append _ _⟩
  unfold timerCallback
  rw [hcb]
  show wp (during .idleTimer c (releaseInLoop user self c)) _ _ s
  rw [during, wp_bind, wp_modify, wp_bind]
  refine wp_imp (releaseInLoop_expired huser (s := s.enter .idleTimer c) hself htimer hlock) ?_
  rintro _ s' ⟨hdisabled, hnew⟩
  have hleave : Kept s' (s'.leave c) :=
    ⟨fun _ => rfl, fun _ => rfl, fun _ => rfl, prefix_rfl⟩
  rw [wp_modify]
  exact ⟨(Disabled.after henter hdisabled).before hleave,
    (New.after henter.trace hnew).before hleave.trace⟩

end steps

/-! ### Enabling, cancelling, activity -/

structure IdleTimers (s : World) : Prop where
  inv : ∀ l, (s.loops l).wheel.Inv
  task : ∀ l, ∀ task ∈ (s.loops l).wheel.tasks,
    task.timeout ≤ capacity ∧ task.taskCb = .release task.id ∧ (s.conns task.id).loop = l

structure Moved (c : ConnId) (s s' : World) : Prop where
  move : TimerWheel.Move c (.release c) (s.wheelFor c) (s'.wheelFor c)
  other : ∀ l, l ≠ (s.conns c).loop → (s'.loops l).wheel = (s.loops l).wheel
  loop : ∀ d, (s'.conns d).loop = (s.conns d).loop
  enabled_ne : ∀ d, d ≠ c → (s'.conns d).enableInactiveRelease = (s.conns d).enableInactiveRelease
  trace : s.trace <+: s'.trace

theorem setWheel_wheel_self (s : World) (l : LoopId) (w : TimerWheel TimerCb) :
    (((wheelHost l).setWheel w s).loops l).wheel = w := (wheelHost l).wheelOf_setWheel w s

theorem setWheel_wheel_ne (s : World) {l' : LoopId} (w : TimerWheel TimerCb) (h : l' ≠ l) :
    (((wheelHost l).setWheel w s).loops l').wheel = (s.loops l').wheel := by
  simp [wheelHost, setLoop, h]

theorem setWheel_wheelFor (s : World) (c : ConnId) (w : TimerWheel TimerCb) :
    ((wheelHost (s.conns c).loop).setWheel w s).wheelFor c = w :=
  (wheelHost (s.conns c).loop).wheelOf_setWheel w s

theorem Moved.before (h : Moved c s s') (h' : Kept s' s'') : Moved c s s'' where
  move := by
    rw [h'.wheelFor c]
    exact h.move
  other := fun l hl => (h'.wheel l).trans (h.other l hl)
  loop := fun d => (h'.loop d).trans (h.loop d)
  enabled_ne := fun d hd => (h'.enabled d).trans (h.enabled_ne d hd)
  trace := h.trace.trans h'.trace

theorem Moved.setWheel {b : Bool} {s1 : World} (h : Flagged c b s s1) {w : TimerWheel TimerCb}
    (hmove : TimerWheel.Move c (.release c) (s.wheelFor c) w) :
    Moved c s ((wheelHost (s1.conns c).loop).setWheel w s1) where
  move := by
    rw [setWheel_wheelFor]
    exact hmove
  other := fun l hl => by
    rw [setWheel_wheel_ne s1 w (by rw [h.loop]; exact hl), h.loops]
  loop := h.loop
  enabled_ne := h.enabled_ne
  trace := by
    show s.trace <+: s1.trace
    exact h.trace ▸ prefix_rfl

theorem timerRefresh_moves (hs : IdleTimers s) (c : ConnId) :
    wp (timerRefresh c) (fun _ s' => ∃ w, TimerWheel.Move c (.release c) (s.wheelFor c) w ∧
        (w.Armed c ↔ (s.wheelFor c).Armed c) ∧
        s' = (wheelHost (s.conns c).loop).setWheel w s)
      (fun _ => False) s := by
  have hinv : (s.wheelFor c).Inv := hs.inv _
  rw [timerRefresh, wp_bind, wp_get, Host.timerRefresh, wp_bind, wp_get]
  have hof : (wheelHost (s.conns c).loop).wheelOf s = s.wheelFor c := rfl
  rw [hof]
  rcases hinv.refresh_spec c with ⟨_, hok⟩ | ⟨h, task, htimer, htask, _, hok⟩
  · rw [hok]
    exact (wp_set _ _ _ _).mpr ⟨_, .stay _, Iff.rfl, rfl⟩
  · have hrange := (hs.task _ task (mem_of_getElem? htask)).1
    rw [hok hrange]
    exact (wp_set _ _ _ _).mpr
      ⟨_, .push _ h _ htimer (Nat.mod_lt _ (Nat.zero_lt_succ _)), Iff.rfl, rfl⟩

theorem enable_moves (hs : IdleTimers s) (c : ConnId) {sec : Nat} (hsec : sec ≤ capacity) :
    wp (enableInactiveReleaseInLoop c sec)
      (fun _ s' => Moved c s s' ∧ ((s.wheelFor c).cancelled c = false → (s'.wheelFor c).Armed c))
      (fun _ => False) s := by
  rw [enableInactiveReleaseInLoop, wp_bind, modifyConn, wp_modify, wp_bind, wp_get, wp_ite]
  have hflag := Flagged.setConn s c true
  generalize s.setConn c { s.conns c with enableInactiveRelease := true } = s1 at *
  have hwheel := hflag.wheelFor c
  have hs1 : IdleTimers s1 := by
    refine ⟨fun l => ?_, fun l => ?_⟩
    · rw [hflag.loops]
      exact hs.inv l
    · rw [hflag.loops]
      intro task htask
      rw [hflag.loop]
      exact hs.task l task htask
  -- `TimerAdd` is called only when `HasTimer` is false
  constructor
  · -- a task is registered: it is refreshed, cancelled or not
    intro htimer
    refine wp_imp (timerRefresh_moves hs1 c) ?_
    rintro _ _ ⟨w, hmove, harmed, rfl⟩
    rw [hwheel] at hmove harmed
    refine ⟨Moved.setWheel hflag hmove, fun hcancelled => ?_⟩
    rw [setWheel_wheelFor, harmed]
    exact armed_of_cancelled (hs.inv _) (hwheel ▸ htimer) hcancelled
  · intro htimer
    have hnone : (s.wheelFor c).timers c = none := by
      rw [← hwheel]
      exact Option.not_isSome_iff_eq_none.mp htimer
    rw [timerAdd, wp_modify]
    show Moved c s ((wheelHost (s1.conns c).loop).setWheel
        ((s1.wheelFor c).timerAddInLoop c sec (.release c)) s1) ∧ _
    rw [hwheel]
    refine ⟨Moved.setWheel hflag (.add _ sec hnone hsec), fun _ => ?_⟩
    show (((wheelHost (s1.conns c).loop).setWheel
        ((s1.wheelFor c).timerAddInLoop c sec (.release c)) s1).wheelFor c).Armed c
    rw [setWheel_wheelFor]
    exact armed_add _ c sec _

theorem cancel_moves (hs : IdleTimers s) (c : ConnId) : wp (cancelInactiveReleaseInLoop c)
      (fun _ s' => Moved c s s' ∧ (s'.conns c).enableInactiveRelease = false)
      (fun _ => False) s := by
  rw [cancelInactiveReleaseInLoop, wp_bind, modifyConn, wp_modify, wp_bind, wp_get, wp_whenever]
  have hflag := Flagged.setConn s c false
  generalize s.setConn c { s.conns c with enableInactiveRelease := false } = s1 at *
  have hwheel := hflag.wheelFor c
  constructor
  · intro _
    rw [timerCancel, wp_modify]
    show Moved c s ((wheelHost (s1.conns c).loop).setWheel
      ((s1.wheelFor c).timerCancelInLoop c) s1) ∧ (s1.conns c).enableInactiveRelease = false
    rw [hwheel]
    refine ⟨Moved.setWheel hflag ?_, hflag.enabled⟩
    rcases (hs.inv (s.conns c).loop).cancel_spec c with ⟨_, hsame⟩ | ⟨h, htimer, hcancel⟩
    · exact (congrArg (TimerWheel.Move c (.release c) (s.wheelFor c)) hsame).mpr (.stay _)
    · exact (congrArg (TimerWheel.Move c (.release c) (s.wheelFor c)) hcancel).mpr
        (.cancel _ h htimer)
  · intro _
    refine ⟨⟨?_, fun l _ => by rw [hflag.loops], hflag.loop, hflag.enabled_ne, ?_⟩, hflag.enabled⟩
    · rw [hwheel]
      exact .stay _
    · exact hflag.trace ▸ prefix_rfl

theorem activity_moves (huser : ∀ uc, Keeps (user uc)) (hs : IdleTimers s) (c : ConnId) :
    wp (handleEvent user c)
      (fun _ s' => Moved c s s' ∧
        (s'.conns c).enableInactiveRelease = (s.conns c).enableInactiveRelease ∧
        ((s'.wheelFor c).Armed c ↔ (s.wheelFor c).Armed c))
      (fun _ => False) s := by
  have hevent : Keeps (do
      let s ← get
      whenever (s.conns c).callbacks.event (user (.event c))) :=
    keeps_get_bind fun _ => (huser _).whenever _
  have hflag : Flagged c (s.conns c).enableInactiveRelease s s :=
    ⟨rfl, fun _ => rfl, fun _ _ => rfl, rfl, rfl⟩
  rw [handleEvent, wp_bind, wp_get, wp_bind, wp_whenever]
  constructor
  · intro _
    refine wp_imp (timerRefresh_moves hs c) ?_
    rintro _ _ ⟨w, hmove, harmed, rfl⟩
    refine wp_imp (hevent _) (fun _ s' hkept => ?_)
    refine ⟨(Moved.setWheel hflag hmove).before hkept, hkept.enabled c, ?_⟩
    rw [hkept.wheelFor c, setWheel_wheelFor]
    exact harmed
  · intro _
    refine wp_imp (hevent s) (fun _ s' hkept => ?_)
    refine ⟨⟨?_, fun l _ => hkept.wheel l, hkept.loop, fun d _ => hkept.enabled d, hkept.trace⟩,
      hkept.enabled c, ?_⟩
    · rw [hkept.wheelFor c]
      exact .stay _
    · rw [hkept.wheelFor c]

/-! ### Ticks -/

structure Destroyed (l : LoopId) (task : TimerTask TimerCb) (s s' : World) : Prop where
  wheel : (s'.loops l).wheel = (s.loops l).wheel.remove task.id
  other : ∀ l', l' ≠ l → (s'.loops l').wheel = (s.loops l').wheel
  loop : ∀ d, (s'.conns d).loop = (s.conns d).loop
  enabled_ne : ∀ d, d ≠ task.id →
    (s'.conns d).enableInactiveRelease = (s.conns d).enableInactiveRelease
  enabled : task.cancel = true →
    (s'.conns task.id).enableInactiveRelease = (s.conns task.id).enableInactiveRelease
  released : task.cancel = false →
    (s'.conns task.id).enableInactiveRelease = false ∧ New (.release task.id) s s'
  trace : s.trace <+: s'.trace

inductive Dropped (l : LoopId) (p : Nat) (h : Handle) (rest : List Handle) (s : World) :
    World → Prop where
  | held : ((s.loops l).wheel.setSlot p rest).Held h →
      Dropped l p h rest s ((wheelHost l).setWheel ((s.loops l).wheel.setSlot p rest) s)
  | last (task s') : ¬ ((s.loops l).wheel.setSlot p rest).Held h →
      (s.loops l).wheel.tasks[h]? = some task →
      Destroyed l task ((wheelHost l).setWheel ((s.loops l).wheel.setSlot p rest) s) s' →
      Dropped l p h rest s s'

section tick

variable {user : UserCode → Code} (huser : ∀ uc, Keeps (user uc))

include huser

theorem destroy_destroys {task : TimerTask TimerCb}
    (htask : (s.loops l).wheel.tasks[h]? = some task) (hcb : task.taskCb = .release task.id)
    (hloop : (s.conns task.id).loop = l) (htimer : (s.loops l).wheel.timers task.id = some h)
    (hheld : ¬ (s.loops l).wheel.Held h) :
    wp ((wheelHost l).destroy (timerCallback user l) h) (fun _ s' => Destroyed l task s s')
      (fun _ => False) s := by
  have hof : (wheelHost l).wheelOf s = (s.loops l).wheel := rfl
  have hfor : s.wheelFor task.id = (s.loops l).wheel := by
    rw [wheelFor, hloop]
  have hremove : ∀ s1 : World, (((wheelHost l).update (·.remove task.id) s1).loops l).wheel =
      (s1.loops l).wheel.remove task.id := fun s1 => (wheelHost l).wheelOf_setWheel _ s1
  rw [Host.destroy, wp_bind, wp_get, hof, htask]
  dsimp only
  rw [wp_bind, wp_whenever]
  -- the task of a timer that was not cancelled runs; `RemoveTimer` comes after it
  constructor
  · intro hcancel
    have hreg : (s.wheelFor task.id).timers task.id = some h := by
      rw [hfor]
      exact htimer
    refine wp_imp (timerCallback_expired huser hcb hloop.symm ?_ ?_) ?_
    · rw [TimerWheel.hasTimer, hreg]
      rfl
    · intro h' hh'
      cases hreg.symm.trans hh'
      rw [hfor]
      exact lock_eq_none hheld
    · rintro _ s1 ⟨hdisabled, hnew⟩
      rw [wp_modify]
      refine ⟨?_, fun l' hl => ?_, hdisabled.loop, hdisabled.enabled_ne, ?_, ?_, hdisabled.trace⟩
      · rw [hremove, hdisabled.wheel]
      · exact (setWheel_wheel_ne s1 _ hl).trans (hdisabled.wheel l')
      · intro htrue
        rw [hcancel] at htrue
        cases htrue
      · exact fun _ => ⟨hdisabled.disabled, hnew⟩
  · intro hcancel
    rw [wp_modify]
    exact ⟨hremove s, fun l' hl => setWheel_wheel_ne s _ hl, fun _ => rfl, fun _ _ => rfl,
      fun _ => rfl, fun hfalse => absurd hfalse hcancel, prefix_rfl⟩

theorem dropFront_drops (hs : IdleTimers s) (hslot : (s.loops l).wheel.wheel p = h :: rest) :
    wp ((wheelHost l).dropFront (timerCallback user l) p h rest)
      (fun _ s' => Dropped l p h rest s s') (fun _ => False) s := by
  have hmem : h ∈ (s.loops l).wheel.wheel p := by
    rw [hslot]
    exact mem_cons_self
  obtain ⟨task, htask, htimer⟩ := (hs.inv l).registered p h hmem
  obtain ⟨_, hcb, hloop⟩ := hs.task l task (mem_of_getElem? htask)
  have hwheel := setWheel_wheel_self s l ((s.loops l).wheel.setSlot p rest)
  have hupdate : (wheelHost l).update (·.setSlot p rest) s =
      (wheelHost l).setWheel ((s.loops l).wheel.setSlot p rest) s := rfl
  rw [Host.dropFront, wp_bind, wp_modify, wp_bind, wp_get, wp_whenever, hupdate]
  rw [(wheelHost l).wheelOf_setWheel]
  constructor
  · intro hzero
    have hheld := useCount_eq_zero.mp hzero
    refine wp_imp (destroy_destroys huser ?_ hcb hloop ?_ ?_) ?_
    · rw [hwheel]
      exact htask
    · rw [hwheel]
      exact htimer
    · rw [hwheel]
      exact hheld
    · exact fun _ s' hdestroyed => .last task s' hheld htask hdestroyed
  · intro hpos
    exact .held (not_not.mp fun hno => hpos (useCount_eq_zero.mpr hno))

end tick

/-! ## The timers are idle timers -/

theorem initial_idleTimers (cfg : Config) : IdleTimers (World.initial cfg) := by
  have hempty : ∀ l, ((initial cfg).loops l).wheel = empty TimerCb := by
    intro l
    show (if l = baseLoop then _ else _ : Loop).wheel = _
    split <;> rfl
  refine ⟨fun l => ?_, fun l task htask => ?_⟩
  · rw [hempty]
    exact empty_inv
  · rw [hempty] at htask
    cases htask

theorem IdleTimers.of_wheel (hs : IdleTimers s)
    (hother : ∀ l', l' ≠ l → (s'.loops l').wheel = (s.loops l').wheel)
    (hloop : ∀ d, (s'.conns d).loop = (s.conns d).loop) (hinv : (s'.loops l).wheel.Inv)
    (htasks : ∀ task ∈ (s'.loops l).wheel.tasks,
      task.timeout ≤ capacity ∧ task.taskCb = .release task.id ∧ (s.conns task.id).loop = l) :
    IdleTimers s' := by
  refine ⟨fun l' => ?_, fun l' task htask => ?_⟩
  · by_cases hl : l' = l
    · exact hl ▸ hinv
    · rw [hother l' hl]
      exact hs.inv l'
  · rw [hloop]
    by_cases hl : l' = l
    · subst hl
      exact htasks task htask
    · rw [hother l' hl] at htask
      exact hs.task l' task htask

theorem IdleTimers.moved (hs : IdleTimers s) (h : Moved c s s') : IdleTimers s' := by
  have hself : (s'.loops (s.conns c).loop).wheel = s'.wheelFor c := by
    rw [wheelFor, h.loop]
  refine hs.of_wheel h.other h.loop ?_ fun task htask => ?_
  · rw [hself]
    exact h.move.inv (hs.inv _)
  · -- a task of the wheel is an old one, cancelled perhaps, or the new one of `c`
    rw [hself] at htask
    rcases h.move.mem_tasks htask with ⟨task0, hmem, hid, htimeout, hcb⟩ | ⟨hid, htimeout, hcb⟩
    · rw [hid, htimeout, hcb]
      exact hs.task _ task0 hmem
    · rw [hid, hcb]
      exact ⟨htimeout, rfl, rfl⟩

theorem IdleTimers.dropped (hs : IdleTimers s) (hslot : (s.loops l).wheel.wheel p = h :: rest)
    (hdrop : Dropped l p h rest s s') : IdleTimers s' := by
  have hwheel := setWheel_wheel_self s l ((s.loops l).wheel.setSlot p rest)
  cases hdrop with
  | held hheld =>
    refine hs.of_wheel (fun l' hl => setWheel_wheel_ne s _ hl) (fun _ => rfl) ?_ ?_
    · rw [hwheel]
      exact (hs.inv l).drop_held hslot hheld
    · rw [hwheel]
      exact hs.task l
  | last task _ hheld htask hdestroyed =>
    have hother : ∀ l', l' ≠ l → (s'.loops l').wheel = (s.loops l').wheel :=
      fun l' hl => (hdestroyed.other l' hl).trans (setWheel_wheel_ne s _ hl)
    refine hs.of_wheel hother hdestroyed.loop ?_ ?_
    · rw [hdestroyed.wheel, hwheel]
      exact (hs.inv l).drop_last hslot htask hheld
    · rw [hdestroyed.wheel, hwheel]
      exact hs.task l

theorem Dropped.slot (hdrop : Dropped l p h rest s s') :
    (s'.loops l).wheel.tick = (s.loops l).wheel.tick ∧ (s'.loops l).wheel.wheel p = rest := by
  have hwheel := setWheel_wheel_self s l ((s.loops l).wheel.setSlot p rest)
  cases hdrop with
  | held _ =>
    rw [hwheel]
    exact ⟨rfl, setSlot_wheel_self _ _ _⟩
  | last task _ _ _ hdestroyed =>
    rw [hdestroyed.wheel, hwheel]
    exact ⟨rfl, setSlot_wheel_self _ _ _⟩

theorem IdleTimers.advance (hs : IdleTimers s) (l : LoopId) :
    IdleTimers ((wheelHost l).update (·.advance) s) := by
  have hwheel : (((wheelHost l).update (·.advance) s).loops l).wheel =
      (s.loops l).wheel.advance := setWheel_wheel_self s l _
  refine hs.of_wheel (fun l' hl => setWheel_wheel_ne s _ hl) (fun _ => rfl) ?_ ?_
  · rw [hwheel]
    exact (hs.inv l).advance
  · rw [hwheel]
    exact hs.task l

theorem wp_onTime (huser : ∀ uc, Keeps (user uc)) (J : World → Prop)
    (hdrop : ∀ s s' h rest, IdleTimers s →
      (s.loops l).wheel.wheel (s.loops l).wheel.tick = h :: rest →
      Dropped l (s.loops l).wheel.tick h rest s s' → J s → J s') (hs : IdleTimers s)
    (hJ : J ((wheelHost l).update (·.advance) s)) :
    wp (onTime user l)
      (fun _ s' => IdleTimers s' ∧ J s' ∧ (s'.loops l).wheel.wheel (s'.loops l).wheel.tick = [])
      (fun _ => False) s := by
  rw [onTime, Host.runTimerTask, wp_bind, wp_modify, wp_bind, wp_get]
  have hs1 := hs.advance l
  generalize (wheelHost l).update (·.advance) s = s1 at *
  have hof : (wheelHost l).wheelOf s1 = (s1.loops l).wheel := rfl
  rw [hof]
  generalize hp : (s1.loops l).wheel.tick = p
  -- the invariant of the loop over the slot: what is left of it
  refine wp_imp (Host.wp_clearSlot (fun rest s' => IdleTimers s' ∧ J s' ∧
    (s'.loops l).wheel.tick = p ∧ (s'.loops l).wheel.wheel p = rest) _ ?_ _ s1
    ⟨hs1, hJ, hp, rfl⟩) ?_
  · rintro h rest s2 ⟨hs2, hJ2, rfl, hslot⟩
    refine wp_imp (dropFront_drops huser hs2 hslot) ?_
    intro _ s3 hdropped
    exact ⟨hs2.dropped hslot hdropped, hdrop s2 s3 h rest hs2 hslot hdropped hJ2,
      hdropped.slot.1, hdropped.slot.2⟩
  · rintro _ s' ⟨hs', hJ', rfl, hslot⟩
    exact ⟨hs', hJ', hslot⟩

/-! ## Enabled connections stay armed -/

def AllArmed (s : World) : Prop :=
  ∀ c, (s.conns c).enableInactiveRelease = true → (s.wheelFor c).Armed c

section dropped

variable {l : LoopId} {p : Nat} {h : Handle} {rest : List Handle} {s s' : World}

variable (hdrop : Dropped l p h rest s s')

include hdrop

theorem Dropped.loop (c : ConnId) : (s'.conns c).loop = (s.conns c).loop := by
  cases hdrop with
  | held _ => rfl
  | last _ _ _ _ hdestroyed => exact hdestroyed.loop c

theorem Dropped.trace : s.trace <+: s'.trace := by
  cases hdrop with
  | held _ => exact prefix_rfl
  | last _ _ _ _ hdestroyed => exact hdestroyed.trace

theorem Dropped.wheelFor_ne (hc : (s.conns c).loop ≠ l) : s'.wheelFor c = s.wheelFor c := by
  rw [wheelFor, hdrop.loop]
  cases hdrop with
  | held _ => exact setWheel_wheel_ne s _ hc
  | last _ _ _ _ hdestroyed => exact (hdestroyed.other _ hc).trans (setWheel_wheel_ne s _ hc)

theorem Dropped.enabled_of_enabled (hc : (s'.conns c).enableInactiveRelease = true) :
    (s.conns c).enableInactiveRelease = true := by
  cases hdrop with
  | held _ => exact hc
  | last task _ _ _ hdestroyed =>
    by_cases hid : c = task.id
    · subst hid
      cases hcancel : task.cancel with
      | true => exact (hdestroyed.enabled hcancel).symm.trans hc
      | false =>
        rw [(hdestroyed.released hcancel).1] at hc
        cases hc
    · exact (hdestroyed.enabled_ne c hid).symm.trans hc

theorem Dropped.armed (hs : IdleTimers s) (hslot : (s.loops l).wheel.wheel p = h :: rest)
    (harmed : (s.wheelFor c).Armed c) :
    ((s'.conns c).enableInactiveRelease = false ∧ New (.release c) s s') ∨
    ((s'.wheelFor c).Armed c ∧ ∀ lo hi, (s.wheelFor c).DueBy c lo hi →
      (s'.wheelFor c).DueBy c lo hi) := by
  by_cases hc : (s.conns c).loop = l
  · have hfor : s.wheelFor c = (s.loops l).wheel := by
      rw [wheelFor, hc]
    have hfor' : s'.wheelFor c = (s'.loops l).wheel := by
      rw [wheelFor, hdrop.loop, hc]
    have hwheel := setWheel_wheel_self s l ((s.loops l).wheel.setSlot p rest)
    rw [hfor] at harmed
    rw [hfor', hfor]
    cases hdrop with
    | held _ =>
      rw [hwheel]
      exact Or.inr ⟨harmed, fun lo hi hdue => hdue.setSlot_tail hslot⟩
    | last task _ _ htask hdestroyed =>
      by_cases hid : c = task.id
      · subst hid
        have hmem : h ∈ (s.loops l).wheel.wheel p := by
          rw [hslot]
          exact mem_cons_self
        have hcancel := harmed.cancel_eq (hs.inv l) hmem htask
        exact Or.inl (hdestroyed.released hcancel)
      · rw [hdestroyed.wheel, hwheel]
        have hkept : ((s.loops l).wheel.setSlot p rest).Armed c := harmed
        exact Or.inr ⟨hkept.remove hid, fun lo hi hdue => (hdue.setSlot_tail hslot).remove⟩
  · rw [hdrop.wheelFor_ne hc]
    exact Or.inr ⟨harmed, fun _ _ hdue => hdue⟩

end dropped

theorem AllArmed.dropped (ha : AllArmed s) (hs : IdleTimers s)
    (hslot : (s.loops l).wheel.wheel p = h :: rest) (hdrop : Dropped l p h rest s s') :
    AllArmed s' := by
  intro c hc
  rcases hdrop.armed hs hslot (ha c (hdrop.enabled_of_enabled hc)) with ⟨hoff, _⟩ | ⟨harmed, _⟩
  · rw [hoff] at hc
    cases hc
  · exact harmed

theorem Moved.move_wheelFor (h : Moved c s s') (d : ConnId) :
    TimerWheel.Move c (.release c) (s.wheelFor d) (s'.wheelFor d) := by
  by_cases hd : (s.conns d).loop = (s.conns c).loop
  · have hfor : s.wheelFor d = s.wheelFor c := by
      rw [wheelFor, hd]
      rfl
    have hfor' : s'.wheelFor d = s'.wheelFor c := by
      rw [wheelFor, h.loop, hd, ← h.loop c]
      rfl
    rw [hfor, hfor']
    exact h.move
  · have hsame : s'.wheelFor d = s.wheelFor d := by
      rw [wheelFor, h.loop]
      exact h.other _ hd
    rw [hsame]
    exact .stay _

theorem AllArmed.moved (ha : AllArmed s) (hs : IdleTimers s) (h : Moved c s s')
    (hself : (s'.conns c).enableInactiveRelease = true → (s'.wheelFor c).Armed c) :
    AllArmed s' := by
  intro d hd
  by_cases hne : d = c
  · subst hne
    exact hself hd
  · rw [h.enabled_ne d hne] at hd
    exact (h.move_wheelFor d).armed_ne (hs.inv _) hne (ha d hd)

theorem update_wheelFor (l : LoopId) (f : TimerWheel TimerCb → TimerWheel TimerCb) (s : World)
    (c : ConnId) : ((wheelHost l).update f s).wheelFor c =
      if (s.conns c).loop = l then f (s.wheelFor c) else s.wheelFor c := by
  by_cases hl : (s.conns c).loop = l
  · subst hl
    rw [if_pos rfl]
    exact setWheel_wheelFor s c _
  · rw [if_neg hl]
    exact setWheel_wheel_ne s _ hl

theorem AllArmed.advance (ha : AllArmed s) (l : LoopId) :
    AllArmed ((wheelHost l).update (·.advance) s) := by
  intro c hc
  rw [update_wheelFor]
  split
  · exact ha c hc
  · exact ha c hc

theorem step_armed (huser : ∀ uc, Keeps (user uc)) {step : IdleStep}
    (hstep : (step.inRange && step.uncancelled s) = true) (hs : IdleTimers s) (ha : AllArmed s) :
    wp (step.exec user) (fun _ s' => IdleTimers s' ∧ AllArmed s') (fun _ => False) s := by
  obtain ⟨hrange, hfresh⟩ := Bool.and_eq_true_iff.mp hstep
  cases step with
  | enable c sec =>
    refine wp_imp (enable_moves hs c (of_decide_eq_true hrange)) ?_
    rintro _ s' ⟨hmoved, harmed⟩
    have hcancelled : (s.wheelFor c).cancelled c = false := by
      simpa [IdleStep.uncancelled] using hfresh
    exact ⟨hs.moved hmoved, ha.moved hs hmoved fun _ => harmed hcancelled⟩
  | cancel c =>
    refine wp_imp (cancel_moves hs c) ?_
    rintro _ s' ⟨hmoved, hoff⟩
    refine ⟨hs.moved hmoved, ha.moved hs hmoved fun hon => ?_⟩
    rw [hoff] at hon
    cases hon
  | activity c =>
    refine wp_imp (activity_moves huser hs c) ?_
    rintro _ s' ⟨hmoved, hflag, harmed⟩
    refine ⟨hs.moved hmoved, ha.moved hs hmoved fun hon => harmed.mpr (ha c ?_)⟩
    rw [← hflag]
    exact hon
  | tick l =>
    refine wp_imp (wp_onTime huser AllArmed ?_ hs (ha.advance l)) ?_
    · intro s1 s2 h rest hs1 hslot hdrop ha1
      exact ha1.dropped hs1 hslot hdrop
    · rintro _ s' ⟨hs', ha', _⟩
      exact ⟨hs', ha'⟩

/-! ## An armed connection is released -/

def Pending (s0 : World) (c : ConnId) (lo n : Nat) (s : World) : Prop :=
  New (.release c) s0 s ∨
    (s0.trace <+: s.trace ∧ (s.wheelFor c).Armed c ∧ (s.wheelFor c).DueBy c lo n)

theorem Pending.dropped {lo : Nat} (hp : Pending s0 c lo n s) (hs : IdleTimers s)
    (hslot : (s.loops l).wheel.wheel p = h :: rest) (hdrop : Dropped l p h rest s s') :
    Pending s0 c lo n s' := by
  rcases hp with hnew | ⟨hgrows, harmed, hdue⟩
  · exact Or.inl (hnew.before hdrop.trace)
  · rcases hdrop.armed hs hslot harmed with ⟨_, hnew⟩ | ⟨harmed', hdue'⟩
    · exact Or.inl (New.after hgrows hnew)
    · exact Or.inr ⟨hgrows.trans hdrop.trace, harmed', hdue' lo n hdue⟩

theorem Pending.moved {d : ConnId} (hp : Pending s0 c 1 n s) (hs : IdleTimers s) (hne : c ≠ d)
    (h : Moved d s s') : Pending s0 c 1 n s' := by
  rcases hp with hnew | ⟨hgrows, harmed, hdue⟩
  · exact Or.inl (hnew.before h.trace)
  · have hmove := h.move_wheelFor c
    exact Or.inr ⟨hgrows.trans h.trace, hmove.armed_ne (hs.inv _) hne harmed,
      hmove.dueBy_ne (hs.inv _) hne hdue⟩

section

variable (huser : ∀ uc, Keeps (user uc)) (hs : IdleTimers s) (hp : Pending s0 c 1 n s)

include huser hs hp

theorem tick_pending {lo' n' : Nat} {w : TimerWheel TimerCb}
    (hw : ((wheelHost l).update (·.advance) s).wheelFor c = w)
    (harmed : (s.wheelFor c).Armed c → w.Armed c)
    (hdue : (s.wheelFor c).DueBy c 1 n → w.DueBy c lo' n') :
    wp (onTime user l) (fun _ s' => IdleTimers s' ∧ (s'.conns c).loop = (s.conns c).loop ∧
      Pending s0 c lo' n' s' ∧ (s'.loops l).wheel.wheel (s'.loops l).wheel.tick = [])
      (fun _ => False) s := by
  subst hw
  refine wp_imp (wp_onTime huser
    (fun s' => (s'.conns c).loop = (s.conns c).loop ∧ Pending s0 c lo' n' s') ?_ hs
    ⟨rfl, hp.imp_right fun ⟨hgrows, ha, hd⟩ => ⟨hgrows, harmed ha, hdue hd⟩⟩) ?_
  · rintro s1 s2 h rest hs1 hslot hdrop ⟨hloop, hp1⟩
    exact ⟨(hdrop.loop c).trans hloop, hp1.dropped hs1 hslot hdrop⟩
  · rintro _ s' ⟨hs', ⟨hloop, hp'⟩, hslot⟩
    exact ⟨hs', hloop, hp', hslot⟩

theorem tick_pending_ne (hl : (s.conns c).loop ≠ l) :
    wp (onTime user l) (fun _ s' => IdleTimers s' ∧ (s'.conns c).loop = (s.conns c).loop ∧
      Pending s0 c 1 n s') (fun _ => False) s := by
  have hfor : ((wheelHost l).update (·.advance) s).wheelFor c = s.wheelFor c := by
    rw [update_wheelFor, if_neg hl]
  refine wp_imp (tick_pending huser hs hp hfor id id) ?_
  rintro _ s' ⟨hs', hloop, hp', _⟩
  exact ⟨hs', hloop, hp'⟩

theorem tick_pending_self (hl : (s.conns c).loop = l) :
    wp (onTime user l) (fun _ s' => IdleTimers s' ∧ (s'.conns c).loop = (s.conns c).loop ∧
      Pending s0 c 1 (n - 1) s') (fun _ => False) s := by
  have hadvance : ((wheelHost l).update (·.advance) s).wheelFor c = (s.wheelFor c).advance := by
    rw [update_wheelFor, if_pos hl]
  refine wp_imp (tick_pending huser hs hp hadvance id fun hdue => hdue.advance) ?_
  rintro _ s' ⟨hs', hloop, hp', hslot⟩
  refine ⟨hs', hloop, hp'.imp_right fun ⟨hgrows, harmed, hdue⟩ => ⟨hgrows, harmed, ?_⟩⟩
  -- the slot of the tick is empty now, so what is due is due later
  have hfor : s'.wheelFor c = (s'.loops l).wheel := by
    rw [wheelFor, hloop, hl]
  rw [hfor] at hdue ⊢
  exact hdue.tick_done (hs'.inv l) hslot

end

theorem step_pending (huser : ∀ uc, Keeps (user uc)) {step : IdleStep}
    (hrange : step.inRange = true) (hne : step.conn? ≠ some c) (hs : IdleTimers s)
    (hp : Pending s0 c 1 n s) :
    wp (step.exec user) (fun _ s' => IdleTimers s' ∧ (s'.conns c).loop = (s.conns c).loop ∧
        Pending s0 c 1 (n - if step = .tick (s.conns c).loop then 1 else 0) s')
      (fun _ => False) s := by
  cases step with
  | enable d sec =>
    refine wp_imp (enable_moves hs d (of_decide_eq_true hrange)) ?_
    rintro _ s' ⟨hmoved, _⟩
    exact ⟨hs.moved hmoved, hmoved.loop c, hp.moved hs (fun h => hne (congrArg some h.symm)) hmoved⟩
  | cancel d =>
    refine wp_imp (cancel_moves hs d) ?_
    rintro _ s' ⟨hmoved, _⟩
    exact ⟨hs.moved hmoved, hmoved.loop c, hp.moved hs (fun h => hne (congrArg some h.symm)) hmoved⟩
  | activity d =>
    refine wp_imp (activity_moves huser hs d) ?_
    rintro _ s' ⟨hmoved, _, _⟩
    exact ⟨hs.moved hmoved, hmoved.loop c, hp.moved hs (fun h => hne (congrArg some h.symm)) hmoved⟩
  | tick l =>
    by_cases hl : (s.conns c).loop = l
    · rw [if_pos (congrArg IdleStep.tick hl.symm)]
      exact tick_pending_self huser hs hp hl
    · rw [if_neg fun h => hl (IdleStep.tick.inj h).symm]
      exact tick_pending_ne huser hs hp hl

theorem run_pending (huser : ∀ uc, Keeps (user uc)) :
    ∀ (steps : List IdleStep) (n : Nat) (s : World),
    (∀ step ∈ steps, step.inRange = true ∧ step.conn? ≠ some c) → IdleTimers s →
    (s.conns c).loop = l → Pending s0 c 1 n s →
    wp (runAll (IdleStep.exec user) steps)
      (fun _ s' => IdleTimers s' ∧ Pending s0 c 1 (n - steps.count (.tick l)) s')
      (fun _ => False) s := by
  intro steps
  induction steps with
  | nil =>
    intro n s _ hs _ hp
    rw [runAll, wp_pure]
    exact ⟨hs, hp⟩
  | cons step steps ih =>
    intro n s hsteps hs hl hp
    obtain ⟨hrange, hne⟩ := hsteps step mem_cons_self
    rw [runAll, wp_bind]
    refine wp_imp (step_pending huser hrange hne hs hp) ?_
    rintro _ s' ⟨hs', hloop, hp'⟩
    rw [hl] at hloop hp'
    have hrest := ih _ s' (fun step' hmem => hsteps step' (mem_cons_of_mem step hmem)) hs' hloop hp'
    rw [Nat.sub_sub, Nat.add_comm] at hrest
    rw [count_cons]
    simpa only [beq_iff_eq] using hrest

def WillRelease (user : UserCode → Code) (c : ConnId) (s : World) : Prop :=
  ∀ steps : List IdleStep, (∀ step ∈ steps, step.inRange = true ∧ step.conn? ≠ some c) →
    60 ≤ steps.count (.tick (s.conns c).loop) →
    returns (runAll (IdleStep.exec user) steps) s = true ∧
      New (.release c) s (stateAfter (runAll (IdleStep.exec user) steps) s)

theorem willRelease_of_armed (huser : ∀ uc, Keeps (user uc)) (hs : IdleTimers s)
    (harmed : (s.wheelFor c).Armed c) : WillRelease user c s := by
  intro steps hsteps hcount
  have hp : Pending s c 1 capacity s :=
    Or.inr ⟨prefix_rfl, harmed, (hs.inv _).dueBy c⟩
  obtain ⟨a, s', hrun, hs', hp'⟩ := exists_of_wp (run_pending huser steps capacity s hsteps hs rfl hp)
  have hreturns : returns (runAll (IdleStep.exec user) steps) s = true := by
    rw [returns, hrun]
  have hstate : stateAfter (runAll (IdleStep.exec user) steps) s = s' := by
    rw [stateAfter, hrun]
  refine ⟨hreturns, ?_⟩
  rw [hstate]
  rcases hp' with hnew | ⟨_, harmed', hdue⟩
  · exact hnew
  · -- the last pointer would have to lie 0 slots ahead
    have hpos := hdue.pos (hs'.inv _) harmed'
    unfold capacity at hpos
    omega

/-- **Idle release stays armed**, in every run in which no enable meets a
    cancelled task of its connection. -/
theorem idle_release_armed (cfg : Config) (user : UserCode → Code)
    (huser : ∀ uc, Keeps (user uc)) (steps : List IdleStep)
    (hsteps : Along (IdleStep.exec user)
      (fun s step => (step.inRange && step.uncancelled s) = true) steps (World.initial cfg))
    (c : ConnId)
    (hon : ((afterIdle cfg user steps).conns c).enableInactiveRelease = true) :
    ∃ h task, ((afterIdle cfg user steps).wheelFor c).timers c = some h ∧
      ((afterIdle cfg user steps).wheelFor c).tasks[h]? = some task ∧ task.cancel = false ∧
      WillRelease user c (afterIdle cfg user steps) := by
  have hrun := wp_runAll_along (fun step s hstep h => step_armed huser hstep h.1 h.2) steps
    (World.initial cfg) hsteps ⟨initial_idleTimers cfg, fun c hc => by cases hc⟩
  obtain ⟨hs, ha⟩ := stateAfter_of_wp (wp_mono hrun (fun _ _ h => h) (fun _ h => h.elim))
  have harmed := ha c hon
  obtain ⟨h, task, htimer, htask, hcancel⟩ := id harmed
  exact ⟨h, task, htimer, htask, hcancel, willRelease_of_armed huser hs harmed⟩

theorem keeps_pure : Keeps (pure ()) := fun s => (wp_pure () _ _ s).mpr (Kept.refl s)

/-- Enabled again after the cancelled timer has run out. -/
theorem idle_release_armed_again : ∃ h task, ((afterIdle .single (fun _ => pure ())
        [.enable 1 1, .cancel 1, .tick 0, .enable 1 2, .activity 1]).wheelFor 1).timers 1 = some h ∧
      ((afterIdle .single (fun _ => pure ())
        [.enable 1 1, .cancel 1, .tick 0, .enable 1 2, .activity 1]).wheelFor 1).tasks[h]? =
          some task ∧ task.cancel = false ∧
      WillRelease (fun _ => pure ()) 1 (afterIdle .single (fun _ => pure ())
        [.enable 1 1, .cancel 1, .tick 0, .enable 1 2, .activity 1]) :=
  idle_release_armed .single (fun _ => pure ()) (fun _ => keeps_pure) _ (by decide +kernel) 1
    (by decide +kernel)

/-- Enabled again while the cancelled timer is still registered: the enable
    refreshes it, and it stays cancelled. -/
theorem idle_release_disarmed : ((afterIdle .single (fun _ => pure ())
      [.enable 1 10, .cancel 1, .enable 1 10]).conns 1).enableInactiveRelease = true ∧
    Event.release 1 ∉ (afterIdle .single (fun _ => pure ())
      [.enable 1 10, .cancel 1, .enable 1 10]).trace ∧
    Event.release 1 ∉ (afterIdle .single (fun _ => pure ())
      ([.enable 1 10, .cancel 1, .enable 1 10] ++ List.replicate 60 (.tick 0))).trace ∧
    ¬ ((afterIdle .single (fun _ => pure ())
      [.enable 1 10, .cancel 1, .enable 1 10]).wheelFor 1).Armed 1 := by
  refine ⟨by decide +kernel, by decide +kernel, by decide +kernel, ?_⟩
  rintro ⟨h, task, htimer, htask, hcancel⟩
  have hcancelled : ((afterIdle .single (fun _ => pure ())
      [.enable 1 10, .cancel 1, .enable 1 10]).wheelFor 1).cancelled 1 = true := by
    decide +kernel
  rw [cancelled, htimer, Option.bind_some, htask, Option.any_some, hcancel] at hcancelled
  cases hcancelled

end CallLesson.Reactor
