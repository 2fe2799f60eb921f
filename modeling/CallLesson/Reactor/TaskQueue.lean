import CallLesson.Framework.System

/-! # The task pool of an event loop

    `EventLoop` of `Reactor_http/source/server.hpp`: the vector `_tasks`
    behind `_mutex`, the eventfd that is to end a blocked `epoll_wait`, and
    the three-part cycle of `Start` (poll, handle the active channels,
    `RunAllTask`).

    Any number of threads call `QueueInLoop` while the loop thread cycles.
    Each critical section and each system call is one atomic step. -/

namespace CallLesson.Reactor.TaskQueue

/-! ## Model -/

inductive Act (Fn : Type) where
  | queueInLoop (f : Fn)
  | runInLoop (f : Fn)
  deriving DecidableEq

inductive LoopPc (Fn : Type) where
  /-- About to block in `epoll_wait`. -/
  | poll
  /-- Walking the active channels; the flag says that the eventfd's channel
      is active and has not been handled yet. -/
  | handle (eventfd : Bool)
  /-- Inside `RunAllTask`, with the rest of the local vector `functor`. -/
  | run (functor : List Fn)
  deriving DecidableEq

structure State (Fn : Type) where
  /-- The shared vector `_tasks`. -/
  tasks : List Fn
  /-- The kernel's counter of the eventfd. -/
  counter : Nat
  /-- Threads that have pushed and not yet executed `WeakUpdateFd`. -/
  inCall : List Nat
  pc : LoopPc Fn
  /-- The calls still to come of the code the loop thread is executing. -/
  code : List (Act Fn)
  /-- The loop thread itself is between the two steps of `QueueInLoop`. -/
  loopInCall : Bool
  /-- Every functor pushed so far, in the order the pushes took `_mutex`. -/
  pushed : List Fn
  /-- Every functor `RunAllTask` has called so far. -/
  executed : List Fn
  deriving DecidableEq

/-- The steps of the threads and of the loop thread. -/
inductive Label (Fn : Type) where
  /-- Thread `t` in `QueueInLoop(f)`: `_tasks.push_back` under the mutex. -/
  | push (t : Nat) (f : Fn)
  /-- Its `WeakUpdateFd`. -/
  | wake (t : Nat)
  /-- `epoll_wait` returns, with the eventfd's channel active or not. -/
  | pollReturn (eventfd : Bool)
  | readEventFd
  /-- A handler, which makes these calls. -/
  | handler (acts : List (Act Fn))
  /-- The next call of the handler or functor that is executed. -/
  | act
  /-- `WeakUpdateFd` of the loop thread's own `QueueInLoop`. -/
  | loopWake
  /-- `RunAllTask` takes the vector over. -/
  | swap
  /-- The next functor is called. -/
  | runTask
  | again
  deriving DecidableEq

def eventfdMax : Nat := 2 ^ 64 - 2

def weakUpdateRes : Nat := 0

def weakUpdateFd (res counter : Nat) : Nat :=
  if counter + res ≤ eventfdMax then counter + res else counter

def State.functor {Fn : Type} (s : State Fn) : List Fn :=
  match s.pc with
  | .run functor => functor
  | _ => []

def State.idle {Fn : Type} (s : State Fn) : Prop :=
  s.loopInCall = false ∧ s.code = []

def State.handling {Fn : Type} (s : State Fn) : Prop :=
  s.pc = .handle true ∨ s.pc = .handle false

def guard {Fn : Type} (s : State Fn) : Label Fn → Prop
  | .push t _ => t ∉ s.inCall
  | .wake t => t ∈ s.inCall
  | .pollReturn eventfd => s.pc = .poll ∧ (eventfd = true → 0 < s.counter)
  | .readEventFd => s.pc = .handle true ∧ s.idle
  | .handler _ => s.handling ∧ s.idle
  | .act => s.loopInCall = false ∧ s.code ≠ []
  | .loopWake => s.loopInCall = true
  | .swap => s.pc = .handle false ∧ s.idle
  | .runTask => s.functor ≠ [] ∧ s.idle
  | .again => s.pc = .run [] ∧ s.idle

def pushTask {Fn : Type} (s : State Fn) (f : Fn) : State Fn :=
  { s with tasks := s.tasks ++ [f], pushed := s.pushed ++ [f] }

section machine

variable {Fn : Type} (res : Nat) (body : Fn → List (Act Fn))

def effect (s : State Fn) : Label Fn → State Fn
  | .push t f => { pushTask s f with inCall := t :: s.inCall }
  | .wake t => { s with inCall := s.inCall.erase t, counter := weakUpdateFd res s.counter }
  | .pollReturn eventfd => { s with pc := .handle eventfd }
  | .readEventFd => { s with counter := 0, pc := .handle false }
  | .handler acts => { s with code := acts }
  | .act =>
      match s.code with
      | [] => s
      | .queueInLoop f :: rest => { pushTask s f with code := rest, loopInCall := true }
      | .runInLoop f :: rest => { s with code := body f ++ rest }
  | .loopWake => { s with loopInCall := false, counter := weakUpdateFd res s.counter }
  | .swap => { s with tasks := [], pc := .run s.tasks }
  | .runTask =>
      match s.pc with
      | .run (f :: functor) =>
          { s with pc := .run functor, code := body f, executed := s.executed ++ [f] }
      | _ => s
  | .again => { s with pc := .poll }

def initial (Fn : Type) : State Fn where
  tasks := []
  counter := 0
  inCall := []
  pc := .poll
  code := []
  loopInCall := false
  pushed := []
  executed := []

def machine : System (State Fn) (Label Fn) where
  init := fun s => s = initial Fn
  step := fun s l s' => guard s l ∧ s' = effect res body s l

end machine

def eventLoop {Fn : Type} (body : Fn → List (Act Fn)) : System (State Fn) (Label Fn) :=
  machine weakUpdateRes body

/-! ## Order of execution

    The vector the loop thread has taken over and the shared vector are the
    two halves of what is still to be executed. -/

def InOrder {Fn : Type} (s : State Fn) : Prop :=
  s.pushed = s.executed ++ s.functor ++ s.tasks

section order

variable {Fn : Type} {res : Nat} {body : Fn → List (Act Fn)}

theorem pushTask_inOrder {s : State Fn} (f : Fn) (h : InOrder s) : InOrder (pushTask s f) := by
  unfold InOrder at h ⊢
  show s.pushed ++ [f] = s.executed ++ s.functor ++ (s.tasks ++ [f])
  rw [h, List.append_assoc]

theorem InOrder.of_functor {s : State Fn} {functor : List Fn} (h : InOrder s)
    (hf : s.functor = functor) : s.pushed = s.executed ++ functor ++ s.tasks := by
  rwa [InOrder, hf] at h

theorem inOrder_step {s s' : State Fn} {l : Label Fn} (h : InOrder s)
    (hstep : (machine res body).step s l s') : InOrder s' := by
  obtain ⟨hg, rfl⟩ := hstep
  cases l with
  | push t f => exact pushTask_inOrder f h
  | wake t => exact h
  | pollReturn eventfd =>
    exact h.of_functor (by rw [State.functor, hg.1]; rfl)
  | readEventFd =>
    exact h.of_functor (by rw [State.functor, hg.1]; rfl)
  | handler acts => exact h
  | act =>
    simp only [effect]
    split
    · exact h
    · exact pushTask_inOrder _ h
    · exact h
  | loopWake => exact h
  | swap =>
    -- The swap moves the whole of `_tasks` into the empty local vector.
    have hall : s.pushed = s.executed ++ [] ++ s.tasks := h.of_functor (by rw [State.functor, hg.1])
    show s.pushed = s.executed ++ s.tasks ++ []
    rw [hall, List.append_nil, List.append_nil]
  | runTask =>
    simp only [effect]
    split
    · next f functor hpc =>
      show s.pushed = s.executed ++ [f] ++ functor ++ s.tasks
      rw [h.of_functor (by rw [State.functor, hpc])]; simp
    · exact h
  | again =>
    exact h.of_functor (by rw [State.functor, hg.1]; rfl)

theorem inOrder_reachable {s : State Fn} (h : (machine res body).Reachable s) : InOrder s := by
  refine System.invariant InOrder ?_ (fun _ _ _ hs hstep => inOrder_step hs hstep) s h
  rintro s rfl
  rfl

end order

/-- **Queued tasks run exactly once and in order.** In every state of every
    interleaving, the functors `RunAllTask` has called are a prefix of the
    functors pushed, and what is left of the pushed ones is exactly what the
    local vector and `_tasks` still hold. -/
theorem executed_prefix_pushed {Fn : Type} (body : Fn → List (Act Fn)) (s : State Fn)
    (h : (eventLoop body).Reachable s) :
    s.executed <+: s.pushed ∧ s.pushed = s.executed ++ (s.functor ++ s.tasks) := by
  have horder : s.pushed = s.executed ++ (s.functor ++ s.tasks) := by
    rw [← List.append_assoc]; exact inOrder_reachable h
  exact ⟨⟨_, horder.symm⟩, horder⟩

/-- Thread 1 queues 7 and thread 2 queues 8 while the loop is polling; the
    batch is swapped out and its first functor called. -/
theorem executed_prefix_pushed_two_threads : ∃ s : State Nat, s.executed = [7] ∧ s.pushed = [7, 8] ∧
      (s.executed <+: s.pushed ∧ s.pushed = s.executed ++ (s.functor ++ s.tasks)) := by
  have hreach : (eventLoop (fun _ : Nat => [])).Reachable
      { initial Nat with pc := .run [8], executed := [7], pushed := [7, 8] } := by
    refine ⟨initial Nat, [.push 1 7, .push 2 8, .wake 1, .wake 2, .pollReturn false, .swap,
      .runTask], rfl, ?_⟩
    refine .cons _ _ ⟨?_, rfl⟩ (.cons _ _ ⟨?_, rfl⟩ (.cons _ _ ⟨?_, rfl⟩ (.cons _ _ ⟨?_, rfl⟩
      (.cons _ _ ⟨?_, rfl⟩ (.cons _ _ ⟨?_, rfl⟩ (.cons _ _ ⟨?_, rfl⟩ (.nil _)))))))
    all_goals simp [guard, effect, initial, pushTask, State.idle, State.functor]
  exact ⟨_, rfl, rfl, executed_prefix_pushed _ _ hreach⟩

/-! ## Wakeups

    A pushed functor is executed by the next `RunAllTask`, so a push needs
    the eventfd exactly when the loop thread may block before it: when it is
    polling or already past the swap. -/

def LostWakeup {Fn : Type} (s : State Fn) : Prop :=
  s.inCall = [] ∧ s.loopInCall = false ∧ s.tasks ≠ [] ∧ s.pc = .poll ∧ s.counter = 0

def Pushes {Fn : Type} (s : State Fn) : Label Fn → Prop
  | .push _ _ => True
  | .act => ∃ f rest, s.code = .queueInLoop f :: rest
  | _ => False

def PushWhileHandling {Fn : Type} (s : State Fn) (l : Label Fn) : Prop :=
  Pushes s l → s.handling

section wakeup

variable {Fn : Type} {res : Nat} {body : Fn → List (Act Fn)} {s s' : State Fn} {l : Label Fn}

theorem not_handling_of_pc (h : s.pc = .poll ∨ ∃ functor, s.pc = .run functor) : ¬ s.handling := by
  rintro (hh | hh) <;> rcases h with h | ⟨functor, h⟩ <;> rw [h] at hh <;> cases hh

section

variable (hstep : (machine res body).step s l s')

include hstep

theorem tasks_ne_nil_persist (hl : l ≠ .swap) (h : s.tasks ≠ []) : s'.tasks ≠ [] := by
  obtain ⟨_, rfl⟩ := hstep
  cases l with
  | push t f => simp [effect, pushTask]
  | act =>
    simp only [effect]
    split
    · exact h
    · simp [pushTask]
    · exact h
  | runTask => simp only [effect]; split <;> exact h
  | swap => exact absurd rfl hl
  | _ => exact h

theorem tasks_ne_nil_of_pushes (hl : Pushes s l) : s'.tasks ≠ [] := by
  obtain ⟨_, rfl⟩ := hstep
  cases l with
  | push t f => simp [effect, pushTask]
  | act =>
    obtain ⟨f, rest, hcode⟩ := hl
    simp [effect, hcode, pushTask]
  | _ => exact hl.elim

theorem tasks_nil_of_not_pushes (hl : ¬ Pushes s l) (h : s.tasks = []) : s'.tasks = [] := by
  obtain ⟨_, rfl⟩ := hstep
  cases l with
  | push t f => exact absurd trivial hl
  | act =>
    simp only [effect]
    split
    · exact h
    · next f rest hcode => exact absurd ⟨f, rest, hcode⟩ hl
    · exact h
  | runTask => simp only [effect]; split <;> exact h
  | swap => rfl
  | _ => exact h

theorem handling_persist (hl : l ≠ .swap) (h : s.handling) : s'.handling := by
  obtain ⟨hg, rfl⟩ := hstep
  cases l with
  | pollReturn eventfd => exact absurd h (not_handling_of_pc (.inl hg.1))
  | readEventFd => exact Or.inr rfl
  | act =>
    simp only [effect]
    split <;> exact h
  | swap => exact absurd rfl hl
  | runTask =>
    simp only [effect]
    split
    · next f functor hpc => exact absurd h (not_handling_of_pc (.inr ⟨_, hpc⟩))
    · exact h
  | again => exact absurd h (not_handling_of_pc (.inr ⟨[], hg.1⟩))
  | _ => exact h

end

theorem counter_zero_step (hstep : (eventLoop body).step s l s') (h : s.counter = 0) :
    s'.counter = 0 := by
  obtain ⟨_, rfl⟩ := hstep
  have hzero : weakUpdateFd weakUpdateRes s.counter = 0 := by rw [h]; rfl
  cases l with
  | wake t => exact hzero
  | loopWake => exact hzero
  | readEventFd => rfl
  | act => simp only [effect]; split <;> exact h
  | runTask => simp only [effect]; split <;> exact h
  | _ => exact h

theorem counter_zero (h : (eventLoop body).Reachable s) : s.counter = 0 := by
  obtain ⟨s0, ls, rfl, hrun⟩ := h
  exact hrun.preserves (fun s => s.counter = 0)
    (fun _ _ _ hs hstep => counter_zero_step hstep hs) rfl

theorem tasks_nil_of_gated (h : ((eventLoop body).restrict PushWhileHandling).Reachable s) :
    s.tasks ≠ [] → s.handling := by
  obtain ⟨s0, ls, rfl, hrun⟩ := h
  refine hrun.preserves (fun s => s.tasks ≠ [] → s.handling) (fun s l s' hs hstep => ?_)
    (fun hne => absurd rfl hne)
  obtain ⟨hgate, hstep⟩ := hstep
  intro hne
  by_cases hl : l = .swap
  · subst hl
    exact absurd (by rw [hstep.2]; rfl) hne
  · by_cases hp : Pushes s l
    · exact handling_persist hstep hl (hgate hp)
    · by_cases htasks : s.tasks = []
      · exact absurd (tasks_nil_of_not_pushes hstep hp htasks) hne
      · exact handling_persist hstep hl (hs htasks)

theorem lostWakeup_of_steps {ls : List (Label Fn)} (hrun : (eventLoop body).Steps s ls s')
    (hcounter : s.counter = 0) (htasks : s.tasks ≠ []) (hls : Label.swap ∉ ls) (hpc : s'.pc = .poll)
    (hcalls : s'.inCall = []) (hloop : s'.loopInCall = false) : LostWakeup s' := by
  induction hrun with
  | nil s => exact ⟨hcalls, hloop, htasks, hpc, hcounter⟩
  | cons l ls hstep _ ih =>
    have hl : l ≠ .swap := fun h => hls (h ▸ List.mem_cons_self)
    have hls' : Label.swap ∉ ls := fun h => hls (List.mem_cons_of_mem _ h)
    exact ih (counter_zero_step hstep hcounter) (tasks_ne_nil_persist hstep hl htasks)
      hls' hpc hcalls hloop

end wakeup

/-- A wakeup can be lost: a thread queues a functor while the loop thread is
    polling, its `WeakUpdateFd` adds 0, and nothing is left to end the
    `epoll_wait`. -/
theorem lostWakeup_reachable :
    ∃ s, (eventLoop (fun _ : Unit => [])).Reachable s ∧ LostWakeup s := by
  refine ⟨effect weakUpdateRes (fun _ => [])
      (effect weakUpdateRes (fun _ => []) (initial Unit) (.push 1 ())) (.wake 1),
    ⟨initial Unit, [.push 1 (), .wake 1], rfl, ?_⟩, ?_⟩
  · refine System.Steps.cons _ _ ⟨?_, rfl⟩ (System.Steps.cons _ _ ⟨?_, rfl⟩ (System.Steps.nil _))
    · simp [guard, initial]
    · simp [guard, effect, pushTask, initial]
  · simp [LostWakeup, effect, pushTask, initial, weakUpdateFd, weakUpdateRes]

/-- **When no wakeup is lost.** In a run all of whose pushes are made while
    the loop thread handles events, no state is a lost wakeup. A push made
    at any other time relies on the eventfd: every return to `epoll_wait`
    before the next swap, once all calls have finished, loses it. -/
theorem no_lostWakeup_of_pushWhileHandling {Fn : Type} (body : Fn → List (Act Fn)) :
    (∀ s, ((eventLoop body).restrict PushWhileHandling).Reachable s → ¬ LostWakeup s) ∧
    (∀ s l s', (eventLoop body).Reachable s → (eventLoop body).step s l s' → Pushes s l →
      ¬ s.handling →
      ∀ ls s'', (eventLoop body).Steps s' ls s'' → Label.swap ∉ ls → s''.pc = .poll →
        s''.inCall = [] → s''.loopInCall = false → LostWakeup s'') := by
  constructor
  · rintro s h ⟨_, _, htasks, hpc, _⟩
    exact not_handling_of_pc (.inl hpc) (tasks_nil_of_gated h htasks)
  · intro s l s' hreach hstep hpush _ ls s'' hrun hls hpc hcalls hloop
    exact lostWakeup_of_steps hrun (counter_zero (hreach.step hstep))
      (tasks_ne_nil_of_pushes hstep hpush) hls hpc hcalls hloop

/-- A handler queues 7, and the loop has executed it when it polls again. -/
theorem no_lostWakeup_of_pushWhileHandling_queued :
    ∃ s : State Nat, ((eventLoop fun _ => []).restrict PushWhileHandling).Reachable s ∧
      s.executed = [7] ∧ s.pc = .poll ∧ ¬ LostWakeup s := by
  have hreach : ((eventLoop fun _ : Nat => []).restrict PushWhileHandling).Reachable
      { initial Nat with executed := [7], pushed := [7] } := by
    refine ⟨initial Nat, [.pollReturn false, .handler [.queueInLoop 7], .act, .loopWake, .swap,
      .runTask, .again], rfl, ?_⟩
    refine .cons _ _ ⟨?_, ?_, rfl⟩ (.cons _ _ ⟨?_, ?_, rfl⟩ (.cons _ _ ⟨?_, ?_, rfl⟩
      (.cons _ _ ⟨?_, ?_, rfl⟩ (.cons _ _ ⟨?_, ?_, rfl⟩ (.cons _ _ ⟨?_, ?_, rfl⟩
        (.cons _ _ ⟨?_, ?_, rfl⟩ (.nil _)))))))
    all_goals simp [PushWhileHandling, Pushes, State.handling, guard, effect, initial, pushTask,
      State.idle, State.functor]
  exact ⟨_, hreach, rfl, rfl, (no_lostWakeup_of_pushWhileHandling _).1 _ hreach⟩

end CallLesson.Reactor.TaskQueue
