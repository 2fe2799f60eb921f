import CallLesson.Framework.System
import CallLesson.Framework.Mutex

/-! # The thread pool of the HTTP server

    `ThreadRoutine` and `Push_task` of `my_Http/ThreadPool.hpp`, for any number of
    workers and of threads that push. A step is the call of one of the functions
    that these two consist of; those that lock the mutex wait until it is free. -/

namespace CallLesson.Http

open Function

/-! ## Model -/

inductive WorkerPc (τ : Type) where
  | lock
  /-- At the test of the inner loop. -/
  | test
  /-- About to call `ThreadWait`. -/
  | wait
  /-- In `ThreadWait`, until it is signalled. -/
  | blocked
  /-- In `ThreadWait`, about to lock the mutex again. -/
  | woken
  | pop
  | unlock (t : τ)
  | processOn (t : τ)
  deriving DecidableEq

def WorkerPc.holds {τ : Type} : WorkerPc τ → Bool
  | .test => true
  | .wait => true
  | .pop => true
  | .unlock _ => true
  | _ => false

inductive PusherPc (τ : Type) where
  | idle
  | lock (t : τ)
  | push (t : τ)
  | unlock
  | wakeup
  deriving DecidableEq

def PusherPc.holds {τ : Type} : PusherPc τ → Bool
  | .push _ => true
  | .unlock => true
  | _ => false

def PusherPc.Pending {τ : Type} : PusherPc τ → Prop
  | .unlock => True
  | .wakeup => True
  | _ => False

inductive Thread (n : Nat) where
  | worker (i : Fin n)
  | pusher (k : Nat)
  deriving DecidableEq

structure ThreadPool (n : Nat) (τ : Type) where
  workers : Fin n → WorkerPc τ
  pushers : Nat → PusherPc τ
  /-- Who has locked the mutex. -/
  owner : Option (Thread n)
  taskQueue : List τ
  /-- The tasks that have been pushed, and those that have been popped. -/
  pushed : List τ
  taken : List τ
  /-- `Pop_task` has been called with the queue empty. -/
  poppedEmpty : Bool

inductive PoolStep (n : Nat) (τ : Type) where
  | worker (i : Fin n)
  /-- A worker returns from the wait without a signal. -/
  | spurious (i : Fin n)
  /-- `Push_task` is called. -/
  | pushTask (k : Nat) (t : τ)
  | pusher (k : Nat)
  /-- The signal of a thread, and the worker that it wakes. -/
  | threadWakeup (k : Nat) (i : Option (Fin n))
  deriving DecidableEq

namespace ThreadPool

variable {n : Nat} {τ : Type}

def start (n : Nat) (τ : Type) : ThreadPool n τ where
  workers := fun _ => .lock
  pushers := fun _ => .idle
  owner := none
  taskQueue := []
  pushed := []
  taken := []
  poppedEmpty := false

def setWorker (s : ThreadPool n τ) (i : Fin n) (pc : WorkerPc τ) : ThreadPool n τ :=
  { s with workers := update s.workers i pc }

def setPusher (s : ThreadPool n τ) (k : Nat) (pc : PusherPc τ) : ThreadPool n τ :=
  { s with pushers := update s.pushers k pc }

def isTaskQueueEmpty (s : ThreadPool n τ) : Bool := s.taskQueue.length == 0

def locked (s : ThreadPool n τ) (t : Thread n) : Option (ThreadPool n τ) :=
  if s.owner = none then some { s with owner := some t } else none

def popTask (s : ThreadPool n τ) (i : Fin n) : ThreadPool n τ :=
  match s.taskQueue with
  | [] => { s with poppedEmpty := true }
  | t :: ts => { s.setWorker i (.unlock t) with taskQueue := ts, taken := s.taken ++ [t] }

def workerStep (s : ThreadPool n τ) (i : Fin n) : Option (ThreadPool n τ) :=
  match s.workers i with
  | .lock => (s.locked (.worker i)).map (·.setWorker i .test)
  | .test => some (s.setWorker i (if s.isTaskQueueEmpty then .wait else .pop))
  | .wait => some { s.setWorker i .blocked with owner := none }
  | .blocked => none
  | .woken => (s.locked (.worker i)).map (·.setWorker i .test)
  | .pop => some (s.popTask i)
  | .unlock t => some { s.setWorker i (.processOn t) with owner := none }
  | .processOn _ => some (s.setWorker i .lock)

def pusherStep (s : ThreadPool n τ) (k : Nat) : Option (ThreadPool n τ) :=
  match s.pushers k with
  | .idle => none
  | .lock t => (s.locked (.pusher k)).map (·.setPusher k (.push t))
  | .push t =>
      some { s.setPusher k .unlock with taskQueue := s.taskQueue ++ [t], pushed := s.pushed ++ [t] }
  | .unlock => some { s.setPusher k .wakeup with owner := none }
  | .wakeup => none

def isBlocked : WorkerPc τ → Bool
  | .blocked => true
  | _ => false

def wakes (s : ThreadPool n τ) : Option (Fin n) → Option (ThreadPool n τ)
  | some i => if isBlocked (s.workers i) then some (s.setWorker i .woken) else none
  | none => if ∀ i, isBlocked (s.workers i) = false then some s else none

def next (s : ThreadPool n τ) : PoolStep n τ → Option (ThreadPool n τ)
  | .worker i => s.workerStep i
  | .spurious i => if isBlocked (s.workers i) then some (s.setWorker i .woken) else none
  | .pushTask k t =>
      match s.pushers k with
      | .idle => some (s.setPusher k (.lock t))
      | _ => none
  | .pusher k => s.pusherStep k
  | .threadWakeup k i =>
      match s.pushers k with
      | .wakeup => (s.wakes i).map (·.setPusher k .idle)
      | _ => none

def runs (n : Nat) (τ : Type) : System (ThreadPool n τ) (PoolStep n τ) :=
  System.ofNext (start n τ) next

/-! ## Tasks and workers -/

def holds (s : ThreadPool n τ) : Thread n → Bool
  | .worker i => (s.workers i).holds
  | .pusher k => (s.pushers k).holds

structure Stranded (s : ThreadPool n τ) : Prop where
  signalled : ∀ k, ¬ (s.pushers k).Pending
  waiting : s.taskQueue ≠ []
  blocked : ∀ i, s.workers i = .blocked

structure PoolOk (s : ThreadPool n τ) : Prop where
  exclusive : Mutex.Exclusive s.owner s.holds
  order : s.taken ++ s.taskQueue = s.pushed
  popped : s.poppedEmpty = false
  wait : ∀ i, s.workers i = .wait → s.taskQueue = []
  pop : ∀ i, s.workers i = .pop → s.taskQueue ≠ []
  awake : s.taskQueue ≠ [] → (∃ i, s.workers i ≠ .blocked) ∨ ∃ k, (s.pushers k).Pending

variable {s : ThreadPool n τ}

theorem holds_setWorker (s : ThreadPool n τ) (i : Fin n) (pc : WorkerPc τ) :
    (s.setWorker i pc).holds = update s.holds (.worker i) pc.holds := by
  funext t
  cases t with
  | worker j =>
    by_cases hj : j = i
    · subst hj
      simp [holds, setWorker]
    · simp [holds, setWorker, hj]
  | pusher k => simp [holds, setWorker]

theorem holds_setPusher (s : ThreadPool n τ) (k : Nat) (pc : PusherPc τ) :
    (s.setPusher k pc).holds = update s.holds (.pusher k) pc.holds := by
  funext t
  cases t with
  | worker i => simp [holds, setPusher]
  | pusher j =>
    by_cases hj : j = k
    · subst hj
      simp [holds, setPusher]
    · simp [holds, setPusher, hj]

variable {s' : ThreadPool n τ} {i : Fin n}

namespace PoolOk

theorem worker (h : PoolOk s) {pc : WorkerPc τ} {owner : Option (Thread n)}
    (hexcl : Mutex.Exclusive owner (update s.holds (.worker i) pc.holds))
    (hwait : pc = .wait ∨ pc = .blocked → s.taskQueue = []) (hpop : pc = .pop → s.taskQueue ≠ []) :
    PoolOk { s.setWorker i pc with owner := owner } where
  exclusive := by
    rw [← holds_setWorker] at hexcl
    exact hexcl
  order := h.order
  popped := h.popped
  wait j hj := by
    by_cases hji : j = i
    · subst hji
      exact hwait (Or.inl (by simpa [setWorker] using hj))
    · exact h.wait j (by simpa [setWorker, update_of_ne hji] using hj)
  pop j hj := by
    by_cases hji : j = i
    · subst hji
      exact hpop (by simpa [setWorker] using hj)
    · exact h.pop j (by simpa [setWorker, update_of_ne hji] using hj)
  awake hne := by
    -- a worker goes to sleep only with the queue empty
    refine Or.inl ⟨i, fun hblocked => hne (hwait (Or.inr ?_))⟩
    simpa [setWorker] using hblocked

theorem pusher (h : PoolOk s) {k : Nat} {pc : PusherPc τ} {owner : Option (Thread n)}
    (hexcl : Mutex.Exclusive owner (update s.holds (.pusher k) pc.holds))
    (hpending : (s.pushers k).Pending → pc.Pending ∨ ∃ i, s.workers i ≠ .blocked) :
    PoolOk { s.setPusher k pc with owner := owner } where
  exclusive := by
    rw [← holds_setPusher] at hexcl
    exact hexcl
  order := h.order
  popped := h.popped
  wait := h.wait
  pop := h.pop
  awake hne := by
    rcases h.awake hne with hi | ⟨j, hj⟩
    · exact Or.inl hi
    · by_cases hjk : j = k
      · subst hjk
        rcases hpending hj with hpc | hi
        · exact Or.inr ⟨j, by simpa [setPusher] using hpc⟩
        · exact Or.inl hi
      · exact Or.inr ⟨j, by simpa [setPusher, update_of_ne hjk] using hj⟩

theorem start (n : Nat) (τ : Type) : PoolOk (start n τ) where
  exclusive t ht := by cases t <;> cases ht
  order := rfl
  popped := rfl
  wait i hi := by cases hi
  pop i hi := by cases hi
  awake hne := absurd rfl hne

section

variable (h : PoolOk s)

include h

theorem idle_worker {t : Thread n} (ht : s.holds t = true) (hi : t ≠ .worker i) :
    s.workers i ≠ .wait ∧ s.workers i ≠ .pop := by
  have hnot : (s.workers i).holds ≠ true := fun hholds => hi (h.exclusive.unique ht hholds)
  exact ⟨fun h => hnot (by rw [h]; rfl), fun h => hnot (by rw [h]; rfl)⟩

theorem lock_worker (hs : (s.locked (.worker i)).map (·.setWorker i .test) = some s') :
    PoolOk s' := by
  unfold locked at hs
  split at hs
  · next hfree =>
    cases hs
    exact h.worker ((hfree ▸ h.exclusive).acquire _) (by simp) (by simp)
  · cases hs

theorem popTask (hpc : s.workers i = .pop) : PoolOk (s.popTask i) := by
  have hne := h.pop i hpc
  obtain ⟨t, ts, hq⟩ := List.exists_cons_of_ne_nil hne
  have hholds : s.holds (.worker i) = true := by simp [holds, hpc, WorkerPc.holds]
  have hother : ∀ j, j ≠ i → s.workers j ≠ .wait ∧ s.workers j ≠ .pop := fun j hj =>
    h.idle_worker hholds (by simpa using hj.symm)
  have horder : s.taken ++ [t] ++ ts = s.pushed := by
    rw [← h.order, hq, List.append_assoc, List.singleton_append]
  have hexcl : Mutex.Exclusive s.owner (s.setWorker i (.unlock t)).holds := by
    rw [holds_setWorker]
    exact h.exclusive.goOn fun _ => hholds
  simp only [ThreadPool.popTask, hq]
  -- the queue gets shorter, but no other worker has looked at it
  refine ⟨hexcl, horder, h.popped, fun j hj => ?_, fun j hj => ?_, fun _ => ?_⟩
  · by_cases hji : j = i
    · subst hji
      simp [setWorker] at hj
    · exact absurd (by simpa [setWorker, update_of_ne hji] using hj) (hother j hji).1
  · by_cases hji : j = i
    · subst hji
      simp [setWorker] at hj
    · exact absurd (by simpa [setWorker, update_of_ne hji] using hj) (hother j hji).2
  · exact Or.inl ⟨i, by simp [setWorker]⟩

theorem push {k : Nat} {t : τ} (hpc : s.pushers k = .push t) :
    PoolOk { s.setPusher k .unlock with
      taskQueue := s.taskQueue ++ [t], pushed := s.pushed ++ [t] } := by
  have hholds : s.holds (.pusher k) = true := by simp [holds, hpc, PusherPc.holds]
  have hother : ∀ j, s.workers j ≠ .wait ∧ s.workers j ≠ .pop := fun j =>
    h.idle_worker hholds (by simp)
  have horder : s.taken ++ (s.taskQueue ++ [t]) = s.pushed ++ [t] := by
    rw [← h.order, List.append_assoc]
  have hexcl : Mutex.Exclusive s.owner (s.setPusher k .unlock).holds := by
    rw [holds_setPusher]
    exact h.exclusive.goOn fun _ => hholds
  exact {
    exclusive := hexcl
    order := horder
    popped := h.popped
    wait := fun j hj => absurd hj (hother j).1
    pop := fun j hj => absurd hj (hother j).2
    awake := fun _ => Or.inr ⟨k, by simp [setPusher, PusherPc.Pending]⟩ }

theorem workerStep (hs : s.workerStep i = some s') : PoolOk s' := by
  unfold ThreadPool.workerStep at hs
  split at hs
  · exact h.lock_worker hs
  · next hpc =>
    cases hs
    have hholds : s.holds (.worker i) = true := by simp [holds, hpc, WorkerPc.holds]
    -- what the test finds holds as long as the mutex is not unlocked
    have hempty : s.isTaskQueueEmpty = true ↔ s.taskQueue = [] := by simp [isTaskQueueEmpty]
    refine h.worker (h.exclusive.goOn fun _ => hholds) (fun hw => ?_) (fun hp => ?_)
    · rw [← hempty]
      by_contra hne
      simp [hne] at hw
    · rw [ne_eq, ← hempty]
      intro he
      simp [he] at hp
  · next hpc =>
    cases hs
    have hholds : s.holds (.worker i) = true := by simp [holds, hpc, WorkerPc.holds]
    exact h.worker (h.exclusive.release hholds) (fun _ => h.wait i hpc) (by simp)
  · cases hs
  · exact h.lock_worker hs
  · next hpc =>
    cases hs
    exact h.popTask hpc
  · next hpc =>
    cases hs
    have hholds : s.holds (.worker i) = true := by simp [holds, hpc, WorkerPc.holds]
    exact h.worker (h.exclusive.release hholds) (by simp) (by simp)
  · cases hs
    exact h.worker (h.exclusive.goOn (by simp [WorkerPc.holds])) (by simp) (by simp)

theorem pusherStep {k : Nat} (hs : s.pusherStep k = some s') : PoolOk s' := by
  unfold ThreadPool.pusherStep at hs
  split at hs
  · cases hs
  · next hpc =>
    unfold locked at hs
    split at hs
    · next hfree =>
      cases hs
      exact h.pusher ((hfree ▸ h.exclusive).acquire _) (by simp [hpc, PusherPc.Pending])
    · cases hs
  · next hpc =>
    cases hs
    exact h.push hpc
  · next hpc =>
    cases hs
    have hholds : s.holds (.pusher k) = true := by simp [holds, hpc, PusherPc.holds]
    exact h.pusher (h.exclusive.release hholds) fun _ => Or.inl trivial
  · cases hs

theorem wake (i : Fin n) : PoolOk (s.setWorker i .woken) :=
  h.worker (h.exclusive.goOn (by simp [WorkerPc.holds])) (by simp) (by simp)

end

theorem wakes (hn : 0 < n) (h : PoolOk s) {i : Option (Fin n)} (hs : s.wakes i = some s') :
    PoolOk s' ∧ ∃ j, s'.workers j ≠ .blocked := by
  unfold ThreadPool.wakes at hs
  split at hs
  · next i =>
    split at hs
    · cases hs
      exact ⟨h.wake i, i, by simp [setWorker]⟩
    · cases hs
  · split at hs
    · next hnone =>
      cases hs
      exact ⟨h, ⟨0, hn⟩, fun hb => by simpa [hb, isBlocked] using hnone ⟨0, hn⟩⟩
    · cases hs

theorem next (hn : 0 < n) (h : PoolOk s) {l : PoolStep n τ} (hs : s.next l = some s') :
    PoolOk s' := by
  cases l with
  | worker i => exact h.workerStep hs
  | spurious i =>
    simp only [ThreadPool.next] at hs
    split at hs
    · cases hs
      exact h.wake i
    · cases hs
  | pushTask k t =>
    simp only [ThreadPool.next] at hs
    split at hs
    · next hpc =>
      cases hs
      exact h.pusher (h.exclusive.goOn (by simp [PusherPc.holds])) (by simp [hpc, PusherPc.Pending])
    · cases hs
  | pusher k => exact h.pusherStep hs
  | threadWakeup k i =>
    simp only [ThreadPool.next] at hs
    split at hs
    · -- the signal that was pending is gone, but it has left a worker awake
      obtain ⟨s1, hwakes, rfl⟩ := Option.map_eq_some_iff.mp hs
      obtain ⟨h1, hawake⟩ := h.wakes hn hwakes
      exact h1.pusher (h1.exclusive.goOn (by simp [PusherPc.holds])) fun _ => Or.inr hawake
    · cases hs

end PoolOk

/-- **Tasks of the pool**: with at least one worker, in every interleaving the tasks are
    taken in the order pushed, each once, `Pop_task` finds one, and there is never a
    task with all workers waiting and nobody about to signal. -/
theorem tasks_not_stranded (hn : 0 < n) (h : (runs n τ).Reachable s) :
    s.taken ++ s.taskQueue = s.pushed ∧ s.poppedEmpty = false ∧ ¬ Stranded s := by
  have hok : PoolOk s := by
    refine System.invariant PoolOk ?_ ?_ s h
    · rintro _ rfl
      exact PoolOk.start n τ
    · exact fun s l s' hs hstep => hs.next hn hstep
  refine ⟨hok.order, hok.popped, fun hstranded => ?_⟩
  rcases hok.awake hstranded.waiting with ⟨i, hi⟩ | ⟨k, hk⟩
  · exact hi (hstranded.blocked i)
  · exact hstranded.signalled k hk

/-- Two workers wait, a task is pushed and one of them is woken, but takes it only after
    a second one has been pushed, whose signal wakes the other. -/
theorem tasks_not_stranded_two :
    ∃ s : ThreadPool 2 Nat, (runs 2 Nat).Reachable s ∧ s.taken = [7, 8] ∧ ¬ Stranded s := by
  obtain ⟨s, hrun, htaken⟩ := Option.map_eq_some_iff.mp
    (show (System.run next (start 2 Nat)
        [.worker 0, .worker 0, .worker 0, .worker 1, .worker 1, .worker 1,
          .pushTask 0 7, .pusher 0, .pusher 0, .pusher 0, .threadWakeup 0 (some 1),
          .pushTask 0 8, .pusher 0, .pusher 0, .pusher 0, .threadWakeup 0 (some 0),
          .worker 0, .worker 0, .worker 0, .worker 0,
          .worker 1, .worker 1, .worker 1]).map taken = some [7, 8] by decide +kernel)
  have hreach : (runs 2 Nat).Reachable s := ⟨_, _, rfl, System.steps_of_run hrun⟩
  exact ⟨s, hreach, htaken, (tasks_not_stranded (by decide) hreach).2.2⟩

end ThreadPool

end CallLesson.Http
