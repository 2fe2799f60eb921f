import CallLesson.Framework.System
import CallLesson.Framework.Mutex

/-! # The thread pool of the TCP lesson

    `handler_task` and `Push` of `lesson9/tcp/ThreadPool.hpp`, and the start of the
    pool in `TcpServer::Start`. Unlike the workers, `Push` does not lock the mutex:
    it can push and signal between a worker's test of the queue and its wait. -/

namespace CallLesson.Lessons

open Function

/-! ## Model -/

inductive WorkerPc (τ : Type) where
  | lock
  /-- At the test of the inner loop. -/
  | test
  /-- About to call `thread_wait`. -/
  | wait
  /-- In `thread_wait`, until it is signalled. -/
  | blocked
  /-- In `thread_wait`, about to lock the mutex again. -/
  | woken
  | pop
  | unlock (t : τ)
  | call (t : τ)
  deriving DecidableEq

namespace WorkerPc

variable {τ : Type}

def holds : WorkerPc τ → Bool
  | .test => true
  | .wait => true
  | .pop => true
  | .unlock _ => true
  | _ => false

def isBlocked : WorkerPc τ → Bool
  | .blocked => true
  | _ => false

def Awake (pc : WorkerPc τ) : Prop := pc ≠ .wait ∧ pc ≠ .blocked

end WorkerPc

structure ThreadPool (τ : Type) where
  workers : Nat → WorkerPc τ
  /-- The number of threads that have been created. -/
  started : Nat
  /-- The worker that has locked the mutex. -/
  owner : Option Nat
  taskQueue : List τ
  /-- The threads that are in `Push`, between the push and the signal. -/
  pending : Nat → Bool
  /-- `Pop` has been called with the queue empty. -/
  poppedEmpty : Bool

inductive PoolStep (τ : Type) where
  /-- `start_run` creates the next thread. -/
  | create
  | worker (i : Nat)
  /-- A worker returns from the wait without a signal. -/
  | spurious (i : Nat)
  | push (k : Nat) (t : τ)
  /-- The signal of a thread, and the worker that it wakes. -/
  | signal (k : Nat) (i : Option Nat)
  deriving DecidableEq

def startRun (size threads : Nat) : Nat := threads + size

def getInstance (size : Nat) : Nat := startRun size 0

def tcpServerStart (size : Nat) : Nat := startRun size (getInstance size)

namespace ThreadPool

variable {n : Nat} {τ : Type}

def start (τ : Type) : ThreadPool τ where
  workers := fun _ => .lock
  started := 0
  owner := none
  taskQueue := []
  pending := fun _ => false
  poppedEmpty := false

def setWorker (s : ThreadPool τ) (i : Nat) (pc : WorkerPc τ) : ThreadPool τ :=
  { s with workers := update s.workers i pc }

def empty (s : ThreadPool τ) : Bool := s.taskQueue.isEmpty

def lock (s : ThreadPool τ) (i : Nat) : Option (ThreadPool τ) :=
  if s.owner = none then some { s with owner := some i } else none

def pop (s : ThreadPool τ) (i : Nat) : ThreadPool τ :=
  match s.taskQueue with
  | [] => { s with poppedEmpty := true }
  | t :: ts => { s.setWorker i (.unlock t) with taskQueue := ts }

def workerStep (s : ThreadPool τ) (i : Nat) : Option (ThreadPool τ) :=
  match s.workers i with
  | .lock => (s.lock i).map (·.setWorker i .test)
  | .test => some (s.setWorker i (if s.empty then .wait else .pop))
  | .wait => some { s.setWorker i .blocked with owner := none }
  | .blocked => none
  | .woken => (s.lock i).map (·.setWorker i .test)
  | .pop => some (s.pop i)
  | .unlock t => some { s.setWorker i (.call t) with owner := none }
  | .call _ => some (s.setWorker i .lock)

def wakes (s : ThreadPool τ) : Option Nat → Option (ThreadPool τ)
  | some i =>
      if i < s.started ∧ (s.workers i).isBlocked then some (s.setWorker i .woken) else none
  | none => if ∀ i < s.started, (s.workers i).isBlocked = false then some s else none

def next (n : Nat) (s : ThreadPool τ) : PoolStep τ → Option (ThreadPool τ)
  | .create => if s.started < n then some { s with started := s.started + 1 } else none
  | .worker i => if i < s.started then s.workerStep i else none
  | .spurious i => s.wakes (some i)
  | .push k t =>
      if s.started = n ∧ s.pending k = false then
        some { s with
          taskQueue := s.taskQueue ++ [t], pending := update s.pending k true }
      else none
  | .signal k i =>
      if s.pending k then
        (s.wakes i).map fun s => { s with pending := update s.pending k false }
      else none

def runs (n : Nat) (τ : Type) : System (ThreadPool τ) (PoolStep τ) :=
  System.ofNext (start τ) (next n)

/-! ## Wakeups -/

structure Stranded (s : ThreadPool τ) : Prop where
  signalled : ∀ k, s.pending k = false
  waiting : s.taskQueue ≠ []
  blocked : ∀ i < s.started, s.workers i = .blocked

def holds (s : ThreadPool τ) (i : Nat) : Bool := (s.workers i).holds

structure PoolOk (n : Nat) (s : ThreadPool τ) : Prop where
  exclusive : Mutex.Exclusive s.owner s.holds
  pop : ∀ i, s.workers i = .pop → s.taskQueue ≠ []
  popped : s.poppedEmpty = false
  serving : ∀ k, s.pending k = true → s.started = n
  awake : s.taskQueue ≠ [] → (∃ i < s.started, (s.workers i).Awake) ∨ ∃ k, s.pending k = true

variable {s s' : ThreadPool τ}

theorem holds_setWorker (s : ThreadPool τ) (i : Nat) (pc : WorkerPc τ) :
    (s.setWorker i pc).holds = update s.holds i pc.holds := by
  funext j
  by_cases hj : j = i
  · subst hj
    simp [holds, setWorker]
  · simp [holds, setWorker, hj]

namespace PoolOk

theorem start (n : Nat) (τ : Type) : PoolOk n (start τ) where
  exclusive i hi := by cases hi
  pop i hi := by cases hi
  popped := rfl
  serving k hk := by cases hk
  awake hne := absurd rfl hne

section

variable (h : PoolOk n s) {i : Nat} (hi : i < s.started)

include h hi

theorem worker {pc : WorkerPc τ} {owner : Option Nat}
    (hexcl : Mutex.Exclusive owner (update s.holds i pc.holds))
    (hpop : pc = .pop → s.taskQueue ≠ [])
    (hawake : s.taskQueue ≠ [] → (s.workers i).Awake → pc.Awake) :
    PoolOk n { s.setWorker i pc with owner := owner } where
  exclusive := by
    rw [← holds_setWorker] at hexcl
    exact hexcl
  pop j hj := by
    by_cases hji : j = i
    · subst hji
      exact hpop (by simpa [setWorker] using hj)
    · exact h.pop j (by simpa [setWorker, update_of_ne hji] using hj)
  popped := h.popped
  serving := h.serving
  awake hne := by
    rcases h.awake hne with ⟨j, hj, hja⟩ | hk
    · refine Or.inl ⟨j, hj, ?_⟩
      by_cases hji : j = i
      · subst hji
        simpa [setWorker] using hawake hne hja
      · simpa [setWorker, update_of_ne hji] using hja
    · exact Or.inr hk

theorem locks (hs : (s.lock i).map (·.setWorker i .test) = some s') : PoolOk n s' := by
  unfold ThreadPool.lock at hs
  split at hs
  · next hfree =>
    cases hs
    exact h.worker hi ((hfree ▸ h.exclusive).acquire i) (by simp) (by simp [WorkerPc.Awake])
  · cases hs

theorem pops (hpc : s.workers i = .pop) : PoolOk n (s.pop i) := by
  obtain ⟨t, ts, hq⟩ := List.exists_cons_of_ne_nil (h.pop i hpc)
  have hholds : s.holds i = true := by simp [holds, hpc, WorkerPc.holds]
  have hexcl : Mutex.Exclusive s.owner (s.setWorker i (.unlock t)).holds := by
    rw [holds_setWorker]
    exact h.exclusive.goOn fun _ => hholds
  simp only [ThreadPool.pop, hq]
  refine ⟨hexcl, fun j hj => ?_, h.popped, h.serving, fun _ => ?_⟩
  · -- only the worker that holds the mutex is about to pop
    have hj' : (s.setWorker i (.unlock t)).holds j = true := by
      simp only [holds]
      rw [show (s.setWorker i (.unlock t)).workers j = .pop from hj]
      rfl
    have hji : j = i := hexcl.unique hj' (by simp [holds, setWorker, WorkerPc.holds])
    subst hji
    simp [setWorker] at hj
  · exact Or.inl ⟨i, hi, by simp [setWorker, WorkerPc.Awake]⟩

theorem workerStep (hs : s.workerStep i = some s') : PoolOk n s' := by
  unfold ThreadPool.workerStep at hs
  split at hs
  · exact h.locks hi hs
  · next hpc =>
    cases hs
    have hholds : s.holds i = true := by simp [holds, hpc, WorkerPc.holds]
    have hempty : s.empty = true ↔ s.taskQueue = [] := by simp [ThreadPool.empty]
    refine h.worker hi (h.exclusive.goOn fun _ => hholds) (fun hp => ?_) (fun hne _ => ?_)
    · rw [ne_eq, ← hempty]
      intro he
      simp [he] at hp
    · rw [ne_eq, ← hempty] at hne
      simp [hne, WorkerPc.Awake]
  · next hpc =>
    cases hs
    have hholds : s.holds i = true := by simp [holds, hpc, WorkerPc.holds]
    exact h.worker hi (h.exclusive.release hholds) (by simp) (by simp [hpc, WorkerPc.Awake])
  · cases hs
  · exact h.locks hi hs
  · next hpc =>
    cases hs
    exact h.pops hi hpc
  · next hpc =>
    cases hs
    have hholds : s.holds i = true := by simp [holds, hpc, WorkerPc.holds]
    exact h.worker hi (h.exclusive.release hholds) (by simp) (by simp [WorkerPc.Awake])
  · cases hs
    exact h.worker hi (h.exclusive.goOn (by simp [WorkerPc.holds])) (by simp)
      (by simp [WorkerPc.Awake])

end

theorem exists_not_wait (h : PoolOk n s) (hn : 2 ≤ s.started) :
    ∃ i < s.started, s.workers i ≠ .wait := by
  by_cases h0 : s.workers 0 = .wait
  · refine ⟨1, by omega, fun h1 => ?_⟩
    have hholds0 : s.holds 0 = true := by simp [holds, h0, WorkerPc.holds]
    have hholds1 : s.holds 1 = true := by simp [holds, h1, WorkerPc.holds]
    exact absurd (h.exclusive.unique hholds0 hholds1) (by decide)
  · exact ⟨0, by omega, h0⟩

theorem wakes (h : PoolOk n s) {i : Option Nat} (hs : s.wakes i = some s') :
    PoolOk n s' ∧ s'.pending = s.pending ∧ s'.started = s.started ∧
      (2 ≤ s.started → ∃ j < s'.started, (s'.workers j).Awake) := by
  unfold ThreadPool.wakes at hs
  split at hs
  · next i =>
    split at hs
    · next hi =>
      cases hs
      have hok : PoolOk n (s.setWorker i .woken) :=
        h.worker hi.1 (h.exclusive.goOn (by simp [WorkerPc.holds])) (by simp)
          (by simp [WorkerPc.Awake])
      exact ⟨hok, rfl, rfl, fun _ => ⟨i, hi.1, by simp [setWorker, WorkerPc.Awake]⟩⟩
    · cases hs
  · split at hs
    · next hnone =>
      cases hs
      refine ⟨h, rfl, rfl, fun hn => ?_⟩
      -- nobody waits, and only one worker can be about to
      obtain ⟨j, hj, hwait⟩ := h.exists_not_wait hn
      refine ⟨j, hj, hwait, fun hb => ?_⟩
      simpa [hb, WorkerPc.isBlocked] using hnone j hj
    · cases hs

theorem next (hn : 2 ≤ n) (h : PoolOk n s) {l : PoolStep τ} (hs : s.next n l = some s') :
    PoolOk n s' := by
  cases l with
  | create =>
    simp only [ThreadPool.next] at hs
    split at hs
    · next hlt =>
      cases hs
      refine ⟨h.exclusive, h.pop, h.popped, fun k hk => ?_, fun hne => ?_⟩
      · have := h.serving k hk
        omega
      · rcases h.awake hne with ⟨i, hi, ha⟩ | hk
        · exact Or.inl ⟨i, by simp only; omega, ha⟩
        · exact Or.inr hk
    · cases hs
  | worker i =>
    simp only [ThreadPool.next] at hs
    split at hs
    · next hi => exact h.workerStep hi hs
    · cases hs
  | spurious i =>
    simp only [ThreadPool.next] at hs
    exact (h.wakes hs).1
  | push k t =>
    simp only [ThreadPool.next] at hs
    split at hs
    · next hk =>
      cases hs
      -- the queue gets longer, so a worker that has found a task still does
      exact {
        exclusive := h.exclusive
        pop := fun _ _ => by simp
        popped := h.popped
        serving := fun _ _ => hk.1
        awake := fun _ => Or.inr ⟨k, by simp⟩ }
    · cases hs
  | signal k i =>
    simp only [ThreadPool.next] at hs
    split at hs
    · next hk =>
      obtain ⟨s1, hwakes, rfl⟩ := Option.map_eq_some_iff.mp hs
      obtain ⟨h1, hpending, hstarted, hawake⟩ := h.wakes hwakes
      have hall : s.started = n := h.serving k hk
      refine ⟨h1.exclusive, h1.pop, h1.popped, fun _ _ => hstarted.trans hall, fun _ => ?_⟩
      exact Or.inl (hawake (by omega))
    · cases hs

theorem of_reachable (hn : 2 ≤ n) (h : (runs n τ).Reachable s) : PoolOk n s := by
  refine System.invariant (PoolOk n) ?_ ?_ s h
  · intro s0 h0
    cases h0
    exact PoolOk.start n τ
  · exact fun s l s' hs hstep => hs.next hn hstep

theorem not_stranded (h : PoolOk n s) : ¬ Stranded s := by
  intro hs
  rcases h.awake hs.waiting with ⟨i, hi, ha⟩ | ⟨k, hk⟩
  · exact ha.2 (hs.blocked i hi)
  · simp [hs.signalled k] at hk

end PoolOk

theorem stranded_of_lt_two (t : τ) (hn : n < 2) : ∃ s, (runs n τ).Reachable s ∧ Stranded s := by
  obtain rfl | rfl : n = 0 ∨ n = 1 := by omega
  · refine ⟨_, ⟨_, [.push 0 t, .signal 0 none], rfl, System.steps_of_run rfl⟩, ?_⟩
    exact ⟨fun k => by by_cases hk : k = 0 <;> simp [hk, start], by simp [start],
      fun i hi => by simp [start] at hi⟩
  · refine ⟨_, ⟨_, [.create, .worker 0, .worker 0, .push 0 t, .signal 0 none, .worker 0], rfl,
      System.steps_of_run rfl⟩, ?_⟩
    exact ⟨fun k => by by_cases hk : k = 0 <;> simp [hk, start, setWorker],
      by simp [start, setWorker], fun i hi => by
        obtain rfl : i = 0 := by simpa [start, setWorker] using hi
        simp [setWorker]⟩

/-- Wakeups of a pool are lost exactly when it has less than two workers. -/
theorem stranded_iff (t : τ) : (∃ s, (runs n τ).Reachable s ∧ Stranded s) ↔ n < 2 := by
  constructor
  · intro ⟨s, hreach, hs⟩
    by_contra hn
    exact (PoolOk.of_reachable (by omega) hreach).not_stranded hs
  · exact stranded_of_lt_two t

/-- **No lost wakeup**: the pool of the server has twice as many workers as threads, as it
    is started twice, so in no interleaving is there a task with all workers blocked and
    no `Push` about to signal. -/
theorem tcp_pool_not_stranded {size : Nat} (hsize : 1 ≤ size)
    (h : (runs (tcpServerStart size) τ).Reachable s) : ¬ Stranded s := by
  have htwo : 2 ≤ tcpServerStart size := by
    unfold tcpServerStart getInstance startRun
    omega
  exact (PoolOk.of_reachable htwo h).not_stranded

/-- All but the last of the ten workers of the server are blocked when it has tested the
    queue, and the task that is pushed then wakes another worker. -/
theorem tcp_pool_not_stranded_ten :
    ∃ s : ThreadPool Nat, (runs (tcpServerStart 5) Nat).Reachable s ∧
      s.taskQueue = [7] ∧ s.workers 9 = .blocked ∧ s.workers 0 = .woken ∧ ¬ Stranded s := by
  obtain ⟨s, hrun, hs⟩ := Option.map_eq_some_iff.mp
    (show (System.run (next 10) (start Nat)
        (List.replicate 10 .create ++
          (List.range 9).flatMap (fun i => [.worker i, .worker i, .worker i]) ++
          [.worker 9, .worker 9, .push 0 7, .signal 0 (some 0), .worker 9])).map
        (fun s => (s.taskQueue, s.workers 9, s.workers 0)) =
          some ([7], .blocked, .woken) by decide +kernel)
  have hreach : (runs (tcpServerStart 5) Nat).Reachable s := ⟨_, _, rfl, System.steps_of_run hrun⟩
  simp only [Prod.mk.injEq] at hs
  exact ⟨s, hreach, hs.1, hs.2.1, hs.2.2, tcp_pool_not_stranded (by decide) hreach⟩

end ThreadPool

end CallLesson.Lessons
