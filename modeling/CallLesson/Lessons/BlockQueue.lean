import CallLesson.Framework.System
import CallLesson.Framework.Mutex
import CallLesson.Framework.Tally

/-! # The blocking queue

    `push` and `pop` of `lesson6/BlockQueue/BlockQueue.hpp`. Both lock the mutex, wait
    on a condition variable of their own while the queue does not let them go on, change
    the queue, signal the condition variable of the other one and unlock the mutex. -/

namespace CallLesson.Lessons

open List Tally

/-! ## Model -/

inductive Kind where
  | push
  | pop
  deriving DecidableEq

def Kind.other : Kind → Kind
  | .push => .pop
  | .pop => .push

inductive Op (τ : Type) where
  | push (val : τ)
  | pop
  deriving DecidableEq

def Op.kind {τ : Type} : Op τ → Kind
  | .push _ => .push
  | .pop => .pop

inductive QueuePc (τ : Type) where
  /-- Between two calls. -/
  | idle
  | finished
  | lock (op : Op τ)
  /-- At the test of the loop. -/
  | test (op : Op τ)
  /-- About to call `pthread_cond_wait`. -/
  | wait (op : Op τ)
  /-- In `pthread_cond_wait`, until it is signalled. -/
  | blocked (op : Op τ)
  /-- In `pthread_cond_wait`, about to lock the mutex again. -/
  | woken (op : Op τ)
  /-- About to change the queue. -/
  | act (op : Op τ)
  | signal (op : Op τ)
  | unlock
  deriving DecidableEq

def QueuePc.holds {τ : Type} : QueuePc τ → Bool
  | .test _ => true
  | .wait _ => true
  | .act _ => true
  | .signal _ => true
  | .unlock => true
  | _ => false

structure BlockQueue (n : Nat) (τ : Type) where
  q : List τ
  threads : Fin n → QueuePc τ
  /-- The thread that has locked the mutex. -/
  owner : Option (Fin n)
  /-- The values that have been pushed, and those that have been popped. -/
  pushed : List τ
  popped : List τ
  /-- `front` and `pop` have been called with the queue empty. -/
  poppedEmpty : Bool

inductive QueueStep (n : Nat) (τ : Type) where
  | call (t : Fin n) (op : Op τ)
  | finish (t : Fin n)
  | go (t : Fin n)
  /-- The signal of a thread, and the thread that it wakes. -/
  | signal (t : Fin n) (w : Option (Fin n))
  /-- A thread returns from the wait without a signal. -/
  | spurious (t : Fin n)
  deriving DecidableEq

namespace BlockQueue

variable {n cap : Nat} {τ : Type}

def start (n : Nat) (τ : Type) : BlockQueue n τ where
  q := []
  threads := fun _ => .idle
  owner := none
  pushed := []
  popped := []
  poppedEmpty := false

def setThread (s : BlockQueue n τ) (t : Fin n) (pc : QueuePc τ) : BlockQueue n τ :=
  { s with threads := Function.update s.threads t pc }

def isFull (cap : Nat) (s : BlockQueue n τ) : Bool := s.q.length == cap

def isEmpty (s : BlockQueue n τ) : Bool := s.q.isEmpty

def mustWait (cap : Nat) (s : BlockQueue n τ) : Op τ → Bool
  | .push _ => s.isFull cap
  | .pop => s.isEmpty

def lock (s : BlockQueue n τ) (t : Fin n) (op : Op τ) : Option (BlockQueue n τ) :=
  if s.owner = none then some { s.setThread t (.test op) with owner := some t } else none

def act (s : BlockQueue n τ) : Op τ → BlockQueue n τ
  | .push val => { s with q := s.q ++ [val], pushed := s.pushed ++ [val] }
  | .pop =>
      match s.q with
      | [] => { s with poppedEmpty := true }
      | val :: rest => { s with q := rest, popped := s.popped ++ [val] }

def go (cap : Nat) (s : BlockQueue n τ) (t : Fin n) : Option (BlockQueue n τ) :=
  match s.threads t with
  | .lock op => s.lock t op
  | .test op => some (s.setThread t (if s.mustWait cap op then .wait op else .act op))
  | .wait op => some { s.setThread t (.blocked op) with owner := none }
  | .woken op => s.lock t op
  | .act op => some ((s.act op).setThread t (.signal op))
  | .unlock => some { s.setThread t .idle with owner := none }
  | _ => none

def waitsOn (k : Kind) : QueuePc τ → Bool
  | .blocked op => op.kind == k
  | _ => false

def wakes (s : BlockQueue n τ) (k : Kind) : Option (Fin n) → Option (BlockQueue n τ)
  | some w =>
      match s.threads w with
      | .blocked op => if op.kind = k then some (s.setThread w (.woken op)) else none
      | _ => none
  | none => if ∀ w, waitsOn k (s.threads w) = false then some s else none

def next (cap : Nat) (s : BlockQueue n τ) : QueueStep n τ → Option (BlockQueue n τ)
  | .call t op =>
      match s.threads t with
      | .idle => some (s.setThread t (.lock op))
      | _ => none
  | .finish t =>
      match s.threads t with
      | .idle => some (s.setThread t .finished)
      | _ => none
  | .go t => s.go cap t
  | .signal t w =>
      match s.threads t with
      | .signal op => (s.wakes op.kind.other w).map (·.setThread t .unlock)
      | _ => none
  | .spurious t =>
      match s.threads t with
      | .blocked op => some (s.setThread t (.woken op))
      | _ => none

def runs (n cap : Nat) (τ : Type) : System (BlockQueue n τ) (QueueStep n τ) :=
  System.ofNext (start n τ) (next cap)

/-! ## The queue -/

def room (cap : Nat) (s : BlockQueue n τ) : Kind → Nat
  | .push => cap - s.q.length
  | .pop => s.q.length

def heeds (k : Kind) : QueuePc τ → Nat
  | .test op => if op.kind = k then 1 else 0
  | .woken op => if op.kind = k then 1 else 0
  | .act op => if op.kind = k then 1 else 0
  | .signal op => if op.kind.other = k then 1 else 0
  | _ => 0

def waits (k : Kind) (pc : QueuePc τ) : Nat := (waitsOn k pc).toNat

def heeding (s : BlockQueue n τ) (k : Kind) : Nat := tally (heeds k) s.threads

def waiting (s : BlockQueue n τ) (k : Kind) : Nat := tally (waits k) s.threads

def holds (s : BlockQueue n τ) (t : Fin n) : Bool := (s.threads t).holds

structure QueueOk (cap : Nat) (s : BlockQueue n τ) : Prop where
  exclusive : Mutex.Exclusive s.owner s.holds
  bounded : s.q.length ≤ cap
  order : s.popped ++ s.q = s.pushed
  popped : s.poppedEmpty = false
  wait : ∀ t op, s.threads t = .wait op → s.room cap op.kind = 0
  act : ∀ t op, s.threads t = .act op → 0 < s.room cap op.kind
  /-- As long as threads wait, no signal has been spared. -/
  heeded : ∀ k, 0 < s.waiting k → s.room cap k ≤ s.heeding k

variable {s s' : BlockQueue n τ}

section

variable (s : BlockQueue n τ) (t : Fin n) (pc : QueuePc τ)

theorem holds_setThread : (s.setThread t pc).holds = Function.update s.holds t pc.holds := by
  funext u
  by_cases hu : u = t
  · subst hu
    simp [holds, setThread]
  · simp [holds, setThread, hu]

theorem heeding_setThread (k : Kind) :
    (s.setThread t pc).heeding k + heeds k (s.threads t) = s.heeding k + heeds k pc :=
  tally_update (heeds k) s.threads t pc

theorem waiting_setThread (k : Kind) :
    (s.setThread t pc).waiting k + waits k (s.threads t) = s.waiting k + waits k pc :=
  tally_update (waits k) s.threads t pc

end

theorem mustWait_iff (hcap : s.q.length ≤ cap) (op : Op τ) :
    s.mustWait cap op = true ↔ s.room cap op.kind = 0 := by
  cases op with
  | push val =>
    simp only [mustWait, isFull, beq_iff_eq, Op.kind, room]
    omega
  | pop => simp [mustWait, isEmpty, Op.kind, room]

variable {t : Fin n} {op : Op τ} {pc : QueuePc τ}

namespace QueueOk

theorem start (cap n : Nat) (τ : Type) : QueueOk cap (start n τ) where
  exclusive t ht := by cases ht
  bounded := Nat.zero_le cap
  order := rfl
  popped := rfl
  wait t op h := by cases h
  act t op h := by cases h
  heeded k hk := by
    have : (BlockQueue.start n τ).waiting k = 0 := tally_eq_zero.mpr fun _ => rfl
    omega

theorem move (h : QueueOk cap s) {owner : Option (Fin n)}
    (hexcl : Mutex.Exclusive owner (Function.update s.holds t pc.holds))
    (hwait : ∀ op, pc = .wait op → s.room cap op.kind = 0)
    (hact : ∀ op, pc = .act op → 0 < s.room cap op.kind)
    (hheeded : ∀ k, s.room cap k ≠ 0 → 0 < (s.setThread t pc).waiting k →
      s.room cap k ≤ (s.setThread t pc).heeding k) :
    QueueOk cap { s.setThread t pc with owner := owner } where
  exclusive := by
    rw [← holds_setThread] at hexcl
    exact hexcl
  bounded := h.bounded
  order := h.order
  popped := h.popped
  wait u op hu := by
    by_cases hut : u = t
    · subst hut
      exact hwait op (by simpa [setThread] using hu)
    · exact h.wait u op (by simpa [setThread, Function.update_of_ne hut] using hu)
  act u op hu := by
    by_cases hut : u = t
    · subst hut
      exact hact op (by simpa [setThread] using hu)
    · exact h.act u op (by simpa [setThread, Function.update_of_ne hut] using hu)
  heeded k hk := by
    by_cases hroom : s.room cap k = 0
    · exact hroom.le.trans (Nat.zero_le _)
    · exact hheeded k hroom hk

theorem heeded_setThread (h : QueueOk cap s) {k : Kind}
    (hwaits : waits k pc ≤ waits k (s.threads t)) (hheeds : heeds k (s.threads t) ≤ heeds k pc)
    (hk : 0 < (s.setThread t pc).waiting k) : s.room cap k ≤ (s.setThread t pc).heeding k := by
  have hw := waiting_setThread s t pc k
  have hh := heeding_setThread s t pc k
  have := h.heeded k (by omega)
  omega

theorem locks (h : QueueOk cap s) (hpc : s.threads t = .lock op ∨ s.threads t = .woken op)
    (hs : s.lock t op = some s') : QueueOk cap s' := by
  unfold BlockQueue.lock at hs
  split at hs
  · next hfree =>
    cases hs
    refine h.move ((hfree ▸ h.exclusive).acquire t) (by simp) (by simp) fun k _ hk =>
      h.heeded_setThread (by simp [waits, waitsOn]) ?_ hk
    rcases hpc with hpc | hpc <;> simp [hpc, heeds]
  · cases hs

theorem holds_of_pc (hpc : s.threads t = pc) (hholds : pc.holds = true) : s.holds t = true := by
  rw [holds, hpc]
  exact hholds

theorem tests (h : QueueOk cap s) (hpc : s.threads t = .test op) :
    QueueOk cap (s.setThread t (if s.mustWait cap op then .wait op else .act op)) := by
  have hholds := holds_of_pc hpc rfl
  have hiff := mustWait_iff h.bounded op
  by_cases hwait : s.mustWait cap op = true
  · rw [if_pos hwait]
    refine h.move (h.exclusive.goOn fun _ => hholds) ?_ (by simp) fun k hroom hk =>
      h.heeded_setThread (by simp [waits, waitsOn]) ?_ hk
    · intro op' hop'
      cases hop'
      exact hiff.mp hwait
    · -- there is no room for this thread, so it is not among those that are counted
      have hne : op.kind ≠ k := fun heq => hroom (heq ▸ hiff.mp hwait)
      simp [hpc, heeds, hne]
  · rw [if_neg hwait]
    refine h.move (h.exclusive.goOn fun _ => hholds) (by simp) ?_ fun k _ hk =>
      h.heeded_setThread (by simp [waits, waitsOn]) (by simp [hpc, heeds]) hk
    intro op' hop'
    cases hop'
    exact Nat.pos_of_ne_zero fun h0 => hwait (hiff.mpr h0)

theorem sleeps (h : QueueOk cap s) (hpc : s.threads t = .wait op) :
    QueueOk cap { s.setThread t (.blocked op) with owner := none } := by
  have hroom := h.wait t op hpc
  refine h.move (h.exclusive.release (holds_of_pc hpc rfl)) (by simp) (by simp) fun k hk0 hk =>
    h.heeded_setThread ?_ (by simp [hpc, heeds]) hk
  have hne : (op.kind == k) = false := beq_eq_false_iff_ne.mpr fun heq => hk0 (heq ▸ hroom)
  simp [waits, waitsOn, hne]

theorem unlocks (h : QueueOk cap s) (hpc : s.threads t = .unlock) :
    QueueOk cap { s.setThread t .idle with owner := none } :=
  h.move (h.exclusive.release (holds_of_pc hpc rfl)) (by simp) (by simp) fun _ _ hk =>
    h.heeded_setThread (by simp [waits, waitsOn]) (by simp [hpc, heeds]) hk

end QueueOk

theorem room_act (hbounded : s.q.length ≤ cap) (hroom : 0 < s.room cap op.kind) :
    (s.act op).room cap op.kind + 1 = s.room cap op.kind ∧
      (s.act op).room cap op.kind.other = s.room cap op.kind.other + 1 := by
  cases op with
  | push val =>
    simp only [Op.kind, room] at hroom
    constructor
    · simp only [Op.kind, room, act, length_append, length_singleton]
      omega
    · simp [Op.kind, Kind.other, room, act]
  | pop =>
    obtain ⟨val, rest, hq⟩ : ∃ val rest, s.q = val :: rest :=
      exists_cons_of_length_pos hroom
    simp only [hq, length_cons] at hbounded
    constructor
    · simp [Op.kind, room, act, hq]
    · simp only [Op.kind, Kind.other, room, act, hq, length_cons]
      omega

theorem act_frame (s : BlockQueue n τ) (op : Op τ) :
    (s.act op).threads = s.threads ∧ (s.act op).owner = s.owner := by
  cases op with
  | push val => exact ⟨rfl, rfl⟩
  | pop =>
    simp only [act]
    split <;> exact ⟨rfl, rfl⟩

namespace QueueOk

section

variable (h : QueueOk cap s)

include h

theorem acts_queue (hpc : s.threads t = .act op) :
    (s.act op).q.length ≤ cap ∧ (s.act op).popped ++ (s.act op).q = (s.act op).pushed ∧
      (s.act op).poppedEmpty = false := by
  have hroom := h.act t op hpc
  have hbounded := h.bounded
  cases op with
  | push val =>
    simp only [Op.kind, room] at hroom
    refine ⟨?_, ?_, h.popped⟩
    · simp only [BlockQueue.act, length_append, length_singleton]
      omega
    · simp only [BlockQueue.act, ← h.order, append_assoc]
  | pop =>
    obtain ⟨val, rest, hq⟩ : ∃ val rest, s.q = val :: rest :=
      exists_cons_of_length_pos hroom
    have horder := h.order
    rw [hq] at hbounded horder
    simp only [length_cons] at hbounded
    refine ⟨?_, ?_, ?_⟩
    · simp only [BlockQueue.act, hq]
      omega
    · simp only [BlockQueue.act, hq, ← horder, append_assoc, singleton_append]
    · simp only [BlockQueue.act, hq, h.popped]

theorem acts (hpc : s.threads t = .act op) : QueueOk cap ((s.act op).setThread t (.signal op)) := by
  obtain ⟨hbounded, horder, hpopped⟩ := h.acts_queue hpc
  obtain ⟨hthreads, howner⟩ := act_frame s op
  obtain ⟨hown, hother⟩ := room_act h.bounded (h.act t op hpc)
  have hholds := holds_of_pc hpc rfl
  have hexcl : Mutex.Exclusive ((s.act op).setThread t (.signal op)).owner
      ((s.act op).setThread t (.signal op)).holds := by
    have heq : (s.act op).holds = s.holds := by
      funext u
      simp only [holds, hthreads]
    rw [holds_setThread, heq]
    exact howner ▸ h.exclusive.goOn fun _ => hholds
  -- the mutex keeps the other threads from being between a test and its use
  have hidle : ∀ u pc, ((s.act op).setThread t (.signal op)).threads u = pc →
      pc.holds = true → pc = .signal op := by
    intro u pc hu hpc'
    have hut : u = t := hexcl.unique (holds_of_pc hu hpc') (by
      simp [holds, setThread, QueuePc.holds])
    subst hut
    simpa [setThread] using hu.symm
  refine ⟨hexcl, hbounded, horder, hpopped, fun u op' hu => ?_, fun u op' hu => ?_, fun k hk => ?_⟩
  · cases hidle u _ hu rfl
  · cases hidle u _ hu rfl
  · have hw := waiting_setThread (s.act op) t (.signal op) k
    have hh := heeding_setThread (s.act op) t (.signal op) k
    have hw0 : (s.act op).waiting k = s.waiting k := by simp only [waiting, hthreads]
    have hh0 : (s.act op).heeding k = s.heeding k := by simp only [heeding, hthreads]
    rw [hw0, hthreads, hpc] at hw
    rw [hh0, hthreads, hpc] at hh
    simp only [waits, waitsOn, Bool.toNat_false] at hw
    have hbefore := h.heeded k (by omega)
    show (s.act op).room cap k ≤ _
    -- one of the two counts of this thread replaces the other
    by_cases hk' : op.kind = k
    · subst hk'
      simp only [heeds, if_true] at hh
      omega
    · obtain rfl : k = op.kind.other := by
        revert hk'
        cases op <;> cases k <;> simp [Op.kind, Kind.other]
      simp only [heeds, hk', if_false, if_true] at hh
      omega

theorem go (hs : s.go cap t = some s') : QueueOk cap s' := by
  unfold BlockQueue.go at hs
  split at hs
  · next hpc => exact h.locks (Or.inl hpc) hs
  · next hpc =>
    cases hs
    exact h.tests hpc
  · next hpc =>
    cases hs
    exact h.sleeps hpc
  · next hpc => exact h.locks (Or.inr hpc) hs
  · next hpc =>
    cases hs
    exact h.acts hpc
  · next hpc =>
    cases hs
    exact h.unlocks hpc
  · cases hs

theorem wakesUp (hpc : s.threads t = .blocked op) : QueueOk cap (s.setThread t (.woken op)) :=
  h.move (h.exclusive.goOn (by simp [QueuePc.holds])) (by simp) (by simp) fun _ _ hk =>
    h.heeded_setThread (by simp [waits, waitsOn]) (by simp [hpc, heeds]) hk

theorem wakes {k : Kind} {w : Option (Fin n)} (hs : s.wakes k w = some s') :
    QueueOk cap s' ∧ (s'.waiting k = 0 ∨ s'.room cap k + 1 ≤ s'.heeding k) ∧
      ∀ t op, s.threads t = .signal op → s'.threads t = .signal op := by
  unfold BlockQueue.wakes at hs
  split at hs
  · next w =>
    split at hs
    · next op hw =>
      split at hs
      · next hkind =>
        cases hs
        refine ⟨h.wakesUp hw, Or.inr ?_, fun t op' ht => ?_⟩
        · have hheeding := heeding_setThread s w (.woken op) k
          have hpos : 0 < s.waiting k := by
            have := le_tally (waits k) s.threads w
            simp only [hw, waits, waitsOn, hkind, beq_self_eq_true, Bool.toNat_true] at this
            exact this
          have hbefore := h.heeded k hpos
          simp only [hw, heeds, hkind, if_true] at hheeding
          show s.room cap k + 1 ≤ _
          omega
        · have htw : t ≠ w := by
            intro htw
            rw [htw, hw] at ht
            cases ht
          simpa [setThread, Function.update_of_ne htw] using ht
      · cases hs
    · cases hs
  · split at hs
    · next hnone =>
      cases hs
      refine ⟨h, Or.inl (tally_eq_zero.mpr fun w => ?_), fun _ _ ht => ht⟩
      simp [waits, hnone w]
    · cases hs

theorem signals {w : Option (Fin n)} (hpc : s.threads t = .signal op)
    (hs : (s.wakes op.kind.other w).map (·.setThread t .unlock) = some s') : QueueOk cap s' := by
  obtain ⟨s1, hwakes, rfl⟩ := Option.map_eq_some_iff.mp hs
  obtain ⟨h1, hslack, hsame⟩ := h.wakes hwakes
  have hpc1 := hsame t op hpc
  refine h1.move (h1.exclusive.goOn fun _ => holds_of_pc hpc1 rfl) (by simp) (by simp)
    fun k _ hk => ?_
  have hw := waiting_setThread s1 t .unlock k
  have hh := heeding_setThread s1 t .unlock k
  simp only [hpc1, waits, waitsOn, Bool.toNat_false] at hw
  by_cases hk' : op.kind.other = k
  · subst hk'
    simp only [hpc1, heeds, if_true] at hh
    omega
  · have := h1.heeded k (by omega)
    simp only [hpc1, heeds, hk', if_false] at hh
    omega

theorem next {l : QueueStep n τ} (hs : s.next cap l = some s') : QueueOk cap s' := by
  cases l with
  | call t op =>
    simp only [BlockQueue.next] at hs
    split at hs
    · next hpc =>
      cases hs
      exact h.move (h.exclusive.goOn (by simp [QueuePc.holds])) (by simp) (by simp) fun _ _ hk =>
        h.heeded_setThread (by simp [waits, waitsOn]) (by simp [hpc, heeds]) hk
    · cases hs
  | finish t =>
    simp only [BlockQueue.next] at hs
    split at hs
    · next hpc =>
      cases hs
      exact h.move (h.exclusive.goOn (by simp [QueuePc.holds])) (by simp) (by simp) fun _ _ hk =>
        h.heeded_setThread (by simp [waits, waitsOn]) (by simp [hpc, heeds]) hk
    · cases hs
  | go t => exact h.go hs
  | signal t w =>
    simp only [BlockQueue.next] at hs
    split at hs
    · next hpc => exact h.signals hpc hs
    · cases hs
  | spurious t =>
    simp only [BlockQueue.next] at hs
    split at hs
    · next hpc =>
      cases hs
      exact h.wakesUp hpc
    · cases hs

end

theorem of_reachable (h : (runs n cap τ).Reachable s) : QueueOk cap s := by
  refine System.invariant (QueueOk cap) ?_ ?_ s h
  · intro s0 h₀
    cases h₀
    exact QueueOk.start cap n τ
  · exact fun s l s' hs hstep => hs.next hstep

end QueueOk

structure Stuck (cap : Nat) (s : BlockQueue n τ) : Prop where
  blocked : ∀ t, s.threads t = .finished ∨ ∃ op, s.threads t = .blocked op
  room : ∃ t op, s.threads t = .blocked op ∧ s.mustWait cap op = false

theorem QueueOk.exists_heeds (h : QueueOk cap s) (ht : s.threads t = .blocked op)
    (hroom : s.mustWait cap op = false) : ∃ u, heeds op.kind (s.threads u) ≠ 0 := by
  have hwaiting : 0 < s.waiting op.kind := by
    have := le_tally (waits op.kind) s.threads t
    simp only [ht, waits, waitsOn, beq_self_eq_true, Bool.toNat_true] at this
    exact this
  have hheeded := h.heeded op.kind hwaiting
  by_contra hnone
  push Not at hnone
  have hheeding : s.heeding op.kind = 0 := tally_eq_zero.mpr hnone
  have hzero : s.room cap op.kind = 0 := by omega
  simp [(mustWait_iff h.bounded op).mpr hzero] at hroom

theorem QueueOk.not_stuck (h : QueueOk cap s) : ¬ Stuck cap s := by
  intro hstuck
  obtain ⟨t, op, ht, hroom⟩ := hstuck.room
  obtain ⟨u, hu⟩ := h.exists_heeds ht hroom
  rcases hstuck.blocked u with hfin | ⟨op', hblocked⟩
  · simp [hfin, heeds] at hu
  · simp [hblocked, heeds] at hu

/-- **The blocking queue**: in every interleaving of the calls of any number of threads
    the queue holds at most `cap` values, the values are popped in the order pushed, each
    once, and the threads that have not finished are never all blocked with one of them
    able to go on. While a thread is blocked with room for its call, another one is awake
    in a call of the same kind or about to signal that kind. -/
theorem block_queue_correct (h : (runs n cap τ).Reachable s) :
    s.q.length ≤ cap ∧ s.popped ++ s.q = s.pushed ∧ s.poppedEmpty = false ∧ ¬ Stuck cap s ∧
      ∀ t op, s.threads t = .blocked op → s.mustWait cap op = false →
        ∃ u, heeds op.kind (s.threads u) ≠ 0 := by
  have hok := QueueOk.of_reachable h
  exact ⟨hok.bounded, hok.order, hok.popped, hok.not_stuck,
    fun _ _ ht hroom => hok.exists_heeds ht hroom⟩

/-- Two producers and a consumer on a queue of one value: the second producer waits, is
    woken by the consumer's signal and pushes after it. -/
theorem block_queue_correct_one :
    ∃ s : BlockQueue 3 Nat, (runs 3 1 Nat).Reachable s ∧ s.pushed = [7, 8] ∧
      s.popped = [7] ∧ s.popped ++ s.q = s.pushed ∧ ¬ Stuck 1 s := by
  obtain ⟨s, hrun, hs⟩ := Option.map_eq_some_iff.mp
    (show (System.run (next 1) (start 3 Nat)
        [.call 0 (.push 7), .go 0, .go 0, .go 0, .signal 0 none, .go 0,
          .call 1 (.push 8), .go 1, .go 1, .go 1,
          .call 2 .pop, .go 2, .go 2, .go 2, .signal 2 (some 1), .go 2,
          .go 1, .go 1, .go 1, .signal 1 none, .go 1]).map
        (fun s => (s.pushed, s.popped)) = some ([7, 8], [7]) by decide +kernel)
  have hreach : (runs 3 1 Nat).Reachable s := ⟨_, _, rfl, System.steps_of_run hrun⟩
  simp only [Prod.mk.injEq] at hs
  have hok := block_queue_correct hreach
  exact ⟨s, hreach, hs.1, hs.2, hok.2.1, hok.2.2.2.1⟩

end BlockQueue

end CallLesson.Lessons
