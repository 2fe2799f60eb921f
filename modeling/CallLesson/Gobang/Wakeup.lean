import CallLesson.Gobang.Matching

/-! # Sleeping threads

    A thread of the matcher looks at the size of its queue and waits when it
    is too short. `size` and `wait` take the mutex one after the other, and
    the notification of a `push` between them finds nobody waiting. -/

namespace CallLesson.Gobang.Matcher

open Function

variable {s s' : Matcher} {tier : Tier}

def pushesInto (s : Matcher) : MatcherStep → Option Tier
  | .call (.push _ tier) => some tier
  | .thread tier =>
      match s.pc tier with
      | .push _ tier' _ => some tier'
      | _ => none
  | _ => none

def noticed (s : Matcher) (l : MatcherStep) : Bool :=
  (pushesInto s l).all fun tier => decide (s.pc tier ≠ .wait) || (s.queue tier).isEmpty

def noticedRuns [JsonCpp] (server : Server) (scores : Nat → Option Int) :
    System Matcher MatcherStep :=
  (runs server scores).restrict fun s l => noticed s l = true

def Awake (s : Matcher) : Prop :=
  ∀ tier, s.pc tier = .wait ∨ s.pc tier = .blocked → (s.queue tier).length < 2

theorem setPc_pc_self (s : Matcher) (tier : Tier) (pc : Pc) : (s.setPc tier pc).pc tier = pc :=
  update_self _ _ _

theorem setPc_pc_ne (s : Matcher) {t : Tier} (pc : Pc) (h : t ≠ tier) :
    (s.setPc tier pc).pc t = s.pc t := update_of_ne h _ _

theorem Awake.setPc (h : Awake s) {pc : Pc}
    (hpc : pc = .wait ∨ pc = .blocked → (s.queue tier).length < 2) : Awake (s.setPc tier pc) := by
  intro t ht
  by_cases hts : t = tier
  · subst hts
    rw [setPc_pc_self] at ht
    exact hpc ht
  · rw [setPc_pc_ne _ _ hts] at ht
    exact h t ht

theorem Awake.setPc_busy (h : Awake s) {pc : Pc} (hwait : pc ≠ .wait) (hblocked : pc ≠ .blocked) :
    Awake (s.setPc tier pc) :=
  h.setPc fun hpc => (hpc.elim hwait hblocked).elim

theorem Awake.shorter (h : Awake s) {queue : List Nat}
    (hle : queue.length ≤ (s.queue tier).length) :
    Awake { s with queue := update s.queue tier queue } := by
  intro t ht
  have hlt := h t ht
  dsimp only
  by_cases hts : t = tier
  · subst hts
    rw [update_self]
    exact Nat.lt_of_le_of_lt hle hlt
  · rw [update_of_ne hts]
    exact hlt

theorem Awake.push (h : Awake s) {u : Nat} (hempty : s.pc tier = .wait → s.queue tier = []) :
    Awake (s.push tier u) := by
  intro t ht
  unfold Matcher.push at ht ⊢
  dsimp only at ht ⊢
  by_cases hts : t = tier
  · subst hts
    rw [update_self] at ht ⊢
    -- a thread that was blocked is notified
    have hwait : s.pc t = .wait := by
      cases hpc : s.pc t <;> simp [hpc, Pc.notified] at ht ⊢
    rw [hempty hwait]
    exact Nat.one_lt_two
  · rw [update_of_ne hts] at ht ⊢
    exact h t ht

theorem Awake.thread (h : Awake s) (hnoticed : noticed s (.thread tier) = true)
    (hstep : ThreadStep s tier s') : Awake s' := by
  cases hstep with
  | goOn pc _ hwait hblocked =>
    apply h.setPc
    rintro (rfl | rfl)
    · exact hwait rfl
    · exact h tier (Or.inl (hblocked rfl))
  | take u rest pc hq hheld =>
    have hpop : Awake (s.popped tier rest) := h.shorter (by simp [hq])
    -- a thread that waits has no user in its hands
    apply hpop.setPc_busy
    · rintro rfl
      simp [Pc.held] at hheld
    · rintro rfl
      simp [Pc.held] at hheld
  | lose u uids _ _ => exact h.setPc_busy nofun nofun
  | place rp rm conn1 conn2 _ =>
    have hset : Awake (s.setPc tier (.reply conn1 conn2)) := h.setPc_busy nofun nofun
    exact hset
  | reply sv _ _ =>
    have hset : Awake (s.setPc tier .size) := h.setPc_busy nofun nofun
    exact hset
  | give u tier' rest hpc =>
    have hset : Awake (s.setPc tier (.select rest)) := h.setPc_busy nofun nofun
    apply hset.push
    intro hwait
    -- the thread that pushes does not wait, so the queue is another thread's
    have hne : tier' ≠ tier := by
      rintro rfl
      rw [setPc_pc_self] at hwait
      cases hwait
    rw [setPc_pc_ne _ _ hne] at hwait
    show s.queue tier' = []
    simpa [noticed, pushesInto, hpc, hwait] using hnoticed

theorem Awake.next [JsonCpp] {l : MatcherStep} (h : Awake s) (hnoticed : noticed s l = true)
    (hnext : next s l = some s') : Awake s' := by
  cases l with
  | joinHall u conn => cases hnext; exact h
  | exitHall u => cases hnext; exact h
  | score u value => cases hnext; exact h
  | message u req =>
    simp only [Matcher.next] at hnext
    split at hnext
    · cases hnext
    · cases hnext
      unfold message
      split <;> exact h
  | call c =>
    simp only [Matcher.next] at hnext
    split at hnext
    · cases hnext
      cases c with
      | add u =>
        unfold callStep
        dsimp only
        split <;> exact h
      | push u tier =>
        have hreturns : Awake (s.returns (.push u tier)) := h
        apply hreturns.push
        intro hwait
        have hpc : s.pc tier = .wait := hwait
        show s.queue tier = []
        simpa [noticed, pushesInto, hpc] using hnoticed
      | del u =>
        unfold callStep
        dsimp only
        split <;> exact h
      | remove u tier =>
        have hshort : Awake (s.remove tier u) := h.shorter (List.length_filter_le _ _)
        exact hshort
    · cases hnext
  | wake tier =>
    cases hnext
    apply h.setPc
    intro hpc
    -- a spurious wakeup ends the wait; only a thread still before `wait` is left
    have hwait : s.pc tier = .wait := by
      cases h' : s.pc tier <;> simp [h', Pc.notified] at hpc ⊢
    exact h tier (Or.inl hwait)
  | thread tier => exact h.thread hnoticed (handleMatch_step hnext)

/-- **No thread sleeps on a queue with two users**, when no push that makes
    it so falls between `size` and `wait` of the thread. -/
theorem no_sleep_on_matchable_queue [JsonCpp] (server : Server) (scores : Nat → Option Int)
    (s : Matcher) (h : (noticedRuns server scores).Reachable s) (tier : Tier) :
    ¬ (2 ≤ (s.queue tier).length ∧ s.pc tier = .blocked) := by
  have hawake : Awake s := by
    refine System.invariant Awake ?_ ?_ s h
    · rintro _ rfl tier _
      exact Nat.zero_lt_two
    · rintro s1 l s2 h1 ⟨hcond, hnext⟩
      exact h1.next hcond hnext
  rintro ⟨hlong, hblocked⟩
  have hshort := hawake tier (Or.inr hblocked)
  omega

attribute [local instance] JsonCpp.standard

/-- The thread sleeps before the users come, and is woken. -/
theorem no_sleep_woken : ∃ s : Matcher, (noticedRuns Server.initial fun _ => some 1000).Steps
        (start Server.initial fun _ => some 1000)
        (.thread .normal :: .thread .normal :: bothStart) s ∧
      s.queue .normal = [7, 8] ∧ ¬ (2 ≤ (s.queue .normal).length ∧ s.pc .normal = .blocked) := by
  have hrun : (noticedRuns Server.initial fun _ => some 1000).Steps
      (start Server.initial fun _ => some 1000)
      (.thread .normal :: .thread .normal :: bothStart) _ :=
    System.restrict_steps_of_run rfl
  exact ⟨_, hrun, rfl, no_sleep_on_matchable_queue _ _ _ ⟨_, _, rfl, hrun⟩ .normal⟩

/-- Both users come between `size` and `wait`, and the thread sleeps; no push
    is in progress. -/
theorem sleeps_on_matchable_queue : ∃ s : Matcher, (runs Server.initial fun _ => some 1000).Steps
        (start Server.initial fun _ => some 1000)
        (.thread .normal :: (bothStart ++ [.thread .normal])) s ∧
      s.queue .normal = [7, 8] ∧ s.pc .normal = .blocked ∧ s.calls = [] ∧
      s.pc .high = .size ∧ s.pc .super = .size :=
  ⟨_, System.steps_of_run rfl, rfl, rfl, rfl, rfl, rfl⟩

end CallLesson.Gobang.Matcher
