import CallLesson.Reactor.WheelThread

/-! # When the callbacks run

    A task that is neither refreshed nor cancelled has one pointer, in slot
    `(_tick + timeout) % 60`, and there is no count of rounds: its callback runs
    in the next tick that clears this slot, at most 60 ticks after the add
    whatever the timeout. -/

namespace CallLesson.Reactor

open List TimerWheel Exec

variable {h : Handle} {rest : List Handle} {d : Nat}

namespace WheelThread

variable {κ : Type}

/-! ## The next tick that clears a slot -/

def lag (now d : Nat) : Nat :=
  ((now % capacity + d) % 2 ^ 32 % capacity + (capacity - 1) - now % capacity) % capacity + 1

theorem lag_pos (now d : Nat) : 1 ≤ lag now d := Nat.le_add_left 1 _

theorem lag_le (now d : Nat) : lag now d ≤ capacity :=
  Nat.succ_le_of_lt (Nat.mod_lt _ (Nat.zero_lt_succ _))

theorem lag_slot (now d : Nat) :
    (now + lag now d) % capacity = (now % capacity + d) % 2 ^ 32 % capacity := by
  unfold lag capacity
  omega

theorem lag_eq_self (now : Nat) (hpos : 1 ≤ d) (hle : d ≤ capacity) : lag now d = d := by
  unfold lag
  rw [add_slot (Nat.mod_lt _ (Nat.zero_lt_succ _)) hle]
  unfold capacity at *
  omega

theorem lag_lt {now : Nat} (hslot : (now % capacity + d) % 2 ^ 32 % capacity ≠ now % capacity) :
    lag now d < capacity := by
  refine Nat.lt_of_le_of_ne (lag_le now d) ?_
  intro hfull
  have hcleared := lag_slot now d
  rw [hfull, Nat.add_mod_right] at hcleared
  exact hslot hcleared.symm

/-! ## One pointer, dropped in one tick -/

def due (s : WheelThread κ) (h : Handle) (task : TimerTask κ) : Nat :=
  s.armed h + lag (s.armed h) task.timeout

structure Waits (s : WheelThread κ) (h : Handle) (t : Nat) : Prop where
  one : ∀ p, (s.wheel.wheel p).count h = if p = t % capacity then 1 else 0
  later : s.now < t ∨ (s.now = t ∧ s.clearing ≠ none)
  soon : t ≤ s.now + capacity
  sooner : s.clearing ≠ none → t < s.now + capacity
  runs_eq : s.runs h = []

structure Fired (s : WheelThread κ) (h : Handle) (t : Nat) : Prop where
  gone : ∀ p, (s.wheel.wheel p).count h = 0
  due_le : t ≤ s.now
  runs_eq : s.runs h = [t]

structure Timely (s : WheelThread κ) : Prop where
  fresh : ∀ h, s.wheel.tasks.length ≤ h → s.touched h = false ∧ s.runs h = []
  task : ∀ h task, s.wheel.tasks[h]? = some task → s.touched h = false →
    task.cancel = false ∧ (Waits s h (s.due h task) ∨ Fired s h (s.due h task))

structure SameFor (h : Handle) (s s' : WheelThread κ) : Prop where
  count_eq : ∀ p, (s'.wheel.wheel p).count h = (s.wheel.wheel p).count h
  now_eq : s'.now = s.now
  idle_iff : s'.clearing = none ↔ s.clearing = none
  runs_eq : s'.runs h = s.runs h

variable {s s' : WheelThread κ}

theorem SameFor.waits (hsame : SameFor h s s') {t : Nat} (hw : Waits s h t) : Waits s' h t where
  one := fun p => (hsame.count_eq p).trans (hw.one p)
  later := by
    rw [hsame.now_eq, Ne, hsame.idle_iff]
    exact hw.later
  soon := by
    rw [hsame.now_eq]
    exact hw.soon
  sooner := by
    rw [hsame.now_eq, Ne, hsame.idle_iff]
    exact hw.sooner
  runs_eq := hsame.runs_eq.trans hw.runs_eq

theorem SameFor.fired (hsame : SameFor h s s') {t : Nat} (hf : Fired s h t) : Fired s' h t where
  gone := fun p => (hsame.count_eq p).trans (hf.gone p)
  due_le := by
    rw [hsame.now_eq]
    exact hf.due_le
  runs_eq := hsame.runs_eq.trans hf.runs_eq

theorem initial_timely : Timely (initial κ) where
  fresh := fun _ _ => ⟨rfl, rfl⟩
  task := fun _ _ htask => (by cases htask)

theorem count_pushSlot (w : TimerWheel κ) (p q : Nat) (pt h : Handle) :
    ((w.pushSlot p pt).wheel q).count h =
      (w.wheel q).count h + if q = p ∧ pt = h then 1 else 0 := by
  by_cases hq : q = p
  · subst hq
    rw [pushSlot_wheel_self, count_append, count_singleton]
    simp
  · have hkeep : (w.pushSlot p pt).wheel q = w.wheel q := setSlot_wheel_ne _ _ hq
    simp [hkeep, hq]

theorem count_pushSlot_ne (w : TimerWheel κ) (p q : Nat) {pt : Handle} (hne : h ≠ pt) :
    ((w.pushSlot p pt).wheel q).count h = (w.wheel q).count h := by
  rw [count_pushSlot, if_neg fun heq => hne heq.2.symm, Nat.add_zero]

theorem Sound.count_new (hs : Sound s) (p : Nat) :
    (s.wheel.wheel p).count s.wheel.tasks.length = 0 :=
  count_eq_zero.mpr fun hmem => Nat.lt_irrefl _ (hs.handle_lt p _ hmem)

theorem Sound.waits_added (hs : Sound s) (ht : Timely s) (id d : Nat) (cb : κ)
    (hclear : s.Clear ((s.wheel.tick + d) % 2 ^ 32 % capacity)) :
    Waits (s.added id d cb) s.wheel.tasks.length (s.now + lag s.now d) := by
  have hslot := lag_slot s.now d
  rw [← hs.tick_eq] at hslot
  have hpos := lag_pos s.now d
  refine ⟨?_, ?_, ?_, ?_, (ht.fresh _ (Nat.le_refl _)).2⟩
  · intro p
    have hcount : (((s.added id d cb).wheel.wheel p).count s.wheel.tasks.length) = _ :=
      count_pushSlot _ _ p s.wheel.tasks.length s.wheel.tasks.length
    rw [hcount, hslot]
    have hnew := hs.count_new p
    simp [hnew]
  · left
    change s.now < s.now + lag s.now d
    omega
  · exact Nat.add_le_add_left (lag_le s.now d) s.now
  · intro hclearing
    refine Nat.add_lt_add_left (lag_lt ?_) s.now
    rw [← hs.tick_eq]
    exact hclear.resolve_left hclearing

theorem Timely.added (hs : Sound s) (ht : Timely s) (id d : Nat) (cb : κ)
    (hclear : s.Clear ((s.wheel.tick + d) % 2 ^ 32 % capacity)) : Timely (s.added id d cb) where
  fresh := by
    intro h hlen
    refine ht.fresh h (Nat.le_trans ?_ hlen)
    simp [WheelThread.added]
  task := by
    intro h task htask htouched
    rcases TimerWheel.getElem?_add_cases htask with hold | ⟨rfl, rfl⟩
    · have hne : h ≠ s.wheel.tasks.length :=
        Nat.ne_of_lt (List.getElem?_eq_some_iff.mp hold).1
      have hdue : (s.added id d cb).due h task = s.due h task := by
        simp only [due, WheelThread.added, if_neg hne]
      have hsame : SameFor h s (s.added id d cb) :=
        ⟨fun p => count_pushSlot_ne _ _ p hne, rfl, Iff.rfl, rfl⟩
      obtain ⟨hcancel, hcase⟩ := ht.task h task hold htouched
      rw [hdue]
      exact ⟨hcancel, hcase.imp hsame.waits hsame.fired⟩
    · have hdue : (s.added id d cb).due s.wheel.tasks.length ⟨id, d, cb, false⟩ =
          s.now + lag s.now d := by
        simp only [due, WheelThread.added, if_true]
      rw [hdue]
      exact ⟨rfl, Or.inl (hs.waits_added ht id d cb hclear)⟩

theorem Timely.of_touched {pt : Handle} (ht : Timely s) (hpt : pt < s.wheel.tasks.length)
    (hlen : s'.wheel.tasks.length = s.wheel.tasks.length)
    (htasks : ∀ h, h ≠ pt → s'.wheel.tasks[h]? = s.wheel.tasks[h]?)
    (htouched : ∀ h, s'.touched h = if h = pt then true else s.touched h)
    (harmed : s'.armed = s.armed) (hsame : ∀ h, h ≠ pt → SameFor h s s') : Timely s' where
  fresh := by
    intro h hle
    rw [hlen] at hle
    have hne : h ≠ pt := Nat.ne_of_gt (Nat.lt_of_lt_of_le hpt hle)
    obtain ⟨hfresh, hruns⟩ := ht.fresh h hle
    rw [htouched]
    exact ⟨(if_neg hne).trans hfresh, (hsame h hne).runs_eq.trans hruns⟩
  task := by
    intro h task htask hfalse
    rw [htouched] at hfalse
    have hne : h ≠ pt := by
      intro heq
      rw [if_pos heq] at hfalse
      cases hfalse
    rw [if_neg hne] at hfalse
    rw [htasks h hne] at htask
    obtain ⟨hcancel, hcase⟩ := ht.task h task htask hfalse
    have hdue : s'.due h task = s.due h task := by rw [due, due, harmed]
    rw [hdue]
    exact ⟨hcancel, hcase.imp (hsame h hne).waits (hsame h hne).fired⟩

theorem Timely.of_same (ht : Timely s) (htasks : s'.wheel.tasks = s.wheel.tasks)
    (htouched : s'.touched = s.touched) (harmed : s'.armed = s.armed)
    (hruns : ∀ h, s.wheel.tasks.length ≤ h → s'.runs h = s.runs h)
    (hstep : ∀ h task, s.wheel.tasks[h]? = some task → task.cancel = false →
      Waits s h (s.due h task) ∨ Fired s h (s.due h task) →
      Waits s' h (s.due h task) ∨ Fired s' h (s.due h task)) : Timely s' where
  fresh := by
    intro h hle
    rw [htasks] at hle
    rw [htouched, hruns h hle]
    exact ht.fresh h hle
  task := by
    intro h task htask hfalse
    rw [htasks] at htask
    rw [htouched] at hfalse
    obtain ⟨hcancel, hcase⟩ := ht.task h task htask hfalse
    have hdue : s'.due h task = s.due h task := by rw [due, due, harmed]
    rw [hdue]
    exact ⟨hcancel, hstep h task htask hcancel hcase⟩

theorem Timely.ticked (ht : Timely s) (times : Nat) (hidle : s.clearing = none) :
    Timely (s.ticked times) := by
  have hnow : (s.ticked times).now = s.now + 1 := length_append
  refine ht.of_same rfl rfl rfl (fun _ _ => rfl) ?_
  intro h task htask hcancel hcase
  rcases hcase with hw | hf
  · -- the tick that begins is at most the one the task is due in
    have hlt := hw.later.resolve_right fun hlate => hlate.2 hidle
    have hsoon := hw.soon
    refine Or.inl ⟨hw.one, ?_, ?_, ?_, hw.runs_eq⟩
    · rw [hnow]
      rcases Nat.lt_or_eq_of_le (Nat.succ_le_of_lt hlt) with hlt' | heq
      · exact Or.inl hlt'
      · exact Or.inr ⟨heq, fun hnone => (by cases hnone)⟩
    · omega
    · intro _
      omega
  · exact Or.inr ⟨hf.gone, by rw [hnow]; exact Nat.le_succ_of_le hf.due_le, hf.runs_eq⟩

section

variable (hs : Sound s) (hclearing : s.clearing = some (h :: rest))

include hs hclearing

theorem Sound.count_dropped {h' : Handle} (hne : h' ≠ h) (p : Nat) :
    ((s.dropped rest).wheel.wheel p).count h' = (s.wheel.wheel p).count h' := by
  by_cases hp : p = s.wheel.tick
  · subst hp
    rw [dropped_wheel_self, (hs.front hclearing).1, count_cons_of_ne (Ne.symm hne)]
  · rw [dropped_wheel_ne s rest hp]

theorem Sound.same_dropped {h' : Handle} (hne : h' ≠ h) : SameFor h' s (s.dropped rest) where
  count_eq := hs.count_dropped hclearing hne
  now_eq := rfl
  idle_iff := by
    rw [hclearing]
    exact ⟨fun hnone => (by cases hnone), fun hnone => (by cases hnone)⟩
  runs_eq := rfl

theorem Sound.due_of_front {t : Nat} (hcase : Waits s h t ∨ Fired s h t) :
    t = s.now ∧ s.runs h = [] ∧ ∀ p, ((s.dropped rest).wheel.wheel p).count h = 0 := by
  have hslot := (hs.front hclearing).1
  have hcount : (s.wheel.wheel s.wheel.tick).count h = rest.count h + 1 := by
    rw [hslot, count_cons_self]
  rcases hcase with hw | hf
  · -- its one pointer is the front of this slot
    have hone := hw.one s.wheel.tick
    rw [hcount] at hone
    have htick : s.wheel.tick = t % capacity := by
      by_contra hne
      rw [if_neg hne] at hone
      omega
    rw [if_pos htick] at hone
    refine ⟨?_, hw.runs_eq, ?_⟩
    · -- the tick that clears this slot, less than a round ahead
      have hsooner := hw.sooner (by rw [hclearing]; simp)
      have hmod := hs.tick_eq
      rw [htick] at hmod
      have hge : s.now ≤ t := hw.later.elim Nat.le_of_lt fun hlate => Nat.le_of_eq hlate.1
      unfold capacity at *
      omega
    · intro p
      by_cases hp : p = s.wheel.tick
      · subst hp
        rw [dropped_wheel_self]
        omega
      · rw [dropped_wheel_ne s rest hp, hw.one p, if_neg (by rwa [← htick])]
  · have hgone := hf.gone s.wheel.tick
    rw [hcount] at hgone
    omega

end

theorem not_held_of_count {w : TimerWheel κ} (hcount : ∀ p, (w.wheel p).count h = 0) :
    ¬ w.Held h := by
  intro hheld
  obtain ⟨p, _, hmem⟩ := hheld
  exact count_eq_zero.mp (hcount p) hmem

theorem runs_entered_self (s : WheelThread κ) (h : Handle) :
    (s.entered h).runs h = s.runs h ++ [s.now] := by
  simp [runs, entered, filter_append]

theorem runs_entered_ne (s : WheelThread κ) {h' : Handle} (hne : h' ≠ h) :
    (s.entered h).runs h' = s.runs h' := by
  have hne' : ¬ h = h' := Ne.symm hne
  simp [runs, entered, filter_append, hne']

theorem Moves.timely {l : WheelStep κ} (hs : Sound s) (ht : Timely s) (hm : s.Moves l s') :
    Timely s' := by
  cases hm with
  | add id d cb hcall hd hclear => exact Timely.added hs ht id d cb hclear
  | refresh id pt p hcall hid hheld hp hclear =>
    obtain ⟨q, _, hmem⟩ := hheld
    refine ht.of_touched (hs.handle_lt q pt hmem) rfl (fun _ _ => rfl) (fun _ => rfl) rfl ?_
    intro h hne
    exact ⟨fun q => count_pushSlot_ne _ _ q hne, rfl, Iff.rfl, rfl⟩
  | refreshNone id hid => exact ht
  | cancel id pt hid hheld =>
    obtain ⟨q, _, hmem⟩ := hheld
    refine ht.of_touched (hs.handle_lt q pt hmem) (List.length_modify _ _ _) ?_ (fun _ => rfl) rfl
      ?_
    · intro h hne
      exact List.getElem?_modify_ne _ _ (Ne.symm hne)
    · intro h hne
      exact ⟨fun _ => rfl, rfl, Iff.rfl, rfl⟩
  | cancelNone id => exact ht
  | onTime times hidle => exact ht.ticked times hidle
  | dropShared h rest hclearing hdying hheld =>
    refine ht.of_same rfl rfl rfl (fun _ _ => rfl) ?_
    intro h' task htask hcancel hcase
    by_cases hne : h' = h
    · -- a task on time has no second pointer
      subst hne
      exact absurd hheld (not_held_of_count (hs.due_of_front hclearing hcase).2.2)
    · have hsame := hs.same_dropped hclearing hne
      exact hcase.imp hsame.waits hsame.fired
  | dropCancelled h rest task hclearing hdying hheld htask hcancel =>
    refine ht.of_same rfl rfl rfl (fun _ _ => rfl) ?_
    intro h' task' htask' hcancel' hcase
    -- a task that is cancelled has been touched
    have hne : h' ≠ h := by
      intro heq
      rw [heq, htask] at htask'
      cases htask'
      rw [hcancel] at hcancel'
      cases hcancel'
    have hsame := hs.same_dropped hclearing hne
    have hsame' : SameFor h' s ((s.dropped rest).released task.id) :=
      ⟨hsame.count_eq, hsame.now_eq, hsame.idle_iff, hsame.runs_eq⟩
    exact hcase.imp hsame'.waits hsame'.fired
  | dropLast h rest task hclearing hdying hheld htask hcancel =>
    have hlt : h < s.wheel.tasks.length := (List.getElem?_eq_some_iff.mp htask).1
    refine ht.of_same rfl rfl rfl ?_ ?_
    · intro h' hle
      exact runs_entered_ne (s.dropped rest) (Nat.ne_of_gt (Nat.lt_of_lt_of_le hlt hle))
    · intro h' task' htask' hcancel' hcase
      by_cases hne : h' = h
      · -- the callback of the task is called, in the tick it is due in
        subst hne
        obtain ⟨hdue, hruns, hgone⟩ := hs.due_of_front hclearing hcase
        refine Or.inr ⟨hgone, Nat.le_of_eq hdue, ?_⟩
        rw [runs_entered_self, hdue]
        exact congrArg (· ++ [s.now]) hruns
      · have hsame := hs.same_dropped hclearing hne
        have hsame' : SameFor h' s ((s.dropped rest).entered h) :=
          ⟨hsame.count_eq, hsame.now_eq, hsame.idle_iff, runs_entered_ne (s.dropped rest) hne⟩
        exact hcase.imp hsame'.waits hsame'.fired
  | ret h task hdying htask =>
    refine ht.of_same rfl rfl rfl (fun _ _ => rfl) ?_
    intro h' task' htask' hcancel' hcase
    have hsame : SameFor h' s (s.released task.id) := ⟨fun _ => rfl, rfl, Iff.rfl, rfl⟩
    exact hcase.imp hsame.waits hsame.fired
  | done hclearing hdying =>
    refine ht.of_same rfl rfl rfl (fun _ _ => rfl) ?_
    intro h task htask hcancel hcase
    rcases hcase with hw | hf
    · -- nothing that is due in this tick is left in the slot
      have hlt : s.now < s.due h task := by
        refine hw.later.resolve_right fun hlate => ?_
        have hone := hw.one s.wheel.tick
        rw [hs.slot [] hclearing, hs.tick_eq, hlate.1, if_pos rfl] at hone
        cases hone
      exact Or.inl ⟨hw.one, Or.inl hlt, hw.soon, fun hnone => absurd rfl hnone, hw.runs_eq⟩
    · exact Or.inr ⟨hf.gone, hf.due_le, hf.runs_eq⟩

theorem steps_timely {ls : List (WheelStep κ)} (hrun : (system κ).Steps s ls s')
    (hs : Sound s ∧ Timely s) : Sound s' ∧ Timely s' := by
  refine hrun.preserves (fun s => Sound s ∧ Timely s) ?_ hs
  intro s l s' hinv hstep
  have hm := moves_of_next hstep
  exact ⟨hm.sound hinv.1, hm.timely hinv.1 hinv.2⟩

theorem reachable_timely (hs : (system κ).Reachable s) : Sound s ∧ Timely s := by
  obtain ⟨s0, ls, hinit, hrun⟩ := hs
  subst hinit
  exact steps_timely hrun ⟨initial_sound, initial_timely⟩

/-! ## The tick the timeout asks for -/

structure RunsIn (s : WheelThread κ) (h : Handle) (t : Nat) : Prop where
  only : ∀ t' ∈ s.runs h, t' = t
  at_end : s.clearing = none → t ≤ s.now → s.runs h = [t]

theorem Timely.runsIn_due (ht : Timely s) {task : TimerTask κ}
    (htask : s.wheel.tasks[h]? = some task) (htouched : s.touched h = false) :
    RunsIn s h (s.due h task) := by
  rcases (ht.task h task htask htouched).2 with hw | hf
  · refine ⟨?_, ?_⟩
    · intro t' hmem
      rw [hw.runs_eq] at hmem
      cases hmem
    · intro hidle hle
      exact (hw.later.elim (fun hlt => Nat.lt_irrefl _ (Nat.lt_of_lt_of_le hlt hle))
        fun hlate => hlate.2 hidle).elim
  · refine ⟨?_, fun _ _ => hf.runs_eq⟩
    intro t' hmem
    rw [hf.runs_eq] at hmem
    exact mem_singleton.mp hmem

def Keeps (h : Handle) (n d : Nat) (s : WheelThread κ) : Prop :=
  s.armed h = n ∧ ∃ task, s.wheel.tasks[h]? = some task ∧ task.timeout = d

theorem Moves.keeps {l : WheelStep κ} {n : Nat} (hk : Keeps h n d s) (hm : s.Moves l s') :
    Keeps h n d s' := by
  obtain ⟨harmed, task, htask, hd⟩ := hk
  cases hm with
  | add id d' cb hcall hd' hclear =>
    have hne : h ≠ s.wheel.tasks.length := Nat.ne_of_lt (List.getElem?_eq_some_iff.mp htask).1
    exact ⟨(if_neg hne).trans harmed, task, TimerWheel.getElem?_add_of_some htask, hd⟩
  | cancel id pt hid hheld =>
    exact ⟨harmed, _, TimerWheel.getElem?_setCancel_some htask, hd⟩
  | refresh | refreshNone | cancelNone | onTime | dropShared | dropCancelled | dropLast | ret
  | done => exact ⟨harmed, task, htask, hd⟩

theorem Sound.added_runsIn (hs : Sound s) (ht : Timely s) {id : Nat} {cb : κ}
    (hclear : s.Clear ((s.wheel.tick + d) % 2 ^ 32 % capacity)) {ls : List (WheelStep κ)}
    {s2 : WheelThread κ} (hrun : (system κ).Steps (s.added id d cb) ls s2)
    (htouched : s2.touched s.wheel.tasks.length = false) :
    RunsIn s2 s.wheel.tasks.length (s.now + lag s.now d) := by
  have hnew : Keeps s.wheel.tasks.length s.now d (s.added id d cb) :=
    ⟨if_pos rfl, ⟨id, d, cb, false⟩, by simp [WheelThread.added], rfl⟩
  obtain ⟨harmed, task, htask, hd⟩ :=
    hrun.preserves (Keeps s.wheel.tasks.length s.now d)
      (fun _ _ _ hk hstep => (moves_of_next hstep).keeps hk) hnew
  have ht2 := (steps_timely hrun ⟨hs.added id d cb hclear, Timely.added hs ht id d cb hclear⟩).2
  have hin := ht2.runsIn_due htask htouched
  rwa [due, harmed, hd] at hin

theorem Sound.exists_round (hs : Sound s) (hcall : s.CanCall) :
    ∃ ls s', (system κ).Steps s ls s' ∧ s'.clearing = none ∧ s'.now = s.now + capacity ∧
      s'.touched = s.touched := by
  obtain ⟨ls1, s1, hrun1, hend⟩ := hs.settles hcall
  obtain ⟨ls2, s2, hrun2, hidle, hcounts, _, htouched, _⟩ :=
    Sound.ticks (replicate capacity 1) (steps_sound hrun1 hs) hend.idle
  refine ⟨ls1 ++ ls2, s2, hrun1.append hrun2, hidle, ?_, htouched.trans hend.touched_eq⟩
  rw [now, hcounts, hend.counts_eq, length_append, length_replicate]
  rfl

/-- **A timeout is kept exactly if it fits into one round.** For a task added with
    an unregistered id in any state of any run, outside of the wheel or by a
    callback: in every continuation without a refresh or a cancel of the task its
    callback runs in the tick the timeout asks for, exactly if the timeout is at
    most 60, and less than that if the slot of the current tick is being cleared.
    Every longer timeout fires early. -/
theorem runs_after_timeout_iff (s : WheelThread κ) (hs : (system κ).Reachable s)
    (hcall : s.CanCall) (id d : Nat) (cb : κ) (_hid : s.wheel.hasTimer id = false) (hpos : 1 ≤ d)
    (hd : d < 2 ^ 32) :
    (∃ s1, s.next (.add id d cb) = some s1 ∧
      ∀ ls s2, (system κ).Steps s1 ls s2 → s2.touched s.wheel.tasks.length = false →
        RunsIn s2 s.wheel.tasks.length (s.now + d)) ↔
    d ≤ 60 ∧ (d = 60 → s.clearing = none) := by
  obtain ⟨hsound, htimely⟩ := reachable_timely hs
  constructor
  · intro h
    obtain ⟨s1, hstep, hall⟩ := h
    cases moves_of_next hstep with
    | add _ _ _ _ _ hclear =>
      obtain ⟨ls, s2, hrun, hidle, hnow, htouched⟩ :=
        (hsound.added id d cb hclear).exists_round hcall
      have hfalse : s2.touched s.wheel.tasks.length = false := by
        rw [htouched]
        exact (htimely.fresh _ (Nat.le_refl _)).1
      -- after a round the callback has run, in the tick that cleared the slot
      have hle : s.now + lag s.now d ≤ s2.now := by
        rw [hnow]
        exact Nat.add_le_add_left (lag_le s.now d) s.now
      have hruns := (hsound.added_runsIn htimely hclear hrun hfalse).at_end hidle hle
      have hsame : s.now + lag s.now d = s.now + d :=
        (hall ls s2 hrun hfalse).only _ (by rw [hruns]; exact List.mem_singleton_self _)
      have hlag : lag s.now d = d := Nat.add_left_cancel hsame
      refine ⟨hlag ▸ lag_le s.now d, ?_⟩
      intro hfull
      refine hclear.resolve_right fun hne => ?_
      rw [hsound.tick_eq] at hne
      have hlt := lag_lt hne
      rw [hlag, hfull] at hlt
      exact Nat.lt_irrefl _ hlt
  · intro h
    obtain ⟨hle, hfull⟩ := h
    -- only a full round leads to the slot of the current tick
    have hclear : s.Clear ((s.wheel.tick + d) % 2 ^ 32 % capacity) := by
      by_cases hd60 : d = 60
      · exact Or.inl (hfull hd60)
      · right
        have htick := hsound.tick_eq
        rw [TimerWheel.add_slot (by rw [htick]; exact Nat.mod_lt _ (Nat.zero_lt_succ _)) hle]
        unfold capacity at *
        omega
    refine ⟨_, next_add id cb hcall hd hclear, ?_⟩
    intro ls s2 hrun htouched
    have hin := hsound.added_runsIn htimely hclear hrun htouched
    rwa [lag_eq_self s.now hpos hle] at hin

theorem initial_reachable (κ : Type) : (system κ).Reachable (initial κ) :=
  ⟨_, [], rfl, .nil _⟩

theorem runs_after_timeout_full_round : ∃ s1, (initial Unit).next (.add 7 60 ()) = some s1 ∧
      ∀ ls s2, (system Unit).Steps s1 ls s2 → s2.touched 0 = false → RunsIn s2 0 60 :=
  (runs_after_timeout_iff (initial Unit) (initial_reachable Unit) (Or.inl rfl) 7 60 () rfl
    (by decide) (by decide)).mpr ⟨Nat.le_refl 60, fun _ => rfl⟩

/-- A timeout of 61 s runs out in the first tick. -/
theorem runs_early_after_round :
    ∃ s, (system Unit).Steps (initial Unit) [.add 7 61 (), .onTime 1, .drop, .ret, .done] s ∧
      s.wheel.tasks[0]? = some ⟨7, 61, (), false⟩ ∧ s.touched 0 = false ∧ s.runs 0 = [1] :=
  ⟨_, System.steps_of_run rfl, rfl, rfl, rfl⟩

/-! ## Elapsed time -/

def ReachedIn (counts : List Nat) (n d k : Nat) : Prop :=
  n < k ∧ k ≤ counts.length ∧ d ≤ ((counts.take k).drop n).sum ∧
    ((counts.take (k - 1)).drop n).sum < d

instance (counts : List Nat) (n d k : Nat) : Decidable (ReachedIn counts n d k) :=
  inferInstanceAs (Decidable (_ ∧ _))

structure FollowsTime (s : WheelThread κ) : Prop where
  tick : s.wheel.tick % capacity = s.counts.sum % capacity
  callback : ∀ h task, s.wheel.tasks[h]? = some task → s.touched h = false →
    1 ≤ task.timeout → task.timeout ≤ 59 →
    (s.runs h).length ≤ 1 ∧ ∀ k, k ∈ s.runs h ↔ ReachedIn s.counts (s.armed h) task.timeout k

theorem sum_of_ones {counts : List Nat} (hones : ∀ t ∈ counts, t = 1) :
    counts.sum = counts.length := by
  rw [eq_replicate_of_mem hones, sum_replicate, length_replicate, smul_eq_mul, Nat.mul_one]

theorem reachedIn_of_ones {counts : List Nat} (hones : ∀ t ∈ counts, t = 1) (n d k : Nat)
    (hpos : 1 ≤ d) : ReachedIn counts n d k ↔ k = n + d ∧ k ≤ counts.length := by
  have hsum : ∀ j, ((counts.take j).drop n).sum = min j counts.length - n := by
    intro j
    rw [sum_of_ones fun t ht => hones t (mem_of_mem_take (mem_of_mem_drop ht)),
      length_drop, length_take]
  unfold ReachedIn
  rw [hsum, hsum]
  omega

theorem followsTime_of_ones (hs : (system κ).Reachable s) (hidle : s.clearing = none)
    (hones : ∀ t ∈ s.counts, t = 1) : FollowsTime s := by
  obtain ⟨hsound, htimely⟩ := reachable_timely hs
  refine ⟨?_, ?_⟩
  · rw [hsound.tick_eq, Nat.mod_mod, sum_of_ones hones]
    rfl
  · intro h task htask htouched hpos hle
    have hdue : s.due h task = s.armed h + task.timeout := by
      rw [due, lag_eq_self _ hpos (Nat.le_trans hle (by decide))]
    rcases (htimely.task h task htask htouched).2 with hw | hf
    · rw [hdue] at hw
      have hlt := hw.later.resolve_right fun hlate => hlate.2 hidle
      rw [hw.runs_eq]
      refine ⟨Nat.zero_le 1, fun k => ?_⟩
      rw [reachedIn_of_ones hones _ _ k hpos]
      refine ⟨fun hmem => (by cases hmem), fun hk => ?_⟩
      have hlen : s.now = s.counts.length := rfl
      omega
    · rw [hdue] at hf
      rw [hf.runs_eq]
      refine ⟨Nat.le_refl 1, fun k => ?_⟩
      rw [reachedIn_of_ones hones _ _ k hpos, mem_singleton]
      refine ⟨fun hk => ⟨hk, hk ▸ hf.due_le⟩, fun hk => hk.1⟩

theorem exists_read_after_add (cb : κ) (cs : List Nat) (t : Nat) :
    ∃ s : WheelThread κ, (system κ).Reachable s ∧ s.clearing = none ∧ s.counts = cs ++ [t] ∧
      s.wheel.tasks = [⟨7, 2, cb, false⟩] ∧ s.armed 0 = cs.length ∧ s.touched 0 = false := by
  have hinit : Sound (initial κ) := initial_sound
  obtain ⟨ls, s, hrun, hidle, hcounts, harmed, htouched, htasks⟩ := Sound.ticks cs hinit rfl
  have hsound := steps_sound hrun hinit
  have htasks' : s.wheel.tasks = [] := htasks
  have hadd := next_add 7 cb (Or.inl hidle) (show 2 < 2 ^ 32 by decide) (Or.inl hidle)
  obtain ⟨ls', s', hrun', hidle', hcounts', harmed', htouched', htasks''⟩ :=
    Sound.ticks [t] (hsound.added 7 2 cb (Or.inl hidle)) hidle
  refine ⟨s', ⟨_, ls ++ .add 7 2 cb :: ls', rfl, hrun.append (.cons _ _ hadd hrun')⟩, hidle', ?_,
    ?_, ?_, ?_⟩
  · rw [hcounts']
    exact congrArg (· ++ [t]) hcounts
  · rw [htasks'', WheelThread.added, timerAddInLoop_tasks, htasks']
    rfl
  · have hnow : s.now = cs.length := by
      rw [now, hcounts]
      rfl
    rw [harmed', ← hnow]
    exact if_pos (by rw [htasks']; rfl)
  · rw [htouched']
    exact congrFun htouched 0

theorem reachedIn_read (cs : List Nat) {t : Nat} (hpos : 1 ≤ d) (hle : d ≤ t) :
    ReachedIn (cs ++ [t]) cs.length d (cs.length + 1) := by
  have hlen : (cs ++ [t]).length = cs.length + 1 := length_append
  refine ⟨Nat.lt_succ_self _, Nat.le_of_eq hlen.symm, ?_, ?_⟩
  · rw [take_of_length_le (Nat.le_of_eq hlen), drop_left, sum_singleton]
    exact hle
  · rw [Nat.add_sub_cancel, take_left, drop_length, sum_nil]
    exact hpos

/-- **The wheel follows elapsed time exactly if every read counts one expiration.**
    For every sequence of counts: in all runs whose calls of `OnTime` read them, the
    tick is the sum of the counts after every call and every task with a timeout of
    1 to 59 runs in the call its timeout has elapsed by, exactly if every count is 1,
    since `OnTime` makes one tick whatever it has read. -/
theorem follows_time_iff [Inhabited κ] (ts : List Nat) (hts : ∀ t ∈ ts, 1 ≤ t) :
    (∀ s : WheelThread κ, (system κ).Reachable s → s.clearing = none → s.counts <+: ts →
      FollowsTime s) ↔ ∀ t ∈ ts, t = 1 := by
  constructor
  · intro hall t ht
    obtain ⟨cs, post, rfl⟩ := List.append_of_mem ht
    obtain ⟨s, hs, hidle, hcounts, htasks, harmed, htouched⟩ :=
      exists_read_after_add (default : κ) cs t
    have hread : s.counts <+: cs ++ t :: post := by
      rw [hcounts]
      exact ⟨post, (List.append_cons cs t post).symm⟩
    have htask : s.wheel.tasks[0]? = some ⟨7, 2, default, false⟩ := by
      rw [htasks]
      rfl
    have hfollows := ((hall s hs hidle hread).callback 0 _ htask htouched
      (show 1 ≤ 2 by decide) (show 2 ≤ 59 by decide)).2 (cs.length + 1)
    -- the task is due in the second call after the add, and this is the first
    have hnone : cs.length + 1 ∉ s.runs 0 := by
      intro hmem
      have hdue := ((reachable_timely hs).2.runsIn_due htask htouched).only _ hmem
      rw [due, harmed, lag_eq_self _ (show 1 ≤ 2 by decide) (show 2 ≤ capacity by decide)] at hdue
      cases Nat.add_left_cancel hdue
    rw [hfollows, harmed, hcounts] at hnone
    have hone := hts t ht
    have hlt : t < 2 := by
      by_contra hge
      exact hnone (reachedIn_read cs (show 1 ≤ 2 by decide) (Nat.le_of_not_lt hge))
    omega
  · intro hones s hs hidle hread
    exact followsTime_of_ones hs hidle fun t ht => hones t (hread.subset ht)

theorem follows_time_of_two_reads :
    ∃ s : WheelThread Unit, s.counts = [1, 1] ∧ s.runs 0 = [2] ∧ FollowsTime s := by
  have hrun : ∃ s, (system Unit).Steps (initial Unit)
      [.add 7 2 (), .onTime 1, .done, .onTime 1, .drop, .ret, .done] s ∧ s.clearing = none ∧
      s.counts = [1, 1] ∧ s.runs 0 = [2] := ⟨_, System.steps_of_run rfl, rfl, rfl, rfl⟩
  obtain ⟨s, hsteps, hidle, hcounts, hruns⟩ := hrun
  refine ⟨s, hcounts, hruns, ?_⟩
  exact (follows_time_iff [1, 1] (by decide)).mpr (by decide) s ⟨_, _, rfl, hsteps⟩ hidle
    (hcounts ▸ List.prefix_rfl)

/-- The loop was blocked for two seconds: the wheel is one behind from then on, and
    a task of 2 s that should have run has not. -/
theorem falls_behind_blocked_loop :
    ∃ s, (system Unit).Steps (initial Unit) [.add 7 2 (), .onTime 2, .done] s ∧
      s.clearing = none ∧ s.counts = [2] ∧ s.wheel.tick = 1 ∧
      s.wheel.tasks[0]? = some ⟨7, 2, (), false⟩ ∧ s.touched 0 = false ∧ s.armed 0 = 0 ∧
      ReachedIn [2] 0 2 1 ∧ s.runs 0 = [] :=
  ⟨_, System.steps_of_run rfl, rfl, rfl, rfl, rfl, rfl, rfl, by decide, rfl⟩

end WheelThread

end CallLesson.Reactor
