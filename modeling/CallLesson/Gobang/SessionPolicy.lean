import CallLesson.Gobang.Session

/-! # The last expiry policy wins

    Assumed of the timers: callbacks run in the order in which they became
    ready, a cancelled one is ready at once, and the others become ready in the
    order in which they are due, those due at one time in the order in which
    they were set. A timer that is set for a time in the past overtakes the
    0 ms timer set before it. -/

namespace CallLesson.Gobang

open List Option Dict

variable {s s' : SessionManager} {t : TimerPtr} {sp : SessionPtr} {tm : Timer} {ssid : Nat}

namespace SessionManager

/-! ## Callbacks in order -/

def isNext (s : SessionManager) (t : TimerPtr) (tm : Timer) : Bool :=
  (List.range s.nextTimer).all fun t' => (s.timer t').all fun tm' =>
    tm'.statu ≠ .armed || tm.due < tm'.due || (tm.due = tm'.due && t ≤ t')

def inFifo (s : SessionManager) : SessionStep → Bool
  | .expire t => (s.timer t).all fun tm => s.isNext t tm
  | .run t => s.ready.head? = some t
  | _ => true

def setsPresent (s : SessionManager) : SessionStep → Bool
  | .set ssid _ => (s.session ssid).isSome
  | _ => true

def fifoRuns : System SessionManager SessionStep :=
  runs.restrict fun s l => s.inFifo l = true ∧ s.setsPresent l = true

/-- A timeout, if one is set, is not negative. -/
def setsFuture : SessionStep → Bool
  | .set _ ms => decide (0 ≤ ms ∨ ms = sessionForever)
  | _ => true

def futureRuns : System SessionManager SessionStep :=
  runs.restrict fun s l => s.inFifo l = true ∧ s.setsPresent l = true ∧ setsFuture l = true

def quiet (s : SessionManager) (ssid : Nat) : Bool :=
  (List.range s.nextTimer).all fun t => (s.timer t).all fun tm =>
    !(t ∈ s.ready && tm.fn.ssid = ssid) && !(tm.statu = .armed && tm.fn = .appendSession ssid)

/-! ## What the ready callbacks leave -/

def effect (ssid : Nat) (present : Bool) : TimerFn → Bool
  | .removeSession ssid' => if ssid' = ssid then false else present
  | .appendSession sp => if sp = ssid then true else present

def calls (s : SessionManager) : List TimerFn :=
  s.ready.filterMap fun t => (s.timer t).map Timer.fn

def presentAfter (s : SessionManager) (ssid : Nat) : Bool :=
  s.calls.foldl (effect ssid) (s.session ssid).isSome

def AppendArmed (s : SessionManager) (ssid : Nat) : Prop :=
  ∃ a tma, s.timer a = some tma ∧ tma.statu = .armed ∧ tma.fn = .appendSession ssid

theorem foldl_effect_of_ne :
    ∀ (fns : List TimerFn) (b : Bool), (∀ fn ∈ fns, fn.ssid ≠ ssid) → fns.foldl (effect ssid) b = b
  | [], _, _ => rfl
  | fn :: fns, b, h => by
    have hfn : effect ssid b fn = b := by
      have := h fn mem_cons_self
      cases fn <;> simp_all [effect, TimerFn.ssid]
    rw [foldl_cons, hfn]
    exact foldl_effect_of_ne fns b fun fn' h' => h fn' (mem_cons_of_mem _ h')

theorem mem_calls {fn : TimerFn} :
    fn ∈ s.calls ↔ ∃ t tm, t ∈ s.ready ∧ s.timer t = some tm ∧ tm.fn = fn := by
  simp only [calls, mem_filterMap, map_eq_some_iff]
  constructor
  · rintro ⟨t, ht, tm, htm, hfn⟩
    exact ⟨t, tm, ht, htm, hfn⟩
  · rintro ⟨t, tm, ht, htm, hfn⟩
    exact ⟨t, ht, tm, htm, hfn⟩

theorem calls_congr (hready : s'.ready = s.ready)
    (hfn : ∀ t ∈ s.ready, (s'.timer t).map Timer.fn = (s.timer t).map Timer.fn) :
    s'.calls = s.calls := by
  unfold calls
  rw [hready]
  exact filterMap_congr hfn

theorem calls_makeReady (ht : s.timer t = some tm) (statu : TimerStatu) :
    (s.makeReady t tm statu).calls = s.calls ++ [tm.fn] := by
  unfold calls makeReady
  rw [filterMap_append]
  congr 1
  · refine filterMap_congr fun t' _ => ?_
    by_cases htt : t' = t <;> simp [htt, ht]
  · simp

theorem presentAfter_makeReady (ht : s.timer t = some tm) (statu : TimerStatu) (ssid : Nat) :
    (s.makeReady t tm statu).presentAfter ssid = effect ssid (s.presentAfter ssid) tm.fn := by
  unfold presentAfter
  rw [calls_makeReady ht, foldl_append]
  rfl

theorem callback_isSome (h : TablesOk s) (ht : s.timer t = some tm) (ssid : Nat) :
    ((s.callback tm.fn).session ssid).isSome = effect ssid (s.session ssid).isSome tm.fn := by
  cases hfn : tm.fn with
  | removeSession ssid' =>
    by_cases he : ssid = ssid'
    · simp [callback, removeSession, effect, he]
    · simp [callback, removeSession, effect, he, Ne.symm he]
  | appendSession sp =>
    rw [callback, h.appendSession_eq (h.append_object ht hfn)]
    by_cases he : ssid = sp
    · simp [effect, he, h.insert_self]
    · simp [effect, he, Ne.symm he]

theorem presentAfter_congr (hready : s'.ready = s.ready)
    (hfn : ∀ t ∈ s.ready, (s'.timer t).map Timer.fn = (s.timer t).map Timer.fn)
    (hses : s'.session ssid = s.session ssid) : s'.presentAfter ssid = s.presentAfter ssid := by
  unfold presentAfter
  rw [calls_congr hready hfn, hses]

section

variable (h : TablesOk s)

include h

theorem presentAfter_new (hready : s'.ready = s.ready)
    (htimer : s'.timer = s.timer.assign s.nextTimer tm) (hses : s'.session ssid = s.session ssid) :
    s'.presentAfter ssid = s.presentAfter ssid := by
  refine presentAfter_congr hready (fun t ht => ?_) hses
  obtain ⟨tm', ht', _⟩ := h.ready_timer t ht
  have hne : t ≠ s.nextTimer := Nat.ne_of_lt (h.fresh t tm' ht')
  rw [htimer, assign_ne _ _ hne]

theorem presentAfter_arm (hsp : (s.object sp).isSome) (ms : Int) (ssid : Nat) :
    (s.arm sp sp ms).presentAfter ssid = s.presentAfter ssid := by
  obtain ⟨ss, hss⟩ := isSome_iff_exists.mp hsp
  rw [arm_eq hss]
  exact presentAfter_new h rfl rfl rfl

theorem presentAfter_extend (htp : s.getTimer sp = some t) (hne : ssid ≠ sp) :
    (s.extend sp t).presentAfter ssid = s.presentAfter ssid := by
  obtain ⟨tm, ht, hfn⟩ := h.tp_timer sp t htp
  obtain ⟨ss, hss⟩ := isSome_iff_exists.mp (isSome_of_getTimer htp)
  by_cases harmed : tm.statu = .armed
  · have hcancel := presentAfter_makeReady ht .cancelled ssid
    rw [hfn, effect, if_neg (Ne.symm hne)] at hcancel
    rw [extend_armed hss ht harmed, ← hcancel]
    exact presentAfter_new (h.makeReady ht harmed (by decide)) rfl rfl rfl
  · rw [extend_not_armed hss ht harmed]
    exact presentAfter_new h rfl rfl rfl

theorem extend_timer (htp : s.getTimer sp = some t) {a : TimerPtr} {tma : Timer}
    (ha : (s.extend sp t).timer a = some tma) :
    a = s.nextTimer ∧ tma.fn = .appendSession sp ∧ tma.due = s.now ∨
      ∃ tm, s.timer a = some tm ∧ tma.fn = tm.fn ∧ tma.due = tm.due := by
  obtain ⟨tm, ht, _⟩ := h.tp_timer sp t htp
  obtain ⟨ss, hss⟩ := isSome_iff_exists.mp (isSome_of_getTimer htp)
  -- only a timer that is still armed is cancelled, which runs its callback
  by_cases harmed : tm.statu = .armed
  · rw [extend_armed hss ht harmed] at ha
    by_cases hnew : a = s.nextTimer
    · obtain rfl : _ = tma := by simpa [hnew] using ha
      exact Or.inl ⟨hnew, rfl, by simp⟩
    · by_cases hat : a = t
      · subst hat
        obtain rfl : _ = tma := by simpa [hnew] using ha
        exact Or.inr ⟨tm, ht, rfl, rfl⟩
      · exact Or.inr ⟨tma, by simpa [hnew, hat] using ha, rfl, rfl⟩
  · rw [extend_not_armed hss ht harmed] at ha
    by_cases hnew : a = s.nextTimer
    · obtain rfl : _ = tma := by simpa [hnew] using ha
      exact Or.inl ⟨hnew, rfl, by simp⟩
    · exact Or.inr ⟨tma, by simpa [hnew] using ha, rfl, rfl⟩

theorem extend_now (htp : s.getTimer sp = some t) : (s.extend sp t).now = s.now := by
  obtain ⟨tm, ht, _⟩ := h.tp_timer sp t htp
  obtain ⟨ss, hss⟩ := isSome_iff_exists.mp (isSome_of_getTimer htp)
  by_cases harmed : tm.statu = .armed
  · rw [extend_armed hss ht harmed]
  · rw [extend_not_armed hss ht harmed]

theorem appendArmed_extend (htp : s.getTimer sp = some t) (ssid : Nat) :
    (s.extend sp t).AppendArmed ssid ↔ ssid = sp ∨ s.AppendArmed ssid := by
  have hnew := h.timer_next
  obtain ⟨tm, ht, hfn⟩ := h.tp_timer sp t htp
  obtain ⟨ss, hss⟩ := isSome_iff_exists.mp (isSome_of_getTimer htp)
  by_cases harmed : tm.statu = .armed
  · rw [extend_armed hss ht harmed]
    simp only [AppendArmed, assign]
    grind
  · rw [extend_not_armed hss ht harmed]
    simp only [AppendArmed, assign]
    grind

theorem appendArmed_arm (hsp : (s.object sp).isSome) (ms : Int) (ssid : Nat) :
    (s.arm sp sp ms).AppendArmed ssid ↔ s.AppendArmed ssid := by
  have hnew := h.timer_next
  obtain ⟨ss, hss⟩ := isSome_iff_exists.mp hsp
  rw [arm_eq hss]
  simp only [AppendArmed, assign]
  grind

theorem tpExpired_extend (htp : s.getTimer sp = some t) (ssid : Nat) :
    (s.extend sp t).TpExpired ssid ↔ ssid ≠ sp ∧ s.TpExpired ssid := by
  have hnew := h.timer_next
  obtain ⟨tm, ht, hfn⟩ := h.tp_timer sp t htp
  obtain ⟨ss, hss⟩ := isSome_iff_exists.mp (isSome_of_getTimer htp)
  simp only [TpExpired, extend_getTimer htp]
  by_cases harmed : tm.statu = .armed
  · rw [extend_armed hss ht harmed]
    simp only [assign]
    grind
  · rw [extend_not_armed hss ht harmed]
    simp only [assign]
    grind

theorem tpExpired_arm (hsp : (s.object sp).isSome) (htp : s.getTimer sp = none) (ms : Int)
    (ssid : Nat) : (s.arm sp sp ms).TpExpired ssid ↔ s.TpExpired ssid := by
  have hnew := h.timer_next
  obtain ⟨ss, hss⟩ := isSome_iff_exists.mp hsp
  simp only [TpExpired, arm_getTimer hsp]
  rw [arm_eq hss]
  simp only [assign]
  grind

theorem callback_frame (ht : s.timer t = some tm) :
    ∃ session, s.callback tm.fn = { s with session := session } := by
  cases hfn : tm.fn with
  | removeSession ssid => exact ⟨_, rfl⟩
  | appendSession sp => exact ⟨_, h.appendSession_eq (h.append_object ht hfn)⟩

theorem presentAfter_run (ht : s.timer t = some tm) (hhead : s.ready.head? = some t) (ssid : Nat) :
    ({ s with ready := s.ready.erase t }.callback tm.fn).presentAfter ssid =
      s.presentAfter ssid := by
  have hpresent := callback_isSome (h.of_ready t) ht ssid
  obtain ⟨session, hcb⟩ := callback_frame (h.of_ready t) ht
  cases hready : s.ready with
  | nil => simp [hready] at hhead
  | cons t' rest =>
    obtain rfl : t' = t := by simpa [hready] using hhead
    have hcalls : s.calls = tm.fn :: ({ s with ready := rest }).calls := by
      simp [calls, hready, ht]
    rw [hready, erase_cons_head] at hpresent hcb
    rw [presentAfter, presentAfter, hcalls, foldl_cons, erase_cons_head, hpresent, hcb]
    rfl

end

/-! ## The outcome of the callbacks -/

structure Settles (s : SessionManager) : Prop where
  tables : TablesOk s
  append_due : ∀ a tma sp, s.timer a = some tma → tma.fn = .appendSession sp → tma.due ≤ s.now
  append_before : ∀ a tma ssid t tm, s.timer a = some tma → tma.fn = .appendSession ssid →
    s.getTimer ssid = some t → s.timer t = some tm → a < t ∧ tma.due ≤ tm.due
  outcome : ∀ ssid, (s.object ssid).isSome →
    (s.presentAfter ssid = true ∨ s.AppendArmed ssid ↔ ¬ s.TpExpired ssid)

namespace Settles

variable {s : SessionManager}

theorem new : Settles SessionManager.new := by
  refine ⟨TablesOk.new, ?_, ?_, ?_⟩ <;> simp [SessionManager.new, empty]

variable (h : Settles s)

include h

theorem createSession (uid : Nat) (statu : SsStatu) : Settles (s.createSession uid statu) := by
  have hobj := h.tables.object_next
  refine ⟨h.tables.createSession uid statu, h.append_due, ?_, ?_⟩
  · have := h.append_before
    simp only [SessionManager.createSession, Dict.assign, getTimer] at *
    grind
  · intro ssid hssid
    by_cases hne : ssid = s.nextSsid
    · -- no callback is about a session that was not there
      subst hne
      have hcalls : ∀ fn ∈ s.calls, fn.ssid ≠ s.nextSsid := by
        intro fn hmem he
        obtain ⟨t, tm, _, ht, rfl⟩ := mem_calls.mp hmem
        simpa [he, hobj] using h.tables.fn_object t tm ht
      have hpresent : (s.createSession uid statu).presentAfter s.nextSsid = true := by
        refine (foldl_effect_of_ne s.calls _ hcalls).trans ?_
        simp [SessionManager.createSession, Dict.insert]
      have hnot : ¬ (s.createSession uid statu).TpExpired s.nextSsid := by
        simp [TpExpired, getTimer, SessionManager.createSession]
      simp [hpresent, hnot]
    · have hpresent : (s.createSession uid statu).presentAfter ssid = s.presentAfter ssid :=
        presentAfter_congr rfl (fun _ _ => rfl) (Dict.insert_ne _ _ hne)
      have hx : (s.createSession uid statu).TpExpired ssid ↔ s.TpExpired ssid := by
        simp [TpExpired, getTimer, SessionManager.createSession, hne]
      rw [hpresent, hx]
      exact h.outcome ssid (by simpa [SessionManager.createSession, hne] using hssid)

theorem extend (htp : s.getTimer ssid = some t) : Settles (s.extend ssid t) := by
  refine ⟨h.tables.extend htp, ?_, ?_, ?_⟩
  · intro a tma sp ha hfa
    rw [extend_now h.tables htp]
    rcases extend_timer h.tables htp ha with ⟨_, _, hdue⟩ | ⟨tm, ha', hfn, hdue⟩
    · exact hdue.le
    · exact hdue ▸ h.append_due a tm sp ha' (hfn ▸ hfa)
  · intro a tma ssid' u tmu ha hfa hu htmu
    rw [extend_getTimer htp] at hu
    obtain ⟨hne, hu⟩ : ssid' ≠ ssid ∧ s.getTimer ssid' = some u := by simpa using hu
    obtain ⟨tmu', htmu', _⟩ := h.tables.tp_timer ssid' u hu
    rcases extend_timer h.tables htp ha with ⟨_, hfn, _⟩ | ⟨tm, ha', hfn, hdue⟩
    · -- the new insertion is of a session that has no timer now
      rw [hfn] at hfa
      cases hfa
      exact absurd rfl hne
    · rcases extend_timer h.tables htp htmu with ⟨hnew, _, _⟩ | ⟨tmu', hu', _, hdue'⟩
      · exact absurd hnew (Nat.ne_of_lt (h.tables.fresh u _ htmu'))
      · rw [hdue, hdue']
        exact h.append_before a tm ssid' u tmu' ha' (hfn ▸ hfa) hu hu'
  · intro ssid' hobj
    rw [appendArmed_extend h.tables htp, tpExpired_extend h.tables htp]
    by_cases hne : ssid' = ssid
    · simp [hne]
    · rw [extend_isSome] at hobj
      simpa [hne, presentAfter_extend h.tables htp hne] using h.outcome ssid' hobj

theorem arm (hsp : (s.object ssid).isSome) (htp : s.getTimer ssid = none) {ms : Int}
    (hms : 0 ≤ ms) : Settles (s.arm ssid ssid ms) := by
  have hnew := h.tables.timer_next
  obtain ⟨ss, hss⟩ := isSome_iff_exists.mp hsp
  refine ⟨h.tables.arm hsp htp ms, ?_, ?_, ?_⟩
  -- the new timer is one for removal, so nothing changes for the appends
  · have := h.append_due
    rw [arm_eq hss]
    simp only [assign] at *
    grind
  · have := h.append_before
    have := h.append_due
    have := h.tables.fresh
    rw [arm_eq hss]
    simp only [assign, getTimer] at *
    grind
  · intro ssid' hobj
    rw [appendArmed_arm h.tables hsp, tpExpired_arm h.tables hsp htp, presentAfter_arm h.tables hsp]
    refine h.outcome ssid' ?_
    rwa [SessionManager.arm, setTp_isSome] at hobj

theorem expire_remove (ht : s.timer t = some tm) (harmed : tm.statu = .armed)
    (hfn : tm.fn = .removeSession ssid) (hnext : s.isNext t tm = true) : ¬ s.AppendArmed ssid := by
  rintro ⟨a, tma, ha, harmed', hfa⟩
  obtain ⟨hlt, hdue⟩ := h.append_before a tma ssid t tm ha hfa
    (h.tables.armed_tp t tm ssid ht hfn harmed) ht
  simp only [isNext, List.all_eq_true, List.mem_range, Option.all_eq_true] at hnext
  have hbefore : tm.due < tma.due ∨ tm.due = tma.due ∧ t ≤ a := by
    simpa [harmed'] using hnext a (h.tables.fresh a tma ha) tma ha
  rcases hbefore with hearlier | ⟨_, hle⟩
  · exact absurd hearlier (not_lt.mpr hdue)
  · exact absurd hlt (not_lt.mpr hle)

theorem expire (ht : s.timer t = some tm) (harmed : tm.statu = .armed)
    (hnext : s.isNext t tm = true) : Settles (s.makeReady t tm .expired) := by
  have htps := h.tables.tp_timer
  refine ⟨h.tables.makeReady ht harmed (by decide), ?_, ?_, ?_⟩
  · have := h.append_due
    simp only [makeReady, assign] at *
    grind
  · have := h.append_before
    simp only [makeReady, assign, getTimer] at *
    grind
  · intro ssid hobj
    have hout := h.outcome ssid hobj
    rw [presentAfter_makeReady ht]
    -- an expired timer for removal settles the session; one for appending brings it back
    cases hfn : tm.fn with
    | removeSession ssid' =>
      have htp := h.tables.armed_tp t tm ssid' ht hfn harmed
      have hnone := h.expire_remove ht harmed hfn hnext
      have happend : (s.makeReady t tm .expired).AppendArmed ssid ↔ s.AppendArmed ssid := by
        simp only [AppendArmed, makeReady, assign]
        grind
      have hx : (s.makeReady t tm .expired).TpExpired ssid ↔ ssid = ssid' ∨ s.TpExpired ssid := by
        simp only [TpExpired, makeReady, assign, getTimer] at *
        grind
      rw [happend, hx, effect]
      by_cases hne : ssid = ssid'
      · simp [hne, hnone]
      · simpa [hne, Ne.symm hne] using hout
    | appendSession sp =>
      have hx : (s.makeReady t tm .expired).TpExpired ssid ↔ s.TpExpired ssid := by
        simp only [TpExpired, makeReady, assign, getTimer] at *
        grind
      rw [hx, effect]
      by_cases hne : ssid = sp
      · simp [hne, hne ▸ hout.mp (Or.inr ⟨t, tm, ht, harmed, hne ▸ hfn⟩)]
      · have happend : (s.makeReady t tm .expired).AppendArmed ssid ↔ s.AppendArmed ssid := by
          simp only [AppendArmed, makeReady, assign]
          grind
        simpa [happend, Ne.symm hne] using hout

theorem run (ht : s.timer t = some tm) (hhead : s.ready.head? = some t) :
    Settles ({ s with ready := s.ready.erase t }.callback tm.fn) := by
  have hok := h.tables.of_ready t
  obtain ⟨session, hcb⟩ := callback_frame hok ht
  refine ⟨hok.callback ht, hcb ▸ h.append_due, hcb ▸ h.append_before, fun ssid hobj => ?_⟩
  rw [presentAfter_run h.tables ht hhead, hcb]
  exact h.outcome ssid (by simpa [hcb] using hobj)

theorem step {l : SessionStep} (hfuture : setsFuture l = true) (hfifo : s.inFifo l = true) (hs : runs.step s l s') :
    Settles s' := by
  cases l with
  | create uid statu => cases hs; exact h.createSession uid statu
  | set ssid ms =>
    cases hs
    have hset : Settles (s.setSessionExpireTime ssid ms) :=
      h.tables.setSessionExpireTime_cases Settles h (fun _ _ htp => h.extend htp)
        fun _ hms _ hs' _ _ hobj htp =>
          hs'.arm hobj htp ((of_decide_eq_true hfuture).resolve_right hms)
    -- the policy is a record of the call and is not looked at
    exact { hset with tables := { hset.tables with } }
  | get ssid => cases hs; exact h
  | elapse ms =>
    cases hs
    refine { h with tables := { h.tables with }, append_due := fun a tma sp ha hfa => ?_ }
    exact le_trans (h.append_due a tma sp ha hfa) (by simp)
  | expire t =>
    obtain ⟨tm, ht, harmed, _, rfl⟩ := expire_step hs
    exact h.expire ht harmed (by simpa [inFifo, ht] using hfifo)
  | run t =>
    obtain ⟨tm, ht, _, rfl⟩ := run_step hs
    exact h.run ht (by simpa [inFifo] using hfifo)

end Settles

theorem futureRuns_inv (s : SessionManager) (h : futureRuns.Reachable s) :
    Settles s ∧ PolicyKept s := by
  refine System.invariant (fun s => Settles s ∧ PolicyKept s) ?_ ?_ s h
  · rintro _ rfl
    exact ⟨Settles.new, fun _ => rfl⟩
  · rintro s l s' ⟨hset, hpol⟩ ⟨⟨hfifo, hpresent, hfuture⟩, hs⟩
    refine ⟨hset.step hfuture hfifo hs, ?_⟩
    cases l with
    | set ssid ms =>
      obtain ⟨sp, hses⟩ : ∃ sp, s.session ssid = some sp :=
        isSome_iff_exists.mp (by simpa [setsPresent] using hpresent)
      obtain rfl := (hset.tables.found ssid sp hses).1
      cases hs
      exact hpol.set hset.tables hses ms
    | _ => exact hpol.step hset.tables (by simp) hs

theorem quiet_iff (h : TablesOk s) (ssid : Nat) :
    s.quiet ssid = true ↔ (∀ fn ∈ s.calls, fn.ssid ≠ ssid) ∧ ¬ s.AppendArmed ssid := by
  simp only [quiet, List.all_eq_true, List.mem_range, Option.all_eq_true]
  constructor
  · intro hq
    refine ⟨fun fn hmem he => ?_, ?_⟩
    · obtain ⟨t, tm, hr, ht, rfl⟩ := mem_calls.mp hmem
      simpa [hr, he] using hq t (h.fresh t tm ht) tm ht
    · rintro ⟨t, tm, ht, harmed, hfn⟩
      simpa [harmed, hfn] using hq t (h.fresh t tm ht) tm ht
  · rintro ⟨hcalls, happend⟩ t _ tm ht
    have hr : ¬ (t ∈ s.ready ∧ tm.fn.ssid = ssid) := fun ⟨hr, he⟩ =>
      hcalls tm.fn (mem_calls.mpr ⟨t, tm, hr, ht, rfl⟩) he
    have ha : ¬ (tm.statu = .armed ∧ tm.fn = .appendSession ssid) := fun ⟨harmed, hfn⟩ =>
      happend ⟨t, tm, ht, harmed, hfn⟩
    simpa using ⟨not_and_or.mp hr, not_and_or.mp ha⟩

/-- **The last policy wins**, in every run that sets no negative timeout: when
    no callback of a session is waiting, the session is present unless its
    latest timeout timer has expired, and it has at most one timer that can
    still remove it. -/
theorem last_policy_wins {s : SessionManager} {ssid : Nat} (h : futureRuns.Reachable s)
    (hcreated : (s.object ssid).isSome = true) (hquiet : s.quiet ssid = true) :
    ((s.session ssid).isSome = true ↔
      s.policy ssid = none ∨
        ∃ t tm, s.policy ssid = some t ∧ s.timer t = some tm ∧ tm.statu ≠ .expired) ∧
    ∀ t tm t' tm', s.timer t = some tm → tm.fn = .removeSession ssid → tm.statu = .armed →
      s.timer t' = some tm' → tm'.fn = .removeSession ssid → tm'.statu = .armed → t = t' := by
  obtain ⟨hset, hpol⟩ := futureRuns_inv s h
  obtain ⟨hcalls, happend⟩ := (quiet_iff hset.tables ssid).mp hquiet
  -- with no call pending, the table is what the last one left
  have hout := hset.outcome ssid hcreated
  rw [presentAfter, foldl_effect_of_ne s.calls _ hcalls, or_iff_left happend] at hout
  refine ⟨hout.trans ?_, ?_⟩
  · rw [hpol ssid, TpExpired]
    cases htp : s.getTimer ssid with
    | none => simp
    | some t =>
      obtain ⟨tm, ht, _⟩ := hset.tables.tp_timer ssid t htp
      simp [ht]
  · intro t tm t' tm' ht hfn harmed ht' hfn' harmed'
    have heq := (hset.tables.armed_tp t tm ssid ht hfn harmed).symm.trans
      (hset.tables.armed_tp t' tm' ssid ht' hfn' harmed')
    exact Option.some_inj.mp heq

def extendedTwice : List SessionStep :=
  [.create 7 .login, .set 1 sessionTimeout, .set 1 sessionTimeout, .set 1 sessionTimeout, .run 0,
    .expire 1, .run 2, .expire 3, .run 1, .run 3, .elapse 30000, .expire 4, .run 4]

theorem last_policy_wins_extended :
    ∃ s : SessionManager, futureRuns.Steps new extendedTwice s ∧ s.quiet 1 = true ∧
      ((s.session 1).isSome = true ↔ s.policy 1 = none ∨
        ∃ t tm, s.policy 1 = some t ∧ s.timer t = some tm ∧ tm.statu ≠ .expired) := by
  have hrun : futureRuns.Steps new extendedTwice _ := System.restrict_steps_of_run rfl
  exact ⟨_, hrun, rfl, (last_policy_wins ⟨_, _, rfl, hrun⟩ rfl rfl).1⟩

/-- The removal timer of -5 ms is ready before the insertion: the session is
    there, although its latest timeout has expired. -/
theorem last_policy_loses : ∃ s : SessionManager, fifoRuns.Steps new
        [.create 7 .login, .set 1 sessionTimeout, .set 1 (-5), .run 0, .expire 2, .expire 1,
          .run 2, .run 1] s ∧
      s.quiet 1 = true ∧ (s.session 1).isSome = true ∧ s.policy 1 = some 2 ∧
      (s.timer 2).map Timer.statu = some .expired :=
  ⟨_, System.restrict_steps_of_run rfl, rfl, rfl, rfl, rfl⟩

end SessionManager

end CallLesson.Gobang
