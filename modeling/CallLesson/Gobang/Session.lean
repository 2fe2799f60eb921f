import CallLesson.Framework.System
import CallLesson.Framework.Dict

/-! # Sessions and their timers

    `session_manager` of `game/source/session.hpp`. A session is removed by a
    timer. To extend it, `set_session_expire_time` cancels the timer, which
    runs the removal all the same, and sets a timer of 0 ms that inserts the
    session again.

    Handlers run one at a time. The timers belong to websocketpp: the callback
    of a timer is ready to run once the timer has expired or was cancelled, and
    runs once. In which order the callbacks run that are ready is an assumption
    of its own, made where a result needs one. -/

namespace CallLesson.Gobang

/-! ## Model -/

def sessionTimeout : Int := 30000

def sessionForever : Int := -1

inductive SsStatu where
  | unlogin
  | login
  deriving DecidableEq

abbrev TimerPtr := Nat

abbrev SessionPtr := Nat

structure Session where
  ssid : Nat
  uid : Nat
  statu : SsStatu
  /-- `_tp`; a null pointer is `none`. -/
  tp : Option TimerPtr
  deriving DecidableEq

inductive TimerFn where
  | removeSession (ssid : Nat)
  | appendSession (sp : SessionPtr)
  deriving DecidableEq

def TimerFn.ssid : TimerFn → Nat
  | .removeSession ssid => ssid
  | .appendSession sp => sp

inductive TimerStatu where
  | armed
  | cancelled
  | expired
  deriving DecidableEq

structure Timer where
  fn : TimerFn
  /-- The time at which it becomes due, which may be in the past. -/
  due : Int
  statu : TimerStatu
  /-- The timer that was cancelled before this one was set, while its callback
      is still to run. -/
  after : Option TimerPtr
  deriving DecidableEq

structure SessionManager where
  /-- `_next_ssid`. -/
  nextSsid : Nat
  /-- `_session`. -/
  session : Dict Nat SessionPtr
  /-- The session objects. -/
  object : Dict SessionPtr Session
  /-- The clock, in milliseconds. -/
  now : Int
  nextTimer : TimerPtr
  timer : Dict TimerPtr Timer
  /-- The callbacks that are ready and have not run, in the order in which they
      became ready. -/
  ready : List TimerPtr
  /-- The latest timeout timer of each session; none for a session that is to
      stay for ever. -/
  policy : Dict Nat TimerPtr

namespace SessionManager

def new : SessionManager where
  nextSsid := 1
  session := Dict.empty
  object := Dict.empty
  now := 0
  nextTimer := 0
  timer := Dict.empty
  ready := []
  policy := Dict.empty

def createSession (s : SessionManager) (uid : Nat) (statu : SsStatu) : SessionManager :=
  { s with
    nextSsid := s.nextSsid + 1
    object := s.object.assign s.nextSsid ⟨s.nextSsid, uid, statu, none⟩
    session := s.session.insert s.nextSsid s.nextSsid }

def getSessionBySsid (s : SessionManager) (ssid : Nat) : Option SessionPtr := s.session ssid

def getTimer (s : SessionManager) (sp : SessionPtr) : Option TimerPtr :=
  (s.object sp).bind Session.tp

def setTp (s : SessionManager) (sp : SessionPtr) (tp : Option TimerPtr) : SessionManager :=
  match s.object sp with
  | none => s
  | some ss => { s with object := s.object.assign sp { ss with tp := tp } }

def setTimer (s : SessionManager) (ms : Int) (fn : TimerFn) (after : Option TimerPtr) :
    SessionManager :=
  { s with
    nextTimer := s.nextTimer + 1
    timer := s.timer.assign s.nextTimer ⟨fn, s.now + ms, .armed, after⟩ }

def makeReady (s : SessionManager) (t : TimerPtr) (tm : Timer) (statu : TimerStatu) :
    SessionManager :=
  { s with timer := s.timer.assign t { tm with statu := statu }, ready := s.ready ++ [t] }

def cancel (s : SessionManager) (t : TimerPtr) : SessionManager :=
  match s.timer t with
  | none => s
  | some tm => if tm.statu = .armed then s.makeReady t tm .cancelled else s

def pending (s : SessionManager) (t : TimerPtr) : Option TimerPtr :=
  match s.timer t with
  | none => none
  | some tm => if tm.statu = .armed ∨ t ∈ s.ready then some t else none

def arm (s : SessionManager) (ssp : SessionPtr) (ssid : Nat) (ms : Int) : SessionManager :=
  (s.setTimer ms (.removeSession ssid) none).setTp ssp (some s.nextTimer)

def extend (s : SessionManager) (ssp : SessionPtr) (tp : TimerPtr) : SessionManager :=
  ((s.cancel tp).setTp ssp none).setTimer 0 (.appendSession ssp) (s.pending tp)

def setSessionExpireTime (s : SessionManager) (ssid : Nat) (ms : Int) : SessionManager :=
  match s.getSessionBySsid ssid with
  | none => s
  | some ssp =>
      match s.getTimer ssp with
      | none => if ms = sessionForever then s else s.arm ssp ssid ms
      | some tp =>
          if ms = sessionForever then s.extend ssp tp
          else (s.extend ssp tp).arm ssp ssid ms

def appendSession (s : SessionManager) (sp : SessionPtr) : SessionManager :=
  match s.object sp with
  | none => s
  | some ss => { s with session := s.session.insert ss.ssid sp }

def removeSession (s : SessionManager) (ssid : Nat) : SessionManager :=
  { s with session := s.session.erase ssid }

def callback (s : SessionManager) : TimerFn → SessionManager
  | .removeSession ssid => s.removeSession ssid
  | .appendSession sp => s.appendSession sp

end SessionManager

/-! ### Runs -/

inductive SessionStep where
  | create (uid : Nat) (statu : SsStatu)
  | set (ssid : Nat) (ms : Int)
  /-- A request that looks for a session. -/
  | get (ssid : Nat)
  | elapse (ms : Nat)
  /-- A timer that is due becomes ready. -/
  | expire (t : TimerPtr)
  /-- A callback that is ready runs. -/
  | run (t : TimerPtr)
  deriving DecidableEq

def SessionStep.ssid? : SessionStep → Option Nat
  | .set ssid _ => some ssid
  | .get ssid => some ssid
  | _ => none

open Dict SessionManager Option

variable {s s' : SessionManager} {sp : SessionPtr} {t : TimerPtr} {tm : Timer} {ssid : Nat}

namespace SessionManager

def lapsed (s : SessionManager) (ssid : Nat) : Bool :=
  match s.policy ssid with
  | none => false
  | some t => (s.timer t).any fun tm => tm.statu == .expired

def live (s : SessionManager) (ssid : Nat) : Bool :=
  (s.object ssid).isSome && !s.lapsed ssid

def policyAfter (s : SessionManager) (ssid : Nat) (ms : Int) : Dict Nat TimerPtr :=
  if ms = sessionForever then
    if (s.session ssid).isSome || s.live ssid then s.policy.erase ssid else s.policy
  else
    match s.session ssid with
    | none => s.policy
    | some _ => s.policy.assign ssid ((s.setSessionExpireTime ssid ms).nextTimer - 1)

def next (s : SessionManager) : SessionStep → Option SessionManager
  | .create uid statu => some (s.createSession uid statu)
  | .set ssid ms => some { s.setSessionExpireTime ssid ms with policy := s.policyAfter ssid ms }
  | .get _ => some s
  | .elapse ms => some { s with now := s.now + ms }
  | .expire t =>
      match s.timer t with
      | none => none
      | some tm =>
          if tm.statu = .armed ∧ tm.due ≤ s.now then some (s.makeReady t tm .expired) else none
  | .run t =>
      match s.timer t with
      | none => none
      | some tm =>
          if t ∈ s.ready then some ({ s with ready := s.ready.erase t }.callback tm.fn) else none

def runs : System SessionManager SessionStep := System.ofNext new next

/-! ## Objects and timers -/

theorem expire_step (h : runs.step s (.expire t) s') :
    ∃ tm, s.timer t = some tm ∧ tm.statu = .armed ∧ tm.due ≤ s.now ∧
      s' = s.makeReady t tm .expired := by
  change s.next (.expire t) = some s' at h
  simp only [next] at h
  split at h
  · cases h
  · split at h
    · next tm ht hdue =>
      cases h
      exact ⟨tm, ht, hdue.1, hdue.2, rfl⟩
    · cases h

theorem run_step (h : runs.step s (.run t) s') : ∃ tm, s.timer t = some tm ∧ t ∈ s.ready ∧
      s' = { s with ready := s.ready.erase t }.callback tm.fn := by
  change s.next (.run t) = some s' at h
  simp only [next] at h
  split at h
  · cases h
  · split at h
    · next tm ht hready =>
      cases h
      exact ⟨tm, ht, hready, rfl⟩
    · cases h

theorem isSome_of_getTimer (h : s.getTimer sp = some t) : (s.object sp).isSome := by
  obtain ⟨ss, hss, _⟩ := bind_eq_some_iff.mp h
  simp [hss]

section

variable (s : SessionManager)

theorem cancel_object (t : TimerPtr) : (s.cancel t).object = s.object := by
  unfold cancel makeReady
  split
  · rfl
  · split <;> rfl

theorem cancel_getTimer (t : TimerPtr) (sp : SessionPtr) :
    (s.cancel t).getTimer sp = s.getTimer sp := by
  rw [getTimer, getTimer, cancel_object]

theorem cancel_session (t : TimerPtr) : (s.cancel t).session = s.session := by
  unfold cancel makeReady
  split
  · rfl
  · split <;> rfl

theorem setTp_session (sp : SessionPtr) (tp : Option TimerPtr) :
    (s.setTp sp tp).session = s.session := by
  unfold setTp
  split <;> rfl

theorem extend_session (sp : SessionPtr) (t : TimerPtr) : (s.extend sp t).session = s.session :=
  (setTp_session _ sp none).trans (cancel_session s t)

theorem setTp_isSome (sp : SessionPtr) (tp : Option TimerPtr) (sp' : SessionPtr) :
    ((s.setTp sp tp).object sp').isSome = (s.object sp').isSome := by
  unfold setTp
  split
  · rfl
  · by_cases h : sp' = sp <;> simp_all

end

variable {ss : Session}

theorem arm_eq (h : s.object sp = some ss) (ssid : Nat) (ms : Int) :
    s.arm sp ssid ms =
      { s with
        nextTimer := s.nextTimer + 1
        object := s.object.assign sp { ss with tp := some s.nextTimer }
        timer := s.timer.assign s.nextTimer ⟨.removeSession ssid, s.now + ms, .armed, none⟩ } := by
  simp [arm, setTp, setTimer, h]

theorem extend_armed (h : s.object sp = some ss) (ht : s.timer t = some tm)
    (harmed : tm.statu = .armed) : s.extend sp t =
      { s with
        nextTimer := s.nextTimer + 1
        object := s.object.assign sp { ss with tp := none }
        timer := (s.timer.assign t { tm with statu := .cancelled }).assign s.nextTimer
          ⟨.appendSession sp, s.now + 0, .armed, some t⟩
        ready := s.ready ++ [t] } := by
  simp [extend, setTp, setTimer, cancel, makeReady, pending, h, ht, harmed]

theorem extend_not_armed (h : s.object sp = some ss) (ht : s.timer t = some tm)
    (harmed : tm.statu ≠ .armed) : s.extend sp t =
      { s with
        nextTimer := s.nextTimer + 1
        object := s.object.assign sp { ss with tp := none }
        timer := s.timer.assign s.nextTimer
          ⟨.appendSession sp, s.now + 0, .armed, if t ∈ s.ready then some t else none⟩ } := by
  simp [extend, setTp, setTimer, cancel, pending, h, ht, harmed]

theorem extend_isSome (s : SessionManager) (sp : SessionPtr) (t : TimerPtr) (sp' : SessionPtr) :
    ((s.extend sp t).object sp').isSome = (s.object sp').isSome := by
  show ((((s.cancel t).setTp sp none).object sp')).isSome = _
  rw [setTp_isSome, cancel_object]

theorem extend_getTimer (htp : s.getTimer sp = some t) (sp' : SessionPtr) :
    (s.extend sp t).getTimer sp' = if sp' = sp then none else s.getTimer sp' := by
  obtain ⟨ss, hss⟩ := isSome_iff_exists.mp (isSome_of_getTimer htp)
  by_cases h : sp' = sp <;>
    simp [extend, setTp, cancel_object, hss, getTimer, setTimer, h]

theorem arm_getTimer (h : (s.object sp).isSome) (ssid : Nat) (ms : Int) (sp' : SessionPtr) :
    (s.arm sp ssid ms).getTimer sp' =
      if sp' = sp then some s.nextTimer else s.getTimer sp' := by
  obtain ⟨ss, hss⟩ := isSome_iff_exists.mp h
  rw [arm_eq hss]
  by_cases h : sp' = sp <;> simp [getTimer, h]

theorem arm_nextTimer (h : (s.object sp).isSome) (ssid : Nat) (ms : Int) :
    (s.arm sp ssid ms).nextTimer = s.nextTimer + 1 := by
  obtain ⟨ss, hss⟩ := isSome_iff_exists.mp h
  rw [arm_eq hss]

structure TablesOk (s : SessionManager) : Prop where
  object_ssid : ∀ sp ss, s.object sp = some ss → ss.ssid = sp ∧ sp < s.nextSsid
  found : ∀ ssid sp, s.session ssid = some sp → sp = ssid ∧ (s.object ssid).isSome
  tp_timer : ∀ sp t, s.getTimer sp = some t → ∃ tm, s.timer t = some tm ∧ tm.fn = .removeSession sp
  armed_tp : ∀ t tm ssid, s.timer t = some tm → tm.fn = .removeSession ssid →
    tm.statu = .armed → s.getTimer ssid = some t
  fn_object : ∀ t tm, s.timer t = some tm → (s.object tm.fn.ssid).isSome
  fresh : ∀ t tm, s.timer t = some tm → t < s.nextTimer
  ready_timer : ∀ t ∈ s.ready, ∃ tm, s.timer t = some tm ∧ tm.statu ≠ .armed
  ready_nodup : s.ready.Nodup

namespace TablesOk

theorem new : TablesOk SessionManager.new := by
  constructor <;> simp [SessionManager.new, empty, getTimer]

variable {s : SessionManager}

variable (h : TablesOk s)

include h

theorem object_next : s.object s.nextSsid = none := by
  cases hss : s.object s.nextSsid with
  | none => rfl
  | some ss => exact absurd (h.object_ssid _ _ hss).2 (Nat.lt_irrefl _)

theorem session_next : s.session s.nextSsid = none := by
  cases hsp : s.session s.nextSsid with
  | none => rfl
  | some sp => simpa [h.object_next] using (h.found _ _ hsp).2

theorem timer_next : s.timer s.nextTimer = none := by
  cases htm : s.timer s.nextTimer with
  | none => rfl
  | some tm => exact absurd (h.fresh _ _ htm) (Nat.lt_irrefl _)

theorem append_object (ht : s.timer t = some tm) (hfn : tm.fn = .appendSession sp) :
    (s.object sp).isSome := by
  simpa [hfn, TimerFn.ssid] using h.fn_object t tm ht

theorem createSession (uid : Nat) (statu : SsStatu) : TablesOk (s.createSession uid statu) := by
  have hobj := h.object_next
  have hses := h.session_next
  refine { h with object_ssid := ?_, found := ?_, tp_timer := ?_, armed_tp := ?_, fn_object := ?_ }
  · have := h.object_ssid
    simp only [SessionManager.createSession, Dict.assign] at this ⊢
    grind
  · have := h.found
    simp only [SessionManager.createSession, Dict.assign, Dict.insert] at this ⊢
    grind
  · have := h.tp_timer
    simp only [SessionManager.createSession, Dict.assign, getTimer] at this ⊢
    grind
  · have := h.armed_tp
    simp only [SessionManager.createSession, Dict.assign, getTimer] at this ⊢
    grind
  · have := h.fn_object
    simp only [SessionManager.createSession, Dict.assign] at this ⊢
    grind [TimerFn.ssid]

theorem makeReady {statu : TimerStatu} (ht : s.timer t = some tm) (harmed : tm.statu = .armed)
    (hs : statu ≠ .armed) : TablesOk (s.makeReady t tm statu) := by
  have hready := h.ready_timer
  refine { h with tp_timer := ?_, armed_tp := ?_, fn_object := ?_, fresh := ?_,
                  ready_timer := ?_, ready_nodup := ?_ }
  · have := h.tp_timer
    simp only [SessionManager.makeReady, assign, getTimer] at this ⊢
    grind
  · have := h.armed_tp
    simp only [SessionManager.makeReady, assign, getTimer] at this ⊢
    grind
  · have := h.fn_object
    simp only [SessionManager.makeReady, assign] at this ⊢
    grind [TimerFn.ssid]
  · have := h.fresh
    simp only [SessionManager.makeReady, assign] at this ⊢
    grind
  · simp only [SessionManager.makeReady, assign]
    grind
  · -- a timer that is armed is not ready yet
    have := h.ready_nodup
    grind [SessionManager.makeReady]

theorem cancel (t : TimerPtr) : TablesOk (s.cancel t) := by
  unfold SessionManager.cancel
  split
  · exact h
  · split
    · next ht harmed => exact h.makeReady ht harmed (by decide)
    · exact h

theorem setTp_none (htp : s.getTimer sp = some t) (ht : s.timer t = some tm)
    (hstatu : tm.statu ≠ .armed) : TablesOk (s.setTp sp none) := by
  unfold getTimer at htp
  unfold setTp
  split
  · exact h
  · refine { h with object_ssid := ?_, found := ?_, tp_timer := ?_, armed_tp := ?_,
                    fn_object := ?_ }
    · have := h.object_ssid
      simp only [assign] at this ⊢
      grind
    · have := h.found
      simp only [assign] at this ⊢
      grind
    · have := h.tp_timer
      simp only [assign, getTimer] at this ⊢
      grind
    · have := h.armed_tp
      simp only [assign, getTimer] at this ⊢
      grind
    · have := h.fn_object
      simp only [assign] at this ⊢
      grind [TimerFn.ssid]

theorem setTimer_append (hsp : (s.object sp).isSome) (ms : Int) (after : Option TimerPtr) :
    TablesOk (s.setTimer ms (.appendSession sp) after) := by
  have hnew := h.timer_next
  refine { h with tp_timer := ?_, armed_tp := ?_, fn_object := ?_, fresh := ?_, ready_timer := ?_ }
  · have := h.tp_timer
    simp only [setTimer, assign, getTimer] at this ⊢
    grind
  · have := h.armed_tp
    simp only [setTimer, assign, getTimer] at this ⊢
    grind
  · have := h.fn_object
    simp only [setTimer, assign] at this ⊢
    grind [TimerFn.ssid]
  · have := h.fresh
    simp only [setTimer, assign] at this ⊢
    grind
  · have := h.ready_timer
    simp only [setTimer, assign] at this ⊢
    grind

theorem arm (hsp : (s.object ssid).isSome) (htp : s.getTimer ssid = none) (ms : Int) :
    TablesOk (s.arm ssid ssid ms) := by
  have hnew := h.timer_next
  obtain ⟨ss, hss⟩ := isSome_iff_exists.mp hsp
  rw [arm_eq hss]
  unfold getTimer at htp
  refine { h with object_ssid := ?_, found := ?_, tp_timer := ?_, armed_tp := ?_,
                  fn_object := ?_, fresh := ?_, ready_timer := ?_ }
  · have := h.object_ssid
    simp only [assign] at this ⊢
    grind
  · have := h.found
    simp only [assign] at this ⊢
    grind
  · intro sp t ht
    by_cases hsp' : sp = ssid
    · subst hsp'
      have : s.nextTimer = t := by simpa [getTimer] using ht
      subst this
      exact ⟨_, assign_self _ _ _, rfl⟩
    · have := h.tp_timer sp t
      simp only [assign, getTimer] at this ht ⊢
      grind
  · have := h.armed_tp
    simp only [assign, getTimer] at this ⊢
    grind
  · have := h.fn_object
    simp only [assign] at this ⊢
    grind [TimerFn.ssid]
  · have := h.fresh
    simp only [assign] at this ⊢
    grind
  · have := h.ready_timer
    simp only [assign] at this ⊢
    grind

theorem cancel_not_armed (htp : s.getTimer sp = some t) :
    ∃ tm, (s.cancel t).timer t = some tm ∧ tm.fn = .removeSession sp ∧ tm.statu ≠ .armed := by
  obtain ⟨tm, ht, hfn⟩ := h.tp_timer sp t htp
  by_cases harmed : tm.statu = .armed
  · refine ⟨{ tm with statu := .cancelled }, ?_, hfn, by simp⟩
    simp [SessionManager.cancel, ht, harmed, SessionManager.makeReady]
  · exact ⟨tm, by simp [SessionManager.cancel, ht, harmed], hfn, harmed⟩

theorem extend (htp : s.getTimer sp = some t) : TablesOk (s.extend sp t) := by
  obtain ⟨tm, ht, _, hstatu⟩ := h.cancel_not_armed htp
  refine ((h.cancel t).setTp_none ?_ ht hstatu).setTimer_append ?_ 0 _
  · rw [cancel_getTimer, htp]
  · rw [setTp_isSome, cancel_object]
    exact isSome_of_getTimer htp

theorem setSessionExpireTime_cases (P : SessionManager → Prop) {ms : Int} (hP : P s)
    (hextend : ∀ t, s.session ssid = some ssid → s.getTimer ssid = some t → P (s.extend ssid t))
    (harm : ∀ s', ms ≠ sessionForever → TablesOk s' → P s' → s'.session = s.session →
      s.session ssid = some ssid → (s'.object ssid).isSome → s'.getTimer ssid = none →
      P (s'.arm ssid ssid ms)) :
    P (s.setSessionExpireTime ssid ms) := by
  unfold setSessionExpireTime getSessionBySsid
  cases hfound : s.session ssid with
  | none => exact hP
  | some sp =>
    obtain ⟨rfl, hobj⟩ := h.found ssid sp hfound
    cases htp : s.getTimer sp with
    | none =>
      by_cases hms : ms = sessionForever
      · simpa [htp, hms] using hP
      · simpa [htp, hms] using harm s hms h hP rfl hfound hobj htp
    | some t =>
      have hext := hextend t hfound htp
      by_cases hms : ms = sessionForever
      · simpa [htp, hms] using hext
      · have hobj' : ((s.extend sp t).object sp).isSome := extend_isSome s sp t sp ▸ hobj
        have := harm (s.extend sp t) hms (h.extend htp) hext (extend_session s sp t) hfound
          hobj' (by simp [extend_getTimer htp])
        simpa [htp, hms] using this

theorem appendSession_eq (hsp : (s.object sp).isSome) :
    s.appendSession sp = { s with session := s.session.insert sp sp } := by
  obtain ⟨ss, hss⟩ := isSome_iff_exists.mp hsp
  simp [appendSession, hss, (h.object_ssid sp ss hss).1]

theorem insert_self (ssid : Nat) : s.session.insert ssid ssid ssid = some ssid := by
  cases hfound : s.session ssid with
  | none => exact Dict.insert_of_none ssid hfound
  | some sp => simp [Dict.insert, hfound, (h.found ssid sp hfound).1]

theorem of_ready (t : TimerPtr) : TablesOk { s with ready := s.ready.erase t } :=
  { h with
    ready_timer := fun t' ht' => h.ready_timer t' (List.mem_of_mem_erase ht')
    ready_nodup := h.ready_nodup.erase t }

theorem callback (ht : s.timer t = some tm) : TablesOk (s.callback tm.fn) := by
  cases hfn : tm.fn with
  | removeSession ssid =>
    refine { h with found := ?_ }
    have := h.found
    simp only [SessionManager.callback, removeSession, erase] at this ⊢
    grind
  | appendSession sp =>
    have hsp := h.append_object ht hfn
    simp only [SessionManager.callback, h.appendSession_eq hsp]
    refine { h with found := ?_ }
    intro ssid sp' hfound
    by_cases hssid : ssid = sp
    · subst hssid
      exact ⟨some_inj.mp (hfound.symm.trans (h.insert_self ssid)), hsp⟩
    · exact h.found ssid sp' (by simpa [hssid] using hfound)

end TablesOk

/-! ## Policies -/

def TpExpired (s : SessionManager) (ssid : Nat) : Prop :=
  ∃ t tm, s.getTimer ssid = some t ∧ s.timer t = some tm ∧ tm.statu = .expired

def PolicyKept (s : SessionManager) : Prop := ∀ ssid, s.policy ssid = s.getTimer ssid

theorem lapsed_iff (h : PolicyKept s) (ssid : Nat) : s.lapsed ssid = true ↔ s.TpExpired ssid := by
  unfold lapsed TpExpired
  rw [h ssid]
  cases htp : s.getTimer ssid with
  | none => simp
  | some t => simp [any_eq_true]

theorem setSessionExpireTime_getTimer (h : TablesOk s) (hfound : s.session ssid = some ssid)
    (ms : Int) (sp : SessionPtr) :
    (s.setSessionExpireTime ssid ms).getTimer sp =
      if sp = ssid then
        if ms = sessionForever then none else some ((s.setSessionExpireTime ssid ms).nextTimer - 1)
      else s.getTimer sp := by
  have hobj := (h.found ssid ssid hfound).2
  unfold setSessionExpireTime getSessionBySsid
  cases htp : s.getTimer ssid with
  | none =>
    by_cases hms : ms = sessionForever
    · by_cases hsp : sp = ssid <;> simp [hfound, htp, hms, hsp]
    · simp [hfound, htp, hms, arm_getTimer hobj, arm_nextTimer hobj]
  | some t =>
    have hobj' : ((s.extend ssid t).object ssid).isSome := extend_isSome s ssid t ssid ▸ hobj
    by_cases hms : ms = sessionForever
    · simp [hfound, htp, hms, extend_getTimer htp]
    · by_cases hsp : sp = ssid <;>
        simp [hfound, htp, hms, hsp, arm_getTimer hobj', arm_nextTimer hobj', extend_getTimer htp]

theorem setSessionExpireTime_not_found (h : s.session ssid = none) (ms : Int) :
    s.setSessionExpireTime ssid ms = s := by
  simp [setSessionExpireTime, getSessionBySsid, h]

theorem PolicyKept.set (h : PolicyKept s) (hok : TablesOk s) (hfound : s.session ssid = some ssid)
    (ms : Int) :
    PolicyKept { s.setSessionExpireTime ssid ms with policy := s.policyAfter ssid ms } := by
  intro sp
  show s.policyAfter ssid ms sp = (s.setSessionExpireTime ssid ms).getTimer sp
  rw [setSessionExpireTime_getTimer hok hfound]
  unfold policyAfter
  by_cases hms : ms = sessionForever <;> by_cases hsp : sp = ssid <;> simp [hms, hsp, hfound, h sp]

theorem PolicyKept.set_missing (h : PolicyKept s) (hmissing : s.session ssid = none)
    (hlive : s.live ssid = false) (ms : Int) :
    PolicyKept { s.setSessionExpireTime ssid ms with policy := s.policyAfter ssid ms } := by
  intro sp
  show s.policyAfter ssid ms sp = (s.setSessionExpireTime ssid ms).getTimer sp
  rw [setSessionExpireTime_not_found hmissing, ← h sp]
  simp [policyAfter, hmissing, hlive]

theorem PolicyKept.step (h : PolicyKept s) (hok : TablesOk s) {l : SessionStep}
    (hl : ∀ ssid ms, l ≠ .set ssid ms) (hs : runs.step s l s') : PolicyKept s' := by
  cases l with
  | create uid statu =>
    cases hs
    intro sp
    rw [show (s.createSession uid statu).policy sp = s.policy sp from rfl, h sp]
    by_cases hsp : sp = s.nextSsid
    · simp [hsp, getTimer, createSession, hok.object_next]
    · simp [hsp, getTimer, createSession]
  | set ssid ms => exact absurd rfl (hl ssid ms)
  | get ssid => cases hs; exact h
  | elapse ms => cases hs; exact h
  | expire t =>
    obtain ⟨tm, _, _, _, rfl⟩ := expire_step hs
    exact h
  | run t =>
    obtain ⟨tm, _, _, rfl⟩ := run_step hs
    cases tm.fn with
    | removeSession ssid => exact h
    | appendSession sp =>
      show PolicyKept (appendSession _ sp)
      unfold appendSession
      split
      · exact h
      · exact h

end SessionManager

end CallLesson.Gobang
