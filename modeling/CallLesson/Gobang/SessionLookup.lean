import CallLesson.Gobang.Session

/-! # A live session is found, unless it is being extended

    The removal that `set_session_expire_time` cancels runs before the session
    is inserted again, and a request that is handled between the two does not
    find it. -/

namespace CallLesson.Gobang

open Dict

variable {t : TimerPtr} {ssid : Nat} {tm : Timer}

namespace SessionManager

/-! ## The gap -/

def inOrder (s : SessionManager) : SessionStep → Bool
  | .run t =>
      match (s.timer t).bind Timer.after with
      | none => true
      | some t' => t' ∉ s.ready
  | _ => true

def inGap (s : SessionManager) (ssid : Nat) : Bool :=
  (List.range s.nextTimer).any fun t => (s.timer t).any fun tm =>
    (tm.statu = .armed || t ∈ s.ready) && tm.fn = .appendSession ssid &&
      tm.after.any fun t' => t' ∉ s.ready

def clear (s : SessionManager) : SessionStep → Bool
  | .set ssid _ => !s.inGap ssid
  | .get ssid => !s.inGap ssid
  | _ => true

def Waits (s : SessionManager) (t : TimerPtr) (tm : Timer) : Prop :=
  s.timer t = some tm ∧ (tm.statu = .armed ∨ t ∈ s.ready)

def Gap (s : SessionManager) (ssid : Nat) : Prop :=
  ∃ t tm t', s.Waits t tm ∧ tm.fn = .appendSession ssid ∧ tm.after = some t' ∧ t' ∉ s.ready

theorem inGap_iff {s : SessionManager} (h : TablesOk s) (ssid : Nat) :
    s.inGap ssid = true ↔ s.Gap ssid := by
  simp only [inGap, Gap, Waits, List.any_eq_true, List.mem_range, Option.any_eq_true,
    Bool.and_eq_true, Bool.or_eq_true, decide_eq_true_eq]
  constructor
  · rintro ⟨t, _, tm, ht, ⟨hw, hfn⟩, t', hafter, hr⟩
    exact ⟨t, tm, t', ⟨ht, hw⟩, hfn, hafter, hr⟩
  · rintro ⟨t, tm, t', ⟨ht, hw⟩, hfn, hafter, hr⟩
    exact ⟨t, h.fresh t tm ht, tm, ht, ⟨hw, hfn⟩, t', hafter, hr⟩

structure Reinserted (s : SessionManager) : Prop where
  tables : TablesOk s
  after_not_armed : ∀ t tm t', s.timer t = some tm → tm.after = some t' →
    ∃ tm', s.timer t' = some tm' ∧ tm'.statu ≠ .armed
  removal : ∀ t ∈ s.ready, ∀ tm ssid, s.timer t = some tm → tm.fn = .removeSession ssid →
    (∃ a tma, s.Waits a tma ∧ tma.fn = .appendSession ssid ∧ tma.after = some t) ∨
      (s.getTimer ssid = some t ∧ tm.statu = .expired)
  missing : ∀ ssid, (s.object ssid).isSome → s.session ssid = none → s.Gap ssid ∨ s.TpExpired ssid

namespace Reinserted

variable {s : SessionManager}

theorem new : Reinserted SessionManager.new := by
  refine ⟨TablesOk.new, ?_, ?_, ?_⟩ <;> simp [SessionManager.new, empty]

theorem createSession (h : Reinserted s) (uid : Nat) (statu : SsStatu) :
    Reinserted (s.createSession uid statu) := by
  have hobj := h.tables.object_next
  have hses := h.tables.session_next
  refine ⟨h.tables.createSession uid statu, h.after_not_armed, ?_, ?_⟩
  · have := h.removal
    have := h.tables.tp_timer
    simp only [SessionManager.createSession, Waits, getTimer, Dict.assign] at *
    grind
  · have := h.missing
    simp only [SessionManager.createSession, Gap, Waits, TpExpired, getTimer, Dict.assign,
      Dict.insert] at *
    grind

theorem makeReady (h : Reinserted s) (ht : s.timer t = some tm) (harmed : tm.statu = .armed) :
    Reinserted (s.makeReady t tm .expired) := by
  refine ⟨h.tables.makeReady ht harmed (by decide), ?_, ?_, ?_⟩
  · have := h.after_not_armed
    simp only [SessionManager.makeReady, assign] at *
    grind
  · have := h.removal
    have := h.tables.armed_tp
    simp only [SessionManager.makeReady, Waits, getTimer, assign] at *
    grind
  · have := h.missing
    have := h.after_not_armed
    simp only [SessionManager.makeReady, Gap, Waits, TpExpired, getTimer, assign] at *
    grind

section

variable (h : Reinserted s) (hfound : s.session ssid = some ssid) (htp : s.getTimer ssid = some t)

include h hfound htp

theorem extend_armed {ss : Session} (hss : s.object ssid = some ss) (ht : s.timer t = some tm)
    (hfn : tm.fn = .removeSession ssid) (harmed : tm.statu = .armed) :
    Reinserted (s.extend ssid t) := by
  have hok := h.tables.extend htp
  have hnew := h.tables.timer_next
  rw [SessionManager.extend_armed hss ht harmed] at hok ⊢
  have hkeep : ∀ {a tma sp}, s.Waits a tma → tma.fn = .appendSession sp →
      a ≠ s.nextTimer ∧ a ≠ t := by
    intro a tma sp hw hfa
    refine ⟨fun ha => by simp [ha, Waits, hnew] at hw, fun ha => ?_⟩
    obtain rfl := Option.some_inj.mp (ht.symm.trans (ha ▸ hw.1))
    rw [hfn] at hfa
    cases hfa
  have hready : ∀ t' ∈ s.ready, t' ≠ s.nextTimer ∧ t' ≠ t := by
    intro t' ht'
    obtain ⟨tm', htm', hna⟩ := h.tables.ready_timer t' ht'
    refine ⟨fun he => by simp [he, hnew] at htm', fun he => hna ?_⟩
    rw [he, ht] at htm'
    cases htm'
    exact harmed
  refine ⟨hok, ?_, ?_, ?_⟩
  · have := h.after_not_armed
    simp only [assign] at *
    grind
  · intro t' ht' tm' ssid' htm' hfn'
    rcases List.mem_append.mp ht' with hold | hcancelled
    · obtain ⟨hne1, hne2⟩ := hready t' hold
      rcases h.removal t' hold tm' ssid' (by simpa [hne1, hne2] using htm') hfn' with
        ⟨a, tma, hw, hfa, haf⟩ | ⟨htp', hx⟩
      · obtain ⟨ha1, ha2⟩ := hkeep hw hfa
        exact Or.inl ⟨a, tma, ⟨by simpa [ha1, ha2] using hw.1,
          hw.2.imp_right (List.mem_append_left _)⟩, hfa, haf⟩
      · have hne : ssid' ≠ ssid := fun he =>
          hne2 (Option.some_inj.mp (htp'.symm.trans (he ▸ htp)))
        exact Or.inr ⟨by simpa [getTimer, hne] using htp', hx⟩
    · -- the removal that is cancelled now: the new timer is the insertion after it
      obtain rfl := List.mem_singleton.mp hcancelled
      have hne : t' ≠ s.nextTimer := fun he => by simp [he, hnew] at ht
      obtain rfl : _ = tm' := by simpa [hne] using htm'
      obtain rfl : ssid = ssid' := by simpa [hfn] using hfn'
      exact Or.inl ⟨s.nextTimer, _, ⟨assign_self _ _ _, Or.inl rfl⟩, rfl, rfl⟩
  · intro ssid' hobj hnone
    have hne : ssid' ≠ ssid := fun he => by simp [he, hfound] at hnone
    have hobj' : (s.object ssid').isSome := by simpa [hne] using hobj
    rcases h.missing ssid' hobj' hnone with ⟨a, tma, t', hw, hfa, haf, hr⟩ | ⟨u, tmu, hu, htu, hx⟩
    · obtain ⟨ha1, ha2⟩ := hkeep hw hfa
      refine Or.inl ⟨a, tma, t', ⟨by simpa [ha1, ha2] using hw.1,
        hw.2.imp_right (List.mem_append_left _)⟩, hfa, haf, ?_⟩
      -- the timer that is cancelled now was armed, so the insertion is after another one
      obtain ⟨tm', ht', hna⟩ := h.after_not_armed a tma t' hw.1 haf
      have hne' : t' ≠ t := by
        rintro rfl
        rw [ht] at ht'
        cases ht'
        exact hna harmed
      simpa [hne'] using hr
    · have hu1 : u ≠ s.nextTimer := fun he => by simp [he, hnew] at htu
      have hu2 : u ≠ t := by
        rintro rfl
        obtain rfl := Option.some_inj.mp (ht.symm.trans htu)
        simp [harmed] at hx
      exact Or.inr ⟨u, tmu, by simpa [getTimer, hne] using hu, by simpa [hu1, hu2] using htu, hx⟩

theorem extend_not_armed {ss : Session} (hss : s.object ssid = some ss) (ht : s.timer t = some tm)
    (harmed : tm.statu ≠ .armed) : Reinserted (s.extend ssid t) := by
  have hok := h.tables.extend htp
  have hnew := h.tables.timer_next
  rw [SessionManager.extend_not_armed hss ht harmed] at hok ⊢
  have hkeep : ∀ {a tma}, s.timer a = some tma → a ≠ s.nextTimer := fun ha he => by
    simp [he, hnew] at ha
  refine ⟨hok, ?_, ?_, ?_⟩
  · have := h.after_not_armed
    simp only [assign] at *
    grind
  · intro t' ht' tm' ssid' htm' hfn'
    obtain ⟨tm0, htm0, _⟩ := h.tables.ready_timer t' ht'
    rcases h.removal t' ht' tm' ssid' (by simpa [hkeep htm0] using htm') hfn' with
      ⟨a, tma, hw, hfa, haf⟩ | ⟨htp', hx⟩
    · exact Or.inl ⟨a, tma, ⟨by simpa [hkeep hw.1] using hw.1, hw.2⟩, hfa, haf⟩
    · by_cases hne : ssid' = ssid
      · -- the expired removal of the session itself: the new timer is the insertion after it
        subst hne
        obtain rfl := Option.some_inj.mp (htp.symm.trans htp')
        exact Or.inl ⟨s.nextTimer, _, ⟨assign_self _ _ _, Or.inl rfl⟩, rfl, if_pos ht'⟩
      · exact Or.inr ⟨by simpa [getTimer, hne] using htp', hx⟩
  · intro ssid' hobj hnone
    have hne : ssid' ≠ ssid := fun he => by simp [he, hfound] at hnone
    have hobj' : (s.object ssid').isSome := by simpa [hne] using hobj
    rcases h.missing ssid' hobj' hnone with ⟨a, tma, t', hw, hfa, haf, hr⟩ | ⟨u, tmu, hu, htu, hx⟩
    · exact Or.inl ⟨a, tma, t', ⟨by simpa [hkeep hw.1] using hw.1, hw.2⟩, hfa, haf, hr⟩
    · exact Or.inr ⟨u, tmu, by simpa [getTimer, hne] using hu, by simpa [hkeep htu] using htu, hx⟩

theorem extend : Reinserted (s.extend ssid t) := by
  obtain ⟨tm, ht, hfn⟩ := h.tables.tp_timer ssid t htp
  obtain ⟨ss, hss⟩ := Option.isSome_iff_exists.mp (isSome_of_getTimer htp)
  by_cases harmed : tm.statu = .armed
  · exact h.extend_armed hfound htp hss ht hfn harmed
  · exact h.extend_not_armed hfound htp hss ht harmed

end

theorem arm (h : Reinserted s) (hfound : s.session ssid = some ssid) (hsp : (s.object ssid).isSome)
    (htp : s.getTimer ssid = none) (ms : Int) : Reinserted (s.arm ssid ssid ms) := by
  have hok := h.tables.arm hsp htp ms
  have hnew := h.tables.timer_next
  obtain ⟨ss, hss⟩ := Option.isSome_iff_exists.mp hsp
  have hready := h.tables.ready_timer
  rw [arm_eq hss] at hok ⊢
  refine ⟨hok, ?_, ?_, ?_⟩
  · have := h.after_not_armed
    simp only [assign] at *
    grind
  · have := h.removal
    simp only [assign, Waits, getTimer] at *
    grind
  · have := h.missing
    simp only [assign, Gap, TpExpired, Waits, getTimer] at *
    grind

theorem callback (h : Reinserted s) (ht : s.timer t = some tm) (hready : t ∈ s.ready)
    (hafter : ∀ t', tm.after = some t' → t' ∉ s.ready) :
    Reinserted ({ s with ready := s.ready.erase t }.callback tm.fn) := by
  have hok := h.tables.of_ready t
  have hnd := h.tables.ready_nodup
  cases hfn : tm.fn with
  | removeSession ssid =>
    refine ⟨hfn ▸ hok.callback ht, h.after_not_armed, ?_, ?_⟩
    · have := h.removal
      simp only [SessionManager.callback, removeSession, Waits, getTimer] at *
      grind
    · have := h.missing
      have := h.removal t hready tm ssid ht hfn
      simp only [SessionManager.callback, removeSession, Dict.erase, Gap, TpExpired, Waits,
        getTimer] at *
      grind
  | appendSession sp =>
    have hsp := h.tables.append_object ht hfn
    have hins := h.tables.insert_self sp
    have hcb : { s with ready := s.ready.erase t }.callback (.appendSession sp) =
        { s with ready := s.ready.erase t, session := s.session.insert sp sp } :=
      hok.appendSession_eq hsp
    refine ⟨hfn ▸ hok.callback ht, ?_, ?_, ?_⟩
    · rw [hcb]
      exact h.after_not_armed
    · rw [hcb]
      have := h.removal
      simp only [Waits, getTimer] at *
      grind
    · rw [hcb]
      have := h.missing
      simp only [Dict.insert, Gap, TpExpired, Waits, getTimer] at *
      grind

theorem setSessionExpireTime (h : Reinserted s) (ssid : Nat) (ms : Int) :
    Reinserted (s.setSessionExpireTime ssid ms) :=
  h.tables.setSessionExpireTime_cases Reinserted h (fun _ hfound htp => h.extend hfound htp)
    fun _ _ _ hs' hsame hfound hobj htp => hs'.arm (hsame ▸ hfound) hobj htp ms

theorem step (h : Reinserted s) {l : SessionStep} {s' : SessionManager} (horder : s.inOrder l)
    (hs : runs.step s l s') : Reinserted s' := by
  cases l with
  | create uid statu => cases hs; exact h.createSession uid statu
  | set ssid ms =>
    cases hs
    have hset := h.setSessionExpireTime ssid ms
    exact { hset with tables := { hset.tables with } }
  | get ssid => cases hs; exact h
  | elapse ms => cases hs; exact { h with tables := { h.tables with } }
  | expire t =>
    obtain ⟨tm, ht, harmed, _, rfl⟩ := expire_step hs
    exact h.makeReady ht harmed
  | run t =>
    obtain ⟨tm, ht, hready, rfl⟩ := run_step hs
    refine h.callback ht hready fun t' hafter => ?_
    simpa [inOrder, ht, hafter] using horder

end Reinserted

theorem found_of_live {s : SessionManager} (h : Reinserted s) (hp : PolicyKept s)
    (hgap : s.inGap ssid = false) (hlive : s.live ssid = true) : s.session ssid = some ssid := by
  obtain ⟨hobj, hlapsed⟩ : (s.object ssid).isSome = true ∧ s.lapsed ssid = false := by
    simpa [live] using hlive
  cases hses : s.session ssid with
  | some sp => rw [(h.tables.found ssid sp hses).1]
  | none =>
    rcases h.missing ssid hobj hses with hg | hx
    · simp [(inGap_iff h.tables ssid).mpr hg] at hgap
    · simp [(lapsed_iff hp ssid).mpr hx] at hlapsed

def clearRuns : System SessionManager SessionStep :=
  runs.restrict fun s l => s.inOrder l = true ∧ s.clear l = true

theorem clearRuns_inv (s : SessionManager) (h : clearRuns.Reachable s) :
    Reinserted s ∧ PolicyKept s := by
  refine System.invariant (fun s => Reinserted s ∧ PolicyKept s) ?_ ?_ s h
  · rintro _ rfl
    exact ⟨Reinserted.new, fun _ => rfl⟩
  · rintro s l s' ⟨hre, hpol⟩ ⟨⟨horder, hclear⟩, hs⟩
    refine ⟨hre.step horder hs, ?_⟩
    cases l with
    | set ssid ms =>
      have hgap : s.inGap ssid = false := by simpa [clear] using hclear
      cases hs
      cases hses : s.session ssid with
      | some sp =>
        rw [(hre.tables.found ssid sp hses).1] at hses
        exact hpol.set hre.tables hses ms
      | none =>
        refine hpol.set_missing hses ?_ ms
        by_contra hlive
        rw [Bool.not_eq_false] at hlive
        simp [found_of_live hre hpol hgap hlive] at hses
    | _ => exact hpol.step hre.tables (by simp) hs

/-- **Lookups**: in a run in which no request meets the gap of its session, every
    request for a live session finds it. -/
theorem live_session_is_found {s s' : SessionManager} {l : SessionStep} {ssid : Nat}
    (h : clearRuns.Reachable s) (hs : clearRuns.step s l s')
    (hl : SessionStep.ssid? l = some ssid) (hlive : s.live ssid = true) :
    s.getSessionBySsid ssid = some ssid := by
  obtain ⟨hre, hpol⟩ := clearRuns_inv s h
  obtain ⟨⟨_, hclear⟩, _⟩ := hs
  refine found_of_live hre hpol ?_ hlive
  cases l <;> simp_all [SessionStep.ssid?, clear]

def extended : List SessionStep :=
  [.create 7 .login, .set 1 sessionTimeout, .set 1 sessionTimeout, .run 0, .expire 1, .run 1]

theorem live_session_is_found_extended :
    ∃ s : SessionManager, clearRuns.Steps new extended s ∧ s.live 1 = true ∧
      s.getSessionBySsid 1 = some 1 := by
  have hrun : clearRuns.Steps new extended _ := System.restrict_steps_of_run rfl
  exact ⟨_, hrun, rfl, live_session_is_found (l := .get 1) ⟨_, _, rfl, hrun⟩
    ⟨⟨rfl, rfl⟩, rfl⟩ rfl rfl⟩

/-- A request is handled between the removal and the insertion. -/
theorem live_session_missing :
    ∃ s : SessionManager, (runs.restrict fun s l => s.inOrder l = true).Steps new
        [.create 7 .login, .set 1 sessionTimeout, .set 1 sessionTimeout, .run 0] s ∧
      s.live 1 = true ∧ s.getSessionBySsid 1 = none :=
  ⟨_, System.restrict_steps_of_run rfl, rfl, rfl⟩

end SessionManager

end CallLesson.Gobang
