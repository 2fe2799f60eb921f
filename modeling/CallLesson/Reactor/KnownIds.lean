import CallLesson.Reactor.Server
import CallLesson.Reactor.Frames

/-! # Ids that have been given out

    Queues, timers and user code refer to constructed connections only, so
    nothing happens to a connection before `NewConnection` has given out its
    id. -/

namespace CallLesson.Reactor

open Exec

/-! ## The invariant -/

structure Known (n : Nat) (s : World) : Prop where
  connId : s.connId = n
  loops : ∀ l, (s.loops l).Mentions (· ≤ n)
  began : ∀ op c b, Event.began op c b ∈ s.trace → b.known = true

def knowing (n : Nat) : Guarantee World :=
  Guarantee.ofPreorder (fun s s' => Known n s → Known n s') (fun _ h => h)
    (fun h h' hs => h' (h hs))

section knowing

variable {n : Nat} {d : ConnId} {s s' : World} {self : LoopId} {user : UserCode → Code}

theorem knowing_of_eq (hconnId : s'.connId = s.connId) (hloops : s'.loops = s.loops)
    (htrace : s'.trace = s.trace) : (knowing n).ret s s' :=
  fun hs => ⟨hconnId.trans hs.connId, by rw [hloops]; exact hs.loops, by rw [htrace]; exact hs.began⟩

theorem wp_knowing_of_not {α : Type} (x : EStateM Fault World α) (hs : ¬ Known n s) :
    wp x (fun _ s' => (knowing n).ret s s') (fun s' => (knowing n).fault s s') s :=
  wp_mono (wp_trivial x s) (fun _ _ _ h => absurd h hs) (fun _ _ h => absurd h hs)

theorem knowing_quiet (hd : d ≤ n) (h : Quiet d s s') : (knowing n).ret s s' :=
  fun hs => ⟨h.connId.trans hs.connId, h.mentions _ hd hs.loops, by rw [h.trace]; exact hs.began⟩

theorem knowing_allowsQuiet (hd : d ≤ n) : AllowsQuiet (knowing n) d where
  ret := fun _ _ h => knowing_quiet hd h
  fault := fun _ _ h => knowing_quiet hd h

theorem knowing_log {e : Event} (he : ∀ op c b, e ≠ .began op c b) :
    (knowing n).ret s (s.log e) := by
  intro hs
  refine ⟨hs.connId, hs.loops, ?_⟩
  intro op c b hmem
  rcases List.mem_append.mp hmem with hmem | hmem
  · exact hs.began op c b hmem
  · exact absurd (List.mem_singleton.mp hmem).symm (he op c b)

theorem knowing_enter (hd : d ≤ n) (op : ReleaseOp) : (knowing n).ret s (s.enter op d) := by
  intro hs
  refine ⟨hs.connId, hs.loops, ?_⟩
  intro op' c b hmem
  rcases List.mem_append.mp hmem with hmem | hmem
  · exact hs.began op' c b hmem
  · have heq := List.mem_singleton.mp hmem
    cases heq
    exact decide_eq_true (hs.connId ▸ hd)

theorem knowing_pushTask (hd : d ≤ n) (l : LoopId) {f : Functor} (hf : f.conn = d) :
    (knowing n).ret s (s.pushTask l f) := by
  intro hs
  refine ⟨hs.connId, ?_, hs.began⟩
  intro l'
  by_cases hl : l' = l
  · subst hl
    have hm := hs.loops l'
    refine ⟨?_, ?_⟩
    · simp only [World.pushTask, World.setLoop, if_true, List.mem_append, List.mem_singleton]
      rintro g (hg | rfl)
      · exact hm.tasks g hg
      · exact hf ▸ hd
    · simpa [World.pushTask, World.setLoop] using hm.timers
  · simpa [World.pushTask, World.setLoop, hl] using hs.loops l'

theorem knowing_allowsOn (hd : d ≤ n) : AllowsOn (knowing n) d where
  log := by
    intro e he hne
    apply respects_modify
    intro s
    apply knowing_log
    rintro op c b rfl
    cases he
  statu := fun _ => respects_modify fun _ => knowing_of_eq rfl rfl rfl
  enter := fun op => respects_modify fun _ => knowing_enter hd op
  leave := respects_modify fun _ => knowing_of_eq rfl rfl rfl
  close := respects_modify fun _ => knowing_of_eq rfl rfl rfl

theorem knowing_removeConnection (hd : d ≤ n) : Respects (knowing n) (removeConnection self d) := by
  apply respects_ite
  · exact respects_modify fun _ => knowing_of_eq rfl rfl rfl
  · exact respects_modify fun _ => knowing_pushTask hd _ rfl

theorem knowing_sendInLoop (hd : d ≤ n) (buf : Buffer) (hbuf : Buffer.WellFormed buf) :
    Respects (knowing n) (sendInLoop d buf) := by
  intro s
  have hlog : (knowing n).ret s (s.log (.given d buf.unread)) := knowing_log fun _ _ _ => nofun
  refine wp_mono (sendInLoop_spec d hbuf s) ?_ ?_
  · rintro _ s' (⟨_, rfl⟩ | ⟨out, _, _, hquiet, _⟩)
    · exact hlog
    · have hpush : (knowing n).ret (s.log (.given d buf.unread))
          ((s.log (.given d buf.unread)).setConn d { s.conns d with outBuffer := out }) :=
        knowing_of_eq rfl rfl rfl
      exact (knowing n).trans ((knowing n).trans hlog hpush) (knowing_quiet hd hquiet)
  · rintro s' rfl
    exact hlog

/-! ## Code on a known connection -/

section user

variable (huser : ∀ uc, Respects (knowing n) (user uc))

include huser

theorem knowing_releaseInLoop (hd : d ≤ n) : Respects (knowing n) (releaseInLoop user self d) :=
  releaseInLoop_respects (knowing_allowsQuiet hd).small (knowing_allowsOn hd)
    (respects_modify fun _ => knowing_log fun _ _ _ => nofun) (knowing_removeConnection hd) huser

theorem knowing_shutdownInLoop (hd : d ≤ n) : Respects (knowing n) (shutdownInLoop user self d) :=
  shutdownInLoop_respects (knowing_allowsQuiet hd).small (knowing_allowsOn hd) huser
    (knowing_releaseInLoop huser hd)

end user

theorem knowing_callback (env : Env) (depth : Nat) (uc : UserCode) :
    Respects (knowing n) (callback env self depth uc) := by
  apply callback_respects_of_api
  · exact (knowing_allowsQuiet (Nat.zero_le n)).small.nextCall
  · intro user huser a s hknown
    by_cases hs : Known n s
    · -- the call is made on a connection that has been constructed
      have ha : a.conn ≤ n := hs.connId ▸ hknown
      exact api_respects (knowing_allowsQuiet ha).small (knowing_sendInLoop ha)
        (knowing_shutdownInLoop huser ha) s
    · exact wp_knowing_of_not _ hs

section steps

variable (huser : ∀ uc, Respects (knowing n) (user uc))

include huser

theorem knowing_handleRevents (hd : d ≤ n) (env : Env) (revents : Events) :
    Respects (knowing n) (handleRevents user self env d revents) := by
  have hq : AllowsQuiet (knowing n) d := knowing_allowsQuiet hd
  have ha : AllowsOn (knowing n) d := knowing_allowsOn hd
  have hrelease : Respects (knowing n) (releaseInLoop user self d) := knowing_releaseInLoop huser hd
  have hmove : ∀ len, Respects (knowing n) (moveSent d len) := by
    intro len
    apply respects_get_bind
    intro s
    split
    · exact (wp_set _ _ _ _).mpr (knowing_of_eq rfl rfl rfl)
    · exact (wp_throw _ _ _ _).mpr ((knowing n).fault_refl s)
  have hdisable : Respects (knowing n) (disableWrite d) :=
    respects_bind (respects_modify fun _ => knowing_of_eq rfl rfl rfl) fun _ => hq.small.updateEvent
  apply handleRevents_respects hq.small huser
  · exact handleRead_respects hq.small huser (knowing_shutdownInLoop huser hd)
  · intro env
    exact during_respects ha _
      (handleWriteBody_respects hq.small ha huser hrelease hmove hdisable env)
  · exact during_respects ha _ (handleCloseBody_respects huser hrelease)

theorem knowing_runFunctor {f : Functor} (hf : f.conn ≤ n) :
    Respects (knowing n) (runFunctor user self f) := by
  have hq := knowing_allowsQuiet hf
  cases f with
  | established d => exact establishedInLoop_respects hq.small (knowing_allowsOn hf) huser
  | send d data => exact sendFunctor_respects (knowing_sendInLoop hf) data
  | shutdown d => exact knowing_shutdownInLoop huser hf
  | enableInactiveRelease d sec => exact hq.small.enable sec
  | cancelInactiveRelease d => exact hq.small.cancelInLoop
  | removeConnection d => exact respects_modify fun _ => knowing_of_eq rfl rfl rfl

theorem knowing_onTime : Respects (knowing n) (onTime user self) := by
  apply onTime_respects (knowing_allowsQuiet (Nat.zero_le n))
  intro h task s htask
  by_cases hs : Known n s
  · unfold timerCallback
    split
    · next c hcb =>
      have hc : c ≤ n := (hs.loops self).timers task (List.mem_of_getElem? htask) c hcb
      exact during_respects (knowing_allowsOn hc) _ (knowing_releaseInLoop huser hc) s
    · exact huser _ s
  · exact wp_knowing_of_not _ hs

end steps

/-! ## Steps of the server -/

theorem knowing_thread (env : Env) (depth : Nat) (self : LoopId) (step : ThreadStep) :
    Respects (knowing n) (step.exec env depth self) := by
  have huser : ∀ uc, Respects (knowing n) (callback env self depth uc) :=
    knowing_callback env depth
  cases step with
  | event c revents =>
    apply respects_get_bind
    intro s
    rw [wp_whenever]
    refine ⟨fun hc => ?_, fun _ => (knowing n).refl s⟩
    -- the channel of a connection exists once `_conn_id` has reached its id
    by_cases hs : Known n s
    · have hcn : c ≤ n := hs.connId ▸ hc.1
      have hrun : Respects (knowing n)
          (channelHandleEvent (callback env self depth) self env c revents) :=
        respects_bind (respects_modify fun _ => knowing_log fun _ _ _ => nofun)
          fun _ => knowing_handleRevents huser hcn env revents
      exact hrun s
    · exact wp_knowing_of_not _ hs
  | task =>
    apply respects_get_bind
    intro s
    split
    · exact (wp_pure _ _ _ _).mpr ((knowing n).refl s)
    · next f rest htasks =>
      by_cases hs : Known n s
      · have hf : f.conn ≤ n := (hs.loops self).tasks f (htasks ▸ List.mem_cons_self)
        rw [wp_bind, wp_set]
        apply (knowing_runFunctor huser hf).after
        intro _
        refine ⟨hs.connId, fun l => ?_, hs.began⟩
        by_cases hl : l = self
        · subst hl
          have hm := hs.loops l
          rw [World.setLoop]
          simp only [if_true]
          exact ⟨fun g hg => hm.tasks g (htasks ▸ List.mem_cons_of_mem f hg), hm.timers⟩
        · simpa [World.setLoop, hl] using hs.loops l
      · exact wp_knowing_of_not _ hs
  | tick => exact knowing_onTime huser

theorem knowing_startConnection {cfg : Config} (huser : ∀ uc, Respects (knowing n) (user uc))
    (hd : d ≤ n) : Respects (knowing n) (startConnection cfg user self d) := by
  apply respects_bind
  · unfold enableTimeout
    split
    · next sec _ =>
      exact runInLoopOf_respects (f := .enableInactiveRelease d sec)
        (knowing_allowsQuiet hd).small rfl (knowing_runFunctor huser hd) d
    · exact respects_pure ()
  · intro _
    exact runInLoopOf_respects (f := .established d) (knowing_allowsQuiet hd).small rfl
      (knowing_runFunctor huser hd) d

theorem Known.next (hs : Known n s) (hconnId : s'.connId = n + 1) (hloops : s'.loops = s.loops)
    (htrace : s'.trace = s.trace) : Known (n + 1) s' where
  connId := hconnId
  loops := by
    intro l
    rw [hloops]
    have hm := hs.loops l
    exact ⟨fun f hf => Nat.le_succ_of_le (hm.tasks f hf),
      fun task ht c hc => Nat.le_succ_of_le (hm.timers task ht c hc)⟩
  began := htrace ▸ hs.began

theorem server_known {cfg : Config} (env : Env) (depth : Nat) (step : ServerStep)
    (hs : ∃ n, Known n s) :
    wp (step.exec cfg env depth) (fun _ s' => ∃ n, Known n s') (fun _ => True) s := by
  obtain ⟨n, hs⟩ := hs
  cases step with
  | thread self step =>
    exact wp_mono (knowing_thread env depth self step s) (fun _ _ h => ⟨n, h hs⟩)
      (fun _ _ => trivial)
  | accept fd meanwhile =>
    rw [ServerStep.exec, wp_bind]
    apply wp_mono (constructConnection_spec cfg fd s) _ (fun _ h => h.elim)
    rintro c s1 ⟨rfl, l, idx, hs1⟩
    have hknown : Known (n + 1) s1 := by
      apply hs.next _ (hs1 ▸ rfl) (hs1 ▸ rfl)
      rw [hs1, hs.connId]
    have hrest : Respects (knowing (n + 1)) (do
        startConnection cfg (callback env baseLoop depth) baseLoop (s.connId + 1)
        runAll (fun sub : Nat × ThreadStep => sub.2.exec env depth (sub.1 + 1)) meanwhile
        insertConnection (s.connId + 1) : Code) := by
      apply respects_bind
        (knowing_startConnection (knowing_callback env depth) (hs.connId ▸ Nat.le_refl _))
      intro _
      apply respects_bind
      · exact respects_runAll meanwhile fun sub _ => knowing_thread env depth (sub.1 + 1) sub.2
      · intro _
        exact respects_bind (respects_modify fun _ => knowing_of_eq rfl rfl rfl)
          fun _ => respects_modify fun _ => knowing_log fun _ _ _ => nofun
    exact wp_mono (hrest s1) (fun _ _ h => ⟨n + 1, h hknown⟩) (fun _ _ => trivial)

end knowing

end CallLesson.Reactor
