import CallLesson.Reactor.Server
import CallLesson.Reactor.Admitted

/-! # Events for released connections

    `EventLoop::Start` walks over a list of channel pointers that `Poll` made
    before any handler ran. A handler that releases a connection removes its
    channel from the poller, but not from that list: if the channel is still
    to come, `HandleEvent` is called on a released connection. -/

namespace CallLesson.Reactor

open Exec

/-! ## Statements -/

def ReleasedSincePoll (c : ConnId) (trace : List Event) : Prop :=
  ∃ pre post, trace = pre ++ Event.release c :: post ∧ Event.poll ∉ post

def NoStaleDispatch (trace : List Event) : Prop :=
  ∀ c pre post, trace = pre ++ Event.dispatch (.conn c) :: post → ¬ ReleasedSincePoll c pre

def notLater (_ : ConnId) (b : Before) : Bool := !b.later

/-! ## Traces -/

open List

section traces

variable {c : ConnId} {trace : List Event} {e : Event}

theorem releasedSincePoll_concat : ReleasedSincePoll c (trace ++ [e]) ↔
      e = .release c ∨ (e ≠ .poll ∧ ReleasedSincePoll c trace) := by
  constructor
  · rintro ⟨pre, post, heq, hpost⟩
    rcases eq_nil_or_concat post with rfl | ⟨post', e', rfl⟩
    · -- the release is the last event
      obtain ⟨_, hlast⟩ := append_inj' heq rfl
      exact Or.inl (cons.inj hlast).1
    · rw [concat_eq_append, ← cons_append, ← append_assoc] at heq
      obtain ⟨htrace, hlast⟩ := append_inj' heq rfl
      have he : e = e' := (cons.inj hlast).1
      rw [concat_eq_append, mem_append, not_or] at hpost
      refine Or.inr ⟨?_, pre, post', htrace, hpost.1⟩
      rintro rfl
      exact hpost.2 (he ▸ mem_singleton_self _)
  · rintro (rfl | ⟨hne, pre, post, htrace, hpost⟩)
    · exact ⟨trace, [], rfl, not_mem_nil⟩
    · refine ⟨pre, post ++ [e], by simp [htrace], ?_⟩
      rw [mem_append, not_or]
      exact ⟨hpost, fun hmem => hne (mem_singleton.mp hmem).symm⟩

theorem NoStaleDispatch.concat (h : NoStaleDispatch trace)
    (he : ∀ c, e = .dispatch (.conn c) → ¬ ReleasedSincePoll c trace) :
    NoStaleDispatch (trace ++ [e]) := by
  intro c pre post heq
  rcases eq_nil_or_concat post with rfl | ⟨post', e', rfl⟩
  · obtain ⟨htrace, hlast⟩ := append_inj' heq rfl
    rw [← htrace]
    exact he c (cons.inj hlast).1
  · rw [concat_eq_append, ← cons_append, ← append_assoc] at heq
    obtain ⟨htrace, _⟩ := append_inj' heq rfl
    exact h c pre post' htrace

end traces

/-! ## The invariant of the walk -/

structure WalkInv (s : World) : Prop where
  noStale : NoStaleDispatch s.trace
  fresh : ∀ c, Chan.conn c ∈ s.walk → ¬ ReleasedSincePoll c s.trace

def walking : Guarantee World :=
  Guarantee.ofPreorder (fun s s' => s'.walk = s.walk ∧ (WalkInv s → WalkInv s'))
    (fun _ => ⟨rfl, id⟩) (fun h h' => ⟨h'.1.trans h.1, fun hs => h'.2 (h.2 hs)⟩)

section walking

variable {s s' : World} {e : Event} {c d : ConnId}

theorem walking_of_eq (hwalk : s'.walk = s.walk) (htrace : s'.trace = s.trace) :
    walking.ret s s' := by
  refine ⟨hwalk, fun hs => ⟨?_, ?_⟩⟩
  · rw [htrace]
    exact hs.noStale
  · rw [hwalk, htrace]
    exact hs.fresh

theorem walking_log (hdispatch : ∀ c, e ≠ .dispatch (.conn c))
    (hrelease : ∀ c, Chan.conn c ∈ s.walk → e ≠ .release c) : walking.ret s (s.log e) := by
  refine ⟨rfl, fun hs => ⟨?_, ?_⟩⟩
  · apply hs.noStale.concat
    intro c heq
    exact absurd heq (hdispatch c)
  · intro c hc hreleased
    rcases releasedSincePoll_concat.mp hreleased with heq | ⟨_, hold⟩
    · exact hrelease c hc heq
    · exact hs.fresh c hc hold

theorem walking_removeConnection (self : LoopId) (d : ConnId) :
    Respects walking (removeConnection self d) := by
  apply respects_ite
  · exact respects_modify fun _ => walking_of_eq rfl rfl
  · exact respects_modify fun _ => walking_of_eq rfl rfl

theorem walking_logOwn (he : e.conn? = some d) (hne : e ≠ .release d) :
    walking.ret s (s.log e) := by
  apply walking_log
  · rintro c rfl
    cases he
  · rintro c _ rfl
    cases he
    exact hne rfl

theorem walking_code : AllowsCode walking where
  quiet := fun _ _ _ h => walking_of_eq h.walk h.trace
  log := fun _ _ _ he hne => walking_logOwn he hne
  began := fun _ _ _ _ => walking_log (fun _ => nofun) (fun _ _ => nofun)
  conn := fun _ _ _ _ => walking_of_eq rfl rfl
  busy := fun _ _ => walking_of_eq rfl rfl

theorem walking_rule (self : LoopId) :
    ReleaseRule (fun d b => notLater d b = true) walking (fun d s => Chan.conn d ∉ s.walk)
      self where
  code := walking_code
  safe_of_ok := by
    intro d s hok
    simpa [notLater, World.before] using hok
  safe_ret := by
    intro d s s' h hsafe
    rw [h.1]
    exact hsafe
  release := by
    intro user d s huser hs hsafe _
    apply walking_code.release_of_log _ (walking_removeConnection self d) huser hs
    apply walking_log (e := .release d) (fun _ => nofun)
    rintro c hc heq
    cases heq
    exact hsafe hc

end walking

/-! ## Turns -/

abbrev walkStep : Guarantee World := guardedStep (fun d b => notLater d b = true) walking

structure Calm (walk : List Chan) (s : World) : Prop where
  outs : Outs s
  inv : Admitted (fun d b => notLater d b = true) s.trace → s.walk = walk ∧ WalkInv s

def Stopped (s : World) : Prop :=
  Admitted (fun d b => notLater d b = true) s.trace → NoStaleDispatch s.trace

section turns

variable {cfg : Config} {user : UserCode → Code} {self : LoopId} {s : World} {walk : List Chan}

theorem Calm.stopped (h : Calm walk s) : Stopped s := fun ha => (h.inv ha).2.noStale

theorem calm_step {α : Type} {x : EStateM Fault World α} (hx : Respects walkStep x)
    (h : Calm walk s) : wp x (fun _ s' => Calm walk s') (fun s' => Stopped s') s := by
  refine wp_mono (hx s) ?_ ?_
  · intro _ s' hr
    refine ⟨hr.1.2 h.outs, fun ha => ?_⟩
    obtain ⟨hwalk, hinv⟩ := h.inv (ha.mono hr.1.1)
    obtain ⟨hwalk', hinv'⟩ := hr.2 h.outs (fun _ => trivial) ha
    exact ⟨hwalk'.trans hwalk, hinv' hinv⟩
  · intro s' hr ha
    obtain ⟨_, hinv⟩ := h.inv (ha.mono hr.1.1)
    exact ((hr.2 h.outs (fun _ => trivial) ha).2 hinv).noStale

theorem walkStep_modify {f : World → World} (htrace : ∀ s, (f s).trace = s.trace)
    (hwalk : ∀ s, (f s).walk = s.walk) (hconns : ∀ s, (f s).conns = s.conns) :
    Respects walkStep (modify f : Code) := by
  apply respects_assuming
  · apply outsStep_of_outs
    apply respects_modify
    intro s
    exact outs_of_eq (grows_of_eq (htrace s)) fun c => by rw [hconns]
  · exact respects_modify fun s => walking_of_eq (hwalk s) (htrace s)

theorem walkStep_log {e : Event} (hdispatch : ∀ c, e ≠ .dispatch (.conn c))
    (hrelease : ∀ c, e ≠ .release c) : Respects walkStep (logEvent e) :=
  respects_assuming (outsStep_of_outs (outs_logEvent e))
    (respects_modify fun _ => walking_log hdispatch fun c _ => hrelease c)

theorem walkStep_constructConnection (fd : Nat) :
    Respects walkStep (constructConnection cfg fd) := by
  intro s
  apply wp_mono (constructConnection_spec cfg fd s) _ (fun _ h => h.elim)
  rintro c s' ⟨_, l, idx, rfl⟩
  exact ⟨⟨prefix_rfl, fun hs => outs_newConn hs rfl⟩, fun _ _ _ => walking_of_eq rfl rfl⟩

variable (huser : ∀ uc, Respects (guarded (fun d b => notLater d b = true) walking) (user uc))

include huser

theorem walkStep_runFunctor (f : Functor) : Respects walkStep (runFunctor user self f) := by
  by_cases hf : f.removed = none
  · exact (walking_rule self).runFunctor_step huser hf
  · cases f with
    | removeConnection c => exact walkStep_modify (fun _ => rfl) (fun _ => rfl) (fun _ => rfl)
    | _ => exact absurd rfl hf

theorem walkStep_runInLoopOf {f : Functor} (hf : f.removed = none) (c : ConnId) :
    Respects walkStep (runInLoopOf user self c f) :=
  runInLoopOf_respects ((walking_rule self).step_allowsQuiet f.conn).small hf
    (walkStep_runFunctor huser f) c

theorem walkStep_newConnection (fd : Nat) : Respects walkStep (newConnection cfg user self fd) := by
  apply respects_bind (walkStep_constructConnection fd)
  intro c
  apply respects_bind
  · apply respects_bind
    · unfold enableTimeout
      split
      · exact walkStep_runInLoopOf huser rfl c
      · exact respects_pure ()
    · intro _
      exact walkStep_runInLoopOf huser rfl c
  · intro _
    apply respects_bind
    · exact walkStep_modify (fun _ => rfl) (fun _ => rfl) (fun _ => rfl)
    · intro _
      exact walkStep_log (fun _ => nofun) (fun _ => nofun)

theorem handleEvent_calm (env : Env) (ch : Chan) (revents : Events) (h : Calm (ch :: walk) s) :
    wp (ch.handleEvent cfg user self env revents) (fun _ s' => Calm walk s')
      (fun s' => Stopped s') { s with walk := walk } := by
  -- the channel leaves the walk before its handler is called
  have hpop : Calm walk { s with walk := walk } := by
    refine ⟨h.outs, fun ha => ⟨rfl, ?_⟩⟩
    obtain ⟨hwalk, hinv⟩ := h.inv ha
    refine ⟨hinv.noStale, fun c hc => hinv.fresh c ?_⟩
    rw [hwalk]
    exact mem_cons_of_mem ch hc
  cases ch with
  | conn c =>
    rw [Chan.handleEvent, channelHandleEvent, wp_bind, logEvent, wp_modify]
    have hlog : Calm walk (World.log { s with walk := walk } (.dispatch (.conn c))) := by
      refine ⟨h.outs, fun ha => ⟨rfl, ?_, ?_⟩⟩
      · obtain ⟨hwalk, hinv⟩ := h.inv (ha.mono (prefix_append _ _))
        -- the dispatch is not stale: the channel was still to come in the walk
        apply hinv.noStale.concat
        rintro c' heq
        cases heq
        apply hinv.fresh
        rw [hwalk]
        exact mem_cons_self
      · intro c' hc' hreleased
        obtain ⟨_, hinv⟩ := hpop.inv (ha.mono (prefix_append _ _))
        rcases releasedSincePoll_concat.mp hreleased with heq | ⟨_, hold⟩
        · cases heq
        · exact hinv.fresh c' hc' hold
    exact calm_step ((walking_rule self).handleRevents_step huser env revents) hlog
  -- the other channels belong to no connection
  | timer =>
    apply calm_step _ hpop
    apply respects_bind (walkStep_log (e := .dispatch .timer) (fun _ h => by cases h) (fun _ h => by cases h))
    intro _
    exact respects_whenever _ ((walking_rule self).onTime_step huser)
  | eventfd =>
    exact calm_step (walkStep_log (fun _ h => by cases h) (fun _ h => by cases h)) hpop
  | acceptor =>
    apply calm_step _ hpop
    apply respects_bind
      (walkStep_log (e := .dispatch .acceptor) (fun _ h => by cases h) (fun _ h => by cases h))
    intro _
    apply respects_whenever
    apply respects_bind (((walking_rule self).step_allowsQuiet 0).small.nextCall)
    intro n
    split
    · exact respects_pure ()
    · exact walkStep_newConnection huser _

theorem handleActive_calm (env : Env) (active : List (Chan × Events)) :
    ∀ s, Calm (active.map Prod.fst) s →
      wp (handleActive cfg user self env active) (fun _ s' => Calm [] s')
        (fun s' => Stopped s') s := by
  induction active with
  | nil =>
    intro s h
    rw [handleActive, wp_pure]
    exact h
  | cons a rest ih =>
    obtain ⟨ch, revents⟩ := a
    intro s h
    rw [handleActive, wp_bind, wp_modify, wp_bind]
    exact wp_mono (handleEvent_calm huser env ch revents h) (fun _ s' h' => ih s' h')
      (fun _ h' => h')

omit huser in
theorem poll_calm (ready : Ready) (h : Calm [] s) :
    wp (poll self ready) (fun active s' => Calm (active.map Prod.fst) s')
      (fun s' => Stopped s') s := by
  rw [poll, wp_bind, wp_get]
  split
  · rw [wp_throw]
    exact h.stopped
  · rw [wp_bind, wp_modify, wp_bind, logEvent, wp_modify, wp_pure]
    refine ⟨h.outs, fun ha => ⟨rfl, ?_, ?_⟩⟩
    · obtain ⟨_, hinv⟩ := h.inv (ha.mono (prefix_append _ _))
      exact hinv.noStale.concat fun _ heq => by cases heq
    · intro c _ hreleased
      rcases releasedSincePoll_concat.mp hreleased with heq | ⟨hne, _⟩
      · cases heq
      · exact hne rfl

theorem runAllTask_calm (h : Calm [] s) :
    wp (runAllTask user self) (fun _ s' => Calm [] s') (fun s' => Stopped s') s := by
  rw [runAllTask, wp_bind, wp_get, wp_bind, wp_set]
  have hrun : Respects walkStep (runAll (runFunctor user self) (s.loops self).tasks) :=
    respects_runAll _ fun f _ => walkStep_runFunctor huser f
  exact calm_step hrun ⟨h.outs, fun ha =>
    ⟨(h.inv ha).1, (h.inv ha).2.noStale, (h.inv ha).2.fresh⟩⟩

theorem turn_calm (env : Env) (ready : Ready) (h : Calm [] s) :
    wp (turn cfg user self env ready) (fun _ s' => Calm [] s') (fun s' => Stopped s') s := by
  rw [turn, wp_bind]
  apply wp_mono (poll_calm ready h) _ (fun _ h' => h')
  intro active s1 h1
  rw [wp_bind]
  apply wp_mono (handleActive_calm huser env active s1 h1) _ (fun _ h' => h')
  intro _ s2 h2
  exact runAllTask_calm huser h2

end turns

theorem initial_calm (cfg : Config) : Calm [] (World.initial cfg) where
  outs := fun _ => Buffer.fresh_wellFormed
  inv := by
    intro _
    refine ⟨rfl, ?_, fun c hc => by cases hc⟩
    intro c pre post heq
    exact absurd heq.symm (by simp [World.initial])

/-- **No event for a released connection.** In every run of a loop, for every
    list of active channels, every peer and every user program: if no
    operation that may release a connection begins while its channel is still
    to come in the walk, other than a `ShutdownInLoop` that finds output
    pending, then `HandleEvent` is never called on a channel that was released
    in the same walk. -/
theorem no_stale_dispatch_of_admitted (cfg : Config) (env : Env) (depth : Nat) (self : LoopId)
    (steps : List TurnStep)
    (ha : Admitted (fun d b => notLater d b = true) (afterTurns cfg env depth self steps).trace) :
    NoStaleDispatch (afterTurns cfg env depth self steps).trace := by
  have hrun : wp (runAll (TurnStep.exec cfg env depth self) steps) (fun _ s' => Calm [] s')
      (fun s' => Stopped s') (World.initial cfg) := by
    apply wp_runAll _ steps _ (initial_calm cfg)
    intro step s h
    cases step with
    | turn ready =>
      have huser := (walking_rule self).callback_guarded env depth
      exact turn_calm huser env ready h
    | queue f =>
      exact calm_step (walkStep_modify (fun _ => rfl) (fun _ => rfl) (fun _ => rfl)) h
  have hstop : Stopped (afterTurns cfg env depth self steps) :=
    stateAfter_of_wp (wp_imp hrun (fun _ _ h => h.stopped))
  exact hstop ha

def idleAndActive (evs : Ready) : List TurnStep :=
  [.queue (.established 1), .queue (.enableInactiveRelease 1 1),
    .turn ⟨[], by decide, by decide⟩, .turn evs]

/-- With the connection first, its own handler releases it, and the timer task
    has been cancelled when the timer comes. -/
theorem no_stale_dispatch_conn_first : Admitted (fun d b => notLater d b = true)
      (afterTurns .single .reset 1 baseLoop
        (idleAndActive ⟨[(7, EPOLLIN), (4, EPOLLIN)], by decide, by decide⟩)).trace ∧
    NoStaleDispatch (afterTurns .single .reset 1 baseLoop
      (idleAndActive ⟨[(7, EPOLLIN), (4, EPOLLIN)], by decide, by decide⟩)).trace := by
  have ha : Admitted (fun d b => notLater d b = true)
      (afterTurns .single .reset 1 baseLoop
        (idleAndActive ⟨[(7, EPOLLIN), (4, EPOLLIN)], by decide, by decide⟩)).trace := by
    decide +kernel
  exact ⟨ha, no_stale_dispatch_of_admitted _ _ _ _ _ ha⟩

/-- With the timer first, the idle timeout releases the connection, and then
    `HandleEvent` is called on its channel. -/
theorem stale_dispatch : ¬ NoStaleDispatch (afterTurns .single .reset 1 baseLoop
      (idleAndActive ⟨[(4, EPOLLIN), (7, EPOLLIN)], by decide, by decide⟩)).trace := by
  intro h
  generalize htrace : (afterTurns .single .reset 1 baseLoop
    (idleAndActive ⟨[(4, EPOLLIN), (7, EPOLLIN)], by decide, by decide⟩)).trace = trace at h
  have hsplit : trace = trace.take 9 ++ .dispatch (.conn 1) :: trace.drop 10 := by
    subst htrace
    decide +kernel
  have hreleased : trace.take 9 = trace.take 5 ++ .release 1 :: (trace.drop 6).take 3 ∧
      Event.poll ∉ (trace.drop 6).take 3 := by
    subst htrace
    decide +kernel
  exact h 1 _ _ hsplit ⟨_, _, hreleased⟩

end CallLesson.Reactor
