import CallLesson.Reactor.Connection

/-! # What connection code leaves alone

    Most of the code of a connection touches neither the status, nor the
    output, nor the marks of operations in progress. The lemmas below say so
    of one function after the other, up to user code as a whole. -/

namespace CallLesson.Reactor

open Exec

/-! ## Quiet code -/

variable {c d : ConnId}

namespace World

@[simp] theorem setConn_conns_self (s : World) (c : ConnId) (k : Conn) :
    (s.setConn c k).conns c = k := by
  simp [setConn]

@[simp] theorem setConn_conns_ne (s : World) (k : Conn) (h : d ≠ c) :
    (s.setConn c k).conns d = s.conns d := by
  simp [setConn, h]

end World

/-- What quiet code keeps of a connection. -/
structure ConnQuiet (k k' : Conn) : Prop where
  statu : k'.statu = k.statu
  loop : k'.loop = k.loop
  fd : k'.fd = k.fd
  out : k'.outBuffer = k.outBuffer
  socket : k'.socketOpen = k.socketOpen
  serverClosed : k'.callbacks.serverClosed = k.callbacks.serverClosed
  writeAble : writeAble k = true → writeAble k' = true

theorem ConnQuiet.refl (k : Conn) : ConnQuiet k k := ⟨rfl, rfl, rfl, rfl, rfl, rfl, id⟩

theorem ConnQuiet.trans {k k' k'' : Conn} (h : ConnQuiet k k') (h' : ConnQuiet k' k'') :
    ConnQuiet k k'' where
  statu := h'.statu.trans h.statu
  loop := h'.loop.trans h.loop
  fd := h'.fd.trans h.fd
  out := h'.out.trans h.out
  socket := h'.socket.trans h.socket
  serverClosed := h'.serverClosed.trans h.serverClosed
  writeAble := fun hw => h'.writeAble (h.writeAble hw)

/-- A loop refers only to connections in `P`. -/
structure Loop.Mentions (P : ConnId → Prop) (lp : Loop) : Prop where
  tasks : ∀ f ∈ lp.tasks, P f.conn
  timers : ∀ task ∈ lp.wheel.tasks, ∀ c, task.taskCb = .release c → P c

/-- What quiet code on the connection `d` keeps. -/
structure Quiet (d : ConnId) (s s' : World) : Prop where
  conns : ∀ c, ConnQuiet (s.conns c) (s'.conns c)
  busy : s'.busy = s.busy
  walk : s'.walk = s.walk
  creating : s'.creating = s.creating
  connId : s'.connId = s.connId
  table : s'.table = s.table
  removals : ∀ l, s'.removals l = s.removals l
  trace : s'.trace = s.trace
  mentions : ∀ P : ConnId → Prop, P d → (∀ l, (s.loops l).Mentions P) → ∀ l, (s'.loops l).Mentions P

theorem Quiet.refl (d : ConnId) (s : World) : Quiet d s s :=
  ⟨fun _ => ConnQuiet.refl _, rfl, rfl, rfl, rfl, rfl, fun _ => rfl, rfl, fun _ _ h => h⟩

theorem Quiet.trans {s s' s'' : World} (h : Quiet d s s') (h' : Quiet d s' s'') :
    Quiet d s s'' where
  conns := fun c => (h.conns c).trans (h'.conns c)
  busy := h'.busy.trans h.busy
  walk := h'.walk.trans h.walk
  creating := h'.creating.trans h.creating
  connId := h'.connId.trans h.connId
  table := h'.table.trans h.table
  removals := fun l => (h'.removals l).trans (h.removals l)
  trace := h'.trace.trans h.trace
  mentions := fun P hd hm => h'.mentions P hd (h.mentions P hd hm)

/-- `Quiet` as a guarantee of code. -/
def quiet (d : ConnId) : Guarantee World :=
  Guarantee.ofPreorder (Quiet d) (Quiet.refl d) Quiet.trans

section quiet

variable {d : ConnId}

theorem Quiet.setLoop (s : World) (l : LoopId) {lp : Loop}
    (hremoved : lp.tasks.filterMap Functor.removed = (s.loops l).tasks.filterMap Functor.removed)
    (hmentions : ∀ P : ConnId → Prop, P d → (s.loops l).Mentions P → lp.Mentions P) :
    Quiet d s (s.setLoop l lp) := by
  refine ⟨fun _ => ConnQuiet.refl _, rfl, rfl, rfl, rfl, rfl, ?_, rfl, ?_⟩
  · intro l'
    by_cases hl : l' = l
    · simp [World.removals, World.setLoop, hl, hremoved]
    · simp [World.removals, World.setLoop, hl]
  · intro P hd hm l'
    by_cases hl : l' = l
    · simpa [World.setLoop, hl] using hmentions P hd (hm l)
    · simpa [World.setLoop, hl] using hm l'

theorem Quiet.setWheel (s : World) (l : LoopId) {w : TimerWheel TimerCb}
    (h : ∀ task ∈ w.tasks, (∃ task0 ∈ (s.loops l).wheel.tasks, task.taskCb = task0.taskCb) ∨
      task.taskCb = .release d) : Quiet d s ((wheelHost l).setWheel w s) := by
  apply Quiet.setLoop
  · rfl
  · intro P hd hm
    refine ⟨hm.tasks, fun task htask c hc => ?_⟩
    rcases h task htask with ⟨task0, htask0, hcb⟩ | hcb
    · exact hm.timers task0 htask0 c (hcb ▸ hc)
    · rw [hcb] at hc
      cases hc
      exact hd

theorem Quiet.setChannel (s : World) (l : LoopId) (fd : Nat) (ch : Option Chan) :
    Quiet d s (s.setChannel l fd ch) :=
  Quiet.setLoop _ _ rfl fun _ _ h => ⟨h.tasks, h.timers⟩

theorem Quiet.setConn {s : World} {k : Conn} (h : ConnQuiet (s.conns c) k) :
    Quiet d s (s.setConn c k) := by
  refine ⟨?_, rfl, rfl, rfl, rfl, rfl, fun _ => rfl, rfl, fun _ _ hm => hm⟩
  intro c'
  by_cases hc : c' = c
  · subst hc
    rw [World.setConn_conns_self]
    exact h
  · rw [World.setConn_conns_ne s k hc]
    exact ConnQuiet.refl _

theorem quiet_modifyConn {f : Conn → Conn} (h : ∀ k, ConnQuiet k (f k)) :
    Respects (quiet d) (modifyConn c f) :=
  respects_modify fun s => Quiet.setConn (h (s.conns c))

theorem quiet_tryConn {f : Conn → Except Fault Conn} (h : ∀ k k', f k = .ok k' → ConnQuiet k k') :
    Respects (quiet d) (tryConn c f) := by
  apply respects_get_bind
  intro s
  cases hf : f (s.conns c) with
  | ok k => exact (wp_set _ _ _ _).mpr (Quiet.setConn (h _ _ hf))
  | error fault => exact (wp_throw _ _ _ _).mpr (Quiet.refl d s)

theorem quiet_updateEvent (c : ConnId) : Respects (quiet d) (updateEvent c) := by
  apply respects_modify
  intro s
  show Quiet d s (if _ then _ else _)
  split
  · exact Quiet.setChannel _ _ _ _
  · exact Quiet.refl d s

theorem quiet_removeEvent (c : ConnId) : Respects (quiet d) (removeEvent c) :=
  respects_modify fun _ => Quiet.setChannel _ _ _ _

theorem quiet_pushTask (l : LoopId) {f : Functor} (hf : f.removed = none) :
    Respects (quiet f.conn) (modify (·.pushTask l f) : Code) := by
  apply respects_modify
  intro s
  apply Quiet.setLoop
  · simp [hf]
  · intro P hd hm
    refine ⟨?_, hm.timers⟩
    intro g hg
    rcases List.mem_append.mp hg with hg | hg
    · exact hm.tasks g hg
    · rw [List.mem_singleton.mp hg]
      exact hd

theorem has_or {mask bit : Events} (other : Events) (h : has mask bit = true) :
    has (mask ||| other) bit = true := by
  rw [has, bne_iff_ne] at *
  rw [BitVec.and_or_distrib_right]
  intro hzero
  exact h (BitVec.or_eq_zero_iff.mp hzero).1

theorem wp_nextCall (Q : Nat → World → Prop) (E : World → Prop) (s : World) :
    wp nextCall Q E s ↔ Q s.calls { s with calls := s.calls + 1 } :=
  wp_modifyGet _ _ _ _

theorem quiet_nextCall : Respects (quiet d) nextCall := by
  intro s
  rw [wp_nextCall]
  exact ⟨fun _ => ConnQuiet.refl _, rfl, rfl, rfl, rfl, rfl, fun _ => rfl, rfl, fun _ _ hm => hm⟩

/-! ### Timers -/

theorem quiet_timerRefresh (c : ConnId) : Respects (quiet d) (timerRefresh c) := by
  apply respects_bind respects_get
  intro s0
  apply respects_get_bind
  intro s
  split
  · next w hw =>
    rw [wp_set]
    apply Quiet.setWheel
    intro task htask
    rw [TimerWheel.timerRefreshInLoop_tasks hw] at htask
    exact Or.inl ⟨task, htask, rfl⟩
  · exact (wp_throw _ _ _ _).mpr (Quiet.refl d s)

theorem quiet_timerCancel (c : ConnId) : Respects (quiet d) (timerCancel c) := by
  apply respects_modify
  intro s
  apply Quiet.setWheel
  intro task htask
  exact Or.inl (TimerWheel.mem_timerCancelInLoop htask)

theorem quiet_timerAdd (c : ConnId) (sec : Nat) : Respects (quiet c) (timerAdd c sec) := by
  apply respects_modify
  intro s
  apply Quiet.setWheel
  intro task htask
  rcases List.mem_append.mp htask with htask | htask
  · exact Or.inl ⟨task, htask, rfl⟩
  · rw [List.mem_singleton.mp htask]
    exact Or.inr rfl

end quiet

/-! ## Sending -/

theorem has_or_self {mask bit : Events} (h : bit ≠ 0) : has (mask ||| bit) bit = true := by
  rw [has, bne_iff_ne, BitVec.and_or_distrib_right, BitVec.and_self]
  intro hzero
  exact h (BitVec.or_eq_zero_iff.mp hzero).2

theorem enableWrite_spec (c : ConnId) (s : World) :
    wp (enableWrite c) (fun _ s' => Quiet c s s' ∧ writeAble (s'.conns c) = true)
      (fun _ => False) s := by
  have hquiet := Quiet.setConn (d := c) (s := s) (c := c)
    (k := { s.conns c with events := (s.conns c).events ||| EPOLLOUT })
    ⟨rfl, rfl, rfl, rfl, rfl, rfl, has_or _⟩
  have hable : writeAble ((s.setConn c
      { s.conns c with events := (s.conns c).events ||| EPOLLOUT }).conns c) = true := by
    rw [World.setConn_conns_self]
    exact has_or_self (by decide)
  rw [enableWrite, wp_bind, modifyConn, wp_modify, updateEvent, wp_modify]
  show Quiet c s (if _ then _ else _) ∧ writeAble (World.conns (if _ then _ else _) c) = true
  split
  · exact ⟨hquiet.trans (Quiet.setChannel _ _ _ _), hable⟩
  · exact ⟨hquiet, hable⟩

theorem sendInLoop_spec (c : ConnId) {buf : Buffer} (hbuf : Buffer.WellFormed buf) (s : World) :
    wp (sendInLoop c buf)
      (fun _ s' =>
        ((s.conns c).statu = .disconnected ∧ s' = s.log (.given c buf.unread)) ∨
        ∃ out, (s.conns c).statu ≠ .disconnected ∧
          (s.conns c).outBuffer.writeStringAndPop buf.unread = .ok out ∧
          Quiet c ((s.log (.given c buf.unread)).setConn c { s.conns c with outBuffer := out }) s' ∧
          writeAble (s'.conns c) = true)
      (fun s' => s' = s.log (.given c buf.unread)) s := by
  rw [sendInLoop, wp_bind, logEvent, wp_modify, wp_bind, wp_get, wp_ite]
  refine ⟨fun hstatu => ?_, fun hstatu => ?_⟩
  · rw [wp_pure]
    exact Or.inl ⟨hstatu, rfl⟩
  · rw [wp_bind, tryConn, wp_bind, wp_get]
    simp only [Buffer.writeBufferAndPush_eq _ hbuf]
    have hconns : ((s.log (.given c buf.unread)).conns c) = s.conns c := rfl
    rw [hconns] at hstatu ⊢
    -- the push may fail where the sizes wrap; then only the event has been logged
    cases hpush : (s.conns c).outBuffer.writeStringAndPop buf.unread with
    | error fault => exact (wp_throw _ _ _ _).mpr rfl
    | ok out =>
      show wp (set _) _ _ _
      rw [wp_set, wp_bind, wp_get, wp_whenever]
      -- either EPOLLOUT is asked for now, or it has been before
      refine ⟨fun _ => ?_, fun hable => ?_⟩
      · refine wp_mono (enableWrite_spec c _) ?_ (fun _ h => h.elim)
        intro _ s' hs'
        exact Or.inr ⟨out, hstatu, rfl, hs'⟩
      · exact Or.inr ⟨out, hstatu, rfl, Quiet.refl c _, by simpa using hable⟩

theorem sendBuffer_ok {data : Bytes} {buf : Buffer} (h : sendBuffer data = .ok buf) :
    Buffer.WellFormed buf ∧ buf.unread = data := by
  rw [sendBuffer, Buffer.writeAndPush_eq] at h
  obtain ⟨hwf, hun⟩ := Buffer.writeStringAndPop_ok Buffer.fresh_wellFormed h
  exact ⟨hwf, by rw [hun, Buffer.fresh_unread, List.nil_append]⟩

/-! ## User code

    A callback makes a list of calls, and the calls that matter are `Send`
    and `Shutdown`. So a guarantee that holds of quiet code, of `SendInLoop`
    and of `ShutdownInLoop` around any user code that keeps it, holds of user
    code of every depth. -/

section user

variable {G : Guarantee World} {self : LoopId} {user : UserCode → Code}

/-- `G` allows whatever quiet code on `d` does. -/
structure AllowsQuiet (G : Guarantee World) (d : ConnId) : Prop where
  ret : ∀ s s', Quiet d s s' → G.ret s s'
  fault : ∀ s s', Quiet d s s' → G.fault s s'

theorem AllowsQuiet.respects {α : Type} (h : AllowsQuiet G d) {x : EStateM Fault World α}
    (hx : Respects (quiet d) x) : Respects G x :=
  hx.weaken h.ret h.fault

/-- `G` allows the small operations the code on `d` is made of. -/
structure AllowsSmall (G : Guarantee World) (d : ConnId) : Prop where
  nextCall : Respects G nextCall
  modifyConn : ∀ f : Conn → Conn, (∀ k, ConnQuiet k (f k)) → Respects G (modifyConn d f)
  tryConn : ∀ f, (∀ k k', f k = .ok k' → ConnQuiet k k') → Respects G (tryConn d f)
  updateEvent : Respects G (updateEvent d)
  removeEvent : Respects G (removeEvent d)
  pushTask : ∀ l f, f.conn = d → f.removed = none → Respects G (modify (·.pushTask l f) : Code)
  timerRefresh : Respects G (timerRefresh d)
  timerCancel : Respects G (timerCancel d)
  timerAdd : ∀ sec, Respects G (timerAdd d sec)

theorem AllowsQuiet.small (h : AllowsQuiet G d) : AllowsSmall G d where
  nextCall := h.respects quiet_nextCall
  modifyConn := fun _ hf => h.respects (quiet_modifyConn hf)
  tryConn := fun _ hf => h.respects (quiet_tryConn hf)
  updateEvent := h.respects (quiet_updateEvent d)
  removeEvent := h.respects (quiet_removeEvent d)
  pushTask := by
    intro l f hconn hremoved
    subst hconn
    exact h.respects (quiet_pushTask l hremoved)
  timerRefresh := h.respects (quiet_timerRefresh d)
  timerCancel := h.respects (quiet_timerCancel d)
  timerAdd := fun sec => h.respects (quiet_timerAdd d sec)

section small

variable {d : ConnId} (h : AllowsSmall G d)

include h

theorem AllowsSmall.enableRead : Respects G (enableRead d) := by
  apply respects_bind
  · exact h.modifyConn _ fun _ => ⟨rfl, rfl, rfl, rfl, rfl, rfl, has_or _⟩
  · intro _
    exact h.updateEvent

theorem AllowsSmall.enableWrite : Respects G (enableWrite d) := by
  apply respects_bind
  · exact h.modifyConn _ fun _ => ⟨rfl, rfl, rfl, rfl, rfl, rfl, has_or _⟩
  · intro _
    exact h.updateEvent

theorem AllowsSmall.nonBlockRecv (env : Env) : Respects G (nonBlockRecv env d) := by
  apply respects_bind h.nextCall
  intro n
  apply respects_bind respects_get
  intro s
  exact respects_pure _

theorem AllowsSmall.enable (sec : Nat) : Respects G (enableInactiveReleaseInLoop d sec) := by
  apply respects_bind
  · exact h.modifyConn _ fun _ => ⟨rfl, rfl, rfl, rfl, rfl, rfl, id⟩
  · intro _
    apply respects_bind respects_get
    intro s
    exact respects_ite _ h.timerRefresh (h.timerAdd sec)

theorem AllowsSmall.cancelInLoop : Respects G (cancelInactiveReleaseInLoop d) := by
  apply respects_bind
  · exact h.modifyConn _ fun _ => ⟨rfl, rfl, rfl, rfl, rfl, rfl, id⟩
  · intro _
    apply respects_bind respects_get
    intro s
    exact respects_whenever _ h.timerCancel

theorem AllowsSmall.cancel (self : LoopId) : Respects G (cancelInactiveRelease self d) := by
  apply respects_bind respects_get
  intro s
  exact respects_ite _ h.cancelInLoop (h.pushTask _ (.cancelInactiveRelease d) rfl rfl)

theorem AllowsSmall.upgrade (self : LoopId) (connected message closed event : Bool) :
    Respects G (upgrade self d connected message closed event) := by
  apply respects_bind respects_get
  intro s
  apply respects_bind
  · exact respects_whenever _ (respects_throw _)
  · intro _
    exact h.modifyConn _ fun _ => ⟨rfl, rfl, rfl, rfl, rfl, rfl, id⟩

theorem AllowsSmall.setInBuffer (f : Buffer → Except Fault Buffer) :
    Respects G (Reactor.tryConn d fun k => do
      let buf ← f k.inBuffer
      return { k with inBuffer := buf }) := by
  apply h.tryConn
  intro k k' hk
  cases hf : f k.inBuffer with
  | error fault => rw [hf] at hk; cases hk
  | ok buf =>
    rw [hf] at hk
    cases hk
    exact ⟨rfl, rfl, rfl, rfl, rfl, rfl, id⟩

end small

theorem sendFunctor_respects (hsend : ∀ buf, Buffer.WellFormed buf → Respects G (sendInLoop c buf))
    (data : Bytes) : Respects G (runFunctor user self (.send c data)) := by
  unfold runFunctor
  dsimp only
  cases hbuf : sendBuffer data with
  | ok buf => exact hsend buf (sendBuffer_ok hbuf).1
  | error fault => exact respects_throw fault

theorem runInLoopOf_respects {f : Functor} (hq : AllowsSmall G f.conn)
    (hremoved : f.removed = none) (hf : Respects G (runFunctor user self f)) (c : ConnId) :
    Respects G (runInLoopOf user self c f) := by
  apply respects_bind respects_get
  intro s
  exact respects_ite _ hf (hq.pushTask _ f rfl hremoved)

theorem api_respects {a : Api} (hq : AllowsSmall G a.conn)
    (hsend : ∀ buf, Buffer.WellFormed buf → Respects G (sendInLoop a.conn buf))
    (hshutdown : Respects G (shutdownInLoop user self a.conn)) : Respects G (api user self a) := by
  cases a with
  | pop c len =>
    rw [api]
    apply hq.tryConn
    intro k k' hk
    cases hread : k.inBuffer.readStringAndPop len with
    | error fault => rw [hread] at hk; cases hk
    | ok r =>
      rw [hread] at hk
      cases hk
      exact ⟨rfl, rfl, rfl, rfl, rfl, rfl, id⟩
  | clear c =>
    rw [api]
    exact hq.modifyConn _ fun _ => ⟨rfl, rfl, rfl, rfl, rfl, rfl, id⟩
  -- the calls that run in the loop of the connection, at once or as a functor
  | send c data => exact runInLoopOf_respects hq rfl (sendFunctor_respects hsend data) c
  | shutdown c => exact runInLoopOf_respects hq rfl hshutdown c
  | enableInactiveRelease c sec =>
    exact runInLoopOf_respects (f := .enableInactiveRelease c sec) hq rfl (hq.enable sec) c
  | cancelInactiveRelease c =>
    exact runInLoopOf_respects (f := .cancelInactiveRelease c) hq rfl hq.cancelInLoop c
  | upgrade c connected message closed event =>
    exact hq.upgrade self connected message closed event

theorem callback_respects_of_api (env : Env) (hnext : Respects G nextCall)
    (hapi : ∀ user : UserCode → Code, (∀ uc, Respects G (user uc)) →
      ∀ (a : Api) (s : World), a.conn ≤ s.connId →
        wp (api user self a) (fun _ s' => G.ret s s') (fun s' => G.fault s s') s) :
    ∀ (depth : Nat) (uc : UserCode), Respects G (callback env self depth uc) := by
  intro depth
  induction depth with
  | zero => intro uc; exact respects_throw _
  -- the callback makes its calls one after the other; each may enter callbacks one level down
  | succ depth ih =>
    intro uc
    rw [callback]
    apply respects_bind hnext
    intro n
    apply respects_runAll
    intro a _
    apply respects_get_bind
    intro s
    rw [wp_whenever]
    exact ⟨fun hknown => hapi _ ih a s hknown, fun _ => G.refl s⟩

theorem callback_respects (env : Env) (hq : ∀ c, AllowsSmall G c)
    (hsend : ∀ c buf, Buffer.WellFormed buf → Respects G (sendInLoop c buf))
    (hshutdown : ∀ (user : UserCode → Code) c, (∀ uc, Respects G (user uc)) →
      Respects G (shutdownInLoop user self c)) (depth : Nat) (uc : UserCode) :
    Respects G (callback env self depth uc) := by
  apply callback_respects_of_api env (hq 0).nextCall
  intro user huser a s _
  exact api_respects (hq a.conn) (hsend a.conn) (hshutdown user a.conn huser) s

end user

/-! ## Code on one connection

    The same for the code that is not quiet: a guarantee that allows the marks
    and the events of a connection is kept by everything done on it, as long
    as the user code it calls and the release keep it. -/

/-- `G` allows the marks and events of the connection `d`. -/
structure AllowsOn (G : Guarantee World) (d : ConnId) : Prop where
  log : ∀ e : Event, e.conn? = some d → e ≠ .release d → Respects G (logEvent e)
  statu : ∀ st, Respects G (modifyConn d fun k => { k with statu := st })
  enter : ∀ op, Respects G (modify (·.enter op d) : Code)
  leave : Respects G (modify (·.leave d) : Code)
  close : Respects G (socketClose d)

section onConnection

variable {G : Guarantee World} {self : LoopId} {user : UserCode → Code} {d : ConnId}

theorem setStatu_respects (ha : AllowsOn G d) (st : ConnStatu) : Respects G (setStatu d st) := by
  apply respects_bind (ha.statu st)
  intro _
  exact ha.log _ rfl nofun

theorem during_respects (ha : AllowsOn G d) (op : ReleaseOp) {body : Code}
    (hbody : Respects G body) : Respects G (during op d body) := by
  apply respects_bind (ha.enter op)
  intro _
  apply respects_bind hbody
  intro _
  exact ha.leave

section

variable (hq : AllowsSmall G d) (ha : AllowsOn G d)

include hq ha

theorem closeConnection_respects (huser : ∀ uc, Respects G (user uc)) :
    Respects G (closeConnection user self d) := by
  apply respects_bind (setStatu_respects ha _)
  intro _
  apply respects_bind hq.removeEvent
  intro _
  apply respects_bind ha.close
  intro _
  apply respects_bind respects_get
  intro s
  apply respects_bind (respects_whenever _ (hq.cancel self))
  intro _
  apply respects_bind respects_get
  intro s
  apply respects_whenever
  exact respects_bind (ha.log _ rfl nofun) fun _ => huser _

theorem releaseBody_respects (hremove : Respects G (removeConnection self d))
    (huser : ∀ uc, Respects G (user uc)) : Respects G (releaseBody user self d) := by
  apply respects_bind (closeConnection_respects hq ha huser)
  intro _
  apply respects_bind respects_get
  intro s
  apply respects_whenever
  exact respects_bind (ha.log _ rfl nofun) fun _ => hremove

theorem releaseInLoop_respects (hlog : Respects G (logEvent (.release d)))
    (hremove : Respects G (removeConnection self d)) (huser : ∀ uc, Respects G (user uc)) :
    Respects G (releaseInLoop user self d) := by
  apply respects_bind hlog
  intro _
  exact releaseBody_respects hq ha hremove huser

theorem shutdownBody_respects (huser : ∀ uc, Respects G (user uc))
    (hrelease : ∀ s, s.outPending d = false →
      wp (releaseInLoop user self d) (fun _ s' => G.ret s s') (fun s' => G.fault s s') s) :
    Respects G (shutdownBody user self d) := by
  apply respects_bind (setStatu_respects ha _)
  intro _
  apply respects_bind respects_get
  intro s
  apply respects_bind (respects_whenever _ (huser _))
  intro _
  apply respects_bind respects_get
  intro s
  apply respects_bind (respects_whenever _ hq.enableWrite)
  intro _
  apply respects_get_bind
  intro s
  rw [wp_whenever]
  -- the release is made only with an empty output buffer
  exact ⟨hrelease s, fun _ => G.refl s⟩

theorem shutdownInLoop_respects (huser : ∀ uc, Respects G (user uc))
    (hrelease : Respects G (releaseInLoop user self d)) : Respects G (shutdownInLoop user self d) :=
  during_respects ha _ (shutdownBody_respects hq ha huser fun s _ => hrelease s)

end

theorem messageCallback_respects (huser : ∀ uc, Respects G (user uc)) :
    Respects G (messageCallback user d) := by
  apply respects_bind respects_get
  intro s
  exact respects_ite _ (huser _) (respects_throw _)

theorem handleRead_respects (hq : AllowsSmall G d) (huser : ∀ uc, Respects G (user uc))
    (hshutdown : Respects G (shutdownInLoop user self d)) (env : Env) :
    Respects G (handleRead user self env d) := by
  apply respects_bind (hq.nonBlockRecv env)
  intro ret
  cases ret with
  | none => exact hshutdown
  | some data =>
    dsimp only
    apply respects_bind (hq.setInBuffer fun buf => buf.writeAndPush data)
    intro _
    apply respects_bind respects_get
    intro s
    exact respects_whenever _ (messageCallback_respects huser)

theorem handleEvent_respects (hq : AllowsSmall G d) (huser : ∀ uc, Respects G (user uc)) :
    Respects G (handleEvent user d) := by
  apply respects_bind respects_get
  intro s
  apply respects_bind (respects_whenever _ hq.timerRefresh)
  intro _
  apply respects_bind respects_get
  intro s
  exact respects_whenever _ (huser _)

theorem handleCloseBody_respects (huser : ∀ uc, Respects G (user uc))
    (hrelease : Respects G (releaseInLoop user self d)) :
    Respects G (handleCloseBody user self d) := by
  apply respects_bind respects_get
  intro s
  apply respects_bind (respects_whenever _ (messageCallback_respects huser))
  intro _
  exact hrelease

theorem nonBlockSend_respects (hq : AllowsSmall G d)
    (hsent : ∀ data, Respects G (logEvent (.sent d data))) (env : Env) :
    Respects G (nonBlockSend env d) := by
  apply respects_bind hq.nextCall
  intro n
  apply respects_bind respects_get
  intro s
  split
  · exact respects_pure _
  · exact respects_bind (hsent _) fun _ => respects_pure _

theorem handleWriteBody_respects (hq : AllowsSmall G d) (ha : AllowsOn G d)
    (huser : ∀ uc, Respects G (user uc)) (hrelease : Respects G (releaseInLoop user self d))
    (hmove : ∀ len, Respects G (moveSent d len)) (hdisable : Respects G (disableWrite d))
    (env : Env) : Respects G (handleWriteBody user self env d) := by
  apply respects_bind (nonBlockSend_respects hq (fun _ => ha.log _ rfl nofun) env)
  intro ret
  cases ret with
  -- `send` has failed: what has been read is handed over, and the connection is released
  | none =>
    apply respects_bind respects_get
    intro s
    exact respects_bind (respects_whenever _ (messageCallback_respects huser)) fun _ => hrelease
  | some n =>
    apply respects_bind (hmove _)
    intro _
    apply respects_bind respects_get
    intro s
    apply respects_whenever
    apply respects_bind hdisable
    intro _
    apply respects_bind respects_get
    intro s
    exact respects_whenever _ hrelease

theorem handleRevents_respects (hq : AllowsSmall G d) (huser : ∀ uc, Respects G (user uc))
    (hread : ∀ env, Respects G (handleRead user self env d))
    (hwrite : ∀ env, Respects G (handleWrite user self env d))
    (hclose : Respects G (handleClose user self d)) (env : Env) (revents : Events) :
    Respects G (handleRevents user self env d revents) := by
  have hevent := handleEvent_respects hq huser
  apply respects_bind
  · exact respects_whenever _ (respects_bind hevent fun _ => hread env)
  · intro _
    apply respects_ite
    · exact respects_bind hevent fun _ => hwrite env
    · apply respects_ite
      · exact respects_bind hevent fun _ => hclose
      · exact respects_whenever _ (respects_bind hevent fun _ => hclose)

theorem establishedInLoop_respects (hq : AllowsSmall G d) (ha : AllowsOn G d)
    (huser : ∀ uc, Respects G (user uc)) : Respects G (establishedInLoop user d) := by
  apply respects_bind respects_get
  intro s
  apply respects_bind (respects_whenever _ (respects_throw _))
  intro _
  apply respects_bind (setStatu_respects ha _)
  intro _
  apply respects_bind hq.enableRead
  intro _
  apply respects_bind respects_get
  intro s
  exact respects_whenever _ (huser _)

theorem onTime_respects (hq : AllowsQuiet G d)
    (hcb : ∀ h task s, (s.loops self).wheel.tasks[h]? = some task →
      wp (timerCallback user self h task) (fun _ s' => G.ret s s') (fun s' => G.fault s s') s) :
    Respects G (onTime user self) := by
  apply Host.runTimerTask_respects
  · intro w s hw
    apply hq.ret
    apply Quiet.setWheel
    intro task htask
    rw [hw] at htask
    exact Or.inl ⟨task, htask, rfl⟩
  · exact hcb

end onConnection

/-! ## The trace only grows -/

/-- The trace is only added to. -/
def grows : Guarantee World :=
  Guarantee.ofPreorder (fun s s' => s.trace <+: s'.trace) (fun _ => List.prefix_rfl)
    (fun h h' => h.trans h')

theorem grows_of_eq {s s' : World} (h : s'.trace = s.trace) : grows.ret s s' := by
  show s.trace <+: s'.trace
  exact h ▸ List.prefix_rfl

theorem grows_allowsQuiet (d : ConnId) : AllowsQuiet grows d where
  ret := fun _ _ h => grows_of_eq h.trace
  fault := fun _ _ h => grows_of_eq h.trace

theorem grows_logEvent (e : Event) : Respects grows (logEvent e) :=
  respects_modify fun s => List.prefix_append s.trace [e]

theorem grows_modify {f : World → World} (h : ∀ s, (f s).trace = s.trace) :
    Respects grows (modify f : Code) :=
  respects_modify fun s => grows_of_eq (h s)

theorem grows_removeConnection (self : LoopId) (d : ConnId) :
    Respects grows (removeConnection self d) :=
  respects_ite _ (grows_modify fun _ => rfl) (grows_modify fun _ => rfl)

theorem grows_serverClosedCallback (self : LoopId) (d : ConnId) :
    Respects grows (serverClosedCallback self d) := by
  apply respects_bind respects_get
  intro s
  apply respects_whenever
  exact respects_bind (grows_logEvent _) fun _ => grows_removeConnection self d

theorem grows_allowsOn (d : ConnId) : AllowsOn grows d where
  log := fun e _ _ => grows_logEvent e
  statu := fun _ => grows_modify fun _ => rfl
  enter := fun _ => respects_modify fun s => List.prefix_append s.trace _
  leave := grows_modify fun _ => rfl
  close := grows_modify fun _ => rfl

theorem grows_sendInLoop (c : ConnId) (buf : Buffer) (hbuf : Buffer.WellFormed buf) :
    Respects grows (sendInLoop c buf) := by
  intro s
  have hlog : s.trace <+: (s.log (.given c buf.unread)).trace := List.prefix_append _ _
  refine wp_mono (sendInLoop_spec c hbuf s) ?_ ?_
  · intro _ s' hs'
    rcases hs' with ⟨_, rfl⟩ | ⟨out, _, _, hquiet, _⟩
    · exact hlog
    · show s.trace <+: s'.trace
      rw [hquiet.trace]
      exact hlog
  · intro s' hs'
    rw [hs']
    exact hlog

theorem grows_tryConn (d : ConnId) (f : Conn → Except Fault Conn) :
    Respects grows (tryConn d f) := by
  apply respects_get_bind
  intro s
  split
  · exact (wp_set _ _ _ _).mpr (grows_of_eq rfl)
  · exact (wp_throw _ _ _ _).mpr (grows.refl s)

theorem grows_disableWrite (d : ConnId) : Respects grows (disableWrite d) :=
  respects_bind (grows_modify fun _ => rfl) fun _ => (grows_allowsQuiet d).small.updateEvent

section grows

variable {self : LoopId} {user : UserCode → Code} {d : ConnId}
  (huser : ∀ uc, Respects grows (user uc))

include huser

theorem grows_releaseInLoop : Respects grows (releaseInLoop user self d) :=
  releaseInLoop_respects (grows_allowsQuiet d).small (grows_allowsOn d) (grows_logEvent _)
    (grows_removeConnection self d) huser

theorem grows_shutdownInLoop : Respects grows (shutdownInLoop user self d) :=
  shutdownInLoop_respects (grows_allowsQuiet d).small (grows_allowsOn d) huser
    (grows_releaseInLoop huser)

theorem grows_handleWriteBody (env : Env) : Respects grows (handleWriteBody user self env d) :=
  handleWriteBody_respects (grows_allowsQuiet d).small (grows_allowsOn d) huser
    (grows_releaseInLoop huser) (fun _ => grows_tryConn d _) (grows_disableWrite d) env

end grows

end CallLesson.Reactor
