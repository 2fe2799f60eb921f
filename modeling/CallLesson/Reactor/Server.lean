import CallLesson.Reactor.Connection

/-! # The server and its loops

    `TcpServer::NewConnection` with `LoopThreadPool::NextLoop`, and one turn of
    `EventLoop::Start`: `Poller::Poll`, the walk over the active channels and
    `RunAllTask`. The list of active channels is a snapshot of pointers; what
    is left of it while a handler runs is written to `walk`. -/

namespace CallLesson.Reactor

open Exec

/-! ## New connections -/

section server

variable (cfg : Config) (user : UserCode → Code) (self : LoopId)

/-- `NextLoop`; the `i`-th sub-loop is the loop `i + 1`. -/
def nextLoop : EStateM Fault World LoopId :=
  if cfg.threadCount = 0 then pure baseLoop
  else modifyGet fun s =>
    let idx := (s.nextLoopIdx + 1) % cfg.threadCount
    (idx + 1, { s with nextLoopIdx := idx })

/-- The first half of `NewConnection`: the id, the loop and the callbacks. -/
def constructConnection (fd : Nat) : EStateM Fault World ConnId := do
  modify fun s => { s with connId := s.connId + 1 }
  let l ← nextLoop cfg
  modifyGet fun s =>
    let k := Conn.new l fd { cfg.callbacks with serverClosed := true }
    (s.connId, { s.setConn s.connId k with
      creating := if l = baseLoop then some s.connId else none })

theorem constructConnection_spec (fd : Nat) (s : World) : wp (constructConnection cfg fd)
      (fun c s' => c = s.connId + 1 ∧ ∃ l idx,
        s' = { s.setConn c (Conn.new l fd { cfg.callbacks with serverClosed := true }) with
          connId := c
          nextLoopIdx := idx
          creating := if l = baseLoop then some c else none })
      (fun _ => False) s := by
  rw [constructConnection, wp_bind, wp_modify, wp_bind, nextLoop, wp_ite, wp_pure, wp_modifyGet,
    wp_modifyGet, wp_modifyGet]
  exact ⟨fun _ => ⟨rfl, _, _, rfl⟩, fun _ => ⟨rfl, _, _, rfl⟩⟩

def enableTimeout (c : ConnId) : Code :=
  match cfg.timeout with
  | some sec => runInLoopOf user self c (.enableInactiveRelease c sec)
  | none => pure ()

/-- `EnableInactiveRelease` and `EsTablished`, on the loop of the connection. -/
def startConnection (c : ConnId) : Code := do
  enableTimeout cfg user self c
  runInLoopOf user self c (.established c)

/-- `_conns.insert`, which keeps an entry that is already there. -/
def insertConnection (c : ConnId) : Code := do
  modify fun s => { s with
    table := fun i => if i = s.connId then some ((s.table i).getD c) else s.table i
    creating := none }
  logEvent (.created c)

def newConnection (fd : Nat) : Code := do
  let c ← constructConnection cfg fd
  startConnection cfg user self c
  insertConnection c

def acceptorHandleRead (env : Env) : Code := do
  let n ← nextCall
  match env.accept n with
  | none => pure ()
  | some fd => newConnection cfg user self fd

/-! ## One turn of a loop -/

/-- `Channel::HandleEvent`; channels of no connection only have a read callback. -/
def Chan.handleEvent (env : Env) (revents : Events) : Chan → Code
  | .conn c => channelHandleEvent user self env c revents
  | .timer => do
      logEvent (.dispatch .timer)
      whenever (has revents EPOLLIN ∨ has revents EPOLLRDHUP ∨ has revents EPOLLPRI)
        (onTime user self)
  | .eventfd => logEvent (.dispatch .eventfd)
  | .acceptor => do
      logEvent (.dispatch .acceptor)
      whenever (has revents EPOLLIN ∨ has revents EPOLLRDHUP ∨ has revents EPOLLPRI)
        (acceptorHandleRead cfg user self env)

/-- What `epoll_wait` reports: at most 1024 descriptors, each once. -/
structure Ready where
  evs : List (Nat × Events)
  nodup : (evs.map Prod.fst).Nodup
  length_le : evs.length ≤ 1024

/-- The channels of the reported descriptors, if all are registered. -/
def activeChannels (channels : Nat → Option Chan) :
    List (Nat × Events) → Option (List (Chan × Events))
  | [] => some []
  | (fd, revents) :: evs => do
      let ch ← channels fd
      let active ← activeChannels channels evs
      return (ch, revents) :: active

/-- `Poll`, which asserts that every reported descriptor is registered. -/
def poll (ready : Ready) : EStateM Fault World (List (Chan × Events)) := do
  let s ← get
  match activeChannels (s.loops self).channels ready.evs with
  | none => throw .assertFailed
  | some active => do
      modify fun s => { s with walk := active.map Prod.fst }
      logEvent .poll
      return active

/-- The walk over the active channels. -/
def handleActive (env : Env) : List (Chan × Events) → Code
  | [] => pure ()
  | (ch, revents) :: rest => do
      modify fun s => { s with walk := rest.map Prod.fst }
      ch.handleEvent cfg user self env revents
      handleActive env rest

/-- `RunAllTask`: the queue is swapped out before its functors run. -/
def runAllTask : Code := do
  let s ← get
  set (s.setLoop self { s.loops self with tasks := [] })
  runAll (runFunctor user self) (s.loops self).tasks

/-- One turn of `Start`. -/
def turn (env : Env) (ready : Ready) : Code := do
  let active ← poll self ready
  handleActive cfg user self env active
  runAllTask user self

end server

/-- A turn of the thread, or a functor that another thread queues. -/
inductive TurnStep where
  | turn (ready : Ready)
  | queue (f : Functor)

def TurnStep.exec (cfg : Config) (env : Env) (depth : Nat) (self : LoopId) : TurnStep → Code
  | .turn ready => Reactor.turn cfg (callback env self depth) self env ready
  | .queue f => modify (·.pushTask self f)

/-- The state of a loop after a run, up to the first fault. -/
def afterTurns (cfg : Config) (env : Env) (depth : Nat) (self : LoopId) (steps : List TurnStep) :
    World :=
  stateAfter (runAll (TurnStep.exec cfg env depth self) steps) (World.initial cfg)

/-! ## Runs of the server -/

/-- An event on a connection of its own, the next functor, or a tick. -/
inductive ThreadStep where
  | event (c : ConnId) (revents : Events)
  | task
  | tick
  deriving DecidableEq

def ThreadStep.exec (env : Env) (depth : Nat) (self : LoopId) : ThreadStep → Code
  | .event c revents => do
      let s ← get
      whenever (c ≤ s.connId ∧ (s.conns c).loop = self)
        (channelHandleEvent (callback env self depth) self env c revents)
  | .task => do
      let s ← get
      match (s.loops self).tasks with
      | [] => pure ()
      | f :: rest => do
          set (s.setLoop self { s.loops self with tasks := rest })
          runFunctor (callback env self depth) self f
  | .tick => onTime (callback env self depth) self

/-- A step of any thread, or `NewConnection` on the base loop, during which the
    threads of the sub-loops may go on. -/
inductive ServerStep where
  | thread (self : LoopId) (step : ThreadStep)
  | accept (fd : Nat) (meanwhile : List (Nat × ThreadStep))

def ServerStep.exec (cfg : Config) (env : Env) (depth : Nat) : ServerStep → Code
  | .thread self step => step.exec env depth self
  | .accept fd meanwhile => do
      let c ← constructConnection cfg fd
      startConnection cfg (callback env baseLoop depth) baseLoop c
      runAll (fun sub : Nat × ThreadStep => sub.2.exec env depth (sub.1 + 1)) meanwhile
      insertConnection c

/-- No connection has been made yet. -/
def Config.atStart (cfg : Config) : Config :=
  { cfg with connId := 0, callbacksOf := fun _ => { cfg.callbacks with serverClosed := true } }

def runServer (cfg : Config) (env : Env) (depth : Nat) (steps : List ServerStep) : Code :=
  runAll (ServerStep.exec cfg env depth) steps

def serverReturns (cfg : Config) (env : Env) (depth : Nat) (steps : List ServerStep) : Bool :=
  returns (runServer cfg env depth steps) (World.initial cfg.atStart)

/-- The state after a run, up to the first fault. -/
def afterServer (cfg : Config) (env : Env) (depth : Nat) (steps : List ServerStep) : World :=
  stateAfter (runServer cfg env depth steps) (World.initial cfg.atStart)

end CallLesson.Reactor
