import CallLesson.Reactor.Buffer
import CallLesson.Reactor.TimerWheel

/-! # Channels, connections and their loops

    `Channel`, `Poller`, `EventLoop::RunInLoop`, `Connection` and the part of
    `TcpServer` that a connection calls back, from
    `Reactor_http/source/server.hpp`.

    The code runs in `EStateM Fault World`. A piece of it is executed by one
    loop thread (`self`), and everything it does to objects of another loop
    goes through that loop's task queue. Callbacks run on the stack of the
    code that calls them and may come back into it. -/

namespace CallLesson.Reactor

open Exec

/-! ## State -/

abbrev LoopId := Nat

def baseLoop : LoopId := 0

abbrev ConnId := Nat

inductive ConnStatu where
  | disconnected
  | connecting
  | connected
  | disconnecting
  deriving DecidableEq

abbrev Events := BitVec 32

def EPOLLIN : Events := 0x001#32
def EPOLLPRI : Events := 0x002#32
def EPOLLOUT : Events := 0x004#32
def EPOLLERR : Events := 0x008#32
def EPOLLHUP : Events := 0x010#32
def EPOLLRDHUP : Events := 0x2000#32

def has (mask bit : Events) : Bool := mask &&& bit != 0

inductive Chan where
  | timer
  | eventfd
  /-- The listening socket of the server, on its base loop. -/
  | acceptor
  | conn (c : ConnId)
  deriving DecidableEq

structure Callbacks where
  connected : Bool
  message : Bool
  closed : Bool
  event : Bool
  serverClosed : Bool
  deriving DecidableEq

structure Conn where
  /-- `_loop`. -/
  loop : LoopId
  /-- `_sockfd`, also the `_fd` of the channel. -/
  fd : Nat
  /-- The `Socket` still holds its descriptor. -/
  socketOpen : Bool
  /-- `_enable_inactive_release`. -/
  enableInactiveRelease : Bool
  /-- `_statu`. -/
  statu : ConnStatu
  /-- `_events` of the channel. -/
  events : Events
  /-- `_in_buffer`. -/
  inBuffer : Buffer
  /-- `_out_buffer`. -/
  outBuffer : Buffer
  callbacks : Callbacks
  deriving DecidableEq

inductive TimerCb where
  /-- `std::bind(&Connection::ReleaseInLoop, this)`. -/
  | release (c : ConnId)
  /-- A task given to `TcpServer::RunAfter`. -/
  | user
  deriving DecidableEq

inductive Functor where
  | established (c : ConnId)
  /-- `SendInLoop` with the `Buffer` that `Send` filled. -/
  | send (c : ConnId) (data : Bytes)
  | shutdown (c : ConnId)
  | enableInactiveRelease (c : ConnId) (sec : Nat)
  | cancelInactiveRelease (c : ConnId)
  | removeConnection (c : ConnId)
  deriving DecidableEq

def Functor.conn : Functor → ConnId
  | .established c => c
  | .send c _ => c
  | .shutdown c => c
  | .enableInactiveRelease c _ => c
  | .cancelInactiveRelease c => c
  | .removeConnection c => c

def Functor.removed : Functor → Option ConnId
  | .removeConnection c => some c
  | _ => none

structure Loop where
  /-- `_poller._channels`. -/
  channels : Nat → Option Chan
  /-- `_timer_wheel`. -/
  wheel : TimerWheel TimerCb
  /-- `_tasks`. -/
  tasks : List Functor

inductive ReleaseOp where
  | handleWrite
  | handleClose
  | shutdownInLoop
  | idleTimer
  deriving DecidableEq

structure Before where
  statu : ConnStatu
  /-- The number of such operations in progress on the connection. -/
  busy : Nat
  /-- The output buffer is non-empty. -/
  outPending : Bool
  /-- The channel of the connection is still to come in the walk over the
      active channels. -/
  later : Bool
  /-- The code runs inside of the `NewConnection` of the connection. -/
  creating : Bool
  /-- The id has been given out by the server. -/
  known : Bool
  deriving DecidableEq

inductive Event where
  | began (op : ReleaseOp) (c : ConnId) (before : Before)
  /-- `_statu` is assigned. -/
  | statu (c : ConnId) (st : ConnStatu)
  /-- `SendInLoop` is called. -/
  | given (c : ConnId) (data : Bytes)
  /-- `send` accepts bytes. -/
  | sent (c : ConnId) (data : Bytes)
  /-- `ReleaseInLoop` is called. -/
  | release (c : ConnId)
  /-- The closed callback of the user is called. -/
  | closed (c : ConnId)
  /-- The closed callback of the server is called. -/
  | serverClosed (c : ConnId)
  /-- `NewConnection` has inserted the connection into the table. -/
  | created (c : ConnId)
  /-- A walk over active channels begins. -/
  | poll
  /-- `Channel::HandleEvent` is called. -/
  | dispatch (ch : Chan)
  deriving DecidableEq

def Event.conn? : Event → Option ConnId
  | .began _ _ _ => none
  | .statu c _ => some c
  | .given c _ => some c
  | .sent c _ => some c
  | .release c => some c
  | .closed c => some c
  | .serverClosed c => some c
  | .created _ => none
  | .poll => none
  | .dispatch _ => none

structure World where
  loops : LoopId → Loop
  conns : ConnId → Conn
  /-- `TcpServer::_conns`. -/
  table : Nat → Option ConnId
  /-- `TcpServer::_conn_id`. -/
  connId : Nat
  /-- `LoopThreadPool::_next_loop_idx`. -/
  nextLoopIdx : Nat
  /-- The number of calls to the outside so far. -/
  calls : Nat
  -- written and never read by the code: what the statements about runs talk about
  trace : List Event
  busy : ConnId → Nat
  walk : List Chan
  creating : Option ConnId

inductive Api where
  /-- `ReadStringAndPop(len)` on the input buffer. -/
  | pop (c : ConnId) (len : Nat)
  /-- `Clear()` on the input buffer. -/
  | clear (c : ConnId)
  | send (c : ConnId) (data : Bytes)
  | shutdown (c : ConnId)
  | enableInactiveRelease (c : ConnId) (sec : Nat)
  | cancelInactiveRelease (c : ConnId)
  /-- `Upgrade` to other callbacks. -/
  | upgrade (c : ConnId) (connected message closed event : Bool)
  deriving DecidableEq

def Api.conn : Api → ConnId
  | .pop c _ => c
  | .clear c => c
  | .send c _ => c
  | .shutdown c => c
  | .enableInactiveRelease c _ => c
  | .cancelInactiveRelease c => c
  | .upgrade c _ _ _ _ => c

inductive UserCode where
  | connected (c : ConnId)
  | message (c : ConnId)
  | closed (c : ConnId)
  | event (c : ConnId)
  | task
  deriving DecidableEq

/-- An arbitrary peer, kernel and user program, by the number of calls made before. -/
structure Env where
  /-- The results of `NonBlockRecv`; `none` is -1. -/
  recv : Nat → Option Bytes
  /-- The results of `NonBlockSend`; `none` is -1. -/
  send : Nat → Option Nat
  /-- The results of `Accept`; `none` is -1. -/
  accept : Nat → Option Nat
  /-- What the user's code does when it is called. -/
  user : Nat → UserCode → List Api

namespace World

def log (s : World) (e : Event) : World := { s with trace := s.trace ++ [e] }

def setConn (s : World) (c : ConnId) (k : Conn) : World :=
  { s with conns := fun i => if i = c then k else s.conns i }

def setLoop (s : World) (l : LoopId) (lp : Loop) : World :=
  { s with loops := fun i => if i = l then lp else s.loops i }

def pushTask (s : World) (l : LoopId) (f : Functor) : World :=
  s.setLoop l { s.loops l with tasks := (s.loops l).tasks ++ [f] }

def removals (s : World) (l : LoopId) : List ConnId := (s.loops l).tasks.filterMap Functor.removed

def setChannel (s : World) (l : LoopId) (fd : Nat) (ch : Option Chan) : World :=
  s.setLoop l { s.loops l with
    channels := fun i => if i = fd then ch else (s.loops l).channels i }

def outPending (s : World) (c : ConnId) : Bool := decide (0 < (s.conns c).outBuffer.readAbleSize)

def inPending (s : World) (c : ConnId) : Bool := decide (0 < (s.conns c).inBuffer.readAbleSize)

def before (s : World) (c : ConnId) : Before where
  statu := (s.conns c).statu
  busy := s.busy c
  outPending := s.outPending c
  later := decide (Chan.conn c ∈ s.walk)
  creating := decide (s.creating = some c)
  known := decide (c ≤ s.connId)

def enter (s : World) (op : ReleaseOp) (c : ConnId) : World :=
  { s.log (.began op c (s.before c)) with busy := fun i => if i = c then s.busy c + 1 else s.busy i }

def leave (s : World) (c : ConnId) : World :=
  { s with busy := fun i => if i = c then s.busy c - 1 else s.busy i }

end World

abbrev Code := EStateM Fault World Unit

def wheelHost (l : LoopId) : Host World TimerCb where
  wheelOf := fun s => (s.loops l).wheel
  setWheel := fun w s => s.setLoop l { s.loops l with wheel := w }
  wheelOf_setWheel := by intro w s; simp [World.setLoop]

/-! ## Sockets, buffers, channels -/

def logEvent (e : Event) : Code := modify (·.log e)

def modifyConn (c : ConnId) (f : Conn → Conn) : Code :=
  modify fun s => s.setConn c (f (s.conns c))

def tryConn (c : ConnId) (f : Conn → Except Fault Conn) : Code := do
  let s ← get
  match f (s.conns c) with
  | .ok k => set (s.setConn c k)
  | .error fault => throw fault

def nextCall : EStateM Fault World Nat :=
  modifyGet fun s => (s.calls, { s with calls := s.calls + 1 })

def nonBlockRecv (env : Env) (c : ConnId) : EStateM Fault World (Option Bytes) := do
  let n ← nextCall
  let s ← get
  return if (s.conns c).socketOpen then (env.recv n).map (·.take 65535) else none

def maxRwCount : Nat := 0x7ffff000

def nonBlockSend (env : Env) (c : ConnId) : EStateM Fault World (Option Nat) := do
  let n ← nextCall
  let s ← get
  let out := (s.conns c).outBuffer
  match if (s.conns c).socketOpen then env.send n else none with
  | none => return none
  | some k => do
      let ret := min (min k maxRwCount) out.readAbleSize
      logEvent (.sent c (out.unread.take ret))
      return some ret

def moveSent (c : ConnId) (len : Nat) : Code := tryConn c fun k => do
  let out ← k.outBuffer.moveReadOffset len
  return { k with outBuffer := out }

def socketClose (c : ConnId) : Code := modifyConn c fun k => { k with socketOpen := false }

def updateEvent (c : ConnId) : Code := modify fun s =>
  let k := s.conns c
  if ((s.loops k.loop).channels k.fd).isNone then s.setChannel k.loop k.fd (some (.conn c)) else s

def removeEvent (c : ConnId) : Code := modify fun s =>
  let k := s.conns c
  s.setChannel k.loop k.fd none

def writeAble (k : Conn) : Bool := has k.events EPOLLOUT

def enableRead (c : ConnId) : Code := do
  modifyConn c fun k => { k with events := k.events ||| EPOLLIN }
  updateEvent c

def enableWrite (c : ConnId) : Code := do
  modifyConn c fun k => { k with events := k.events ||| EPOLLOUT }
  updateEvent c

def disableWrite (c : ConnId) : Code := do
  modifyConn c fun k => { k with events := k.events &&& ~~~EPOLLOUT }
  updateEvent c

def setStatu (c : ConnId) (st : ConnStatu) : Code := do
  modifyConn c fun k => { k with statu := st }
  logEvent (.statu c st)

/-! ## Timers of a connection -/

def World.hasTimer (s : World) (c : ConnId) : Bool :=
  (s.loops (s.conns c).loop).wheel.hasTimer c

def timerRefresh (c : ConnId) : Code := do
  let s ← get
  (wheelHost (s.conns c).loop).timerRefresh c

def timerCancel (c : ConnId) : Code :=
  modify fun s => (wheelHost (s.conns c).loop).update (·.timerCancelInLoop c) s

def timerAdd (c : ConnId) (sec : Nat) : Code :=
  modify fun s => (wheelHost (s.conns c).loop).update (·.timerAddInLoop c sec (.release c)) s

def enableInactiveReleaseInLoop (c : ConnId) (sec : Nat) : Code := do
  modifyConn c fun k => { k with enableInactiveRelease := true }
  let s ← get
  if s.hasTimer c then timerRefresh c else timerAdd c sec

def cancelInactiveReleaseInLoop (c : ConnId) : Code := do
  modifyConn c fun k => { k with enableInactiveRelease := false }
  let s ← get
  whenever (s.hasTimer c) (timerCancel c)

def cancelInactiveRelease (self : LoopId) (c : ConnId) : Code := do
  let s ← get
  if self = (s.conns c).loop then cancelInactiveReleaseInLoop c
  else modify (·.pushTask (s.conns c).loop (.cancelInactiveRelease c))

/-! ## The connection -/

def tableKey (c : ConnId) : Nat := ((toInt32 c) % 2 ^ 64).toNat

def World.eraseConn (s : World) (c : ConnId) : World :=
  { s with table := fun i => if i = tableKey c then none else s.table i }

def removeConnectionInLoop (c : ConnId) : Code := modify (·.eraseConn c)

def removeConnection (self : LoopId) (c : ConnId) : Code :=
  if self = baseLoop then removeConnectionInLoop c
  else modify (·.pushTask baseLoop (.removeConnection c))

def during (op : ReleaseOp) (c : ConnId) (body : Code) : Code := do
  modify (·.enter op c)
  body
  modify (·.leave c)

def sendInLoop (c : ConnId) (buf : Buffer) : Code := do
  logEvent (.given c buf.unread)
  let s ← get
  if (s.conns c).statu = .disconnected then pure () else do
    tryConn c fun k => do
      let out ← k.outBuffer.writeBufferAndPush buf
      return { k with outBuffer := out }
    let s ← get
    whenever (writeAble (s.conns c) = false) (enableWrite c)

def sendBuffer (data : Bytes) : Except Fault Buffer := Buffer.fresh.writeAndPush data

def upgrade (self : LoopId) (c : ConnId) (connected message closed event : Bool) : Code := do
  let s ← get
  whenever (self ≠ (s.conns c).loop) (throw .assertFailed)
  modifyConn c fun k => { k with
    callbacks := { k.callbacks with
      connected := connected, message := message, closed := closed, event := event } }

section code

variable (user : UserCode → Code) (self : LoopId)

def closeConnection (c : ConnId) : Code := do
  setStatu c .disconnected
  removeEvent c
  socketClose c
  let s ← get
  whenever (s.hasTimer c) (cancelInactiveRelease self c)
  let s ← get
  whenever (s.conns c).callbacks.closed do
    logEvent (.closed c)
    user (.closed c)

def serverClosedCallback (c : ConnId) : Code := do
  let s ← get
  whenever (s.conns c).callbacks.serverClosed do
    logEvent (.serverClosed c)
    removeConnection self c

def releaseBody (c : ConnId) : Code := do
  closeConnection user self c
  serverClosedCallback self c

def releaseInLoop (c : ConnId) : Code := do
  logEvent (.release c)
  releaseBody user self c

def shutdownBody (c : ConnId) : Code := do
  setStatu c .disconnecting
  let s ← get
  whenever (s.inPending c ∧ (s.conns c).callbacks.message) (user (.message c))
  let s ← get
  whenever (s.outPending c ∧ writeAble (s.conns c) = false) (enableWrite c)
  let s ← get
  whenever (s.outPending c = false) (releaseInLoop user self c)

def shutdownInLoop (c : ConnId) : Code :=
  during .shutdownInLoop c (shutdownBody user self c)

def messageCallback (c : ConnId) : Code := do
  let s ← get
  if (s.conns c).callbacks.message then user (.message c) else throw .emptyFunction

def handleRead (env : Env) (c : ConnId) : Code := do
  let ret ← nonBlockRecv env c
  match ret with
  | none => shutdownInLoop user self c
  | some data => do
      tryConn c fun k => do
        let buf ← k.inBuffer.writeAndPush data
        return { k with inBuffer := buf }
      let s ← get
      whenever (s.inPending c) (messageCallback user c)

def handleWriteBody (env : Env) (c : ConnId) : Code := do
  let ret ← nonBlockSend env c
  match ret with
  | none => do
      let s ← get
      whenever (s.inPending c) (messageCallback user c)
      releaseInLoop user self c
  | some n => do
      moveSent c n
      let s ← get
      whenever (s.outPending c = false) do
        disableWrite c
        let s ← get
        whenever ((s.conns c).statu = .disconnecting) (releaseInLoop user self c)

def handleWrite (env : Env) (c : ConnId) : Code :=
  during .handleWrite c (handleWriteBody user self env c)

def handleCloseBody (c : ConnId) : Code := do
  let s ← get
  whenever (s.inPending c) (messageCallback user c)
  releaseInLoop user self c

def handleClose (c : ConnId) : Code :=
  during .handleClose c (handleCloseBody user self c)

def handleError (c : ConnId) : Code := handleClose user self c

def handleEvent (c : ConnId) : Code := do
  let s ← get
  whenever (s.conns c).enableInactiveRelease (timerRefresh c)
  let s ← get
  whenever (s.conns c).callbacks.event (user (.event c))

def establishedInLoop (c : ConnId) : Code := do
  let s ← get
  whenever ((s.conns c).statu ≠ .connecting) (throw .assertFailed)
  setStatu c .connected
  enableRead c
  let s ← get
  whenever (s.conns c).callbacks.connected (user (.connected c))

def handleRevents (env : Env) (c : ConnId) (revents : Events) : Code := do
  whenever (has revents EPOLLIN ∨ has revents EPOLLRDHUP ∨ has revents EPOLLPRI) do
    handleEvent user c
    handleRead user self env c
  if has revents EPOLLOUT then do
    handleEvent user c
    handleWrite user self env c
  else if has revents EPOLLERR then do
    handleEvent user c
    handleError user self c
  else whenever (has revents EPOLLHUP) do
    handleEvent user c
    handleClose user self c

def channelHandleEvent (env : Env) (c : ConnId) (revents : Events) : Code := do
  logEvent (.dispatch (.conn c))
  handleRevents user self env c revents

def timerCallback (_ : Handle) (task : TimerTask TimerCb) : Code :=
  match task.taskCb with
  | .release c => during .idleTimer c (releaseInLoop user self c)
  | .user => user .task

def onTime : Code := (wheelHost self).runTimerTask (timerCallback user self)

def runFunctor : Functor → Code
  | .established c => establishedInLoop user c
  | .send c data =>
      match sendBuffer data with
      | .ok buf => sendInLoop c buf
      | .error fault => throw fault
  | .shutdown c => shutdownInLoop user self c
  | .enableInactiveRelease c sec => enableInactiveReleaseInLoop c sec
  | .cancelInactiveRelease c => cancelInactiveReleaseInLoop c
  | .removeConnection c => removeConnectionInLoop c

def runInLoop (l : LoopId) (f : Functor) : Code :=
  if self = l then runFunctor user self f else modify (·.pushTask l f)

def runInLoopOf (c : ConnId) (f : Functor) : Code := do
  let s ← get
  runInLoop user self (s.conns c).loop f

def api : Api → Code
  | .pop c len => tryConn c fun k => do
      let (buf, _) ← k.inBuffer.readStringAndPop len
      return { k with inBuffer := buf }
  | .clear c => modifyConn c fun k => { k with inBuffer := k.inBuffer.clear }
  | .send c data => runInLoopOf user self c (.send c data)
  | .shutdown c => runInLoopOf user self c (.shutdown c)
  | .enableInactiveRelease c sec => runInLoopOf user self c (.enableInactiveRelease c sec)
  | .cancelInactiveRelease c => runInLoopOf user self c (.cancelInactiveRelease c)
  | .upgrade c connected message closed event => upgrade self c connected message closed event

end code

def apiKnown (user : UserCode → Code) (self : LoopId) (a : Api) : Code := do
  let s ← get
  whenever (a.conn ≤ s.connId) (api user self a)

def callback (env : Env) (self : LoopId) : Nat → UserCode → Code
  | 0, _ => throw .stackOverflow
  | depth + 1, uc => do
      let n ← nextCall
      Exec.runAll (apiKnown (callback env self depth) self) (env.user n uc)

/-! ## Runs of the loop threads -/

def Conn.new (loop : LoopId) (fd : Nat) (callbacks : Callbacks) : Conn where
  loop := loop
  fd := fd
  socketOpen := true
  enableInactiveRelease := false
  statu := .connecting
  events := 0
  inBuffer := Buffer.fresh
  outBuffer := Buffer.fresh
  callbacks := callbacks

def Loop.new (eventFd timerFd : Nat) : Loop where
  channels := fun fd => if fd = eventFd then some .eventfd
    else if fd = timerFd then some .timer else none
  wheel := TimerWheel.empty TimerCb
  tasks := []

structure Config where
  eventFd : LoopId → Nat
  timerFd : LoopId → Nat
  /-- The descriptor of the listening socket. -/
  listenFd : Nat
  /-- `LoopThreadPool::_thread_count`; the sub-loops are the loops from 1 on. -/
  threadCount : Nat
  /-- `TcpServer::_timeout`, if `_enable_inactive_release` is set. -/
  timeout : Option Nat
  /-- The callbacks of the server, and which are set. -/
  callbacks : Callbacks
  /-- The connections up to this one are constructed. -/
  connId : Nat
  loopOf : ConnId → LoopId
  fdOf : ConnId → Nat
  callbacksOf : ConnId → Callbacks

def World.initial (cfg : Config) : World where
  loops := fun l =>
    let lp := Loop.new (cfg.eventFd l) (cfg.timerFd l)
    if l = baseLoop then
      { lp with channels := fun fd => if fd = cfg.listenFd then some .acceptor else lp.channels fd }
    else lp
  conns := fun c => Conn.new (cfg.loopOf c) (cfg.fdOf c) (cfg.callbacksOf c)
  table := fun _ => none
  connId := cfg.connId
  nextLoopIdx := 0
  calls := 0
  trace := []
  busy := fun _ => 0
  walk := []
  creating := none

inductive LoopStep where
  | event (self : LoopId) (c : ConnId) (revents : Events)
  | functor (self : LoopId) (f : Functor)
  | tick (self : LoopId)
  deriving DecidableEq

def LoopStep.exec (env : Env) (depth : Nat) : LoopStep → Code
  | .event self c revents => channelHandleEvent (callback env self depth) self env c revents
  | .functor self f => runFunctor (callback env self depth) self f
  | .tick self => onTime (callback env self depth) self

def afterSteps (cfg : Config) (env : Env) (depth : Nat) (steps : List LoopStep) : World :=
  stateAfter (runAll (LoopStep.exec env depth) steps) (World.initial cfg)

def Config.single : Config where
  eventFd := fun _ => 3
  timerFd := fun _ => 4
  listenFd := 5
  threadCount := 0
  timeout := none
  callbacks := ⟨true, true, true, true, true⟩
  connId := 10
  loopOf := fun _ => baseLoop
  fdOf := fun c => 6 + c
  callbacksOf := fun _ => ⟨true, true, true, true, true⟩

def Env.reset : Env where
  recv := fun _ => none
  send := fun _ => none
  accept := fun _ => none
  user := fun _ _ => []

end CallLesson.Reactor
