import CallLesson.Framework.System
import CallLesson.Framework.Dict
import CallLesson.Calculator.Answers

/-! # The epoll reactor

    `Loop`, `Recver`, `Sender`, `Excepter` and `Accepter` of
    `lesson_IO/Reactor/TcpServer.hpp` with `calculate` as the service. A step
    goes as far as the next system call, whose result it is given. A `Connection`
    is an object that can be deleted; a step that reads or writes a deleted one is
    recorded, and the run ends there. -/

namespace CallLesson.Calculator

open Text

/-! ## Model -/

inductive Errno where
  | eagain
  | ewouldblock
  | eintr
  | other (code : Nat)
  deriving DecidableEq

abbrev ConnPtr := Nat

inductive RecverFn where
  | accepter
  | recver
  deriving DecidableEq

structure Connection where
  sock : Nat
  inbuffer : Bytes
  outbuffer : Bytes
  recver : RecverFn
  sender : Bool
  excepter : Bool
  deriving DecidableEq

structure Event where
  sock : Nat
  pollin : Bool
  pollout : Bool
  pollerr : Bool
  pollhup : Bool
  deriving DecidableEq

def Event.readable (ev : Event) : Bool := ev.pollin || ev.pollerr || ev.pollhup

/-! ### System calls -/

inductive RecvResult where
  | data (b : UInt8) (bs : Bytes)
  | eof
  | fails (errno : Errno)
  deriving DecidableEq

inductive SendResult where
  | accepts (n : Nat)
  | fails (errno : Errno)
  deriving DecidableEq

inductive AcceptResult where
  | sock (fd : Nat) (added : Bool)
  | fails (errno : Errno)
  deriving DecidableEq

structure Answers where
  events : List Event
  recv : RecvResult
  send : SendResult
  /-- The error of a `send` of no bytes, which otherwise returns 0. -/
  sendEmpty : Option Errno
  accept : AcceptResult
  deriving DecidableEq

def sendCall (outbuffer : Bytes) (errno : Errno) (a : Answers) : Nat × Errno :=
  if outbuffer = [] then (0, a.sendEmpty.getD errno)
  else
    match a.send with
    | .accepts n => (min n outbuffer.length, errno)
    | .fails e => (0, e)

/-! ### One round of `Sender` -/

inductive SenderNext where
  | continues
  | breaks
  | excepts
  deriving DecidableEq

def onErrno (excepter : Bool) : Errno → SenderNext
  | .eagain => .breaks
  | .ewouldblock => .breaks
  | .eintr => .continues
  | .other _ => if excepter then .excepts else .continues

def senderRound (excepter : Bool) (outbuffer : Bytes) (errno : Errno) (a : Answers) :
    SenderNext × Bytes × Errno :=
  let r := sendCall outbuffer errno a
  if 0 < r.1 then
    if outbuffer = [] then (.breaks, outbuffer, r.2)
    else (.continues, outbuffer.drop r.1, r.2)
  else (onErrno excepter r.2, outbuffer, r.2)

/-! ### The reactor -/

inductive Pc where
  /-- In `Dispatcher`, about to call `Loop`. -/
  | idle
  /-- In `Loop`, at the first test of an event. -/
  | test (evs : List Event)
  /-- In `Recver`, about to call `recv`. -/
  | recver (c : ConnPtr) (ev : Event) (evs : List Event)
  /-- In `Accepter`, about to call `accept`. -/
  | accepter (ev : Event) (evs : List Event)
  /-- In the `Sender` that `calculate` called, about to call `send`. -/
  | serviceSender (c : ConnPtr) (ev : Event) (evs : List Event)
  /-- In `calculate` after that. -/
  | serviceTail (c : ConnPtr) (ev : Event) (evs : List Event)
  /-- In `Loop`, at the second test of an event. -/
  | testSend (ev : Event) (evs : List Event)
  /-- In the `Sender` that `Loop` called, about to call `send`. -/
  | sender (c : ConnPtr) (evs : List Event)
  /-- The process has ended, or loops without a system call. -/
  | stopped
  deriving DecidableEq

def Pc.current : Pc → Option ConnPtr
  | .recver c _ _ => some c
  | .serviceSender c _ _ => some c
  | .serviceTail c _ _ => some c
  | .sender c _ => some c
  | _ => none

structure TcpServer where
  connections : Dict Nat ConnPtr
  /-- The connections that have not been deleted. -/
  object : Dict ConnPtr Connection
  nextConn : ConnPtr
  errno : Errno
  pc : Pc
  /-- A deleted connection has been read or written. -/
  usedDeleted : Bool

variable {conn : Connection} {c : ConnPtr} {ev : Event} {evs : List Event}

namespace TcpServer

def useDeleted (s : TcpServer) : TcpServer := { s with usedDeleted := true, pc := .stopped }

def excepter (s : TcpServer) (c : ConnPtr) (conn : Connection) : TcpServer :=
  { s with connections := s.connections.erase conn.sock, object := s.object.erase c }

def addConnection (s : TcpServer) (conn : Connection) : TcpServer :=
  { s with
    nextConn := s.nextConn + 1
    object := s.object.assign s.nextConn conn
    connections := s.connections.insert conn.sock s.nextConn }

def init (listenSock : Nat) (errno : Errno) : TcpServer :=
  { connections := Dict.empty, object := Dict.empty, nextConn := 0, errno := errno, pc := .idle,
    usedDeleted := false : TcpServer }.addConnection
    ⟨listenSock, [], [], .accepter, false, false⟩

def senderStep (s : TcpServer) (c : ConnPtr) (a : Answers) (done : Pc) : TcpServer :=
  match s.object c with
  | none => s.useDeleted
  | some conn =>
      match senderRound conn.excepter conn.outbuffer s.errno a with
      | (.continues, outbuffer, errno) =>
          { s with object := s.object.assign c { conn with outbuffer := outbuffer }, errno := errno }
      | (.breaks, _, errno) => { s with errno := errno, pc := done }
      | (.excepts, _, errno) => { s.excepter c conn with errno := errno, pc := done }

def service [Codec] (s : TcpServer) (c : ConnPtr) (conn : Connection) (buffer : Bytes) (ev : Event)
    (evs : List Event) : TcpServer :=
  match calculateLoop (conn.inbuffer ++ buffer.takeWhile (· ≠ 0)) conn.outbuffer with
  | .error _ => { s with pc := .stopped }
  | .ok (.returned, inbuffer, outbuffer) =>
      { s with
        object := s.object.assign c { conn with inbuffer := inbuffer, outbuffer := outbuffer }
        pc := .recver c ev evs }
  | .ok (.done, inbuffer, outbuffer) =>
      { s with
        object := s.object.assign c { conn with inbuffer := inbuffer, outbuffer := outbuffer }
        pc := if conn.sender then .serviceSender c ev evs else .serviceTail c ev evs }

def recverStep [Codec] (s : TcpServer) (c : ConnPtr) (a : Answers) (ev : Event) (evs : List Event) :
    TcpServer :=
  match s.object c with
  | none => s.useDeleted
  | some conn =>
      match a.recv with
      | .data b bs => s.service c conn (b :: bs) ev evs
      | .eof =>
          if conn.excepter then { s.excepter c conn with pc := .testSend ev evs }
          else { s with pc := .testSend ev evs }
      | .fails e =>
          match onErrno conn.excepter e with
          | .continues => { s with errno := e }
          | .breaks => { s with errno := e, pc := .testSend ev evs }
          | .excepts => { s.excepter c conn with errno := e, pc := .testSend ev evs }

def accepterStep (s : TcpServer) (a : Answers) (ev : Event) (evs : List Event) : TcpServer :=
  match a.accept with
  | .sock fd added =>
      if 0 < fd then
        if added then s.addConnection ⟨fd, [], [], .recver, true, true⟩ else { s with pc := .stopped }
      else if s.errno = .eintr then s
      else { s with pc := .testSend ev evs }
  | .fails e =>
      if e = .eintr then { s with errno := e } else { s with errno := e, pc := .testSend ev evs }

def next [Codec] (s : TcpServer) (a : Answers) : TcpServer :=
  match s.pc with
  | .idle => { s with pc := .test a.events }
  | .test [] => { s with pc := .idle }
  | .test (ev :: evs) =>
      if ev.readable then
        match s.connections ev.sock with
        | none => { s with pc := .testSend ev evs }
        | some c =>
            match s.object c with
            | none => s.useDeleted
            | some conn =>
                match conn.recver with
                | .recver => { s with pc := .recver c ev evs }
                | .accepter => { s with pc := .accepter ev evs }
      else { s with pc := .testSend ev evs }
  | .recver c ev evs => s.recverStep c a ev evs
  | .accepter ev evs => s.accepterStep a ev evs
  | .serviceSender c ev evs => s.senderStep c a (.serviceTail c ev evs)
  | .serviceTail c ev evs =>
      -- whether `outbuffer` is empty only decides which events `epoll_ctl` asks for
      match s.object c with
      | none => s.useDeleted
      | some _ => { s with pc := .recver c ev evs }
  | .testSend ev evs =>
      -- the second test is for `EPOLLIN` again
      if ev.readable then
        match s.connections ev.sock with
        | none => { s with pc := .test evs }
        | some c =>
            match s.object c with
            | none => s.useDeleted
            | some conn => if conn.sender then { s with pc := .sender c evs } else { s with pc := .test evs }
      else { s with pc := .test evs }
  | .sender c evs => s.senderStep c a (.test evs)
  | .stopped => s

def runs [Codec] (listenSock : Nat) (errno : Errno) : System TcpServer Answers :=
  System.ofNext (init listenSock errno) fun s a => some (s.next a)

/-! ## What a step does -/

def pendingEvents : Pc → List Event
  | .test evs => evs
  | .recver _ ev evs => ev :: evs
  | .accepter ev evs => ev :: evs
  | .serviceSender _ ev evs => ev :: evs
  | .serviceTail _ ev evs => ev :: evs
  | .testSend ev evs => ev :: evs
  | .sender _ evs => evs
  | _ => []

structure LeadsTo (s : TcpServer) (pc : Pc) : Prop where
  events : s.pc ≠ .idle → ∀ ev ∈ pendingEvents pc, ev ∈ pendingEvents s.pc
  current : ∀ c, Pc.current pc = some c → ∃ conn, s.object c = some conn ∧
    (Pc.current s.pc = some c ∨
      (∃ ev ∈ pendingEvents s.pc, s.connections ev.sock = some c) ∧
        (conn.recver = .recver ∨ conn.sender = true))

structure StaysWith (s : TcpServer) (c : ConnPtr) (pc : Pc) : Prop where
  events : ∀ ev ∈ pendingEvents pc, ev ∈ pendingEvents s.pc
  current : ∀ c', Pc.current pc = some c' → c' = c

inductive Change (s : TcpServer) (a : Answers) : TcpServer → Prop where
  | goto (e : Errno) (pc : Pc) : s.LeadsTo pc → Change s a { s with errno := e, pc := pc }
  /-- The buffers of the connection change. -/
  | assign {c : ConnPtr} {conn : Connection} (inbuffer outbuffer : Bytes) (e : Errno) (pc : Pc) :
      Pc.current s.pc = some c → s.object c = some conn → s.StaysWith c pc →
      Change s a
        { s with
          object := s.object.assign c { conn with inbuffer := inbuffer, outbuffer := outbuffer }
          errno := e
          pc := pc }
  /-- The connection is closed; only the `Sender` that `calculate` called goes on with it. -/
  | close {c : ConnPtr} {conn : Connection} (e : Errno) (pc : Pc) :
      Pc.current s.pc = some c → s.object c = some conn → s.StaysWith c pc →
      (Pc.current pc ≠ none → (∃ ev evs, s.pc = .serviceSender c ev evs) ∧
        (senderRound conn.excepter conn.outbuffer s.errno a).1 = .excepts) →
      Change s a { s.excepter c conn with errno := e, pc := pc }
  | accept (fd : Nat) : Pc.current s.pc = none →
      Change s a (s.addConnection ⟨fd, [], [], .recver, true, true⟩)
  /-- The connection has been deleted. -/
  | deleted {c : ConnPtr} : s.object c = none →
      (Pc.current s.pc = some c ∨ ∃ sock, s.connections sock = some c) → Change s a s.useDeleted

section Changes

variable {s : TcpServer} {a : Answers}

theorem leadsTo_none {pc : Pc} (hpc : Pc.current pc = none)
    (hev : s.pc ≠ .idle → ∀ ev ∈ pendingEvents pc, ev ∈ pendingEvents s.pc) : s.LeadsTo pc :=
  ⟨hev, fun c hc => by rw [hpc] at hc; cases hc⟩

theorem StaysWith.leadsTo {pc : Pc} (h : s.StaysWith c pc) (hcur : Pc.current s.pc = some c)
    (hc : s.object c = some conn) : s.LeadsTo pc :=
  ⟨fun _ => h.events, fun c' hc' => ⟨conn, h.current c' hc' ▸ hc, Or.inl (h.current c' hc' ▸ hcur)⟩⟩

theorem change_senderStep {done : Pc} (hcur : Pc.current s.pc = some c) (hdone : s.StaysWith c done)
    (hserv : Pc.current done ≠ none → ∃ ev evs, s.pc = .serviceSender c ev evs) :
    Change s a (s.senderStep c a done) := by
  unfold senderStep
  cases hc : s.object c with
  | none => exact .deleted hc (Or.inl hcur)
  | some conn =>
    simp only
    cases hround : senderRound conn.excepter conn.outbuffer s.errno a with
    | mk next r =>
      obtain ⟨outbuffer, errno⟩ := r
      cases next with
      | continues =>
        exact .assign conn.inbuffer outbuffer errno s.pc hcur hc
          ⟨fun _ h => h, fun c' hc' => Option.some_inj.mp (hc'.symm.trans hcur)⟩
      | breaks => exact .goto errno done (hdone.leadsTo hcur hc)
      | excepts =>
        exact .close errno done hcur hc hdone fun hne => ⟨hserv hne, by rw [hround]⟩

theorem change_service [Codec] (hpc : s.pc = .recver c ev evs) (hc : s.object c = some conn)
    (buffer : Bytes) : Change s a (s.service c conn buffer ev evs) := by
  have hcur : Pc.current s.pc = some c := by rw [hpc]; rfl
  unfold service
  split
  · exact .goto s.errno .stopped (leadsTo_none rfl (by simp [pendingEvents]))
  · refine .assign _ _ s.errno _ hcur hc ⟨?_, ?_⟩
    · simp [hpc, pendingEvents]
    · simp [Pc.current]
  · refine .assign _ _ s.errno _ hcur hc ⟨?_, ?_⟩
    · split <;> simp [hpc, pendingEvents]
    · split <;> simp [Pc.current]

theorem change_recverStep [Codec] (hpc : s.pc = .recver c ev evs) :
    Change s a (s.recverStep c a ev evs) := by
  have hcur : Pc.current s.pc = some c := by rw [hpc]; rfl
  have htest : s.StaysWith c (.testSend ev evs) :=
    ⟨by simp [hpc, pendingEvents], by simp [Pc.current]⟩
  have hstay : s.StaysWith c s.pc :=
    ⟨fun _ h => h, fun c' hc' => Option.some_inj.mp (hc'.symm.trans hcur)⟩
  have hclose : ∀ {conn}, s.object c = some conn → ∀ e,
      Change s a { s.excepter c conn with errno := e, pc := .testSend ev evs } := fun hc e =>
    .close e _ hcur hc htest fun hne => absurd rfl hne
  unfold recverStep
  cases hc : s.object c with
  | none => exact .deleted hc (Or.inl hcur)
  | some conn =>
    simp only
    split
    · exact change_service hpc hc _
    · split
      · exact hclose hc s.errno
      · exact .goto s.errno _ (htest.leadsTo hcur hc)
    · split
      · exact .goto _ s.pc (hstay.leadsTo hcur hc)
      · exact .goto _ _ (htest.leadsTo hcur hc)
      · exact hclose hc _

theorem change_accepterStep (hpc : s.pc = .accepter ev evs) :
    Change s a (s.accepterStep a ev evs) := by
  have hnone : Pc.current s.pc = none := by rw [hpc]; rfl
  have hstay : s.LeadsTo s.pc := leadsTo_none hnone fun _ _ h => h
  have htest : s.LeadsTo (.testSend ev evs) :=
    leadsTo_none rfl (by simp [hpc, pendingEvents])
  unfold accepterStep
  split
  · split
    · split
      · exact .accept _ hnone
      · exact .goto s.errno .stopped (leadsTo_none rfl (by simp [pendingEvents]))
    · split
      · exact .goto s.errno s.pc hstay
      · exact .goto s.errno _ htest
  · split
    · exact .goto _ s.pc hstay
    · exact .goto _ _ htest

theorem leadsTo_event {pc : Pc} (hmem : ev ∈ pendingEvents s.pc)
    (hs : s.connections ev.sock = some c) (hc : s.object c = some conn)
    (hkind : conn.recver = .recver ∨ conn.sender = true) (hpc : Pc.current pc = some c)
    (hev : ∀ ev ∈ pendingEvents pc, ev ∈ pendingEvents s.pc) : s.LeadsTo pc := by
  refine ⟨fun _ => hev, fun c' hc' => ?_⟩
  obtain rfl := Option.some_inj.mp (hpc.symm.trans hc')
  exact ⟨conn, hc, Or.inr ⟨⟨ev, hmem, hs⟩, hkind⟩⟩

theorem change_next [Codec] (s : TcpServer) (a : Answers) : Change s a (s.next a) := by
  cases hpc : s.pc with
  | idle =>
    simp only [next, hpc]
    exact .goto s.errno _ (leadsTo_none rfl fun h => absurd hpc h)
  | test evs =>
    cases evs with
    | nil =>
      simp only [next, hpc]
      exact .goto s.errno .idle (leadsTo_none rfl (by simp [pendingEvents]))
    | cons ev evs =>
      have htest : Change s a { s with pc := .testSend ev evs } :=
        .goto s.errno _ (leadsTo_none rfl (by simp [hpc, pendingEvents]))
      simp only [next, hpc]
      split
      · split
        · exact htest
        · next c hs =>
          split
          · next hc => exact .deleted hc (Or.inr ⟨_, hs⟩)
          · next conn hc =>
            split
            · next hr =>
              refine .goto s.errno _ (leadsTo_event ?_ hs hc (Or.inl hr) rfl ?_)
              · simp [hpc, pendingEvents]
              · simp [hpc, pendingEvents]
            · exact .goto s.errno _ (leadsTo_none rfl (by simp [hpc, pendingEvents]))
      · exact htest
  | recver c ev evs => simpa [next, hpc] using change_recverStep hpc
  | accepter ev evs => simpa [next, hpc] using change_accepterStep hpc
  | serviceSender c ev evs =>
    simp only [next, hpc]
    refine change_senderStep (by rw [hpc]; rfl) ⟨?_, ?_⟩ fun _ => ⟨ev, evs, hpc⟩
    · simp [hpc, pendingEvents]
    · simp [Pc.current]
  | serviceTail c ev evs =>
    have hcur : Pc.current s.pc = some c := by rw [hpc]; rfl
    simp only [next, hpc]
    split
    · next hc => exact .deleted hc (Or.inl hcur)
    · next conn hc =>
      refine .goto s.errno _ (StaysWith.leadsTo ⟨?_, ?_⟩ hcur hc)
      · simp [hpc, pendingEvents]
      · simp [Pc.current]
  | testSend ev evs =>
    have htest : Change s a { s with pc := .test evs } :=
      .goto s.errno _ (leadsTo_none rfl (by simp +contextual [hpc, pendingEvents]))
    simp only [next, hpc]
    split
    · split
      · exact htest
      · next c hs =>
        split
        · next hc => exact .deleted hc (Or.inr ⟨_, hs⟩)
        · next conn hc =>
          split
          · next hsender =>
            refine .goto s.errno _ (leadsTo_event ?_ hs hc (Or.inr hsender) rfl ?_)
            · simp [hpc, pendingEvents]
            · simp +contextual [hpc, pendingEvents]
          · exact htest
    · exact htest
  | sender c evs =>
    simp only [next, hpc]
    refine change_senderStep (by rw [hpc]; rfl) ⟨?_, ?_⟩ (by simp [Pc.current])
    · simp [hpc, pendingEvents]
    · simp [Pc.current]
  | stopped =>
    simp only [next, hpc]
    exact .goto s.errno s.pc (leadsTo_none (by rw [hpc]; rfl) fun _ _ h => h)

end Changes

/-! ## The table of connections -/

structure TableOk (s : TcpServer) : Prop where
  table : ∀ sock c, s.connections sock = some c → ∃ conn, s.object c = some conn ∧ conn.sock = sock
  fresh : ∀ c conn, s.object c = some conn → c < s.nextConn

namespace TableOk

variable {s : TcpServer}

theorem assign (h : TableOk s) (hc : s.object c = some conn) (inbuffer outbuffer : Bytes)
    (e : Errno) (pc : Pc) :
    TableOk { s with
      object := s.object.assign c { conn with inbuffer := inbuffer, outbuffer := outbuffer }
      errno := e
      pc := pc } := by
  refine ⟨?_, ?_⟩
  · intro sock c' hs
    obtain ⟨conn0, h0, hsock0⟩ := h.table sock c' hs
    by_cases hcc : c' = c
    · subst hcc
      obtain rfl : conn = conn0 := Option.some_inj.mp (hc.symm.trans h0)
      exact ⟨_, Dict.assign_self _ _ _, hsock0⟩
    · exact ⟨conn0, by simpa [hcc] using h0, hsock0⟩
  · intro c' conn0 h0
    by_cases hcc : c' = c
    · exact hcc ▸ h.fresh c conn hc
    · exact h.fresh c' conn0 (by simpa [hcc] using h0)

theorem excepter (h : TableOk s) (hc : s.object c = some conn) : TableOk (s.excepter c conn) := by
  refine ⟨?_, ?_⟩
  · intro sock c' hs
    have hne : sock ≠ conn.sock := fun he => by simp [TcpServer.excepter, he] at hs
    have hs' : s.connections sock = some c' := by simpa [TcpServer.excepter, hne] using hs
    obtain ⟨conn0, h0, hsock0⟩ := h.table sock c' hs'
    have hcc : c' ≠ c := fun he =>
      hne (by rw [← hsock0, Option.some_inj.mp (hc.symm.trans (he ▸ h0))])
    exact ⟨conn0, by simpa [TcpServer.excepter, hcc] using h0, hsock0⟩
  · intro c' conn0 h0
    by_cases hcc : c' = c
    · simp [TcpServer.excepter, hcc] at h0
    · exact h.fresh c' conn0 (by simpa [TcpServer.excepter, hcc] using h0)

theorem ne_nextConn (h : TableOk s) (hc : s.object c = some conn) : c ≠ s.nextConn :=
  Nat.ne_of_lt (h.fresh c conn hc)

theorem addConnection (h : TableOk s) (conn : Connection) : TableOk (s.addConnection conn) := by
  refine ⟨?_, ?_⟩
  · intro sock c hs
    have hold : ∀ c', s.connections sock = some c' →
        ∃ conn0, (s.addConnection conn).object c' = some conn0 ∧ conn0.sock = sock := by
      intro c' hs'
      obtain ⟨conn0, h0, hsock0⟩ := h.table sock c' hs'
      exact ⟨conn0, by simpa [TcpServer.addConnection, h.ne_nextConn h0] using h0, hsock0⟩
    by_cases hsock : sock = conn.sock
    · subst hsock
      cases hs' : s.connections conn.sock with
      | some c' =>
        -- `insert` leaves the connection that is there
        obtain rfl : c' = c := by simpa [TcpServer.addConnection, Dict.insert, hs'] using hs
        exact hold c' hs'
      | none =>
        obtain rfl : s.nextConn = c := by simpa [TcpServer.addConnection, Dict.insert, hs'] using hs
        exact ⟨conn, Dict.assign_self _ _ _, rfl⟩
    · exact hold c (by simpa [TcpServer.addConnection, hsock] using hs)
  · intro c conn0 h0
    by_cases hcc : c = s.nextConn
    · exact hcc ▸ Nat.lt_succ_self _
    · exact Nat.lt_succ_of_lt (h.fresh c conn0 (by simpa [TcpServer.addConnection, hcc] using h0))

theorem init (listenSock : Nat) (errno : Errno) : TableOk (init listenSock errno) := by
  refine TableOk.addConnection ?_ _
  constructor <;> simp [Dict.empty]

theorem change (h : TableOk s) {a : Answers} {s' : TcpServer} (hs : Change s a s') :
    TableOk s' := by
  cases hs with
  | goto e pc _ => exact { h with }
  | assign inbuffer outbuffer e pc _ hc _ => exact h.assign hc inbuffer outbuffer e pc
  | close e pc _ hc _ _ => exact { h.excepter hc with }
  | accept fd _ => exact h.addConnection _
  | deleted _ _ => exact { h with }

theorem of_reachable [Codec] {listenSock : Nat} {errno : Errno}
    (h : (runs listenSock errno).Reachable s) :
    TableOk s := by
  refine System.invariant TableOk ?_ ?_ s h
  · rintro _ rfl
    exact TableOk.init listenSock errno
  · rintro s a s' hs hstep
    cases hstep
    exact hs.change (change_next s a)

end TableOk

end TcpServer

end CallLesson.Calculator
