import CallLesson.Calculator.Lifetime
import CallLesson.Calculator.Sender

/-! # Output of the reactor

    `Loop` tests for `EPOLLIN` where it calls `Sender`, so an event only for writing
    calls nobody, and one that is also for reading calls `Sender` unless `Recver`
    closes the connection before. -/

namespace CallLesson.Calculator

open Text TcpServer

variable {a : Nat → Answers} {c : ConnPtr} {listenSock : Nat}

namespace TcpServer

def states [Codec] (a : Nat → Answers) (s : TcpServer) : Nat → TcpServer
  | 0 => s
  | n + 1 => states (fun i => a (i + 1)) (s.next (a 0)) n

def InSender (c : ConnPtr) : Pc → Prop
  | .serviceSender c' _ _ => c' = c
  | .sender c' _ => c' = c
  | _ => False

def CallsSender [Codec] (a : Nat → Answers) (s : TcpServer) (c : ConnPtr) : Prop :=
  ∃ n, InSender c (states a s n).pc ∧ ∀ m ≤ n, (states a s m).pc ≠ .idle

inductive ReachesSender [Codec] : (Nat → RecvResult) → Bytes → Bytes → Prop where
  | again {r : Nat → RecvResult} {inbuffer outbuffer : Bytes} :
      r 0 = .fails .eagain ∨ r 0 = .fails .ewouldblock → ReachesSender r inbuffer outbuffer
  | eintr {r : Nat → RecvResult} {inbuffer outbuffer : Bytes} :
      r 0 = .fails .eintr → ReachesSender (fun i => r (i + 1)) inbuffer outbuffer →
      ReachesSender r inbuffer outbuffer
  | answers {r : Nat → RecvResult} {inbuffer outbuffer inbuffer' outbuffer' bs : Bytes} {b : UInt8} :
      r 0 = .data b bs →
      calculateLoop (inbuffer ++ (b :: bs).takeWhile (· ≠ 0)) outbuffer =
        .ok (.done, inbuffer', outbuffer') →
      ReachesSender r inbuffer outbuffer
  | returns {r : Nat → RecvResult} {inbuffer outbuffer inbuffer' outbuffer' bs : Bytes} {b : UInt8} :
      r 0 = .data b bs →
      calculateLoop (inbuffer ++ (b :: bs).takeWhile (· ≠ 0)) outbuffer =
        .ok (.returned, inbuffer', outbuffer') →
      ReachesSender (fun i => r (i + 1)) inbuffer' outbuffer' → ReachesSender r inbuffer outbuffer

theorem callsSender_iff [Codec] (a : Nat → Answers) (s : TcpServer) (c : ConnPtr) :
    CallsSender a s c ↔ s.pc ≠ .idle ∧
      (InSender c s.pc ∨ CallsSender (fun i => a (i + 1)) (s.next (a 0)) c) := by
  constructor
  · rintro ⟨n, hin, hidle⟩
    refine ⟨hidle 0 (Nat.zero_le _), ?_⟩
    cases n with
    | zero => exact Or.inl hin
    | succ n => exact Or.inr ⟨n, hin, fun m hm => hidle (m + 1) (by omega)⟩
  · rintro ⟨hpc, hin | ⟨n, hin, hidle⟩⟩
    · refine ⟨0, hin, fun m hm => ?_⟩
      obtain rfl : m = 0 := by omega
      exact hpc
    · refine ⟨n + 1, hin, fun m hm => ?_⟩
      cases m with
      | zero => exact hpc
      | succ m => exact hidle m (by omega)

/-! ## After the event has been handled -/

structure Elsewhere (sock : Nat) (c : ConnPtr) (s : TcpServer) : Prop where
  tables : TableOk s
  own : ∀ conn, s.object c = some conn → conn.sock = sock
  old : c < s.nextConn
  events : ∀ ev ∈ pendingEvents s.pc, ev.sock ≠ sock
  conn : ∀ c', Pc.current s.pc = some c' → c' ≠ c

theorem Elsewhere.change {sock : Nat} {s s' : TcpServer} (h : Elsewhere sock c s) {a : Answers}
    (hidle : s.pc ≠ .idle) (hs : Change s a s') : Elsewhere sock c s' := by
  have htables := h.tables.change hs
  -- the step is about another connection than `c`
  have hstay : ∀ {c1 pc}, Pc.current s.pc = some c1 → s.StaysWith c1 pc →
      ∀ c', Pc.current pc = some c' → c' ≠ c := fun hcur hstay c' hc' =>
    hstay.current c' hc' ▸ h.conn _ hcur
  cases hs with
  | goto e pc hlead =>
    refine { h with tables := htables, conn := fun c' hc' hcc => ?_,
                    events := fun ev hev => h.events ev (hlead.events hidle ev hev) }
    subst hcc
    obtain ⟨conn, hconn, hcur | ⟨⟨ev, hev, hs⟩, _⟩⟩ := hlead.current c' hc'
    · exact h.conn c' hcur rfl
    · obtain ⟨conn', hconn', hsock⟩ := h.tables.table ev.sock c' hs
      exact h.events ev hev (hsock.symm.trans (h.own conn' hconn'))
  | assign inbuffer outbuffer e pc hcur _ hwith =>
    refine { tables := htables, old := h.old, own := fun conn hconn => h.own conn ?_,
             events := fun ev hev => h.events ev (hwith.events ev hev), conn := hstay hcur hwith }
    simpa [(h.conn _ hcur).symm] using hconn
  | close e pc hcur _ hwith _ =>
    refine { tables := htables, old := h.old, own := fun conn hconn => h.own conn ?_,
             events := fun ev hev => h.events ev (hwith.events ev hev), conn := hstay hcur hwith }
    simpa [excepter, (h.conn _ hcur).symm] using hconn
  | accept fd hnone =>
    refine { tables := htables, old := Nat.lt_succ_of_lt h.old, events := h.events, conn := h.conn,
             own := fun conn hconn => h.own conn ?_ }
    simpa [addConnection, Nat.ne_of_lt h.old] using hconn
  | deleted _ _ =>
    exact { tables := htables, old := h.old, own := h.own, conn := by simp [useDeleted, Pc.current],
            events := by simp [useDeleted, pendingEvents] }

theorem Elsewhere.not_callsSender [Codec] {sock : Nat} :
    ∀ {s : TcpServer} {a : Nat → Answers}, Elsewhere sock c s → ¬ CallsSender a s c := by
  rintro s a h ⟨n, hin, hidle⟩
  induction n generalizing s a with
  | zero =>
    change InSender c s.pc at hin
    have hcur : Pc.current s.pc = some c := by
      cases hpc : s.pc <;> simp_all [InSender, Pc.current]
    exact h.conn c hcur rfl
  | succ n ih =>
    have hnext := h.change (hidle 0 (Nat.zero_le _)) (change_next s (a 0))
    exact ih hnext hin fun m hm => hidle (m + 1) (by omega)

/-! ## Connections with output -/

structure Accepted (conn : Connection) : Prop where
  recver : conn.recver = .recver
  sender : conn.sender = true
  excepter : conn.excepter = true

structure Kinds (s : TcpServer) : Prop where
  kinds : ∀ c conn, s.object c = some conn →
    Accepted conn ∨ conn.recver = .accepter ∧ conn.sender = false ∧ conn.outbuffer = []
  current : ∀ c conn, Pc.current s.pc = some c → s.object c = some conn → Accepted conn

namespace Kinds

variable {s : TcpServer}

theorem init (listenSock : Nat) (errno : Errno) : Kinds (init listenSock errno) := by
  refine ⟨fun c conn hc => Or.inr ?_, by simp [TcpServer.init, TcpServer.addConnection, Pc.current]⟩
  by_cases hcc : c = 0
  · obtain rfl : _ = conn := by simpa [TcpServer.init, TcpServer.addConnection, hcc] using hc
    exact ⟨rfl, rfl, rfl⟩
  · simp [TcpServer.init, TcpServer.addConnection, hcc, Dict.empty] at hc

theorem change (h : Kinds s) {a : Answers} {s' : TcpServer} (hs : Change s a s') : Kinds s' := by
  cases hs with
  | goto e pc hlead =>
    refine ⟨h.kinds, fun c conn hc hconn => ?_⟩
    obtain ⟨conn', hconn', hcur | ⟨_, hkind⟩⟩ := hlead.current c hc
    · exact h.current c conn hcur hconn
    · -- `Recver` and `Sender` are only called where they were registered
      obtain rfl := Option.some_inj.mp (hconn.symm.trans hconn')
      refine (h.kinds c conn hconn).resolve_right fun hlisten => ?_
      rcases hkind with hr | hsender
      · simp [hr] at hlisten
      · simp [hsender] at hlisten
  | @assign c conn inbuffer outbuffer e pc hcur hc hstay =>
    have hnew : Accepted { conn with inbuffer := inbuffer, outbuffer := outbuffer } :=
      { h.current c conn hcur hc with }
    refine ⟨fun c' conn' hc' => ?_, fun c' conn' hpc hc' => ?_⟩
    · by_cases hcc : c' = c
      · obtain rfl : _ = conn' := by simpa [hcc] using hc'
        exact Or.inl hnew
      · exact h.kinds c' conn' (by simpa [hcc] using hc')
    · obtain rfl : _ = conn' := by simpa [hstay.current c' hpc] using hc'
      exact hnew
  | @close c conn e pc _ _ hstay _ =>
    refine ⟨fun c' conn' hc' => ?_, fun c' conn' hpc hc' => ?_⟩
    · by_cases hcc : c' = c
      · simp [excepter, hcc] at hc'
      · exact h.kinds c' conn' (by simpa [excepter, hcc] using hc')
    · simp [excepter, hstay.current c' hpc] at hc'
  | accept fd hnone =>
    refine ⟨fun c conn hc => ?_, by simp [addConnection, hnone]⟩
    by_cases hcc : c = s.nextConn
    · obtain rfl : _ = conn := by simpa [addConnection, hcc] using hc
      exact Or.inl ⟨rfl, rfl, rfl⟩
    · exact h.kinds c conn (by simpa [addConnection, hcc] using hc)
  | deleted _ _ => exact ⟨h.kinds, by simp [useDeleted, Pc.current]⟩

theorem of_reachable [Codec] {errno : Errno} (h : (runs listenSock errno).Reachable s) :
    Kinds s := by
  refine System.invariant Kinds ?_ ?_ s h
  · rintro _ rfl
    exact Kinds.init listenSock errno
  · rintro s a s' hs hstep
    cases hstep
    exact hs.change (change_next s a)

end Kinds

/-! ## While the event is handled -/

structure Registered (s : TcpServer) (sock : Nat) (c : ConnPtr) (conn : Connection) : Prop
    extends Accepted conn where
  tables : TableOk s
  entry : s.connections sock = some c
  object : s.object c = some conn
  sock_eq : conn.sock = sock

section Handling

variable {s : TcpServer} {c : ConnPtr} {conn : Connection} {ev : Event} {evs : List Event}

theorem not_callsSender_testSend [Codec] (htables : TableOk s)
    (hown : ∀ conn, s.object c = some conn → conn.sock = ev.sock) (hold : c < s.nextConn)
    (hothers : ∀ ev' ∈ evs, ev'.sock ≠ ev.sock) (hpc : s.pc = .testSend ev evs)
    (hskip : ev.readable = false ∨ s.connections ev.sock = none) : ¬ CallsSender a s c := by
  have hnext : s.next (a 0) = { s with pc := .test evs } := by
    rcases hskip with hr | hn
    · simp [next, hpc, hr]
    · simp [next, hpc, hn]
  have helse : Elsewhere ev.sock c (s.next (a 0)) := by
    rw [hnext]
    exact { tables := { htables with }, own := hown, old := hold, events := hothers,
            conn := by simp [Pc.current] }
  rw [callsSender_iff]
  rintro ⟨_, hin | hcalls⟩
  · simp [hpc, InSender] at hin
  · exact helse.not_callsSender hcalls

section

variable (hreg : Registered s ev.sock c conn)

include hreg

theorem Registered.old : c < s.nextConn :=
  hreg.tables.fresh c conn hreg.object

theorem Registered.goto (e : Errno) (pc : Pc) :
    Registered { s with errno := e, pc := pc } ev.sock c conn :=
  { hreg with tables := { hreg.tables with } }

theorem Registered.assign (inbuffer outbuffer : Bytes) (pc : Pc) :
    Registered
      { s with
        object := s.object.assign c { conn with inbuffer := inbuffer, outbuffer := outbuffer }
        pc := pc }
      ev.sock c { conn with inbuffer := inbuffer, outbuffer := outbuffer } :=
  { hreg with tables := hreg.tables.assign hreg.object inbuffer outbuffer s.errno pc,
              object := Dict.assign_self _ _ _ }

theorem not_callsSender_closed [Codec] (hothers : ∀ ev' ∈ evs, ev'.sock ≠ ev.sock) (e : Errno) :
    ¬ CallsSender a { s.excepter c conn with errno := e, pc := .testSend ev evs } c := by
  refine not_callsSender_testSend ?_ ?_ ?_ hothers rfl (Or.inr ?_)
  · exact { hreg.tables.excepter hreg.object with }
  · intro conn' hc
    simp [excepter] at hc
  · exact hreg.old
  · simp [excepter, hreg.sock_eq]

end

theorem callsSender_testSend [Codec] (a : Nat → Answers) (hreg : Registered s ev.sock c conn)
    (hread : ev.readable = true) (hpc : s.pc = .testSend ev evs) : CallsSender a s c := by
  have hnext : s.next (a 0) = { s with pc := .sender c evs } := by
    simp [next, hpc, hread, hreg.entry, hreg.object, hreg.sender]
  refine (callsSender_iff a s c).mpr ⟨by simp [hpc], Or.inr ((callsSender_iff _ _ c).mpr ?_)⟩
  rw [hnext]
  exact ⟨by simp, Or.inl rfl⟩

theorem callsSender_round [Codec] (a : Nat → Answers) (hreg : Registered s ev.sock c conn)
    (hothers : ∀ ev' ∈ evs, ev'.sock ≠ ev.sock) (hread : ev.readable = true)
    (hpc : s.pc = .recver c ev evs) :
    CallsSender a s c ↔
      match (a 0).recv with
      | .eof => False
      | .fails .eagain => True
      | .fails .ewouldblock => True
      | .fails .eintr => CallsSender (fun i => a (i + 1)) { s with errno := .eintr } c
      | .fails (.other _) => False
      | .data b bs =>
          match calculateLoop (conn.inbuffer ++ (b :: bs).takeWhile (· ≠ 0)) conn.outbuffer with
          | .error _ => False
          | .ok (.done, _, _) => True
          | .ok (.returned, inbuffer, outbuffer) =>
              CallsSender (fun i => a (i + 1))
                { s with
                  object := s.object.assign c
                    { conn with inbuffer := inbuffer, outbuffer := outbuffer } } c := by
  have hnext : s.next (a 0) = s.recverStep c (a 0) ev evs := by simp [next, hpc]
  rw [callsSender_iff, hnext, recverStep, hreg.object]
  have hpc' : s.pc ≠ .idle := by simp [hpc]
  have hin : ¬ InSender c s.pc := by simp [hpc, InSender]
  simp only [hpc', hin, ne_eq, not_false_eq_true, true_and, false_or]
  cases (a 0).recv with
  | eof =>
    -- at the second test the connection is not in the table any more
    simp only [hreg.excepter, if_true, iff_false]
    exact not_callsSender_closed hreg hothers s.errno
  | fails e =>
    cases e with
    | eagain =>
      simp only [onErrno, iff_true]
      exact callsSender_testSend _ (hreg.goto .eagain (.testSend ev evs)) hread rfl
    | ewouldblock =>
      simp only [onErrno, iff_true]
      exact callsSender_testSend _ (hreg.goto .ewouldblock (.testSend ev evs)) hread rfl
    | eintr => simp only [onErrno]
    | other code =>
      simp only [onErrno, hreg.excepter, if_true, iff_false]
      exact not_callsSender_closed hreg hothers (.other code)
  | data b bs =>
    simp only [service]
    cases calculateLoop (conn.inbuffer ++ (b :: bs).takeWhile (· ≠ 0)) conn.outbuffer with
    | error e =>
      -- an exception of `stoi` ends the process
      have helse : Elsewhere ev.sock c { s with pc := .stopped } :=
        { tables := { hreg.tables with }, old := hreg.old, events := by simp [pendingEvents],
          conn := by simp [Pc.current],
          own := fun conn' h => by
            obtain rfl := Option.some_inj.mp (hreg.object.symm.trans h)
            exact hreg.sock_eq }
      simp only [iff_false]
      exact helse.not_callsSender
    | ok r =>
      obtain ⟨ended, inbuffer, outbuffer⟩ := r
      cases ended with
      | returned =>
        -- `calculate` returned at a request it could not read, and `Recver` reads on
        simp only [hpc]
      | done =>
        simp only [hreg.sender, if_true, iff_true]
        exact (callsSender_iff _ _ c).mpr ⟨by simp, Or.inl rfl⟩

theorem reaches_of_callsSender [Codec] :
    ∀ (n : Nat) {a : Nat → Answers} {s : TcpServer} {conn : Connection},
      Registered s ev.sock c conn → (∀ ev' ∈ evs, ev'.sock ≠ ev.sock) → ev.readable = true →
      s.pc = .recver c ev evs → InSender c (states a s n).pc →
      (∀ m ≤ n, (states a s m).pc ≠ .idle) →
      ReachesSender (fun i => (a i).recv) conn.inbuffer conn.outbuffer := by
  -- on the number of steps to `Sender`; each round of `Recver` is one
  intro n
  induction n with
  | zero =>
    intro a s conn _ _ _ hpc hin _
    change InSender c s.pc at hin
    simp [hpc, InSender] at hin
  | succ n ih =>
    intro a s conn hreg hothers hread hpc hin hidle
    have hround := (callsSender_round a hreg hothers hread hpc).mp ⟨n + 1, hin, hidle⟩
    have hidle' : ∀ m ≤ n, (states (fun i => a (i + 1)) (s.next (a 0)) m).pc ≠ .idle :=
      fun m hm => hidle (m + 1) (by omega)
    cases hr : (a 0).recv with
    | eof => simp [hr] at hround
    | fails e =>
      cases e with
      | eagain => exact .again (Or.inl hr)
      | ewouldblock => exact .again (Or.inr hr)
      | other code => simp [hr] at hround
      | eintr =>
        have hnext : s.next (a 0) = { s with errno := .eintr } := by
          simp [next, hpc, recverStep, hreg.object, hr, onErrno]
        rw [hnext] at hidle'
        refine .eintr hr (ih (hreg.goto .eintr s.pc) hothers hread hpc ?_ hidle')
        rw [← hnext]
        exact hin
    | data b bs =>
      cases hcalc : calculateLoop (conn.inbuffer ++ (b :: bs).takeWhile (· ≠ 0)) conn.outbuffer with
      | error e => simp only [hr, hcalc] at hround
      | ok r =>
        obtain ⟨ended, inbuffer, outbuffer⟩ := r
        cases ended with
        | done => exact .answers hr hcalc
        | returned =>
          have hnext : s.next (a 0) =
              { s with
                object := s.object.assign c { conn with inbuffer := inbuffer, outbuffer := outbuffer }
                pc := .recver c ev evs } := by
            simp only [next, hpc, recverStep, hreg.object, hr, service, hcalc]
          rw [hnext] at hidle'
          refine .returns hr hcalc (ih (hreg.assign inbuffer outbuffer _) hothers hread rfl ?_ hidle')
          rw [← hnext]
          exact hin

theorem callsSender_of_reaches [Codec] {r : Nat → RecvResult} {inbuffer outbuffer : Bytes}
    (h : ReachesSender r inbuffer outbuffer) :
    ∀ {a : Nat → Answers} {s : TcpServer} {conn : Connection},
      Registered s ev.sock c conn → (∀ ev' ∈ evs, ev'.sock ≠ ev.sock) → ev.readable = true →
      s.pc = .recver c ev evs → conn.inbuffer = inbuffer → conn.outbuffer = outbuffer →
      (∀ i, (a i).recv = r i) → CallsSender a s c := by
  induction h with
  | again hr =>
    intro a s conn hreg hothers hread hpc _ _ hrecv
    rw [callsSender_round a hreg hothers hread hpc, hrecv 0]
    rcases hr with hr | hr <;> simp [hr]
  | eintr hr _ ih =>
    intro a s conn hreg hothers hread hpc hin hout hrecv
    rw [callsSender_round a hreg hothers hread hpc, hrecv 0, hr]
    exact ih (hreg.goto .eintr s.pc) hothers hread hpc hin hout fun i => hrecv (i + 1)
  | answers hr hcalc =>
    rintro a s conn hreg hothers hread hpc rfl rfl hrecv
    rw [callsSender_round a hreg hothers hread hpc, hrecv 0, hr]
    simp only [hcalc]
  | returns hr hcalc _ ih =>
    rintro a s conn hreg hothers hread hpc rfl rfl hrecv
    rw [callsSender_round a hreg hothers hread hpc, hrecv 0, hr]
    simp only [hcalc]
    exact ih (hreg.assign _ _ s.pc) hothers hread hpc rfl rfl fun i => hrecv (i + 1)

theorem callsSender_recver_iff [Codec] (hreg : Registered s ev.sock c conn)
    (hothers : ∀ ev' ∈ evs, ev'.sock ≠ ev.sock) (hread : ev.readable = true)
    (hpc : s.pc = .recver c ev evs) :
    CallsSender a s c ↔ ReachesSender (fun i => (a i).recv) conn.inbuffer conn.outbuffer := by
  constructor
  · rintro ⟨n, hin, hidle⟩
    exact reaches_of_callsSender n hreg hothers hread hpc hin hidle
  · intro h
    exact callsSender_of_reaches h hreg hothers hread hpc rfl rfl fun _ => rfl

end Handling

structure Handles (s : TcpServer) (ev : Event) (c : ConnPtr) (conn : Connection) : Prop where
  pc : ∃ evs, s.pc = .test (ev :: evs) ∧ ∀ ev' ∈ evs, ev'.sock ≠ ev.sock
  entry : s.connections ev.sock = some c
  object : s.object c = some conn
  output : conn.outbuffer ≠ []

theorem Handles.registered [Codec] {s : TcpServer} {ev : Event} {conn : Connection} {errno : Errno}
    (h : Handles s ev c conn) (hreach : (runs listenSock errno).Reachable s) :
    Registered s ev.sock c conn := by
  have htables := TableOk.of_reachable hreach
  have haccepted : Accepted conn :=
    ((Kinds.of_reachable hreach).kinds c conn h.object).resolve_right fun hk => h.output hk.2.2
  obtain ⟨conn', hobj, hsock⟩ := htables.table ev.sock c h.entry
  obtain rfl := Option.some_inj.mp (h.object.symm.trans hobj)
  exact { haccepted with tables := htables, entry := h.entry, object := h.object, sock_eq := hsock }

theorem Handles.calls_iff [Codec] {s : TcpServer} {ev : Event} {conn : Connection} {errno : Errno}
    (h : Handles s ev c conn) (hreach : (runs listenSock errno).Reachable s) (a : Nat → Answers) :
    CallsSender a s c ↔
      ev.readable = true ∧
        ReachesSender (fun i => (a (i + 1)).recv) conn.inbuffer conn.outbuffer := by
  have hreg := h.registered hreach
  obtain ⟨evs, hpc, hothers⟩ := h.pc
  have hfirst : CallsSender a s c ↔ CallsSender (fun i => a (i + 1)) (s.next (a 0)) c := by
    rw [callsSender_iff]
    simp [hpc, InSender]
  rw [hfirst]
  cases hread : ev.readable with
  | true =>
    have hnext : s.next (a 0) = { s with pc := .recver c ev evs } := by
      simp [next, hpc, hread, h.entry, h.object, hreg.recver]
    rw [hnext, callsSender_recver_iff (hreg.goto s.errno (.recver c ev evs)) hothers hread rfl]
    simp only [true_and]
  | false =>
    have hnext : s.next (a 0) = { s with pc := .testSend ev evs } := by
      simp [next, hpc, hread]
    rw [hnext]
    simp only [Bool.false_eq_true, false_and, iff_false]
    have hown : ∀ conn', s.object c = some conn' → conn'.sock = ev.sock := fun conn' hobj => by
      obtain rfl := Option.some_inj.mp (hreg.object.symm.trans hobj)
      exact hreg.sock_eq
    exact not_callsSender_testSend { hreg.tables with } hown hreg.old hothers rfl (Or.inl hread)

/-- **Output of the reactor**: with `send` accepting bytes or failing with EAGAIN or
    EINTR, `Sender` delivers the bytes and returns iff a call fails with EAGAIN before
    all are accepted, or `errno` was EAGAIN or EWOULDBLOCK before and stays so; and for
    an event with `EPOLLOUT`, `Loop` calls `Sender` iff the event is also for reading
    and `Recver` does not close the connection before. -/
theorem output_delivered_iff [Codec] (listenSock : Nat) (errno : Errno) :
    (∀ (a : Nat → Answers) (outbuffer : Bytes), (∀ i, Healthy (a i)) →
      (Delivers a outbuffer errno ↔ StopsInTime a outbuffer.length errno)) ∧
    ∀ (s : TcpServer) (ev : Event) (c : ConnPtr) (conn : Connection) (a : Nat → Answers),
      (runs listenSock errno).Reachable s → Handles s ev c conn → ev.pollout = true →
      (CallsSender a s c ↔
        ev.readable = true ∧
          ReachesSender (fun i => (a (i + 1)).recv) conn.inbuffer conn.outbuffer) := by
  constructor
  · intro a outbuffer ha
    exact delivers_iff ha
  · intro s ev c conn a hreach h _
    exact h.calls_iff hreach a

def answerWaits (ev : Event) : List Answers :=
  connects ++ asks ++ [nothing, nothing, nothing, nothing, nothing, nothing,
    { nothing with events := [ev] }]

def waiting : Connection := ⟨4, [], [51, 13, 10, 48, 32, 53, 13, 10], .recver, true, true⟩

attribute [local instance] Codec.myself

theorem answerWaits_handles (pollin : Bool) : ∃ s : TcpServer, (runs 3 (.other 0)).Reachable s ∧
      Handles s ⟨4, pollin, true, false, false⟩ 1 waiting := by
  have hrun : (System.run (fun s a => some (next s a)) (init 3 (.other 0))
      (answerWaits ⟨4, pollin, true, false, false⟩)).map
        (fun s => (s.pc, s.connections 4, s.object 1)) =
          some (.test [⟨4, pollin, true, false, false⟩], some 1, some waiting) := by
    cases pollin <;> decide +kernel
  obtain ⟨s, hrun, hs⟩ := Option.map_eq_some_iff.mp hrun
  obtain ⟨hpc, hentry, hobj⟩ : s.pc = _ ∧ s.connections 4 = _ ∧ s.object 1 = _ := by simpa using hs
  exact ⟨s, ⟨_, _, rfl, System.steps_of_run hrun⟩, ⟨[], hpc, by simp⟩, hentry, hobj, by decide⟩

/-- One byte is accepted, then `send` fails with EAGAIN; and an event is for reading
    and for writing, but there is nothing to read. -/
theorem output_delivered_again :
    Delivers (fun i => { nothing with send := if i = 0 then .accepts 1 else .fails .eagain }) [51, 13]
      (.other 0) ∧
    ∃ s : TcpServer, (runs 3 (.other 0)).Reachable s ∧
      Handles s ⟨4, true, true, false, false⟩ 1 waiting ∧ CallsSender (fun _ => nothing) s 1 := by
  have hiff := output_delivered_iff 3 (.other 0)
  refine ⟨(hiff.1 _ _ fun i => ⟨rfl, ?_⟩).mpr (Or.inl ⟨1, by decide, rfl⟩), ?_⟩
  · by_cases hi : i = 0
    · simp [hi]
    · simp [hi]
  · obtain ⟨s, hreach, hhandles⟩ := answerWaits_handles true
    exact ⟨s, hreach, hhandles,
      (hiff.2 _ _ _ _ _ hreach hhandles rfl).mpr ⟨rfl, .again (Or.inl rfl)⟩⟩

/-- All bytes are accepted and `Excepter` closes the connection; and an event only for
    writing is ignored. -/
theorem output_not_delivered :
    (∃ a outbuffer errno, (∀ i, Healthy (a i)) ∧ ¬ Delivers a outbuffer errno) ∧
    ∃ (s : TcpServer) (a : Nat → Answers), (runs 3 (.other 0)).Reachable s ∧
      Handles s ⟨4, false, true, false, false⟩ 1 waiting ∧ ¬ CallsSender a s 1 := by
  constructor
  · have ha : ∀ i : Nat, Healthy ((fun _ => { nothing with send := .accepts 1 }) i) := fun _ =>
      ⟨rfl, le_refl 1⟩
    refine ⟨_, [51], .other 0, ha, fun h => ?_⟩
    rcases (delivers_iff ha).mp h with ⟨i, _, hi⟩ | ⟨he, _⟩
    · cases hi
    · simp at he
  · obtain ⟨s, hreach, hhandles⟩ := answerWaits_handles false
    refine ⟨s, fun _ => nothing, hreach, hhandles, fun h => ?_⟩
    have hread := ((hhandles.calls_iff hreach _).mp h).1
    cases hread

end TcpServer

end CallLesson.Calculator
