import CallLesson.Calculator.Server

/-! # Deleted connections

    `Excepter` deletes a connection several calls deep. After the `Sender` that
    `Loop` called, and at the end of `Recver`, nothing touches the connection
    again. After the `Sender` that `calculate` called, `calculate` does. -/

namespace CallLesson.Calculator

open Text

namespace TcpServer

structure Alive (s : TcpServer) : Prop where
  current : ∀ c, Pc.current s.pc = some c → ∃ conn, s.object c = some conn
  unused : s.usedDeleted = false

def keepsOpen (s : TcpServer) (a : Answers) : Bool :=
  match s.pc with
  | .serviceSender c _ _ =>
      (s.object c).all fun conn =>
        0 < (sendCall conn.outbuffer s.errno a).1 ||
          (sendCall conn.outbuffer s.errno a).2 ∈ [Errno.eagain, Errno.ewouldblock, Errno.eintr]
  | _ => true

theorem not_excepts {excepter : Bool} {outbuffer : Bytes} {errno : Errno} {a : Answers}
    (h : (senderRound excepter outbuffer errno a).1 = .excepts) :
    ¬ 0 < (sendCall outbuffer errno a).1 ∧
      (sendCall outbuffer errno a).2 ∉ [Errno.eagain, Errno.ewouldblock, Errno.eintr] := by
  unfold senderRound at h
  by_cases hpos : 0 < (sendCall outbuffer errno a).1
  · simp only [hpos, if_true] at h
    split at h <;> cases h
  · refine ⟨hpos, ?_⟩
    simp only [hpos, if_false] at h
    cases he : (sendCall outbuffer errno a).2 with
    | other code => simp
    | eagain => simp [he, onErrno] at h
    | ewouldblock => simp [he, onErrno] at h
    | eintr => simp [he, onErrno] at h

theorem Alive.change {s : TcpServer} (h : Alive s) (htable : TableOk s) {a : Answers}
    (hopen : s.keepsOpen a = true) {s' : TcpServer} (hs : Change s a s') : Alive s' := by
  cases hs with
  | goto e pc hlead =>
    refine { h with current := fun c hc => ?_ }
    obtain ⟨conn, hconn, _⟩ := hlead.current c hc
    exact ⟨conn, hconn⟩
  | assign inbuffer outbuffer e pc _ _ hstay =>
    refine { h with current := fun c' hc' => ?_ }
    obtain rfl := hstay.current c' hc'
    exact ⟨_, Dict.assign_self _ _ _⟩
  | @close c conn e pc _ hc _ hclosed =>
    -- any other `Excepter` is the last that is done with the connection
    refine { h with current := fun c' hc' => ?_ }
    obtain ⟨⟨ev, evs, hpc⟩, hexcepts⟩ := hclosed fun hnone => by simp [hnone] at hc'
    obtain ⟨hpos, herrno⟩ := not_excepts hexcepts
    simp only [keepsOpen, hpc, hc, Option.all_some, Bool.or_eq_true, decide_eq_true_eq] at hopen
    exact absurd hopen (not_or.mpr ⟨hpos, herrno⟩)
  | accept fd hnone => exact { h with current := fun c hc => by simp [addConnection, hnone] at hc }
  | @deleted c hc hwhere =>
    rcases hwhere with hcur | ⟨sock, hs⟩
    · obtain ⟨conn, hconn⟩ := h.current c hcur
      simp [hc] at hconn
    · obtain ⟨conn, hconn, _⟩ := htable.table sock c hs
      simp [hc] at hconn

/-- **Deleted connections**: as long as no `Sender` that `calculate` called closes
    the connection, no deleted connection is read or written. -/
theorem deleted_connection_not_used [Codec] {listenSock : Nat} {errno : Errno} {s : TcpServer}
    (h : ((runs listenSock errno).restrict fun s a => s.keepsOpen a = true).Reachable s) :
    s.usedDeleted = false := by
  refine (System.invariant (fun s => TableOk s ∧ Alive s) ?_ ?_ s h).2.unused
  · rintro _ rfl
    exact ⟨TableOk.init listenSock errno, by simp [init, addConnection, Pc.current], rfl⟩
  · rintro s a s' ⟨htable, halive⟩ ⟨hopen, hstep⟩
    cases hstep
    have hchange := change_next s a
    exact ⟨htable.change hchange, halive.change htable hopen hchange⟩

def nothing : Answers := ⟨[], .fails .eagain, .fails .eagain, none, .fails .eagain⟩

def pollin (sock : Nat) : Event := ⟨sock, true, false, false, false⟩

def connects : List Answers :=
  [{ nothing with events := [pollin 3] }, nothing, { nothing with accept := .sock 4 true }, nothing,
    nothing, nothing]

def asks : List Answers :=
  [{ nothing with events := [pollin 4] }, nothing,
    { nothing with recv := .data 53 [13, 10, 50, 32, 43, 32, 51, 13, 10] }]

attribute [local instance] Codec.myself

/-- The answer is sent, and the client closes the connection. -/
theorem deleted_connection_not_used_closed :
    ∃ s : TcpServer, ((runs 3 (.other 0)).restrict fun s a => s.keepsOpen a = true).Reachable s ∧
      s.connections 4 = none ∧ s.object 1 = none ∧ s.usedDeleted = false := by
  obtain ⟨s, hrun, hclosed⟩ := Option.map_eq_some_iff.mp
    (show (System.run (System.gate (fun s a => s.keepsOpen a = true) fun s a => some (next s a))
        (init 3 (.other 0)) (connects ++ asks ++ [{ nothing with send := .accepts 8 }, nothing,
          nothing, { nothing with recv := .eof }, nothing, nothing])).map
      (fun s => (s.connections 4, s.object 1)) = some (none, none) by decide +kernel)
  have hreach : ((runs 3 (.other 0)).restrict fun s a => s.keepsOpen a = true).Reachable s :=
    ⟨_, _, rfl, System.restrict_steps_of_run hrun⟩
  exact ⟨s, hreach, congrArg Prod.fst hclosed, congrArg Prod.snd hclosed,
    deleted_connection_not_used hreach⟩

/-- The client is gone when the answer is sent, and `calculate` goes on to look at
    `outbuffer`. -/
theorem deleted_connection_used :
    ∃ s : TcpServer, (runs 3 (.other 0)).Reachable s ∧ s.usedDeleted = true := by
  obtain ⟨s, hrun, hused⟩ := Option.map_eq_some_iff.mp
    (show (System.run (fun s a => some (next s a)) (init 3 (.other 0))
        (connects ++ asks ++ [{ nothing with send := .fails (.other 32) }, nothing])).map usedDeleted =
      some true by decide +kernel)
  exact ⟨s, ⟨_, _, rfl, System.steps_of_run hrun⟩, hused⟩

end TcpServer

end CallLesson.Calculator
