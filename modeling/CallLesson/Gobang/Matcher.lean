import CallLesson.Gobang.Presence

/-! # The matcher

    `match_queue` and `matcher` of `game/source/matcher.hpp`: three queues of
    waiting users, one for each range of scores, and a thread for each queue
    that takes two users from it and gives them a room. A function of a queue
    holds its mutex throughout and is one step. -/

namespace CallLesson.Gobang

open Function

/-! ## Messages in the hall -/

inductive HallCall where
  | add
  | del
  deriving DecidableEq

def wsmsgGameHall [JsonCpp] (req : Option Json) : Except Failure (Option HallCall × Json) :=
  match req with
  | none => .ok (none,
      (Json.set ∅ "result" (.bool false)).set "reason" (.string "请求信息解析失败"))
  | some req =>
      let answer (optype : String) : Json :=
        (Json.set ∅ "result" (.bool true)).set "optype" (.string optype)
      let unknown : Json := ((Json.set ∅ "result" (.bool false)).set
        "reason" (.string "请求类型未知")).set "optype" (.string "unknow")
      if req.field "optype" = .null then .ok (none, unknown)
      else do
        let optype ← (req.field "optype").asString
        if optype = "match_start" then return (some .add, answer "match_start")
        else if optype = "match_stop" then return (some .del, answer "match_stop")
        else return (none, unknown)

/-! ## Queues and threads -/

inductive Tier where
  | normal
  | high
  | super
  deriving DecidableEq

def Tier.ofScore (score : Int) : Tier :=
  if score < 2000 then .normal
  else if 2000 ≤ score ∧ score < 3000 then .high
  else .super

inductive Pc where
  /-- Before `mq.size() < 2`. -/
  | size
  /-- Before `mq.wait()`, after the queue was found too short. -/
  | wait
  /-- Blocked in `mq.wait()`. -/
  | blocked
  /-- Before the first `mq.pop`. -/
  | pop1
  /-- Before the second `mq.pop`. -/
  | pop2 (uid1 : Nat)
  /-- Before `get_conn_from_hall(uid1)`. -/
  | conn1 (uid1 uid2 : Nat)
  /-- Before `get_conn_from_hall(uid2)`. -/
  | conn2 (uid1 uid2 : Nat) (conn1 : WsConn)
  /-- Before `create_room` and its `is_in_game_hall(uid1)`. -/
  | hall1 (uid1 uid2 : Nat) (conn1 conn2 : WsConn)
  /-- Before `is_in_game_hall(uid2)` in `create_room`. -/
  | hall2 (uid1 uid2 : Nat) (conn1 conn2 : WsConn)
  /-- Before `create_room` takes `_mutex`. -/
  | create (uid1 uid2 : Nat) (conn1 conn2 : WsConn)
  /-- Before the two `send`s. -/
  | reply (conn1 conn2 : WsConn)
  /-- Before `select_by_id` in `add` of the first of these users; the others
      are added after it. -/
  | select (uids : List Nat)
  /-- Before `push` in `add` of a user. -/
  | push (uid : Nat) (tier : Tier) (rest : List Nat)
  deriving DecidableEq

def Pc.held : Pc → List Nat
  | .size | .wait | .blocked | .pop1 | .reply _ _ => []
  | .pop2 uid1 => [uid1]
  | .conn1 uid1 uid2 => [uid1, uid2]
  | .conn2 uid1 uid2 _ => [uid1, uid2]
  | .hall1 uid1 uid2 _ _ => [uid1, uid2]
  | .hall2 uid1 uid2 _ _ => [uid1, uid2]
  | .create uid1 uid2 _ _ => [uid1, uid2]
  | .select uids => uids
  | .push uid _ rest => uid :: rest

def Pc.notified : Pc → Pc
  | .blocked => .size
  | pc => pc

inductive Call where
  /-- `add` before `select_by_id`. -/
  | add (uid : Nat)
  /-- `add` before `push`. -/
  | push (uid : Nat) (tier : Tier)
  /-- `del` before `select_by_id`. -/
  | del (uid : Nat)
  /-- `del` before `remove`. -/
  | remove (uid : Nat) (tier : Tier)
  deriving DecidableEq

structure Matcher where
  server : Server
  /-- The scores in the user table; `select_by_id` fails for the others. -/
  scores : Nat → Option Int
  queue : Tier → List Nat
  /-- The threads, one for each queue. -/
  pc : Tier → Pc
  /-- The calls that have not returned. -/
  calls : List Call
  /-- The users for whom `add` has been called from outside, in order. -/
  started : List Nat
  /-- The users for whom `del` has returned true and `add` has not been called
      since. -/
  left : Nat → Bool
  /-- The rooms that the threads have created, in order. -/
  created : List Room

inductive MatcherStep where
  | joinHall (uid : Nat) (conn : WsConn)
  | exitHall (uid : Nat)
  /-- The row of a user in the user table changes. -/
  | score (uid : Nat) (value : Option Int)
  /-- A user in the hall sends a message. -/
  | message (uid : Nat) (req : Option Json)
  /-- The next step of an `add` or a `del` from outside. -/
  | call (c : Call)
  /-- A spurious wakeup. -/
  | wake (tier : Tier)
  /-- The next step of a thread. -/
  | thread (tier : Tier)
  deriving DecidableEq

namespace Matcher

def start (server : Server) (scores : Nat → Option Int) : Matcher where
  server := server
  scores := scores
  queue := fun _ => []
  pc := fun _ => .size
  calls := []
  started := []
  left := fun _ => false
  created := []

def setPc (s : Matcher) (tier : Tier) (pc : Pc) : Matcher :=
  { s with pc := update s.pc tier pc }

def push (s : Matcher) (tier : Tier) (uid : Nat) : Matcher :=
  { s with
    queue := update s.queue tier (s.queue tier ++ [uid])
    pc := update s.pc tier (s.pc tier).notified }

def popped (s : Matcher) (tier : Tier) (rest : List Nat) : Matcher :=
  { s with queue := update s.queue tier rest }

def remove (s : Matcher) (tier : Tier) (uid : Nat) : Matcher :=
  { s with queue := update s.queue tier ((s.queue tier).filter (· ≠ uid)) }

def handleMatch [JsonCpp] (s : Matcher) (tier : Tier) : Option Matcher :=
  match s.pc tier with
  | .size => some (s.setPc tier (if (s.queue tier).length < 2 then .wait else .pop1))
  | .wait => some (s.setPc tier .blocked)
  | .blocked => none
  | .pop1 =>
      match s.queue tier with
      | [] => some (s.setPc tier .size)
      | uid1 :: rest => some ((s.popped tier rest).setPc tier (.pop2 uid1))
  | .pop2 uid1 =>
      match s.queue tier with
      | [] => some (s.setPc tier (.select [uid1]))
      | uid2 :: rest => some ((s.popped tier rest).setPc tier (.conn1 uid1 uid2))
  | .conn1 uid1 uid2 =>
      match s.server.hub.online.getConnFromHall uid1 with
      | none => some (s.setPc tier (.select [uid2]))
      | some conn1 => some (s.setPc tier (.conn2 uid1 uid2 conn1))
  | .conn2 uid1 uid2 conn1 =>
      match s.server.hub.online.getConnFromHall uid2 with
      | none => some (s.setPc tier (.select [uid1]))
      | some conn2 => some (s.setPc tier (.hall1 uid1 uid2 conn1 conn2))
  | .hall1 uid1 uid2 conn1 conn2 =>
      some (s.setPc tier (if s.server.hub.online.isInGameHall uid1 = false then .select [uid1, uid2]
        else .hall2 uid1 uid2 conn1 conn2))
  | .hall2 uid1 uid2 conn1 conn2 =>
      some (s.setPc tier (if s.server.hub.online.isInGameHall uid2 = false then .select [uid1, uid2]
        else .create uid1 uid2 conn1 conn2))
  | .create uid1 uid2 conn1 conn2 =>
      let (rp, rm) := s.server.rm.addRoom uid1 uid2
      some ({ s with
        server := { s.server with rm := rm }
        created := s.created ++ [rp] }.setPc tier (.reply conn1 conn2))
  | .reply conn1 conn2 =>
      let resp : Json := (Json.set ∅ "optype" (.string "match_success")).set "result" (.bool true)
      some ({ s with server := (s.server.wsResp conn1 resp).wsResp conn2 resp }.setPc tier .size)
  | .select [] => some (s.setPc tier .size)
  | .select (uid :: rest) =>
      match s.scores uid with
      | none => some (s.setPc tier (.select rest))
      | some score => some (s.setPc tier (.push uid (Tier.ofScore score) rest))
  | .push uid tier' rest => some ((s.setPc tier (.select rest)).push tier' uid)

def goesOn (s : Matcher) (c c' : Call) : Matcher := { s with calls := s.calls.erase c ++ [c'] }

def returns (s : Matcher) (c : Call) : Matcher := { s with calls := s.calls.erase c }

def callStep (s : Matcher) (c : Call) : Matcher :=
  match c with
  | .add uid =>
      match s.scores uid with
      | none => s.returns c
      | some score => s.goesOn c (.push uid (Tier.ofScore score))
  | .push uid tier => (s.returns c).push tier uid
  | .del uid =>
      match s.scores uid with
      | none => s.returns c
      | some score => s.goesOn c (.remove uid (Tier.ofScore score))
  | .remove uid tier =>
      { (s.returns c).remove tier uid with left := update s.left uid true }

def message (s : Matcher) (uid : Nat) : Option HallCall → Matcher
  | none => s
  | some .add => { s with
      calls := s.calls ++ [.add uid]
      started := s.started ++ [uid]
      left := update s.left uid false }
  | some .del => { s with calls := s.calls ++ [.del uid] }

def next [JsonCpp] (s : Matcher) : MatcherStep → Option Matcher
  | .joinHall uid conn => some { s with server := { s.server with
      hub := { s.server.hub with online := s.server.hub.online.joinGameHall uid conn } } }
  | .exitHall uid => some { s with server := { s.server with
      hub := { s.server.hub with online := s.server.hub.online.exitGameHall uid } } }
  | .score uid value => some { s with scores := update s.scores uid value }
  | .message uid req =>
      match wsmsgGameHall req with
      | .error _ => none
      | .ok (c, _) => some (s.message uid c)
  | .call c => if c ∈ s.calls then some (s.callStep c) else none
  | .wake tier => some (s.setPc tier (s.pc tier).notified)
  | .thread tier => s.handleMatch tier

def runs [JsonCpp] (server : Server) (scores : Nat → Option Int) : System Matcher MatcherStep :=
  System.ofNext (start server scores) next

end Matcher

end CallLesson.Gobang
