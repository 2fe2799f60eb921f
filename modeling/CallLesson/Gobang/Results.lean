import CallLesson.Gobang.WinCheck

/-! # Recorded results

    When a room calls `user_table::win` and `lose`. The answer to a request
    starts as a copy of the request, and `handle_request` reads the winner off
    the answer; `handle_chess` and `handle_request` never look at `_statu`. -/

namespace CallLesson.Gobang

open Exec Room Dict

/-! ## Refused requests -/

variable {req : Json} {online : Online}

namespace Room

theorem fiveAt_of_checkWin {r : Room} {row col : Int} {color : Stone}
    (hcell : r.board.cell? row col = some color) (hwin : r.checkWin row col color ≠ 0) :
    r.checkWin row col color = r.player color ∧ r.board.FiveAt row col color := by
  obtain ⟨hfound, hnone⟩ := checkWin_of_fiveAt hcell
  by_cases hfive : r.board.FiveAt row col color
  · exact ⟨hfound hfive, hfive⟩
  · exact absurd (hnone hfive) hwin

/-- The step to `r'` puts a stone that makes five in a row for `w`. -/
def Completed (r r' : Room) (w : Nat) : Prop :=
  ∃ row col color, r.board.cell? row col = some .free ∧ color ≠ .free ∧
    r'.board = r.board.put row col color ∧ w = r.player color ∧ r'.board.FiveAt row col color

def OpponentAbsent (r : Room) (online : Online) (w : Nat) : Prop :=
  (w = r.blackId ∧ online.isInGameRoom r.whiteId = false) ∨
  (w = r.whiteId ∧ online.isInGameRoom r.blackId = false)

def BothIn (r : Room) (online : Online) : Prop :=
  online.isInGameRoom r.whiteId = true ∧ online.isInGameRoom r.blackId = true

theorem colorOf_ne_free (r : Room) (uid : Nat) : r.colorOf uid ≠ .free := by
  unfold colorOf
  split <;> decide

theorem not_completed {r r' : Room} (h : r'.board = r.board) (w : Nat) : ¬ Completed r r' w := by
  rintro ⟨row, col, color, hfree, hcolor, hput, _⟩
  obtain ⟨i, j, hi, hj, hcell⟩ := Board.cell?_eq_some hfree
  have hstone : r'.board i j = color := by
    rw [hput]
    exact if_pos ⟨hi, hj⟩
  rw [h, hcell] at hstone
  exact hcolor hstone.symm

theorem BothIn.not_absent {r : Room} (h : r.BothIn online) (w : Nat) :
    ¬ OpponentAbsent r online w := by
  rintro (⟨_, habsent⟩ | ⟨_, habsent⟩)
  · rw [h.1] at habsent
    cases habsent
  · rw [h.2] at habsent
    cases habsent

section

variable [JsonCpp]

/-- The request is a `put_chess` of this room, for this cell. -/
structure AsksFor (r : Room) (req : Json) (row col : Int) : Prop where
  room : (req.field "room_id").asUInt64 = .ok r.roomId
  optype : (req.field "optype").asString = .ok "put_chess"
  row : (req.field "row").asInt = .ok row
  col : (req.field "col").asInt = .ok col

/-- A move to a cell that is taken, with a member `winner`: the answer starts
    as a copy of it and keeps that member. -/
def NamesWinner (r : Room) (online : Online) (req : Json) : Prop :=
  ∃ row col uid stone w, r.AsksFor req row col ∧ (req.field "uid").asUInt64 = .ok uid ∧
    r.BothIn online ∧ r.board.cell? row col = some stone ∧ stone ≠ .free ∧
    (req.field "winner").asUInt64 = .ok w ∧ w ≠ 0

variable [LawfulJsonCpp]

@[simp] theorem field_forfeit_result (req : Json) (w : Nat) :
    (forfeit req w).field "result" = .bool true := by
  simp [forfeit]

@[simp] theorem field_forfeit_winner (req : Json) (w : Nat) :
    (forfeit req w).field "winner" = .int w := by
  simp [forfeit]

@[simp] theorem field_taken_winner (req : Json) :
    (taken req).field "winner" = req.field "winner" := by
  simp [taken]

@[simp] theorem field_placed_result (req : Json) (w : Nat) :
    (placed req w).field "result" = .bool true := by
  simp [placed]

@[simp] theorem field_placed_winner (req : Json) (w : Nat) :
    (placed req w).field "winner" = .int w := by
  simp [placed]

theorem Chess.winner {r r' : Room} {resp : Json} {w : Nat} (h : Chess r online req resp r')
    (hroom : (req.field "room_id").asUInt64 = .ok r.roomId)
    (hop : (req.field "optype").asString = .ok "put_chess")
    (hreq : ¬ r.NamesWinner online req) (hw : (resp.field "winner").asUInt64 = .ok w)
    (hne : w ≠ 0) :
    resp.field "result" = .bool true ∧ (Completed r r' w ∨ OpponentAbsent r online w) := by
  cases h with
  | whiteAbsent hwhite =>
    rw [field_forfeit_winner] at hw
    exact ⟨field_forfeit_result _ _, Or.inr (Or.inl ⟨Value.eq_of_asUInt64 hw, hwhite⟩)⟩
  | blackAbsent _ hblack =>
    rw [field_forfeit_winner] at hw
    exact ⟨field_forfeit_result _ _, Or.inr (Or.inr ⟨Value.eq_of_asUInt64 hw, hblack⟩)⟩
  -- the answer has the winner that the request had, which the hypothesis excludes
  | taken row col uid stone hwhite hblack hrow hcol huid hcell hstone =>
    rw [field_taken_winner] at hw
    exact absurd ⟨row, col, uid, stone, w, ⟨hroom, hop, hrow, hcol⟩, huid, ⟨hwhite, hblack⟩,
      hcell, hstone, hw, hne⟩ hreq
  | placed row col uid _ _ _ _ _ hcell =>
    rw [field_placed_winner] at hw
    have hwin := Value.eq_of_asUInt64 hw
    rw [hwin] at hne
    -- the winner comes from `check_win`, at the cell of this stone
    obtain ⟨hplayer, hfive⟩ := fiveAt_of_checkWin (Board.cell?_put_self _ hcell) hne
    refine ⟨field_placed_result _ _, Or.inl ⟨row, col, r.colorOf uid, hcell,
      r.colorOf_ne_free uid, rfl, ?_, hfive⟩⟩
    rw [hwin]
    exact hplayer

theorem Chess.refused {r r' : Room} {resp : Json} (h : Chess r online req resp r')
    (hres : resp.field "result" = .bool false) : r' = r := by
  cases h with
  | whiteAbsent _ => rfl
  | blackAbsent _ _ => rfl
  | taken row col uid stone _ _ _ _ _ _ _ => rfl
  | placed row col uid _ _ _ _ _ _ =>
    rw [field_placed_result] at hres
    cases hres

theorem respond_taken {r : Room} {hub : Hub} {row col : Int} {uid w : Nat} {stone : Stone}
    (hasks : r.AsksFor req row col) (huid : (req.field "uid").asUInt64 = .ok uid)
    (hboth : r.BothIn hub.online) (hcell : r.board.cell? row col = some stone)
    (hstone : stone ≠ .free) (hw : (req.field "winner").asUInt64 = .ok w) (hne : w ≠ 0) :
    r.respond req hub =
      .ok ((taken req).touch "winner", { r with statu := .gameOver }, r.record w hub) := by
  have hchess : r.handleChess hub.online req = .ok (taken req, r) := by
    unfold handleChess
    rw [hasks.row, hasks.col, huid]
    dsimp only [bind, Except.bind]
    rw [if_neg (by simp [hboth.1]), if_neg (by simp [hboth.2]), hcell]
    cases stone with
    | free => exact absurd rfl hstone
    | white => rfl
    | black => rfl
  unfold respond
  rw [hasks.room, hasks.optype]
  dsimp only [bind, Except.bind]
  rw [if_neg (not_not.mpr rfl), if_pos rfl, hchess]
  dsimp only
  rw [field_taken_winner, hw]
  exact if_pos hne

/-- **A refused request changes nothing**, and only a five in a row or an
    absent opponent wins, unless it is refused for its cell and names a
    winner. -/
theorem refused_request_changes_nothing_iff (r : Room) (req : Json) (hub : Hub) :
    (∀ resp r' hub', r.respond req hub = .ok (resp, r', hub') →
      r.handleRequest req hub = .ok (r', r'.broadcast resp hub') ∧
      (resp.field "result" = .bool false →
        r'.board = r.board ∧ r'.statu = r.statu ∧ r'.playerCount = r.playerCount ∧ hub' = hub) ∧
      ∃ calls, hub'.out = hub.out ++ calls ∧
        ∀ w, Effect.win w ∈ calls → Completed r r' w ∨ OpponentAbsent r hub.online w) ↔
    ¬ r.NamesWinner hub.online req := by
  constructor
  · -- the answer to such a request records its winner
    rintro h ⟨row, col, uid, stone, w, hasks, huid, hboth, hcell, hstone, hw, hne⟩
    obtain ⟨_, _, calls, hcalls, hcause⟩ :=
      h _ _ _ (respond_taken hasks huid hboth hcell hstone hw hne)
    have hout : (r.record w hub).out = hub.out ++ [.win w, .lose (if w = r.whiteId then r.blackId
        else r.whiteId)] := List.append_assoc _ _ _
    have hwin : Effect.win w ∈ calls := by
      rw [← List.append_cancel_left (hout.symm.trans hcalls)]
      exact List.mem_cons_self
    rcases hcause w hwin with hfive | habsent
    · exact not_completed rfl w hfive
    · exact hboth.not_absent w habsent
  · intro hreq resp r' hub' h
    have hhandle : r.handleRequest req hub = .ok (r', r'.broadcast resp hub') := by
      rw [handleRequest, h]
      rfl
    refine ⟨hhandle, ?_⟩
    have hnone : ∃ calls, hub.out = hub.out ++ calls ∧
        ∀ w, Effect.win w ∈ calls → Completed r r' w ∨ OpponentAbsent r hub.online w :=
      ⟨[], (List.append_nil _).symm, fun w hw => by cases hw⟩
    cases respond_answer h with
    | refused optype reason _ => exact ⟨fun _ => ⟨rfl, rfl, rfl, rfl⟩, hnone⟩
    | chat resp _ _ => exact ⟨fun _ => ⟨rfl, rfl, rfl, rfl⟩, hnone⟩
    | chess resp1 r1 winnerId hroom hop hchess hwinner =>
      by_cases hzero : winnerId = 0
      · -- nobody has won
        rw [ended, recorded, if_pos hzero, if_pos hzero] at *
        refine ⟨fun hres => ?_, hnone⟩
        rw [LawfulJsonCpp.field_touch] at hres
        rw [hchess.refused hres]
        exact ⟨rfl, rfl, rfl, rfl⟩
      · obtain ⟨hres, hcause⟩ := hchess.winner hroom hop hreq hwinner hzero
        rw [ended, recorded, if_neg hzero, if_neg hzero]
        refine ⟨fun hfalse => ?_, _, List.append_assoc _ _ _, fun w hw => ?_⟩
        · rw [LawfulJsonCpp.field_touch, hres] at hfalse
          cases hfalse
        · have hw' : w = winnerId := by simpa using hw
          rw [hw']
          exact hcause

end

section

attribute [local instance] JsonCpp.standard JsonCpp.lawful_standard

def started : Room × Hub :=
  ({ new 1 7 8 with board := Board.empty.put 7 7 .white },
   ⟨⟨empty, (insert empty 7 70).insert 8 80⟩, []⟩)

/-- Black moves to the cell that is taken. -/
theorem refused_request_taken_cell :
    ∃ resp r' hub', started.1.respond (chessInfo 1 8 7 7) started.2 = .ok (resp, r', hub') ∧
      resp.field "result" = .bool false ∧ hub' = started.2 := by
  have hsome : ∃ x, started.1.respond (chessInfo 1 8 7 7) started.2 = .ok x ∧
      x.1.field "result" = .bool false :=
    ⟨_, rfl, by decide +kernel⟩
  obtain ⟨⟨resp, r', hub'⟩, hresp, hres⟩ := hsome
  have hreq : ¬ started.1.NamesWinner started.2.online (chessInfo 1 8 7 7) := by
    rintro ⟨_, _, _, _, w, _, _, _, _, _, hw, hne⟩
    have hnull : ((chessInfo 1 8 7 7).field "winner").asUInt64 = .ok 0 := by decide +kernel
    rw [hnull] at hw
    cases hw
    exact hne rfl
  obtain ⟨_, hunchanged, _⟩ := (refused_request_changes_nothing_iff started.1 (chessInfo 1 8 7 7)
    started.2).mpr hreq resp r' hub' hresp
  exact ⟨resp, r', hub', hresp, hres, (hunchanged hres).2.2.2⟩

/-- The same move with a winner field: it is refused, and the user it names has
    won. -/
theorem refused_request_wins :
    ∃ resp r' hub', started.1.respond ((chessInfo 1 8 7 7).set "winner" (.int 42)) started.2 =
        .ok (resp, r', hub') ∧
      resp.field "result" = .bool false ∧ r'.statu ≠ started.1.statu ∧
      Effect.win 42 ∈ hub'.out ∧ Effect.lose 7 ∈ hub'.out :=
  ⟨_, _, _, rfl, by decide +kernel, by decide +kernel, by decide +kernel, by decide +kernel⟩

end

end Room

/-! ## One result per game -/

structure Play where
  room : Room
  hub : Hub

inductive RoomStep where
  | request (req : Json)
  | exit (uid : Nat)
  | join (uid : Nat) (conn : WsConn)
  | leave (uid : Nat)

section

variable [JsonCpp]

namespace RoomStep

def exec : RoomStep → EStateM Failure Play Unit
  | .request req => fun s =>
      match s.room.handleRequest req s.hub with
      | .ok (room, hub) => .ok () ⟨room, hub⟩
      | .error e => .error e s
  | .exit uid => modify fun s =>
      let (room, hub) := s.room.handleExit uid s.hub
      ⟨room, hub⟩
  | .join uid conn => modify fun s =>
      { s with hub := { s.hub with online := s.hub.online.joinGameRoom uid conn } }
  | .leave uid => modify fun s =>
      { s with hub := { s.hub with online := s.hub.online.exitGameRoom uid } }

/-- The request is no move of this room, or the game is not over. -/
def inTime (s : Play) : RoomStep → Bool
  | .request req => decide ((req.field "optype").asString = .ok "put_chess" →
      (req.field "room_id").asUInt64 = .ok s.room.roomId → s.room.statu = .gameStart)
  | _ => true

end RoomStep

def Play.start (roomId whiteId blackId : Nat) (online : Online) : Play :=
  ⟨new roomId whiteId blackId, ⟨online, []⟩⟩

def afterPlay (s : Play) (steps : List RoomStep) : Play :=
  stateAfter (runAll RoomStep.exec steps) s

end

namespace Hub

def wins (hub : Hub) : Nat := hub.out.countP fun e => match e with
  | .win _ => true
  | _ => false

def loses (hub : Hub) : Nat := hub.out.countP fun e => match e with
  | .lose _ => true
  | _ => false

theorem tally_sendRoom (hub : Hub) (uid : Nat) (body : Json) :
    (hub.sendRoom uid body).wins = hub.wins ∧ (hub.sendRoom uid body).loses = hub.loses := by
  unfold sendRoom
  split
  · simp [wins, loses, emit]
  · exact ⟨rfl, rfl⟩

end Hub

namespace Room

theorem tally_broadcast (r : Room) (rsp : Json) (hub : Hub) :
    (r.broadcast rsp hub).wins = hub.wins ∧ (r.broadcast rsp hub).loses = hub.loses := by
  obtain ⟨hw, hl⟩ := hub.tally_sendRoom r.whiteId rsp
  obtain ⟨hw', hl'⟩ := (hub.sendRoom r.whiteId rsp).tally_sendRoom r.blackId rsp
  exact ⟨hw'.trans hw, hl'.trans hl⟩

theorem tally_record (r : Room) (winnerId : Nat) (hub : Hub) :
    (r.record winnerId hub).wins = hub.wins + 1 ∧
      (r.record winnerId hub).loses = hub.loses + 1 := by
  simp [record, Hub.wins, Hub.loses, Hub.emit]

theorem Chess.statu_eq [JsonCpp] {r r' : Room} {resp : Json} (h : Chess r online req resp r') :
    r'.statu = r.statu := by
  cases h <;> rfl

end Room

structure Once (room : Room) (hub : Hub) : Prop where
  fresh : room.statu = .gameStart → hub.wins = 0 ∧ hub.loses = 0
  wins : hub.wins ≤ 1
  loses : hub.loses ≤ 1

variable {room : Room}

section

variable {hub : Hub} (h : Once room hub)

include h

variable {room' : Room}

theorem Once.of_eq {hub' : Hub} (hstatu : room'.statu = room.statu)
    (hwins : hub'.wins = hub.wins) (hloses : hub'.loses = hub.loses) : Once room' hub' := by
  refine ⟨fun hstart => ?_, ?_, ?_⟩
  · rw [hwins, hloses]
    exact h.fresh (hstatu.symm.trans hstart)
  · rw [hwins]
    exact h.wins
  · rw [hloses]
    exact h.loses

theorem Once.record (hstart : room.statu = .gameStart) (r : Room) (winnerId : Nat)
    (hover : room'.statu = .gameOver) : Once room' (r.record winnerId hub) := by
  obtain ⟨hwins, hloses⟩ := h.fresh hstart
  obtain ⟨hwins', hloses'⟩ := r.tally_record winnerId hub
  refine ⟨fun hstart' => ?_, ?_, ?_⟩
  · rw [hover] at hstart'
    cases hstart'
  · rw [hwins', hwins]
  · rw [hloses', hloses]

theorem Once.broadcast (r : Room) (rsp : Json) : Once room (r.broadcast rsp hub) :=
  h.of_eq rfl (r.tally_broadcast rsp hub).1 (r.tally_broadcast rsp hub).2

variable [JsonCpp]

theorem Once.handleExit (uid : Nat) :
    Once (room.handleExit uid hub).1 (room.handleExit uid hub).2 := by
  unfold Room.handleExit
  split
  · next hstart => exact (h.record hstart room _ rfl).broadcast room _
  · exact h.of_eq rfl rfl rfl

theorem Once.handleRequest {hub' : Hub} (htime : (req.field "optype").asString = .ok "put_chess" →
      (req.field "room_id").asUInt64 = .ok room.roomId → room.statu = .gameStart)
    (hreq : room.handleRequest req hub = .ok (room', hub')) : Once room' hub' := by
  obtain ⟨⟨resp, r1, hub1⟩, hresp, heq⟩ := except_bind_ok hreq
  cases heq
  apply Once.broadcast
  cases respond_answer hresp with
  | refused optype reason _ => exact h
  | chat resp _ _ => exact h
  | chess resp1 r2 winnerId hroom hop hchess _ =>
    have hstart : room.statu = .gameStart := htime hop hroom
    by_cases hzero : winnerId = 0
    · rw [ended, recorded, if_pos hzero, if_pos hzero]
      exact h.of_eq hchess.statu_eq rfl rfl
    · rw [ended, recorded, if_neg hzero, if_neg hzero]
      exact h.record hstart r2 winnerId rfl

end

section

variable [JsonCpp]

theorem step_once (step : RoomStep) (s : Play) (htime : step.inTime s = true)
    (h : Once s.room s.hub) :
    wp step.exec (fun _ s' => Once s'.room s'.hub) (fun s' => Once s'.room s'.hub) s := by
  cases step with
  | request req =>
    unfold wp RoomStep.exec
    dsimp only
    cases hreq : s.room.handleRequest req s.hub with
    | error e => exact h
    | ok x => exact h.handleRequest (of_decide_eq_true htime) hreq
  -- `handle_exit` looks at the status itself
  | exit uid =>
    rw [RoomStep.exec, wp_modify]
    exact h.handleExit uid
  | join uid conn =>
    rw [RoomStep.exec, wp_modify]
    exact h.of_eq rfl rfl rfl
  | leave uid =>
    rw [RoomStep.exec, wp_modify]
    exact h.of_eq rfl rfl rfl

/-- **A result is recorded at most once**, in every run that handles no move
    of the room after its game is over. -/
theorem result_recorded_once (roomId whiteId blackId : Nat) (online : Online)
    (steps : List RoomStep)
    (hsteps : Along RoomStep.exec (fun s step => step.inTime s = true) steps
      (Play.start roomId whiteId blackId online)) :
    (afterPlay (Play.start roomId whiteId blackId online) steps).hub.wins ≤ 1 ∧
      (afterPlay (Play.start roomId whiteId blackId online) steps).hub.loses ≤ 1 := by
  have hstart : Once (Play.start roomId whiteId blackId online).room
      (Play.start roomId whiteId blackId online).hub :=
    ⟨fun _ => ⟨rfl, rfl⟩, Nat.zero_le _, Nat.zero_le _⟩
  have hrun := wp_runAll_along step_once steps _ hsteps hstart
  have honce := stateAfter_of_wp hrun
  exact ⟨honce.wins, honce.loses⟩

end

attribute [local instance] JsonCpp.standard

/-- White leaves, black's move wins by forfeit, and black's exit and a move of
    another room record nothing more. -/
theorem result_recorded_once_forfeit : (afterPlay (Play.start 1 7 8 ⟨empty, empty⟩)
      [.join 7 70, .join 8 80, .leave 7, .request (chessInfo 1 8 0 0), .exit 8,
        .request (chessInfo 2 8 0 0)]).hub.wins ≤ 1 ∧
    (afterPlay (Play.start 1 7 8 ⟨empty, empty⟩)
      [.join 7 70, .join 8 80, .leave 7, .request (chessInfo 1 8 0 0), .exit 8,
        .request (chessInfo 2 8 0 0)]).hub.loses ≤ 1 :=
  result_recorded_once 1 7 8 ⟨empty, empty⟩ _ (by decide +kernel)

/-- White leaves, and black sends two moves. -/
theorem result_recorded_twice : (afterPlay (Play.start 1 7 8 ⟨empty, empty⟩)
      [.join 7 70, .join 8 80, .leave 7, .request (chessInfo 1 8 0 0),
        .request (chessInfo 1 8 0 0)]).hub.wins = 2 := by
  decide +kernel

end CallLesson.Gobang
