import CallLesson.Framework.Dict
import CallLesson.Framework.Exec
import CallLesson.Gobang.Json

/-! # Rooms

    `online_game` of `game/source/online.hpp` and `room` of
    `game/source/room.hpp`. The functions of a room read the online users and
    write to the user table and to connections; the `Hub` holds the one and
    logs the other. -/

namespace CallLesson.Gobang

/-! ## Online users -/

abbrev WsConn := Nat

structure Online where
  /-- `_hall_user`. -/
  hallUser : Dict Nat WsConn
  /-- `_room_user`. -/
  roomUser : Dict Nat WsConn

namespace Online

def joinGameHall (o : Online) (uid : Nat) (conn : WsConn) : Online :=
  { o with hallUser := o.hallUser.insert uid conn }

def joinGameRoom (o : Online) (uid : Nat) (conn : WsConn) : Online :=
  { o with roomUser := o.roomUser.insert uid conn }

def exitGameHall (o : Online) (uid : Nat) : Online :=
  { o with hallUser := o.hallUser.erase uid }

def exitGameRoom (o : Online) (uid : Nat) : Online :=
  { o with roomUser := o.roomUser.erase uid }

def isInGameHall (o : Online) (uid : Nat) : Bool := (o.hallUser uid).isSome

def isInGameRoom (o : Online) (uid : Nat) : Bool := (o.roomUser uid).isSome

def getConnFromHall (o : Online) (uid : Nat) : Option WsConn := o.hallUser uid

def getConnFromRoom (o : Online) (uid : Nat) : Option WsConn := o.roomUser uid

end Online

inductive Effect where
  /-- `user_table::win`. -/
  | win (uid : Nat)
  /-- `user_table::lose`. -/
  | lose (uid : Nat)
  /-- `send` on a connection. -/
  | send (conn : WsConn) (body : Json)
  deriving DecidableEq

structure Hub where
  online : Online
  out : List Effect

namespace Hub

def emit (hub : Hub) (e : Effect) : Hub := { hub with out := hub.out ++ [e] }

def sendRoom (hub : Hub) (uid : Nat) (body : Json) : Hub :=
  match hub.online.getConnFromRoom uid with
  | some conn => hub.emit (.send conn body)
  | none => hub

end Hub

/-! ## The board -/

inductive Stone where
  | free
  | white
  | black
  deriving DecidableEq

abbrev Board := Fin 15 → Fin 15 → Stone

namespace Board

def empty : Board := fun _ _ => .free

def cell? (b : Board) (row col : Int) : Option Stone :=
  if h : (0 ≤ row ∧ row < 15) ∧ (0 ≤ col ∧ col < 15) then
    some (b ⟨row.toNat, by omega⟩ ⟨col.toNat, by omega⟩)
  else none

def put (b : Board) (row col : Int) (stone : Stone) : Board :=
  fun i j => if (i : Int) = row ∧ (j : Int) = col then stone else b i j

def run (b : Board) (color : Stone) (rowOff colOff : Int) : Nat → Int → Int → Nat
  | 0, _, _ => 0
  | fuel + 1, row, col =>
      if b.cell? row col = some color then
        run b color rowOff colOff fuel (row + rowOff) (col + colOff) + 1
      else 0

def five (b : Board) (row col rowOff colOff : Int) (color : Stone) : Bool :=
  let count := 1 + b.run color rowOff colOff 15 (row + rowOff) (col + colOff) +
    b.run color (-rowOff) (-colOff) 15 (row - rowOff) (col - colOff)
  decide (5 ≤ count)

theorem cell?_eq_some {b : Board} {row col : Int} {stone : Stone}
    (h : b.cell? row col = some stone) :
    ∃ i j : Fin 15, (i : Int) = row ∧ (j : Int) = col ∧ b i j = stone := by
  unfold cell? at h
  split at h
  · next hrange =>
    refine ⟨⟨row.toNat, by omega⟩, ⟨col.toNat, by omega⟩, ?_, ?_, Option.some.inj h⟩
    · exact Int.toNat_of_nonneg hrange.1.1
    · exact Int.toNat_of_nonneg hrange.2.1
  · cases h

end Board

/-! ## The room -/

inductive RoomStatu where
  | gameStart
  | gameOver
  deriving DecidableEq

structure Room where
  roomId : Nat
  statu : RoomStatu
  playerCount : Int
  whiteId : Nat
  blackId : Nat
  board : Board

namespace Room

def new (roomId whiteId blackId : Nat) : Room where
  roomId := roomId
  statu := .gameStart
  playerCount := 2
  whiteId := whiteId
  blackId := blackId
  board := Board.empty

def player (r : Room) (color : Stone) : Nat := if color = .white then r.whiteId else r.blackId

def checkWin (r : Room) (row col : Int) (color : Stone) : Nat :=
  if r.board.five row col 0 1 color || r.board.five row col 1 0 color ||
      r.board.five row col (-1) 1 color || r.board.five row col (-1) (-1) color then
    r.player color
  else 0

def broadcast (r : Room) (rsp : Json) (hub : Hub) : Hub :=
  (hub.sendRoom r.whiteId rsp).sendRoom r.blackId rsp

def record (r : Room) (winnerId : Nat) (hub : Hub) : Hub :=
  let loserId := if winnerId = r.whiteId then r.blackId else r.whiteId
  (hub.emit (.win winnerId)).emit (.lose loserId)

section

variable [JsonCpp]

def forfeit (req : Json) (winnerId : Nat) : Json :=
  ((req.set "result" (.bool true)).set "reason" (.string "运气真好！对方掉线，不战而胜！")).set
    "winner" (.int winnerId)

def taken (req : Json) : Json :=
  (req.set "result" (.bool false)).set "reason" (.string "当前位置已经有了其他棋子！")

def placed (req : Json) (winnerId : Nat) : Json :=
  let resp := if winnerId ≠ 0 then req.set "reason" (.string "五星连珠，战无敌！") else req
  (resp.set "result" (.bool true)).set "winner" (.int winnerId)

def handleChess (r : Room) (online : Online) (req : Json) : Except Failure (Json × Room) := do
  let chessRow ← (req.field "row").asInt
  let chessCol ← (req.field "col").asInt
  let curUid ← (req.field "uid").asUInt64
  if online.isInGameRoom r.whiteId = false then
    return (forfeit req r.blackId, r)
  else if online.isInGameRoom r.blackId = false then
    return (forfeit req r.whiteId, r)
  else
    match r.board.cell? chessRow chessCol with
    | none => throw .badAccess
    | some .free =>
        let curColor := if curUid = r.whiteId then Stone.white else .black
        let r := { r with board := r.board.put chessRow chessCol curColor }
        return (placed req (r.checkWin chessRow chessCol curColor), r)
    | some _ => return (taken req, r)

def handleChat (req : Json) : Except Failure Json := do
  let msg ← (req.field "message").asString
  if "垃圾".toList <:+: msg.toList then
    return (req.set "result" (.bool false)).set "reason" (.string "消息中包含敏感词，不能发送！")
  else
    return req.set "result" (.bool true)

def handleExit (r : Room) (uid : Nat) (hub : Hub) : Room × Hub :=
  if r.statu = .gameStart then
    let winnerId := if uid = r.whiteId then r.blackId else r.whiteId
    let resp : Json := ∅
    let resp := resp.set "optype" (.string "put_chess")
    let resp := resp.set "result" (.bool true)
    let resp := resp.set "reason" (.string "对方掉线，不战而胜！")
    let resp := resp.set "room_id" (.int r.roomId)
    let resp := resp.set "uid" (.int uid)
    let resp := resp.set "row" (.int (-1))
    let resp := resp.set "col" (.int (-1))
    let resp := resp.set "winner" (.int winnerId)
    let hub := r.broadcast resp (r.record winnerId hub)
    ({ r with statu := .gameOver, playerCount := r.playerCount - 1 }, hub)
  else ({ r with playerCount := r.playerCount - 1 }, hub)

def refusal (optype reason : String) : Json :=
  ((Json.set ∅ "optype" (.string optype)).set "result" (.bool false)).set "reason" (.string reason)

def respond (r : Room) (req : Json) (hub : Hub) : Except Failure (Json × Room × Hub) := do
  let roomId ← (req.field "room_id").asUInt64
  let optype ← (req.field "optype").asString
  if roomId ≠ r.roomId then
    return (refusal optype "房间号不匹配！", r, hub)
  else if optype = "put_chess" then do
    let (resp, r) ← r.handleChess hub.online req
    let winnerId ← (resp.field "winner").asUInt64
    let resp := resp.touch "winner"
    if winnerId ≠ 0 then
      return (resp, { r with statu := .gameOver }, r.record winnerId hub)
    else
      return (resp, r, hub)
  else if optype = "chat" then do
    let resp ← handleChat req
    return (resp, r, hub)
  else
    return (refusal optype "未知请求类型", r, hub)

def handleRequest (r : Room) (req : Json) (hub : Hub) : Except Failure (Room × Hub) := do
  let (resp, r, hub) ← r.respond req hub
  return (r, r.broadcast resp hub)

def chessInfo (roomId uid : Nat) (row col : Int) : Json :=
  ((((Json.set ∅ "optype" (.string "put_chess")).set "room_id" (.int roomId)).set
    "uid" (.int uid)).set "row" (.int row)).set "col" (.int col)

end

/-! ## What the handlers do -/

theorem broadcast_online (r : Room) (rsp : Json) (hub : Hub) :
    (r.broadcast rsp hub).online = hub.online := by
  have hsend : ∀ (hub : Hub) (uid : Nat), (hub.sendRoom uid rsp).online = hub.online := by
    intro hub uid
    unfold Hub.sendRoom
    split <;> rfl
  exact (hsend _ _).trans (hsend _ _)

def colorOf (r : Room) (uid : Nat) : Stone := if uid = r.whiteId then .white else .black

def move (r : Room) (row col : Int) (uid : Nat) : Room :=
  { r with board := r.board.put row col (r.colorOf uid) }

def ended (r : Room) (winnerId : Nat) : Room :=
  if winnerId = 0 then r else { r with statu := .gameOver }

def recorded (r : Room) (winnerId : Nat) (hub : Hub) : Hub :=
  if winnerId = 0 then hub else r.record winnerId hub

variable [JsonCpp]

inductive Chess (r : Room) (online : Online) (req : Json) : Json → Room → Prop where
  | whiteAbsent : online.isInGameRoom r.whiteId = false →
      Chess r online req (forfeit req r.blackId) r
  | blackAbsent : online.isInGameRoom r.whiteId = true → online.isInGameRoom r.blackId = false →
      Chess r online req (forfeit req r.whiteId) r
  | taken (row col uid stone) : online.isInGameRoom r.whiteId = true →
      online.isInGameRoom r.blackId = true →
      (req.field "row").asInt = .ok row → (req.field "col").asInt = .ok col →
      (req.field "uid").asUInt64 = .ok uid → r.board.cell? row col = some stone → stone ≠ .free →
      Chess r online req (taken req) r
  | placed (row col uid) : online.isInGameRoom r.whiteId = true →
      online.isInGameRoom r.blackId = true →
      (req.field "row").asInt = .ok row → (req.field "col").asInt = .ok col →
      (req.field "uid").asUInt64 = .ok uid → r.board.cell? row col = some .free →
      Chess r online req (placed req ((r.move row col uid).checkWin row col (r.colorOf uid)))
        (r.move row col uid)

theorem handleChess_chess {r r' : Room} {online : Online} {req resp : Json}
    (h : r.handleChess online req = .ok (resp, r')) : Chess r online req resp r' := by
  -- the members are read, and may be of another type, before anything is checked
  obtain ⟨row, hrow, h⟩ := Exec.except_bind_ok h
  obtain ⟨col, hcol, h⟩ := Exec.except_bind_ok h
  obtain ⟨uid, huid, h⟩ := Exec.except_bind_ok h
  by_cases hwhite : online.isInGameRoom r.whiteId = false
  · rw [if_pos hwhite] at h
    cases h
    exact .whiteAbsent hwhite
  rw [if_neg hwhite] at h
  rw [Bool.not_eq_false] at hwhite
  by_cases hblack : online.isInGameRoom r.blackId = false
  · rw [if_pos hblack] at h
    cases h
    exact .blackAbsent hwhite hblack
  rw [if_neg hblack] at h
  rw [Bool.not_eq_false] at hblack
  cases hcell : r.board.cell? row col with
  | none => rw [hcell] at h; cases h
  | some stone =>
    rw [hcell] at h
    cases stone with
    | free =>
      cases h
      exact .placed row col uid hwhite hblack hrow hcol huid hcell
    | white =>
      cases h
      exact .taken row col uid _ hwhite hblack hrow hcol huid hcell (by decide)
    | black =>
      cases h
      exact .taken row col uid _ hwhite hblack hrow hcol huid hcell (by decide)

theorem handleChat_optype [LawfulJsonCpp] {req resp : Json} (h : handleChat req = .ok resp) :
    resp.field "optype" = req.field "optype" := by
  obtain ⟨msg, _, h⟩ := Exec.except_bind_ok h
  split at h
  · cases h
    simp
  · cases h
    simp

inductive Answer (r : Room) (req : Json) (hub : Hub) : Json → Room → Hub → Prop where
  | refused (optype reason) : (req.field "optype").asString = .ok optype →
      Answer r req hub (refusal optype reason) r hub
  | chess (resp r' winnerId) : (req.field "room_id").asUInt64 = .ok r.roomId →
      (req.field "optype").asString = .ok "put_chess" → Chess r hub.online req resp r' →
      (resp.field "winner").asUInt64 = .ok winnerId →
      Answer r req hub (resp.touch "winner") (r'.ended winnerId) (r'.recorded winnerId hub)
  | chat (resp) : (req.field "optype").asString = .ok "chat" → handleChat req = .ok resp →
      Answer r req hub resp r hub

theorem respond_answer {r r' : Room} {req resp : Json} {hub hub' : Hub}
    (h : r.respond req hub = .ok (resp, r', hub')) : Answer r req hub resp r' hub' := by
  obtain ⟨roomId, hroom, h⟩ := Exec.except_bind_ok h
  obtain ⟨optype, hop, h⟩ := Exec.except_bind_ok h
  by_cases hid : roomId ≠ r.roomId
  · rw [if_pos hid] at h
    cases h
    exact .refused optype _ hop
  rw [if_neg hid] at h
  rw [not_not.mp hid] at hroom
  by_cases hput : optype = "put_chess"
  · rw [if_pos hput] at h
    rw [hput] at hop
    obtain ⟨⟨resp1, r1⟩, hchess, h⟩ := Exec.except_bind_ok h
    obtain ⟨winnerId, hwinner, h⟩ := Exec.except_bind_ok h
    have hanswer : Answer r req hub (resp1.touch "winner") (r1.ended winnerId)
        (r1.recorded winnerId hub) :=
      .chess resp1 r1 winnerId hroom hop (handleChess_chess hchess) hwinner
    dsimp only at h
    by_cases hzero : winnerId = 0
    · rw [if_neg (not_not.mpr hzero)] at h
      cases h
      rw [ended, recorded, if_pos hzero, if_pos hzero] at hanswer
      exact hanswer
    · rw [if_pos hzero] at h
      cases h
      rw [ended, recorded, if_neg hzero, if_neg hzero] at hanswer
      exact hanswer
  rw [if_neg hput] at h
  by_cases hchat : optype = "chat"
  · rw [if_pos hchat] at h
    rw [hchat] at hop
    obtain ⟨resp1, hresp, h⟩ := Exec.except_bind_ok h
    cases h
    exact .chat _ hop hresp
  · rw [if_neg hchat] at h
    cases h
    exact .refused optype _ hop

end Room

end CallLesson.Gobang
