import CallLesson.Gobang.Presence

/-! # The page of a game

    The script of `game/source/wwwroot/game_room.html`, and two such pages
    playing in one room of the server. A page sends its moves without waiting
    for an answer, and changes its board and its turn flag `is_me` only when
    the server's answer to somebody's move arrives. Messages on a connection
    keep their order and may take any time. -/

namespace CallLesson.Gobang

/-! ## The page -/

abbrev Marks := Fin 15 → Fin 15 → Nat

namespace Marks

def zero : Marks := fun _ _ => 0

def cell? (b : Marks) (row col : Int) : Option Nat :=
  if row < 0 ∨ col < 0 then none
  else if hrow : row.toNat < 15 then
    if hcol : col.toNat < 15 then some (b ⟨row.toNat, hrow⟩ ⟨col.toNat, hcol⟩) else none
  else none

def mark (b : Marks) (row col : Int) : Marks :=
  fun i j => if (i : Int) = row ∧ (j : Int) = col then 1 else b i j

end Marks

structure Page where
  roomInfo : Option Json
  isMe : Bool
  chessBoard : Marks
  /-- The stones that `oneStep` has drawn. -/
  canvas : Board

namespace Page

def new : Page := ⟨none, false, Marks.zero, Board.empty⟩

section

variable [JsonCpp]

/-- The message for a move of this page. -/
def sendChess (roomInfo : Json) (row col : Int) : Json :=
  ((((Json.set ∅ "optype" (.string "put_chess")).set "room_id" (roomInfo.field "room_id")).set
    "uid" (roomInfo.field "uid")).set "row" (.int row)).set "col" (.int col)

def onclick (p : Page) (row col : Int) : Option Json :=
  if p.isMe = false then none
  else if p.chessBoard.cell? row col ≠ some 0 then none
  else p.roomInfo.map fun roomInfo => sendChess roomInfo row col

def onchat (p : Page) (message : String) : Option Json :=
  p.roomInfo.map fun roomInfo =>
    (((Json.set ∅ "optype" (.string "chat")).set "room_id" (roomInfo.field "room_id")).set
      "uid" (roomInfo.field "uid")).set "message" (.string message)

def onmove (p : Page) (roomInfo info : Json) : Page :=
  let p := { p with isMe := decide (info.field "uid" ≠ roomInfo.field "uid") }
  let isWhite := info.field "uid" = roomInfo.field "white_id"
  match info.field "row", info.field "col" with
  | .int row, .int col =>
      if row ≠ -1 ∧ col ≠ -1 then
        { p with
          canvas := p.canvas.put row col (if isWhite then .white else .black)
          chessBoard := p.chessBoard.mark row col }
      else p
  | _, _ => p

def onmessage (p : Page) (info : Json) : Page :=
  if info.field "optype" = .string "room_ready" then
    { p with
      roomInfo := some info
      isMe := decide (info.field "uid" = info.field "white_id")
      chessBoard := Marks.zero }
  else if info.field "optype" = .string "put_chess" then
    if info.field "result" = .bool false then p
    else
      match p.roomInfo with
      | none => p
      | some roomInfo => p.onmove roomInfo info
  else p

end

end Page

/-! ## Two pages in a room -/

def Server.wsmsgGameRoom [JsonCpp] (s : Server) (conn : WsConn) (uid : Nat) (msg : Option Json) :
    Except Failure Server :=
  match s.rm.getRoomByUid uid, msg with
  | none, _ => .ok (s.wsResp conn (Room.refusal "unknow" "没有找到玩家的房间信息"))
  | some _, none => .ok (s.wsResp conn (Room.refusal "unknow" "请求解析失败"))
  | some rp, some req => do
      let (rp, hub) ← rp.handleRequest req s.hub
      return ⟨hub, s.rm.update rp⟩

def Effect.bodyOn (conn : WsConn) : Effect → Option Json
  | .send c body => if c = conn then some body else none
  | _ => none

def Hub.sent (hub : Hub) (conn : WsConn) : List Json := hub.out.filterMap (Effect.bodyOn conn)

def Board.stonesSince (before after : Board) : List Stone :=
  ((List.finRange 15 ×ˢ List.finRange 15).filter fun c => before c.1 c.2 ≠ after c.1 c.2).map
    fun c => after c.1 c.2

def Server.boardOf (s : Server) (rid : Nat) : Board :=
  match s.rm.rooms rid with
  | some rp => rp.board
  | none => Board.empty

inductive Side where
  | white
  | black
  deriving DecidableEq

def Side.stone : Side → Stone
  | .white => .white
  | .black => .black

structure Table where
  server : Server
  roomId : Nat
  uid : Side → Nat
  conn : Side → WsConn
  agree : server.rm.Agree
  room : server.rm.rooms roomId = some (Room.new roomId (uid .white) (uid .black))
  players : uid .white ≠ uid .black
  conns : conn .white ≠ conn .black
  absent : ∀ side, server.isOnline (uid side) = false
  unsent : ∀ side, server.hub.sent (conn side) = []

def Table.twoUsers : Table where
  server := ⟨⟨⟨Dict.empty, Dict.empty⟩, []⟩,
    (RoomManager.new.createRoom ⟨(Dict.empty.insert 7 1).insert 8 2, Dict.empty⟩ 7 8).2⟩
  roomId := 1
  uid := fun side => if side = .white then 7 else 8
  conn := fun side => if side = .white then 3 else 4
  agree := RoomManager.new_agree.createRoom _ rfl rfl
  room := rfl
  players := by decide
  conns := by decide
  absent := fun _ => rfl
  unsent := fun _ => rfl

structure Match where
  server : Server
  page : Side → Page
  up : Side → List Json
  seen : Side → Nat
  stones : List Stone

inductive MatchStep where
  /-- The connection of a page is opened. -/
  | join (side : Side)
  /-- A user clicks on a cell. -/
  | click (side : Side) (row col : Int)
  /-- A user sends a text. -/
  | chat (side : Side) (message : String)
  /-- The server handles the next message of a page. -/
  | handle (side : Side)
  /-- The next message of the server arrives at a page. -/
  | deliver (side : Side)
  deriving DecidableEq

namespace Match

def start (t : Table) : Match where
  server := t.server
  page := fun _ => Page.new
  up := fun _ => []
  seen := fun _ => 0
  stones := []

def send (s : Match) (side : Side) (msg : Option Json) : Match :=
  { s with up := Function.update s.up side (s.up side ++ msg.toList) }

variable [JsonCpp]

def next (t : Table) (s : Match) : MatchStep → Option Match
  | .join side =>
      if s.server.hub.online.isInGameRoom (t.uid side) then none
      else some { s with server := s.server.wsopenGameRoom (t.conn side) (t.uid side) }
  | .click side row col => some (s.send side ((s.page side).onclick row col))
  | .chat side message => some (s.send side ((s.page side).onchat message))
  | .handle side =>
      match s.up side with
      | [] => none
      | req :: rest =>
          match s.server.wsmsgGameRoom (t.conn side) (t.uid side) (some req) with
          | .error _ => none
          | .ok server => some { s with
              server := server
              up := Function.update s.up side rest
              stones := s.stones ++
                (s.server.boardOf t.roomId).stonesSince (server.boardOf t.roomId) }
  | .deliver side =>
      match (s.server.hub.sent (t.conn side))[s.seen side]? with
      | none => none
      | some info => some { s with
          page := Function.update s.page side ((s.page side).onmessage info)
          seen := Function.update s.seen side (s.seen side + 1) }

def isMove (info : Json) : Bool := info.field "optype" = .string "put_chess"

/-- No move is handled before both players are in the room. -/
def bothIn (t : Table) (s : Match) : MatchStep → Bool
  | .handle side => !(s.up side).head?.any isMove ||
      (s.server.hub.online.isInGameRoom (t.uid .white) &&
        s.server.hub.online.isInGameRoom (t.uid .black))
  | _ => true

def games (t : Table) : System Match MatchStep :=
  (System.ofNext (start t) (next t)).restrict fun s l => bothIn t s l = true

def after (steps : List MatchStep) : Match :=
  (System.run (next .twoUsers) (start .twoUsers) steps).getD (start .twoUsers)

def quiet (t : Table) (s : Match) : Prop :=
  ∀ side, s.up side = [] ∧ s.seen side = (s.server.hub.sent (t.conn side)).length

end Match

end CallLesson.Gobang
