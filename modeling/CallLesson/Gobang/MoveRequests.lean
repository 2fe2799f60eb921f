import CallLesson.Gobang.Page
import CallLesson.Gobang.Results

/-! # What a move request can do

    A request for a move is written by the client. `handle_chess` takes the
    cell and the player from it: it indexes the board before any test of the
    bounds, and puts a stone of the colour of the `uid` in the request,
    whoever sent it. -/

namespace CallLesson.Gobang

open Room

/-! ## Accesses of the board

    `five`, `check_win` and `handle_chess` again, with every access of
    `_board` as a step of its own that fails outside of the board. -/

def InBoard (row col : Int) : Prop := (0 ≤ row ∧ row < 15) ∧ (0 ≤ col ∧ col < 15)

instance (row col : Int) : Decidable (InBoard row col) := inferInstanceAs (Decidable (_ ∧ _))

variable {row col : Int}

theorem Board.cell?_isSome_iff (b : Board) : (b.cell? row col).isSome ↔ InBoard row col := by
  unfold cell? InBoard
  split
  · next hin => exact iff_of_true rfl hin
  · next hout => exact iff_of_false (by simp) hout

namespace Access

def get (b : Board) (row col : Int) : Except Failure Stone :=
  match b.cell? row col with
  | some stone => .ok stone
  | none => .error .badAccess

def set (b : Board) (row col : Int) (stone : Stone) : Except Failure Board :=
  match b.cell? row col with
  | some _ => .ok (b.put row col stone)
  | none => .error .badAccess

def scan (b : Board) (color : Stone) (rowOff colOff : Int) : Nat → Int → Int → Except Failure Nat
  | 0, _, _ => .ok 0
  | fuel + 1, searchRow, searchCol =>
      if InBoard searchRow searchCol then do
        let stone ← get b searchRow searchCol
        if stone = color then do
          let count ← scan b color rowOff colOff fuel (searchRow + rowOff) (searchCol + colOff)
          return count + 1
        else return 0
      else return 0

def five (b : Board) (row col rowOff colOff : Int) (color : Stone) : Except Failure Bool := do
  let ahead ← scan b color rowOff colOff 15 (row + rowOff) (col + colOff)
  let behind ← scan b color (-rowOff) (-colOff) 15 (row - rowOff) (col - colOff)
  return decide (5 ≤ 1 + ahead + behind)

def checkWin (r : Room) (row col : Int) (color : Stone) : Except Failure Nat := do
  let win ← five r.board row col 0 1 color <||> five r.board row col 1 0 color <||>
    five r.board row col (-1) 1 color <||> five r.board row col (-1) (-1) color
  if win then return r.player color else return 0

def handleChess [JsonCpp] (r : Room) (online : Online) (req : Json) :
    Except Failure (Json × Room) := do
  let chessRow ← (req.field "row").asInt
  let chessCol ← (req.field "col").asInt
  let curUid ← (req.field "uid").asUInt64
  if online.isInGameRoom r.whiteId = false then
    return (forfeit req r.blackId, r)
  else if online.isInGameRoom r.blackId = false then
    return (forfeit req r.whiteId, r)
  else
    let stone ← get r.board chessRow chessCol
    if stone ≠ .free then
      return (taken req, r)
    else
      let curColor := r.colorOf curUid
      let board ← set r.board chessRow chessCol curColor
      let r := { r with board := board }
      let winnerId ← checkWin r chessRow chessCol curColor
      return (placed req winnerId, r)

theorem scan_eq (b : Board) (color : Stone) (rowOff colOff : Int) (fuel : Nat) (row col : Int) :
    scan b color rowOff colOff fuel row col = .ok (b.run color rowOff colOff fuel row col) := by
  induction fuel generalizing row col with
  | zero => rfl
  | succ fuel ih =>
    rw [scan, Board.run, get]
    by_cases hin : InBoard row col
    · obtain ⟨stone, hcell⟩ := Option.isSome_iff_exists.mp (b.cell?_isSome_iff.mpr hin)
      rw [if_pos hin, hcell]
      dsimp only [bind, Except.bind]
      by_cases hstone : stone = color
      · rw [if_pos hstone, if_pos (congrArg some hstone), ih]
        rfl
      · rw [if_neg hstone, if_neg fun heq => hstone (Option.some.inj heq)]
        rfl
    · have hcell : b.cell? row col ≠ some color := by
        intro hsome
        exact hin (b.cell?_isSome_iff.mp (by rw [hsome]; rfl))
      rw [if_neg hin, if_neg hcell]
      rfl

theorem five_eq (b : Board) (row col rowOff colOff : Int) (color : Stone) :
    five b row col rowOff colOff color = .ok (b.five row col rowOff colOff color) := by
  rw [five, scan_eq, scan_eq]
  rfl

theorem checkWin_eq (r : Room) (row col : Int) (color : Stone) :
    checkWin r row col color = .ok (r.checkWin row col color) := by
  rw [checkWin, Room.checkWin, five_eq, five_eq, five_eq, five_eq]
  cases r.board.five row col 0 1 color <;> cases r.board.five row col 1 0 color <;>
    cases r.board.five row col (-1) 1 color <;> cases r.board.five row col (-1) (-1) color <;> rfl

theorem handleChess_eq [JsonCpp] (r : Room) (online : Online) (req : Json) :
    handleChess r online req = r.handleChess online req := by
  unfold handleChess Room.handleChess get set
  refine bind_congr fun row => bind_congr fun col => bind_congr fun uid => ?_
  refine ite_congr rfl (fun _ => rfl) fun _ => ite_congr rfl (fun _ => rfl) fun _ => ?_
  cases r.board.cell? row col with
  | none => rfl
  | some stone =>
    cases stone with
    | free =>
      dsimp only [bind, Except.bind]
      rw [if_neg (by decide), checkWin_eq]
      rfl
    | white => rfl
    | black => rfl

end Access

/-! ## Cells outside of the board -/

section

variable [JsonCpp] [LawfulJsonCpp]

theorem InBoard.asInt (h : InBoard row col) :
    (Value.int row).asInt = .ok row ∧ (Value.int col).asInt = .ok col := by
  unfold InBoard at h
  rw [LawfulJsonCpp.asInt_int, LawfulJsonCpp.asInt_int]
  exact ⟨if_pos (by omega), if_pos (by omega)⟩

namespace Room

variable {r : Room} {online : Online} {req : Json} {row col : Int}

theorem handleChess_ne_badAccess (hrow : req.field "row" = .int row)
    (hcol : req.field "col" = .int col) (hin : InBoard row col) :
    r.handleChess online req ≠ .error .badAccess := by
  obtain ⟨stone, hcell⟩ := Option.isSome_iff_exists.mp (r.board.cell?_isSome_iff.mpr hin)
  intro h
  unfold handleChess at h
  rw [hrow, hcol, hin.asInt.1, hin.asInt.2] at h
  dsimp only [bind, Except.bind] at h
  cases huid : (req.field "uid").asUInt64 with
  | error e =>
    rw [huid] at h
    cases h
    cases converted_error huid
  | ok uid =>
    rw [huid] at h
    dsimp only at h
    rw [hcell] at h
    split at h
    · cases h
    split at h
    · cases h
    cases stone <;> cases h

theorem inBoard_of_handleChess {r' : Room} {resp : Json} (hrow : req.field "row" = .int row)
    (hcol : req.field "col" = .int col) (hwhite : online.isInGameRoom r.whiteId = true)
    (hblack : online.isInGameRoom r.blackId = true)
    (h : r.handleChess online req = .ok (resp, r')) : InBoard row col := by
  have hcell : ∀ row' col' stone, (req.field "row").asInt = .ok row' →
      (req.field "col").asInt = .ok col' → r.board.cell? row' col' = some stone →
      InBoard row col := by
    intro row' col' stone hrow' hcol' hsome
    rw [hrow] at hrow'
    rw [hcol] at hcol'
    rw [Value.eq_of_asInt hrow', Value.eq_of_asInt hcol'] at hsome
    exact r.board.cell?_isSome_iff.mp (by rw [hsome]; rfl)
  cases handleChess_chess h with
  | whiteAbsent habsent =>
    rw [hwhite] at habsent
    cases habsent
  | blackAbsent _ habsent =>
    rw [hblack] at habsent
    cases habsent
  | taken row' col' uid stone _ _ hrow' hcol' _ hsome _ =>
    exact hcell row' col' stone hrow' hcol' hsome
  | placed row' col' uid _ _ hrow' hcol' _ hsome => exact hcell row' col' _ hrow' hcol' hsome

/-- **Moves cannot index outside of the board** when they are to a cell of the
    board; to any other cell, `handle_chess` does not return with an answer. -/
theorem move_within_board_iff (r : Room) (online : Online) (req : Json) (row col : Int)
    (hrow : req.field "row" = .int row) (hcol : req.field "col" = .int col)
    (hwhite : online.isInGameRoom r.whiteId = true)
    (hblack : online.isInGameRoom r.blackId = true) :
    (Access.handleChess r online req ≠ .error .badAccess ∧
      (¬ InBoard row col → ∃ resp, Access.handleChess r online req = .ok (resp, r) ∧
        resp.field "result" = .bool false)) ↔ InBoard row col := by
  rw [Access.handleChess_eq]
  constructor
  · intro h
    by_contra hout
    obtain ⟨resp, hresp, _⟩ := h.2 hout
    exact hout (inBoard_of_handleChess hrow hcol hwhite hblack hresp)
  · intro hin
    exact ⟨handleChess_ne_badAccess hrow hcol hin, fun hout => absurd hin hout⟩

end Room

end

namespace Room

section

attribute [local instance] JsonCpp.standard JsonCpp.lawful_standard

def comeToRoom : List LobbyStep :=
  [.opened 1 .hall 7, .opened 2 .hall 8, .create 7 8, .closed 1, .closed 2, .opened 3 .room 7,
    .opened 4 .room 8]

def bothInRoom : Lobby := (System.run Lobby.next Lobby.initial comeToRoom).getD Lobby.initial

/-- A move to the last cell. -/
theorem move_within_board_corner : Access.handleChess (new 1 7 8) bothInRoom.server.hub.online
      (chessInfo 1 7 14 14) ≠ .error .badAccess :=
  ((move_within_board_iff (new 1 7 8) bothInRoom.server.hub.online
    (chessInfo 1 7 14 14) 14 14 (by simp [chessInfo]) (by simp [chessInfo])
    rfl rfl).mpr (by decide)).1

/-- A player asks for the cell at (-1, -1), as in the server's own messages. -/
theorem move_outside_board : Lobby.runs.Steps Lobby.initial comeToRoom bothInRoom ∧
      bothInRoom.server.rm.getRoomByUid 7 = some (new 1 7 8) ∧
      bothInRoom.server.hub.online.isInGameRoom 7 = true ∧
      bothInRoom.server.hub.online.isInGameRoom 8 = true ∧
      Access.handleChess (new 1 7 8) bothInRoom.server.hub.online
        (chessInfo 1 7 (-1) (-1)) = .error .badAccess :=
  ⟨System.steps_of_run rfl, rfl, rfl, rfl, rfl⟩

end

end Room

/-! ## The user in the request -/

def Effect.isResult : Effect → Bool
  | .win _ => true
  | .lose _ => true
  | .send _ _ => false

def Hub.results (hub : Hub) : List Effect := hub.out.filter Effect.isResult

structure Outcome where
  board : Board
  statu : RoomStatu
  results : List Effect

theorem Hub.results_broadcast (r : Room) (rsp : Json) (hub : Hub) :
    (r.broadcast rsp hub).results = hub.results := by
  have hsend : ∀ (hub : Hub) (uid : Nat), (hub.sendRoom uid rsp).results = hub.results := by
    intro hub uid
    unfold sendRoom
    split
    · simp [results, emit, Effect.isResult]
    · rfl
  exact (hsend _ _).trans (hsend _ _)

theorem Room.checkWin_lt {r : Room} {color : Stone} (hwhite : r.whiteId < 2 ^ 64)
    (hblack : r.blackId < 2 ^ 64) (b : Board) :
    checkWin { r with board := b } row col color < 2 ^ 64 := by
  unfold checkWin player
  split
  · split
    · exact hwhite
    · exact hblack
  · decide

section

variable [JsonCpp]

namespace Server

def outcome (s : Server) (rid : Nat) : Option Outcome :=
  (s.rm.rooms rid).map fun r => ⟨r.board, r.statu, s.hub.results⟩

def effect (s : Server) (conn : WsConn) (uid rid : Nat) (msg : Option Json) :
    Except Failure (Option Outcome) :=
  (s.wsmsgGameRoom conn uid msg).map fun s' => s'.outcome rid

end Server

inductive SameButUid : Option Json → Option Json → Prop where
  | unparsed : SameButUid none none
  | parsed (req req' : Json) : (∀ key, key ≠ "uid" → req'.field key = req.field key) →
      SameButUid (some req) (some req')

namespace Room

def Spoiled (r : Room) (online : Online) (req : Json) (row col : Int) : Prop :=
  r.BothIn online ∧ (∃ stone, r.board.cell? row col = some stone ∧ stone ≠ .free) ∧
    (req.field "winner").asUInt64 = .error .logicError

def NamesSelf (r : Room) (online : Online) (uid : Nat) (req req' : Json) : Prop :=
  ∀ row col, r.AsksFor req row col →
    ((req.field "uid").asUInt64.isOk = (req'.field "uid").asUInt64.isOk ∨
      r.Spoiled online req row col) ∧
    (r.BothIn online → ∀ named,
      (req.field "uid").asUInt64 = .ok named ∨ (req'.field "uid").asUInt64 = .ok named →
      InBoard row col ∧ (r.board.cell? row col = some .free → r.colorOf named = r.colorOf uid))

def conclude (r : Room) (hub : Hub) (winner : Value) : Except Failure (Room × Hub) := do
  let winnerId ← winner.asUInt64
  return (r.ended winnerId, r.recorded winnerId hub)

def moveEffect (r : Room) (hub : Hub) (row col : Int) (winner : Value) (color : Stone) :
    Except Failure (Room × Hub) :=
  if hub.online.isInGameRoom r.whiteId = false then r.conclude hub (.int r.blackId)
  else if hub.online.isInGameRoom r.blackId = false then r.conclude hub (.int r.whiteId)
  else
    match r.board.cell? row col with
    | none => .error .badAccess
    | some .free =>
        let r := { r with board := r.board.put row col color }
        r.conclude hub (.int (r.checkWin row col color))
    | some _ => r.conclude hub winner

def requestEffect (r : Room) (req : Json) (hub : Hub) : Except Failure (Room × Hub) := do
  let roomId ← (req.field "room_id").asUInt64
  let optype ← (req.field "optype").asString
  if roomId ≠ r.roomId then return (r, hub)
  else if optype = "put_chess" then do
    let row ← (req.field "row").asInt
    let col ← (req.field "col").asInt
    let uid ← (req.field "uid").asUInt64
    r.moveEffect hub row col (req.field "winner") (r.colorOf uid)
  else if optype = "chat" then do
    let _ ← (req.field "message").asString
    return (r, hub)
  else return (r, hub)

def answered (hub : Hub) (answer : Json × Room) : Except Failure (Json × Room × Hub) := do
  let winnerId ← (answer.1.field "winner").asUInt64
  let resp := answer.1.touch "winner"
  if winnerId ≠ 0 then
    return (resp, { answer.2 with statu := .gameOver }, answer.2.record winnerId hub)
  else
    return (resp, answer.2, hub)

theorem answered_map (hub : Hub) (resp : Json) (r : Room) :
    (answered hub (resp, r)).map Prod.snd = r.conclude hub (resp.field "winner") := by
  unfold answered conclude ended recorded
  cases (resp.field "winner").asUInt64 with
  | error e => rfl
  | ok winnerId =>
    by_cases hzero : winnerId = 0
    · simp [hzero, bind, Except.bind, pure, Except.pure, Except.map]
    · simp [hzero, bind, Except.bind, pure, Except.pure, Except.map]

theorem moveEffect_eq [LawfulJsonCpp] {r : Room} {req : Json} {uid : Nat}
    (hrow : (req.field "row").asInt = .ok row)
    (hcol : (req.field "col").asInt = .ok col) (huid : (req.field "uid").asUInt64 = .ok uid)
    (hub : Hub) :
    (r.handleChess hub.online req >>= answered hub).map Prod.snd =
      r.moveEffect hub row col (req.field "winner") (r.colorOf uid) := by
  have hread : r.handleChess hub.online req =
      if hub.online.isInGameRoom r.whiteId = false then .ok (forfeit req r.blackId, r)
      else if hub.online.isInGameRoom r.blackId = false then .ok (forfeit req r.whiteId, r)
      else
        match r.board.cell? row col with
        | none => .error .badAccess
        | some .free => .ok (placed req ((r.move row col uid).checkWin row col (r.colorOf uid)),
            r.move row col uid)
        | some _ => .ok (taken req, r) := by
    unfold handleChess
    rw [hrow, hcol, huid]
    rfl
  have hok : ∀ resp r', (Except.ok (resp, r') >>= answered hub).map Prod.snd =
      r'.conclude hub (resp.field "winner") := fun resp r' => answered_map hub resp r'
  rw [hread, moveEffect]
  -- the answers differ in their member `winner`
  split
  · rw [hok, field_forfeit_winner]
  split
  · rw [hok, field_forfeit_winner]
  cases r.board.cell? row col with
  | none => rfl
  | some stone =>
    cases stone with
    | free =>
      dsimp only
      rw [hok, field_placed_winner]
      rfl
    | white =>
      dsimp only
      rw [hok, field_taken_winner]
    | black =>
      dsimp only
      rw [hok, field_taken_winner]

theorem respond_map [LawfulJsonCpp] (r : Room) (req : Json) (hub : Hub) :
    (r.respond req hub).map Prod.snd = r.requestEffect req hub := by
  unfold respond requestEffect
  cases (req.field "room_id").asUInt64 with
  | error e => rfl
  | ok roomId =>
  cases (req.field "optype").asString with
  | error e => rfl
  | ok optype =>
  dsimp only [bind, Except.bind]
  -- the branches of `respond` in their order: wrong room, move, chat, anything else
  by_cases hid : roomId ≠ r.roomId
  · rw [if_pos hid, if_pos hid]
    rfl
  rw [if_neg hid, if_neg hid]
  by_cases hput : optype = "put_chess"
  · rw [if_pos hput, if_pos hput]
    cases hrow : (req.field "row").asInt with
    | error e => simp [handleChess, hrow, bind, Except.bind, Except.map]
    | ok row =>
    cases hcol : (req.field "col").asInt with
    | error e => simp [handleChess, hrow, hcol, bind, Except.bind, Except.map]
    | ok col =>
    cases huid : (req.field "uid").asUInt64 with
    | error e => simp [handleChess, hrow, hcol, huid, bind, Except.bind, Except.map]
    | ok uid => exact moveEffect_eq hrow hcol huid hub
  rw [if_neg hput, if_neg hput]
  by_cases hchat : optype = "chat"
  · rw [if_pos hchat, if_pos hchat]
    unfold handleChat
    cases (req.field "message").asString with
    | error e => rfl
    | ok msg =>
      dsimp only [bind, Except.bind]
      by_cases hbad : "垃圾".toList <:+: msg.toList
      · rw [if_pos hbad]
        rfl
      · rw [if_neg hbad]
        rfl
  · rw [if_neg hchat, if_neg hchat]
    rfl

section effects

variable {r r' : Room} {hub hub' : Hub} {row col : Int} {winner : Value} {color : Stone}

theorem conclude_keeps (h : r.conclude hub winner = .ok (r', hub')) :
    r'.roomId = r.roomId ∧ r'.board = r.board := by
  obtain ⟨winnerId, _, h⟩ := Exec.except_bind_ok h
  cases h
  unfold ended
  split <;> exact ⟨rfl, rfl⟩

theorem conclude_id [LawfulJsonCpp] {id : Nat} (h : id < 2 ^ 64) :
    r.conclude hub (.int id) = .ok (r.ended id, r.recorded id hub) := by
  rw [conclude, Value.asUInt64_of_lt h]
  rfl

theorem moveEffect_put (hboth : r.BothIn hub.online) (hfree : r.board.cell? row col = some .free) :
    r.moveEffect hub row col winner color =
      conclude { r with board := r.board.put row col color } hub
        (.int (checkWin { r with board := r.board.put row col color } row col color)) := by
  rw [moveEffect, if_neg (by simp [hboth.1]), if_neg (by simp [hboth.2]), hfree]

theorem moveEffect_other (h : ¬ (r.BothIn hub.online ∧ r.board.cell? row col = some .free)) :
    (∀ color', r.moveEffect hub row col winner color = r.moveEffect hub row col winner color') ∧
      ∀ r' hub', r.moveEffect hub row col winner color = .ok (r', hub') → r'.board = r.board := by
  unfold moveEffect
  split
  · exact ⟨fun _ => rfl, fun _ _ hok => (conclude_keeps hok).2⟩
  next hwhite =>
  split
  · exact ⟨fun _ => rfl, fun _ _ hok => (conclude_keeps hok).2⟩
  next hblack =>
  rw [Bool.not_eq_false] at hwhite hblack
  cases hcell : r.board.cell? row col with
  | none => exact ⟨fun _ => rfl, fun _ _ hok => by cases hok⟩
  | some stone =>
    cases stone with
    | free => exact absurd ⟨⟨hwhite, hblack⟩, hcell⟩ h
    | white => exact ⟨fun _ => rfl, fun _ _ hok => (conclude_keeps hok).2⟩
    | black => exact ⟨fun _ => rfl, fun _ _ hok => (conclude_keeps hok).2⟩

theorem moveEffect_roomId (h : r.moveEffect hub row col winner color = .ok (r', hub')) :
    r'.roomId = r.roomId := by
  unfold moveEffect at h
  split at h
  · exact (conclude_keeps h).1
  split at h
  · exact (conclude_keeps h).1
  split at h
  · cases h
  · exact (conclude_keeps h).1
  · exact (conclude_keeps h).1

theorem moveEffect_logicError_iff [LawfulJsonCpp] (hwhite : r.whiteId < 2 ^ 64)
    (hblack : r.blackId < 2 ^ 64)
    {req : Json} : r.moveEffect hub row col (req.field "winner") color = .error .logicError ↔
      r.Spoiled hub.online req row col := by
  unfold moveEffect Spoiled BothIn
  split
  · next habsent => simp [conclude_id hblack, habsent]
  next hw =>
  split
  · next habsent => simp [conclude_id hwhite, habsent]
  next hb =>
  rw [Bool.not_eq_false] at hw hb
  have htaken : r.conclude hub (req.field "winner") = .error .logicError ↔
      (req.field "winner").asUInt64 = .error .logicError := by
    unfold conclude
    cases (req.field "winner").asUInt64 with
    | error e => simp [bind, Except.bind]
    | ok winnerId => simp [bind, Except.bind, pure, Except.pure]
  cases hcell : r.board.cell? row col with
  | none => simp
  | some stone =>
    cases stone with
    | free => simp [conclude_id (checkWin_lt hwhite hblack _)]
    | white => simp [htaken, hw, hb]
    | black => simp [htaken, hw, hb]

theorem moveEffect_badAccess_iff : r.moveEffect hub row col winner color = .error .badAccess ↔
      r.BothIn hub.online ∧ r.board.cell? row col = none := by
  have hconclude : ∀ (r : Room) (winner : Value), r.conclude hub winner ≠ .error .badAccess := by
    intro r winner h
    unfold conclude at h
    cases hwinner : winner.asUInt64 with
    | error e =>
      rw [hwinner] at h
      cases h
      cases converted_error hwinner
    | ok winnerId =>
      rw [hwinner] at h
      cases h
  unfold moveEffect BothIn
  split
  · next habsent => simp [hconclude, habsent]
  next hw =>
  split
  · next habsent => simp [hconclude, habsent]
  next hb =>
  rw [Bool.not_eq_false] at hw hb
  cases hcell : r.board.cell? row col with
  | none => simp [hw, hb]
  | some stone => cases stone <;> simp [hconclude]

end effects

section requests

variable {r r' : Room} {hub hub' : Hub} {req req' : Json}

theorem AsksFor.requestEffect (h : r.AsksFor req row col) (hub : Hub) :
    r.requestEffect req hub = ((req.field "uid").asUInt64 >>= fun uid =>
      r.moveEffect hub row col (req.field "winner") (r.colorOf uid)) := by
  rw [Room.requestEffect, h.room, h.optype]
  dsimp only [bind, Except.bind]
  rw [if_neg (not_not.mpr rfl), if_pos rfl, h.row, h.col]

theorem AsksFor.congr (h : r.AsksFor req row col)
    (hsame : ∀ key, key ≠ "uid" → req'.field key = req.field key) : r.AsksFor req' row col where
  room := by rw [hsame _ (by decide), h.room]
  optype := by rw [hsame _ (by decide), h.optype]
  row := by rw [hsame _ (by decide), h.row]
  col := by rw [hsame _ (by decide), h.col]

theorem requestEffect_other (h : ∀ row col, ¬ r.AsksFor req row col)
    (hsame : ∀ key, key ≠ "uid" → req'.field key = req.field key) (hub : Hub) :
    r.requestEffect req' hub = r.requestEffect req hub ∧
      (∀ r' hub', r.requestEffect req hub = .ok (r', hub') → r' = r) ∧
      r.requestEffect req hub ≠ .error .badAccess := by
  -- a conversion that throws does not throw this
  have hthrow : ∀ {α β : Type} {a : Option α} {e : Failure}, converted a = .error e →
      (Except.error e : Except Failure β) ≠ .error .badAccess := by
    intro α β a e h heq
    cases heq
    cases converted_error h
  unfold requestEffect
  rw [hsame "room_id" (by decide), hsame "optype" (by decide), hsame "row" (by decide),
    hsame "col" (by decide), hsame "message" (by decide)]
  cases hroom : (req.field "room_id").asUInt64 with
  | error e => exact ⟨rfl, fun _ _ hok => (by cases hok), hthrow hroom⟩
  | ok roomId =>
  cases hop : (req.field "optype").asString with
  | error e => exact ⟨rfl, fun _ _ hok => (by cases hok), hthrow hop⟩
  | ok optype =>
  dsimp only [bind, Except.bind]
  by_cases hid : roomId ≠ r.roomId
  · rw [if_pos hid, if_pos hid]
    exact ⟨rfl, fun _ _ hok => (by cases hok; rfl), nofun⟩
  rw [if_neg hid, if_neg hid]
  by_cases hput : optype = "put_chess"
  · rw [if_pos hput, if_pos hput]
    cases hrow : (req.field "row").asInt with
    | error e => exact ⟨rfl, fun _ _ hok => (by cases hok), hthrow hrow⟩
    | ok row =>
    cases hcol : (req.field "col").asInt with
    | error e => exact ⟨rfl, fun _ _ hok => (by cases hok), hthrow hcol⟩
    | ok col =>
      -- every field of a move could be read, so this is one after all
      rw [not_not.mp hid] at hroom
      rw [hput] at hop
      exact absurd ⟨hroom, hop, hrow, hcol⟩ (h row col)
  rw [if_neg hput, if_neg hput]
  by_cases hchat : optype = "chat"
  · rw [if_pos hchat]
    cases hmsg : (req.field "message").asString with
    | error e => exact ⟨rfl, fun _ _ hok => (by cases hok), hthrow hmsg⟩
    | ok msg => exact ⟨rfl, fun _ _ hok => (by cases hok; rfl), nofun⟩
  · rw [if_neg hchat]
    exact ⟨rfl, fun _ _ hok => (by cases hok; rfl), nofun⟩

theorem requestEffect_roomId (h : r.requestEffect req hub = .ok (r', hub')) :
    r'.roomId = r.roomId := by
  by_cases hasks : ∃ row col, r.AsksFor req row col
  · obtain ⟨row, col, hasks⟩ := hasks
    rw [hasks.requestEffect] at h
    obtain ⟨uid, _, h⟩ := Exec.except_bind_ok h
    exact moveEffect_roomId h
  · have hother := requestEffect_other (fun row col hr => hasks ⟨row, col, hr⟩) (fun _ _ => rfl) hub
    rw [hother.2.1 r' hub' h]

end requests

end Room

namespace Server

variable {s : Server} {uid : Nat} {r : Room}

theorem effect_some [LawfulJsonCpp] (huser : s.rm.users uid = some r.roomId)
    (hroom : s.rm.rooms r.roomId = some r) (conn : WsConn) (req : Json) :
    s.effect conn uid r.roomId (some req) =
      (r.requestEffect req s.hub).map fun p => some ⟨p.1.board, p.1.statu, p.2.results⟩ := by
  have hget : s.rm.getRoomByUid uid = some r := by
    rw [RoomManager.getRoomByUid, huser]
    exact hroom
  have hmap := respond_map r req s.hub
  unfold effect wsmsgGameRoom handleRequest
  rw [hget]
  dsimp only
  cases hrespond : r.respond req s.hub with
  | error e =>
    rw [hrespond] at hmap
    rw [← hmap]
    rfl
  | ok answer =>
    obtain ⟨resp, r', hub'⟩ := answer
    rw [hrespond] at hmap
    -- the room keeps its number, so the broadcast finds the one just written back
    have hid : r'.roomId = r.roomId := requestEffect_roomId hmap.symm
    have hnow : (s.rm.update r').rooms r.roomId = some r' := by
      rw [← hid]
      exact RoomManager.update_rooms_self _ _
    rw [← hmap]
    show Except.ok (outcome ⟨r'.broadcast resp hub', s.rm.update r'⟩ r.roomId) = _
    rw [outcome, hnow]
    simp [Hub.results_broadcast, Except.map]

theorem effect_none (huser : s.rm.users uid = some r.roomId)
    (hroom : s.rm.rooms r.roomId = some r) (conn : WsConn) :
    s.effect conn uid r.roomId none = .ok (some ⟨r.board, r.statu, s.hub.results⟩) := by
  have hget : s.rm.getRoomByUid uid = some r := by
    rw [RoomManager.getRoomByUid, huser]
    exact hroom
  unfold effect wsmsgGameRoom
  rw [hget]
  show Except.ok (outcome (s.wsResp conn _) r.roomId) = _
  simp [outcome, wsResp, hroom, Hub.results, Hub.emit, Effect.isResult]

def OwnStones (s : Server) (conn : WsConn) (uid : Nat) (r : Room) (msg : Option Json) : Prop :=
  ∀ o, s.effect conn uid r.roomId msg = .ok (some o) →
    ∀ i j, o.board i j ≠ r.board i j → o.board i j = r.colorOf uid

section self

variable {req req' : Json} {row col : Int} {named : Nat} {o : Outcome} {conn : WsConn}

theorem board_of_effect [LawfulJsonCpp] (huser : s.rm.users uid = some r.roomId)
    (hroom : s.rm.rooms r.roomId = some r)
    (h : s.effect conn uid r.roomId (some req) = .ok (some o)) :
    o.board = r.board ∨ ∃ row col named, r.AsksFor req row col ∧ r.BothIn s.hub.online ∧
      r.board.cell? row col = some .free ∧ (req.field "uid").asUInt64 = .ok named ∧
      o.board = r.board.put row col (r.colorOf named) := by
  rw [effect_some huser hroom] at h
  cases hreq : r.requestEffect req s.hub with
  | error e =>
    rw [hreq] at h
    cases h
  | ok p =>
    obtain ⟨r', hub'⟩ := p
    rw [hreq] at h
    cases h
    -- only a request for a move reaches the board
    by_cases hasks : ∃ row col, r.AsksFor req row col
    · obtain ⟨row, col, hasks⟩ := hasks
      rw [hasks.requestEffect] at hreq
      obtain ⟨named, huid, hreq⟩ := Exec.except_bind_ok hreq
      by_cases hput : r.BothIn s.hub.online ∧ r.board.cell? row col = some .free
      · rw [moveEffect_put hput.1 hput.2] at hreq
        exact Or.inr ⟨row, col, named, hasks, hput.1, hput.2, huid, (conclude_keeps hreq).2⟩
      · exact Or.inl ((moveEffect_other hput).2 r' hub' hreq)
    · have hother := requestEffect_other (fun row col hr => hasks ⟨row, col, hr⟩)
        (fun _ _ => rfl) s.hub
      rw [hother.2.1 r' hub' hreq]
      exact Or.inl rfl

theorem effect_badAccess_iff [LawfulJsonCpp] (huser : s.rm.users uid = some r.roomId)
    (hroom : s.rm.rooms r.roomId = some r) (conn : WsConn) :
    s.effect conn uid r.roomId (some req) = .error .badAccess ↔
      ∃ row col named, r.AsksFor req row col ∧ r.BothIn s.hub.online ∧
        (req.field "uid").asUInt64 = .ok named ∧ ¬ InBoard row col := by
  have hmap : s.effect conn uid r.roomId (some req) = .error .badAccess ↔
      r.requestEffect req s.hub = .error .badAccess := by
    rw [effect_some huser hroom]
    cases r.requestEffect req s.hub <;> simp [Except.map]
  have hcell : ∀ row col, r.board.cell? row col = none ↔ ¬ InBoard row col := by
    intro row col
    rw [← r.board.cell?_isSome_iff, Bool.not_eq_true, Option.isSome_eq_false_iff,
      Option.isNone_iff_eq_none]
  rw [hmap]
  constructor
  · intro h
    by_cases hasks : ∃ row col, r.AsksFor req row col
    · obtain ⟨row, col, hasks⟩ := hasks
      rw [hasks.requestEffect] at h
      cases huid : (req.field "uid").asUInt64 with
      | error e =>
        rw [huid] at h
        cases h
        cases converted_error huid
      | ok named =>
        rw [huid] at h
        obtain ⟨hboth, hnone⟩ := moveEffect_badAccess_iff.mp h
        exact ⟨row, col, named, hasks, hboth, rfl, (hcell row col).mp hnone⟩
    · exact absurd h (requestEffect_other (fun row col hr => hasks ⟨row, col, hr⟩)
        (fun _ _ => rfl) s.hub).2.2
  · rintro ⟨row, col, named, hasks, hboth, huid, hout⟩
    rw [hasks.requestEffect, huid]
    exact moveEffect_badAccess_iff.mpr ⟨hboth, (hcell row col).mpr hout⟩

theorem effect_put [LawfulJsonCpp] (huser : s.rm.users uid = some r.roomId)
    (hroom : s.rm.rooms r.roomId = some r) (hwhite : r.whiteId < 2 ^ 64)
    (hblack : r.blackId < 2 ^ 64) (conn : WsConn) (hasks : r.AsksFor req row col)
    (hboth : r.BothIn s.hub.online) (hfree : r.board.cell? row col = some .free)
    (huid : (req.field "uid").asUInt64 = .ok named) :
    ∃ o, s.effect conn uid r.roomId (some req) = .ok (some o) ∧
      o.board = r.board.put row col (r.colorOf named) := by
  have hmove : r.requestEffect req s.hub =
      r.moveEffect s.hub row col (req.field "winner") (r.colorOf named) := by
    rw [hasks.requestEffect, huid]
    rfl
  rw [effect_some huser hroom, hmove, moveEffect_put hboth hfree,
    conclude_id (checkWin_lt hwhite hblack _)]
  refine ⟨_, rfl, ?_⟩
  unfold ended
  split <;> rfl

theorem colorOf_of_ownStones (h : s.OwnStones conn uid r (some req))
    (heffect : s.effect conn uid r.roomId (some req) = .ok (some o))
    (hput : o.board = r.board.put row col (r.colorOf named))
    (hfree : r.board.cell? row col = some .free) : r.colorOf named = r.colorOf uid := by
  obtain ⟨i, j, hi, hj, hcell⟩ := Board.cell?_eq_some hfree
  have hstone : o.board i j = r.colorOf named := by
    rw [hput]
    exact if_pos ⟨hi, hj⟩
  rw [← hstone]
  refine h o heffect i j ?_
  rw [hstone, hcell]
  exact colorOf_ne_free r named

theorem ownStones_of_names [LawfulJsonCpp] (huser : s.rm.users uid = some r.roomId)
    (hroom : s.rm.rooms r.roomId = some r) (conn : WsConn)
    (h : ∀ row col named, r.AsksFor req row col → r.BothIn s.hub.online →
      r.board.cell? row col = some .free → (req.field "uid").asUInt64 = .ok named →
      r.colorOf named = r.colorOf uid) : s.OwnStones conn uid r (some req) := by
  intro o ho i j hne
  rcases board_of_effect huser hroom ho with
    hsame | ⟨row, col, named, hasks, hboth, hfree, huid, hput⟩
  · rw [hsame] at hne
    exact absurd rfl hne
  · rw [hput, Board.put] at hne ⊢
    split
    · exact h row col named hasks hboth hfree huid
    · next hoff =>
      rw [if_neg hoff] at hne
      exact absurd rfl hne

theorem moveEffect_congr {named' : Nat} {winner : Value} {hub : Hub}
    (h : r.BothIn hub.online → r.board.cell? row col = some .free →
      r.colorOf named = r.colorOf named') :
    r.moveEffect hub row col winner (r.colorOf named) =
      r.moveEffect hub row col winner (r.colorOf named') := by
  by_cases hput : r.BothIn hub.online ∧ r.board.cell? row col = some .free
  · rw [h hput.1 hput.2]
  · exact (moveEffect_other hput).1 _

theorem effect_eq_of_names [LawfulJsonCpp] (huser : s.rm.users uid = some r.roomId)
    (hroom : s.rm.rooms r.roomId = some r) (hwhite : r.whiteId < 2 ^ 64)
    (hblack : r.blackId < 2 ^ 64) (conn : WsConn)
    (hsame : ∀ key, key ≠ "uid" → req'.field key = req.field key)
    (h : r.NamesSelf s.hub.online uid req req') :
    s.effect conn uid r.roomId (some req) = s.effect conn uid r.roomId (some req') := by
  rw [effect_some huser hroom, effect_some huser hroom]
  by_cases hasks : ∃ row col, r.AsksFor req row col
  · obtain ⟨row, col, hasks⟩ := hasks
    obtain ⟨hread, hcolor⟩ := h row col hasks
    rw [hasks.requestEffect, (hasks.congr hsame).requestEffect, hsame "winner" (by decide)]
    -- a request that is spoiled throws, as does one whose `uid` cannot be read
    have hspoiled : r.Spoiled s.hub.online req row col → ∀ color,
        r.moveEffect s.hub row col (req.field "winner") color = .error .logicError :=
      fun hsp _ => (moveEffect_logicError_iff hwhite hblack).mpr hsp
    cases huid : (req.field "uid").asUInt64 with
    | error e =>
      cases converted_error huid
      cases huid' : (req'.field "uid").asUInt64 with
      | error e' =>
        cases converted_error huid'
        rfl
      | ok named' =>
        rw [huid, huid'] at hread
        have hsp := hread.resolve_left (by simp [Except.isOk, Except.toBool])
        simp [bind, Except.bind, hspoiled hsp]
    | ok named =>
      cases huid' : (req'.field "uid").asUInt64 with
      | error e' =>
        cases converted_error huid'
        rw [huid, huid'] at hread
        have hsp := hread.resolve_left (by simp [Except.isOk, Except.toBool])
        simp [bind, Except.bind, hspoiled hsp]
      | ok named' =>
        refine congrArg (Except.map _) (moveEffect_congr fun hboth hfree => ?_)
        rw [(hcolor hboth named (Or.inl huid)).2 hfree,
          (hcolor hboth named' (Or.inr huid')).2 hfree]
  · have hother := requestEffect_other (fun row col hr => hasks ⟨row, col, hr⟩) hsame s.hub
    rw [hother.1]

theorem spoiled_of_effect_eq [LawfulJsonCpp] (huser : s.rm.users uid = some r.roomId)
    (hroom : s.rm.rooms r.roomId = some r) (hwhite : r.whiteId < 2 ^ 64)
    (hblack : r.blackId < 2 ^ 64) (hasks : r.AsksFor req row col)
    (hasks' : r.AsksFor req' row col) {e : Failure} (huid : (req.field "uid").asUInt64 = .ok named)
    (huid' : (req'.field "uid").asUInt64 = .error e)
    (h : s.effect conn uid r.roomId (some req) = s.effect conn uid r.roomId (some req')) :
    r.Spoiled s.hub.online req row col := by
  cases converted_error huid'
  rw [effect_some huser hroom, effect_some huser hroom, hasks.requestEffect,
    hasks'.requestEffect, huid, huid'] at h
  cases hmove : r.moveEffect s.hub row col (req.field "winner") (r.colorOf named) with
  | error e =>
    simp only [bind, Except.bind, hmove, Except.map, Except.error.injEq] at h
    rw [h] at hmove
    exact (moveEffect_logicError_iff hwhite hblack).mp hmove
  | ok p => simp [bind, Except.bind, hmove, Except.map] at h

/-- **Players act as themselves**: two messages that differ in the `uid` put
    stones of the sender's colour only, have the same effect and stay inside
    of the board, just when they name users of that colour where a stone is
    put, ask for a cell of the board, and the one `uid` can be read if the
    other can. -/
theorem acts_as_self_iff [LawfulJsonCpp] (s : Server) (conn : WsConn) (uid : Nat) (r : Room)
    (huser : s.rm.users uid = some r.roomId) (hroom : s.rm.rooms r.roomId = some r)
    (hwhite : r.whiteId < 2 ^ 64) (hblack : r.blackId < 2 ^ 64) (msg msg' : Option Json)
    (hsame : SameButUid msg msg') :
    (s.OwnStones conn uid r msg ∧ s.OwnStones conn uid r msg' ∧
      s.effect conn uid r.roomId msg = s.effect conn uid r.roomId msg' ∧
      s.effect conn uid r.roomId msg ≠ .error .badAccess) ↔
    ∀ req req', msg = some req → msg' = some req' → r.NamesSelf s.hub.online uid req req' := by
  cases hsame with
  | unparsed =>
    have hown : s.OwnStones conn uid r none := by
      intro o ho i j hne
      rw [effect_none huser hroom] at ho
      cases ho
      exact absurd rfl hne
    refine iff_of_true ⟨hown, hown, rfl, ?_⟩ fun _ _ h => by cases h
    rw [effect_none huser hroom]
    exact nofun
  | parsed req req' hsame =>
    have hback : ∀ key, key ≠ "uid" → req.field key = req'.field key :=
      fun key hkey => (hsame key hkey).symm
    constructor
    · intro h req1 req2 h1 h2 row col hasks
      cases h1
      cases h2
      obtain ⟨hown, hown', heq, hfault⟩ := h
      have hasks' := hasks.congr hsame
      refine ⟨?_, fun hboth named hnamed => ⟨?_, fun hfree => ?_⟩⟩
      -- one uid can be read and the other cannot: equal effects are then both an exception
      · cases huid : (req.field "uid").asUInt64 with
        | error e =>
          cases huid' : (req'.field "uid").asUInt64 with
          | error e' => exact Or.inl rfl
          | ok named' =>
            have hsp := spoiled_of_effect_eq huser hroom hwhite hblack hasks' hasks huid' huid
              heq.symm
            rw [Room.Spoiled, hsame "winner" (by decide)] at hsp
            exact Or.inr hsp
        | ok named =>
          cases huid' : (req'.field "uid").asUInt64 with
          | error e' =>
            exact Or.inr
              (spoiled_of_effect_eq huser hroom hwhite hblack hasks hasks' huid huid' heq)
          | ok named' => exact Or.inl rfl
      · by_contra hout
        rcases hnamed with huid | huid
        · exact hfault ((effect_badAccess_iff huser hroom conn).mpr
            ⟨row, col, named, hasks, hboth, huid, hout⟩)
        · rw [heq] at hfault
          exact hfault ((effect_badAccess_iff huser hroom conn).mpr
            ⟨row, col, named, hasks', hboth, huid, hout⟩)
      · rcases hnamed with huid | huid
        · obtain ⟨o, ho, hput⟩ :=
            effect_put huser hroom hwhite hblack conn hasks hboth hfree huid
          exact colorOf_of_ownStones hown ho hput hfree
        · obtain ⟨o, ho, hput⟩ :=
            effect_put huser hroom hwhite hblack conn hasks' hboth hfree huid
          exact colorOf_of_ownStones hown' ho hput hfree
    · intro h
      have hnames := h req req' rfl rfl
      refine ⟨ownStones_of_names huser hroom conn ?_, ownStones_of_names huser hroom conn ?_,
        effect_eq_of_names huser hroom hwhite hblack conn hsame hnames, fun hfault => ?_⟩
      · intro row col named hasks hboth hfree huid
        exact ((hnames row col hasks).2 hboth named (Or.inl huid)).2 hfree
      · intro row col named hasks hboth hfree huid
        exact ((hnames row col (hasks.congr hback)).2 hboth named (Or.inr huid)).2 hfree
      · obtain ⟨row, col, named, hasks, hboth, huid, hout⟩ :=
          (effect_badAccess_iff huser hroom conn).mp hfault
        exact hout ((hnames row col hasks).2 hboth named (Or.inl huid)).1

end self

theorem field_chessInfo [LawfulJsonCpp] (roomId uid uid' : Nat) (row col : Int) {key : String}
    (hkey : key ≠ "uid") :
    (chessInfo roomId uid row col).field key = (chessInfo roomId uid' row col).field key := by
  unfold chessInfo
  by_cases hcol : key = "col"
  · simp [hcol]
  by_cases hrow : key = "row"
  · simp [hrow]
  simp [hcol, hrow, hkey]

end Server

end

namespace Server

attribute [local instance] JsonCpp.standard JsonCpp.lawful_standard

/-- A message of the black player that names a user who is not in the room is
    taken for the black player's. -/
theorem acts_as_self_stranger :
    bothInRoom.server.effect 4 8 1 (some (chessInfo 1 8 7 7)) =
      bothInRoom.server.effect 4 8 1 (some (chessInfo 1 9 7 7)) := by
  have hiff := acts_as_self_iff bothInRoom.server 4 8 (new 1 7 8) rfl rfl (by decide)
    (by decide) (some (chessInfo 1 8 7 7)) (some (chessInfo 1 9 7 7))
    (.parsed _ _ fun key hkey => field_chessInfo 1 9 8 7 7 hkey)
  refine (hiff.mpr fun req req' hreq hreq' row col hasks => ?_).2.2.1
  cases hreq
  cases hreq'
  have hrow : row = 7 := Except.ok.inj (hasks.row.symm.trans rfl)
  have hcol : col = 7 := Except.ok.inj (hasks.col.symm.trans rfl)
  have huid : ((chessInfo 1 8 7 7).field "uid").asUInt64 = .ok 8 := rfl
  have huid' : ((chessInfo 1 9 7 7).field "uid").asUInt64 = .ok 9 := rfl
  rw [huid, huid']
  refine ⟨Or.inl rfl, fun _ named hnamed => ⟨?_, fun _ => ?_⟩⟩
  · rw [hrow, hcol]
    decide
  rcases hnamed with h | h
  · cases h
    rfl
  · cases h
    rfl

/-- The black player puts a white stone, by naming the white player. -/
theorem acts_as_other : Lobby.runs.Steps Lobby.initial comeToRoom bothInRoom ∧
      bothInRoom.server.rm.getRoomByUid 8 = some (new 1 7 8) ∧
      (new 1 7 8).colorOf 8 = .black ∧
      ∃ s', bothInRoom.server.wsmsgGameRoom 4 8 (some (chessInfo 1 7 7 7)) = .ok s' ∧
        s'.boardOf 1 7 7 = .white :=
  ⟨System.steps_of_run rfl, rfl, rfl, _, rfl, rfl⟩

end Server

end CallLesson.Gobang
