import CallLesson.Gobang.Page

/-! # The boards of a game

    The server broadcasts one answer per message it handles, and a page is a
    function of the answers that have arrived. A page that joins late misses
    answers, but no moves. So the three boards of a game are boards of one
    list of moves: the server's of all of it, a page's of the part that has
    arrived. -/

namespace CallLesson.Gobang

/-! ## Moves -/

structure Move where
  row : Int
  col : Int
  side : Side
  deriving DecidableEq

open List Function Room Table Server Move Online Value

namespace Move

def On (m : Move) (i j : Fin 15) : Prop := (i : Int) = m.row ∧ (j : Int) = m.col

def board (ms : List Move) : Board :=
  ms.foldl (fun b m => b.put m.row m.col m.side.stone) Board.empty

def Apart (ms : List Move) : Prop := ms.Pairwise fun m m' => ∀ i j, m.On i j → ¬ m'.On i j

@[simp] theorem board_nil : board [] = Board.empty := rfl

theorem board_concat (ms : List Move) (m : Move) :
    board (ms ++ [m]) = (board ms).put m.row m.col m.side.stone := by
  rw [board, foldl_append]
  rfl

theorem stone_ne_free (side : Side) : side.stone ≠ .free := by
  cases side <;> decide

theorem board_ne_free_iff (ms : List Move) (i j : Fin 15) :
    board ms i j ≠ .free ↔ ∃ m ∈ ms, m.On i j := by
  induction ms using reverseRecOn with
  | nil => simp [Board.empty]
  | append_singleton ms m ih =>
    rw [board_concat, Board.put]
    split
    · next hon => simpa [stone_ne_free] using Or.inr (show m.On i j from hon)
    · next hoff =>
      rw [ih]
      simp [show ¬ m.On i j from hoff]

theorem board_concat_of_ne_free {ms : List Move} {m : Move} (h : Apart (ms ++ [m]))
    {i j : Fin 15} (hcell : board ms i j ≠ .free) : board (ms ++ [m]) i j = board ms i j := by
  obtain ⟨m', hm', hon⟩ := (board_ne_free_iff ms i j).mp hcell
  have hoff : ¬ m.On i j :=
    (pairwise_append.mp h).2.2 m' hm' m (mem_singleton_self m) i j hon
  rw [board_concat]
  exact if_neg hoff

theorem board_of_prefix {ms ms' : List Move} (h : Apart ms') (hpre : ms <+: ms') {i j : Fin 15}
    (hcell : board ms i j ≠ .free) : board ms' i j = board ms i j := by
  obtain ⟨rest, rfl⟩ := hpre
  induction rest using reverseRecOn with
  | nil => rw [append_nil]
  | append_singleton rest m ih =>
    rw [← append_assoc] at h ⊢
    have hkeep := ih (pairwise_append.mp h).1
    rw [board_concat_of_ne_free h (hkeep ▸ hcell), hkeep]

theorem Apart.concat {ms : List Move} {m : Move} (h : Apart ms)
    (hfree : (board ms).cell? m.row m.col = some .free) : Apart (ms ++ [m]) := by
  refine pairwise_append.mpr ⟨h, pairwise_singleton _ _, ?_⟩
  intro m' hm' m1 hm1 i j hon' hon
  rw [mem_singleton.mp hm1] at hon
  obtain ⟨i0, j0, hi, hj, hcell⟩ := Board.cell?_eq_some hfree
  have hi' : i = i0 := Fin.ext (Int.natCast_inj.mp (hon.1.trans hi.symm))
  have hj' : j = j0 := Fin.ext (Int.natCast_inj.mp (hon.2.trans hj.symm))
  subst hi' hj'
  exact (board_ne_free_iff ms i j).mpr ⟨m', hm', hon'⟩ hcell

end Move

namespace Board

@[simp] theorem stonesSince_self (b : Board) : b.stonesSince b = [] := by
  simp [stonesSince]

theorem stonesSince_put {b : Board} {row col : Int} {stone : Stone} (hstone : stone ≠ .free)
    (h : b.cell? row col = some .free) : b.stonesSince (b.put row col stone) = [stone] := by
  obtain ⟨i, j, rfl, rfl, hfree⟩ := cell?_eq_some h
  have hput : ∀ c : Fin 15 × Fin 15, b.put i j stone c.1 c.2 =
      if c = (i, j) then stone else b c.1 c.2 := by
    rintro ⟨i', j'⟩
    simp [put, Prod.ext_iff, Fin.ext_iff]
  have hdiff : ∀ c : Fin 15 × Fin 15, b c.1 c.2 ≠ b.put i j stone c.1 c.2 ↔ c = (i, j) := by
    intro c
    rw [hput]
    by_cases hc : c = (i, j)
    · subst hc
      simpa [hfree] using hstone.symm
    · simp [hc]
  have hnodup : (finRange 15 ×ˢ finRange 15).Nodup :=
    (nodup_finRange 15).product (nodup_finRange 15)
  have hcount : (finRange 15 ×ˢ finRange 15).count (i, j) = 1 :=
    count_eq_one_of_mem hnodup (by simp)
  unfold stonesSince
  simp only [hdiff]
  rw [filter_eq, hcount]
  simp [hput]

end Board

/-! ## The messages of the server -/

namespace Hub

theorem sent_emit (hub : Hub) (e : Effect) (conn : WsConn) :
    (hub.emit e).sent conn = hub.sent conn ++ (e.bodyOn conn).toList := by
  unfold sent emit
  rw [filterMap_append]
  cases h : e.bodyOn conn <;> simp [h]

theorem sent_sendRoom (hub : Hub) (uid : Nat) (body : Json) (conn : WsConn) :
    (hub.sendRoom uid body).sent conn =
      hub.sent conn ++ if hub.online.roomUser uid = some conn then [body] else [] := by
  unfold sendRoom getConnFromRoom
  split
  · next c hc =>
    rw [hc, sent_emit, Effect.bodyOn]
    by_cases h : c = conn <;> simp [h]
  · next hnone => simp [hnone]

end Hub

variable {r : Room} {req : Json}

namespace Room

theorem recorded_online (r : Room) (winnerId : Nat) (hub : Hub) :
    (r.recorded winnerId hub).online = hub.online := by
  unfold recorded
  split <;> rfl

theorem recorded_sent (r : Room) (winnerId : Nat) (hub : Hub) (conn : WsConn) :
    (r.recorded winnerId hub).sent conn = hub.sent conn := by
  unfold recorded
  split
  · rfl
  · simp [record, Hub.sent_emit, Effect.bodyOn]

theorem broadcast_sent (r : Room) (rsp : Json) (hub : Hub) (conn : WsConn) :
    (r.broadcast rsp hub).sent conn =
      hub.sent conn ++ (if hub.online.roomUser r.whiteId = some conn then [rsp] else []) ++
        if hub.online.roomUser r.blackId = some conn then [rsp] else [] := by
  have honline : (hub.sendRoom r.whiteId rsp).online = hub.online := by
    unfold Hub.sendRoom
    split <;> rfl
  rw [broadcast, Hub.sent_sendRoom, Hub.sent_sendRoom, honline]

end Room

namespace Table

variable {t : Table}

def sideOf (t : Table) (uid : Value) : Option Side :=
  if uid = .int (t.uid .white) then some .white
  else if uid = .int (t.uid .black) then some .black
  else none

theorem sideOf_uid (side : Side) : t.sideOf (.int (t.uid side)) = some side := by
  cases side with
  | white => simp [sideOf]
  | black => simp [sideOf, t.players.symm]

theorem uid_eq_iff (side side' : Side) : t.uid side = t.uid side' ↔ side = side' := by
  constructor
  · intro h
    have hsome := sideOf_uid (t := t) side
    rw [h, sideOf_uid] at hsome
    exact (Option.some.inj hsome).symm
  · rintro rfl
    rfl

structure Seats (t : Table) (r : Room) : Prop where
  id : r.roomId = t.roomId
  white : r.whiteId = t.uid .white
  black : r.blackId = t.uid .black

theorem Seats.colorOf (h : t.Seats r) (side : Side) : r.colorOf (t.uid side) = side.stone := by
  unfold Room.colorOf
  rw [h.white]
  cases side with
  | white => exact if_pos rfl
  | black => exact if_neg t.players.symm

theorem conn_ne {side side' : Side} (h : side ≠ side') : t.conn side ≠ t.conn side' := by
  cases side <;> cases side'
  · exact absurd rfl h
  · exact t.conns
  · exact t.conns.symm
  · exact absurd rfl h

end Table

namespace Match

theorem send_up_self (s : Match) (side : Side) (msg : Option Json) :
    (s.send side msg).up side = s.up side ++ msg.toList := update_self _ _ _

theorem send_up_ne (s : Match) {side side' : Side} (msg : Option Json) (h : side' ≠ side) :
    (s.send side msg).up side' = s.up side' := update_of_ne h _ _

end Match

section

variable [JsonCpp]

theorem isMove_chessInfo [LawfulJsonCpp] (rid uid : Nat) (row col : Int) :
    Match.isMove (chessInfo rid uid row col) = true := by
  simp [Match.isMove, chessInfo]

namespace Room

theorem field_placed [LawfulJsonCpp] (req : Json) (winnerId : Nat) {key : String}
    (hreason : key ≠ "reason")
    (hresult : key ≠ "result") (hwinner : key ≠ "winner") :
    (placed req winnerId).field key = req.field key := by
  unfold placed
  split <;> simp [hreason, hresult, hwinner]

theorem Answer.hub {r' : Room} {resp : Json} {hub hub' : Hub} (h : Answer r req hub resp r' hub') :
    hub'.online = hub.online ∧ ∀ conn, hub'.sent conn = hub.sent conn := by
  cases h with
  | refused optype reason _ => exact ⟨rfl, fun _ => rfl⟩
  | chess resp r1 winnerId _ _ _ _ =>
    exact ⟨recorded_online r1 winnerId hub, recorded_sent r1 winnerId hub⟩
  | chat resp _ _ => exact ⟨rfl, fun _ => rfl⟩

end Room

namespace Table

variable (t : Table)

def ready (side : Side) : Json :=
  roomReady (new t.roomId (t.uid .white) (t.uid .black)) (t.uid side)

def chatInfo (side : Side) (message : String) : Json :=
  (((Json.set ∅ "optype" (.string "chat")).set "room_id" (.int t.roomId)).set
    "uid" (.int (t.uid side))).set "message" (.string message)

inductive Asked (side : Side) : Json → Prop where
  | move (row col : Int) : Asked side (chessInfo t.roomId (t.uid side) row col)
  | chat (message : String) : Asked side (t.chatInfo side message)

def moveOf (info : Json) : Option Move :=
  if info.field "optype" = .string "put_chess" ∧ info.field "result" = .bool true then
    match info.field "row", info.field "col", t.sideOf (info.field "uid") with
    | .int row, .int col, some side => some ⟨row, col, side⟩
    | _, _, _ => none
  else none

inductive Told (info : Json) : Option Move → Prop where
  | move (m : Move) : info.field "optype" = .string "put_chess" →
      info.field "result" = .bool true → info.field "row" = .int m.row →
      info.field "col" = .int m.col → info.field "uid" = .int (t.uid m.side) →
      0 ≤ m.row → 0 ≤ m.col → Told info (some m)
  | other : info.field "optype" ≠ .string "room_ready" →
      (info.field "optype" = .string "put_chess" → info.field "result" = .bool false) →
      Told info none

def moves (answers : List Json) : List Move := answers.filterMap t.moveOf

variable {t}

theorem Told.moveOf_eq {info : Json} {m : Option Move} (h : t.Told info m) : t.moveOf info = m := by
  unfold moveOf
  cases h with
  | move m hop hres hrow hcol huid _ _ =>
    rw [if_pos ⟨hop, hres⟩, hrow, hcol, huid, sideOf_uid]
  | other hop hres =>
    rw [if_neg]
    rintro ⟨hput, htrue⟩
    rw [hres hput] at htrue
    cases htrue

theorem moves_concat (answers : List Json) (info : Json) :
    t.moves (answers ++ [info]) = t.moves answers ++ (t.moveOf info).toList := by
  unfold moves
  rw [filterMap_append]
  cases h : t.moveOf info <;> simp [h]

theorem Seats.ready (h : t.Seats r) (side : Side) : roomReady r (t.uid side) = t.ready side := by
  unfold Table.ready roomReady
  rw [h.id, h.white, h.black]
  rfl

theorem Seats.answer [LawfulJsonCpp] {r' : Room} {hub hub' : Hub} {resp : Json} {side : Side}
    (h : t.Seats r)
    (hreq : t.Asked side req)
    (hin : Match.isMove req = true → hub.online.isInGameRoom (t.uid .white) = true ∧
      hub.online.isInGameRoom (t.uid .black) = true)
    (hanswer : r.Answer req hub resp r' hub') :
    t.Seats r' ∧
      ((t.Told resp none ∧ r'.board = r.board) ∨
        ∃ m : Move, m.side = side ∧ req = chessInfo t.roomId (t.uid side) m.row m.col ∧
          t.Told resp (some m) ∧ r.board.cell? m.row m.col = some .free ∧
          r'.board = r.board.put m.row m.col side.stone) := by
  cases hanswer with
  | refused optype reason hop =>
    -- a refusal repeats the optype of the request, and a page never asks for
    -- `room_ready`
    refine ⟨h, Or.inl ⟨Told.other ?_ fun _ => ?_, rfl⟩⟩
    · cases hreq with
      | move row col =>
        have heq : optype = "put_chess" := by simpa [chessInfo] using hop.symm
        simp [refusal, heq]
      | chat message =>
        have heq : optype = "chat" := by simpa [chatInfo] using hop.symm
        simp [refusal, heq]
    · simp [refusal]
  | chat resp hop hresp =>
    refine ⟨h, Or.inl ⟨?_, rfl⟩⟩
    cases hreq with
    | move row col => simp [chessInfo] at hop
    | chat message =>
      have hkeep := handleChat_optype hresp
      have hchat : resp.field "optype" = .string "chat" := by rw [hkeep]; simp [chatInfo]
      exact Told.other (by simp [hchat]) (by simp [hchat])
  | chess resp r1 winnerId _ hop hchess hwinner =>
    have hseats : ∀ r2 : Room, t.Seats r2 → t.Seats (r2.ended winnerId) := by
      intro r2 h2
      unfold ended
      split
      · exact h2
      · exact ⟨h2.id, h2.white, h2.black⟩
    have hboard : (r1.ended winnerId).board = r1.board := by
      unfold ended
      split <;> rfl
    rw [hboard]
    cases hreq with
    | chat message => simp [chatInfo] at hop
    | move row col =>
      obtain ⟨hwhite, hblack⟩ := hin (isMove_chessInfo _ _ _ _)
      cases hchess with
      -- both players are in the room, so neither forfeit is answered
      | whiteAbsent habsent =>
        rw [h.white, hwhite] at habsent
        cases habsent
      | blackAbsent _ habsent =>
        rw [h.black, hblack] at habsent
        cases habsent
      | taken row' col' uid stone _ _ _ _ _ _ _ =>
        refine ⟨hseats r h, Or.inl ⟨Told.other ?_ fun _ => ?_, rfl⟩⟩
        · simp [taken, chessInfo]
        · simp [taken]
      | placed row' col' uid _ _ hrow hcol huid hcell =>
        -- the cell and the player the server reads are those the page wrote
        have hrow' : row' = row := eq_of_asInt (by simpa [chessInfo] using hrow)
        have hcol' : col' = col := eq_of_asInt (by simpa [chessInfo] using hcol)
        have huid' : uid = t.uid side := eq_of_asUInt64 (by simpa [chessInfo] using huid)
        subst hrow' hcol' huid'
        obtain ⟨i, j, hi, hj, _⟩ := Board.cell?_eq_some hcell
        refine ⟨hseats _ ⟨h.id, h.white, h.black⟩,
          Or.inr ⟨⟨row', col', side⟩, rfl, rfl, ?_, hcell, ?_⟩⟩
        · apply Told.move
          · simp [field_placed, chessInfo]
          · simp [placed]
          · simp [field_placed, chessInfo]
          · simp [field_placed, chessInfo]
          · simp [field_placed, chessInfo]
          · exact hi ▸ Int.natCast_nonneg i
          · exact hj ▸ Int.natCast_nonneg j
        · rw [move, h.colorOf side]

end Table

/-! ## The pages -/

namespace Page

def see (side : Side) (p : Page) (m : Move) : Page :=
  { p with
    isMe := decide (m.side ≠ side)
    chessBoard := p.chessBoard.mark m.row m.col
    canvas := p.canvas.put m.row m.col m.side.stone }

end Page

namespace Table

variable {t : Table}

@[simp] theorem ready_uid [LawfulJsonCpp] (side : Side) : (t.ready side).field "uid" = .int
    (t.uid side) := by
  simp [ready, roomReady]

@[simp] theorem ready_white [LawfulJsonCpp] (side : Side) :
    (t.ready side).field "white_id" = .int (t.uid .white) := by
  simp [ready, roomReady, new]

@[simp] theorem ready_room [LawfulJsonCpp] (side : Side) :
    (t.ready side).field "room_id" = .int t.roomId := by
  simp [ready, roomReady, new]

theorem Told.onmessage [LawfulJsonCpp] {info : Json} {ev : Option Move} (h : t.Told info ev)
    {p : Page}
    {side : Side} (hp : p.roomInfo = some (t.ready side)) :
    p.onmessage info = ev.elim p (p.see side) := by
  unfold Page.onmessage
  cases h with
  | other hop hres =>
    rw [if_neg hop]
    split
    · next hput => exact if_pos (hres hput)
    · rfl
  | move m hop hres hrow hcol huid hrow0 hcol0 =>
    have hput : info.field "optype" ≠ .string "room_ready" := by simp [hop]
    rw [if_neg hput, if_pos hop, if_neg (by simp [hres]), hp]
    dsimp only
    have hwhite : (int (t.uid m.side) = .int (t.uid .white)) ↔ m.side = .white := by
      rw [int.injEq, Int.natCast_inj, uid_eq_iff]
    have hside : (int (t.uid m.side) ≠ .int (t.uid side)) ↔ m.side ≠ side := by
      rw [ne_eq, int.injEq, Int.natCast_inj, uid_eq_iff]
    -- a page draws a move unless its row or column is -1
    have hrange : m.row ≠ -1 ∧ m.col ≠ -1 := by omega
    unfold Page.onmove
    rw [hrow, hcol, huid, ready_uid, ready_white]
    dsimp only
    rw [if_pos hrange]
    have hstone : (if int (t.uid m.side) = .int (t.uid .white) then Stone.white else .black) =
        m.side.stone := by
      rw [if_congr hwhite rfl rfl]
      cases m.side <;> rfl
    rw [hstone]
    simp only [hside]
    rfl

variable (t) in
def pageAfter (side : Side) (ms : List Move) : Page :=
  ms.foldl (Page.see side) (Page.new.onmessage (t.ready side))

theorem onmessage_ready [LawfulJsonCpp] (side : Side) : Page.new.onmessage (t.ready side) =
      ⟨some (t.ready side), decide (side = .white), Marks.zero, Board.empty⟩ := by
  have hop : (t.ready side).field "optype" = .string "room_ready" := by
    simp [ready, roomReady]
  unfold Page.onmessage
  rw [if_pos hop, ready_uid, ready_white]
  simp only [int.injEq, Int.natCast_inj, uid_eq_iff]
  rfl

section

variable (side : Side) (ms : List Move)

theorem pageAfter_concat (m : Move) :
    t.pageAfter side (ms ++ [m]) = (t.pageAfter side ms).see side m := by
  rw [pageAfter, foldl_append]
  rfl

theorem pageAfter_roomInfo [LawfulJsonCpp] : (t.pageAfter side ms).roomInfo = some
    (t.ready side) := by
  induction ms using reverseRecOn with
  | nil =>
    show (Page.new.onmessage (t.ready side)).roomInfo = _
    rw [onmessage_ready]
  | append_singleton ms m ih =>
    rw [pageAfter_concat]
    exact ih

theorem pageAfter_canvas [LawfulJsonCpp] : (t.pageAfter side ms).canvas = board ms := by
  induction ms using reverseRecOn with
  | nil =>
    show (Page.new.onmessage (t.ready side)).canvas = _
    rw [onmessage_ready]
    rfl
  | append_singleton ms m ih =>
    rw [pageAfter_concat, board_concat, ← ih]
    rfl

theorem pageAfter_chessBoard [LawfulJsonCpp] (i j : Fin 15) :
    (t.pageAfter side ms).chessBoard i j ≠ 0 ↔ ∃ m ∈ ms, m.On i j := by
  induction ms using reverseRecOn with
  | nil =>
    show (Page.new.onmessage (t.ready side)).chessBoard i j ≠ 0 ↔ _
    rw [onmessage_ready]
    simp [Marks.zero]
  | append_singleton ms m ih =>
    rw [pageAfter_concat]
    show (t.pageAfter side ms).chessBoard.mark m.row m.col i j ≠ 0 ↔ _
    unfold Marks.mark
    split
    · next hon => simpa using Or.inr (show m.On i j from hon)
    · next hoff =>
      rw [ih]
      simp [show ¬ m.On i j from hoff]

end

theorem foldl_onmessage [LawfulJsonCpp] (side : Side) (answers : List Json)
    (htold : ∀ info ∈ answers, t.Told info (t.moveOf info)) :
    answers.foldl Page.onmessage (Page.new.onmessage (t.ready side)) =
      t.pageAfter side (t.moves answers) := by
  induction answers using reverseRecOn with
  | nil => rfl
  | append_singleton answers info ih =>
    have hlast := htold info (by simp)
    rw [foldl_append, ih fun info' hmem => htold info' (mem_append_left _ hmem), moves_concat]
    show (t.pageAfter side (t.moves answers)).onmessage info = _
    rw [hlast.onmessage (pageAfter_roomInfo side _)]
    cases hev : t.moveOf info with
    | none => simp
    | some m => exact (pageAfter_concat side _ m).symm

end Table

/-! ## The invariant of a game -/

namespace Match

variable {t : Table} {s s' : Match} {answers : List Json} {side : Side}

/-- What the page has been sent after it joined has all the moves. -/
def Heard (t : Table) (sv : Server) (answers : List Json) (side : Side) (heard : List Json) :
    Prop :=
  heard <:+ answers ∧ t.moves heard = t.moves answers ∧
    sv.hub.sent (t.conn side) = t.ready side :: heard

def Joined (t : Table) (sv : Server) (answers : List Json) (side : Side) : Prop :=
  (sv.hub.online.roomUser (t.uid side) = none ∧ sv.hub.sent (t.conn side) = [] ∧
    t.moves answers = []) ∨
  (sv.hub.online.roomUser (t.uid side) = some (t.conn side) ∧
    ∃ heard, Heard t sv answers side heard)

structure Serves (t : Table) (sv : Server) (answers : List Json) : Prop where
  agree : sv.rm.Agree
  room : ∃ r, sv.rm.rooms t.roomId = some r ∧ t.Seats r ∧ r.board = board (t.moves answers)
  hall : ∀ side, sv.hub.online.hallUser (t.uid side) = none
  joined : ∀ side, Joined t sv answers side
  told : ∀ info ∈ answers, t.Told info (t.moveOf info)
  apart : Move.Apart (t.moves answers)

structure Logged (t : Table) (s : Match) (answers : List Json) : Prop where
  serves : Serves t s.server answers
  asked : ∀ side req, req ∈ s.up side → t.Asked side req
  seen : ∀ side, s.seen side ≤ (s.server.hub.sent (t.conn side)).length
  page : ∀ side, s.page side =
    ((s.server.hub.sent (t.conn side)).take (s.seen side)).foldl Page.onmessage Page.new
  stones : s.stones = (t.moves answers).map fun m => m.side.stone

/-- Nothing that was answered, sent or seen is taken back. -/
structure Later (t : Table) (s : Match) (answers : List Json) (s' : Match)
    (answers' : List Json) : Prop where
  answers : answers <+: answers'
  sent : ∀ side, s.server.hub.sent (t.conn side) <+: s'.server.hub.sent (t.conn side)
  seen : ∀ side, s.seen side ≤ s'.seen side

omit [JsonCpp] in
theorem Later.of_server (hserver : s'.server = s.server)
    (hseen : ∀ side, s.seen side ≤ s'.seen side) : Later t s answers s' answers :=
  ⟨prefix_refl _, fun _ => hserver ▸ prefix_refl _, hseen⟩

theorem start_logged (t : Table) : Logged t (start t) [] := by
  have hoff : ∀ side, t.server.hub.online.hallUser (t.uid side) = none ∧
      t.server.hub.online.roomUser (t.uid side) = none := by
    intro side
    have habsent := t.absent side
    rw [isOnline, Bool.or_eq_false_iff] at habsent
    simpa [isInGameHall, isInGameRoom] using habsent
  constructor
  · constructor
    · exact t.agree
    · exact ⟨_, t.room, ⟨rfl, rfl, rfl⟩, rfl⟩
    · exact fun side => (hoff side).1
    · exact fun side => Or.inl ⟨(hoff side).2, t.unsent side, rfl⟩
    · intro info hmem
      cases hmem
    · exact List.Pairwise.nil
  · intro side req hmem
    cases hmem
  · exact fun _ => Nat.zero_le _
  · exact fun _ => rfl
  · rfl

section server

variable {sv sv' : Server}

theorem Serves.getRoomByUid (h : Serves t sv answers) (hroom : sv.rm.rooms t.roomId = some r)
    (hseats : t.Seats r) (side : Side) : sv.rm.getRoomByUid (t.uid side) = some r := by
  have hfound := h.agree.getRoomByUid hroom
  rw [hseats.white, hseats.black] at hfound
  cases side with
  | white => exact hfound.1
  | black => exact hfound.2

theorem Serves.join (h : Serves t sv answers) (hoff : sv.hub.online.roomUser (t.uid side) = none) :
    Serves t (sv.wsopenGameRoom (t.conn side) (t.uid side)) answers ∧
      ∀ side', (sv.wsopenGameRoom (t.conn side) (t.uid side)).hub.sent (t.conn side') =
        sv.hub.sent (t.conn side') ++ if side = side' then [t.ready side] else [] := by
  obtain ⟨r, hroom, hseats, hboard⟩ := h.room
  have honline : sv.isOnline (t.uid side) = false := by
    simp [isOnline, isInGameHall, isInGameRoom, h.hall, hoff]
  have hopen : sv.wsopenGameRoom (t.conn side) (t.uid side) =
      ⟨Hub.emit ⟨sv.hub.online.joinGameRoom (t.uid side) (t.conn side), sv.hub.out⟩
        (.send (t.conn side) (t.ready side)), sv.rm⟩ := by
    rw [wsopenGameRoom, if_neg (by simp [honline]),
      h.getRoomByUid hroom hseats side, ← hseats.ready side]
    rfl
  have hsent : ∀ side', (sv.wsopenGameRoom (t.conn side) (t.uid side)).hub.sent (t.conn side') =
      sv.hub.sent (t.conn side') ++ if side = side' then [t.ready side] else [] := by
    intro side'
    rw [hopen]
    dsimp only
    rw [Hub.sent_emit]
    by_cases hs : side = side'
    · subst hs
      simp [Hub.sent, Effect.bodyOn]
    · simp [Hub.sent, Effect.bodyOn, conn_ne hs, hs]
  -- no move is handled before both pages have joined
  have hempty : sv.hub.sent (t.conn side) = [] ∧ t.moves answers = [] := by
    rcases h.joined side with ⟨_, hnone⟩ | ⟨hsome, _⟩
    · exact hnone
    · rw [hoff] at hsome
      cases hsome
  refine ⟨?_, hsent⟩
  constructor
  · rw [hopen]
    exact h.agree
  · rw [hopen]
    exact ⟨r, hroom, hseats, hboard⟩
  · rw [hopen]
    exact h.hall
  · intro side'
    unfold Joined Heard
    rw [hsent]
    by_cases hs : side = side'
    · subst hs
      refine Or.inr ⟨?_, [], nil_suffix, hempty.2.symm, ?_⟩
      · rw [hopen]
        exact Dict.insert_of_none _ hoff
      · rw [if_pos rfl, hempty.1]
        rfl
    · have hkeep : (sv.wsopenGameRoom (t.conn side) (t.uid side)).hub.online.roomUser
          (t.uid side') = sv.hub.online.roomUser (t.uid side') := by
        rw [hopen]
        exact Dict.insert_ne _ _ fun heq => hs ((uid_eq_iff _ _).mp heq.symm)
      rw [hkeep, if_neg hs, append_nil]
      exact h.joined side'
  · exact h.told
  · exact h.apart

theorem Serves.broadcast_sent {r' : Room} {hub' : Hub} (h : Serves t sv answers)
    (hseats : t.Seats r') (honline : hub'.online = sv.hub.online)
    (hsent : ∀ conn, hub'.sent conn = sv.hub.sent conn) (info : Json) (side : Side) :
    (r'.broadcast info hub').sent (t.conn side) = sv.hub.sent (t.conn side) ++
      if (sv.hub.online.roomUser (t.uid side)).isSome then [info] else [] := by
  -- a page is reached through the entry of its own user only
  have hconn : ∀ side', sv.hub.online.roomUser (t.uid side') = some (t.conn side) ↔
      side' = side ∧ (sv.hub.online.roomUser (t.uid side)).isSome := by
    intro side'
    rcases h.joined side' with ⟨hnone, _⟩ | ⟨hsome, _⟩
    · rw [hnone]
      refine iff_of_false (by simp) ?_
      rintro ⟨rfl, hin⟩
      rw [hnone] at hin
      cases hin
    · by_cases hs : side' = side
      · subst hs
        simp [hsome]
      · simp [hsome, conn_ne hs, hs]
  rw [Room.broadcast_sent, hseats.white, hseats.black, honline, hsent]
  simp only [hconn]
  cases side <;> simp

theorem Serves.told_concat {r' : Room} {info : Json} (h : Serves t sv answers)
    (hboard : r.board = board (t.moves answers))
    (hcases : (t.Told info none ∧ r'.board = r.board) ∨
      ∃ m : Move, m.side = side ∧ req = chessInfo t.roomId (t.uid side) m.row m.col ∧
        t.Told info (some m) ∧ r.board.cell? m.row m.col = some .free ∧
        r'.board = r.board.put m.row m.col side.stone) :
    t.Told info (t.moveOf info) ∧ r'.board = board (t.moves (answers ++ [info])) ∧
      Move.Apart (t.moves (answers ++ [info])) ∧
      r.board.stonesSince r'.board = (t.moveOf info).toList.map fun m => m.side.stone := by
  rw [moves_concat]
  rcases hcases with ⟨htold, hsame⟩ | ⟨m, rfl, _, htold, hfree, hput⟩
  · rw [htold.moveOf_eq, hsame]
    simpa using ⟨htold, hboard, h.apart⟩
  · -- the move was to a free cell, so the board of the moves gets its stone
    rw [htold.moveOf_eq, hput, Board.stonesSince_put (stone_ne_free _) hfree]
    rw [hboard] at hfree ⊢
    exact ⟨htold, (board_concat _ _).symm, h.apart.concat hfree, rfl⟩

theorem Serves.joined_concat {sv' : Server} {info : Json} (h : Serves t sv answers)
    (honline : sv'.hub.online = sv.hub.online)
    (hsent : ∀ side, sv'.hub.sent (t.conn side) = sv.hub.sent (t.conn side) ++
      if (sv.hub.online.roomUser (t.uid side)).isSome then [info] else [])
    (hmove : ∀ side, sv.hub.online.roomUser (t.uid side) = none → t.moveOf info = none)
    (side : Side) : Joined t sv' (answers ++ [info]) side := by
  unfold Joined Heard
  rw [honline, hsent, moves_concat]
  rcases h.joined side with ⟨hnone, hempty, hmoves⟩ | ⟨hsome, heard, hsuffix, hmoves, hheard⟩
  · refine Or.inl ⟨hnone, ?_, ?_⟩
    · rw [hempty, hnone]
      rfl
    · rw [hmoves, hmove side hnone]
      rfl
  · refine Or.inr ⟨hsome, heard ++ [info], ?_, ?_, ?_⟩
    · obtain ⟨missed, rfl⟩ := hsuffix
      exact ⟨missed, (append_assoc _ _ _).symm⟩
    · rw [moves_concat, hmoves]
    · rw [hheard, hsome]
      rfl

theorem Serves.handle [LawfulJsonCpp] (h : Serves t sv answers) (hreq : t.Asked side req)
    (hin : isMove req = true → sv.hub.online.isInGameRoom (t.uid .white) = true ∧
      sv.hub.online.isInGameRoom (t.uid .black) = true)
    (hok : sv.wsmsgGameRoom (t.conn side) (t.uid side) (some req) = .ok sv') :
    ∃ (info : Json) (more : Side → List Json), Serves t sv' (answers ++ [info]) ∧
      (t.Told info none ∨
        ∃ m : Move, m.side = side ∧ req = chessInfo t.roomId (t.uid side) m.row m.col ∧
          t.Told info (some m)) ∧
      (∀ side', sv'.hub.sent (t.conn side') = sv.hub.sent (t.conn side') ++ more side') ∧
      (sv.boardOf t.roomId).stonesSince (sv'.boardOf t.roomId) =
        (t.moveOf info).toList.map fun m => m.side.stone := by
  obtain ⟨r, hroom, hseats, hboard⟩ := h.room
  unfold wsmsgGameRoom at hok
  rw [h.getRoomByUid hroom hseats side] at hok
  obtain ⟨⟨r', hub'⟩, hhandle, hsv'⟩ := Exec.except_bind_ok hok
  cases hsv'
  -- the request is answered, then the answer is broadcast
  obtain ⟨⟨info, _, hub1⟩, hrespond, hbroadcast⟩ := Exec.except_bind_ok hhandle
  cases hbroadcast
  have hanswer := respond_answer hrespond
  obtain ⟨hseats', hcases⟩ := hseats.answer hreq hin hanswer
  obtain ⟨honline, hsent⟩ := hanswer.hub
  obtain ⟨htold, hboard', hapart, hstones⟩ := h.told_concat hboard hcases
  have hroom' : (sv.rm.update r').rooms t.roomId = some r' := by
    rw [← hseats'.id]
    exact RoomManager.update_rooms_self _ _
  have hsent' := h.broadcast_sent hseats' honline hsent info
  have honline' := (r'.broadcast_online info hub1).trans honline
  -- a move is answered only while both players are there
  have hmove : ∀ side', sv.hub.online.roomUser (t.uid side') = none → t.moveOf info = none := by
    intro side' hnone
    rcases hcases with ⟨hother, _⟩ | ⟨m, _, hmsg, _⟩
    · exact hother.moveOf_eq
    · obtain ⟨hwhite, hblack⟩ := hin (hmsg ▸ isMove_chessInfo _ _ _ _)
      cases side' with
      | white => simp [isInGameRoom, hnone] at hwhite
      | black => simp [isInGameRoom, hnone] at hblack
  refine ⟨info, fun side' => if (sv.hub.online.roomUser (t.uid side')).isSome then [info] else [],
    ?_, ?_, hsent', ?_⟩
  · constructor
    · exact h.agree.update hroom hseats'.id (hseats'.white.trans hseats.white.symm)
        (hseats'.black.trans hseats.black.symm)
    · exact ⟨r', hroom', hseats', hboard'⟩
    · intro side'
      show (r'.broadcast info hub1).online.hallUser _ = none
      rw [honline']
      exact h.hall side'
    · exact h.joined_concat honline' hsent' hmove
    · intro info' hmem
      rcases mem_append.mp hmem with hold | hnew
      · exact h.told info' hold
      · rw [mem_singleton.mp hnew]
        exact htold
    · exact hapart
  · rcases hcases with ⟨htold, _⟩ | ⟨m, hside, hmsg, htold, _⟩
    · exact Or.inl htold
    · exact Or.inr ⟨m, hside, hmsg, htold⟩
  · have hold : sv.boardOf t.roomId = r.board := by
      rw [boardOf, hroom]
    have hnew : boardOf ⟨r'.broadcast info hub1, sv.rm.update r'⟩ t.roomId = r'.board := by
      rw [boardOf]
      dsimp only
      rw [hroom']
    rw [hold]
    exact (congrArg _ hnew).trans hstones

end server

theorem Logged.of_sent (h : Logged t s answers) {sv' : Server} {more : Side → List Json}
    {answers' : List Json} (hserves : Serves t sv' answers')
    (hsent : ∀ side, sv'.hub.sent (t.conn side) = s.server.hub.sent (t.conn side) ++ more side)
    (hserver : s'.server = sv') (hpage : s'.page = s.page) (hseen : s'.seen = s.seen)
    (hasked : ∀ side req, req ∈ s'.up side → t.Asked side req)
    (hstones : s'.stones = (t.moves answers').map fun m => m.side.stone) :
    Logged t s' answers' := by
  subst hserver
  constructor
  · exact hserves
  · exact hasked
  · intro side
    rw [hsent, hseen, length_append]
    exact Nat.le_add_right_of_le (h.seen side)
  · intro side
    rw [hsent, hseen, hpage, take_append_of_le_length (h.seen side)]
    exact h.page side
  · exact hstones

theorem Logged.page_eq [LawfulJsonCpp] (h : Logged t s answers) (side : Side) :
    (s.seen side = 0 ∧ s.page side = Page.new) ∨
      ∃ n heard, s.seen side = n + 1 ∧ Heard t s.server answers side heard ∧
        s.page side = t.pageAfter side (t.moves (heard.take n)) := by
  have hpage := h.page side
  cases hseen : s.seen side with
  | zero =>
    rw [hseen] at hpage
    exact Or.inl ⟨rfl, hpage⟩
  | succ n =>
    have hle := h.seen side
    rw [hseen] at hle hpage
    rcases h.serves.joined side with ⟨_, hnone, _⟩ | ⟨_, heard, hheard⟩
    · rw [hnone] at hle
      cases hle
    · refine Or.inr ⟨n, heard, rfl, hheard, ?_⟩
      rw [hpage, hheard.2.2, take_succ_cons, foldl_cons]
      exact foldl_onmessage side _ fun info hmem =>
        h.serves.told info (hheard.1.mem (mem_of_mem_take hmem))

theorem Logged.asked_click [LawfulJsonCpp] (h : Logged t s answers) {row col : Int} {msg : Json}
    (hmsg : (s.page side).onclick row col = some msg) :
    (s.page side).isMe = true ∧ msg = chessInfo t.roomId (t.uid side) row col := by
  unfold Page.onclick at hmsg
  split at hmsg
  · cases hmsg
  next hme =>
  split at hmsg
  · cases hmsg
  obtain ⟨info, hinfo, hsend⟩ := Option.map_eq_some_iff.mp hmsg
  refine ⟨by simpa using hme, ?_⟩
  rcases h.page_eq side with ⟨_, hnew⟩ | ⟨n, heard, _, _, hafter⟩
  · rw [hnew] at hinfo
    cases hinfo
  · rw [hafter, pageAfter_roomInfo] at hinfo
    cases hinfo
    rw [← hsend, Page.sendChess, ready_uid, ready_room]
    rfl

theorem Logged.asked_chat [LawfulJsonCpp] (h : Logged t s answers) {message : String} {msg : Json}
    (hmsg : (s.page side).onchat message = some msg) : msg = t.chatInfo side message := by
  obtain ⟨info, hinfo, hsend⟩ := Option.map_eq_some_iff.mp hmsg
  rcases h.page_eq side with ⟨_, hnew⟩ | ⟨n, heard, _, _, hafter⟩
  · rw [hnew] at hinfo
    cases hinfo
  · rw [hafter, pageAfter_roomInfo] at hinfo
    cases hinfo
    rw [← hsend, ready_uid, ready_room]
    rfl

section

variable (h : Logged t s answers)

include h

theorem Logged.send {msg : Option Json} (hmsg : ∀ req, msg = some req → t.Asked side req) :
    Logged t (s.send side msg) answers := by
  refine ⟨h.serves, fun side' req hmem => ?_, h.seen, h.page, h.stones⟩
  by_cases hs : side' = side
  · subst hs
    rw [send_up_self] at hmem
    rcases mem_append.mp hmem with hold | hnew
    · exact h.asked side' req hold
    · exact hmsg req (Option.mem_toList.mp hnew)
  · rw [send_up_ne s msg hs] at hmem
    exact h.asked side' req hmem

theorem Logged.deliver (hnext : next t s (.deliver side) = some s') :
    Logged t s' answers ∧ Later t s answers s' answers := by
  simp only [next] at hnext
  split at hnext
  · cases hnext
  · next info hinfo =>
    cases hnext
    obtain ⟨hlt, hget⟩ := List.getElem?_eq_some_iff.mp hinfo
    refine ⟨⟨h.serves, h.asked, fun side' => ?_, fun side' => ?_, h.stones⟩,
      .of_server rfl fun side' => ?_⟩
    · by_cases hs : side' = side
      · subst hs
        dsimp only
        rw [Function.update_self]
        exact hlt
      · dsimp only
        rw [Function.update_of_ne hs]
        exact h.seen side'
    · by_cases hs : side' = side
      · subst hs
        dsimp only
        rw [Function.update_self, Function.update_self, List.take_add_one, hinfo, List.foldl_append,
          ← h.page side']
        rfl
      · dsimp only
        rw [Function.update_of_ne hs, Function.update_of_ne hs]
        exact h.page side'
    · by_cases hs : side' = side
      · subst hs
        dsimp only
        rw [Function.update_self]
        exact Nat.le_succ _
      · dsimp only
        rw [Function.update_of_ne hs]

theorem Logged.handle [LawfulJsonCpp] (hin : bothIn t s (.handle side) = true)
    (hnext : next t s (.handle side) = some s') :
    ∃ req rest info, s.up side = req :: rest ∧ s'.up = Function.update s.up side rest ∧
      Later t s answers s' (answers ++ [info]) ∧ Logged t s' (answers ++ [info]) ∧
      (t.Told info none ∨
        ∃ m : Move, m.side = side ∧ req = chessInfo t.roomId (t.uid side) m.row m.col ∧
          t.Told info (some m)) := by
  simp only [next] at hnext
  split at hnext
  · cases hnext
  next req rest hup =>
  split at hnext
  · cases hnext
  next sv' hok =>
  cases hnext
  have hreq : t.Asked side req := h.asked side req (hup ▸ mem_cons_self)
  have hboth : isMove req = true → s.server.hub.online.isInGameRoom (t.uid .white) = true ∧
      s.server.hub.online.isInGameRoom (t.uid .black) = true := by
    intro hmove
    simpa [bothIn, hup, hmove] using hin
  obtain ⟨info, more, hserves, hcases, hsent, hstones⟩ := h.serves.handle hreq hboth hok
  refine ⟨req, rest, info, hup, rfl, ⟨?_, fun side' => ?_, fun side' => ?_⟩, ?_, hcases⟩
  · exact prefix_append _ _
  · exact ⟨_, (hsent side').symm⟩
  · exact Nat.le_refl _
  refine h.of_sent hserves hsent rfl rfl rfl (fun side' req' hmem => ?_) ?_
  · by_cases hs : side' = side
    · subst hs
      dsimp only at hmem
      rw [update_self] at hmem
      exact h.asked side' req' (hup ▸ mem_cons_of_mem _ hmem)
    · dsimp only at hmem
      rw [update_of_ne hs] at hmem
      exact h.asked side' req' hmem
  · dsimp only
    rw [h.stones, hstones, moves_concat, map_append]

theorem Logged.join (hnext : next t s (.join side) = some s') :
    Logged t s' answers ∧ Later t s answers s' answers := by
  simp only [next] at hnext
  split at hnext
  · cases hnext
  next hoff =>
  cases hnext
  have hnone : s.server.hub.online.roomUser (t.uid side) = none := by
    simpa [isInGameRoom] using hoff
  obtain ⟨hserves, hsent⟩ := h.serves.join hnone
  refine ⟨h.of_sent hserves hsent rfl rfl rfl h.asked h.stones, prefix_refl _, fun side' => ?_,
    fun _ => Nat.le_refl _⟩
  exact ⟨_, (hsent side').symm⟩

theorem Logged.next [LawfulJsonCpp] {l : MatchStep} (hstep : (games t).step s l s') :
    ∃ answers', Logged t s' answers' ∧ Later t s answers s' answers' := by
  obtain ⟨hin, hnext⟩ := hstep
  cases l with
  | join side => exact ⟨answers, h.join hnext⟩
  | click side row col =>
    cases hnext
    refine ⟨answers, h.send fun req hreq => ?_, .of_server rfl fun _ => Nat.le_refl _⟩
    exact (h.asked_click hreq).2 ▸ .move row col
  | chat side message =>
    cases hnext
    refine ⟨answers, h.send fun req hreq => ?_, .of_server rfl fun _ => Nat.le_refl _⟩
    exact h.asked_chat hreq ▸ .chat message
  | handle side =>
    obtain ⟨req, rest, info, _, _, hlater, h', _⟩ := h.handle hin hnext
    exact ⟨_, h', hlater⟩
  | deliver side => exact ⟨answers, h.deliver hnext⟩

end

theorem exists_logged [LawfulJsonCpp] (h : (games t).Reachable s) :
    ∃ answers, Logged t s answers := by
  refine System.invariant (fun s => ∃ answers, Logged t s answers) ?_ ?_ s h
  · rintro _ rfl
    exact ⟨[], start_logged t⟩
  · rintro s1 l s2 ⟨answers, h1⟩ hstep
    obtain ⟨answers', h2, _⟩ := h1.next hstep
    exact ⟨answers', h2⟩

theorem Logged.run [LawfulJsonCpp] {ls : List MatchStep} (h : Logged t s answers)
    (hrun : (games t).Steps s ls s') :
    ∃ answers', Logged t s' answers' ∧ Later t s answers s' answers' := by
  refine hrun.preserves (fun s' => ∃ answers', Logged t s' answers' ∧ Later t s answers s' answers')
    ?_ ⟨answers, h, .of_server rfl fun _ => Nat.le_refl _⟩
  rintro s1 l s2 ⟨answers1, h1, hlater1⟩ hstep
  obtain ⟨answers2, h2, hlater2⟩ := h1.next hstep
  exact ⟨answers2, h2, hlater1.answers.trans hlater2.answers,
    fun side => (hlater1.sent side).trans (hlater2.sent side),
    fun side => (hlater1.seen side).trans (hlater2.seen side)⟩

theorem Logged.quiet_page [LawfulJsonCpp] (h : Logged t s answers) (hquiet : quiet t s)
    (side : Side)
    (i j : Fin 15) :
    (s.page side).chessBoard i j ≠ 0 ↔ board (t.moves answers) i j ≠ .free := by
  rw [board_ne_free_iff]
  have hall := (hquiet side).2
  rcases h.page_eq side with ⟨hzero, hnew⟩ | ⟨n, heard, hseen, ⟨_, hmoves, hsent⟩, hafter⟩
  · -- nothing has been sent, so no move has been answered
    have hnone : t.moves answers = [] := by
      rcases h.serves.joined side with ⟨_, _, hnone⟩ | ⟨_, heard, _, _, hsent⟩
      · exact hnone
      · rw [hzero, hsent] at hall
        cases hall
    rw [hnew, hnone]
    simp [Page.new, Marks.zero]
  · have htake : heard.take n = heard := by
      rw [hsent, hseen, length_cons] at hall
      exact take_of_length_le (Nat.succ.inj hall).ge
    rw [hafter, pageAfter_chessBoard, htake, hmoves]

theorem Logged.canvas_kept [LawfulJsonCpp] {answers' : List Json} (h : Logged t s answers)
    (h' : Logged t s' answers') (hlater : Later t s answers s' answers') {i j : Fin 15}
    (hcell : (s.page side).canvas i j ≠ .free) :
    (s'.page side).canvas i j = (s.page side).canvas i j := by
  rcases h.page_eq side with ⟨_, hnew⟩ | ⟨n, heard, hn, ⟨_, _, hsent⟩, hafter⟩
  · rw [hnew] at hcell
    exact absurd rfl hcell
  have hseen := hlater.seen side
  rcases h'.page_eq side with ⟨hzero, _⟩ | ⟨n', heard', hn', ⟨_, hmoves', hsent'⟩, hafter'⟩
  · omega
  · rw [hafter, pageAfter_canvas] at hcell ⊢
    rw [hafter', pageAfter_canvas]
    have hpre := hlater.sent side
    rw [hsent, hsent', cons_prefix_cons] at hpre
    -- what had arrived is the beginning of what has arrived now
    have htake : heard.take n <+: heard'.take n' := by
      refine prefix_of_prefix_length_le ((List.take_prefix _ _).trans hpre.2)
        (List.take_prefix _ _) ?_
      have hlen := hpre.2.length_le
      rw [length_take, length_take]
      omega
    have hapart : Move.Apart (t.moves (heard'.take n')) := by
      have hall := h'.serves.apart
      rw [← hmoves'] at hall
      exact hall.sublist ((take_sublist _ _).filterMap _)
    exact board_of_prefix hapart (htake.filterMap _) hcell

/-- **The boards agree.** Whenever no message is on its way, both pages mark
    exactly the cells of the room that have a stone. Along every run, a cell
    of the room and of a page keeps the colour of its stone. -/
theorem boards_agree [LawfulJsonCpp] (t : Table) (s : Match) (h : (games t).Reachable s) :
    ∃ r, s.server.rm.rooms t.roomId = some r ∧
      (quiet t s → ∀ side i j, (s.page side).chessBoard i j ≠ 0 ↔ r.board i j ≠ .free) ∧
      ∀ steps s', (games t).Steps s steps s' → ∃ r', s'.server.rm.rooms t.roomId = some r' ∧
        (∀ i j, r.board i j ≠ .free → r'.board i j = r.board i j) ∧
        ∀ side i j, (s.page side).canvas i j ≠ .free →
          (s'.page side).canvas i j = (s.page side).canvas i j := by
  obtain ⟨answers, hlog⟩ := exists_logged h
  obtain ⟨r, hroom, _, hboard⟩ := hlog.serves.room
  refine ⟨r, hroom, fun hquiet side i j => ?_, fun steps s' hrun => ?_⟩
  · rw [hboard]
    exact hlog.quiet_page hquiet side i j
  · obtain ⟨answers', hlog', hlater⟩ := hlog.run hrun
    obtain ⟨r', hroom', _, hboard'⟩ := hlog'.serves.room
    refine ⟨r', hroom', fun i j hcell => ?_, fun side i j hcell => ?_⟩
    · rw [hboard] at hcell ⊢
      rw [hboard']
      exact board_of_prefix hlog'.serves.apart (hlater.answers.filterMap _) hcell
    · exact hlog.canvas_kept hlog' hlater hcell

end Match

end

namespace Match

attribute [local instance] JsonCpp.standard JsonCpp.lawful_standard

def oneMove : List MatchStep :=
  [.join .white, .deliver .white, .chat .white "hi", .handle .white, .deliver .white, .join .black,
    .deliver .black, .click .white 7 7, .handle .white, .deliver .black, .deliver .white]

/-- The white page sends a text that the black page misses, and then a move. -/
theorem boards_agree_one_move : (games .twoUsers).Steps (start .twoUsers) oneMove (after oneMove) ∧
      quiet .twoUsers (after oneMove) ∧
      ∃ r, (after oneMove).server.rm.rooms 1 = some r ∧ r.board 7 7 = .white ∧
        ∀ side i j, ((after oneMove).page side).chessBoard i j ≠ 0 ↔ r.board i j ≠ .free := by
  have hrun : (games .twoUsers).Steps (start .twoUsers) oneMove (after oneMove) :=
    System.restrict_steps_of_run rfl
  have hquiet : quiet .twoUsers (after oneMove) := by
    intro side
    cases side <;> exact ⟨rfl, rfl⟩
  obtain ⟨r, hroom, hagree, _⟩ := boards_agree .twoUsers _ ⟨_, _, rfl, hrun⟩
  refine ⟨hrun, hquiet, r, hroom, ?_, hagree hquiet⟩
  cases hroom
  rfl

end Match

end CallLesson.Gobang
