import CallLesson.Gobang.MoveRequests

/-! # Forfeits

    `handle_chess` awards the game to a player whose opponent is not in
    `_room_user`. A player who has not come yet is not there either: whoever
    comes first and moves has won. Between players who move only when both
    have come, a forfeit is awarded only against one who has left. -/

namespace CallLesson.Gobang

open Lobby

/-! ## Visits to a room -/

inductive RoomEvent where
  | lobby (l : LobbyStep)
  | message (conn : WsConn) (msg : Option Json)

namespace Lobby

def react [JsonCpp] (s : Lobby) : RoomEvent → Option Lobby
  | .lobby l => s.next l
  | .message conn msg =>
      match s.links conn with
      | some ⟨.room, uid, _⟩ =>
          match s.server.wsmsgGameRoom conn uid msg with
          | .ok server => some { s with server := server }
          | .error _ => none
      | _ => none

def events [JsonCpp] : System Lobby RoomEvent := System.ofNext initial react

end Lobby

structure Visit where
  lobby : Lobby
  came : List Nat

namespace Visit

def roomUser (v : Visit) : Dict Nat WsConn := v.lobby.server.hub.online.roomUser

def isRoomOf (v : Visit) (rid uid : Nat) : Bool :=
  (v.lobby.server.rm.getRoomByUid uid).any fun rp => rp.roomId == rid

def comes (rid : Nat) (v : Visit) : RoomEvent → List Nat
  | .lobby (.opened _ .room uid) =>
      if admits v.lobby.server uid .room && v.isRoomOf rid uid then [uid] else []
  | _ => []

def next [JsonCpp] (rid : Nat) (v : Visit) (e : RoomEvent) : Option Visit :=
  (v.lobby.react e).map fun s => ⟨s, v.came ++ v.comes rid e⟩

def start (s : Lobby) (uid1 uid2 : Nat) : Visit where
  lobby := { s with
    server := { s.server with rm := (s.server.rm.createRoom s.server.hub.online uid1 uid2).2 } }
  came := []

def visits [JsonCpp] (s : Lobby) (uid1 uid2 rid : Nat) : System Visit RoomEvent :=
  System.ofNext (start s uid1 uid2) (next rid)

def asksMove [JsonCpp] (rid : Nat) (v : Visit) : RoomEvent → Bool
  | .message conn (some req) =>
      (v.lobby.links conn).any (fun link => link.path == .room && v.isRoomOf rid link.uid) &&
        (req.field "optype").asString.toOption == some "put_chess"
  | _ => false

def bothCame [JsonCpp] (rid uid1 uid2 : Nat) (v : Visit) (e : RoomEvent) : Bool :=
  !asksMove rid v e || (v.came.contains uid1 && v.came.contains uid2)

end Visit

/-! ## The players of the room -/

namespace Room

theorem respond_players [JsonCpp] {r r' : Room} {req resp : Json} {hub hub' : Hub}
    (h : r.respond req hub = .ok (resp, r', hub')) :
    r'.roomId = r.roomId ∧ r'.whiteId = r.whiteId ∧ r'.blackId = r.blackId := by
  have hended : ∀ (r : Room) (winnerId : Nat), (r.ended winnerId).roomId = r.roomId ∧
      (r.ended winnerId).whiteId = r.whiteId ∧ (r.ended winnerId).blackId = r.blackId := by
    intro r winnerId
    unfold ended
    split <;> exact ⟨rfl, rfl, rfl⟩
  cases respond_answer h with
  | refused optype reason _ => exact ⟨rfl, rfl, rfl⟩
  | chat resp _ _ => exact ⟨rfl, rfl, rfl⟩
  | chess resp r1 winnerId _ _ hchess _ =>
    cases hchess with
    | whiteAbsent _ => exact hended r winnerId
    | blackAbsent _ _ => exact hended r winnerId
    | taken row col uid stone _ _ _ _ _ _ _ => exact hended r winnerId
    | placed row col uid _ _ _ _ _ _ => exact hended (r.move row col uid) winnerId

def offlineReason : String := "运气真好！对方掉线，不战而胜！"

theorem absent_of_forfeit [JsonCpp] [LawfulJsonCpp] {r r' : Room} {online : Online}
    {req resp : Json} {winner : Nat}
    (h : r.handleChess online req = .ok (resp, r'))
    (hreason : resp.field "reason" = .string offlineReason)
    (hwinner : resp.field "winner" = .int winner) (hne : winner ≠ 0) :
    online.isInGameRoom (if winner = r.whiteId then r.blackId else r.whiteId) = false := by
  cases handleChess_chess h with
  | whiteAbsent habsent =>
    rw [field_forfeit_winner] at hwinner
    have hblack : winner = r.blackId := by
      cases hwinner
      rfl
    by_cases hsame : winner = r.whiteId
    · rw [if_pos hsame, ← hblack, hsame]
      exact habsent
    · rw [if_neg hsame]
      exact habsent
  | blackAbsent _ habsent =>
    rw [field_forfeit_winner] at hwinner
    have hwhite : winner = r.whiteId := by
      cases hwinner
      rfl
    rw [if_pos hwhite]
    exact habsent
  -- the other two answers give another reason, or name no winner
  | taken row col uid stone _ _ _ _ _ _ _ => simp [taken, offlineReason] at hreason
  | placed row col uid _ _ _ _ _ _ =>
    rw [field_placed_winner] at hwinner
    have hwin : (r.move row col uid).checkWin row col (r.colorOf uid) ≠ 0 := by
      intro hzero
      rw [hzero] at hwinner
      cases hwinner
      exact hne rfl
    simp [placed, hwin, offlineReason] at hreason

end Room

namespace Lobby

theorem wsmsg_rm [JsonCpp] {sv sv' : Server} {conn : WsConn} {uid : Nat} {msg : Option Json}
    (h : sv.wsmsgGameRoom conn uid msg = .ok sv') :
    sv'.rm = sv.rm ∨ ∃ rp rp', sv.rm.getRoomByUid uid = some rp ∧ rp'.roomId = rp.roomId ∧
      rp'.whiteId = rp.whiteId ∧ rp'.blackId = rp.blackId ∧ sv'.rm = sv.rm.update rp' := by
  unfold Server.wsmsgGameRoom at h
  split at h
  · cases h
    exact Or.inl rfl
  · cases h
    exact Or.inl rfl
  · next rp req hrp =>
    obtain ⟨⟨rp', hub'⟩, hreq, h⟩ := Exec.except_bind_ok h
    obtain ⟨⟨resp, rp1, hub1⟩, hrespond, hreq⟩ := Exec.except_bind_ok hreq
    cases hreq
    cases h
    obtain ⟨hid, hwhite, hblack⟩ := Room.respond_players hrespond
    exact Or.inr ⟨rp, rp', hrp, hid, hwhite, hblack, rfl⟩

variable {s s' : Lobby} {e : RoomEvent} {rid uid1 uid2 : Nat}

theorem react_rm [JsonCpp] (h : s.react e = some s') : s'.server.rm = s.server.rm ∨
    (∃ uid hub, s'.server.rm = (s.server.rm.removeRoomUser uid hub).1) ∨
    (∃ online uid3 uid4, s'.server.rm = (s.server.rm.createRoom online uid3 uid4).2) ∨
    ∃ uid rp rp', s.server.rm.getRoomByUid uid = some rp ∧ rp'.roomId = rp.roomId ∧
      rp'.whiteId = rp.whiteId ∧ rp'.blackId = rp.blackId ∧
      s'.server.rm = s.server.rm.update rp' := by
  cases e with
  | lobby l =>
    rcases next_rm h with ⟨hrm, _⟩ | ⟨_, link, hub, _, _, _, hrm, _⟩ | ⟨uid3, uid4, _, _, hrm⟩
    · exact Or.inl hrm
    · exact Or.inr (Or.inl ⟨link.uid, hub, hrm⟩)
    · exact Or.inr (Or.inr (Or.inl ⟨_, uid3, uid4, hrm⟩))
  | message conn msg =>
    simp only [react] at h
    split at h
    · next uid accepted hlink =>
      split at h
      · next server hok =>
        cases h
        -- a message changes at most the room of its sender, and not who plays there
        rcases wsmsg_rm hok with hrm | ⟨rp, rp', hchange⟩
        · exact Or.inl hrm
        · exact Or.inr (Or.inr (Or.inr ⟨uid, rp, rp', hchange⟩))
      · cases h
    · cases h

theorem numbered_react [JsonCpp] (h : s.react e = some s') (hm : s.server.rm.Numbered) :
    s'.server.rm.Numbered := by
  rcases react_rm h with hrm | ⟨uid, hub, hrm⟩ | ⟨online, uid3, uid4, hrm⟩ |
    ⟨uid, rp, rp', hrp, hid, _, _, hrm⟩
  · exact hrm ▸ hm
  · exact hrm ▸ hm.removeRoomUser uid hub
  · exact hrm ▸ hm.createRoom online uid3 uid4
  · have hroom : s.server.rm.rooms rp'.roomId = some rp := by
      rw [hid]
      exact hm.room_of_uid hrp
    exact hrm ▸ hm.update hroom

theorem roomOf_react [JsonCpp] (h : s.react e = some s') (hm : s.server.rm.Numbered)
    (hroom : s.server.rm.RoomOf rid uid1 uid2) : s'.server.rm.RoomOf rid uid1 uid2 := by
  rcases react_rm h with hrm | ⟨uid, hub, hrm⟩ | ⟨online, uid3, uid4, hrm⟩ |
    ⟨uid, rp, rp', hrp, hid, hwhite, hblack, hrm⟩
  · exact hrm ▸ hroom
  · exact hrm ▸ hroom.removeRoomUser hm uid hub
  · exact hrm ▸ hroom.createRoom online uid3 uid4
  · have hrp' : s.server.rm.rooms rp'.roomId = some rp := by
      rw [hid]
      exact hm.room_of_uid hrp
    exact hrm ▸ hroom.update hrp' hwhite hblack

end Lobby

namespace Visit

variable {v v' : Visit} {rid uid1 uid2 : Nat} {e : RoomEvent}

theorem next_lobby [JsonCpp] (h : v.next rid e = some v') :
    v.lobby.react e = some v'.lobby ∧ v'.came = v.came ++ v.comes rid e := by
  obtain ⟨s, hs, rfl⟩ := Option.map_eq_some_iff.mp h
  exact ⟨hs, rfl⟩

/-! ## Who has come -/

theorem roomUser_of_comes [JsonCpp] (h : v.next rid e = some v') {uid : Nat}
    (huid : uid ∈ v.comes rid e) :
    (v'.roomUser uid).isSome ∧ v'.isRoomOf rid uid = true := by
  have hreact := (next_lobby h).1
  unfold comes at huid
  split at huid
  · next conn uid' =>
    split at huid
    · next hcond =>
      rw [List.mem_singleton] at huid
      subst huid
      obtain ⟨hadmits, hroom⟩ := Bool.and_eq_true_iff.mp hcond
      simp only [Lobby.react, Lobby.next] at hreact
      split at hreact
      · cases hreact
      · rw [Option.some.injEq] at hreact
        have hserver : v'.lobby.server = Lobby.wsopen v.lobby.server conn uid .room := by
          rw [← hreact]
        constructor
        · have hmap := Lobby.usersOn_wsopen v.lobby.server conn uid .room .room uid
          rw [if_pos ⟨hadmits, rfl, rfl⟩, ← hserver] at hmap
          rw [roomUser]
          exact Option.isSome_iff_exists.mpr ⟨conn, hmap⟩
        · rw [isRoomOf, hserver, Lobby.wsopen_rm]
          exact hroom
    · cases huid
  · cases huid

theorem exists_of_came [JsonCpp] {s : Lobby} {cond : Visit → RoomEvent → Prop} {es : List RoomEvent}
    (hrun : ((visits s uid1 uid2 rid).restrict cond).Steps v es v') {uid : Nat}
    (huid : uid ∈ v'.came) : uid ∈ v.came ∨
      ∃ es1 es2 v1, es = es1 ++ es2 ∧ ((visits s uid1 uid2 rid).restrict cond).Steps v es1 v1 ∧
        ((visits s uid1 uid2 rid).restrict cond).Steps v1 es2 v' ∧
        (v1.roomUser uid).isSome ∧ v1.isRoomOf rid uid = true := by
  induction hrun with
  | nil v => exact Or.inl huid
  | @cons v v1 v' l ls hstep hrest ih =>
    rcases ih huid with hin | ⟨es1, es2, v2, hsplit, hrun1, hrun2, hthere⟩
    · rw [(next_lobby hstep.2).2, List.mem_append] at hin
      rcases hin with hbefore | hnow
      · exact Or.inl hbefore
      · have hfirst := System.Steps.cons l [] hstep (System.Steps.nil v1)
        refine Or.inr ⟨[l], ls, v1, rfl, hfirst, hrest, ?_⟩
        exact roomUser_of_comes hstep.2 hnow
    · refine Or.inr ⟨l :: es1, es2, v2, ?_, System.Steps.cons l es1 hstep hrun1, hrun2, hthere⟩
      rw [hsplit, List.cons_append]

/-- **A forfeit is awarded against a player who has left**, in every run from
    the creation of the room in which moves are asked for only after both
    players have come. -/
theorem forfeit_after_leaving [JsonCpp] [LawfulJsonCpp] (s : Lobby) (h0 : events.Reachable s)
    (uid1 uid2 : Nat)
    (r : Room) (hr : (s.server.rm.createRoom s.server.hub.online uid1 uid2).1 = some r)
    (es : List RoomEvent) (v : Visit)
    (hrun : ((visits s uid1 uid2 r.roomId).restrict fun v e =>
      bothCame r.roomId uid1 uid2 v e = true).Steps (start s uid1 uid2) es v)
    (conn : WsConn) (uid : Nat) (accepted : Bool) (req : Json)
    (hlink : v.lobby.links conn = some ⟨.room, uid, accepted⟩)
    (hop : (req.field "optype").asString = .ok "put_chess")
    (hcame : bothCame r.roomId uid1 uid2 v (.message conn (some req)) = true)
    (rp : Room) (hrp : v.lobby.server.rm.getRoomByUid uid = some rp)
    (hid : rp.roomId = r.roomId) (resp : Json) (rp' : Room)
    (hchess : rp.handleChess v.lobby.server.hub.online req = .ok (resp, rp'))
    (hreason : resp.field "reason" = .string Room.offlineReason) (winner : Nat)
    (hwinner : resp.field "winner" = .int winner) (hne : winner ≠ 0) :
    ∃ loser, (loser = if winner = rp.whiteId then rp.blackId else rp.whiteId) ∧
      v.roomUser loser = none ∧
      ∃ es1 es2 v1, es = es1 ++ es2 ∧
        (visits s uid1 uid2 r.roomId).Steps (start s uid1 uid2) es1 v1 ∧
        (visits s uid1 uid2 r.roomId).Steps v1 es2 v ∧
        (v1.roomUser loser).isSome ∧ v1.isRoomOf r.roomId loser = true := by
  have hnumbered : s.server.rm.Numbered := by
    refine System.invariant (fun s : Lobby => s.server.rm.Numbered) ?_ ?_ s h0
    · intro s hs
      rw [hs]
      exact RoomManager.new_agree.numbered
    · intro s e s' hs hstep
      exact numbered_react hstep hs
  -- the room stays the room of the two players
  have hseated : v.lobby.server.rm.Numbered ∧ v.lobby.server.rm.RoomOf r.roomId uid1 uid2 := by
    refine hrun.preserves (fun v : Visit => v.lobby.server.rm.Numbered ∧
      v.lobby.server.rm.RoomOf r.roomId uid1 uid2) ?_ ?_
    · intro v1 e v2 h1 hstep
      obtain ⟨hreact, _⟩ := next_lobby hstep.2
      exact ⟨numbered_react hreact h1.1, roomOf_react hreact h1.1 h1.2⟩
    · exact ⟨hnumbered.createRoom _ uid1 uid2, RoomManager.createRoom_roomOf hnumbered hr⟩
  have hroom : v.lobby.server.rm.rooms r.roomId = some rp := by
    rw [← hid]
    exact hseated.1.room_of_uid hrp
  obtain ⟨hwhite, hblack⟩ := hseated.2.players rp hroom
  have hboth : uid1 ∈ v.came ∧ uid2 ∈ v.came := by
    have hasks : asksMove r.roomId v (.message conn (some req)) = true := by
      simp [asksMove, hlink, isRoomOf, hrp, hid, hop, Except.toOption]
    simpa [bothCame, hasks] using hcame
  have habsent := Room.absent_of_forfeit hchess hreason hwinner hne
  refine ⟨_, rfl, by simpa [Online.isInGameRoom, roomUser] using habsent, ?_⟩
  have hloser : (if winner = rp.whiteId then rp.blackId else rp.whiteId) ∈ v.came := by
    split
    · rw [hblack]
      exact hboth.2
    · rw [hwhite]
      exact hboth.1
  rcases exists_of_came hrun hloser with hnone | ⟨es1, es2, v1, hsplit, hrun1, hrun2, hthere⟩
  · exact absurd hnone (List.not_mem_nil)
  · exact ⟨es1, es2, v1, hsplit, hrun1.of_restrict, hrun2.of_restrict, hthere⟩

attribute [local instance] JsonCpp.standard JsonCpp.lawful_standard

def comeToHall : List RoomEvent := [.lobby (.opened 1 .hall 7), .lobby (.opened 2 .hall 8)]

def hall : Lobby := (System.run react initial comeToHall).getD initial

def blackLeaves : List RoomEvent :=
  [.lobby (.closed 1), .lobby (.closed 2), .lobby (.opened 3 .room 7), .lobby (.opened 4 .room 8),
    .lobby (.closed 4)]

theorem hall_reachable : events.Reachable hall :=
  ⟨_, comeToHall, rfl, System.steps_of_run rfl⟩

/-- Then a move of the white player wins, and the black player had been there. -/
theorem forfeit_after_leaving_black :
    ∃ v, (visits hall 7 8 1).Steps (start hall 7 8) blackLeaves v ∧ v.roomUser 8 = none ∧
      ∃ es1 es2 v1, blackLeaves = es1 ++ es2 ∧ (visits hall 7 8 1).Steps (start hall 7 8) es1 v1 ∧
        (visits hall 7 8 1).Steps v1 es2 v ∧ (v1.roomUser 8).isSome ∧
        v1.isRoomOf 1 8 = true := by
  have hrun : ((visits hall 7 8 1).restrict fun v e => bothCame 1 7 8 v e = true).Steps
      (start hall 7 8) blackLeaves _ := System.restrict_steps_of_run rfl
  obtain ⟨loser, hloser, hgone, hbefore⟩ := forfeit_after_leaving hall hall_reachable 7 8
    (Room.new 1 7 8) rfl blackLeaves _ hrun 3 7 true (Room.chessInfo 1 7 7 7) rfl rfl rfl _ rfl rfl
    _ _ rfl rfl 7 rfl (by decide)
  have h8 : loser = 8 := hloser
  subst h8
  exact ⟨_, hrun.of_restrict, hgone, hbefore⟩

def whiteComes : List RoomEvent :=
  [.lobby (.closed 1), .lobby (.closed 2), .lobby (.opened 3 .room 7)]

/-- Then a move of the white player wins, and the black player has not been in
    `_room_user` in any state so far. -/
theorem forfeit_before_coming : ∃ v rp resp, events.Reachable hall ∧
      (visits hall 7 8 1).Steps (start hall 7 8) whiteComes v ∧
      v.lobby.links 3 = some ⟨.room, 7, true⟩ ∧
      v.lobby.server.rm.getRoomByUid 7 = some rp ∧
      rp.handleChess v.lobby.server.hub.online (Room.chessInfo 1 7 7 7) = .ok (resp, rp) ∧
      resp.field "reason" = .string Room.offlineReason ∧ resp.field "winner" = .int 7 ∧
      ∀ n ≤ 3, (System.run (next 1) (start hall 7 8) (whiteComes.take n)).any
        (fun v => (v.roomUser 8).isNone) = true :=
  ⟨_, _, _, hall_reachable, System.steps_of_run rfl, rfl, rfl, rfl, rfl, rfl, by decide⟩

end Visit

end CallLesson.Gobang
