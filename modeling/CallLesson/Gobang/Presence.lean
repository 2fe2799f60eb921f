import CallLesson.Gobang.RoomManager

/-! # Presence

    The handlers of `gobang_server` (`game/source/server.hpp`) for opened and
    closed websocket connections on `/hall` and `/room`. A second connection
    of a user is answered with a refusal and stays open; when it is closed,
    the same code runs as for an accepted one, and all it has is the user.

    Sessions are valid throughout, so `get_session_by_cookie` is the user of
    the connection. -/

namespace CallLesson.Gobang

open RoomManager Server Dict Option

/-! ## Handlers -/

namespace Server

def wsResp (s : Server) (conn : WsConn) (resp : Json) : Server :=
  { s with hub := s.hub.emit (.send conn resp) }

def wsRefuse [JsonCpp] (s : Server) (conn : WsConn) (optype reason : String) : Server :=
  s.wsResp conn (((Json.set ∅ "optype" (.string optype)).set "reason" (.string reason)).set
    "result" (.bool false))

def isOnline (s : Server) (uid : Nat) : Bool :=
  s.hub.online.isInGameHall uid || s.hub.online.isInGameRoom uid

def wsopenGameHall [JsonCpp] (s : Server) (conn : WsConn) (uid : Nat) : Server :=
  if s.isOnline uid then s.wsRefuse conn "hall_ready" "用户重复登陆"
  else
    let s := { s with hub := { s.hub with online := s.hub.online.joinGameHall uid conn } }
    s.wsResp conn ((Json.set ∅ "optype" (.string "hall_ready")).set "result" (.bool true))

def roomReady [JsonCpp] (rp : Room) (uid : Nat) : Json :=
  (((((Json.set ∅ "optype" (.string "room_ready")).set "result" (.bool true)).set
    "room_id" (.int rp.roomId)).set "uid" (.int uid)).set
    "white_id" (.int rp.whiteId)).set "black_id" (.int rp.blackId)

def wsopenGameRoom [JsonCpp] (s : Server) (conn : WsConn) (uid : Nat) : Server :=
  if s.isOnline uid then s.wsRefuse conn "room_ready" "玩家重复登陆"
  else
    match s.rm.getRoomByUid uid with
    | none => s.wsRefuse conn "room_ready" "没有玩家的房间信息"
    | some rp =>
        let s := { s with hub := { s.hub with online := s.hub.online.joinGameRoom uid conn } }
        s.wsResp conn (roomReady rp uid)

def wscloseGameHall (s : Server) (uid : Nat) : Server :=
  { s with hub := { s.hub with online := s.hub.online.exitGameHall uid } }

def wscloseGameRoom [JsonCpp] (s : Server) (uid : Nat) : Server :=
  let hub := { s.hub with online := s.hub.online.exitGameRoom uid }
  let (rm, hub) := s.rm.removeRoomUser uid hub
  ⟨hub, rm⟩

end Server

inductive Path where
  | hall
  | room
  deriving DecidableEq

structure Link where
  path : Path
  uid : Nat
  accepted : Bool
  deriving DecidableEq

structure Lobby where
  server : Server
  links : Dict WsConn Link
  exits : List Nat

inductive LobbyStep where
  | opened (conn : WsConn) (path : Path) (uid : Nat)
  | closed (conn : WsConn)
  /-- The matcher creates a room. -/
  | create (uid1 uid2 : Nat)
  deriving DecidableEq

variable {uid : Nat} {exits : List Nat}

namespace Lobby

def initial : Lobby := ⟨Server.initial, empty, []⟩

def wsopen [JsonCpp] (s : Server) (conn : WsConn) (uid : Nat) : Path → Server
  | .hall => s.wsopenGameHall conn uid
  | .room => s.wsopenGameRoom conn uid

def wsclose [JsonCpp] (s : Server) (uid : Nat) : Path → Server
  | .hall => s.wscloseGameHall uid
  | .room => s.wscloseGameRoom uid

def usersOn (s : Server) : Path → Dict Nat WsConn
  | .hall => s.hub.online.hallUser
  | .room => s.hub.online.roomUser

def admits (s : Server) (uid : Nat) : Path → Bool
  | .hall => !s.isOnline uid
  | .room => !s.isOnline uid && (s.rm.getRoomByUid uid).isSome

def next [JsonCpp] (s : Lobby) : LobbyStep → Option Lobby
  | .opened conn path uid =>
      if (s.links conn).isSome then none
      else some { s with
        server := wsopen s.server conn uid path
        links := s.links.assign conn ⟨path, uid, admits s.server uid path⟩ }
  | .closed conn =>
      match s.links conn with
      | none => none
      | some link => some {
          server := wsclose s.server link.uid link.path
          links := s.links.erase conn
          exits := if link.path = .room then s.exits ++ [link.uid] else s.exits }
  | .create uid1 uid2 => some { s with
      server := { s.server with
        rm := (s.server.rm.createRoom s.server.hub.online uid1 uid2).2 } }

def runs [JsonCpp] : System Lobby LobbyStep := System.ofNext initial next

def closesOwn (s : Lobby) : LobbyStep → Bool
  | .closed conn =>
      (s.links conn).all fun link => (usersOn s.server link.path link.uid).all (· == conn)
  | _ => true

/-! ## The maps and the open connections -/

structure Present (s : Lobby) : Prop where
  mapped : ∀ path uid conn, usersOn s.server path uid = some conn ↔
    s.links conn = some ⟨path, uid, true⟩
  apart : ∀ uid, usersOn s.server .hall uid = none ∨ usersOn s.server .room uid = none

theorem usersOn_of_admits {s : Server} {path : Path} (h : admits s uid path = true) (path' : Path) :
    usersOn s path' uid = none := by
  have hoff : s.isOnline uid = false := by
    cases path with
    | hall => simpa [admits] using h
    | room =>
      have hand := Bool.and_eq_true_iff.mp h
      simpa using hand.1
  rw [isOnline, Bool.or_eq_false_iff, Online.isInGameHall, Online.isInGameRoom,
    isSome_eq_false_iff, isSome_eq_false_iff, isNone_iff_eq_none,
    isNone_iff_eq_none] at hoff
  cases path' with
  | hall => exact hoff.1
  | room => exact hoff.2

theorem usersOn_wsopen [JsonCpp] (s : Server) (conn : WsConn) (uid : Nat) (path path' : Path)
    (uid' : Nat) :
    usersOn (wsopen s conn uid path) path' uid' =
      if admits s uid path = true ∧ path' = path ∧ uid' = uid then some conn
      else usersOn s path' uid' := by
  have hinsert : admits s uid path = true →
      (usersOn s path).insert uid conn uid' = if uid' = uid then some conn else usersOn s path uid' := by
    intro hadm
    by_cases hu : uid' = uid
    · subst hu
      rw [if_pos rfl, insert_of_none _ (usersOn_of_admits hadm path)]
    · rw [if_neg hu, insert_ne _ _ hu]
  cases hadm : admits s uid path with
  | false =>
    -- a refused connection gets an answer and no entry
    rw [if_neg (by simp)]
    cases path with
    | hall =>
      have hon : s.isOnline uid = true := by simpa [admits] using hadm
      rw [wsopen, wsopenGameHall, if_pos hon]
      cases path' <;> rfl
    | room =>
      rw [wsopen, wsopenGameRoom]
      split
      · cases path' <;> rfl
      · next hon =>
        have hnone : s.rm.getRoomByUid uid = none := by simpa [admits, hon] using hadm
        rw [hnone]
        cases path' <;> rfl
  | true =>
    cases path with
    | hall =>
      have hon : s.isOnline uid = false := by simpa [admits] using hadm
      rw [wsopen, wsopenGameHall, if_neg (by simp [hon])]
      cases path' with
      | hall =>
        simp only [true_and]
        exact hinsert hadm
      | room => simp [usersOn, wsResp, Hub.emit, Online.joinGameHall]
    | room =>
      obtain ⟨hon, hroom⟩ := Bool.and_eq_true_iff.mp hadm
      obtain ⟨rp, hrp⟩ := isSome_iff_exists.mp hroom
      rw [wsopen, wsopenGameRoom, if_neg (by simpa using hon), hrp]
      cases path' with
      | hall => simp [usersOn, wsResp, Hub.emit, Online.joinGameRoom]
      | room =>
        simp only [true_and]
        exact hinsert hadm

theorem usersOn_wsclose [JsonCpp] (s : Server) (uid : Nat) (path path' : Path) :
    usersOn (wsclose s uid path) path' =
      if path' = path then (usersOn s path).erase uid else usersOn s path' := by
  cases path with
  | hall => cases path' <;> rfl
  | room =>
    have honline := s.rm.removeRoomUser_online uid
      { s.hub with online := s.hub.online.exitGameRoom uid }
    cases path' with
    | hall =>
      show (s.rm.removeRoomUser uid _).2.online.hallUser = _
      rw [honline]
      rfl
    | room =>
      show (s.rm.removeRoomUser uid _).2.online.roomUser = _
      rw [honline]
      rfl

theorem initial_present : Present initial := by
  refine ⟨fun path uid conn => ?_, fun uid => Or.inl rfl⟩
  cases path with
  | hall => exact ⟨nofun, nofun⟩
  | room => exact ⟨nofun, nofun⟩

theorem Present.opened [JsonCpp] {s s' : Lobby} {conn : WsConn} {path : Path} (h : Present s)
    (hnext : next s (.opened conn path uid) = some s') : Present s' := by
  simp only [next] at hnext
  split at hnext
  · cases hnext
  next hfree =>
  cases hnext
  -- no entry leads to the connection that is being opened
  have hnew : ∀ path' uid', usersOn s.server path' uid' ≠ some conn := by
    intro path' uid' hmap
    rw [h.mapped, not_isSome_iff_eq_none.mp hfree] at hmap
    cases hmap
  refine ⟨fun path' uid' conn' => ?_, fun uid' => ?_⟩
  · dsimp only
    rw [usersOn_wsopen]
    by_cases hc : conn' = conn
    · subst hc
      rw [assign_self]
      split
      · next hcase => simp [hcase.1, hcase.2.1, hcase.2.2]
      · next hcase =>
        refine ⟨fun hmap => absurd hmap (hnew path' uid'), fun hlink => absurd ?_ hcase⟩
        rw [some.injEq, Link.mk.injEq] at hlink
        exact ⟨hlink.2.2, hlink.1.symm, hlink.2.1.symm⟩
    · rw [assign_ne _ _ hc, ← h.mapped]
      split
      · next hcase =>
        obtain ⟨hadm, rfl, rfl⟩ := hcase
        rw [usersOn_of_admits hadm]
        simp [Ne.symm hc]
      · exact Iff.rfl
  · dsimp only
    rw [usersOn_wsopen, usersOn_wsopen]
    cases hadm : admits s.server uid path with
    | false => simpa using h.apart uid'
    | true =>
      by_cases hu : uid' = uid
      · -- the user was in neither map, and is now in one
        subst hu
        cases path with
        | hall => exact Or.inr (by simpa using usersOn_of_admits hadm .room)
        | room => exact Or.inl (by simpa using usersOn_of_admits hadm .hall)
      · simpa [hu] using h.apart uid'

theorem Present.closed [JsonCpp] {s s' : Lobby} {conn : WsConn} (h : Present s)
    (hown : closesOwn s (.closed conn) = true) (hnext : next s (.closed conn) = some s') :
    Present s' := by
  simp only [next] at hnext
  cases hlink : s.links conn with
  | none => rw [hlink] at hnext; cases hnext
  | some link =>
    rw [hlink] at hnext
    cases hnext
    obtain ⟨path, uid, accepted⟩ := link
    -- the entry that goes is that of the connection, if there is one
    have hentry : ∀ conn', usersOn s.server path uid = some conn' → conn' = conn := by
      intro conn' hmap
      have hall : (usersOn s.server path uid).all (· == conn) = true := by
        simpa [closesOwn, hlink] using hown
      rw [hmap] at hall
      simpa using hall
    refine ⟨fun path' uid' conn' => ?_, fun uid' => ?_⟩
    · dsimp only
      rw [usersOn_wsclose]
      by_cases hc : conn' = conn
      · subst hc
        rw [erase_self]
        refine ⟨fun hmap => ?_, fun hnone => by cases hnone⟩
        split at hmap
        · next hp =>
          subst hp
          by_cases hu : uid' = uid
          · rw [hu, erase_self] at hmap
            cases hmap
          · rw [erase_ne _ hu, h.mapped, hlink] at hmap
            cases hmap
            exact absurd rfl hu
        · next hp =>
          rw [h.mapped, hlink] at hmap
          cases hmap
          exact absurd rfl hp
      · rw [erase_ne _ hc, ← h.mapped]
        split
        · next hp =>
          subst hp
          by_cases hu : uid' = uid
          · subst hu
            rw [erase_self]
            exact ⟨fun hnone => (by cases hnone), fun hmap => absurd (hentry conn' hmap) hc⟩
          · rw [erase_ne _ hu]
        · exact Iff.rfl
    · dsimp only
      rw [usersOn_wsclose, usersOn_wsclose]
      -- closing only takes entries away, so a map without the user stays so
      have herase : ∀ path', usersOn s.server path' uid' = none →
          (if path' = path then (usersOn s.server path).erase uid else usersOn s.server path') uid' =
            none := by
        intro path' hnone
        split
        · next hp =>
          subst hp
          by_cases hu : uid' = uid
          · rw [hu, erase_self]
          · rw [erase_ne _ hu]
            exact hnone
        · exact hnone
      exact (h.apart uid').imp (herase .hall) (herase .room)

/-- **Presence matches the accepted open connections**, in every run that
    closes a refused connection only while its user has no accepted one on the
    same path. -/
theorem presence_matches [JsonCpp] (s : Lobby)
    (h : (runs.restrict fun s l => closesOwn s l = true).Reachable s) :
    (∀ uid conn, s.server.hub.online.hallUser uid = some conn ↔
      s.links conn = some ⟨.hall, uid, true⟩) ∧
    (∀ uid conn, s.server.hub.online.roomUser uid = some conn ↔
      s.links conn = some ⟨.room, uid, true⟩) ∧
    ∀ uid, s.server.hub.online.hallUser uid = none ∨ s.server.hub.online.roomUser uid = none := by
  have hpresent : Present s := by
    refine System.invariant Present ?_ ?_ s h
    · rintro _ rfl
      exact initial_present
    · rintro s1 l s2 h₁ ⟨hown, hnext⟩
      cases l with
      | opened conn path uid => exact h₁.opened hnext
      | closed conn => exact h₁.closed hown hnext
      | create uid1 uid2 =>
        cases hnext
        exact ⟨h₁.mapped, h₁.apart⟩
  exact ⟨hpresent.mapped .hall, hpresent.mapped .room, hpresent.apart⟩

section

attribute [local instance] JsonCpp.standard

/-- A second connection is refused, and closed after the first. -/
theorem presence_matches_second_refused :
    ∃ s : Lobby, (runs.restrict fun s l => closesOwn s l = true).Steps initial
        [.opened 1 .hall 7, .opened 2 .hall 7, .closed 1, .closed 2, .opened 3 .hall 7] s ∧
      s.server.hub.online.hallUser 7 = some 3 ∧
      ∀ uid conn, s.server.hub.online.hallUser uid = some conn ↔
        s.links conn = some ⟨.hall, uid, true⟩ := by
  have hrun : (runs.restrict fun s l => closesOwn s l = true).Steps initial
      [.opened 1 .hall 7, .opened 2 .hall 7, .closed 1, .closed 2, .opened 3 .hall 7] _ :=
    System.restrict_steps_of_run rfl
  exact ⟨_, hrun, rfl, (presence_matches _ ⟨_, _, rfl, hrun⟩).1⟩

/-- A second connection is refused, and closed before the first: the user is
    no longer in the hall. -/
theorem presence_lost :
    ∃ s : Lobby, runs.Steps initial [.opened 1 .hall 7, .opened 2 .hall 7, .closed 2] s ∧
      s.links 1 = some ⟨.hall, 7, true⟩ ∧ s.server.hub.online.hallUser 7 = none :=
  ⟨_, System.steps_of_run rfl, rfl, rfl⟩

end

/-! ## The life of a room -/

def assigns (s : Lobby) : LobbyStep → Bool
  | .create uid1 uid2 => (s.server.rm.users uid1).isNone && (s.server.rm.users uid2).isNone
  | _ => true

def leavesOnce (rid : Nat) (s : Lobby) : LobbyStep → Bool
  | .closed conn =>
      (s.links conn).all fun link =>
        link.path == .hall ||
          (s.server.rm.getRoomByUid link.uid).all (fun rp => rp.roomId != rid) ||
          !s.exits.contains link.uid
  | _ => true

def created (s : Lobby) (uid1 uid2 : Nat) : Lobby where
  server := { s.server with
    rm := (s.server.rm.createRoom s.server.hub.online uid1 uid2).2 }
  links := s.links
  exits := []

def staying (uid1 uid2 : Nat) (exits : List Nat) : Int :=
  (if uid1 ∈ exits then 0 else 1) + (if uid2 ∈ exits then 0 else 1)

structure Lives (rid uid1 uid2 : Nat) (s : Lobby) : Prop where
  agree : s.server.rm.Agree
  roomOf : s.server.rm.RoomOf rid uid1 uid2
  gone : s.server.rm.rooms rid = none → uid1 ∈ s.exits ∧ uid2 ∈ s.exits
  count : ∀ room, s.server.rm.rooms rid = some room → room.playerCount = staying uid1 uid2 s.exits

section lives

variable {rid uid1 uid2 : Nat} {s s' : Lobby}

theorem staying_append (hne : uid1 ≠ uid2) (hnew : uid ∉ exits) :
    staying uid1 uid2 (exits ++ [uid]) =
      staying uid1 uid2 exits - if uid = uid1 ∨ uid = uid2 then 1 else 0 := by
  have hmem : ∀ i, i ∈ exits ++ [uid] ↔ i ∈ exits ∨ i = uid := by simp
  unfold staying
  by_cases h1 : uid = uid1
  · subst h1
    simp [hmem, hnew, Ne.symm hne]
  · by_cases h2 : uid = uid2
    · subst h2
      simp [hmem, hnew, Ne.symm h1]
    · simp [hmem, h1, h2, Ne.symm h1, Ne.symm h2]

theorem staying_other (h1 : uid ≠ uid1) (h2 : uid ≠ uid2) :
    staying uid1 uid2 (exits ++ [uid]) = staying uid1 uid2 exits := by
  simp [staying, Ne.symm h1, Ne.symm h2]

theorem staying_eq_zero (h : staying uid1 uid2 exits = 0) : uid1 ∈ exits ∧ uid2 ∈ exits := by
  unfold staying at h
  constructor
  · by_contra hnot
    rw [if_neg hnot] at h
    split at h <;> omega
  · by_contra hnot
    rw [if_neg hnot] at h
    split at h <;> omega

theorem Lives.closed_room [JsonCpp] (hne : uid1 ≠ uid2) (h : Lives rid uid1 uid2 s) (hub : Hub)
    (honce : ∀ rp, s.server.rm.getRoomByUid uid = some rp → rp.roomId = rid → uid ∉ s.exits)
    (hrm : s'.server.rm = (s.server.rm.removeRoomUser uid hub).1)
    (hexits : s'.exits = s.exits ++ [uid]) : Lives rid uid1 uid2 s' := by
  have hagree : s'.server.rm.Agree := hrm ▸ h.agree.removeRoomUser uid hub
  have hroomOf : s'.server.rm.RoomOf rid uid1 uid2 :=
    hrm ▸ h.roomOf.removeRoomUser h.agree.numbered uid hub
  have hgone : s.server.rm.rooms rid = none → uid1 ∈ s'.exits ∧ uid2 ∈ s'.exits := by
    intro hnone
    rw [hexits]
    exact (h.gone hnone).imp (List.mem_append_left _) (List.mem_append_left _)
  cases hroom : s.server.rm.rooms rid with
  | none =>
    -- the room has gone before
    have hnone : s'.server.rm.rooms rid = none := by
      rw [hrm, removeRoomUser_rooms_ne hub, hroom]
      rintro rp hrp rfl
      rw [h.agree.numbered.room_of_uid hrp] at hroom
      cases hroom
    refine ⟨hagree, hroomOf, fun _ => hgone hroom, fun room hsome => ?_⟩
    rw [hnone] at hsome
    cases hsome
  | some room =>
    obtain ⟨hwhite, hblack⟩ := h.roomOf.players room hroom
    have hfound := h.agree.getRoomByUid hroom
    rw [hwhite, hblack] at hfound
    by_cases hplayer : uid = uid1 ∨ uid = uid2
    · -- `remove_room_user` finds the room, counts one player less and removes
      -- the room when the count is zero
      have hrp : s.server.rm.getRoomByUid uid = some room := by
        rcases hplayer with rfl | rfl
        · exact hfound.1
        · exact hfound.2
      have hnew : uid ∉ s.exits := honce room hrp (h.agree.keyed rid room hroom)
      obtain ⟨rp', hcount, hrooms⟩ := removeRoomUser_rooms_self hub hrp
      rw [h.agree.keyed rid room hroom, ← hrm] at hrooms
      have hstay : rp'.playerCount = staying uid1 uid2 s'.exits := by
        rw [hcount, h.count room hroom, hexits, staying_append hne hnew, if_pos hplayer]
      refine ⟨hagree, hroomOf, fun hnone => ?_, fun room' hroom' => ?_⟩
      · rw [hrooms] at hnone
        split at hnone
        · next hzero => exact staying_eq_zero (hstay ▸ hzero)
        · cases hnone
      · rw [hrooms] at hroom'
        split at hroom'
        · cases hroom'
        · cases hroom'
          exact hstay
    · -- another user's exit is an exit from another room
      rw [not_or] at hplayer
      have hsame : s'.server.rm.rooms rid = some room := by
        rw [hrm, removeRoomUser_rooms_ne hub, hroom]
        rintro rp hrp rfl
        cases hroom.symm.trans (h.agree.numbered.room_of_uid hrp)
        rcases h.agree.player_of_uid hrp with hw | hb
        · exact hplayer.1 (hw.trans hwhite)
        · exact hplayer.2 (hb.trans hblack)
      refine ⟨hagree, hroomOf, fun hnone => ?_, fun room' hroom' => ?_⟩
      · rw [hsame] at hnone
        cases hnone
      · rw [hsame] at hroom'
        cases hroom'
        rw [h.count room hroom, hexits, staying_other hplayer.1 hplayer.2]

theorem wsopen_rm [JsonCpp] (s : Server) (conn : WsConn) (uid : Nat) (path : Path) :
    (wsopen s conn uid path).rm = s.rm := by
  cases path with
  | hall =>
    rw [wsopen, wsopenGameHall]
    split <;> rfl
  | room =>
    rw [wsopen, wsopenGameRoom]
    split
    · rfl
    · split <;> rfl

variable {l : LobbyStep}

theorem next_rm [JsonCpp] (hnext : next s l = some s') :
    (s'.server.rm = s.server.rm ∧ s'.exits = s.exits) ∨
    (∃ conn link hub, l = .closed conn ∧ s.links conn = some link ∧ link.path = .room ∧
      s'.server.rm = (s.server.rm.removeRoomUser link.uid hub).1 ∧
      s'.exits = s.exits ++ [link.uid]) ∨
    ∃ uid3 uid4, l = .create uid3 uid4 ∧ s'.exits = s.exits ∧
      s'.server.rm = (s.server.rm.createRoom s.server.hub.online uid3 uid4).2 := by
  cases l with
  | opened conn path uid =>
    simp only [next] at hnext
    split at hnext
    · cases hnext
    · cases hnext
      exact Or.inl ⟨wsopen_rm _ _ _ _, rfl⟩
  | closed conn =>
    simp only [next] at hnext
    split at hnext
    · cases hnext
    · next link hlink =>
      cases hnext
      obtain ⟨path, uid, accepted⟩ := link
      cases path with
      | hall => exact Or.inl ⟨rfl, rfl⟩
      | room => exact Or.inr (Or.inl ⟨conn, _, _, rfl, hlink, rfl, rfl, rfl⟩)
  | create uid3 uid4 =>
    cases hnext
    exact Or.inr (Or.inr ⟨uid3, uid4, rfl, rfl, rfl⟩)

theorem unassigned_of_assigns {uid3 uid4 : Nat} (h : assigns s (.create uid3 uid4) = true) :
    s.server.rm.users uid3 = none ∧ s.server.rm.users uid4 = none := by
  obtain ⟨h3, h4⟩ := Bool.and_eq_true_iff.mp h
  exact ⟨isNone_iff_eq_none.mp h3, isNone_iff_eq_none.mp h4⟩

theorem agree_next [JsonCpp] (h : s.server.rm.Agree) (hcond : assigns s l = true)
    (hnext : next s l = some s') : s'.server.rm.Agree := by
  rcases next_rm hnext with ⟨hrm, _⟩ | ⟨_, link, hub, _, _, _, hrm, _⟩ | ⟨uid3, uid4, rfl, _, hrm⟩
  · exact hrm ▸ h
  · exact hrm ▸ h.removeRoomUser link.uid hub
  · obtain ⟨h3, h4⟩ := unassigned_of_assigns hcond
    exact hrm ▸ h.createRoom _ h3 h4

theorem Lives.next [JsonCpp] (hne : uid1 ≠ uid2) (h : Lives rid uid1 uid2 s)
    (hassigns : assigns s l = true) (honce : leavesOnce rid s l = true)
    (hnext : s.next l = some s') : Lives rid uid1 uid2 s' := by
  rcases next_rm hnext with ⟨hrm, hexits⟩ | ⟨conn, link, hub, rfl, hlink, hpath, hrm, hexits⟩ |
    ⟨uid3, uid4, rfl, hexits, hrm⟩
  · constructor
    · exact hrm ▸ h.agree
    · exact hrm ▸ h.roomOf
    · rw [hrm, hexits]
      exact h.gone
    · rw [hrm, hexits]
      exact h.count
  · refine h.closed_room hne hub (fun rp hrp hrid hmem => ?_) hrm hexits
    simp [leavesOnce, hlink, hpath, hrp, hrid, hmem] at honce
  · -- the new room has a new number
    have hrooms : s'.server.rm.rooms rid = s.server.rm.rooms rid := by
      rw [hrm]
      exact createRoom_rooms_ne _ (Nat.ne_of_lt h.roomOf.given)
    constructor
    · exact agree_next h.agree hassigns hnext
    · exact hrm ▸ h.roomOf.createRoom _ uid3 uid4
    · rw [hrooms, hexits]
      exact h.gone
    · rw [hrooms, hexits]
      exact h.count

theorem Lives.created {r : Room} (h : s.server.rm.Agree)
    (hassigns : assigns s (.create uid1 uid2) = true)
    (hr : (s.server.rm.createRoom s.server.hub.online uid1 uid2).1 = some r) :
    Lives r.roomId uid1 uid2 (s.created uid1 uid2) := by
  obtain ⟨h1, h2⟩ := unassigned_of_assigns hassigns
  have hroomOf := createRoom_roomOf h.numbered hr
  obtain ⟨rfl, _, hroom⟩ := createRoom_some h.numbered hr
  constructor
  · exact h.createRoom _ h1 h2
  · exact hroomOf
  · intro hnone
    cases hroom.symm.trans hnone
  · intro room hsome
    cases hroom.symm.trans hsome
    rfl

end lives

/-- **A room lives until both players have left**, when neither of them
    closes a second room connection while the room is there. The room is one
    that `create_room` has returned, after any run that creates rooms only for
    users without an entry. -/
theorem room_lives_until_both_left [JsonCpp] (s0 : Lobby)
    (h0 : (runs.restrict fun s l => assigns s l = true).Reachable s0)
    (uid1 uid2 : Nat) (hne : uid1 ≠ uid2) (hassigns : assigns s0 (.create uid1 uid2) = true)
    (r : Room) (hr : (s0.server.rm.createRoom s0.server.hub.online uid1 uid2).1 = some r)
    (steps : List LobbyStep) (s : Lobby)
    (hrun : (runs.restrict fun s l => assigns s l = true ∧ leavesOnce r.roomId s l = true).Steps
      (s0.created uid1 uid2) steps s) :
    (s.server.rm.rooms r.roomId = none → uid1 ∈ s.exits ∧ uid2 ∈ s.exits) ∧
    ∀ room, s.server.rm.rooms r.roomId = some room →
      0 ≤ room.playerCount ∧ room.playerCount = staying uid1 uid2 s.exits := by
  have hagree : s0.server.rm.Agree := by
    refine System.invariant (fun s : Lobby => s.server.rm.Agree) ?_ ?_ s0 h0
    · rintro _ rfl
      exact new_agree
    · rintro s1 l s2 h₁ ⟨hcond, hnext⟩
      exact agree_next h₁ hcond hnext
  have hlives : Lives r.roomId uid1 uid2 s := by
    refine hrun.preserves (Lives r.roomId uid1 uid2) ?_ (Lives.created hagree hassigns hr)
    rintro s1 l s2 h₁ ⟨⟨hcond, honce⟩, hnext⟩
    exact h₁.next hne hcond honce hnext
  refine ⟨hlives.gone, fun room hroom => ?_⟩
  have hcount := hlives.count room hroom
  refine ⟨?_, hcount⟩
  rw [hcount, staying]
  split <;> split <;> decide

attribute [local instance] JsonCpp.standard

def bothInHall : Lobby :=
  (System.run next initial [.opened 1 .hall 7, .opened 2 .hall 8]).getD initial

/-- Both players come to their room, and one of them leaves it. -/
theorem room_lives_one_left :
    ∃ s : Lobby, (runs.restrict fun s l => assigns s l = true).Steps initial
        [.opened 1 .hall 7, .opened 2 .hall 8] bothInHall ∧
      (runs.restrict fun s l => assigns s l = true ∧ leavesOnce 1 s l = true).Steps
        (bothInHall.created 7 8)
        [.closed 1, .closed 2, .opened 3 .room 7, .opened 4 .room 8, .closed 3] s ∧
      (s.server.rm.getRoomByRid 1).isSome = true ∧
      ∀ room, s.server.rm.rooms 1 = some room →
        0 ≤ room.playerCount ∧ room.playerCount = staying 7 8 s.exits := by
  have h0 : (runs.restrict fun s l => assigns s l = true).Steps initial
      [.opened 1 .hall 7, .opened 2 .hall 8] bothInHall := System.restrict_steps_of_run rfl
  have hrun : (runs.restrict fun s l => assigns s l = true ∧ leavesOnce 1 s l = true).Steps
      (bothInHall.created 7 8)
      [.closed 1, .closed 2, .opened 3 .room 7, .opened 4 .room 8, .closed 3] _ :=
    System.restrict_steps_of_run rfl
  exact ⟨_, h0, hrun, rfl,
    (room_lives_until_both_left _ ⟨_, _, rfl, h0⟩ 7 8 (by decide) rfl _ rfl _ _ hrun).2⟩

/-- User 7 leaves the room, comes back and leaves again: the room goes while
    user 8 is in it and has not left. -/
theorem room_lost : ∃ s : Lobby, runs.Steps initial
        [.opened 1 .hall 7, .opened 2 .hall 8, .create 7 8, .closed 1, .closed 2,
          .opened 3 .room 7, .opened 4 .room 8, .closed 3, .opened 5 .room 7, .closed 5] s ∧
      s.links 4 = some ⟨.room, 8, true⟩ ∧ s.server.hub.online.roomUser 8 = some 4 ∧
      s.server.rm.rooms 1 = none ∧ 8 ∉ s.exits :=
  ⟨_, System.steps_of_run rfl, rfl, rfl, rfl, by decide⟩

end Lobby

end CallLesson.Gobang
