import CallLesson.Framework.System
import CallLesson.Gobang.Room

/-! # The room manager

    `room_manager` of `game/source/room.hpp`: two indexes, from room ids to
    rooms and from users to room ids. `create_room` inserts into both with
    `insert`, which keeps an entry that is there; the entries of a room's
    players go when the room goes. -/

namespace CallLesson.Gobang

/-! ## Model -/

structure RoomManager where
  /-- `_next_rid`. -/
  nextRid : Nat
  /-- `_rooms`. -/
  rooms : Dict Nat Room
  /-- `_users`. -/
  users : Dict Nat Nat

namespace RoomManager

def new : RoomManager where
  nextRid := 1
  rooms := Dict.empty
  users := Dict.empty

def addRoom (m : RoomManager) (uid1 uid2 : Nat) : Room × RoomManager :=
  let rp := Room.new m.nextRid uid1 uid2
  (rp,
    { nextRid := m.nextRid + 1
      rooms := m.rooms.insert m.nextRid rp
      users := (m.users.insert uid1 m.nextRid).insert uid2 m.nextRid })

def createRoom (m : RoomManager) (online : Online) (uid1 uid2 : Nat) : Option Room × RoomManager :=
  if online.isInGameHall uid1 = false then (none, m)
  else if online.isInGameHall uid2 = false then (none, m)
  else
    let (rp, m) := m.addRoom uid1 uid2
    (some rp, m)

def getRoomByRid (m : RoomManager) (rid : Nat) : Option Room := m.rooms rid

def getRoomByUid (m : RoomManager) (uid : Nat) : Option Room :=
  match m.users uid with
  | none => none
  | some rid => m.rooms rid

def removeRoom (m : RoomManager) (rid : Nat) : RoomManager :=
  match m.getRoomByRid rid with
  | none => m
  | some rp =>
      { m with
        users := (m.users.erase rp.whiteId).erase rp.blackId
        rooms := m.rooms.erase rid }

def update (m : RoomManager) (rp : Room) : RoomManager :=
  { m with rooms := m.rooms.assign rp.roomId rp }

def removeRoomUser [JsonCpp] (m : RoomManager) (uid : Nat) (hub : Hub) : RoomManager × Hub :=
  match m.getRoomByUid uid with
  | none => (m, hub)
  | some rp =>
      let (rp, hub) := rp.handleExit uid hub
      let m := m.update rp
      if rp.playerCount = 0 then (m.removeRoom rp.roomId, hub) else (m, hub)

end RoomManager

structure Server where
  hub : Hub
  rm : RoomManager

def Server.initial : Server := ⟨⟨⟨Dict.empty, Dict.empty⟩, []⟩, RoomManager.new⟩

inductive ManagerStep where
  | joinHall (uid : Nat) (conn : WsConn)
  | exitHall (uid : Nat)
  | create (uid1 uid2 : Nat)
  | removeUser (uid : Nat)
  deriving DecidableEq

def ManagerStep.next [JsonCpp] (s : Server) : ManagerStep → Option Server
  | .joinHall uid conn =>
      some { s with hub := { s.hub with online := s.hub.online.joinGameHall uid conn } }
  | .exitHall uid =>
      some { s with hub := { s.hub with online := s.hub.online.exitGameHall uid } }
  | .create uid1 uid2 =>
      some { s with rm := (s.rm.createRoom s.hub.online uid1 uid2).2 }
  | .removeUser uid =>
      let (rm, hub) := s.rm.removeRoomUser uid s.hub
      some ⟨hub, rm⟩

def managerRuns [JsonCpp] : System Server ManagerStep :=
  System.ofNext Server.initial ManagerStep.next

def ManagerStep.unassigned (s : Server) : ManagerStep → Bool
  | .create uid1 uid2 => (s.rm.users uid1).isNone && (s.rm.users uid2).isNone
  | _ => true

def unassignedRuns [JsonCpp] : System Server ManagerStep :=
  managerRuns.restrict fun s l => l.unassigned s = true

/-! ## The indexes agree -/

open Dict

variable {m : RoomManager} {rid uid : Nat} {rp room : Room}

namespace RoomManager

structure Agree (m : RoomManager) : Prop where
  keyed : ∀ rid room, m.rooms rid = some room → room.roomId = rid
  fresh : ∀ rid, m.nextRid ≤ rid → m.rooms rid = none
  users : ∀ uid rid, m.users uid = some rid →
    ∃ room, m.rooms rid = some room ∧ (uid = room.whiteId ∨ uid = room.blackId)
  players : ∀ rid room, m.rooms rid = some room →
    m.users room.whiteId = some rid ∧ m.users room.blackId = some rid

theorem new_agree : Agree new where
  keyed := by intro rid room h; cases h
  fresh := fun _ _ => rfl
  users := by intro uid rid h; cases h
  players := by intro rid room h; cases h

structure Numbered (m : RoomManager) : Prop where
  keyed : ∀ rid room, m.rooms rid = some room → room.roomId = rid
  fresh : ∀ rid, m.nextRid ≤ rid → m.rooms rid = none

theorem Agree.numbered (h : Agree m) : Numbered m := ⟨h.keyed, h.fresh⟩

theorem Numbered.createRoom (h : Numbered m) (online : Online) (uid1 uid2 : Nat) :
    Numbered (m.createRoom online uid1 uid2).2 := by
  unfold RoomManager.createRoom addRoom
  split
  · exact h
  split
  · exact h
  refine ⟨fun rid room hroom => ?_, fun rid hrid => ?_⟩
  · dsimp only at hroom
    by_cases hr : rid = m.nextRid
    · rw [hr, insert_of_none _ (h.fresh m.nextRid (Nat.le_refl _))] at hroom
      cases hroom
      exact hr.symm
    · rw [insert_ne _ _ hr] at hroom
      exact h.keyed rid room hroom
  · dsimp only at hrid ⊢
    rw [insert_ne _ _ (Nat.ne_of_gt hrid)]
    exact h.fresh rid (Nat.le_of_succ_le hrid)

theorem Agree.getRoomByUid (h : Agree m) (hroom : m.rooms rid = some room) :
    m.getRoomByUid room.whiteId = some room ∧ m.getRoomByUid room.blackId = some room := by
  obtain ⟨hwhite, hblack⟩ := h.players rid room hroom
  constructor
  · rw [RoomManager.getRoomByUid, hwhite]
    exact hroom
  · rw [RoomManager.getRoomByUid, hblack]
    exact hroom

theorem insert_players {users : Dict Nat Nat} {uid1 uid2 : Nat} (h1 : users uid1 = none)
    (h2 : users uid2 = none) (uid : Nat) :
    (users.insert uid1 rid).insert uid2 rid uid =
      if uid = uid1 ∨ uid = uid2 then some rid else users uid := by
  by_cases hu2 : uid = uid2
  · subst hu2
    by_cases hu1 : uid = uid1
    · subst hu1
      simp [Dict.insert, h1]
    · simp [Dict.insert, hu1, h2]
  · by_cases hu1 : uid = uid1
    · subst hu1
      simp [Dict.insert, hu2, h1]
    · simp [Dict.insert, hu1, hu2]

theorem Agree.createRoom (h : Agree m) (online : Online) {uid1 uid2 : Nat}
    (h1 : m.users uid1 = none) (h2 : m.users uid2 = none) :
    Agree (m.createRoom online uid1 uid2).2 := by
  have hnone := h.fresh m.nextRid (Nat.le_refl _)
  have hnumbered := h.numbered.createRoom online uid1 uid2
  unfold RoomManager.createRoom addRoom at hnumbered ⊢
  split
  · exact h
  split
  · exact h
  next hhall1 hhall2 =>
  rw [if_neg hhall1, if_neg hhall2] at hnumbered
  -- the new room has the id `_next_rid`, which no room has had before
  refine ⟨hnumbered.keyed, hnumbered.fresh, fun uid rid huid => ?_, fun rid room hroom => ?_⟩
  · dsimp only at huid ⊢
    rw [insert_players h1 h2] at huid
    split at huid
    · next hmem =>
      cases huid
      exact ⟨_, insert_of_none _ hnone, hmem⟩
    · obtain ⟨room, hroom, hplayer⟩ := h.users uid rid huid
      have hr : rid ≠ m.nextRid := by
        rintro rfl
        rw [hnone] at hroom
        cases hroom
      exact ⟨room, (insert_ne _ _ hr).trans hroom, hplayer⟩
  · dsimp only at hroom ⊢
    rw [insert_players h1 h2, insert_players h1 h2]
    by_cases hr : rid = m.nextRid
    · rw [hr, insert_of_none _ hnone] at hroom
      cases hroom
      simp [Room.new, hr]
    · rw [insert_ne _ _ hr] at hroom
      obtain ⟨hwhite, hblack⟩ := h.players rid room hroom
      -- the players of the other rooms have entries, and the new players have none
      have hold : ∀ uid, m.users uid = some rid → ¬ (uid = uid1 ∨ uid = uid2) := by
        rintro uid huid (rfl | rfl)
        · rw [h1] at huid
          cases huid
        · rw [h2] at huid
          cases huid
      rw [if_neg (hold _ hwhite), if_neg (hold _ hblack)]
      exact ⟨hwhite, hblack⟩

theorem update_rooms_self (m : RoomManager) (rp : Room) :
    (m.update rp).rooms rp.roomId = some rp := assign_self _ _ _

theorem Numbered.update (h : Numbered m) (hroom : m.rooms rp.roomId = some room) :
    Numbered (m.update rp) := by
  refine ⟨fun rid room' hroom' => ?_, fun rid hrid => ?_⟩
  · by_cases hr : rid = rp.roomId
    · subst hr
      rw [update_rooms_self] at hroom'
      cases hroom'
      rfl
    · exact h.keyed rid room' ((assign_ne _ _ hr).symm.trans hroom')
  · have hr : rid ≠ rp.roomId := by
      intro heq
      rw [← heq, h.fresh _ hrid] at hroom
      cases hroom
    exact (assign_ne _ _ hr).trans (h.fresh rid hrid)

theorem Agree.update (h : Agree m) (hroom : m.rooms rid = some room) (hid : rp.roomId = rid)
    (hwhite : rp.whiteId = room.whiteId) (hblack : rp.blackId = room.blackId) :
    Agree (m.update rp) := by
  subst hid
  have hnumbered := h.numbered.update hroom
  refine ⟨hnumbered.keyed, hnumbered.fresh, fun uid rid' huid => ?_, fun rid' room' hroom' => ?_⟩
  · obtain ⟨room', hroom', hplayer⟩ := h.users uid rid' huid
    by_cases hr : rid' = rp.roomId
    · subst hr
      cases hroom.symm.trans hroom'
      refine ⟨rp, assign_self _ _ _, ?_⟩
      rw [hwhite, hblack]
      exact hplayer
    · exact ⟨room', (assign_ne _ _ hr).trans hroom', hplayer⟩
  · by_cases hr : rid' = rp.roomId
    · subst hr
      rw [update_rooms_self] at hroom'
      cases hroom'
      rw [hwhite, hblack]
      exact h.players _ room hroom
    · exact h.players rid' room' ((assign_ne _ _ hr).symm.trans hroom')

theorem Numbered.removeRoom (h : Numbered m) (rid : Nat) : Numbered (m.removeRoom rid) := by
  unfold RoomManager.removeRoom
  split
  · exact h
  refine ⟨fun rid' room' hroom' => ?_, fun rid' hrid' => ?_⟩
  · by_cases hr : rid' = rid
    · rw [hr] at hroom'
      cases (erase_self _ _).symm.trans hroom'
    · exact h.keyed rid' room' ((erase_ne _ hr).symm.trans hroom')
  · by_cases hr : rid' = rid
    · rw [hr]
      exact erase_self _ _
    · exact (erase_ne _ hr).trans (h.fresh rid' hrid')

theorem Agree.removeRoom (h : Agree m) (rid : Nat) : Agree (m.removeRoom rid) := by
  have hnumbered := h.numbered.removeRoom rid
  unfold RoomManager.removeRoom at hnumbered ⊢
  split
  · exact h
  next rp hrp =>
  rw [hrp] at hnumbered
  -- a user with an entry for another room is not a player of this one
  have hother : ∀ uid rid', rid' ≠ rid → m.users uid = some rid' →
      ((m.users.erase rp.whiteId).erase rp.blackId) uid = some rid' := by
    intro uid rid' hr huid
    obtain ⟨hwhite, hblack⟩ := h.players rid rp hrp
    have hnw : uid ≠ rp.whiteId := by
      rintro rfl
      exact hr (Option.some.inj (huid.symm.trans hwhite))
    have hnb : uid ≠ rp.blackId := by
      rintro rfl
      exact hr (Option.some.inj (huid.symm.trans hblack))
    rw [erase_ne _ hnb, erase_ne _ hnw]
    exact huid
  have hkept : ∀ uid rid', ((m.users.erase rp.whiteId).erase rp.blackId) uid = some rid' →
      m.users uid = some rid' ∧ uid ≠ rp.whiteId ∧ uid ≠ rp.blackId := by
    intro uid rid' huid
    by_cases hnb : uid = rp.blackId
    · rw [hnb, erase_self] at huid
      cases huid
    rw [erase_ne _ hnb] at huid
    by_cases hnw : uid = rp.whiteId
    · rw [hnw, erase_self] at huid
      cases huid
    · rw [erase_ne _ hnw] at huid
      exact ⟨huid, hnw, hnb⟩
  have hrooms : ∀ rid' room', m.rooms.erase rid rid' = some room' →
      rid' ≠ rid ∧ m.rooms rid' = some room' := by
    intro rid' room' hroom'
    by_cases hr : rid' = rid
    · rw [hr, erase_self] at hroom'
      cases hroom'
    · exact ⟨hr, (erase_ne _ hr).symm.trans hroom'⟩
  refine ⟨hnumbered.keyed, hnumbered.fresh, fun uid rid' huid => ?_, fun rid' room' hroom' => ?_⟩
  · obtain ⟨huid', hnw, hnb⟩ := hkept uid rid' huid
    obtain ⟨room', hroom', hplayer⟩ := h.users uid rid' huid'
    have hr : rid' ≠ rid := by
      rintro rfl
      cases hrp.symm.trans hroom'
      rcases hplayer with hw | hb
      · exact hnw hw
      · exact hnb hb
    exact ⟨room', (erase_ne _ hr).trans hroom', hplayer⟩
  · obtain ⟨hr, hroom⟩ := hrooms rid' room' hroom'
    obtain ⟨hwhite, hblack⟩ := h.players rid' room' hroom
    exact ⟨hother _ _ hr hwhite, hother _ _ hr hblack⟩

end RoomManager

theorem Room.handleExit_players [JsonCpp] (r : Room) (uid : Nat) (hub : Hub) :
    (r.handleExit uid hub).1.roomId = r.roomId ∧ (r.handleExit uid hub).1.whiteId = r.whiteId ∧
      (r.handleExit uid hub).1.blackId = r.blackId := by
  unfold handleExit
  split <;> exact ⟨rfl, rfl, rfl⟩

theorem Room.handleExit_playerCount [JsonCpp] (r : Room) (uid : Nat) (hub : Hub) :
    (r.handleExit uid hub).1.playerCount = r.playerCount - 1 := by
  unfold handleExit
  split <;> rfl

theorem Room.handleExit_online [JsonCpp] (r : Room) (uid : Nat) (hub : Hub) :
    (r.handleExit uid hub).2.online = hub.online := by
  unfold handleExit
  split
  · exact r.broadcast_online _ _
  · rfl

namespace RoomManager

theorem removeRoomUser_cases [JsonCpp] (m : RoomManager) (uid : Nat) (hub : Hub) :
    (m.getRoomByUid uid = none ∧ m.removeRoomUser uid hub = (m, hub)) ∨
    ∃ rp, m.getRoomByUid uid = some rp ∧ (m.removeRoomUser uid hub).2 = (rp.handleExit uid hub).2 ∧
      (((rp.handleExit uid hub).1.playerCount ≠ 0 ∧
          (m.removeRoomUser uid hub).1 = m.update (rp.handleExit uid hub).1) ∨
        ((rp.handleExit uid hub).1.playerCount = 0 ∧
          (m.removeRoomUser uid hub).1 =
            (m.update (rp.handleExit uid hub).1).removeRoom (rp.handleExit uid hub).1.roomId)) := by
  unfold removeRoomUser
  cases hrp : m.getRoomByUid uid with
  | none => exact Or.inl ⟨rfl, rfl⟩
  | some rp =>
    refine Or.inr ⟨rp, rfl, ?_⟩
    dsimp only
    by_cases hcount : (rp.handleExit uid hub).1.playerCount = 0
    · rw [if_pos hcount]
      exact ⟨rfl, Or.inr ⟨hcount, rfl⟩⟩
    · rw [if_neg hcount]
      exact ⟨rfl, Or.inl ⟨hcount, rfl⟩⟩

theorem removeRoomUser_online [JsonCpp] (m : RoomManager) (uid : Nat) (hub : Hub) :
    (m.removeRoomUser uid hub).2.online = hub.online := by
  rcases m.removeRoomUser_cases uid hub with ⟨_, hsame⟩ | ⟨rp, _, hhub, _⟩
  · rw [hsame]
  · rw [hhub]
    exact rp.handleExit_online uid hub

theorem removeRoom_rooms_ne (m : RoomManager) {rid' : Nat} (h : rid' ≠ rid) :
    (m.removeRoom rid).rooms rid' = m.rooms rid' := by
  unfold removeRoom
  split
  · rfl
  · exact erase_ne _ h

theorem removeRoom_rooms_self (m : RoomManager) (rid : Nat) :
    (m.removeRoom rid).rooms rid = none := by
  unfold removeRoom
  split
  · next hnone => exact hnone
  · exact erase_self _ _

theorem removeRoomUser_rooms_ne [JsonCpp] (hub : Hub)
    (h : ∀ rp, m.getRoomByUid uid = some rp → rp.roomId ≠ rid) :
    (m.removeRoomUser uid hub).1.rooms rid = m.rooms rid := by
  rcases m.removeRoomUser_cases uid hub with ⟨_, hsame⟩ | ⟨rp, hrp, _, hcase⟩
  · rw [hsame]
  · have hne : rid ≠ (rp.handleExit uid hub).1.roomId := by
      rw [(rp.handleExit_players uid hub).1]
      exact (h rp hrp).symm
    rcases hcase with ⟨_, heq⟩ | ⟨_, heq⟩
    · rw [heq]
      exact assign_ne _ _ hne
    · rw [heq, removeRoom_rooms_ne _ hne]
      exact assign_ne _ _ hne

theorem removeRoomUser_rooms_self [JsonCpp] (hub : Hub) (hrp : m.getRoomByUid uid = some rp) :
    ∃ rp', rp'.playerCount = rp.playerCount - 1 ∧
      (m.removeRoomUser uid hub).1.rooms rp.roomId =
        if rp'.playerCount = 0 then none else some rp' := by
  refine ⟨(rp.handleExit uid hub).1, rp.handleExit_playerCount uid hub, ?_⟩
  rcases m.removeRoomUser_cases uid hub with ⟨hnone, _⟩ | ⟨rp1, hrp1, _, hcase⟩
  · rw [hrp] at hnone
    cases hnone
  · cases hrp.symm.trans hrp1
    have hid := (rp.handleExit_players uid hub).1
    rcases hcase with ⟨hcount, heq⟩ | ⟨hcount, heq⟩
    · rw [heq, if_neg hcount, ← hid]
      exact update_rooms_self _ _
    · rw [heq, if_pos hcount, hid]
      exact removeRoom_rooms_self _ _

theorem Numbered.room_of_uid (h : Numbered m) (hrp : m.getRoomByUid uid = some rp) :
    m.rooms rp.roomId = some rp := by
  unfold RoomManager.getRoomByUid at hrp
  split at hrp
  · cases hrp
  · next rid _ =>
    rw [h.keyed rid rp hrp]
    exact hrp

theorem Numbered.removeRoomUser [JsonCpp] (h : Numbered m) (uid : Nat) (hub : Hub) :
    Numbered (m.removeRoomUser uid hub).1 := by
  rcases m.removeRoomUser_cases uid hub with ⟨_, hsame⟩ | ⟨rp, hrp, _, hcase⟩
  · rw [hsame]
    exact h
  · have hroom : m.rooms (rp.handleExit uid hub).1.roomId = some rp := by
      rw [(rp.handleExit_players uid hub).1]
      exact h.room_of_uid hrp
    rcases hcase with ⟨_, heq⟩ | ⟨_, heq⟩
    · rw [heq]
      exact h.update hroom
    · rw [heq]
      exact (h.update hroom).removeRoom _

theorem Agree.player_of_uid (h : Agree m) (hrp : m.getRoomByUid uid = some rp) :
    uid = rp.whiteId ∨ uid = rp.blackId := by
  unfold RoomManager.getRoomByUid at hrp
  split at hrp
  · cases hrp
  · next rid hrid =>
    obtain ⟨room, hroom, hplayer⟩ := h.users uid rid hrid
    cases hrp.symm.trans hroom
    exact hplayer

theorem Agree.removeRoomUser [JsonCpp] (h : Agree m) (uid : Nat) (hub : Hub) :
    Agree (m.removeRoomUser uid hub).1 := by
  rcases m.removeRoomUser_cases uid hub with ⟨_, hsame⟩ | ⟨rp, hrp, _, hcase⟩
  · rw [hsame]
    exact h
  · obtain ⟨hid, hwhite, hblack⟩ := rp.handleExit_players uid hub
    have hupdate := h.update (h.numbered.room_of_uid hrp) hid hwhite hblack
    rcases hcase with ⟨_, heq⟩ | ⟨_, heq⟩
    · rw [heq]
      exact hupdate
    · rw [heq]
      exact hupdate.removeRoom _

/-! ## Rooms keep their players -/

structure RoomOf (rid uid1 uid2 : Nat) (m : RoomManager) : Prop where
  given : rid < m.nextRid
  players : ∀ room, m.rooms rid = some room → room.whiteId = uid1 ∧ room.blackId = uid2

variable {rid uid1 uid2 : Nat} {m : RoomManager}

theorem createRoom_some {online : Online} {r : Room} (h : Numbered m)
    (hr : (m.createRoom online uid1 uid2).1 = some r) :
    r = Room.new m.nextRid uid1 uid2 ∧ (m.createRoom online uid1 uid2).2.nextRid = m.nextRid + 1 ∧
      (m.createRoom online uid1 uid2).2.rooms m.nextRid = some r := by
  unfold createRoom at hr ⊢
  split at hr
  · cases hr
  next h1 =>
  split at hr
  · cases hr
  next h2 =>
  cases hr
  rw [if_neg h1, if_neg h2]
  exact ⟨rfl, rfl, insert_of_none _ (h.fresh m.nextRid (Nat.le_refl _))⟩

theorem createRoom_roomOf {online : Online} {r : Room} (h : Numbered m)
    (hr : (m.createRoom online uid1 uid2).1 = some r) :
    RoomOf r.roomId uid1 uid2 (m.createRoom online uid1 uid2).2 := by
  obtain ⟨rfl, hnext, hroom⟩ := createRoom_some h hr
  refine ⟨?_, fun room hsome => ?_⟩
  · rw [hnext]
    exact Nat.lt_succ_self _
  · cases hroom.symm.trans hsome
    exact ⟨rfl, rfl⟩

theorem createRoom_rooms_ne (online : Online) (h : rid ≠ m.nextRid) :
    (m.createRoom online uid1 uid2).2.rooms rid = m.rooms rid := by
  unfold createRoom addRoom
  split
  · rfl
  split
  · rfl
  · exact insert_ne _ _ h

theorem RoomOf.createRoom (h : RoomOf rid uid1 uid2 m) (online : Online) (uid3 uid4 : Nat) :
    RoomOf rid uid1 uid2 (m.createRoom online uid3 uid4).2 := by
  unfold RoomManager.createRoom addRoom
  split
  · exact h
  split
  · exact h
  refine ⟨Nat.lt_succ_of_lt h.given, fun room hroom => ?_⟩
  exact h.players room ((insert_ne _ _ (Nat.ne_of_lt h.given)).symm.trans hroom)

theorem RoomOf.update (h : RoomOf rid uid1 uid2 m) (hroom : m.rooms rp.roomId = some room)
    (hwhite : rp.whiteId = room.whiteId) (hblack : rp.blackId = room.blackId) :
    RoomOf rid uid1 uid2 (m.update rp) := by
  refine ⟨h.given, fun room' hroom' => ?_⟩
  by_cases hr : rid = rp.roomId
  · subst hr
    rw [update_rooms_self] at hroom'
    cases hroom'
    rw [hwhite, hblack]
    exact h.players room hroom
  · exact h.players room' ((assign_ne _ _ hr).symm.trans hroom')

theorem RoomOf.removeRoom (h : RoomOf rid uid1 uid2 m) (rid' : Nat) :
    RoomOf rid uid1 uid2 (m.removeRoom rid') := by
  unfold RoomManager.removeRoom
  split
  · exact h
  refine ⟨h.given, fun room hroom => ?_⟩
  by_cases hr : rid = rid'
  · subst hr
    cases (erase_self _ _).symm.trans hroom
  · exact h.players room ((erase_ne _ hr).symm.trans hroom)

theorem RoomOf.removeRoomUser [JsonCpp] (h : RoomOf rid uid1 uid2 m) (hm : Numbered m) (uid : Nat)
    (hub : Hub) : RoomOf rid uid1 uid2 (m.removeRoomUser uid hub).1 := by
  rcases m.removeRoomUser_cases uid hub with ⟨_, hsame⟩ | ⟨rp, hrp, _, hcase⟩
  · rw [hsame]
    exact h
  · obtain ⟨hid, hwhite, hblack⟩ := rp.handleExit_players uid hub
    have hroom : m.rooms (rp.handleExit uid hub).1.roomId = some rp := by
      rw [hid]
      exact hm.room_of_uid hrp
    have hupdate := h.update hroom hwhite hblack
    rcases hcase with ⟨_, heq⟩ | ⟨_, heq⟩
    · rw [heq]
      exact hupdate
    · rw [heq]
      exact hupdate.removeRoom _

end RoomManager

/-! ### Runs -/

theorem agree_step [JsonCpp] {s s' : Server} {l : ManagerStep} (h : s.rm.Agree)
    (hstep : unassignedRuns.step s l s') : s'.rm.Agree := by
  obtain ⟨hcond, hnext⟩ := hstep
  cases l with
  | joinHall uid conn =>
    cases hnext
    exact h
  | exitHall uid =>
    cases hnext
    exact h
  | create uid1 uid2 =>
    cases hnext
    obtain ⟨h1, h2⟩ := Bool.and_eq_true_iff.mp hcond
    exact h.createRoom _ (Option.isNone_iff_eq_none.mp h1) (Option.isNone_iff_eq_none.mp h2)
  | removeUser uid =>
    cases hnext
    exact h.removeRoomUser uid _

theorem roomOf_step [JsonCpp] {uid1 uid2 : Nat} {s s' : Server} {l : ManagerStep}
    (hm : s.rm.Agree) (h : s.rm.RoomOf rid uid1 uid2) (hstep : unassignedRuns.step s l s') :
    s'.rm.RoomOf rid uid1 uid2 := by
  obtain ⟨_, hnext⟩ := hstep
  cases l with
  | joinHall uid conn =>
    cases hnext
    exact h
  | exitHall uid =>
    cases hnext
    exact h
  | create uid3 uid4 =>
    cases hnext
    exact h.createRoom _ uid3 uid4
  | removeUser uid =>
    cases hnext
    exact h.removeRoomUser hm.numbered uid _

/-- **The indexes agree**, in every run that creates rooms only for users who
    have no entry: `_users` leads to rooms of its users, the rooms are found
    from their players, and a room returned by `create_room` is found from the
    players it was created for as long as it exists. -/
theorem room_indexes_agree [JsonCpp] (s : Server) (steps : List ManagerStep)
    (hrun : unassignedRuns.Steps Server.initial steps s) :
    (∀ uid rid, s.rm.users uid = some rid →
      ∃ room, s.rm.rooms rid = some room ∧ (uid = room.whiteId ∨ uid = room.blackId)) ∧
    (∀ rid room, s.rm.rooms rid = some room →
      s.rm.getRoomByUid room.whiteId = some room ∧ s.rm.getRoomByUid room.blackId = some room) ∧
    (∀ uid1 uid2 r, (s.rm.createRoom s.hub.online uid1 uid2).1 = some r →
      ∀ s1, unassignedRuns.step s (.create uid1 uid2) s1 →
      ∀ later s2, unassignedRuns.Steps s1 later s2 →
      ∀ room, s2.rm.getRoomByRid r.roomId = some room →
        s2.rm.getRoomByUid uid1 = some room ∧ s2.rm.getRoomByUid uid2 = some room) := by
  have hagree : s.rm.Agree :=
    hrun.preserves (fun s => s.rm.Agree) (fun _ _ _ => agree_step) RoomManager.new_agree
  refine ⟨hagree.users, fun rid room hroom => hagree.getRoomByUid hroom, ?_⟩
  intro uid1 uid2 r hr s1 hstep later s2 hlater room hroom
  have hs1 : s1.rm.Agree ∧ s1.rm.RoomOf r.roomId uid1 uid2 := by
    refine ⟨agree_step hagree hstep, ?_⟩
    cases hstep.2
    exact RoomManager.createRoom_roomOf hagree.numbered hr
  obtain ⟨hagree2, hroom2⟩ := hlater.preserves
    (fun s => s.rm.Agree ∧ s.rm.RoomOf r.roomId uid1 uid2)
    (fun _ _ _ h hstep => ⟨agree_step h.1 hstep, roomOf_step h.1 h.2 hstep⟩) hs1
  obtain ⟨hwhite, hblack⟩ := hroom2.players room hroom
  have hfound := hagree2.getRoomByUid hroom
  rw [hwhite, hblack] at hfound
  exact hfound

attribute [local instance] JsonCpp.standard

/-- One player has left; both are still led to the room. -/
theorem room_indexes_agree_one_left : ∃ s : Server, unassignedRuns.Steps Server.initial
        [.joinHall 7 70, .joinHall 8 80, .create 7 8, .removeUser 7] s ∧
      (s.rm.getRoomByRid 1).isSome = true ∧
      ∀ rid room, s.rm.rooms rid = some room → s.rm.getRoomByUid room.whiteId = some room ∧
        s.rm.getRoomByUid room.blackId = some room := by
  have hrun : unassignedRuns.Steps Server.initial
      [.joinHall 7 70, .joinHall 8 80, .create 7 8, .removeUser 7] _ :=
    System.restrict_steps_of_run rfl
  exact ⟨_, hrun, rfl, (room_indexes_agree _ _ hrun).2.1⟩

/-- A player who has left a room is matched again: `create_room` returns a new
    room, and the player is led to the old one. -/
theorem room_indexes_disagree : ∃ s s', managerRuns.Steps Server.initial
        [.joinHall 7 70, .joinHall 8 80, .create 7 8, .removeUser 7, .joinHall 9 90] s ∧
      managerRuns.step s (.create 7 9) s' ∧
      (s.rm.createRoom s.hub.online 7 9).1.map Room.roomId = some 2 ∧
      (s'.rm.getRoomByRid 2).isSome = true ∧
      (s'.rm.getRoomByUid 7).map Room.roomId = some 1 :=
  ⟨_, _, System.steps_of_run rfl, rfl, rfl, rfl, rfl⟩

end CallLesson.Gobang
