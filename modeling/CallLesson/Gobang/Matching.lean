import CallLesson.Gobang.Matcher

/-! # Where a waiting user is

    A user for whom `add` has been called is in a call, in a queue or in the
    hands of a thread, until a room is created for them. Each of these places
    can hold a user several times. Counted over all of them, a step of the
    matcher creates no copy of a user but by a call of `add`. -/

namespace CallLesson.Gobang

/-! ## Copies of a user -/

open List Function Call Server Tier

namespace Tier

def total (f : Tier → Nat) : Nat := f .normal + f .high + f .super

theorem total_update {α : Type} (g : α → Nat) (f : Tier → α) (tier : Tier) (v : α) :
    total (fun t => g (Function.update f tier v t)) + g (f tier) =
      total (fun t => g (f t)) + g v := by
  cases tier <;> simp [total, update] <;> omega

theorem le_total (f : Tier → Nat) (tier : Tier) : f tier ≤ total f := by
  cases tier <;> simp only [total] <;> omega

theorem total_eq_zero {f : Tier → Nat} (h : ∀ tier, f tier = 0) : total f = 0 := by
  simp [total, h]

end Tier

def Call.brings (uid : Nat) : Call → Bool
  | .add u => decide (u = uid)
  | .push u _ => decide (u = uid)
  | _ => false

variable {l : MatcherStep} {c : Call}

namespace Matcher

def waiting (s : Matcher) (uid : Nat) : Nat := total fun t => (s.queue t).count uid

def holding (s : Matcher) (uid : Nat) : Nat := total fun t => (s.pc t).held.count uid

def calling (s : Matcher) (uid : Nat) : Nat := s.calls.countP (brings uid)

def copies (s : Matcher) (uid : Nat) : Nat := s.waiting uid + s.holding uid + s.calling uid

def placed (s : Matcher) (uid : Nat) : Nat :=
  (s.created.flatMap fun rp => [rp.whiteId, rp.blackId]).count uid

variable {s s' : Matcher} {tier : Tier} {uid : Nat}

/-! ### The parts of a step -/

@[simp] theorem held_notified (pc : Pc) : pc.notified.held = pc.held := by
  cases pc <;> rfl

theorem holding_setPc (s : Matcher) (tier : Tier) (pc : Pc) (uid : Nat) :
    (s.setPc tier pc).holding uid + (s.pc tier).held.count uid =
      s.holding uid + pc.held.count uid :=
  total_update (fun pc => pc.held.count uid) s.pc tier pc

theorem holding_push (s : Matcher) (tier : Tier) (u uid : Nat) :
    (s.push tier u).holding uid = s.holding uid := by
  have h := holding_setPc s tier (s.pc tier).notified uid
  rw [held_notified] at h
  exact Nat.add_right_cancel h

theorem waiting_push (s : Matcher) (tier : Tier) (u uid : Nat) :
    (s.push tier u).waiting uid = s.waiting uid + [u].count uid := by
  have h := total_update (fun q => q.count uid) s.queue tier (s.queue tier ++ [u])
  rw [count_append] at h
  unfold waiting push
  dsimp only
  omega

variable {u : Nat}

theorem waiting_popped {rest : List Nat} (hq : s.queue tier = u :: rest) (uid : Nat) :
    (s.popped tier rest).waiting uid + [u].count uid = s.waiting uid := by
  have h := total_update (fun q => q.count uid) s.queue tier rest
  rw [hq, ← singleton_append, count_append] at h
  unfold waiting popped
  dsimp only
  omega

theorem waiting_remove_ne (s : Matcher) (tier : Tier) (h : uid ≠ u) :
    (s.remove tier u).waiting uid = s.waiting uid := by
  have hcount : ((s.queue tier).filter (· ≠ u)).count uid = (s.queue tier).count uid :=
    count_filter (by simpa using h)
  have htotal := total_update (fun q => q.count uid) s.queue tier ((s.queue tier).filter (· ≠ u))
  unfold waiting remove
  dsimp only
  omega

theorem waiting_remove_le (s : Matcher) (tier : Tier) (u uid : Nat) :
    (s.remove tier u).waiting uid ≤ s.waiting uid := by
  have hcount : ((s.queue tier).filter (· ≠ u)).count uid ≤ (s.queue tier).count uid :=
    filter_sublist.count_le _
  have htotal := total_update (fun q => q.count uid) s.queue tier ((s.queue tier).filter (· ≠ u))
  unfold waiting remove
  dsimp only
  omega

theorem calling_returns (hc : c ∈ s.calls) (uid : Nat) :
    (s.returns c).calling uid + (brings uid c).toNat = s.calling uid := by
  have hperm := (perm_cons_erase hc).countP_eq (brings uid)
  rw [countP_cons] at hperm
  unfold calling returns
  cases hb : brings uid c <;> simp [hb] at hperm ⊢ <;> omega

theorem calling_goesOn (hc : c ∈ s.calls) (c' : Call) (uid : Nat) :
    (s.goesOn c c').calling uid + (brings uid c).toNat = s.calling uid + (brings uid c').toNat := by
  have h := calling_returns hc uid
  have happend : (s.goesOn c c').calling uid =
      (s.returns c).calling uid + (brings uid c').toNat := by
    unfold calling goesOn returns
    rw [countP_append]
    cases hb : brings uid c' <;> simp [hb]
  omega

theorem copies_setPc (s : Matcher) (tier : Tier) (pc : Pc) (uid : Nat) :
    (s.setPc tier pc).copies uid + (s.pc tier).held.count uid =
      s.copies uid + pc.held.count uid := by
  have h := s.holding_setPc tier pc uid
  show s.waiting uid + (s.setPc tier pc).holding uid + s.calling uid + _ = _
  unfold copies
  omega

theorem copies_push (s : Matcher) (tier : Tier) (u uid : Nat) :
    (s.push tier u).copies uid = s.copies uid + [u].count uid := by
  show (s.push tier u).waiting uid + (s.push tier u).holding uid + s.calling uid = _
  rw [waiting_push, holding_push, copies]
  omega

theorem copies_popped {rest : List Nat} (hq : s.queue tier = u :: rest) (uid : Nat) :
    (s.popped tier rest).copies uid + [u].count uid = s.copies uid := by
  have h := waiting_popped hq uid
  show (s.popped tier rest).waiting uid + s.holding uid + s.calling uid + _ = _
  unfold copies
  omega

theorem copies_returns (hc : c ∈ s.calls) (uid : Nat) :
    (s.returns c).copies uid + (brings uid c).toNat = s.copies uid := by
  have h := calling_returns hc uid
  show s.waiting uid + s.holding uid + (s.returns c).calling uid + _ = _
  unfold copies
  omega

theorem copies_goesOn (hc : c ∈ s.calls) (c' : Call) (uid : Nat) :
    (s.goesOn c c').copies uid + (brings uid c).toNat = s.copies uid + (brings uid c').toNat := by
  have h := calling_goesOn hc c' uid
  show s.waiting uid + s.holding uid + (s.goesOn c c').calling uid + _ = _
  unfold copies
  omega

/-! ## What a thread does -/

def Keeps (s : Matcher) (uid : Nat) : Prop :=
  (s.server.hub.online.hallUser uid).isSome = true ∧ (s.scores uid).isSome = true

inductive ThreadStep (s : Matcher) (tier : Tier) : Matcher → Prop where
  /-- The thread goes on with the users it has. It waits only after it has
      found its queue too short. -/
  | goOn (pc : Pc) : pc.held = (s.pc tier).held →
      (pc = .wait → (s.queue tier).length < 2) → (pc = .blocked → s.pc tier = .wait) →
      ThreadStep s tier (s.setPc tier pc)
  /-- It takes a user from its queue. -/
  | take (u : Nat) (rest : List Nat) (pc : Pc) : s.queue tier = u :: rest →
      pc.held = (s.pc tier).held ++ [u] →
      ThreadStep s tier ((s.popped tier rest).setPc tier pc)
  /-- It loses a user who has left the hall or has no score. -/
  | lose (u : Nat) (uids : List Nat) : (s.pc tier).held.Perm (u :: uids) → ¬ s.Keeps u →
      ThreadStep s tier (s.setPc tier (.select uids))
  /-- It creates a room for the users it has. -/
  | place (rp : Room) (rm : RoomManager) (conn1 conn2 : WsConn) :
      (s.pc tier).held = [rp.whiteId, rp.blackId] →
      ThreadStep s tier ({ s with
        server := { s.server with rm := rm }
        created := s.created ++ [rp] }.setPc tier (.reply conn1 conn2))
  /-- It tells them. -/
  | reply (sv : Server) : (s.pc tier).held = [] → sv.hub.online = s.server.hub.online →
      ThreadStep s tier ({ s with server := sv }.setPc tier .size)
  /-- It puts a user into a queue. -/
  | give (u : Nat) (tier' : Tier) (rest : List Nat) : s.pc tier = .push u tier' rest →
      ThreadStep s tier ((s.setPc tier (.select rest)).push tier' u)

theorem ThreadStep.keep {pc : Pc} (hheld : (s.pc tier).held = pc.held) (hwait : pc ≠ .wait)
    (hblocked : pc ≠ .blocked) : ThreadStep s tier (s.setPc tier pc) :=
  .goOn pc hheld.symm (fun h => absurd h hwait) fun h => absurd h hblocked

theorem not_keeps_of_conn (h : s.server.hub.online.getConnFromHall u = none) : ¬ s.Keeps u := by
  intro hkeeps
  have hsome := hkeeps.1
  rw [show s.server.hub.online.hallUser u = none from h] at hsome
  cases hsome

section steps

variable [JsonCpp] (h : s.handleMatch tier = some s')

include h

theorem size_step (hpc : s.pc tier = .size) : ThreadStep s tier s' := by
  simp only [handleMatch, hpc] at h
  cases h
  apply ThreadStep.goOn
  · rw [hpc]
    split <;> rfl
  · intro hwait
    by_contra hlong
    rw [if_neg hlong] at hwait
    cases hwait
  · intro hblocked
    split at hblocked <;> cases hblocked

theorem wait_step (hpc : s.pc tier = .wait) : ThreadStep s tier s' := by
  simp only [handleMatch, hpc] at h
  cases h
  exact .goOn _ (by rw [hpc]; rfl) nofun fun _ => hpc

theorem pop1_step (hpc : s.pc tier = .pop1) : ThreadStep s tier s' := by
  simp only [handleMatch, hpc] at h
  split at h
  · -- `pop` returned false: the loop starts again
    cases h
    exact .keep (by rw [hpc]; rfl) nofun nofun
  · next u rest hq =>
    cases h
    exact .take u rest _ hq (by rw [hpc]; rfl)

theorem pop2_step {u : Nat} (hpc : s.pc tier = .pop2 u) : ThreadStep s tier s' := by
  simp only [handleMatch, hpc] at h
  split at h
  · -- the user popped first goes back through `add`
    cases h
    exact .keep (by rw [hpc]; rfl) nofun nofun
  · next v rest hq =>
    cases h
    exact .take v rest _ hq (by rw [hpc]; rfl)

theorem conn1_step {u v : Nat} (hpc : s.pc tier = .conn1 u v) : ThreadStep s tier s' := by
  simp only [handleMatch, hpc] at h
  split at h
  · next hnone =>
    cases h
    exact .lose u [v] (by rw [hpc]; exact .refl _) (not_keeps_of_conn hnone)
  · cases h
    exact .keep (by rw [hpc]; rfl) nofun nofun

theorem conn2_step {u v : Nat} {conn : WsConn} (hpc : s.pc tier = .conn2 u v conn) :
    ThreadStep s tier s' := by
  simp only [handleMatch, hpc] at h
  split at h
  · next hnone =>
    cases h
    exact .lose v [u] (by rw [hpc]; exact .swap _ _ _) (not_keeps_of_conn hnone)
  · cases h
    exact .keep (by rw [hpc]; rfl) nofun nofun

theorem select_step {uids : List Nat} (hpc : s.pc tier = .select uids) : ThreadStep s tier s' := by
  cases uids with
  | nil =>
    simp only [handleMatch, hpc] at h
    cases h
    exact .keep (by rw [hpc]; rfl) nofun nofun
  | cons u rest =>
    simp only [handleMatch, hpc] at h
    split at h
    · -- `add` does not find the user in the table and returns false
      next hnone =>
      cases h
      refine .lose u rest (by rw [hpc]; exact .refl _) fun hkeeps => ?_
      rw [Keeps, hnone] at hkeeps
      exact absurd hkeeps.2 (by decide)
    · cases h
      exact .keep (by rw [hpc]; rfl) nofun nofun

theorem handleMatch_step : ThreadStep s tier s' := by
  -- what the thread holds at a point of the loop is fixed by `Pc.held`, and the
  -- branch taken decides which users it still holds after
  cases hpc : s.pc tier with
  | size => exact size_step h hpc
  | wait => exact wait_step h hpc
  | blocked =>
    simp only [handleMatch, hpc] at h
    cases h
  | pop1 => exact pop1_step h hpc
  | pop2 u => exact pop2_step h hpc
  | conn1 u v => exact conn1_step h hpc
  | conn2 u v c => exact conn2_step h hpc
  | hall1 u v c1 c2 =>
    -- `create_room` gives no room when a user has left: both go back
    simp only [handleMatch, hpc] at h
    cases h
    split <;> exact .keep (by rw [hpc]; rfl) nofun nofun
  | hall2 u v c1 c2 =>
    simp only [handleMatch, hpc] at h
    cases h
    split <;> exact .keep (by rw [hpc]; rfl) nofun nofun
  | create u v c1 c2 =>
    simp only [handleMatch, hpc] at h
    cases h
    exact .place _ _ c1 c2 (by rw [hpc]; rfl)
  | reply c1 c2 =>
    simp only [handleMatch, hpc] at h
    cases h
    exact .reply _ (by rw [hpc]; rfl) rfl
  | select uids => exact select_step h hpc
  | push u t rest =>
    simp only [handleMatch, hpc] at h
    cases h
    exact .give u t rest hpc

end steps

/-! ## What a step records -/

inductive Records [JsonCpp] (s s' : Matcher) (l : MatcherStep) : Prop where
  | same : s'.started = s.started → s'.left = s.left → s'.created = s.created → Records s s' l
  | start (u : Nat) (req : Option Json) (resp : Json) : l = .message u req →
      wsmsgGameHall req = .ok (some .add, resp) → s'.started = s.started ++ [u] →
      s'.left = Function.update s.left u false → s'.created = s.created → Records s s' l
  | leave (u : Nat) (tier : Tier) : l = .call (.remove u tier) → s'.started = s.started →
      s'.left = Function.update s.left u true → s'.created = s.created → Records s s' l
  | create (tier : Tier) (rp : Room) : (s.pc tier).held = [rp.whiteId, rp.blackId] →
      s'.started = s.started → s'.left = s.left → s'.created = s.created ++ [rp] → Records s s' l

theorem next_records [JsonCpp] (h : next s l = some s') : Records s s' l := by
  cases l with
  | joinHall u conn => cases h; exact .same rfl rfl rfl
  | exitHall u => cases h; exact .same rfl rfl rfl
  | score u value => cases h; exact .same rfl rfl rfl
  | message u req =>
    simp only [next] at h
    split at h
    · cases h
    · next c resp hmsg =>
      cases h
      cases c with
      | none => exact .same rfl rfl rfl
      | some c =>
        cases c with
        | add => exact .start u req resp rfl hmsg rfl rfl rfl
        | del => exact .same rfl rfl rfl
  | call c =>
    simp only [next] at h
    split at h
    · cases h
      cases c with
      | add u =>
        unfold callStep
        dsimp only
        split <;> exact .same rfl rfl rfl
      | push u tier => exact .same rfl rfl rfl
      | del u =>
        unfold callStep
        dsimp only
        split <;> exact .same rfl rfl rfl
      | remove u tier => exact .leave u tier rfl rfl rfl rfl
    · cases h
  | wake tier => cases h; exact .same rfl rfl rfl
  | thread tier =>
    cases handleMatch_step h with
    | place rp rm conn1 conn2 hheld => exact .create tier rp hheld rfl rfl rfl
    | _ => exact .same rfl rfl rfl

/-! ## The balance of a step -/

theorem ThreadStep.balance (h : ThreadStep s tier s') (uid : Nat) :
    ∃ lost, s'.copies uid + s'.placed uid + lost = s.copies uid + s.placed uid ∧
      (s.Keeps uid → lost = 0) := by
  cases h with
  | goOn pc hheld _ _ =>
    have hcopies := s.copies_setPc tier pc uid
    rw [hheld] at hcopies
    refine ⟨0, ?_, fun _ => rfl⟩
    show (s.setPc tier pc).copies uid + s.placed uid + 0 = _
    omega
  | take u rest pc hq hheld =>
    have hpop := copies_popped hq uid
    have hcopies := (s.popped tier rest).copies_setPc tier pc uid
    rw [hheld, count_append] at hcopies
    refine ⟨0, ?_, fun _ => rfl⟩
    show ((s.popped tier rest).setPc tier pc).copies uid + s.placed uid + 0 = _
    have hpc : ((s.popped tier rest).pc tier) = s.pc tier := rfl
    rw [hpc] at hcopies
    omega
  | lose u uids hperm hgone =>
    -- the one case in which a copy is not found again
    have hcopies := s.copies_setPc tier (.select uids) uid
    rw [hperm.count_eq, ← singleton_append, count_append] at hcopies
    refine ⟨[u].count uid, ?_, fun hkeeps => ?_⟩
    · show (s.setPc tier (.select uids)).copies uid + s.placed uid + _ = _
      have hheld : (Pc.select uids).held = uids := rfl
      rw [hheld] at hcopies
      omega
    · rw [count_eq_zero, mem_singleton]
      rintro rfl
      exact hgone hkeeps
  | place rp rm conn1 conn2 hheld =>
    have hcopies := s.copies_setPc tier (.reply conn1 conn2) uid
    rw [hheld] at hcopies
    refine ⟨0, ?_, fun _ => rfl⟩
    show (s.setPc tier (.reply conn1 conn2)).copies uid +
      ((s.created ++ [rp]).flatMap fun rp => [rp.whiteId, rp.blackId]).count uid + 0 = _
    have hnone : (Pc.reply conn1 conn2).held.count uid = 0 := rfl
    rw [flatMap_append, count_append]
    show _ + (s.placed uid + [rp.whiteId, rp.blackId].count uid) + 0 = _
    omega
  | reply sv hheld _ =>
    have hcopies := s.copies_setPc tier .size uid
    rw [hheld] at hcopies
    refine ⟨0, ?_, fun _ => rfl⟩
    show (s.setPc tier .size).copies uid + s.placed uid + 0 = _
    have hnone : Pc.size.held.count uid = 0 := rfl
    have hnil : ([] : List Nat).count uid = 0 := rfl
    omega
  | give u tier' rest hpc =>
    have hcopies := s.copies_setPc tier (.select rest) uid
    have hheld : (s.pc tier).held.count uid = [u].count uid + rest.count uid := by
      rw [hpc, ← count_append]
      rfl
    refine ⟨0, ?_, fun _ => rfl⟩
    rw [copies_push]
    show (s.setPc tier (.select rest)).copies uid + _ + s.placed uid + 0 = _
    have hrest : (Pc.select rest).held.count uid = rest.count uid := rfl
    omega

theorem callStep_balance (hc : c ∈ s.calls) (uid : Nat) :
    ∃ lost, (s.callStep c).copies uid + (s.callStep c).placed uid + lost =
        s.copies uid + s.placed uid ∧
      (s.Keeps uid → (∀ tier, c ≠ .remove uid tier) → lost = 0) := by
  cases c with
  | add u =>
    unfold callStep
    dsimp only
    split
    · next hnone =>
      have hcopies := copies_returns hc uid
      refine ⟨(brings uid (.add u)).toNat, ?_, fun hkeeps _ => ?_⟩
      · show (s.returns (.add u)).copies uid + s.placed uid + _ = _
        omega
      · have hne : u ≠ uid := by
          rintro rfl
          rw [Keeps, hnone] at hkeeps
          exact absurd hkeeps.2 (by decide)
        simp [brings, hne]
    · next score _ =>
      have hcopies := copies_goesOn hc (.push u (ofScore score)) uid
      refine ⟨0, ?_, fun _ _ => rfl⟩
      show (s.goesOn (.add u) (.push u (ofScore score))).copies uid + s.placed uid + 0 = _
      simp only [brings] at hcopies
      omega
  | push u tier =>
    have hcopies := copies_returns hc uid
    refine ⟨0, ?_, fun _ _ => rfl⟩
    show ((s.returns (.push u tier)).push tier u).copies uid + s.placed uid + 0 = _
    have hone : [u].count uid = (brings uid (.push u tier)).toNat := by
      unfold brings
      by_cases hu : u = uid <;> simp [hu]
    rw [copies_push, hone]
    omega
  | del u =>
    unfold callStep
    dsimp only
    split
    · have hcopies := copies_returns hc uid
      refine ⟨0, ?_, fun _ _ => rfl⟩
      show (s.returns (.del u)).copies uid + s.placed uid + 0 = _
      simp only [brings, Bool.toNat_false] at hcopies
      omega
    · next score _ =>
      have hcopies := copies_goesOn hc (.remove u (ofScore score)) uid
      refine ⟨0, ?_, fun _ _ => rfl⟩
      show (s.goesOn (.del u) (.remove u (ofScore score))).copies uid + s.placed uid + 0 = _
      simp only [brings, Bool.toNat_false] at hcopies
      omega
  | remove u tier =>
    -- `remove` takes every copy from the queue, so the loss is a difference
    have hcalling := calling_returns hc uid
    have hle := (s.returns (.remove u tier)).waiting_remove_le tier u uid
    have hsame : (s.returns (.remove u tier)).waiting uid = s.waiting uid := rfl
    have hcopies : (s.callStep (.remove u tier)).copies uid =
        ((s.returns (.remove u tier)).remove tier u).waiting uid + s.holding uid +
          (s.returns (.remove u tier)).calling uid := rfl
    simp only [brings, Bool.toNat_false] at hcalling
    refine ⟨s.waiting uid - ((s.returns (.remove u tier)).remove tier u).waiting uid, ?_,
      fun _ hne => ?_⟩
    · rw [hcopies]
      show _ + s.placed uid + _ = s.waiting uid + s.holding uid + s.calling uid + s.placed uid
      omega
    · have hu : uid ≠ u := by
        rintro rfl
        exact hne tier rfl
      rw [waiting_remove_ne _ tier hu, hsame, Nat.sub_self]

theorem message_balance (s : Matcher) (u : Nat) (c : Option HallCall) (uid : Nat) :
    (s.message u c).copies uid + s.started.count uid =
      s.copies uid + (s.message u c).started.count uid := by
  cases c with
  | none => rfl
  | some c =>
    cases c with
    | add =>
      show s.waiting uid + s.holding uid + (s.calls ++ [add u]).countP (brings uid) + _ =
        s.copies uid + (s.started ++ [u]).count uid
      have hone : [add u].countP (brings uid) = [u].count uid := by
        by_cases hu : u = uid <;> simp [brings, hu]
      rw [countP_append, count_append, hone, copies, calling]
      omega
    | del =>
      show s.waiting uid + s.holding uid + (s.calls ++ [del u]).countP (brings uid) + _ =
        s.copies uid + s.started.count uid
      have hzero : [del u].countP (brings uid) = 0 := rfl
      rw [countP_append, hzero, copies, calling]
      omega

theorem next_balance [JsonCpp] (h : next s l = some s') (uid : Nat) :
    ∃ lost, s'.copies uid + s'.placed uid + lost + s.started.count uid =
        s.copies uid + s.placed uid + s'.started.count uid ∧
      (s.Keeps uid → (∀ tier, l ≠ .call (.remove uid tier)) → lost = 0) := by
  cases l with
  | joinHall u conn =>
    cases h
    exact ⟨0, rfl, fun _ _ => rfl⟩
  | exitHall u =>
    cases h
    exact ⟨0, rfl, fun _ _ => rfl⟩
  | score u value =>
    cases h
    exact ⟨0, rfl, fun _ _ => rfl⟩
  | message u req =>
    simp only [next] at h
    split at h
    · cases h
    · next c _ _ =>
      cases h
      have hbalance := s.message_balance u c uid
      have hplaced : (s.message u c).placed uid = s.placed uid := by
        unfold message
        split <;> rfl
      exact ⟨0, by omega, fun _ _ => rfl⟩
  | call c =>
    simp only [next] at h
    split at h
    · next hc =>
      cases h
      obtain ⟨lost, hbalance, hkeeps⟩ := callStep_balance hc uid
      have hstarted : (s.callStep c).started = s.started := by
        unfold callStep
        split <;> (try split) <;> rfl
      refine ⟨lost, by rw [hstarted]; omega, fun hk hne => hkeeps hk fun tier heq => ?_⟩
      exact hne tier (congrArg MatcherStep.call heq)
    · cases h
  | wake tier =>
    cases h
    have hcopies := s.copies_setPc tier (s.pc tier).notified uid
    rw [held_notified] at hcopies
    refine ⟨0, ?_, fun _ _ => rfl⟩
    show (s.setPc tier (s.pc tier).notified).copies uid + s.placed uid + 0 + s.started.count uid =
      s.copies uid + s.placed uid + s.started.count uid
    omega
  | thread tier =>
    have hstep := handleMatch_step h
    obtain ⟨lost, hbalance, hkeeps⟩ := hstep.balance uid
    have hstarted : s'.started = s.started := by
      cases hstep <;> rfl
    exact ⟨lost, by rw [hstarted]; omega, fun hk _ => hkeeps hk⟩

theorem next_created [JsonCpp] (h : next s l = some s') : s'.created = s.created ∨
      ∃ (tier : Tier) (rp : Room), (s.pc tier).held = [rp.whiteId, rp.blackId] ∧
        s'.created = s.created ++ [rp] := by
  cases next_records h with
  | same _ _ hcreated => exact Or.inl hcreated
  | start _ _ _ _ _ _ _ hcreated => exact Or.inl hcreated
  | leave _ _ _ _ _ hcreated => exact Or.inl hcreated
  | create tier rp hheld _ _ hcreated => exact Or.inr ⟨tier, rp, hheld, hcreated⟩

theorem placed_le [JsonCpp] (h : next s l = some s') (uid : Nat) :
    s.placed uid ≤ s'.placed uid := by
  rcases next_created h with hsame | ⟨_, rp, _, hmore⟩
  · rw [placed, placed, hsame]
  · rw [placed, placed, hmore, flatMap_append, count_append]
    exact Nat.le_add_right _ _

theorem held_le_copies (s : Matcher) (tier : Tier) (uid : Nat) :
    (s.pc tier).held.count uid ≤ s.copies uid := by
  have h := le_total (fun t => (s.pc t).held.count uid) tier
  unfold copies holding
  omega

theorem queue_le_copies (s : Matcher) (tier : Tier) (uid : Nat) :
    (s.queue tier).count uid ≤ s.copies uid := by
  have h := le_total (fun t => (s.queue t).count uid) tier
  unfold copies waiting
  omega

/-! ## Leaving the queue -/

def clears (s : Matcher) : MatcherStep → Bool
  | .call (.remove uid tier) =>
      [normal, .high, .super].all (fun t => decide (t = tier) || !(s.queue t).contains uid) &&
        decide (s.holding uid = 0) && decide (s.calling uid = 0)
  | _ => true

def clearingRuns [JsonCpp] (server : Server) (scores : Nat → Option Int) :
    System Matcher MatcherStep :=
  (runs server scores).restrict fun s l => clears s l = true

theorem next_left [JsonCpp] (h : next s l = some s') (hleft : s'.left uid = true) :
    (s.left uid = true ∧ s'.started.count uid = s.started.count uid) ∨
      ∃ tier, l = .call (.remove uid tier) := by
  cases next_records h with
  | same hstarted hsame _ =>
    rw [hsame] at hleft
    exact Or.inl ⟨hleft, congrArg _ hstarted⟩
  | start u _ _ _ _ hstarted hupdate _ =>
    by_cases hu : uid = u
    · rw [hupdate, hu, update_self] at hleft
      cases hleft
    · rw [hupdate, update_of_ne hu] at hleft
      rw [hstarted, count_append]
      exact Or.inl ⟨hleft, by simp [Ne.symm hu]⟩
  | leave u tier hl hstarted hupdate _ =>
    by_cases hu : uid = u
    · exact Or.inr ⟨tier, hu ▸ hl⟩
    · rw [hupdate, update_of_ne hu] at hleft
      exact Or.inl ⟨hleft, congrArg _ hstarted⟩
  | create _ _ _ hstarted hsame _ =>
    rw [hsame] at hleft
    exact Or.inl ⟨hleft, congrArg _ hstarted⟩

theorem copies_remove (hclears : clears s (.call (.remove uid tier)) = true) :
    (s.callStep (.remove uid tier)).copies uid = 0 := by
  simp only [clears, Bool.and_eq_true, decide_eq_true_eq, all_eq_true,
    Bool.or_eq_true, Bool.not_eq_true'] at hclears
  obtain ⟨⟨hothers, hholding⟩, hcalling⟩ := hclears
  have hqueue : ∀ t, ((s.callStep (.remove uid tier)).queue t).count uid = 0 := by
    intro t
    show (update s.queue tier ((s.queue tier).filter (· ≠ uid)) t).count uid = 0
    by_cases ht : t = tier
    · subst ht
      rw [update_self]
      simp [count_eq_zero]
    · rw [update_of_ne ht, count_eq_zero]
      have hnot := (hothers t (by cases t <;> simp)).resolve_left ht
      simpa using hnot
  have hcalls : (s.callStep (.remove uid tier)).calling uid ≤ s.calling uid :=
    erase_sublist.countP_le
  have hwaiting : (s.callStep (.remove uid tier)).waiting uid = 0 := total_eq_zero hqueue
  have hheld : (s.callStep (.remove uid tier)).holding uid = s.holding uid := rfl
  unfold copies
  omega

theorem copies_of_left [JsonCpp] {server : Server} {scores : Nat → Option Int}
    (h : (clearingRuns server scores).Reachable s) :
    ∀ uid, s.left uid = true → s.copies uid = 0 := by
  refine System.invariant (fun s => ∀ uid, s.left uid = true → s.copies uid = 0) ?_ ?_ s h
  · rintro _ rfl uid hleft
    cases hleft
  · rintro s1 l s2 h1 ⟨hclears, hnext⟩ uid hleft
    rcases next_left hnext hleft with ⟨hbefore, hstarted⟩ | ⟨tier, rfl⟩
    · -- without a new `add` a step only moves copies, and there is none
      obtain ⟨lost, hbalance, _⟩ := next_balance hnext uid
      have hzero := h1 uid hbefore
      have hplaced := placed_le hnext uid
      omega
    · simp only [runs, System.ofNext, next] at hnext
      split at hnext
      · cases hnext
        exact copies_remove hclears
      · cases hnext

/-- **Leaving the queue is final**, when `del` takes a user from a queue only
    while there is no other copy of the user. -/
theorem leaving_is_final [JsonCpp] (server : Server) (scores : Nat → Option Int) (s : Matcher)
    (h : (clearingRuns server scores).Reachable s) (uid : Nat) (hleft : s.left uid = true) :
    (∀ tier, uid ∉ s.queue tier) ∧
      ∀ l s', (runs server scores).step s l s' → s'.created = s.created ∨
        ∃ rp : Room, s'.created = s.created ++ [rp] ∧ rp.whiteId ≠ uid ∧ rp.blackId ≠ uid := by
  have hzero := copies_of_left h uid hleft
  refine ⟨fun tier => ?_, fun l s' hstep => ?_⟩
  · rw [← List.count_eq_zero]
    exact Nat.eq_zero_of_le_zero (hzero ▸ s.queue_le_copies tier uid)
  · rcases next_created hstep with hsame | ⟨tier, rp, hheld, hmore⟩
    · exact Or.inl hsame
    · have hcount : (s.pc tier).held.count uid = 0 :=
        Nat.eq_zero_of_le_zero (hzero ▸ s.held_le_copies tier uid)
      rw [hheld, List.count_eq_zero] at hcount
      refine Or.inr ⟨rp, hmore, ?_, ?_⟩
      · rintro rfl
        exact hcount (by simp)
      · rintro rfl
        exact hcount (by simp)

section

attribute [local instance] JsonCpp.standard

def matchStart : Option Json := some (Json.set ∅ "optype" (.string "match_start"))

def matchStop : Option Json := some (Json.set ∅ "optype" (.string "match_stop"))

def starts (uid : Nat) : List MatcherStep :=
  [.message uid matchStart, .call (.add uid), .call (.push uid .normal)]

def stops (uid : Nat) (tier : Tier) : List MatcherStep :=
  [.message uid matchStop, .call (.del uid), .call (.remove uid tier)]

/-- User 7 starts a match and stops it. -/
theorem leaving_is_final_stopped : ∃ s : Matcher, (clearingRuns initial fun _ => some 1000).Steps
        (start initial fun _ => some 1000) (starts 7 ++ stops 7 .normal) s ∧
      s.left 7 = true ∧ ∀ tier, 7 ∉ s.queue tier := by
  have hrun : (clearingRuns initial fun _ => some 1000).Steps
      (start initial fun _ => some 1000) (starts 7 ++ stops 7 .normal) _ :=
    System.restrict_steps_of_run rfl
  exact ⟨_, hrun, rfl, (leaving_is_final _ _ _ ⟨_, _, rfl, hrun⟩ 7 rfl).1⟩

/-- The score of user 7 changes between `add` and `del`: `del` returns true,
    and the user is in the first queue. -/
theorem leaving_is_not_final : ∃ s : Matcher, (runs initial fun _ => some 1000).Steps
        (start initial fun _ => some 1000)
        (starts 7 ++ .score 7 (some 2500) :: stops 7 .high) s ∧
      s.left 7 = true ∧ 7 ∈ s.queue .normal :=
  ⟨_, System.steps_of_run rfl, rfl, List.mem_cons_self⟩

end

/-! ## Two different players -/

def startsFresh [JsonCpp] (s : Matcher) : MatcherStep → Bool
  | .message uid req =>
      match wsmsgGameHall req with
      | .ok (some .add, _) => decide (s.copies uid = 0)
      | _ => true
  | _ => true

def freshRuns [JsonCpp] (server : Server) (scores : Nat → Option Int) :
    System Matcher MatcherStep :=
  (runs server scores).restrict fun s l => startsFresh s l = true

theorem next_started [JsonCpp] (h : next s l = some s') : s'.started = s.started ∨
      ∃ u req resp, l = .message u req ∧ wsmsgGameHall req = .ok (some .add, resp) ∧
        s'.started = s.started ++ [u] := by
  cases next_records h with
  | same hstarted _ _ => exact Or.inl hstarted
  | start u req resp hl hmsg hstarted _ _ => exact Or.inr ⟨u, req, resp, hl, hmsg, hstarted⟩
  | leave _ _ _ hstarted _ _ => exact Or.inl hstarted
  | create _ _ _ hstarted _ _ => exact Or.inl hstarted

theorem steps_balance [JsonCpp] {server : Server} {scores : Nat → Option Int}
    {ls : List MatcherStep} (hrun : (runs server scores).Steps s ls s') (uid : Nat) :
    s'.copies uid + s'.placed uid + s.started.count uid ≤
      s.copies uid + s.placed uid + s'.started.count uid := by
  refine hrun.preserves (fun s' => s'.copies uid + s'.placed uid + s.started.count uid ≤
    s.copies uid + s.placed uid + s'.started.count uid) ?_ (Nat.le_refl _)
  intro s1 l s2 h1 hnext
  obtain ⟨lost, hbalance, _⟩ := next_balance hnext uid
  omega

structure Fresh (s : Matcher) : Prop where
  single : ∀ uid, s.copies uid ≤ 1
  distinct : ∀ rp : Room, rp ∈ s.created → rp.whiteId ≠ rp.blackId

theorem Fresh.next [JsonCpp] (h : Fresh s) (hfresh : startsFresh s l = true)
    (hnext : next s l = some s') : Fresh s' := by
  constructor
  · intro uid
    obtain ⟨lost, hbalance, _⟩ := next_balance hnext uid
    have hplaced := placed_le hnext uid
    have hsingle := h.single uid
    rcases next_started hnext with hsame | ⟨u, req, resp, rfl, hmsg, hmore⟩
    · rw [hsame] at hbalance
      omega
    · rw [hmore, count_append] at hbalance
      by_cases hu : u = uid
      · -- the new copy is the only one
        subst hu
        have hzero : s.copies u = 0 := by
          simpa [startsFresh, hmsg] using hfresh
        rw [count_singleton_self] at hbalance
        omega
      · have hcount : [u].count uid = 0 := by simp [hu]
        omega
  · intro rp hrp
    rcases next_created hnext with hsame | ⟨tier, rp', hheld, hmore⟩
    · exact h.distinct rp (hsame ▸ hrp)
    · rw [hmore, mem_append, mem_singleton] at hrp
      rcases hrp with hold | rfl
      · exact h.distinct rp hold
      · -- the thread would hold two copies of one user
        intro heq
        have hle := s.held_le_copies tier rp.blackId
        have hsingle := h.single rp.blackId
        rw [hheld, heq] at hle
        simp at hle
        omega

/-- **Matching pairs two different players**, and gives a user one room at
    most from a `match_start` to the next one, when a user sends `match_start`
    only while not waiting. -/
theorem matching_pairs_distinct [JsonCpp] (server : Server) (scores : Nat → Option Int)
    (s : Matcher) (h : (freshRuns server scores).Reachable s) :
    (∀ rp : Room, rp ∈ s.created → rp.whiteId ≠ rp.blackId) ∧
      ∀ uid req resp s1 steps s2, wsmsgGameHall req = .ok (some .add, resp) →
        (freshRuns server scores).step s (.message uid req) s1 →
        (freshRuns server scores).Steps s1 steps s2 →
        s2.started.count uid = s1.started.count uid → s2.placed uid ≤ s.placed uid + 1 := by
  have hfresh : Fresh s := by
    refine System.invariant Fresh ?_ ?_ s h
    · rintro _ rfl
      exact ⟨fun _ => Nat.zero_le _, nofun⟩
    · rintro s1 l s2 h1 ⟨hcond, hnext⟩
      exact h1.next hcond hnext
  refine ⟨hfresh.distinct, ?_⟩
  rintro uid req resp s1 steps s2 hmsg ⟨hcond, hnext⟩ hrun hlast
  have hzero : s.copies uid = 0 := by
    simpa [startsFresh, hmsg] using hcond
  have hone : s1.started.count uid = s.started.count uid + 1 := by
    simp only [runs, System.ofNext, next, hmsg] at hnext
    cases hnext
    show (s.started ++ [uid]).count uid = _
    rw [List.count_append, List.count_singleton_self]
  obtain ⟨lost, hstep, _⟩ := next_balance hnext uid
  have hsteps := steps_balance hrun.of_restrict uid
  omega

section

attribute [local instance] JsonCpp.standard

def bothStart : List MatcherStep :=
  .joinHall 7 1 :: .joinHall 8 2 :: (starts 7 ++ starts 8)

def oneMatch : List MatcherStep := List.replicate 8 (.thread .normal)

/-- Users 7 and 8 get a room. -/
theorem matching_pairs_two_users : ∃ s : Matcher, (freshRuns initial fun _ => some 1000).Steps
        (start initial fun _ => some 1000) (bothStart ++ oneMatch) s ∧
      s.created.length = 1 ∧ ∀ rp : Room, rp ∈ s.created → rp.whiteId ≠ rp.blackId := by
  have hrun : (freshRuns initial fun _ => some 1000).Steps
      (start initial fun _ => some 1000) (bothStart ++ oneMatch) _ :=
    System.restrict_steps_of_run rfl
  exact ⟨_, hrun, rfl, (matching_pairs_distinct _ _ _ ⟨_, _, rfl, hrun⟩).1⟩

/-- User 7 sends `match_start` twice and gets a room alone. -/
theorem matching_pairs_user_with_self : ∃ s : Matcher, (runs initial fun _ => some 1000).Steps
        (start initial fun _ => some 1000)
        (.joinHall 7 1 :: (starts 7 ++ starts 7 ++ oneMatch)) s ∧
      s.created.map (fun rp => (rp.whiteId, rp.blackId)) = [(7, 7)] :=
  ⟨_, System.steps_of_run rfl, rfl⟩

end

/-! ## No waiting user is lost -/

def stays [JsonCpp] (uid : Nat) (s : Matcher) : MatcherStep → Bool
  | .score _ value => value.isSome
  | .exitHall u => decide (u ≠ uid) || !s.started.contains uid
  | .message u req =>
      match wsmsgGameHall req with
      | .ok (some .add, _) => decide (u ≠ uid) ||
          (!s.started.contains uid && (s.server.hub.online.hallUser uid).isSome)
      | .ok (some .del, _) => decide (u ≠ uid)
      | _ => true
  | _ => true

def stayingRuns [JsonCpp] (uid : Nat) (server : Server) (scores : Nat → Int) :
    System Matcher MatcherStep :=
  (runs server fun u => some (scores u)).restrict fun s l => stays uid s l = true

def Deletes (uid : Nat) (c : Call) : Prop := c = .del uid ∨ ∃ tier, c = .remove uid tier

structure Stays (uid : Nat) (s : Matcher) : Prop where
  scores : ∀ u, (s.scores u).isSome = true
  hall : uid ∈ s.started → (s.server.hub.online.hallUser uid).isSome = true
  undeleted : ∀ c ∈ s.calls, ¬ Deletes uid c
  once : s.started.count uid ≤ 1
  balance : s.copies uid + s.placed uid = s.started.count uid

theorem ThreadStep.outside (h : ThreadStep s tier s') :
    s'.scores = s.scores ∧ s'.server.hub.online = s.server.hub.online ∧ s'.calls = s.calls ∧
      s'.started = s.started := by
  cases h with
  | reply sv _ honline => exact ⟨rfl, honline, rfl, rfl⟩
  | _ => exact ⟨rfl, rfl, rfl, rfl⟩

theorem callStep_outside (s : Matcher) (c : Call) :
    (s.callStep c).scores = s.scores ∧ (s.callStep c).server = s.server ∧
      (s.callStep c).started = s.started ∧
      ∀ c' ∈ (s.callStep c).calls, c' ∈ s.calls ∨ ∀ uid, Deletes uid c' → Deletes uid c := by
  have herase : ∀ c', c' ∈ s.calls.erase c → c' ∈ s.calls := fun c' => mem_of_mem_erase
  cases c with
  | add u =>
    unfold callStep
    dsimp only
    split
    · exact ⟨rfl, rfl, rfl, fun c' hc' => Or.inl (herase c' hc')⟩
    · refine ⟨rfl, rfl, rfl, fun c' hc' => ?_⟩
      rcases mem_append.mp hc' with hold | hnew
      · exact Or.inl (herase c' hold)
      · rw [mem_singleton.mp hnew]
        exact Or.inr fun uid hdel => by rcases hdel with h | ⟨tier, h⟩ <;> cases h
  | push u tier => exact ⟨rfl, rfl, rfl, fun c' hc' => Or.inl (herase c' hc')⟩
  | del u =>
    unfold callStep
    dsimp only
    split
    · exact ⟨rfl, rfl, rfl, fun c' hc' => Or.inl (herase c' hc')⟩
    · refine ⟨rfl, rfl, rfl, fun c' hc' => ?_⟩
      rcases mem_append.mp hc' with hold | hnew
      · exact Or.inl (herase c' hold)
      · rw [mem_singleton.mp hnew]
        refine Or.inr fun uid hdel => ?_
        rcases hdel with h | ⟨tier, h⟩
        · cases h
        · cases h
          exact Or.inl rfl
  | remove u tier => exact ⟨rfl, rfl, rfl, fun c' hc' => Or.inl (herase c' hc')⟩

theorem Stays.balance_next [JsonCpp] (h : Stays uid s) (hnext : next s l = some s') :
    s'.copies uid + s'.placed uid = s'.started.count uid := by
  have hbefore := h.balance
  rcases next_started hnext with hsame | ⟨u, req, resp, rfl, hmsg, _⟩
  · obtain ⟨lost, hbalance, hkeeps⟩ := next_balance hnext uid
    rw [hsame] at hbalance ⊢
    by_cases hstarted : uid ∈ s.started
    · -- the user keeps hall and score, and no call deletes them
      have hlost : lost = 0 := by
        refine hkeeps ⟨h.hall hstarted, h.scores uid⟩ ?_
        rintro tier rfl
        simp only [next] at hnext
        split at hnext
        · next hmem => exact h.undeleted _ hmem (Or.inr ⟨tier, rfl⟩)
        · cases hnext
      omega
    · -- a user who has not been added has no copy to lose
      have hcount : s.started.count uid = 0 := count_eq_zero.mpr hstarted
      omega
  · simp only [next, hmsg] at hnext
    cases hnext
    have hbalance := s.message_balance u (some .add) uid
    show (s.message u (some .add)).copies uid + s.placed uid = _
    omega

theorem Stays.message {u : Nat} {c : Option HallCall} (h : Stays uid s)
    (hadd : c = some .add → u = uid →
      uid ∉ s.started ∧ (s.server.hub.online.hallUser uid).isSome = true)
    (hdel : c = some .del → u ≠ uid)
    (hbalance : (s.message u c).copies uid + (s.message u c).placed uid =
      (s.message u c).started.count uid) : Stays uid (s.message u c) := by
  cases c with
  | none => exact h
  | some c =>
    cases c with
    | add =>
      refine ⟨h.scores, fun hmem => ?_, fun c hc => ?_, ?_, hbalance⟩
      · rcases mem_append.mp hmem with hold | hnew
        · exact h.hall hold
        · exact (hadd rfl (mem_singleton.mp hnew).symm).2
      · rcases mem_append.mp hc with hold | hnew
        · exact h.undeleted c hold
        · rw [mem_singleton.mp hnew]
          rintro (heq | ⟨tier, heq⟩) <;> cases heq
      · show (s.started ++ [u]).count uid ≤ 1
        have honce := h.once
        rw [count_append]
        by_cases hu : u = uid
        · rw [count_eq_zero.mpr (hadd rfl hu).1, hu, count_singleton_self]
        · simpa [hu] using honce
    | del =>
      refine ⟨h.scores, h.hall, fun c hc => ?_, h.once, hbalance⟩
      rcases mem_append.mp hc with hold | hnew
      · exact h.undeleted c hold
      · rw [mem_singleton.mp hnew]
        rintro (heq | ⟨tier, heq⟩) <;> cases heq
        exact hdel rfl rfl

theorem Stays.next [JsonCpp] (h : Stays uid s) (hstays : stays uid s l = true)
    (hnext : next s l = some s') : Stays uid s' := by
  have hbalance := h.balance_next hnext
  cases l with
  | joinHall u conn =>
    cases hnext
    refine ⟨h.scores, fun hmem => ?_, h.undeleted, h.once, hbalance⟩
    -- `insert` keeps the entry of a user who is in the hall already
    have hsome := h.hall hmem
    show ((s.server.hub.online.hallUser.insert u conn) uid).isSome = true
    unfold Dict.insert
    split
    · rfl
    · exact hsome
  | exitHall u =>
    cases hnext
    refine ⟨h.scores, fun hmem => ?_, h.undeleted, h.once, hbalance⟩
    have hne : uid ≠ u := by
      rintro rfl
      simp [stays, show uid ∈ s.started from hmem] at hstays
    show ((s.server.hub.online.hallUser.erase u) uid).isSome = true
    rw [Dict.erase_ne _ hne]
    exact h.hall hmem
  | score u value =>
    cases hnext
    refine ⟨fun u' => ?_, h.hall, h.undeleted, h.once, hbalance⟩
    show (update s.scores u value u').isSome = true
    by_cases hu : u' = u
    · subst hu
      rw [update_self]
      exact hstays
    · rw [update_of_ne hu]
      exact h.scores u'
  | message u req =>
    simp only [Matcher.next] at hnext
    split at hnext
    · cases hnext
    · next c resp hmsg =>
      cases hnext
      refine h.message (fun hc hu => ?_) (fun hc => ?_) hbalance
      · subst hc
        simpa [stays, hmsg, hu] using hstays
      · subst hc
        simpa [stays, hmsg] using hstays
  | call c =>
    simp only [Matcher.next] at hnext
    split at hnext
    · next hmem =>
      cases hnext
      obtain ⟨hscores, hserver, hstarted, hcalls⟩ := s.callStep_outside c
      constructor
      · rw [hscores]
        exact h.scores
      · rw [hstarted, hserver]
        exact h.hall
      · intro c' hc' hdel
        rcases hcalls c' hc' with hold | hbefore
        · exact h.undeleted c' hold hdel
        · exact h.undeleted c hmem (hbefore uid hdel)
      · rw [hstarted]
        exact h.once
      · exact hbalance
    · cases hnext
  | wake tier =>
    cases hnext
    exact ⟨h.scores, h.hall, h.undeleted, h.once, hbalance⟩
  | thread tier =>
    obtain ⟨hscores, honline, hcalls, hstarted⟩ := (handleMatch_step hnext).outside
    constructor
    · rw [hscores]
      exact h.scores
    · rw [hstarted, honline]
      exact h.hall
    · rw [hcalls]
      exact h.undeleted
    · rw [hstarted]
      exact h.once
    · exact hbalance

/-- **No waiting user is lost.** A user for whom `add` has been called once
    and has returned, who stays in the hall and is not deleted, is exactly
    once in a queue, in the hands of a thread, or a player of a room. -/
theorem no_waiting_user_lost [JsonCpp] (uid : Nat) (server : Server) (scores : Nat → Int)
    (s : Matcher) (h : (stayingRuns uid server scores).Reachable s) (hstarted : uid ∈ s.started)
    (hreturned : ∀ c ∈ s.calls, brings uid c = false) :
    s.waiting uid + s.holding uid + s.placed uid = 1 := by
  have hstays : Stays uid s := by
    refine System.invariant (Stays uid) ?_ ?_ s h
    · rintro _ rfl
      exact ⟨fun _ => rfl, nofun, nofun, Nat.zero_le _, rfl⟩
    · rintro s1 l s2 h1 ⟨hcond, hnext⟩
      exact h1.next hcond hnext
  have hbalance := hstays.balance
  have hone : s.started.count uid = 1 :=
    Nat.le_antisymm hstays.once (List.count_pos_iff.mpr hstarted)
  have hcalling : s.calling uid = 0 := by
    rw [calling, List.countP_eq_zero]
    intro c hc
    rw [hreturned c hc]
    decide
  unfold copies at hbalance
  omega

attribute [local instance] JsonCpp.standard

def opponentLeaves : List MatcherStep :=
  .exitHall 8 :: .score 7 (some 2500) :: List.replicate 7 (.thread .normal)

theorem no_waiting_user_lost_opponent_left :
    ∃ s : Matcher, (stayingRuns 7 initial fun _ => 1000).Steps (start initial fun _ => some 1000)
        (bothStart ++ opponentLeaves) s ∧
      s.queue .high = [7] ∧ s.waiting 7 + s.holding 7 + s.placed 7 = 1 := by
  have hrun : (stayingRuns 7 initial fun _ => 1000).Steps (start initial fun _ => some 1000)
      (bothStart ++ opponentLeaves) _ :=
    System.restrict_steps_of_run rfl
  exact ⟨_, hrun, rfl, no_waiting_user_lost 7 _ _ _ ⟨_, _, rfl, hrun⟩ (by decide) nofun⟩

end Matcher

end CallLesson.Gobang
