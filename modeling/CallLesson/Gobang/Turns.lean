import CallLesson.Gobang.Boards

/-! # Whose turn it is

    The turn is known to the pages only: a page lets its user move after a
    move of the other one has arrived. The server puts a stone for every move
    to a free cell. So the stones alternate when a page sends no move before
    its last one has been answered; a second click comes too early. -/

namespace CallLesson.Gobang

/-! ## Alternating moves -/

def turn (n : Nat) : Side := if n % 2 = 0 then .white else .black

open List

theorem turn_succ (n : Nat) (side : Side) : turn (n + 1) = side ↔ turn n ≠ side := by
  rcases Nat.mod_two_eq_zero_or_one n with h | h
  · have h' : (n + 1) % 2 ≠ 0 := by omega
    rw [turn, turn, if_pos h, if_neg h']
    cases side <;> decide
  · have h' : (n + 1) % 2 = 0 := by omega
    have hn : n % 2 ≠ 0 := by omega
    rw [turn, turn, if_neg hn, if_pos h']
    cases side <;> decide

variable {ms : List Move}

namespace Move

def Alternate (ms : List Move) : Prop := ∀ i m, ms[i]? = some m → m.side = turn i

theorem Alternate.of_append {ms' : List Move} (h : Alternate (ms ++ ms')) : Alternate ms := by
  intro i m hm
  apply h i m
  rw [List.getElem?_append_left (List.getElem?_eq_some_iff.mp hm).1]
  exact hm

theorem Alternate.concat {m : Move} (h : Alternate ms) (hm : m.side = turn ms.length) :
    Alternate (ms ++ [m]) := by
  intro i m' hi
  rcases Nat.lt_or_ge i ms.length with hlt | hge
  · rw [getElem?_append_left hlt] at hi
    exact h i m' hi
  · rw [getElem?_append_right hge, getElem?_singleton] at hi
    split at hi
    · next hzero =>
      cases hi
      rw [hm, Nat.le_antisymm hge (Nat.sub_eq_zero_iff_le.mp hzero)]
    · cases hi

theorem Alternate.side_next {ms' : List Move} {m : Move} (h : Alternate (ms ++ m :: ms')) :
    m.side = turn ms.length := by
  apply h ms.length m
  rw [getElem?_append_right (Nat.le_refl _), Nat.sub_self]
  rfl

end Move

section

variable [JsonCpp]

theorem Table.pageAfter_isMe [LawfulJsonCpp] {t : Table} (side : Side) (h : Move.Alternate ms) :
    (t.pageAfter side ms).isMe = decide (turn ms.length = side) := by
  induction ms using reverseRecOn with
  | nil =>
    show (Page.new.onmessage (t.ready side)).isMe = _
    rw [onmessage_ready]
    cases side <;> rfl
  | append_singleton ms m _ =>
    rw [pageAfter_concat, length_append, length_singleton]
    show decide (m.side ≠ side) = _
    rw [h.side_next, decide_eq_decide, turn_succ]

/-! ## Moves on their way -/

namespace Match

def pending (s : Match) (side : Side) : List Json := (s.up side).filter isMove

def unanswered (t : Table) (s : Match) (side : Side) : Bool :=
  !(s.pending side).isEmpty ||
    ((s.server.hub.sent (t.conn side)).drop (s.seen side)).any fun info =>
      isMove info && decide (info.field "uid" = .int (t.uid side))

def waits (t : Table) (s : Match) : MatchStep → Bool
  | .click side row col => ((s.page side).onclick row col).isNone || !s.unanswered t side
  | _ => true

def waitingGames (t : Table) : System Match MatchStep :=
  (System.ofNext (start t) (next t)).restrict fun s l => bothIn t s l = true ∧ waits t s l = true

variable {t : Table} {s s' : Match} {answers : List Json} {side : Side}

structure Turns (t : Table) (s : Match) (answers : List Json) : Prop where
  alternate : Move.Alternate (t.moves answers)
  single : ∀ side, (s.pending side).length ≤ 1
  due : ∀ side, s.pending side ≠ [] → turn (t.moves answers).length = side

theorem start_turns (t : Table) : Turns t (start t) [] where
  alternate := nofun
  single := fun _ => Nat.zero_le _
  due := fun _ hne => absurd rfl hne

theorem Turns.turn_of_click [LawfulJsonCpp] (h : Turns t s answers) (hlog : Logged t s answers)
    (hme : (s.page side).isMe = true) (hwait : s.unanswered t side = false) :
    turn (t.moves answers).length = side := by
  rcases hlog.page_eq side with ⟨_, hnew⟩ | ⟨n, heard, hseen, ⟨hsuffix, hmoves, hsent⟩, hafter⟩
  · rw [hnew] at hme
    cases hme
  have hsplit : t.moves heard = t.moves (heard.take n) ++ t.moves (heard.drop n) := by
    unfold Table.moves
    rw [← filterMap_append, take_append_drop]
  have halt := h.alternate
  rw [← hmoves, hsplit] at halt ⊢
  rw [hafter, Table.pageAfter_isMe side halt.of_append, decide_eq_true_iff] at hme
  cases hdrop : t.moves (heard.drop n) with
  | nil =>
    rw [append_nil]
    exact hme
  | cons m ms =>
    -- the first move that has not arrived is the page's own, by alternation,
    -- and it is still unanswered there
    rw [hdrop] at halt
    have hside : m.side = side := halt.side_next.trans hme
    have hm : m ∈ t.moves (heard.drop n) := by
      rw [hdrop]
      exact mem_cons_self
    obtain ⟨info, hinfo, hmove⟩ := mem_filterMap.mp hm
    have htold := hlog.serves.told info (hsuffix.mem (mem_of_mem_drop hinfo))
    rw [hmove] at htold
    cases htold with
    | move _ hop _ _ _ huid _ _ =>
      rw [unanswered, Bool.or_eq_false_iff, hseen, hsent, drop_succ_cons] at hwait
      have hnone := any_eq_false.mp hwait.2 info hinfo
      rw [hside] at huid
      simp [isMove, hop, huid] at hnone

/-! ## Steps -/

theorem Turns.of_pending (h : Turns t s answers) (hpending : s'.pending = s.pending) :
    Turns t s' answers := by
  refine ⟨h.alternate, ?_, ?_⟩
  · rw [hpending]
    exact h.single
  · rw [hpending]
    exact h.due

theorem pending_send (s : Match) (side : Side) (msg : Option Json) (side' : Side) :
    (s.send side msg).pending side' =
      s.pending side' ++ if side' = side then msg.toList.filter isMove else [] := by
  unfold pending
  by_cases hs : side' = side
  · subst hs
    rw [send_up_self, filter_append, if_pos rfl]
  · rw [send_up_ne s msg hs, if_neg hs, append_nil]

theorem Turns.click [LawfulJsonCpp] (h : Turns t s answers) (hlog : Logged t s answers)
    {row col : Int}
    (hwait : waits t s (.click side row col) = true) :
    Turns t (s.send side ((s.page side).onclick row col)) answers := by
  cases hmsg : (s.page side).onclick row col with
  | none =>
    apply h.of_pending
    funext side'
    simp [pending_send]
  | some msg =>
    obtain ⟨hme, _⟩ := hlog.asked_click hmsg
    have hanswered : s.unanswered t side = false := by
      simpa [waits, hmsg] using hwait
    have hturn := h.turn_of_click hlog hme hanswered
    have hnone : s.pending side = [] := by
      rw [unanswered, Bool.or_eq_false_iff] at hanswered
      simpa using hanswered.1
    refine ⟨h.alternate, fun side' => ?_, fun side' hne => ?_⟩
    · rw [pending_send]
      split
      · next hs =>
        rw [hs, hnone]
        exact length_filter_le isMove [msg]
      · rw [append_nil]
        exact h.single side'
    · rw [pending_send] at hne
      split at hne
      · next hs =>
        rw [hs]
        exact hturn
      · rw [append_nil] at hne
        exact h.due side' hne

theorem Turns.chat [LawfulJsonCpp] (h : Turns t s answers) (hlog : Logged t s answers)
    (message : String) :
    Turns t (s.send side ((s.page side).onchat message)) answers := by
  apply h.of_pending
  funext side'
  rw [pending_send]
  split
  · cases hmsg : (s.page side).onchat message with
    | none => simp
    | some msg =>
      rw [hlog.asked_chat hmsg]
      simp [isMove, Table.chatInfo]
  · exact append_nil _

theorem Turns.handle [LawfulJsonCpp] (h : Turns t s answers) {req info : Json} {rest : List Json}
    (hup : s.up side = req :: rest) (hup' : s'.up = Function.update s.up side rest)
    (hcases : t.Told info none ∨
      ∃ m : Move, m.side = side ∧ req = Room.chessInfo t.roomId (t.uid side) m.row m.col ∧
        t.Told info (some m)) : Turns t s' (answers ++ [info]) := by
  have hold : s.pending side = [req].filter isMove ++ rest.filter isMove := by
    rw [pending, hup, ← filter_append]
    rfl
  have hself : s'.pending side = rest.filter isMove := by
    rw [pending, hup', Function.update_self]
  have hother : ∀ side', side' ≠ side → s'.pending side' = s.pending side' := by
    intro side' hs
    rw [pending, hup', Function.update_of_ne hs, pending]
  rcases hcases with htold | ⟨m, hside, rfl, htold⟩
  · -- no move: the queue of moves got no longer
    have hmoves : t.moves (answers ++ [info]) = t.moves answers := by
      rw [Table.moves_concat, htold.moveOf_eq]
      exact append_nil _
    refine ⟨hmoves ▸ h.alternate, fun side' => ?_, fun side' hne => ?_⟩
    · by_cases hs : side' = side
      · have hone := h.single side
        rw [hold, length_append] at hone
        rw [hs, hself]
        exact Nat.le_of_add_left_le hone
      · rw [hother side' hs]
        exact h.single side'
    · rw [hmoves]
      by_cases hs : side' = side
      · subst hs
        apply h.due side'
        rw [hold]
        exact append_ne_nil_of_right_ne_nil _ (hself ▸ hne)
      · exact h.due side' (hother side' hs ▸ hne)
  · rw [filter_singleton, isMove_chessInfo, cond_true, singleton_append] at hold
    have hturn : turn (t.moves answers).length = side := h.due side (by simp [hold])
    have hmoves : t.moves (answers ++ [info]) = t.moves answers ++ [m] := by
      rw [Table.moves_concat, htold.moveOf_eq]
      rfl
    -- the move was the only one that had not been handled
    have hempty : ∀ side', s'.pending side' = [] := by
      intro side'
      by_cases hs : side' = side
      · have hone := h.single side
        rw [hold, length_cons] at hone
        rw [hs, hself]
        exact eq_nil_of_length_eq_zero (by omega)
      · rw [hother side' hs]
        by_contra hne
        exact hs ((h.due side' hne).symm.trans hturn)
    refine ⟨?_, fun side' => ?_, fun side' hne => absurd (hempty side') hne⟩
    · rw [hmoves]
      exact h.alternate.concat (hside.trans hturn.symm)
    · rw [hempty]
      exact Nat.zero_le _

theorem exists_turns [LawfulJsonCpp] (h : (waitingGames t).Reachable s) :
    ∃ answers, Logged t s answers ∧ Turns t s answers := by
  refine System.invariant (fun s => ∃ answers, Logged t s answers ∧ Turns t s answers) ?_ ?_ s h
  · rintro _ rfl
    exact ⟨[], start_logged t, start_turns t⟩
  · rintro s1 l s2 ⟨answers, hlog, hturns⟩ ⟨⟨hin, hwait⟩, hnext⟩
    cases l with
    | join side =>
      have hup : s2.up = s1.up := by
        simp only [System.ofNext, Match.next] at hnext
        split at hnext <;> cases hnext
        rfl
      exact ⟨answers, (hlog.join hnext).1, hturns.of_pending (by unfold pending; rw [hup])⟩
    | click side row col =>
      cases hnext
      refine ⟨answers, hlog.send fun req hreq => ?_, hturns.click hlog hwait⟩
      exact (hlog.asked_click hreq).2 ▸ .move row col
    | chat side message =>
      cases hnext
      refine ⟨answers, hlog.send fun req hreq => ?_, hturns.chat hlog message⟩
      exact hlog.asked_chat hreq ▸ .chat message
    | handle side =>
      obtain ⟨req, rest, info, hup, hup', _, hlog', hcases⟩ := hlog.handle hin hnext
      exact ⟨_, hlog', hturns.handle hup hup' hcases⟩
    | deliver side =>
      have hup : s2.up = s1.up := by
        simp only [System.ofNext, Match.next] at hnext
        split at hnext <;> cases hnext
        rfl
      exact ⟨answers, (hlog.deliver hnext).1, hturns.of_pending (by unfold pending; rw [hup])⟩

/-- **Turns alternate** when a page sends no move while one of its moves is
    unanswered: white, black, white and so on. -/
theorem turns_alternate [LawfulJsonCpp] (t : Table) (s : Match) (h : (waitingGames t).Reachable s)
    (i : Nat)
    (stone : Stone) (hi : s.stones[i]? = some stone) :
    stone = if i % 2 = 0 then .white else .black := by
  obtain ⟨answers, hlog, hturns⟩ := exists_turns h
  rw [hlog.stones, List.getElem?_map] at hi
  obtain ⟨m, hm, rfl⟩ := Option.map_eq_some_iff.mp hi
  rw [hturns.alternate i m hm, turn]
  split <;> rfl

end Match

end

namespace Match

attribute [local instance] JsonCpp.standard JsonCpp.lawful_standard

def twoMoves : List MatchStep :=
  [.join .white, .join .black, .deliver .white, .deliver .black, .click .white 7 7,
    .handle .white, .deliver .black, .click .black 7 8, .deliver .white, .handle .black]

theorem turns_alternate_two_moves :
    (waitingGames .twoUsers).Steps (start .twoUsers) twoMoves (after twoMoves) ∧
      (after twoMoves).stones.length = 2 ∧
      ∀ (i : Nat) (stone : Stone), (after twoMoves).stones[i]? = some stone →
        stone = if i % 2 = 0 then .white else .black := by
  have hrun : (waitingGames .twoUsers).Steps (start .twoUsers) twoMoves (after twoMoves) :=
    System.restrict_steps_of_run rfl
  exact ⟨hrun, rfl, turns_alternate .twoUsers _ ⟨_, _, rfl, hrun⟩⟩

def twoClicks : List MatchStep :=
  [.join .white, .join .black, .deliver .white, .deliver .black, .click .white 7 7,
    .click .white 7 8, .handle .white, .handle .white]

theorem turns_white_twice : (games .twoUsers).Steps (start .twoUsers) twoClicks (after twoClicks) ∧
      (after twoClicks).stones = [.white, .white] :=
  ⟨System.restrict_steps_of_run rfl, rfl⟩

end Match

end CallLesson.Gobang
