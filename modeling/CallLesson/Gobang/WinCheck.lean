import CallLesson.Gobang.Room

/-! # Five in a row

    `check_win` looks only along the four lines through the last move. On a
    board without five in a row before the move, that is the same as looking
    for five in a row anywhere: a line of five that is new has the new stone
    in it. -/

namespace CallLesson.Gobang

namespace Board

/-! ## Lines -/

def directions : List (Int × Int) := [(0, 1), (1, 0), (-1, 1), (-1, -1)]

def FiveAt (b : Board) (row col : Int) (color : Stone) : Prop :=
  ∃ d ∈ directions, ∃ k : Nat, k < 5 ∧ ∀ i : Nat, i < 5 →
    b.cell? (row + ((i : Int) - k) * d.1) (col + ((i : Int) - k) * d.2) = some color

def Line (b : Board) (stone : Stone) (n : Nat) (row col rowOff colOff : Int) : Prop :=
  ∀ i : Nat, i < n → b.cell? (row + i * rowOff) (col + i * colOff) = some stone

def HasFive (b : Board) : Prop :=
  ∃ d ∈ directions, ∃ row col stone, stone ≠ .free ∧ b.Line stone 5 row col d.1 d.2

variable {b : Board} {stone : Stone} {row col rowOff colOff : Int}

theorem line_succ {n : Nat} : b.Line stone (n + 1) row col rowOff colOff ↔
    b.cell? row col = some stone ∧ b.Line stone n (row + rowOff) (col + colOff) rowOff colOff := by
  have hshift : ∀ (x off : Int) (i : Nat), x + off + i * off = x + (i + 1 : Nat) * off := by
    intro x off i
    push_cast
    ring
  constructor
  · intro h
    refine ⟨by simpa using h 0 (Nat.succ_pos n), fun i hi => ?_⟩
    rw [hshift, hshift]
    exact h (i + 1) (Nat.succ_lt_succ hi)
  · intro h i hi
    cases i with
    | zero => simpa using h.1
    | succ i =>
      rw [← hshift, ← hshift]
      exact h.2 i (Nat.lt_of_succ_lt_succ hi)

theorem le_run_iff {n fuel : Nat} : n ≤ b.run stone rowOff colOff fuel row col ↔
    n ≤ fuel ∧ b.Line stone n row col rowOff colOff := by
  induction fuel generalizing n row col with
  | zero =>
    constructor
    · intro hn
      obtain rfl := Nat.le_zero.mp hn
      exact ⟨Nat.le_refl 0, fun i hi => absurd hi (Nat.not_lt_zero i)⟩
    · exact fun h => h.1
  | succ fuel ih =>
    cases n with
    | zero =>
      have hline : b.Line stone 0 row col rowOff colOff := fun i hi => absurd hi (Nat.not_lt_zero i)
      exact iff_of_true (Nat.zero_le _) ⟨Nat.zero_le _, hline⟩
    | succ n =>
      rw [run, line_succ]
      split
      · next hcell => simp [ih, hcell]
      · next hcell => simp [hcell]

theorem Line.length_le {n : Nat} (h : b.Line stone n row col rowOff colOff)
    (hoff : rowOff ≠ 0 ∨ colOff ≠ 0) : n ≤ 15 := by
  by_contra hlong
  -- the first and the sixteenth cell of the line are on the board
  obtain ⟨i, j, hi, hj, _⟩ := cell?_eq_some (h 0 (by omega))
  obtain ⟨i', j', hi', hj', _⟩ := cell?_eq_some (h 15 (by omega))
  omega

theorem run_fuel (hoff : rowOff ≠ 0 ∨ colOff ≠ 0) (extra : Nat) :
    b.run stone rowOff colOff (15 + extra) row col = b.run stone rowOff colOff 15 row col := by
  have hle : ∀ n, n ≤ b.run stone rowOff colOff (15 + extra) row col ↔
      n ≤ b.run stone rowOff colOff 15 row col := by
    intro n
    rw [le_run_iff, le_run_iff]
    constructor
    · exact fun h => ⟨h.2.length_le hoff, h.2⟩
    · exact fun h => ⟨h.1.trans (Nat.le_add_right 15 extra), h.2⟩
  exact Nat.le_antisymm ((hle _).mp (Nat.le_refl _)) ((hle _).mpr (Nat.le_refl _))

/-! ## The lines through a cell -/

theorem five_iff (hcell : b.cell? row col = some stone) :
    b.five row col rowOff colOff stone = true ↔ ∃ k : Nat, k < 5 ∧ ∀ i : Nat, i < 5 →
      b.cell? (row + ((i : Int) - k) * rowOff) (col + ((i : Int) - k) * colOff) = some stone := by
  have hcount : b.five row col rowOff colOff stone = true ↔ ∃ k : Nat, k < 5 ∧
      k ≤ b.run stone (-rowOff) (-colOff) 15 (row - rowOff) (col - colOff) ∧
      4 - k ≤ b.run stone rowOff colOff 15 (row + rowOff) (col + colOff) := by
    simp only [five, decide_eq_true_iff]
    constructor
    · intro h
      refine ⟨min 4 (b.run stone (-rowOff) (-colOff) 15 (row - rowOff) (col - colOff)), ?_⟩
      omega
    · intro h
      obtain ⟨k, _, hback, hahead⟩ := h
      omega
  rw [hcount]
  refine exists_congr fun k => and_congr_right fun hk => ?_
  rw [le_run_iff, le_run_iff]
  constructor
  · intro h i hi
    obtain ⟨⟨_, hback⟩, _, hahead⟩ := h
    -- the cells before the given one, that one, and the cells after it
    rcases Nat.lt_trichotomy i k with hlt | rfl | hgt
    · have hat := hback (k - 1 - i) (by omega)
      have hcast : ((k - 1 - i : Nat) : Int) = k - 1 - i := by omega
      rw [hcast] at hat
      convert hat using 2 <;> ring
    · simpa using hcell
    · have hat := hahead (i - k - 1) (by omega)
      have hcast : ((i - k - 1 : Nat) : Int) = i - k - 1 := by omega
      rw [hcast] at hat
      convert hat using 2 <;> ring
  · intro h
    refine ⟨⟨by omega, fun i hi => ?_⟩, by omega, fun i hi => ?_⟩
    · have hat := h (k - 1 - i) (by omega)
      have hcast : ((k - 1 - i : Nat) : Int) = k - 1 - i := by omega
      rw [hcast] at hat
      convert hat using 2 <;> ring
    · have hat := h (k + 1 + i) (by omega)
      push_cast at hat
      convert hat using 2 <;> ring

theorem fiveAt_iff (hcell : b.cell? row col = some stone) :
    b.FiveAt row col stone ↔ ∃ d ∈ directions, b.five row col d.1 d.2 stone = true :=
  exists_congr fun _ => and_congr_right fun _ => (five_iff hcell).symm

theorem cell?_put_self {other : Stone} (stone : Stone) (h : b.cell? row col = some other) :
    (b.put row col stone).cell? row col = some stone := by
  unfold cell? at h ⊢
  split at h
  · next hrange =>
    rw [dif_pos hrange, put, if_pos]
    exact ⟨Int.toNat_of_nonneg hrange.1.1, Int.toNat_of_nonneg hrange.2.1⟩
  · cases h

theorem cell?_put_ne {row' col' : Int} (h : ¬ (row' = row ∧ col' = col)) :
    (b.put row col stone).cell? row' col' = b.cell? row' col' := by
  unfold cell?
  split
  · next hrange =>
    rw [put, if_neg]
    intro hsame
    apply h
    rwa [Int.toNat_of_nonneg hrange.1.1, Int.toNat_of_nonneg hrange.2.1] at hsame
  · rfl

theorem hasFive_put_iff (hb : ¬ b.HasFive) (hfree : b.cell? row col = some .free)
    (hstone : stone ≠ .free) :
    (b.put row col stone).HasFive ↔ (b.put row col stone).FiveAt row col stone := by
  have hself : (b.put row col stone).cell? row col = some stone := cell?_put_self stone hfree
  constructor
  · intro h
    obtain ⟨d, hd, row', col', stone', hstone', hline⟩ := h
    by_cases hthrough : ∃ k : Nat, k < 5 ∧ row' + k * d.1 = row ∧ col' + k * d.2 = col
    · obtain ⟨k, hk, hrow, hcol⟩ := hthrough
      have hat := hline k hk
      rw [hrow, hcol, hself] at hat
      cases hat
      refine ⟨d, hd, k, hk, fun i hi => ?_⟩
      rw [← hline i hi]
      congr 1
      · rw [← hrow]
        ring
      · rw [← hcol]
        ring
    · -- the line was there before
      refine absurd ⟨d, hd, row', col', stone', hstone', fun k hk => ?_⟩ hb
      have hat := hline k hk
      rwa [cell?_put_ne fun hsame => hthrough ⟨k, hk, hsame⟩] at hat
  · intro h
    obtain ⟨d, hd, k, _, hfive⟩ := h
    refine ⟨d, hd, row - k * d.1, col - k * d.2, stone, hstone, fun i hi => ?_⟩
    rw [← hfive i hi]
    congr 1 <;> ring

end Board

/-! ## The winner -/

namespace Room

theorem checkWin_of_fiveAt {r : Room} {row col : Int} {color : Stone}
    (hcell : r.board.cell? row col = some color) :
    (r.board.FiveAt row col color → r.checkWin row col color = r.player color) ∧
      (¬ r.board.FiveAt row col color → r.checkWin row col color = 0) := by
  have hlines : (r.board.five row col 0 1 color || r.board.five row col 1 0 color ||
      r.board.five row col (-1) 1 color || r.board.five row col (-1) (-1) color) = true ↔
      r.board.FiveAt row col color := by
    rw [Board.fiveAt_iff hcell]
    simp [Board.directions, or_assoc]
  unfold checkWin
  constructor
  · exact fun hfive => if_pos (hlines.mpr hfive)
  · exact fun hnone => if_neg (mt hlines.mp hnone)

theorem player_ne_zero {r : Room} (hwhite : r.whiteId ≠ 0) (hblack : r.blackId ≠ 0)
    (color : Stone) : r.player color ≠ 0 := by
  unfold player
  split
  · exact hwhite
  · exact hblack

/-- **Local win detection is global win detection**: after a stone has been
    put on a free cell of a board without five in a row, `check_win` finds a
    winner just when there are five in a row anywhere, and it is the player of
    that stone. -/
theorem check_win_iff_hasFive (r : Room) (row col : Int) (color : Stone)
    (hboard : ¬ r.board.HasFive) (hfree : r.board.cell? row col = some .free)
    (hcolor : color ≠ .free) (hwhite : r.whiteId ≠ 0) (hblack : r.blackId ≠ 0) :
    let r' := { r with board := r.board.put row col color }
    (r'.checkWin row col color ≠ 0 ↔ r'.board.HasFive) ∧
      (r'.checkWin row col color ≠ 0 → r'.checkWin row col color = r.player color) := by
  intro r'
  have hplayer : r'.player color ≠ 0 := player_ne_zero hwhite hblack color
  obtain ⟨hwin, hnone⟩ := checkWin_of_fiveAt (r := r') (Board.cell?_put_self color hfree)
  rw [Board.hasFive_put_iff hboard hfree hcolor]
  by_cases hfive : r'.board.FiveAt row col color
  · rw [hwin hfive]
    exact ⟨iff_of_true hplayer hfive, fun _ => rfl⟩
  · rw [hnone hfive]
    exact ⟨iff_of_false (fun hne => hne rfl) hfive, fun hne => absurd rfl hne⟩

def fourInRow : Board := fun i j => if i = 7 ∧ 3 ≤ j ∧ j ≤ 6 then .white else .free

theorem fourInRow_not_hasFive : ¬ fourInRow.HasFive := by
  intro h
  obtain ⟨d, hd, row, col, stone, hstone, hline⟩ := h
  have hat : ∀ k : Nat, k < 5 → row + k * d.1 = 7 ∧ 3 ≤ col + k * d.2 ∧ col + k * d.2 ≤ 6 := by
    intro k hk
    obtain ⟨i, j, hi, hj, hcell⟩ := Board.cell?_eq_some (hline k hk)
    unfold fourInRow at hcell
    split at hcell
    · next hon =>
      rw [← hi, ← hj]
      simp only [Fin.ext_iff, Fin.le_def] at hon
      omega
    · exact absurd hcell.symm hstone
  -- the line stays in row 7, and is too long for the four stones
  have h0 := hat 0 (by decide)
  have h4 := hat 4 (by decide)
  simp only [Board.directions, List.mem_cons, List.not_mem_nil, or_false] at hd
  rcases hd with rfl | rfl | rfl | rfl <;> simp at h0 h4 <;> omega

def fifth : Room := { Room.new 1 8 9 with board := fourInRow.put 7 7 .white }

/-- The fifth stone of a row. -/
theorem check_win_iff_hasFive_fifth : fifth.checkWin 7 7 .white = 8 ∧ fifth.board.HasFive := by
  have hwin : fifth.checkWin 7 7 .white = 8 := by decide +kernel
  have hiff : fifth.checkWin 7 7 .white ≠ 0 ↔ fifth.board.HasFive :=
    (check_win_iff_hasFive { Room.new 1 8 9 with board := fourInRow } 7 7 .white
      fourInRow_not_hasFive (by decide) (by decide) (by decide) (by decide)).1
  rw [hwin] at hiff
  exact ⟨hwin, hiff.mp (by decide)⟩

end Room

end CallLesson.Gobang
