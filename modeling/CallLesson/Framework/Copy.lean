import Mathlib

/-! # Element-wise copies into a list

    Loops that write one cell at a time: `blit` from a separate source,
    `moveWithin` inside one list, front to back. A front-to-back move to a
    lower position reads every cell before it overwrites it, so it is the
    same as a `blit` of the old cells. -/

namespace CallLesson

variable {α : Type}

def blit (dst : List α) (pos : Nat) : List α → List α
  | [] => dst
  | x :: xs => blit (dst.set pos x) (pos + 1) xs

def moveWithin (buf : List α) (src dst : Nat) : Nat → List α
  | 0 => buf
  | n + 1 =>
      match buf[src]? with
      | none => buf
      | some x => moveWithin (buf.set dst x) (src + 1) (dst + 1) n

open List

@[simp] theorem blit_length (src : List α) :
    ∀ (dst : List α) (pos : Nat), (blit dst pos src).length = dst.length := by
  induction src with
  | nil => intro dst pos; rfl
  | cons x xs ih =>
    intro dst pos
    rw [blit, ih, length_set]

theorem blit_eq (src : List α) : ∀ (dst : List α) (pos : Nat), pos + src.length ≤ dst.length →
      blit dst pos src = dst.take pos ++ src ++ dst.drop (pos + src.length) := by
  induction src with
  | nil =>
    intro dst pos _
    simp [blit]
  | cons x xs ih =>
    intro dst pos h
    rw [length_cons] at h
    have hpos : pos < dst.length := by omega
    rw [blit, ih _ _ (by rw [length_set]; omega)]
    have htake : (dst.set pos x).take (pos + 1) = dst.take pos ++ [x] := by
      rw [take_succ_eq_append_getElem (by rw [length_set]; exact hpos),
        take_set_of_le (Nat.le_refl pos), getElem_set_self]
    have hdrop : (dst.set pos x).drop (pos + 1 + xs.length) =
        dst.drop (pos + (x :: xs).length) := by
      rw [drop_set_of_lt (by omega), length_cons]
      congr 1
      omega
    rw [htake, hdrop]
    simp

theorem blit_concat (src : List α) (x : α) : ∀ (dst : List α) (pos : Nat),
      blit dst pos (src ++ [x]) = blit (dst.set (pos + src.length) x) pos src := by
  induction src with
  | nil => intro dst pos; rfl
  | cons y src ih =>
    intro dst pos
    have hlen : pos + (y :: src).length = pos + 1 + src.length := by
      rw [length_cons]
      omega
    rw [cons_append, blit, ih, blit, hlen, set_comm _ _ (by omega)]

theorem blit_append (src src' : List α) : ∀ (dst : List α) (pos : Nat),
      blit dst pos (src ++ src') = blit (blit dst pos src) (pos + src.length) src' := by
  induction src with
  | nil => intro dst pos; rfl
  | cons x src ih =>
    intro dst pos
    rw [cons_append, blit, ih, blit, length_cons, Nat.add_right_comm, Nat.add_assoc]

theorem blit_middle (pre old post : List α) {src : List α} (h : src.length = old.length) :
    blit (pre ++ (old ++ post)) pre.length src = pre ++ (src ++ post) := by
  have hdrop : (pre ++ (old ++ post)).drop (pre.length + src.length) = post := by
    rw [h, ← append_assoc, ← length_append, drop_left]
  rw [blit_eq _ _ _ (by simp [h]), take_left, hdrop, append_assoc]

theorem blit_gap (pre mid room post : List α) {src : List α} (h : src.length = room.length) :
    blit (blit (pre ++ (mid ++ (room ++ post))) (pre.length + room.length) mid) pre.length src =
      pre ++ (src ++ (mid ++ post)) := by
  -- the elements of the gap, until it is filled, are the first ones of the old list
  obtain ⟨gap, tail, hgap, hlen⟩ : ∃ gap tail, mid ++ room = gap ++ tail ∧
      gap.length = room.length :=
    ⟨_, _, (take_append_drop room.length _).symm, length_take_of_le (by simp)⟩
  have htail : mid.length = tail.length := by
    have := congrArg length hgap
    simp only [length_append] at this
    omega
  have hold : pre ++ (mid ++ (room ++ post)) = (pre ++ gap) ++ (tail ++ post) := by
    rw [← append_assoc mid, hgap]
    simp only [append_assoc]
  rw [hold, ← hlen, ← length_append, blit_middle _ _ _ htail, append_assoc,
    blit_middle _ _ _ (h.trans hlen.symm)]

theorem moveWithin_eq_blit (n : Nat) :
    ∀ (buf : List α) (src dst : Nat), dst ≤ src → src + n ≤ buf.length →
      moveWithin buf src dst n = blit buf dst ((buf.drop src).take n) := by
  induction n with
  | zero => intro buf src dst _ _; simp [moveWithin, blit]
  | succ n ih =>
    intro buf src dst hle hlen
    have hsrc : src < buf.length := by omega
    have hcell : buf[src]? = some buf[src] := getElem?_eq_getElem hsrc
    have hrest : (buf.drop src).take (n + 1) = buf[src] :: (buf.drop (src + 1)).take n := by
      rw [drop_eq_getElem_cons hsrc, take_succ_cons]
    rw [moveWithin, hcell, hrest, blit]
    show moveWithin (buf.set dst buf[src]) (src + 1) (dst + 1) n = _
    rw [ih _ _ _ (by omega) (by rw [length_set]; omega), drop_set_of_lt (by omega : dst < src + 1)]

end CallLesson
