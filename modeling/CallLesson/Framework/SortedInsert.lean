import Mathlib

/-! # Insertion into a sorted collection

    What insertion into a collection with one item for each key does: an item with a new
    key is put at its place in the order, and one whose key is there already changes
    nothing. `Collected` is what any number of insertions leaves, told from the list of
    the items inserted alone. -/

namespace CallLesson

open List

section sorted

variable {D K : Type} [LinearOrder K]

inductive SortedInsert (key : D → K) (x : D) : List D → List D → Bool → Prop where
  | added (l r : List D) (hl : ∀ y ∈ l, key y < key x) (hr : ∀ y ∈ r, key x < key y) :
      SortedInsert key x (l ++ r) (l ++ x :: r) true
  | kept (l r : List D) (y : D) (hy : key y = key x) :
      SortedInsert key x (l ++ y :: r) (l ++ y :: r) false

namespace SortedInsert

variable {key : D → K} {x : D} {l l' : List D} {b : Bool}

section

variable (h : SortedInsert key x l l' b)

include h

theorem length_le : l'.length ≤ l.length + 1 := by
  cases h with
  | added l r hl hr => simp [Nat.add_assoc]
  | kept l r y hy => omega

theorem sorted (hs : (l.map key).Pairwise (· < ·)) : (l'.map key).Pairwise (· < ·) := by
  cases h with
  | kept l r y hy => exact hs
  | added l r hl hr =>
    simp only [map_append, map_cons, pairwise_append, pairwise_cons,
      forall_mem_cons, forall_mem_map] at hs ⊢
    exact ⟨hs.1, ⟨hr, hs.2.1⟩, fun y hy => ⟨hl y hy, hs.2.2 y hy⟩⟩

theorem answer_iff : b = true ↔ ∀ y ∈ l, key y ≠ key x := by
  cases h with
  | kept l r y hy =>
    simp only [Bool.false_eq_true, false_iff]
    exact fun hall => hall y (by simp) hy
  | added l r hl hr =>
    refine ⟨fun _ y hy => ?_, fun _ => rfl⟩
    rcases mem_append.mp hy with hy | hy
    · exact (hl y hy).ne
    · exact (hr y hy).ne'

theorem mem_iff (e : D) : e ∈ l' ↔ e ∈ l ∨ (b = true ∧ e = x) := by
  cases h with
  | kept l r y hy => simp
  | added l r hl hr =>
    simp only [mem_append, mem_cons]
    tauto

end

theorem of_mem {y : D} (hmem : y ∈ l) (hy : key y = key x) : SortedInsert key x l l false := by
  obtain ⟨pre, post, rfl⟩ := append_of_mem hmem
  exact kept pre post y hy

theorem map {E : Type} {g : E → D} {x : E} {l l' : List E}
    (h : SortedInsert (fun e => key (g e)) x l l' b) :
    SortedInsert key (g x) (l.map g) (l'.map g) b := by
  cases h with
  | kept l r y hy =>
    rw [map_append, map_cons]
    exact kept _ _ _ hy
  | added l r hl hr =>
    rw [map_append, map_append, map_cons]
    exact added _ _ (forall_mem_map.mpr hl) (forall_mem_map.mpr hr)

end SortedInsert

structure Collected (key : D → K) (xs l : List D) (bs : List Bool) : Prop where
  sorted : (l.map key).Pairwise (· < ·)
  /-- The first item of each key is kept. -/
  mem_iff : ∀ e, e ∈ l ↔ xs.find? (fun x => key x = key e) = some e
  answers : bs = xs.mapIdx fun i x => decide (∀ y ∈ xs.take i, key y ≠ key x)
  length_le : l.length ≤ xs.length

namespace Collected

variable {key : D → K} {xs l l' : List D} {bs : List Bool} {x : D} {b : Bool}

theorem nil : Collected key [] [] [] := ⟨List.Pairwise.nil, by simp, rfl, le_refl 0⟩

theorem forall_ne_iff (h : Collected key xs l bs) (k : K) :
    (∀ y ∈ l, key y ≠ k) ↔ ∀ y ∈ xs, key y ≠ k := by
  constructor
  · intro hl y hy hyk
    -- the first item with this key
    have hsome : (xs.find? fun x => key x = key y).isSome :=
      find?_isSome.mpr ⟨y, hy, decide_eq_true rfl⟩
    obtain ⟨z, hz⟩ := Option.isSome_iff_exists.mp hsome
    have hzk : key z = key y := by simpa using find?_some hz
    refine hl z ((h.mem_iff z).mpr ?_) (hzk.trans hyk)
    rw [hzk]
    exact hz
  · intro hxs y hy
    exact hxs y (mem_of_find?_eq_some ((h.mem_iff y).mp hy))

theorem snoc (h : Collected key xs l bs) (hi : SortedInsert key x l l' b) :
    Collected key (xs ++ [x]) l' (bs ++ [b]) := by
  have hb : b = true ↔ ∀ y ∈ xs, key y ≠ key x := hi.answer_iff.trans (h.forall_ne_iff (key x))
  refine ⟨hi.sorted h.sorted, fun e => ?_, ?_, ?_⟩
  · rw [hi.mem_iff, h.mem_iff, hb, find?_append]
    cases hfind : xs.find? fun x => key x = key e with
    | some z =>
      have hz := mem_of_find?_eq_some hfind
      have hzk : key z = key e := by simpa using find?_some hfind
      constructor
      · rintro (hze | ⟨hne, rfl⟩)
        · exact hze
        · exact absurd hzk (hne z hz)
      · exact Or.inl
    | none =>
      have hnone : ∀ y ∈ xs, key y ≠ key e := by simpa using hfind
      simp only [reduceCtorEq, false_or, Option.none_or, find?_singleton]
      constructor
      · rintro ⟨-, rfl⟩
        simp
      · intro hx
        split at hx
        · cases hx
          exact ⟨hnone, rfl⟩
        · cases hx
  · rw [mapIdx_append, h.answers]
    congr 1
    · refine mapIdx_eq_mapIdx_iff.mpr fun i hlt => ?_
      rw [take_append_of_le_length hlt.le]
    · simpa using Bool.eq_iff_iff.mpr (hb.trans decide_eq_true_iff.symm)
  · have hlen := hi.length_le
    have hxs := h.length_le
    simp only [length_append, length_singleton]
    omega

end Collected

end sorted

end CallLesson
