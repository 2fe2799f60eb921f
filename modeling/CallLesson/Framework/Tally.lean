import Mathlib

/-! # Sums of weights

    Each of finitely many threads is at some place, and each place has a weight;
    `tally` adds the weights up. With weights 0 and 1 it counts the threads at the
    places of weight 1. -/

namespace CallLesson.Tally

open Finset

variable {ι α : Type} [Fintype ι]

def tally (w : α → Nat) (f : ι → α) : Nat := ∑ i, w (f i)

theorem tally_update [DecidableEq ι] (w : α → Nat) (f : ι → α) (i : ι) (x : α) :
    tally w (Function.update f i x) + w (f i) = tally w f + w x := by
  have hupdate : tally w (Function.update f i x) = w x + ∑ j ∈ univ.erase i, w (f j) := by
    rw [tally, ← add_sum_erase univ _ (mem_univ i), Function.update_self]
    congr 1
    apply sum_congr rfl
    intro j hj
    rw [Function.update_of_ne (ne_of_mem_erase hj)]
  have hsplit : tally w f = w (f i) + ∑ j ∈ univ.erase i, w (f j) := by
    rw [tally, add_sum_erase univ (fun j => w (f j)) (mem_univ i)]
  omega

theorem tally_eq_zero {w : α → Nat} {f : ι → α} : tally w f = 0 ↔ ∀ i, w (f i) = 0 := by
  simp [tally]

theorem le_tally (w : α → Nat) (f : ι → α) (i : ι) : w (f i) ≤ tally w f :=
  single_le_sum (f := fun j => w (f j)) (fun _ _ => Nat.zero_le _) (mem_univ i)

end CallLesson.Tally
