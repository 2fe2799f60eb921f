import Mathlib

/-! # Mutual exclusion

    A mutex has an owner or none. Of each thread it is known whether it is at a
    point of its code where it holds the mutex. -/

namespace CallLesson.Mutex

open Function

variable {T : Type} {owner : Option T} {holds : T → Bool}

def Exclusive (owner : Option T) (holds : T → Bool) : Prop := ∀ t, holds t = true → owner = some t

theorem Exclusive.unique (h : Exclusive owner holds) {t t' : T} (ht : holds t = true)
    (ht' : holds t' = true) : t = t' :=
  Option.some_inj.mp ((h t ht).symm.trans (h t' ht'))

variable [DecidableEq T]

theorem Exclusive.acquire (h : Exclusive none holds) (t : T) :
    Exclusive (some t) (update holds t true) := by
  intro t' ht'
  by_cases htt : t' = t
  · rw [htt]
  · rw [update_of_ne htt] at ht'
    cases h t' ht'

theorem Exclusive.goOn (h : Exclusive owner holds) {t : T} {b : Bool}
    (hb : b = true → holds t = true) : Exclusive owner (update holds t b) := by
  intro t' ht'
  by_cases htt : t' = t
  · subst htt
    rw [update_self] at ht'
    exact h t' (hb ht')
  · rw [update_of_ne htt] at ht'
    exact h t' ht'

theorem Exclusive.release (h : Exclusive owner holds) {t : T} (ht : holds t = true) :
    Exclusive none (update holds t false) := by
  intro t' ht'
  by_cases htt : t' = t
  · simp [htt] at ht'
  · rw [update_of_ne htt] at ht'
    exact absurd (h.unique ht' ht) htt

end CallLesson.Mutex
