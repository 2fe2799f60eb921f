import Mathlib

/-! # Computations with fuel

    A computation that may not end is a function of its fuel: `none` says that it has not
    ended yet. With more fuel it gives what it gave with less, which is `Extends`; the
    rules say so of a computation in two parts when it holds of the parts. -/

namespace CallLesson.Fuel

variable {α β : Type}

def Extends (x y : Option α) : Prop := ∀ a, x = some a → y = some a

theorem Extends.refl (x : Option α) : Extends x x := fun _ h => h

theorem Extends.map {x y : Option α} (h : Extends x y) (f : α → β) :
    Extends (x.map f) (y.map f) := by
  intro b hb
  obtain ⟨a, ha, rfl⟩ := Option.map_eq_some_iff.mp hb
  rw [h a ha, Option.map_some]

theorem Extends.bind {x y : Option α} {f g : α → Option β} (h : Extends x y)
    (hfg : ∀ a, Extends (f a) (g a)) : Extends (x.bind f) (y.bind g) := by
  intro b hb
  obtain ⟨a, ha, hfa⟩ := Option.bind_eq_some_iff.mp hb
  rw [h a ha, Option.bind_some]
  exact hfg a b hfa

theorem Extends.ite {x y x' y' : Option α} (c : Prop) [Decidable c] (h : Extends x y)
    (h' : Extends x' y') : Extends (if c then x else x') (if c then y else y') := by
  by_cases hc : c
  · simpa [hc] using h
  · simpa [hc] using h'

theorem eq_of_extends {run : Nat → Option α} (hrun : ∀ {m n}, m ≤ n → Extends (run m) (run n))
    {m n : Nat} {a b : α} (ha : run m = some a) (hb : run n = some b) : a = b := by
  have hm := hrun (Nat.le_max_left m n) a ha
  have hn := hrun (Nat.le_max_right m n) b hb
  exact Option.some_inj.mp (hm.symm.trans hn)

end CallLesson.Fuel
