import CallLesson.Framework.Fuel

/-! # Search around a ring of slots

    The slots of a table are tried one after the other, from a given one on and from the
    last one again to the first, until one of them meets a condition. The search has a
    fuel: `none` says that it has not ended within so many trials. -/

namespace CallLesson.Probe

variable {n : Nat}

def ahead (i : Fin n) (j : Nat) : Fin n := ⟨(i + j) % n, Nat.mod_lt _ i.pos⟩

def search (p : Fin n → Bool) : Nat → Fin n → Option (Fin n)
  | 0, _ => none
  | fuel + 1, i => if p i then some i else search p fuel (ahead i 1)

@[simp] theorem ahead_zero (i : Fin n) : ahead i 0 = i :=
  Fin.ext (Nat.mod_eq_of_lt i.isLt)

theorem ahead_ahead (i : Fin n) (j k : Nat) : ahead (ahead i j) k = ahead i (j + k) := by
  apply Fin.ext
  show ((i + j) % n + k) % n = (i + (j + k)) % n
  rw [Nat.mod_add_mod, Nat.add_assoc]

theorem exists_ahead (i r : Fin n) : ∃ j < n, ahead i j = r := by
  by_cases hle : i ≤ r
  · refine ⟨r - i, by omega, Fin.ext ?_⟩
    show (i + (r - i)) % n = r
    rw [Nat.add_sub_cancel' hle, Nat.mod_eq_of_lt r.isLt]
  · refine ⟨n - i + r, by omega, Fin.ext ?_⟩
    show (i + (n - i + r)) % n = r
    rw [show (i : Nat) + (n - i + r) = r + n by omega, Nat.add_mod_right,
      Nat.mod_eq_of_lt r.isLt]

theorem search_extends (p : Fin n → Bool) :
    ∀ {f f' : Nat} (i : Fin n), f ≤ f' → Fuel.Extends (search p f i) (search p f' i) := by
  intro f
  induction f with
  | zero =>
    intro f' i _ r h
    cases h
  | succ f ih =>
    intro f' i hle
    obtain ⟨f', rfl⟩ : ∃ g, f' = g + 1 := ⟨f' - 1, by omega⟩
    exact Fuel.Extends.ite _ (Fuel.Extends.refl _) (ih _ (by omega))

variable {p : Fin n → Bool}

theorem exists_of_search {fuel : Nat} {i r : Fin n} (h : search p fuel i = some r) :
    p r = true ∧ ∃ j, ahead i j = r ∧ ∀ k < j, p (ahead i k) = false := by
  induction fuel generalizing i with
  | zero => cases h
  | succ fuel ih =>
    simp only [search] at h
    split at h
    · next hp =>
      cases h
      exact ⟨hp, 0, ahead_zero _, fun k hk => absurd hk (Nat.not_lt_zero k)⟩
    · next hp =>
      obtain ⟨hr, j, hj, hbefore⟩ := ih h
      refine ⟨hr, 1 + j, (ahead_ahead i 1 j).symm.trans hj, fun k hk => ?_⟩
      -- the slot that was tried first, or one that the rest of the search has tried
      cases k with
      | zero => simpa using hp
      | succ k =>
        have := hbefore k (by omega)
        rwa [ahead_ahead, Nat.add_comm 1 k] at this

theorem search_isSome {j : Nat} :
    ∀ {fuel : Nat} {i : Fin n}, p (ahead i j) = true → j < fuel → (search p fuel i).isSome := by
  induction j with
  | zero =>
    intro fuel i hp hfuel
    obtain ⟨f, rfl⟩ : ∃ f, fuel = f + 1 := ⟨fuel - 1, by omega⟩
    rw [ahead_zero] at hp
    simp [search, hp]
  | succ j ih =>
    intro fuel i hp hfuel
    obtain ⟨f, rfl⟩ : ∃ f, fuel = f + 1 := ⟨fuel - 1, by omega⟩
    simp only [search]
    split
    · rfl
    · apply ih
      · rwa [ahead_ahead, Nat.add_comm 1 j]
      · omega

theorem search_isSome_of_exists {r : Fin n} (hp : p r = true) (i : Fin n) {fuel : Nat}
    (hfuel : n ≤ fuel) : (search p fuel i).isSome := by
  obtain ⟨j, hj, rfl⟩ := exists_ahead i r
  exact search_isSome hp (by omega)

end CallLesson.Probe
