import Mathlib

/-! # Dictionaries

    A `std::unordered_map` as the function from keys to what `find` returns.
    `insert` is the member function of that name, which leaves an entry that
    is already there as it is. -/

namespace CallLesson

abbrev Dict (κ α : Type) := κ → Option α

namespace Dict

variable {κ α : Type} [DecidableEq κ]

def empty : Dict κ α := fun _ => none

def insert (m : Dict κ α) (k : κ) (v : α) : Dict κ α :=
  fun i => if i = k then some ((m k).getD v) else m i

def erase (m : Dict κ α) (k : κ) : Dict κ α := fun i => if i = k then none else m i

def assign (m : Dict κ α) (k : κ) (v : α) : Dict κ α := fun i => if i = k then some v else m i

variable {k : κ} {i k' : κ}

@[simp] theorem insert_ne (m : Dict κ α) (v : α) (h : i ≠ k) : m.insert k v i = m i := by
  simp [insert, h]

variable {m : Dict κ α}

theorem insert_of_none (v : α) (h : m k = none) : m.insert k v k = some v := by
  simp [insert, h]

theorem insert_of_some {w : α} (v : α) (h : m k = some w) : m.insert k v = m := by
  funext i
  by_cases hi : i = k
  · subst hi
    simp [insert, h]
  · exact insert_ne m v hi

@[simp] theorem erase_self (m : Dict κ α) (k : κ) : m.erase k k = none := by
  simp [erase]

@[simp] theorem erase_ne (m : Dict κ α) (h : i ≠ k) : m.erase k i = m i := by
  simp [erase, h]

@[simp] theorem assign_self (m : Dict κ α) (k : κ) (v : α) : m.assign k v k = some v := by
  simp [assign]

@[simp] theorem assign_ne (m : Dict κ α) (v : α) (h : i ≠ k) : m.assign k v i = m i := by
  simp [assign, h]

@[simp] theorem assign_assign (m : Dict κ α) (k : κ) (v w : α) :
    (m.assign k v).assign k w = m.assign k w := by
  funext i
  by_cases hi : i = k
  · rw [hi, assign_self, assign_self]
  · rw [assign_ne _ _ hi, assign_ne _ _ hi, assign_ne _ _ hi]

theorem assign_of_some {v : α} (h : m k = some v) : m.assign k v = m := by
  funext i
  by_cases hi : i = k
  · rw [hi, assign_self, h]
  · rw [assign_ne _ _ hi]

theorem erase_of_none (h : m k = none) : m.erase k = m := by
  funext i
  by_cases hi : i = k
  · rw [hi, erase_self, h]
  · rw [erase_ne _ hi]

@[simp] theorem erase_assign (m : Dict κ α) (k : κ) (v : α) : (m.assign k v).erase k = m.erase k := by
  funext i
  by_cases hi : i = k
  · rw [hi, erase_self, erase_self]
  · rw [erase_ne _ hi, erase_ne _ hi, assign_ne _ _ hi]

def swap (m : Dict κ α) (k k' : κ) : Dict κ α := fun i => m (Equiv.swap k k' i)

@[simp] theorem swap_left (m : Dict κ α) (k k' : κ) : m.swap k k' k = m k' := by
  rw [swap, Equiv.swap_apply_left]

@[simp] theorem swap_right (m : Dict κ α) (k k' : κ) : m.swap k k' k' = m k := by
  rw [swap, Equiv.swap_apply_right]

theorem swap_ne (m : Dict κ α) (hi : i ≠ k) (hi' : i ≠ k') : m.swap k k' i = m i := by
  rw [swap, Equiv.swap_apply_of_ne_of_ne hi hi']

theorem assign_assign_swap {v w : α} (hk : m k = some v) (hk' : m k' = some w) :
    (m.assign k w).assign k' v = m.swap k k' := by
  funext i
  by_cases hi' : i = k'
  · rw [hi', assign_self, swap_right, hk]
  · rw [assign_ne _ _ hi']
    by_cases hi : i = k
    · rw [hi, assign_self, swap_left, hk']
    · rw [assign_ne _ _ hi, swap_ne _ hi hi']

theorem erase_swap {v : α} (hk : m k' = none) (hne : k ≠ k') :
    ((m.assign k' v).swap k k').erase k' = m.assign k v := by
  funext i
  by_cases hi' : i = k'
  · rw [hi', erase_self, assign_ne _ _ hne.symm, hk]
  · rw [erase_ne _ hi']
    by_cases hi : i = k
    · rw [hi, swap_left, assign_self, assign_self]
    · rw [swap_ne _ hi hi', assign_ne _ _ hi', assign_ne _ _ hi]

theorem assign_erase (m : Dict κ α) (k : κ) (v : α) : (m.erase k).assign k v = m.assign k v := by
  funext i
  by_cases hi : i = k
  · rw [hi, assign_self, assign_self]
  · rw [assign_ne _ _ hi, assign_ne _ _ hi, erase_ne _ hi]

end Dict

/-! ## Names of objects -/

/-- The objects of a program, and the two that a member function may have of its own. -/
inductive ObjName (I : Type) where
  | var (i : I)
  | tmp
  | arg
  deriving DecidableEq

namespace ObjName

open Dict

variable {I α : Type} {m : Dict I α} {i j : I} {x : α}

/-- The objects of the program, with no other one alive. -/
def vars (m : Dict I α) : Dict (ObjName I) α
  | .var i => m i
  | .tmp => none
  | .arg => none

variable [DecidableEq I]

theorem vars_assign : vars (m.assign i x) = (vars m).assign (.var i) x := by
  funext k
  cases k with
  | var k =>
    by_cases hk : k = i
    · simp [hk, vars]
    · rw [assign_ne _ _ (by simpa using hk)]
      exact assign_ne _ _ hk
  | tmp => exact (assign_ne (vars m) x (k := .var i) (i := .tmp) (by simp)).symm
  | arg => exact (assign_ne (vars m) x (k := .var i) (i := .arg) (by simp)).symm

theorem vars_erase : vars (m.erase i) = (vars m).erase (.var i) := by
  funext k
  cases k with
  | var k =>
    by_cases hk : k = i
    · simp [hk, vars]
    · rw [erase_ne _ (by simpa using hk)]
      exact erase_ne _ hk
  | tmp => exact (erase_ne (vars m) (k := .var i) (i := .tmp) (by simp)).symm
  | arg => exact (erase_ne (vars m) (k := .var i) (i := .arg) (by simp)).symm

theorem vars_swap {y : α} (hi : m i = some x) (hj : m j = some y) :
    vars (m.swap i j) = (vars m).swap (.var i) (.var j) := by
  rw [← assign_assign_swap hi hj, vars_assign, vars_assign]
  exact assign_assign_swap hi hj

end ObjName

end CallLesson
