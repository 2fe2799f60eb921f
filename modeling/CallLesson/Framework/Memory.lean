import CallLesson.Framework.Dict

/-! # Memory with identities, and who holds what

    `Memory` is a memory in which an address can be given out again after it was freed. Each
    allocation has an identity of its own, and the identities of the freed ones are kept in
    the order in which they were freed, each once: that is part of the structure, so a
    memory cannot say that something was freed twice. -/

namespace CallLesson

open Dict Option

/-- What is at an address, with its identity, and what has been freed. -/
structure Memory (α : Type) where
  cells : Dict Nat (Nat × α)
  next : Nat
  freed : List Nat
  live_lt : ∀ {a id x}, cells a = some (id, x) → id < next
  live_not_freed : ∀ {a id x}, cells a = some (id, x) → id ∉ freed
  freed_lt : ∀ {id}, id ∈ freed → id < next
  distinct : ∀ {a b id x y}, cells a = some (id, x) → cells b = some (id, y) → a = b
  once : freed.Nodup
  kept : ∀ {id}, id < next → id ∉ freed → ∃ a x, cells a = some (id, x)

namespace Memory

variable {α : Type} {a b : Nat} {x : α}

def empty : Memory α where
  cells := Dict.empty
  next := 0
  freed := []
  live_lt := by simp [Dict.empty]
  live_not_freed := by simp
  freed_lt := by simp
  distinct := by simp [Dict.empty]
  once := List.nodup_nil
  kept := by simp

def alloc (m : Memory α) (a : Nat) (x : α) (ha : m.cells a = none) : Memory α where
  cells := m.cells.assign a (m.next, x)
  next := m.next + 1
  freed := m.freed
  live_lt := by
    intro b id y hb
    by_cases hba : b = a
    · simp only [hba, assign_self, some_inj, Prod.mk.injEq] at hb
      exact hb.1 ▸ Nat.lt_succ_self _
    · rw [assign_ne _ _ hba] at hb
      exact Nat.lt_succ_of_lt (m.live_lt hb)
  live_not_freed := by
    intro b id y hb hid
    by_cases hba : b = a
    · simp only [hba, assign_self, some_inj, Prod.mk.injEq] at hb
      exact Nat.lt_irrefl _ (hb.1 ▸ m.freed_lt hid)
    · rw [assign_ne _ _ hba] at hb
      exact m.live_not_freed hb hid
  freed_lt := fun hid => Nat.lt_succ_of_lt (m.freed_lt hid)
  distinct := by
    intro b c id y z hb hc
    by_cases hba : b = a <;> by_cases hca : c = a
    · rw [hba, hca]
    · simp only [hba, assign_self, some_inj, Prod.mk.injEq] at hb
      rw [assign_ne _ _ hca] at hc
      exact absurd (m.live_lt hc) (hb.1 ▸ Nat.lt_irrefl _)
    · simp only [hca, assign_self, some_inj, Prod.mk.injEq] at hc
      rw [assign_ne _ _ hba] at hb
      exact absurd (m.live_lt hb) (hc.1 ▸ Nat.lt_irrefl _)
    · rw [assign_ne _ _ hba] at hb
      rw [assign_ne _ _ hca] at hc
      exact m.distinct hb hc
  once := m.once
  kept := by
    intro id hid hnot
    by_cases hnew : id = m.next
    · exact ⟨a, x, by rw [assign_self, hnew]⟩
    · obtain ⟨b, y, hb⟩ := m.kept (Nat.lt_of_le_of_ne (Nat.le_of_lt_succ hid) hnew) hnot
      have hba : b ≠ a := by
        intro hba
        rw [hba, ha] at hb
        cases hb
      exact ⟨b, y, by rw [assign_ne _ _ hba, hb]⟩

def store (m : Memory α) (a : Nat) (x : α) : Memory α where
  cells := fun b => if b = a then (m.cells a).map fun c => (c.1, x) else m.cells b
  next := m.next
  freed := m.freed
  live_lt := by
    intro b id y hb
    by_cases hba : b = a
    · simp only [hba, if_true, map_eq_some_iff, Prod.mk.injEq] at hb
      obtain ⟨c, hc, rfl, rfl⟩ := hb
      exact m.live_lt hc
    · rw [if_neg hba] at hb
      exact m.live_lt hb
  live_not_freed := by
    intro b id y hb
    by_cases hba : b = a
    · simp only [hba, if_true, map_eq_some_iff, Prod.mk.injEq] at hb
      obtain ⟨c, hc, rfl, rfl⟩ := hb
      exact m.live_not_freed hc
    · rw [if_neg hba] at hb
      exact m.live_not_freed hb
  freed_lt := m.freed_lt
  distinct := by
    intro b c id y z hb hc
    have hsame : ∀ {d w}, (if d = a then (m.cells a).map fun c => (c.1, x) else m.cells d) =
        some (id, w) → ∃ w', m.cells d = some (id, w') := by
      intro d w hd
      by_cases hda : d = a
      · simp only [hda, if_true, map_eq_some_iff, Prod.mk.injEq] at hd
        obtain ⟨e, he, rfl, rfl⟩ := hd
        exact ⟨e.2, by rw [hda, he]⟩
      · rw [if_neg hda] at hd
        exact ⟨w, hd⟩
    obtain ⟨y', hb⟩ := hsame hb
    obtain ⟨z', hc⟩ := hsame hc
    exact m.distinct hb hc
  once := m.once
  kept := by
    intro id hid hnot
    obtain ⟨b, y, hb⟩ := m.kept hid hnot
    by_cases hba : b = a
    · exact ⟨a, x, by simp [← hba, hb]⟩
    · exact ⟨b, y, by rw [if_neg hba, hb]⟩

def free (m : Memory α) (a : Nat) (c : Nat × α) (ha : m.cells a = some c) : Memory α where
  cells := m.cells.erase a
  next := m.next
  freed := m.freed ++ [c.1]
  live_lt := by
    intro b id y hb
    by_cases hba : b = a
    · simp [hba] at hb
    · rw [erase_ne _ hba] at hb
      exact m.live_lt hb
  live_not_freed := by
    intro b id y hb hid
    by_cases hba : b = a
    · simp [hba] at hb
    · rw [erase_ne _ hba] at hb
      rcases List.mem_append.mp hid with hid | hid
      · exact m.live_not_freed hb hid
      · rw [List.mem_singleton.mp hid] at hb
        exact hba (m.distinct hb ha)
  freed_lt := by
    intro id hid
    rcases List.mem_append.mp hid with hid | hid
    · exact m.freed_lt hid
    · rw [List.mem_singleton.mp hid]
      exact m.live_lt ha
  distinct := by
    intro b b' id y z hb hb'
    by_cases hba : b = a
    · simp [hba] at hb
    · by_cases hba' : b' = a
      · simp [hba'] at hb'
      · rw [erase_ne _ hba] at hb
        rw [erase_ne _ hba'] at hb'
        exact m.distinct hb hb'
  once := by
    refine List.nodup_append.mpr ⟨m.once, List.nodup_singleton _, fun id hid id' hid' => ?_⟩
    rw [List.mem_singleton.mp hid']
    intro heq
    exact m.live_not_freed ha (heq ▸ hid)
  kept := by
    intro id hid hnot
    rw [List.mem_append, not_or, List.mem_singleton] at hnot
    obtain ⟨b, y, hb⟩ := m.kept hid hnot.1
    have hba : b ≠ a := by
      intro hba
      rw [hba, ha, some_inj] at hb
      exact hnot.2 (congrArg Prod.fst hb).symm
    exact ⟨b, y, by rw [erase_ne _ hba, hb]⟩

def new (m : Memory α) (a : Nat) (x : α) : Option (Memory α) :=
  match ha : m.cells a with
  | none => some (m.alloc a x ha)
  | some _ => none

def delete (m : Memory α) (a : Nat) : Option (Memory α) :=
  match ha : m.cells a with
  | none => none
  | some c => some (m.free a c ha)

theorem new_of_none {m : Memory α} (ha : m.cells a = none) : m.new a x = some (m.alloc a x ha) := by
  unfold new
  split
  · rfl
  · next c hc =>
    rw [ha] at hc
    cases hc

variable {c : Nat × α}

theorem delete_of_some {m : Memory α} (ha : m.cells a = some c) :
    m.delete a = some (m.free a c ha) := by
  unfold delete
  split
  · next hc =>
    rw [ha] at hc
    cases hc
  · next c' hc =>
    obtain rfl : c = c' := some_inj.mp (ha.symm.trans hc)
    rfl

@[simp] theorem alloc_self (m : Memory α) (ha : m.cells a = none) :
    (m.alloc a x ha).cells a = some (m.next, x) :=
  assign_self _ _ _

@[simp] theorem alloc_ne (m : Memory α) (ha : m.cells a = none) (hb : b ≠ a) :
    (m.alloc a x ha).cells b = m.cells b :=
  assign_ne _ _ hb

theorem store_self (m : Memory α) (ha : m.cells a = some c) :
    (m.store a x).cells a = some (c.1, x) := by
  simp [store, ha]

@[simp] theorem store_ne (m : Memory α) (hb : b ≠ a) : (m.store a x).cells b = m.cells b := by
  simp [store, hb]

@[simp] theorem free_self (m : Memory α) (ha : m.cells a = some c) :
    (m.free a c ha).cells a = none :=
  erase_self _ _

@[simp] theorem free_ne (m : Memory α) (ha : m.cells a = some c) (hb : b ≠ a) :
    (m.free a c ha).cells b = m.cells b :=
  erase_ne _ hb

end Memory

/-! ## Holders -/

namespace Dict

variable {ι κ : Type} {d : Dict ι κ} {i : ι} {k k' : κ}

/-- The names that hold `k`. -/
def holders (d : Dict ι κ) (k : κ) : Set ι := {i | d i = some k}

def IsFinite (d : Dict ι κ) : Prop := {i | d i ≠ none}.Finite

theorem IsFinite.holders (hd : d.IsFinite) (k : κ) : (d.holders k).Finite := by
  refine Set.Finite.subset hd fun i hi => ?_
  simp only [Dict.holders, Set.mem_ofPred_eq] at hi ⊢
  simp [hi]

variable [DecidableEq ι]

theorem IsFinite.assign (hd : d.IsFinite) : (d.assign i k).IsFinite := by
  refine Set.Finite.subset (Set.Finite.insert i hd) fun j hj => ?_
  by_cases hji : j = i
  · exact Or.inl hji
  · simp only [Set.mem_ofPred_eq, assign_ne _ _ hji] at hj
    exact Or.inr hj

theorem IsFinite.erase (hd : d.IsFinite) : (d.erase i).IsFinite := by
  refine Set.Finite.subset hd fun j hj => ?_
  by_cases hji : j = i
  · simp [hji] at hj
  · simpa only [Set.mem_ofPred_eq, erase_ne _ hji] using hj

theorem ncard_holders_assign (hd : d.IsFinite) (hi : d i = none) :
    ((d.assign i k).holders k).ncard = (d.holders k).ncard + 1 := by
  have hset : (d.assign i k).holders k = Insert.insert i (d.holders k) := by
    ext j
    by_cases hji : j = i
    · simp [holders, hji]
    · simp [holders, hji]
  rw [hset, Set.ncard_insert_of_notMem (by simp [holders, hi]) (hd.holders k)]

theorem holders_assign_ne (hi : d i = none) (hk : k' ≠ k) :
    (d.assign i k).holders k' = d.holders k' := by
  ext j
  by_cases hji : j = i
  · simp [holders, hji, hi, hk.symm]
  · simp [holders, hji]

theorem ncard_holders_erase (hd : d.IsFinite) (hi : d i = some k) :
    ((d.erase i).holders k).ncard + 1 = (d.holders k).ncard := by
  have hset : (d.erase i).holders k = d.holders k \ {i} := by
    ext j
    by_cases hji : j = i
    · simp [holders, hji]
    · simp [holders, hji]
  rw [hset]
  exact Set.ncard_sdiff_singleton_add_one hi (hd.holders k)

theorem holders_erase_ne (hi : d i = some k) (hk : k' ≠ k) :
    (d.erase i).holders k' = d.holders k' := by
  ext j
  by_cases hji : j = i
  · simp [holders, hji, hi, hk.symm]
  · simp [holders, hji]

end Dict

end CallLesson
