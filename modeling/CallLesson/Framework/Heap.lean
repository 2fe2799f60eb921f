import CallLesson.Framework.Exec
import CallLesson.Framework.Dict

/-! # Programs on a heap

    Programs with pointers, modelled in `EStateM Halt (Heap α × ρ)`: the nodes are in a
    heap, and `ρ` is the object that points into it. A program stops without returning
    when it dereferences a pointer that is null or dangling, at a failed assertion, or
    when a loop has used up its fuel. Allocation never reuses an address, so that a
    pointer to a node that has been freed stays recognisable. -/

namespace CallLesson

abbrev Ptr := Option Nat

inductive Halt where
  | fault (f : Fault)
  /-- A loop has not ended within its fuel. -/
  | running
  deriving DecidableEq

/-- The nodes by address; allocation is at `next`. -/
structure Heap (α : Type) where
  cells : Dict Nat α
  next : Nat
  fresh : ∀ a, next ≤ a → cells a = none

variable {a : Nat}

namespace Heap

variable {α : Type}

def empty : Heap α where
  cells := Dict.empty
  next := 0
  fresh := fun _ _ => rfl

variable {h : Heap α} {x : α}

theorem lt_next (ha : h.cells a = some x) : a < h.next := by
  by_contra hle
  rw [h.fresh a (Nat.le_of_not_lt hle)] at ha
  cases ha

def update (h : Heap α) (a : Nat) (f : α → α) : Heap α where
  cells := fun i => if i = a then (h.cells a).map f else h.cells i
  next := h.next
  fresh := by
    intro i hi
    by_cases hia : i = a
    · subst hia
      simp [h.fresh i hi]
    · simp [hia, h.fresh i hi]

def alloc (h : Heap α) (x : α) : Heap α where
  cells := h.cells.assign h.next x
  next := h.next + 1
  fresh := by
    intro i hi
    have hne : i ≠ h.next := by omega
    rw [Dict.assign_ne _ _ hne, h.fresh i (by omega)]

def free (h : Heap α) (a : Nat) : Heap α where
  cells := h.cells.erase a
  next := h.next
  fresh := by
    intro i hi
    by_cases hia : i = a
    · simp [hia]
    · rw [Dict.erase_ne _ hia, h.fresh i hi]

theorem update_self (ha : h.cells a = some x) (f : α → α) :
    (h.update a f).cells a = some (f x) := by
  simp [update, ha]

variable {i : Nat}

@[simp] theorem update_ne (h : Heap α) (f : α → α) (hi : i ≠ a) :
    (h.update a f).cells i = h.cells i := by
  simp [update, hi]

def updateAt (h : Heap α) (p : Ptr) (f : α → α) : Heap α :=
  match p with
  | none => h
  | some a => h.update a f

@[simp] theorem updateAt_ne (h : Heap α) {p : Ptr} (f : α → α) (hi : p ≠ some i) :
    (h.updateAt p f).cells i = h.cells i := by
  cases p with
  | none => rfl
  | some a => exact update_ne h f fun hia => hi (congrArg some hia.symm)

@[simp] theorem alloc_self (h : Heap α) (x : α) : (h.alloc x).cells h.next = some x :=
  Dict.assign_self _ _ _

@[simp] theorem alloc_ne (h : Heap α) (x : α) (hi : i ≠ h.next) : (h.alloc x).cells i = h.cells i :=
  Dict.assign_ne _ _ hi

theorem alloc_of_some {y : α} (ha : h.cells a = some y) (x : α) : (h.alloc x).cells a = some y := by
  rw [← ha]
  exact Dict.assign_ne _ _ (lt_next ha).ne

@[simp] theorem free_ne (h : Heap α) (hi : i ≠ a) : (h.free a).cells i = h.cells i :=
  Dict.erase_ne _ hi

/-! ## Members -/

variable {β : Type} {g : α → β} {a i : Nat}

def field (h : Heap α) (g : α → β) (a : Nat) : Option β := (h.cells a).map g

theorem field_of_some (ha : h.cells a = some x) : h.field g a = some (g x) := by
  rw [field, ha, Option.map_some]

theorem exists_of_field {y : β} (ha : h.field g a = some y) : ∃ x, h.cells a = some x ∧ g x = y :=
  Option.map_eq_some_iff.mp ha

theorem field_congr {h' : Heap α} (ha : h'.cells a = h.cells a) : h'.field g a = h.field g a :=
  congrArg (Option.map g) ha

theorem field_update (f : α → α) (hg : ∀ x, g (f x) = g x) :
    (h.update a f).field g i = h.field g i := by
  by_cases hi : i = a
  · subst hi
    simp [field, update, Function.comp_def, hg]
  · rw [field_congr (update_ne h f hi)]

theorem field_update_const {f : α → α} {y : β} (ha : (h.cells a).isSome) (hg : ∀ x, g (f x) = y) :
    (h.update a f).field g i = if i = a then some y else h.field g i := by
  by_cases hi : i = a
  · obtain ⟨x, hx⟩ := Option.isSome_iff_exists.mp ha
    rw [if_pos hi, hi, field_of_some (update_self hx f), hg]
  · rw [if_neg hi, field_congr (update_ne h f hi)]

@[simp] theorem field_alloc :
    (h.alloc x).field g i = if i = h.next then some (g x) else h.field g i := by
  by_cases hi : i = h.next
  · rw [if_pos hi, hi, field_of_some (alloc_self h x)]
  · rw [if_neg hi, field_congr (alloc_ne h x hi)]

@[simp] theorem isSome_update {f : α → α} :
    ((h.update a f).cells i).isSome = (h.cells i).isSome := by
  by_cases hi : i = a
  · subst hi
    simp [update]
  · rw [update_ne h f hi]

@[simp] theorem isSome_alloc :
    ((h.alloc x).cells i).isSome = (i = h.next ∨ (h.cells i).isSome) := by
  by_cases hi : i = h.next
  · simp [hi]
  · simp [hi]

end Heap

/-- Programs on a heap of nodes `α` and an object `ρ`. -/
abbrev HeapM (α ρ : Type) := EStateM Halt (Heap α × ρ)

namespace HeapM

open Exec

variable {α ρ β : Type}

def load (p : Ptr) : HeapM α ρ α := do
  match p with
  | none => throw (.fault .nullPointer)
  | some a =>
      match (← get).1.cells a with
      | none => throw (.fault .badAccess)
      | some x => pure x

def store (p : Ptr) (f : α → α) : HeapM α ρ Unit := do
  match p with
  | none => throw (.fault .nullPointer)
  | some a =>
      match (← get).1.cells a with
      | none => throw (.fault .badAccess)
      | some _ => modify fun s => (s.1.update a f, s.2)

def new (x : α) : HeapM α ρ Ptr :=
  modifyGet fun s => (some s.1.next, (s.1.alloc x, s.2))

def delete (p : Ptr) : HeapM α ρ Unit := do
  match p with
  | none => throw (.fault .nullPointer)
  | some a =>
      match (← get).1.cells a with
      | none => throw (.fault .badAccess)
      | some _ => modify fun s => (s.1.free a, s.2)

def getObj : HeapM α ρ ρ := modifyGet fun s => (s.2, s)

def setObj (x : ρ) : HeapM α ρ Unit := modify fun s => (s.1, x)

variable {s : Heap α × ρ} {a : Nat} {x : α} {E : Heap α × ρ → Prop}

theorem wp_load (ha : s.1.cells a = some x) (Q : α → Heap α × ρ → Prop) :
    wp (load (some a)) Q E s ↔ Q x s := by
  simp [load, ha]

theorem wp_store (ha : s.1.cells a = some x) (f : α → α) (Q : Unit → Heap α × ρ → Prop) :
    wp (store (some a) f) Q E s ↔ Q () (s.1.update a f, s.2) := by
  simp [store, ha]

theorem wp_store_isSome (ha : (s.1.cells a).isSome) (f : α → α) (Q : Unit → Heap α × ρ → Prop) :
    wp (store (some a) f) Q E s ↔ Q () (s.1.update a f, s.2) := by
  obtain ⟨x, hx⟩ := Option.isSome_iff_exists.mp ha
  exact wp_store hx f Q

theorem wp_store_whenever {p : Ptr} (hp : ∀ a, p = some a → ∃ x, s.1.cells a = some x)
    (f : α → α) (Q : Unit → Heap α × ρ → Prop) :
    wp (whenever (p ≠ none) (store p f)) Q E s ↔ Q () (s.1.updateAt p f, s.2) := by
  rw [wp_whenever]
  cases p with
  | none => simp [Heap.updateAt]
  | some a =>
    obtain ⟨x, hx⟩ := hp a rfl
    simp [wp_store hx, Heap.updateAt]

@[simp] theorem wp_new (y : α) (Q : Ptr → Heap α × ρ → Prop) :
    wp (new y) Q E s ↔ Q (some s.1.next) (s.1.alloc y, s.2) := by
  simp [new]

theorem wp_delete (ha : s.1.cells a = some x) (Q : Unit → Heap α × ρ → Prop) :
    wp (delete (some a)) Q E s ↔ Q () (s.1.free a, s.2) := by
  simp [delete, ha]

theorem wp_delete_isSome (ha : (s.1.cells a).isSome) (Q : Unit → Heap α × ρ → Prop) :
    wp (delete (some a)) Q E s ↔ Q () (s.1.free a, s.2) := by
  obtain ⟨x, hx⟩ := Option.isSome_iff_exists.mp ha
  exact wp_delete hx Q

@[simp] theorem wp_getObj (Q : ρ → Heap α × ρ → Prop) : wp getObj Q E s ↔ Q s.2 s := by
  simp [getObj]

@[simp] theorem wp_setObj (y : ρ) (Q : Unit → Heap α × ρ → Prop) :
    wp (setObj y) Q E s ↔ Q () (s.1, y) := by
  simp [setObj]

end HeapM

end CallLesson
