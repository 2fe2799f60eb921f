import CallLesson.Framework.Outcomes
import CallLesson.Framework.Heap
import CallLesson.Framework.Copy

/-! # Programs on arrays

    Programs that allocate arrays with `new T[n]` and work on them through pointers to
    elements, in `EStateM Stop (Heap (Block α) × ρ)`. A pointer is an array and an index in
    it; an access outside of the array, or a read of an element that has not been written,
    is a fault. `new` throws for arrays that no address space has room for. -/

namespace CallLesson

inductive Stop where
  /-- `std::bad_alloc`. -/
  | badAlloc
  | fault (f : Fault)
  /-- A loop has not ended within its fuel. -/
  | running
  deriving DecidableEq

/-- The elements of an array; none for one that has not been written. -/
abbrev Block (α : Type) := List (Option α)

structure ElemPtr where
  base : Ptr
  idx : Int
  deriving DecidableEq

namespace ElemPtr

def null : ElemPtr := ⟨none, 0⟩

instance : HAdd ElemPtr Int ElemPtr := ⟨fun p k => ⟨p.base, p.idx + k⟩⟩

def le (p q : ElemPtr) : Prop := p.base = q.base ∧ p.idx ≤ q.idx

instance (p q : ElemPtr) : Decidable (p.le q) := inferInstanceAs (Decidable (_ ∧ _))

end ElemPtr

def elem (a i : Nat) : ElemPtr := ⟨some a, i⟩

open List Dict Heap

@[simp] theorem elem_base (a i : Nat) : (elem a i).base = some a := rfl

@[simp] theorem elem_idx (a i : Nat) : (elem a i).idx = i := rfl

@[simp] theorem elem_add (a i k : Nat) : elem a i + (k : Int) = elem a (i + k) := by
  show (⟨some a, (i : Int) + k⟩ : ElemPtr) = ⟨some a, ((i + k : Nat) : Int)⟩
  rw [Nat.cast_add]

@[simp] theorem elem_add_one (a i : Nat) : elem a i + (1 : Int) = elem a (i + 1) := elem_add a i 1

theorem elem_succ_sub_one (a i : Nat) : elem a (i + 1) + (-1 : Int) = elem a i := by
  show (⟨some a, ((i + 1 : Nat) : Int) + -1⟩ : ElemPtr) = ⟨some a, i⟩
  rw [Nat.cast_add, Nat.cast_one, add_neg_cancel_right]

theorem elem_inj {a b i j : Nat} : elem a i = elem b j ↔ a = b ∧ i = j := by
  simp [elem]

theorem elem_ne_null (a i : Nat) : elem a i ≠ ElemPtr.null := by
  simp [elem, ElemPtr.null]

def sizeT (z : Int) : Nat := (z % 2 ^ 64).toNat

theorem sizeT_of_lt {n : Nat} (h : n < 2 ^ 64) : sizeT n = n := by
  unfold sizeT
  omega

/-- An array has at most `PTRDIFF_MAX` elements. -/
def maxElems : Nat := 2 ^ 63 - 1

namespace Heap

variable {α : Type} {h : Heap (Block α)} {a i : Nat} {b b' : Block α}

theorem ext_cells {h h' : Heap α} (hcells : ∀ a, h.cells a = h'.cells a) (hnext : h.next = h'.next) :
    h = h' := by
  obtain ⟨cells, next, _⟩ := h
  obtain ⟨cells', next', _⟩ := h'
  obtain rfl : cells = cells' := funext hcells
  obtain rfl : next = next' := hnext
  rfl

def setBlock (h : Heap (Block α)) (a : Nat) (b : Block α) : Heap (Block α) := h.update a fun _ => b

theorem setBlock_self (ha : h.cells a = some b') : (h.setBlock a b).cells a = some b :=
  update_self ha _

@[simp] theorem setBlock_ne (hi : i ≠ a) : (h.setBlock a b).cells i = h.cells i :=
  update_ne h _ hi

@[simp] theorem setBlock_setBlock : (h.setBlock a b).setBlock a b' = h.setBlock a b' := by
  refine ext_cells (fun i => ?_) rfl
  by_cases hi : i = a
  · subst hi
    simp [setBlock, update, Function.comp_def]
  · simp [hi]

theorem setBlock_same (ha : h.cells a = some b) : h.setBlock a b = h := by
  refine ext_cells (fun i => ?_) rfl
  by_cases hi : i = a
  · rw [hi, setBlock_self ha, ha]
  · simp [hi]

theorem alloc_setBlock : (h.alloc b).setBlock h.next b' = h.alloc b' := by
  refine ext_cells (fun i => ?_) rfl
  by_cases hi : i = h.next
  · rw [hi, setBlock_self (alloc_self h b), alloc_self]
  · rw [setBlock_ne hi, alloc_ne h b hi, alloc_ne h b' hi]

end Heap

abbrev ArrayM (α ρ : Type) := EStateM Stop (Heap (Block α) × ρ)

namespace ArrayM

open Exec

variable {α ρ β : Type}

/-! ## Accesses -/

def read (p : ElemPtr) : ArrayM α ρ α := do
  match p.base with
  | none => throw (.fault .nullPointer)
  | some a =>
      match (← get).1.cells a with
      | none => throw (.fault .badAccess)
      | some b =>
          if 0 ≤ p.idx then
            match b[p.idx.toNat]? with
            | some (some x) => pure x
            -- outside of the array, or never written
            | _ => throw (.fault .badAccess)
          else throw (.fault .badAccess)

def write (p : ElemPtr) (x : α) : ArrayM α ρ Unit := do
  match p.base with
  | none => throw (.fault .nullPointer)
  | some a =>
      match (← get).1.cells a with
      | none => throw (.fault .badAccess)
      | some b =>
          if 0 ≤ p.idx ∧ p.idx.toNat < b.length then
            modify fun s => (s.1.setBlock a (b.set p.idx.toNat (some x)), s.2)
          else throw (.fault .badAccess)

def newArray (n : Nat) : ArrayM α ρ ElemPtr := do
  if n ≤ maxElems then
    modifyGet fun s => (elem s.1.next 0, (s.1.alloc (List.replicate n none), s.2))
  else throw .badAlloc

def deleteArray (p : ElemPtr) : ArrayM α ρ Unit := do
  match p.base with
  | none => pure ()
  | some a =>
      match (← get).1.cells a with
      | none => throw (.fault .badAccess)
      | some _ => modify fun s => (s.1.free a, s.2)

def check (c : Prop) [Decidable c] : ArrayM α ρ Unit :=
  if c then pure () else throw (.fault .assertFailed)

def getObj : ArrayM α ρ ρ := modifyGet fun s => (s.2, s)

def setObj (x : ρ) : ArrayM α ρ Unit := modify fun s => (s.1, x)

variable {s : Heap (Block α) × ρ} {a i : Nat} {b : Block α} {x : α}
  {X : Stop → Heap (Block α) × ρ → Prop}

theorem wpe_read (ha : s.1.cells a = some b) (hx : b[i]? = some (some x))
    (Q : α → Heap (Block α) × ρ → Prop) : wpe (read (elem a i)) Q X s ↔ Q x s := by
  simp [read, ha, hx]

theorem wpe_write (ha : s.1.cells a = some b) (hi : i < b.length) (x : α)
    (Q : Unit → Heap (Block α) × ρ → Prop) :
    wpe (write (elem a i) x) Q X s ↔ Q () (s.1.setBlock a (b.set i (some x)), s.2) := by
  simp [write, ha, hi]

theorem wpe_write_outside (ha : s.1.cells a = some b) (hi : b.length ≤ i) (x : α)
    (Q : Unit → Heap (Block α) × ρ → Prop) :
    wpe (write (elem a i) x) Q X s ↔ X (.fault .badAccess) s := by
  simp [write, ha, Nat.not_lt.mpr hi]

theorem wpe_newArray (n : Nat) (Q : ElemPtr → Heap (Block α) × ρ → Prop) :
    wpe (newArray n) Q X s ↔
      (n ≤ maxElems → Q (elem s.1.next 0) (s.1.alloc (List.replicate n none), s.2)) ∧
        (¬ n ≤ maxElems → X .badAlloc s) := by
  rw [newArray, wpe_ite, wpe_modifyGet, wpe_throw]

theorem wpe_deleteArray (ha : s.1.cells a = some b) (Q : Unit → Heap (Block α) × ρ → Prop) :
    wpe (deleteArray (elem a i)) Q X s ↔ Q () (s.1.free a, s.2) := by
  simp [deleteArray, ha]

@[simp] theorem wpe_delete_null (Q : Unit → Heap (Block α) × ρ → Prop) :
    wpe (deleteArray .null) Q X s ↔ Q () s := by
  simp [deleteArray, ElemPtr.null]

theorem wpe_check {c : Prop} [Decidable c] (hc : c) (Q : Unit → Heap (Block α) × ρ → Prop) :
    wpe (check c) Q X s ↔ Q () s := by
  rw [check, if_pos hc, wpe_pure]

@[simp] theorem wpe_getObj (Q : ρ → Heap (Block α) × ρ → Prop) : wpe getObj Q X s ↔ Q s.2 s := by
  simp [getObj]

@[simp] theorem wpe_setObj (y : ρ) (Q : Unit → Heap (Block α) × ρ → Prop) :
    wpe (setObj y) Q X s ↔ Q () (s.1, y) := by
  simp [setObj]

/-! ## Loops -/

/-- `n` elements are copied, front to back. -/
def copyUp (src dst : ElemPtr) : Nat → ArrayM α ρ Unit
  | 0 => pure ()
  | n + 1 => do
      write dst (← read src)
      copyUp (src + (1 : Int)) (dst + (1 : Int)) n

/-- `n` elements are copied `len` places on, back to front. -/
def shiftUp (p : ElemPtr) (len : Nat) : Nat → ArrayM α ρ Unit
  | 0 => pure ()
  | n + 1 => do
      write (p + ((n + len : Nat) : Int)) (← read (p + (n : Int)))
      shiftUp p len n

/-- `n` elements are assigned one value. -/
def fill (p : ElemPtr) (x : α) : Nat → ArrayM α ρ Unit
  | 0 => pure ()
  | n + 1 => do
      write p x
      fill (p + (1 : Int)) x n

variable {xs : List α}

theorem prefix_drop_cons (h : (x :: xs).map some <+: b.drop i) :
    b[i]? = some (some x) ∧ xs.map some <+: b.drop (i + 1) := by
  obtain ⟨rest, hrest⟩ := h
  constructor
  · rw [← head?_drop, ← hrest]
    rfl
  · refine ⟨rest, ?_⟩
    rw [← tail_drop, ← hrest]
    rfl

theorem prefix_of_set {d j : Nat} {bd : Block α} {y : Option α} (ha : s.1.cells a = some b)
    (hd : s.1.cells d = some bd) (hbefore : a = d → j ≤ i) (hxs : xs.map some <+: b.drop (i + 1)) :
    ∃ b', (s.1.setBlock d (bd.set j y)).cells a = some b' ∧ xs.map some <+: b'.drop (i + 1) := by
  by_cases had : a = d
  · subst had
    obtain rfl : b = bd := Option.some_inj.mp (ha.symm.trans hd)
    refine ⟨_, setBlock_self ha, ?_⟩
    rwa [drop_set_of_lt (Nat.lt_succ_of_le (hbefore rfl))]
  · exact ⟨b, by rw [setBlock_ne had, ha], hxs⟩

theorem wpe_copyUp {d j : Nat} {bd : Block α} (ha : s.1.cells a = some b)
    (hd : s.1.cells d = some bd) (hbefore : a = d → j ≤ i) (hxs : xs.map some <+: b.drop i)
    (hroom : j + xs.length ≤ bd.length) (Q : Unit → Heap (Block α) × ρ → Prop) :
    wpe (copyUp (elem a i) (elem d j) xs.length) Q X s ↔
      Q () (s.1.setBlock d (blit bd j (xs.map some)), s.2) := by
  induction xs generalizing i j b bd s with
  | nil =>
    rw [length_nil, copyUp, wpe_pure, map_nil, blit, setBlock_same hd]
  | cons x xs ih =>
    rw [length_cons] at hroom
    obtain ⟨hx, hrest⟩ := prefix_drop_cons hxs
    obtain ⟨b', ha', hrest'⟩ := prefix_of_set (y := some x) ha hd hbefore hrest
    rw [length_cons, copyUp, wpe_bind, wpe_read ha hx, wpe_bind, wpe_write hd (by omega),
      elem_add_one, elem_add_one,
      ih ha' (setBlock_self hd) (fun had => Nat.succ_le_succ (hbefore had)) hrest'
        (by rw [length_set]; omega),
      map_cons, blit, setBlock_setBlock]

theorem wpe_shiftUp {len : Nat} (ha : s.1.cells a = some b) (hxs : xs.map some <+: b.drop i)
    (hroom : i + len + xs.length ≤ b.length) (Q : Unit → Heap (Block α) × ρ → Prop) :
    wpe (shiftUp (elem a i) len xs.length) Q X s ↔
      Q () (s.1.setBlock a (blit b (i + len) (xs.map some)), s.2) := by
  induction xs using reverseRecOn generalizing b s with
  | nil =>
    rw [length_nil, shiftUp, wpe_pure, map_nil, blit, setBlock_same ha]
  | append_singleton xs x ih =>
    rw [length_append, length_singleton] at hroom
    rw [map_append] at hxs
    obtain ⟨rest, hrest⟩ := hxs
    have hx : b[i + xs.length]? = some (some x) := by
      rw [← getElem?_drop, ← hrest]
      simp
    -- the others are before the place that has been written
    have hkept : xs.map some <+: (b.set (i + (xs.length + len)) (some x)).drop i := by
      rw [drop_set, if_neg (by omega), ← hrest, append_assoc,
        set_append_right _ _ (by rw [length_map]; omega)]
      exact prefix_append _ _
    rw [length_append, length_singleton, shiftUp, wpe_bind, elem_add, wpe_read ha hx,
      wpe_bind, elem_add, wpe_write ha (by omega),
      ih (setBlock_self ha) hkept (by rw [length_set]; omega), setBlock_setBlock,
      map_append, map_singleton, blit_concat, length_map,
      show i + len + xs.length = i + (xs.length + len) by omega]

theorem wpe_fill {n : Nat} (ha : s.1.cells a = some b) (hroom : i + n ≤ b.length)
    (Q : Unit → Heap (Block α) × ρ → Prop) :
    wpe (fill (elem a i) x n) Q X s ↔
      Q () (s.1.setBlock a (blit b i (List.replicate n (some x))), s.2) := by
  induction n generalizing i b s with
  | zero => rw [fill, wpe_pure, replicate_zero, blit, setBlock_same ha]
  | succ n ih =>
    rw [fill, wpe_bind, wpe_write ha (by omega), elem_add_one,
      ih (setBlock_self ha) (by rw [length_set]; omega), setBlock_setBlock,
      replicate_succ, blit]

end ArrayM

/-! ## Ownership -/

section ownership

variable {α O : Type} {base : O → Ptr}

/-- The arrays that are not of the object are as they were. -/
structure Kept (base : O → Ptr) (s s' : Heap (Block α) × O) : Prop where
  next_le : s.1.next ≤ s'.1.next
  others : ∀ a, a < s.1.next → base s.2 ≠ some a → s'.1.cells a = s.1.cells a
  own : base s'.2 = base s.2 ∨ ∀ a, base s'.2 = some a → s.1.next ≤ a

variable {s s' s'' : Heap (Block α) × O}

theorem Kept.refl (s : Heap (Block α) × O) : Kept base s s :=
  ⟨Nat.le_refl _, fun _ _ _ => rfl, Or.inl rfl⟩

theorem Kept.trans (h : Kept base s s') (h' : Kept base s' s'') : Kept base s s'' where
  next_le := h.next_le.trans h'.next_le
  others := by
    intro a ha hown
    have hown' : base s'.2 ≠ some a := by
      intro hbase
      rcases h.own with hsame | hnew
      · exact hown (hsame ▸ hbase)
      · exact absurd (hnew a hbase) (by omega)
    rw [h'.others a (by have := h.next_le; omega) hown', h.others a ha hown]
  own := by
    rcases h'.own with hsame | hnew
    · rw [hsame]
      exact h.own
    · exact Or.inr fun a ha => h.next_le.trans (hnew a ha)

variable {h : Heap (Block α)}

theorem Kept.setBlock {o o' : O} {a : Nat} (b : Block α) (ho : base o = some a)
    (ho' : base o' = some a) : Kept base (h, o) (h.setBlock a b, o') where
  next_le := Nat.le_refl _
  others := by
    intro c _ hc
    exact setBlock_ne fun hca => hc (hca ▸ ho)
  own := Or.inl (ho'.trans ho.symm)

theorem Kept.members {o o' : O} (ho : base o' = base o) : Kept base (h, o) (h, o') :=
  ⟨Nat.le_refl _, fun _ _ _ => rfl, Or.inl ho⟩

theorem Kept.replace {o o' : O} {a : Nat} (b : Block α) (ho : base o = some a)
    (ho' : base o' = some h.next) :
    Kept base (h, o) ((h.alloc b).free a, o') where
  next_le := Nat.le_succ _
  others := by
    intro c hc hown
    have hca : c ≠ a := fun hca => hown (hca ▸ ho)
    rw [free_ne _ hca, alloc_ne _ _ hc.ne]
  own := by
    refine Or.inr fun c hc => ?_
    rw [ho', Option.some_inj] at hc
    exact hc.le

variable {N : Type} {n n' : N} {o o' : O}

/-- No two objects own the same array. -/
structure Apart (base : O → Ptr) (next : Nat) (objs : Dict N O) : Prop where
  live : ∀ n o a, objs n = some o → base o = some a → a < next
  distinct : ∀ n n' o o' a, objs n = some o → objs n' = some o' → base o = some a →
    base o' = some a → n = n'

variable {h : Heap (Block α)} {next next' : Nat} {objs : Dict N O}

theorem apart_empty : Apart base next (fun _ => none : Dict N O) where
  live := by
    intro n o a hn
    cases hn
  distinct := by
    intro n n' o o' a hn
    cases hn

theorem Apart.cells_eq {a : Nat} (hapart : Apart base h.next objs) (hn : objs n = some o)
    (hkept : Kept base (h, o) s') (hn' : objs n' = some o') (hne : n' ≠ n)
    (ha : base o' = some a) : s'.1.cells a = h.cells a :=
  hkept.others a (hapart.live n' o' a hn' ha) fun hown =>
    hne (hapart.distinct n' n o' o a hn' hn ha hown)

theorem Apart.mono (hapart : Apart base next objs) (hnext : next ≤ next') : Apart base next' objs :=
  ⟨fun m p a hm ha => lt_of_lt_of_le (hapart.live m p a hm ha) hnext, hapart.distinct⟩

variable [DecidableEq N]

theorem Apart.assign_of (hapart : Apart base next objs) (hnext : next ≤ next')
    (hlive : ∀ a, base o = some a → a < next')
    (hother : ∀ m p a, m ≠ n → objs m = some p → base p = some a → base o ≠ some a) :
    Apart base next' (objs.assign n o) where
  live := by
    intro m p a hm ha
    by_cases hmn : m = n
    · subst hmn
      rw [assign_self, Option.some_inj] at hm
      exact hlive a (hm ▸ ha)
    · rw [assign_ne _ _ hmn] at hm
      exact lt_of_lt_of_le (hapart.live m p a hm ha) hnext
  distinct := by
    intro m m' p p' a hm hm' ha ha'
    by_cases hmn : m = n <;> by_cases hmn' : m' = n
    · rw [hmn, hmn']
    · subst hmn
      rw [assign_self, Option.some_inj] at hm
      rw [assign_ne _ _ hmn'] at hm'
      exact absurd (hm ▸ ha) (hother m' p' a hmn' hm' ha')
    · subst hmn'
      rw [assign_self, Option.some_inj] at hm'
      rw [assign_ne _ _ hmn] at hm
      exact absurd (hm' ▸ ha') (hother m p a hmn hm ha)
    · rw [assign_ne _ _ hmn] at hm
      rw [assign_ne _ _ hmn'] at hm'
      exact hapart.distinct m m' p p' a hm hm' ha ha'

theorem Apart.assign (hapart : Apart base h.next objs) (hn : objs n = some o)
    (hkept : Kept base (h, o) s') (hlive : ∀ a, base s'.2 = some a → a < s'.1.next) :
    Apart base s'.1.next (objs.assign n s'.2) := by
  refine hapart.assign_of hkept.next_le hlive fun m p a hmn hm ha hbase => ?_
  -- an array that was owned before is not new
  rcases hkept.own with hsame | hnew
  · exact hmn (hapart.distinct m n p o a hm hn ha (hsame ▸ hbase))
  · exact absurd (hapart.live m p a hm ha) (Nat.not_lt.mpr (hnew a hbase))

theorem Apart.construct (hapart : Apart base next objs) (n : N) (ho : base o = none) :
    Apart base next (objs.assign n o) := by
  refine hapart.assign_of (Nat.le_refl _) (fun a ha => ?_) fun m p a _ _ _ hbase => ?_
  · rw [ho] at ha
    cases ha
  · rw [ho] at hbase
    cases hbase

theorem Apart.erase (hapart : Apart base next objs) (n : N) : Apart base next (objs.erase n) := by
  have hold : ∀ m p, objs.erase n m = some p → objs m = some p := by
    intro m p hm
    by_cases hmn : m = n
    · simp [hmn] at hm
    · rwa [erase_ne _ hmn] at hm
  exact ⟨fun m p a hm => hapart.live m p a (hold m p hm),
    fun m m' p p' a hm hm' => hapart.distinct m m' p p' a (hold m p hm) (hold m' p' hm')⟩

end ownership

/-! ## Several objects -/

namespace ArrayM

open Exec

variable {α O β N : Type} [DecidableEq N]

def fetch (n : N) : ArrayM α (Dict N O) O := do
  match (← getObj) n with
  | none => throw (.fault .badAccess)
  | some o => pure o

def put (n : N) (o : O) : ArrayM α (Dict N O) Unit := do
  setObj ((← getObj).assign n o)

def drop (n : N) : ArrayM α (Dict N O) Unit := do
  setObj ((← getObj).erase n)

/-- A member function of one of several objects. -/
def on (n : N) (x : ArrayM α O β) : ArrayM α (Dict N O) β := fun s =>
  match s.2 n with
  | none => .error (.fault .badAccess) s
  | some o =>
      match x (s.1, o) with
      | .ok b s' => .ok b (s'.1, s.2.assign n s'.2)
      | .error e s' => .error e (s'.1, s.2.assign n s'.2)

/-- The construction of an object: there is none if it throws. -/
def constructing (n : N) (x : ArrayM α (Dict N O) Unit) : ArrayM α (Dict N O) Unit := fun s =>
  match x s with
  | .ok u s' => .ok u s'
  | .error e s' => .error e (s'.1, s'.2.erase n)

variable {s : Heap (Block α) × Dict N O} {n : N} {o : O}
  {X : Stop → Heap (Block α) × Dict N O → Prop}

omit [DecidableEq N] in
theorem wpe_fetch (hn : s.2 n = some o) (Q : O → Heap (Block α) × Dict N O → Prop) :
    wpe (fetch n) Q X s ↔ Q o s := by
  simp [fetch, hn]

@[simp] theorem wpe_put (o : O) (Q : Unit → Heap (Block α) × Dict N O → Prop) :
    wpe (put n o) Q X s ↔ Q () (s.1, s.2.assign n o) := by
  simp [put]

@[simp] theorem wpe_drop (Q : Unit → Heap (Block α) × Dict N O → Prop) :
    wpe (drop n) Q X s ↔ Q () (s.1, s.2.erase n) := by
  simp [drop]

theorem wpe_on (hn : s.2 n = some o) (x : ArrayM α O β) (Q : β → Heap (Block α) × Dict N O → Prop) :
    wpe (on n x) Q X s ↔ wpe x (fun b s' => Q b (s'.1, s.2.assign n s'.2))
      (fun e s' => X e (s'.1, s.2.assign n s'.2)) (s.1, o) := by
  unfold wpe on
  rw [hn]
  cases hx : x (s.1, o) <;> simp [hx]

theorem wpe_constructing (x : ArrayM α (Dict N O) Unit)
    (Q : Unit → Heap (Block α) × Dict N O → Prop) :
    wpe (constructing n x) Q X s ↔ wpe x Q (fun e s' => X e (s'.1, s'.2.erase n)) s := by
  unfold wpe constructing
  cases x s <;> rfl

end ArrayM

end CallLesson
