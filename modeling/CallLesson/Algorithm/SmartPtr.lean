import CallLesson.Framework.Memory
import CallLesson.Framework.Exec
import CallLesson.Framework.System

/-! # `zhc::shared_ptr`

    Model of `shared_ptr` in `SmartPtr.hpp`: a pointer to the object and a pointer to a
    count, which the owners of the object share. A program has any number of `shared_ptr`s,
    which it names; some are members of objects, and to delete an object is to destroy
    these first, in nested calls. The objects and the counts are in two memories; where a new one is
    allocated is up to the allocator, as long as the address is free. -/

namespace CallLesson.Algorithm.SmartPtr

open Exec

/-! ## Model -/

structure SharedPtr where
  ptr : Option Nat
  countPtr : Nat
  deriving DecidableEq

structure World (I : Type) where
  ptrs : Dict I SharedPtr
  /-- The objects, each with those of its members that are `shared_ptr`s. -/
  objects : Memory (List I)
  counts : Memory Int

inductive Call (I : Type) where
  /-- With an object that `new` has made, or with null. -/
  | construct (this : I) (obj : Option (Nat × List I)) (cell : Nat)
  | copy (this ps : I)
  | assign (this ps : I)
  | destroy (this : I)
  deriving DecidableEq

abbrev SharedM (I : Type) := EStateM Fault (World I)

def toInt (n : Int) : Int := n.bmod (2 ^ 32)

section model

variable {I : Type}

def fetch (this : I) : SharedM I SharedPtr := do
  match (← get).ptrs this with
  | none => throw .badAccess
  | some p => pure p

def loadCount (c : Nat) : SharedM I Int := do
  match (← get).counts.cells c with
  | none => throw .badAccess
  | some n => pure n.2

def storeCount (c : Nat) (n : Int) : SharedM I Unit :=
  modify fun s => { s with counts := s.counts.store c n }

def incr (c : Nat) : SharedM I Unit := do
  storeCount c (toInt ((← loadCount c) + 1))

def decr (c : Nat) : SharedM I Int := do
  let n := toInt ((← loadCount c) - 1)
  storeCount c n
  pure n

def deleteObject (a : Nat) : SharedM I Unit := do
  let s ← get
  match s.objects.delete a with
  | none => throw .badAccess
  | some objects => set { s with objects }

/-- `delete` runs the destructors of the members, and then frees the object. -/
def del (destroy : I → SharedM I Unit) (p : Option Nat) : SharedM I Unit := do
  match p with
  | none => pure ()
  | some a =>
      match (← get).objects.cells a with
      | none => throw .badAccess
      | some obj =>
          runAll destroy obj.2
          deleteObject a

def deleteCount (c : Nat) : SharedM I Unit := do
  let s ← get
  match s.counts.delete c with
  | none => throw .badAccess
  | some counts => set { s with counts }

def release (destroy : I → SharedM I Unit) (this : I) : SharedM I Unit := do
  let n ← decr (← fetch this).countPtr
  if n = 0 then
    del destroy (← fetch this).ptr
    deleteCount (← fetch this).countPtr
  else pure ()

def newObject (obj : Option (Nat × List I)) : SharedM I Unit := do
  match obj with
  | none => pure ()
  | some (a, ms) =>
      let s ← get
      match s.objects.new a ms with
      | none => throw .badAccess
      | some objects => set { s with objects }

def newCount (cell : Nat) : SharedM I Unit := do
  let s ← get
  match s.counts.new cell 1 with
  | none => throw .badAccess
  | some counts => set { s with counts }

variable [DecidableEq I]

/-- Destructors that are nested deeper than `depth` overflow the stack. -/
def destroy : Nat → I → SharedM I Unit
  | 0, _ => throw .stackOverflow
  | depth + 1, this => do
      release (destroy depth) this
      modify fun s => { s with ptrs := s.ptrs.erase this }

def put (this : I) (p : SharedPtr) : SharedM I Unit :=
  modify fun s => { s with ptrs := s.ptrs.assign this p }

def construct (this : I) (obj : Option (Nat × List I)) (cell : Nat) : SharedM I Unit := do
  newObject obj
  newCount cell
  put this ⟨obj.map Prod.fst, cell⟩

def copy (this ps : I) : SharedM I Unit := do
  put this (← fetch ps)
  incr (← fetch this).countPtr

def assign (depth : Nat) (this ps : I) : SharedM I Unit := do
  if (← fetch this).ptr ≠ (← fetch ps).ptr then
    release (destroy depth) this
    put this (← fetch ps)
    incr (← fetch this).countPtr
  else pure ()

def exec (depth : Nat) : Call I → SharedM I Unit
  | .construct this obj cell => construct this obj cell
  | .copy this ps => copy this ps
  | .assign this ps => assign depth this ps
  | .destroy this => destroy (depth + 1) this

def Valid (s : World I) : Call I → Prop
  | .construct this obj cell =>
      s.ptrs this = none ∧ s.counts.cells cell = none ∧
        ∀ a ms, obj = some (a, ms) → s.objects.cells a = none
  | .copy this ps => s.ptrs this = none ∧ s.ptrs ps ≠ none
  | .assign this ps => s.ptrs this ≠ none ∧ s.ptrs ps ≠ none
  | .destroy this => s.ptrs this ≠ none

def start (I : Type) : World I := ⟨Dict.empty, Memory.empty, Memory.empty⟩

def runs (I : Type) [DecidableEq I] (depth : Nat) : System (World I) (Call I) where
  init s := s = start I
  step s c s' := Valid s c ∧ exec depth c s = .ok () s'

def cellOf (d : Dict I SharedPtr) : Dict I Nat := fun i => (d i).map SharedPtr.countPtr

def owners (s : World I) (c : Nat) : Set I := (cellOf s.ptrs).holders c

/-- If `p` is the last owner of an object, then the object has no `shared_ptr`s in it. -/
def Plain (s : World I) (p : SharedPtr) : Prop :=
  ∀ a obj, p.ptr = some a → s.objects.cells a = some obj → (owners s p.countPtr).ncard = 1 →
    obj.2 = []

/-- No count gets a 2^31st owner, and no object with `shared_ptr`s in it is deleted. -/
def Safe (s : World I) : Call I → Prop
  | .construct _ _ _ => True
  | .copy _ ps => ∀ q, s.ptrs ps = some q → (owners s q.countPtr).ncard < 2 ^ 31 - 1
  | .assign this ps => ∀ p q, s.ptrs this = some p → s.ptrs ps = some q → p.ptr ≠ q.ptr →
      (owners s q.countPtr).ncard < 2 ^ 31 - 1 ∧ Plain s p
  | .destroy this => ∀ p, s.ptrs this = some p → Plain s p

end model

/-! ## Ownership -/

open Option Dict Function

section ownership

variable {I : Type} {P : Dict I SharedPtr} {O : Nat → Prop} {C : Nat → Option Int} {i j : I}
  {p q : SharedPtr} {c : Nat}

noncomputable def uses (P : Dict I SharedPtr) (c : Nat) : Nat := ((cellOf P).holders c).ncard

/-- The pointers `P` are the owners of the objects `O` with the counts `C`. -/
structure Owned (P : Dict I SharedPtr) (O : Nat → Prop) (C : Nat → Option Int) : Prop where
  finite : P.IsFinite
  count : ∀ c, C c = if uses P c = 0 then none else some (uses P c : Int)
  small : ∀ c, uses P c < 2 ^ 31
  object : ∀ a, O a ↔ ∃ i p, P i = some p ∧ p.ptr = some a
  same : ∀ {i j p q}, P i = some p → P j = some q → p.countPtr = q.countPtr → p.ptr = q.ptr
  shared : ∀ {i j p q}, P i = some p → P j = some q → p.ptr = q.ptr → p.ptr ≠ none →
    p.countPtr = q.countPtr

theorem isFinite_cellOf (hP : P.IsFinite) : (cellOf P).IsFinite := by
  refine Set.Finite.subset hP fun i hi => ?_
  simpa [cellOf] using hi

theorem uses_pos (hP : P.IsFinite) (hi : P i = some p) : 0 < uses P p.countPtr := by
  refine (Set.ncard_pos ((isFinite_cellOf hP).holders _)).mpr ⟨i, ?_⟩
  simp [holders, cellOf, hi]

theorem Owned.cell (h : Owned P O C) (hi : P i = some p) :
    C p.countPtr = some (uses P p.countPtr : Int) := by
  rw [h.count, if_neg (uses_pos h.finite hi).ne']

theorem toInt_of_lt {n : Nat} (hn : n < 2 ^ 31) : toInt n = n :=
  Int.bmod_eq_of_le (by omega) (by omega)

variable [DecidableEq I]

theorem cellOf_assign : cellOf (P.assign i p) = (cellOf P).assign i p.countPtr := by
  funext j
  by_cases hj : j = i
  · simp [cellOf, hj]
  · simp [cellOf, hj]

theorem cellOf_erase : cellOf (P.erase i) = (cellOf P).erase i := by
  funext j
  by_cases hj : j = i
  · simp [cellOf, hj]
  · simp [cellOf, hj]

theorem uses_assign (hP : P.IsFinite) (hi : P i = none) (c : Nat) :
    uses (P.assign i p) c = uses P c + if c = p.countPtr then 1 else 0 := by
  have hcell : cellOf P i = none := by simp [cellOf, hi]
  rw [uses, cellOf_assign]
  by_cases hc : c = p.countPtr
  · rw [if_pos hc, hc, ncard_holders_assign (isFinite_cellOf hP) hcell]
    rfl
  · rw [if_neg hc, holders_assign_ne hcell hc]
    rfl

theorem uses_erase (hP : P.IsFinite) (hi : P i = some p) (c : Nat) :
    uses (P.erase i) c + (if c = p.countPtr then 1 else 0) = uses P c := by
  have hcell : cellOf P i = some p.countPtr := by simp [cellOf, hi]
  rw [uses, cellOf_erase]
  by_cases hc : c = p.countPtr
  · rw [if_pos hc, hc]
    exact ncard_holders_erase (isFinite_cellOf hP) hcell
  · rw [if_neg hc, holders_erase_ne hcell hc]
    rfl

theorem eq_or_of_assign {k : I} (hk : P.assign i p k = some q) : q = p ∨ k ≠ i ∧ P k = some q := by
  by_cases hki : k = i
  · rw [hki, assign_self, some_inj] at hk
    exact Or.inl hk.symm
  · rw [assign_ne _ _ hki] at hk
    exact Or.inr ⟨hki, hk⟩

theorem of_erase {κ α : Type} [DecidableEq κ] {d : Dict κ α} {i k : κ} {q : α}
    (hk : d.erase i k = some q) : k ≠ i ∧ d k = some q := by
  by_cases hki : k = i
  · rw [hki, erase_self] at hk
    cases hk
  · rw [erase_ne _ hki] at hk
    exact ⟨hki, hk⟩

theorem assign_of_ne {k : I} (hi : P i = none) (hk : P k = some q) : P.assign i p k = some q := by
  have hki : k ≠ i := by
    rintro rfl
    rw [hi] at hk
    cases hk
  rw [assign_ne _ _ hki, hk]

namespace Owned

theorem add (h : Owned P O C) (hi : P i = none) (hj : P j = some p)
    (hroom : uses P p.countPtr < 2 ^ 31 - 1) :
    Owned (P.assign i p) O (update C p.countPtr (some (uses P p.countPtr + 1))) := by
  have huses := uses_assign (p := p) h.finite hi
  -- what the new pointer has, another one has too
  have hold : ∀ {k q}, P.assign i p k = some q → ∃ m, P m = some q := fun hk =>
    (eq_or_of_assign hk).elim (fun hq => ⟨j, hq ▸ hj⟩) fun hq => ⟨_, hq.2⟩
  refine ⟨h.finite.assign, fun c => ?_, fun c => ?_, fun a => ?_, fun hk hk' => ?_,
    fun hk hk' => ?_⟩
  · rw [huses]
    by_cases hc : c = p.countPtr
    · simp [hc]
    · rw [update_of_ne hc, if_neg hc, h.count, Nat.add_zero]
  · rw [huses]
    have := h.small c
    by_cases hc : c = p.countPtr
    · rw [if_pos hc, hc]
      omega
    · rw [if_neg hc]
      omega
  · rw [h.object a]
    constructor
    · rintro ⟨k, q, hk, hq⟩
      exact ⟨k, q, assign_of_ne hi hk, hq⟩
    · rintro ⟨k, q, hk, hq⟩
      obtain ⟨m, hm⟩ := hold hk
      exact ⟨m, q, hm, hq⟩
  · exact h.same (hold hk).choose_spec (hold hk').choose_spec
  · exact h.shared (hold hk).choose_spec (hold hk').choose_spec

theorem drop (h : Owned P O C) (hi : P i = some p) (hmore : uses P p.countPtr ≠ 1) :
    Owned (P.erase i) O (update C p.countPtr (some (uses P p.countPtr - 1))) := by
  have huses := uses_erase h.finite hi
  have hself := huses p.countPtr
  rw [if_pos rfl] at hself
  refine ⟨h.finite.erase, fun c => ?_, fun c => ?_, fun a => ?_,
    fun hk hk' => h.same (of_erase hk).2 (of_erase hk').2,
    fun hk hk' => h.shared (of_erase hk).2 (of_erase hk').2⟩
  · by_cases hc : c = p.countPtr
    · rw [hc, update_self, if_neg (by omega), ← hself]
      simp
    · have := huses c
      rw [if_neg hc, Nat.add_zero] at this
      rw [update_of_ne hc, h.count, this]
  · have := huses c
    have := h.small c
    omega
  · rw [h.object a]
    constructor
    · rintro ⟨k, q, hk, hq⟩
      by_cases hki : k = i
      · -- another owner of the count owns the object
        obtain rfl : p = q := by
          rw [hki, hi] at hk
          exact some_inj.mp hk
        have hother : ((cellOf (P.erase i)).holders p.countPtr).Nonempty := by
          refine Set.nonempty_of_ncard_ne_zero fun hzero => ?_
          rw [← uses] at hzero
          omega
        obtain ⟨k', hk'⟩ := hother
        obtain ⟨q, hq', hcell⟩ := map_eq_some_iff.mp hk'
        exact ⟨k', q, hq', (h.same (of_erase hq').2 hi hcell).trans hq⟩
      · exact ⟨k, q, by rw [erase_ne _ hki, hk], hq⟩
    · rintro ⟨k, q, hk, hq⟩
      exact ⟨k, q, (of_erase hk).2, hq⟩

theorem last (h : Owned P O C) (hi : P i = some p) (hone : uses P p.countPtr = 1) :
    Owned (P.erase i) (fun a => p.ptr ≠ some a ∧ O a) (update C p.countPtr none) := by
  have huses := uses_erase h.finite hi
  have hself := huses p.countPtr
  rw [if_pos rfl] at hself
  -- nobody else has the count
  have hothers : ∀ {k q}, P.erase i k = some q → q.countPtr ≠ p.countPtr := by
    intro k q hk hq
    have hpos := uses_pos h.finite.erase hk
    rw [hq] at hpos
    omega
  refine ⟨h.finite.erase, fun c => ?_, fun c => ?_, fun a => ?_,
    fun hk hk' => h.same (of_erase hk).2 (of_erase hk').2,
    fun hk hk' => h.shared (of_erase hk).2 (of_erase hk').2⟩
  · by_cases hc : c = p.countPtr
    · rw [hc, update_self, if_pos (by omega)]
    · have := huses c
      rw [if_neg hc, Nat.add_zero] at this
      rw [update_of_ne hc, h.count, this]
  · have := huses c
    have := h.small c
    omega
  · rw [h.object a]
    constructor
    · rintro ⟨ha, k, q, hk, hq⟩
      have hki : k ≠ i := by
        rintro rfl
        exact ha (some_inj.mp (hi.symm.trans hk) ▸ hq)
      exact ⟨k, q, by rw [erase_ne _ hki, hk], hq⟩
    · rintro ⟨k, q, hk, hq⟩
      refine ⟨fun ha => hothers hk ?_, k, q, (of_erase hk).2, hq⟩
      exact h.shared (of_erase hk).2 hi (hq.trans ha.symm) (by rw [hq]; simp)

theorem first (h : Owned P O C) (hi : P i = none) (hcell : C p.countPtr = none)
    (hfresh : ∀ a, p.ptr = some a → ¬ O a) :
    Owned (P.assign i p) (fun a => p.ptr = some a ∨ O a) (update C p.countPtr (some 1)) := by
  have huses := uses_assign (p := p) h.finite hi
  have hzero : uses P p.countPtr = 0 := by
    by_contra hne
    rw [h.count, if_neg hne] at hcell
    cases hcell
  -- nobody else has the count or the object
  have hcellOther : ∀ {k q}, P k = some q → q.countPtr ≠ p.countPtr := by
    intro k q hk hq
    have hpos := uses_pos h.finite hk
    rw [hq] at hpos
    omega
  have hptrOther : ∀ {k q}, P k = some q → q.ptr ≠ none → q.ptr ≠ p.ptr := by
    intro k q hk hq hpq
    obtain ⟨a, ha⟩ := ne_none_iff_exists'.mp hq
    exact hfresh a (hpq ▸ ha) ((h.object a).mpr ⟨k, q, hk, ha⟩)
  refine ⟨h.finite.assign, fun c => ?_, fun c => ?_, fun a => ?_, fun hk hk' hc => ?_,
    fun hk hk' hptr hne => ?_⟩
  · rw [huses]
    by_cases hc : c = p.countPtr
    · simp [hc, hzero]
    · rw [update_of_ne hc, if_neg hc, h.count, Nat.add_zero]
  · rw [huses]
    have := h.small c
    by_cases hc : c = p.countPtr
    · rw [if_pos hc, hc]
      omega
    · rw [if_neg hc]
      omega
  · rw [h.object a]
    constructor
    · rintro (ha | ⟨k, q, hk, hq⟩)
      · exact ⟨i, p, assign_self _ _ _, ha⟩
      · exact ⟨k, q, assign_of_ne hi hk, hq⟩
    · rintro ⟨k, q, hk, hq⟩
      rcases eq_or_of_assign hk with rfl | ⟨-, hk⟩
      · exact Or.inl hq
      · exact Or.inr ⟨k, q, hk, hq⟩
  · rcases eq_or_of_assign hk with hp | ⟨-, hold⟩ <;>
      rcases eq_or_of_assign hk' with hq | ⟨-, hold'⟩
    · rw [hp, hq]
    · exact absurd (hp ▸ hc.symm) (hcellOther hold')
    · exact absurd (hq ▸ hc) (hcellOther hold)
    · exact h.same hold hold' hc
  · rcases eq_or_of_assign hk with hp | ⟨-, hold⟩ <;>
      rcases eq_or_of_assign hk' with hq | ⟨-, hold'⟩
    · rw [hp, hq]
    · exact absurd (hp ▸ hptr.symm) (hptrOther hold' (hptr ▸ hne))
    · exact absurd (hq ▸ hptr) (hptrOther hold hne)
    · exact h.shared hold hold' hptr hne

end Owned

end ownership

/-! ## Member functions -/

section functions

variable {I : Type} {s : World I} {P : Dict I SharedPtr} {i j : I} {p q : SharedPtr} {c depth : Nat}
  {E : World I → Prop} {Q : Unit → World I → Prop}

def live (objects : Memory (List I)) (a : Nat) : Prop := (objects.cells a).isSome

def vals (counts : Memory Int) (c : Nat) : Option Int := (counts.cells c).map Prod.snd

theorem vals_update {counts counts' : Memory Int} {x : Option Int}
    (hself : (counts'.cells c).map Prod.snd = x) (hothers : ∀ d, d ≠ c → counts'.cells d = counts.cells d) :
    vals counts' = update (vals counts) c x := by
  funext d
  by_cases hd : d = c
  · rw [hd, update_self, vals, hself]
  · rw [update_of_ne hd, vals, vals, hothers d hd]

theorem exists_cell (h : Owned P (live s.objects) (vals s.counts)) (hi : P i = some p) :
    ∃ id, s.counts.cells p.countPtr = some (id, (uses P p.countPtr : Int)) := by
  obtain ⟨⟨id, _⟩, hcell, rfl⟩ := map_eq_some_iff.mp (h.cell hi)
  exact ⟨id, hcell⟩

section heaps

variable {ptrs : Dict I SharedPtr} {objects : Memory (List I)} {counts : Memory Int}

theorem wp_fetch (hi : ptrs i = some p) (Q : SharedPtr → World I → Prop) :
    wp (fetch i) Q E ⟨ptrs, objects, counts⟩ ↔ Q p ⟨ptrs, objects, counts⟩ := by
  simp [fetch, hi]

theorem wp_loadCount {x : Nat × Int} (hc : counts.cells c = some x) (Q : Int → World I → Prop) :
    wp (loadCount c) Q E ⟨ptrs, objects, counts⟩ ↔ Q x.2 ⟨ptrs, objects, counts⟩ := by
  simp [loadCount, hc]

@[simp] theorem wp_storeCount (x : Int) (Q : Unit → World I → Prop) :
    wp (storeCount c x) Q E s ↔ Q () { s with counts := s.counts.store c x } := by
  simp [storeCount]

theorem wp_del {d : I → SharedM I Unit} {a : Nat} {x : Nat × List I}
    (ha : objects.cells a = some x) (hplain : x.2 = []) (Q : Unit → World I → Prop) :
    wp (del d (some a)) Q E ⟨ptrs, objects, counts⟩ ↔ Q () ⟨ptrs, objects.free a x ha, counts⟩ := by
  simp [del, ha, hplain, runAll, deleteObject, Memory.delete_of_some ha]

theorem wp_deleteCount {x : Nat × Int} (hc : counts.cells c = some x) (Q : Unit → World I → Prop) :
    wp (deleteCount c) Q E ⟨ptrs, objects, counts⟩ ↔ Q () ⟨ptrs, objects, counts.free c x hc⟩ := by
  simp [deleteCount, Memory.delete_of_some hc]

end heaps

variable [DecidableEq I]

theorem wp_release {d : I → SharedM I Unit} (h : Owned P (live s.objects) (vals s.counts)) (hs : s.ptrs i = some p)
    (hi : P i = some p) (hplain : ∀ a obj, p.ptr = some a → s.objects.cells a = some obj →
      uses P p.countPtr = 1 → obj.2 = [])
    (hQ : ∀ objects counts, Owned (P.erase i) (live objects) (vals counts) →
      Q () ⟨s.ptrs, objects, counts⟩) :
    wp (release d i) Q E s := by
  obtain ⟨id, hid⟩ := exists_cell h hi
  have hpos := uses_pos h.finite hi
  have hsmall := h.small p.countPtr
  have hint : toInt ((uses P p.countPtr : Int) - 1) = uses P p.countPtr - 1 := by
    have := toInt_of_lt (n := uses P p.countPtr - 1) (by omega)
    rwa [Nat.cast_sub hpos, Nat.cast_one] at this
  have hstored := Memory.store_self s.counts (x := (uses P p.countPtr - 1 : Int)) hid
  rw [release, wp_bind, wp_fetch hs, wp_bind, decr, wp_bind, wp_loadCount hid, wp_bind,
    wp_storeCount, wp_pure, hint]
  by_cases hone : uses P p.countPtr = 1
  · have hlast := h.last hi hone
    have hvals : vals ((s.counts.store _ _).free _ _ hstored) = update (vals s.counts) p.countPtr none :=
      vals_update (by simp) fun c hc => by simp [hc]
    rw [← hvals] at hlast
    rw [if_pos (by omega), wp_bind, wp_fetch hs, wp_bind]
    cases hptr : p.ptr with
    | none =>
      rw [del, wp_pure, wp_bind, wp_fetch hs, wp_deleteCount hstored]
      exact hQ _ _ (by simpa [hptr] using hlast)
    | some a =>
      obtain ⟨x, hx⟩ := isSome_iff_exists.mp ((h.object a).mpr ⟨i, p, hi, hptr⟩)
      rw [wp_del hx (hplain a x hptr hx hone), wp_bind, wp_fetch hs, wp_deleteCount hstored]
      have hlive : live (s.objects.free a x hx) = fun b => p.ptr ≠ some b ∧ live s.objects b := by
        funext b
        by_cases hb : b = a
        · simp [live, hb, hptr]
        · simp [live, hb, hptr, Ne.symm hb]
      exact hQ _ _ (hlive ▸ hlast)
  · rw [if_neg (by omega), wp_pure]
    refine hQ s.objects _ ?_
    rw [vals_update (by rw [hstored]) fun c hc => Memory.store_ne _ hc]
    exact h.drop hi hone

@[simp] theorem wp_put (Q : Unit → World I → Prop) :
    wp (put i p) Q E s ↔ Q () { s with ptrs := s.ptrs.assign i p } := by
  simp [put]

/-- The pointer `i`, which owns nothing, gets what `j` has. -/
theorem wp_adopt (h : Owned P (live s.objects) (vals s.counts)) (hi : P i = none) (hj : P j = some q)
    (hs : s.ptrs j = some q) (hptrs : s.ptrs.assign i q = P.assign i q)
    (hroom : uses P q.countPtr < 2 ^ 31 - 1) :
    wp (do put i (← fetch j); incr (← fetch i).countPtr)
      (fun _ s' => Owned s'.ptrs (live s'.objects) (vals s'.counts)) E s := by
  obtain ⟨id, hid⟩ := exists_cell h hj
  have hint : toInt ((uses P q.countPtr : Int) + 1) = uses P q.countPtr + 1 := by
    exact_mod_cast toInt_of_lt (n := uses P q.countPtr + 1) (by omega)
  rw [wp_bind, wp_fetch hs, wp_bind, wp_put, wp_bind, wp_fetch (assign_self _ _ _), incr, wp_bind,
    wp_loadCount hid, wp_storeCount, hint, hptrs]
  rw [vals_update (by rw [Memory.store_self _ hid]) fun c hc => Memory.store_ne _ hc]
  exact h.add hi hj hroom

variable (h : Owned s.ptrs (live s.objects) (vals s.counts))

include h

theorem wp_construct {obj : Option (Nat × List I)} {cell : Nat}
    (hvalid : Valid s (.construct i obj cell)) :
    wp (construct i obj cell) (fun _ s' => Owned s'.ptrs (live s'.objects) (vals s'.counts)) E s := by
  obtain ⟨hi, hcell, hobj⟩ := hvalid
  have hfree : vals s.counts cell = none := by simp [vals, hcell]
  have hvals : vals (s.counts.alloc cell 1 hcell) = update (vals s.counts) cell (some 1) :=
    vals_update (by rw [Memory.alloc_self]; rfl) fun d hd => Memory.alloc_ne _ _ hd
  rw [construct, wp_bind]
  cases obj with
  | none =>
    simp only [newObject, newCount, wp_pure, wp_bind, wp_get, Memory.new_of_none hcell, wp_set,
      wp_put]
    have hfirst := h.first (p := ⟨none, cell⟩) hi hfree (by simp)
    rw [← hvals] at hfirst
    simpa using hfirst
  | some ax =>
    obtain ⟨a, ms⟩ := ax
    have ha := hobj a ms rfl
    simp only [newObject, newCount, wp_bind, wp_get, Memory.new_of_none ha,
      Memory.new_of_none hcell, wp_set, wp_put]
    have hfirst := h.first (p := ⟨some a, cell⟩) hi hfree (by simp [live, ha])
    have hlive : live (s.objects.alloc a ms ha) = fun b => some a = some b ∨ live s.objects b := by
      funext b
      by_cases hb : b = a
      · simp [live, hb]
      · simp [live, hb, Ne.symm hb]
    rwa [← hvals, ← hlive] at hfirst

theorem wp_copy (hvalid : Valid s (.copy i j)) (hsafe : Safe s (.copy i j)) :
    wp (copy i j) (fun _ s' => Owned s'.ptrs (live s'.objects) (vals s'.counts)) E s := by
  obtain ⟨hi, hj⟩ := hvalid
  obtain ⟨q, hq⟩ := ne_none_iff_exists'.mp hj
  exact wp_adopt h hi hq hq rfl (hsafe q hq)

theorem wp_assign (hvalid : Valid s (.assign i j)) (hsafe : Safe s (.assign i j)) :
    wp (assign depth i j) (fun _ s' => Owned s'.ptrs (live s'.objects) (vals s'.counts)) E s := by
  obtain ⟨hi, hj⟩ := hvalid
  obtain ⟨p, hp⟩ := ne_none_iff_exists'.mp hi
  obtain ⟨q, hq⟩ := ne_none_iff_exists'.mp hj
  rw [assign, wp_bind, wp_fetch hp, wp_bind, wp_fetch hq]
  by_cases hne : p.ptr ≠ q.ptr
  · obtain ⟨hroom, hplain⟩ := hsafe p q hp hq hne
    have hji : j ≠ i := by
      rintro rfl
      exact hne (congrArg SharedPtr.ptr (some_inj.mp (hp.symm.trans hq)))
    rw [if_pos hne, wp_bind]
    refine wp_release h hp hp hplain fun objects counts h' => ?_
    -- between the two, the pointer owns nothing
    have huses := uses_erase h.finite hp q.countPtr
    refine wp_adopt h' (erase_self _ _) ((erase_ne _ hji).trans hq) hq (assign_erase _ _ _).symm ?_
    rw [owners, ← uses] at hroom
    omega
  · rw [if_neg hne, wp_pure]
    exact h

theorem wp_destroy (hvalid : Valid s (.destroy i)) (hsafe : Safe s (.destroy i)) :
    wp (destroy (depth + 1) i) (fun _ s' => Owned s'.ptrs (live s'.objects) (vals s'.counts)) E s := by
  obtain ⟨p, hp⟩ := ne_none_iff_exists'.mp hvalid
  rw [destroy, wp_bind]
  refine wp_release h hp hp (hsafe p hp) fun objects counts h' => ?_
  rw [wp_modify]
  exact h'

theorem wp_exec (depth : ℕ) {c : Call I} (hvalid : Valid s c) (hsafe : Safe s c) :
    wp (exec depth c) (fun _ s' => Owned s'.ptrs (live s'.objects) (vals s'.counts)) E s := by
  cases c with
  | construct i obj cell => exact wp_construct h hvalid
  | copy i j => exact wp_copy h hvalid hsafe
  | assign i j => exact wp_assign h hvalid hsafe
  | destroy i => exact wp_destroy h hvalid hsafe

end functions

/-! ## Runs -/

section runs

variable {I : Type} {s : World I} {depth : Nat}

namespace Owned

variable {id : Nat} (h : Owned s.ptrs (live s.objects) (vals s.counts))

include h

end Owned

variable [DecidableEq I]

end runs

end CallLesson.Algorithm.SmartPtr
