import CallLesson.Framework.Arrays
import CallLesson.Framework.System

/-! # `zhc::vector`

    Model of `Vector.hpp`: an array with spare room, given by three pointers into it. They
    are all null before the first allocation. A program has any number of vectors, which it
    names; the arrays of all of them are in one heap. Two member functions work with a
    vector of their own, which they destroy when they return: the copy constructor with
    `tmp`, and `operator=` with its argument.

    A `const T&` argument is a value outside of all arrays or an element of one, which is
    read when the member function uses it. What the overloads for temporaries print is left
    out. -/

namespace CallLesson.Algorithm.ZhcVector

open ArrayM Exec

/-! ## Model -/

structure Vec where
  start : ElemPtr
  finish : ElemPtr
  endofstorage : ElemPtr
  deriving DecidableEq

namespace Vec

def null : Vec := ⟨.null, .null, .null⟩

def base (v : Vec) : Ptr := v.start.base

def size (v : Vec) : Nat := sizeT (v.finish.idx - v.start.idx)

def capacity (v : Vec) : Nat := sizeT (v.endofstorage.idx - v.start.idx)

def newCapacity (v : Vec) : Nat := if v.capacity = 0 then 4 else sizeT (v.capacity * 2)

end Vec

inductive Arg (T : Type) where
  | value (x : T)
  | element (p : ElemPtr)
  deriving DecidableEq

section members

variable {T ρ : Type}

def Arg.get : Arg T → ArrayM T ρ T
  | .value x => pure x
  | .element p => read p

def at_ (pos : Nat) : ArrayM T Vec T := do
  let v ← getObj
  check (pos < v.size)
  read (v.start + (pos : Int))

def reserve (n : Nat) : ArrayM T Vec Unit := do
  let v ← getObj
  whenever (v.capacity < n) do
    let oldSize := v.size
    let tmp ← newArray n
    whenever (v.start ≠ .null) do
      copyUp v.start tmp oldSize
      deleteArray v.start
    setObj ⟨tmp, tmp + (oldSize : Int), tmp + (n : Int)⟩

def resizeLoop (val : T) : Nat → ArrayM T Vec Unit
  | 0 => pure ()
  | k + 1 => do
      let v ← getObj
      write v.finish val
      setObj { v with finish := v.finish + (1 : Int) }
      resizeLoop val k

def resize (n : Nat) (val : T) : ArrayM T Vec Unit := do
  let v ← getObj
  whenever (v.capacity < n) (reserve n)
  let v ← getObj
  if v.size < n then resizeLoop val (n - v.size)
  else setObj { v with finish := v.start + (n : Int) }

def makeRoom : ArrayM T Vec Unit := do
  let v ← getObj
  whenever (v.finish = v.endofstorage) (reserve v.newCapacity)

def pushBack (x : Arg T) : ArrayM T Vec Unit := do
  makeRoom
  let v ← getObj
  write v.finish (← x.get)
  setObj { v with finish := v.finish + (1 : Int) }

def popBack : ArrayM T Vec Unit := do
  let v ← getObj
  -- `assert(!empty())`
  check (v.finish ≠ v.start)
  setObj { v with finish := v.finish + (-1 : Int) }

def insertAt (pos : ElemPtr) (val : Arg T) : ArrayM T Vec ElemPtr := do
  let v ← getObj
  shiftUp pos 1 (v.finish.idx - pos.idx).toNat
  write pos (← val.get)
  setObj { v with finish := v.finish + (1 : Int) }
  pure pos

def insert (pos : ElemPtr) (val : Arg T) : ArrayM T Vec ElemPtr := do
  let v ← getObj
  check (v.start.le pos ∧ pos.le v.finish ∧ pos ≠ v.finish)
  makeRoom
  -- after a growth the position is that in the new array
  let start := (← getObj).start
  let pos := if v.finish = v.endofstorage then start + (pos.idx - v.start.idx) else pos
  insertAt pos val

def erase (pos : ElemPtr) : ArrayM T Vec ElemPtr := do
  let v ← getObj
  check (v.start.le pos ∧ pos.le v.finish ∧ pos ≠ v.finish)
  -- `begin` goes from `pos + 1` up to `_finish - 1`
  copyUp (pos + (1 : Int)) pos (v.finish.idx - pos.idx - 1).toNat
  setObj { v with finish := v.finish + (-1 : Int) }
  pure pos

def clear : ArrayM T Vec Unit := do
  let v ← getObj
  setObj { v with finish := v.start }

def release : ArrayM T Vec Unit := do
  let v ← getObj
  deleteArray v.start
  setObj Vec.null

end members

inductive Call (I T : Type) where
  | construct (i : I)
  | ofCount (i : I) (n : Nat) (x : T)
  | copy (i j : I)
  | assign (i j : I)
  | swap (i j : I)
  | destroy (i : I)
  | pushBack (i : I) (x : T)
  | popBack (i : I)
  | insert (i : I) (n : Nat) (x : T)
  | erase (i : I) (n : Nat)
  | resize (i : I) (n : Nat) (x : T)
  | reserve (i : I) (n : Nat)
  | clear (i : I)
  deriving DecidableEq

abbrev VectorsM (I T : Type) := ArrayM T (Dict (ObjName I) Vec)

section objects

variable {I T : Type} [DecidableEq I]

def destroy (this : ObjName I) : VectorsM I T Unit := do
  on this release
  drop this

def rangeLoop (this : ObjName I) : Nat → ElemPtr → VectorsM I T Unit
  | 0, _ => pure ()
  | k + 1, first => do
      on this (pushBack (.element first))
      rangeLoop this k (first + (1 : Int))

def ofRange (this : ObjName I) (first last : ElemPtr) : VectorsM I T Unit :=
  constructing this do
    put this Vec.null
    rangeLoop this (last.idx - first.idx).toNat first

def countLoop (this : ObjName I) (val : T) : Nat → VectorsM I T Unit
  | 0 => pure ()
  | k + 1 => do
      on this (pushBack (.value val))
      countLoop this val k

def ofCount (this : ObjName I) (n : Nat) (val : T) : VectorsM I T Unit :=
  constructing this do
    put this Vec.null
    on this (reserve n)
    countLoop this val n

def swap (this v : ObjName I) : VectorsM I T Unit := do
  let l ← fetch this
  let r ← fetch v
  put this r
  put v l

def copy (this v : ObjName I) : VectorsM I T Unit :=
  constructing this do
    put this Vec.null
    let src ← fetch v
    ofRange .tmp src.start src.finish
    swap this .tmp
    destroy .tmp

def assign (this v : ObjName I) : VectorsM I T Unit := do
  copy .arg v
  swap this .arg
  destroy .arg

def exec : Call I T → VectorsM I T Unit
  | .construct i => put (.var i) Vec.null
  | .ofCount i n x => ofCount (.var i) n x
  | .copy i j => copy (.var i) (.var j)
  | .assign i j => assign (.var i) (.var j)
  | .swap i j => swap (.var i) (.var j)
  | .destroy i => destroy (.var i)
  | .pushBack i x => on (.var i) (pushBack (.value x))
  | .popBack i => on (.var i) popBack
  | .insert i n x => on (.var i) do
      let _ ← insert ((← getObj).start + (n : Int)) (.value x)
  | .erase i n => on (.var i) do
      let _ ← erase ((← getObj).start + (n : Int))
  | .resize i n x => on (.var i) (resize n x)
  | .reserve i n => on (.var i) (reserve n)
  | .clear i => on (.var i) clear

end objects

/-! ## One vector -/

open List Option Dict Heap

section one

variable {T : Type} {s s' : Heap (Block T) × Vec} {a n : Nat} {xs : List T} {room : Block T}
  {X : Stop → Heap (Block T) × Vec → Prop}

structure Stored (s : Heap (Block T) × Vec) (a : Nat) (xs : List T) (room : Block T) : Prop where
  members : s.2 = ⟨elem a 0, elem a xs.length, elem a (xs.length + room.length)⟩
  cells : s.1.cells a = some (xs.map some ++ room)
  fits : xs.length + room.length ≤ maxElems

def Holds (s : Heap (Block T) × Vec) (xs : List T) : Prop :=
  (s.2 = Vec.null ∧ xs = []) ∨ ∃ a room, Stored s a xs room

namespace Stored

variable (h : Stored s a xs room)

include h

theorem base_eq : s.2.base = some a := by
  rw [h.members]
  rfl

theorem size_eq : s.2.size = xs.length := by
  have hfits := h.fits
  unfold maxElems at hfits
  rw [h.members, Vec.size, elem_idx, elem_idx, Nat.cast_zero, sub_zero, sizeT_of_lt (by omega)]

theorem capacity_eq : s.2.capacity = xs.length + room.length := by
  have hfits := h.fits
  unfold maxElems at hfits
  rw [h.members, Vec.capacity, elem_idx, elem_idx, Nat.cast_zero, sub_zero, sizeT_of_lt (by omega)]

theorem full_iff : s.2.finish = s.2.endofstorage ↔ room = [] := by
  rw [h.members, elem_inj, ← length_eq_zero_iff]
  omega

theorem holds : Holds s xs := Or.inr ⟨a, room, h⟩

end Stored

theorem null_size : Vec.null.size = 0 := rfl

theorem null_capacity : Vec.null.capacity = 0 := rfl

theorem Holds.size_eq (h : Holds s xs) : s.2.size = xs.length := by
  rcases h with ⟨hnull, rfl⟩ | ⟨a, room, h⟩
  · rw [hnull, null_size, length_nil]
  · exact h.size_eq

theorem Holds.size_le_capacity (h : Holds s xs) : s.2.size ≤ s.2.capacity := by
  rcases h with ⟨hnull, rfl⟩ | ⟨a, room, h⟩
  · rw [hnull, null_size, null_capacity]
  · rw [h.size_eq, h.capacity_eq]
    exact Nat.le_add_right _ _

theorem Holds.live (h : Holds s xs) : ∀ a, s.2.base = some a → a < s.1.next := by
  intro a ha
  rcases h with ⟨hnull, -⟩ | ⟨b, room, h⟩
  · rw [hnull] at ha
    cases ha
  · rw [h.base_eq, some_inj] at ha
    exact ha ▸ lt_next h.cells

theorem Holds.of_cells {h' : Heap (Block T)} (h : Holds s xs)
    (hcells : ∀ a, s.2.base = some a → h'.cells a = s.1.cells a) : Holds (h', s.2) xs := by
  rcases h with hnull | ⟨a, room, h⟩
  · exact Or.inl hnull
  · exact Or.inr ⟨a, room, h.members, (hcells a h.base_eq).trans h.cells, h.fits⟩

structure Becomes (s s' : Heap (Block T) × Vec) (xs : List T) : Prop where
  holds : Holds s' xs
  kept : Kept Vec.base s s'
  capacity_le : s.2.capacity ≤ s'.2.capacity

variable {Q : Unit → Heap (Block T) × Vec → Prop} {x : T} {arg : Arg T} {l r : List T}

theorem Holds.wpe_reserve (h : Holds s xs) (hn : s.2.capacity < n)
    (hQ : ∀ s', Stored s' s.1.next xs (List.replicate (n - xs.length) none) →
      Kept Vec.base s s' → Q () s') (hX : maxElems < n → X .badAlloc s) :
    wpe (reserve n) Q X s := by
  have hsize := h.size_eq
  have hle := h.size_le_capacity
  rw [reserve, wpe_bind, wpe_getObj, wpe_whenever]
  refine ⟨fun _ => ?_, fun hnot => absurd hn hnot⟩
  rw [wpe_bind, wpe_newArray]
  refine ⟨fun hfits => ?_, fun hnot => hX (Nat.lt_of_not_le hnot)⟩
  have hlen : xs.length + (replicate (n - xs.length) (none : Option T)).length = n := by
    rw [length_replicate]
    omega
  have hmembers : (⟨elem s.1.next 0, elem s.1.next 0 + (s.2.size : Int),
      elem s.1.next 0 + (n : Int)⟩ : Vec) = ⟨elem s.1.next 0, elem s.1.next xs.length,
        elem s.1.next (xs.length + (replicate (n - xs.length) (none : Option T)).length)⟩ := by
    rw [elem_add, elem_add, Nat.zero_add, Nat.zero_add, hsize, hlen]
  rw [wpe_bind, wpe_whenever]
  rcases h with ⟨hnull, rfl⟩ | ⟨a, room, h⟩
  · refine ⟨fun hnot => absurd (by rw [hnull]; rfl) hnot, fun _ => ?_⟩
    rw [wpe_setObj, hmembers]
    refine hQ _ ⟨rfl, ?_, hlen.trans_le hfits⟩ ⟨Nat.le_succ _, fun c hc _ => ?_, Or.inr ?_⟩
    · rw [map_nil, nil_append, length_nil, Nat.sub_zero]
      exact alloc_self _ _
    · exact alloc_ne _ _ hc.ne
    · intro c hc
      exact (some_inj.mp hc).le
  · have ha := alloc_of_some h.cells (replicate n none)
    have hne : a ≠ s.1.next := (lt_next h.cells).ne
    have hstart : s.2.start = elem a 0 := by rw [h.members]
    refine ⟨fun _ => ?_, fun hnot => absurd (hstart ▸ elem_ne_null a 0) hnot⟩
    rw [wpe_bind, hstart, hsize,
      wpe_copyUp ha (alloc_self _ _) (fun had => absurd had hne) (prefix_append _ _)
        (by rw [length_replicate]; omega),
      alloc_setBlock, wpe_deleteArray (alloc_of_some h.cells _), wpe_setObj, ← hsize,
      hmembers]
    -- the elements are at the start of the new array
    have hblit : blit (replicate n none) 0 (xs.map some) =
        xs.map some ++ replicate (n - xs.length) none := by
      rw [blit_eq _ _ _ (by rw [length_map, length_replicate]; omega), take_zero,
        nil_append, Nat.zero_add, length_map, drop_replicate]
    refine hQ _ ⟨rfl, ?_, hlen.trans_le hfits⟩ (Kept.replace _ h.base_eq rfl)
    rw [free_ne _ hne.symm, alloc_self, hblit]

theorem Holds.wpe_reserve_becomes (h : Holds s xs) (hQ : ∀ s', Becomes s s' xs → Q () s')
    (hX : maxElems < n → X .badAlloc s) : wpe (reserve n) Q X s := by
  by_cases hn : s.2.capacity < n
  · have hle := h.size_le_capacity
    have hsize := h.size_eq
    refine h.wpe_reserve hn (fun s' h' hkept => hQ s' ⟨h'.holds, hkept, ?_⟩) hX
    rw [h'.capacity_eq, length_replicate]
    omega
  · rw [reserve, wpe_bind, wpe_getObj, wpe_whenever]
    exact ⟨fun hlt => absurd hlt hn, fun _ => hQ s ⟨h, Kept.refl s, Nat.le_refl _⟩⟩

theorem Holds.wpe_makeRoom (h : Holds s xs)
    (hQ : ∀ s' a r room, Stored s' a xs (r :: room) → Kept Vec.base s s' →
      s.2.capacity ≤ s'.2.capacity → (s.2.finish ≠ s.2.endofstorage → s' = s) → Q () s')
    (hX : s.2.finish = s.2.endofstorage → maxElems < 2 * xs.length → X .badAlloc s) :
    wpe makeRoom Q X s := by
  rw [makeRoom, wpe_bind, wpe_getObj, wpe_whenever]
  constructor
  · intro hfull
    have hcap : s.2.capacity = xs.length := by
      rcases h with ⟨hnull, rfl⟩ | ⟨a, room, h⟩
      · rw [hnull, null_capacity, length_nil]
      · rw [h.capacity_eq, h.full_iff.mp hfull, length_nil, Nat.add_zero]
    have hle : xs.length ≤ maxElems := by
      rcases h with ⟨_, rfl⟩ | ⟨a, room, h⟩
      · exact Nat.zero_le _
      · exact (Nat.le_add_right _ _).trans h.fits
    have hnew : s.2.newCapacity = if xs.length = 0 then 4 else 2 * xs.length := by
      unfold maxElems at hle
      rw [Vec.newCapacity, hcap]
      split
      · rfl
      · rw [← Nat.cast_ofNat, ← Nat.cast_mul, sizeT_of_lt (by omega), Nat.mul_comm]
    have hlt : xs.length < s.2.newCapacity := by
      rw [hnew]
      split <;> omega
    refine h.wpe_reserve (by rw [hcap]; exact hlt) (fun s' hs' hkept => ?_) fun hmax => hX hfull ?_
    · obtain ⟨k, hk⟩ : ∃ k, s.2.newCapacity - xs.length = k + 1 :=
        ⟨s.2.newCapacity - xs.length - 1, by omega⟩
      rw [hk, replicate_succ] at hs'
      refine hQ s' _ _ _ hs' hkept ?_ fun hnot => absurd hfull hnot
      rw [hcap, hs'.capacity_eq]
      exact Nat.le_add_right _ _
    · rw [hnew] at hmax
      unfold maxElems at hmax ⊢
      split at hmax <;> omega
  · intro hnot
    rcases h with ⟨hnull, rfl⟩ | ⟨a, room, h⟩
    · exact absurd (by rw [hnull]; rfl) hnot
    · cases room with
      | nil => exact absurd (h.full_iff.mpr rfl) hnot
      | cons r room => exact hQ s a r room h (Kept.refl s) (Nat.le_refl _) fun _ => rfl

inductive Outside (s : Heap (Block T) × Vec) : Arg T → T → Prop where
  | value (x : T) : Outside s (.value x) x
  | element {c i : Nat} {b : Block T} {x : T} : s.1.cells c = some b → b[i]? = some (some x) →
      s.2.base ≠ some c → Outside s (.element (elem c i)) x

theorem Outside.of_kept (harg : Outside s arg x) (hkept : Kept Vec.base s s') :
    Outside s' arg x := by
  cases harg with
  | value => exact Outside.value x
  | element hcells hx hbase =>
    have hlt := lt_next hcells
    refine Outside.element ((hkept.others _ hlt hbase).trans hcells) hx fun hown => ?_
    rcases hkept.own with hsame | hnew
    · exact hbase (hsame ▸ hown)
    · exact absurd (hnew _ hown) (by omega)

theorem Outside.wpe_get (harg : Outside s arg x) (Q : T → Heap (Block T) × Vec → Prop) :
    wpe arg.get Q X s ↔ Q x s := by
  cases harg with
  | value => rw [Arg.get, wpe_pure]
  | element hcells hx _ => rw [Arg.get, wpe_read hcells hx]

theorem Becomes.trans {s'' : Heap (Block T) × Vec} {ys : List T} (h : Becomes s s' xs)
    (h' : Becomes s' s'' ys) : Becomes s s'' ys :=
  ⟨h'.holds, h.kept.trans h'.kept, h.capacity_le.trans h'.capacity_le⟩

theorem Stored.update (h : Stored s a xs room) (ys : List T) (room' : Block T)
    (hlen : ys.length + room'.length = xs.length + room.length) :
    Stored (s.1.setBlock a (ys.map some ++ room'), { s.2 with finish := elem a ys.length }) a ys
      room' :=
  ⟨by rw [h.members, hlen], setBlock_self h.cells, hlen.trans_le h.fits⟩

theorem Stored.becomes (h : Stored s a xs room) (ys : List T) (room' : Block T)
    (hlen : ys.length + room'.length = xs.length + room.length) :
    Becomes s (s.1.setBlock a (ys.map some ++ room'), { s.2 with finish := elem a ys.length })
      ys := by
  have hstored := h.update ys room' hlen
  refine ⟨hstored.holds, Kept.setBlock _ h.base_eq h.base_eq, ?_⟩
  rw [hstored.capacity_eq, h.capacity_eq, hlen]

theorem Stored.wpe_append {r : Option T} (h : Stored s a xs (r :: room))
    (hQ : ∀ s', Stored s' a (xs ++ [x]) room → Becomes s s' (xs ++ [x]) → Q () s') :
    wpe (write s.2.finish x) (fun _ s' => Q () (s'.1, { s.2 with finish := s.2.finish + (1 : Int) }))
      X s := by
  have hfinish : s.2.finish = elem a xs.length := by rw [h.members]
  have hblock : (xs.map some ++ r :: room).set xs.length (some x) =
      (xs ++ [x]).map some ++ room := by
    rw [set_append_right _ _ (by simp)]
    simp
  have hlen : (xs ++ [x]).length + room.length = xs.length + (r :: room).length := by
    simp
    omega
  have hfinish' : elem a xs.length + (1 : Int) = elem a (xs ++ [x]).length := by
    rw [elem_add_one, length_append, length_singleton]
  rw [hfinish, wpe_write h.cells (by simp), hblock, hfinish']
  exact hQ _ (h.update _ _ hlen) (h.becomes _ _ hlen)

theorem Holds.wpe_pushBack (h : Holds s xs) (harg : Outside s arg x)
    (hQ : ∀ s', Becomes s s' (xs ++ [x]) → Q () s') (hX : maxElems < 2 * xs.length → X .badAlloc s) :
    wpe (pushBack arg) Q X s := by
  rw [pushBack, wpe_bind]
  refine h.wpe_makeRoom (fun s1 a r room h1 hkept hcap _ => ?_) fun _ => hX
  simp only [wpe_bind, wpe_getObj, wpe_setObj]
  rw [(harg.of_kept hkept).wpe_get]
  exact h1.wpe_append fun s' _ h' =>
    hQ s' ⟨h'.holds, hkept.trans h'.kept, hcap.trans h'.capacity_le⟩

theorem Stored.wpe_insertAt {y : Option T} (h : Stored s a (l ++ r) (y :: room))
    (hget : ∀ Q', wpe arg.get Q' X
        (s.1.setBlock a (blit ((l ++ r).map some ++ y :: room) (l.length + 1) (r.map some)), s.2) ↔
      Q' x (s.1.setBlock a (blit ((l ++ r).map some ++ y :: room) (l.length + 1) (r.map some)), s.2))
    (Q : ElemPtr → Heap (Block T) × Vec → Prop) :
    wpe (insertAt (elem a l.length) arg) Q X s ↔
      Q (elem a l.length) (s.1.setBlock a ((l ++ x :: r).map some ++ room),
        { s.2 with finish := elem a (l ++ x :: r).length }) := by
  have hcount : (s.2.finish.idx - (elem a l.length).idx).toNat = r.length := by
    rw [h.members, elem_idx, elem_idx, length_append]
    omega
  have hfinish : s.2.finish + (1 : Int) = elem a (l ++ x :: r).length := by
    rw [h.members, elem_add_one, length_append, length_append, length_cons, Nat.add_assoc]
  have hroom : l.length + 1 + (r.map some).length ≤ ((l ++ r).map some ++ y :: room).length := by
    simp
    omega
  have hset : (blit ((l ++ r).map some ++ y :: room) (l.length + 1) (r.map some)).set l.length
      (some x) = (l ++ x :: r).map some ++ room := by
    have hone : [some x].length = [y].length := rfl
    have hgap := blit_gap (l.map some) (r.map some) [y] room hone
    rw [length_map, length_singleton] at hgap
    rw [map_append, append_assoc, map_append, append_assoc]
    exact hgap
  have hmoved : r.map some <+: ((l ++ r).map some ++ y :: room).drop l.length := by
    rw [map_append, append_assoc, drop_left' (by simp)]
    exact prefix_append _ _
  rw [insertAt, wpe_bind, wpe_getObj, wpe_bind, hcount,
    wpe_shiftUp h.cells hmoved (by simpa using hroom),
    wpe_bind, hget, wpe_bind, wpe_write (setBlock_self h.cells) (by simp),
    wpe_bind, wpe_setObj, wpe_pure, setBlock_setBlock, hset, hfinish]

theorem Stored.wpe_insert (h : Stored s a (l ++ r) room) (hr : r ≠ [])
    {Q : ElemPtr → Heap (Block T) × Vec → Prop}
    (hQ : ∀ s1 a1 y room1, Stored s1 a1 (l ++ r) (y :: room1) → Kept Vec.base s s1 →
      s.2.capacity ≤ s1.2.capacity → (s.2.finish ≠ s.2.endofstorage → s1 = s) →
      wpe (insertAt (elem a1 l.length) arg) Q X s1)
    (hX : s.2.finish = s.2.endofstorage → maxElems < 2 * (l ++ r).length → X .badAlloc s) :
    wpe (insert (s.2.start + (l.length : Int)) arg) Q X s := by
  have hpos : 0 < r.length := length_pos_iff.mpr hr
  have hstart : s.2.start = elem a 0 := by rw [h.members]
  have hfinish : s.2.finish = elem a (l ++ r).length := by rw [h.members]
  have hplace : s.2.start + (l.length : Int) = elem a l.length := by
    rw [hstart, elem_add, Nat.zero_add]
  rw [insert, wpe_bind, wpe_getObj, wpe_bind, hplace, wpe_check, wpe_bind]
  · refine h.holds.wpe_makeRoom (fun s1 a1 y room1 h1 hkept hcap hsame => ?_) hX
    have hplace1 : (if s.2.finish = s.2.endofstorage then
        s1.2.start + ((elem a l.length).idx - s.2.start.idx) else elem a l.length) =
        elem a1 l.length := by
      split
      · rw [h1.members, hstart, elem_idx, elem_idx, Nat.cast_zero, sub_zero, elem_add, Nat.zero_add]
      · next hroom =>
        have hbase := h1.base_eq
        rw [hsame hroom, h.base_eq, some_inj] at hbase
        rw [hbase]
    rw [wpe_bind, wpe_getObj]
    have hrest := hQ s1 a1 y room1 h1 hkept hcap hsame
    rwa [← hplace1] at hrest
  · rw [hstart, hfinish]
    refine ⟨⟨rfl, by simp⟩, ⟨rfl, by simp⟩, fun heq => ?_⟩
    have := (elem_inj.mp heq).2
    rw [length_append] at this
    omega

theorem Holds.wpe_insert (h : Holds s (l ++ r)) (hr : r ≠ []) (harg : Outside s arg x)
    {Q : ElemPtr → Heap (Block T) × Vec → Prop} (hQ : ∀ p s', Becomes s s' (l ++ x :: r) → Q p s')
    (hX : maxElems < 2 * (l ++ r).length → X .badAlloc s) :
    wpe (insert (s.2.start + (l.length : Int)) arg) Q X s := by
  rcases h with ⟨-, hnil⟩ | ⟨a, room, h⟩
  · exact absurd (append_eq_nil_iff.mp hnil).2 hr
  refine h.wpe_insert hr (fun s1 a1 y room1 h1 hkept hcap _ => ?_) fun _ => hX
  rw [h1.wpe_insertAt fun Q' => ?_]
  · have hbecomes := h1.becomes (l ++ x :: r) room1 (by simp; omega)
    exact hQ _ _ ⟨hbecomes.holds, hkept.trans hbecomes.kept, hcap.trans hbecomes.capacity_le⟩
  · exact ((harg.of_kept hkept).of_kept (Kept.setBlock _ h1.base_eq h1.base_eq)).wpe_get Q'

theorem Holds.wpe_erase (h : Holds s (l ++ x :: r)) {Q : ElemPtr → Heap (Block T) × Vec → Prop}
    (hQ : ∀ p s', Becomes s s' (l ++ r) → Q p s') :
    wpe (erase (s.2.start + (l.length : Int))) Q X s := by
  rcases h with ⟨-, hnil⟩ | ⟨a, room, h⟩
  · exact absurd (append_eq_nil_iff.mp hnil).2 (cons_ne_nil x r)
  have hstart : s.2.start = elem a 0 := by rw [h.members]
  have hfinish : s.2.finish = elem a (l ++ x :: r).length := by rw [h.members]
  have hplace : s.2.start + (l.length : Int) = elem a l.length := by
    rw [hstart, elem_add, Nat.zero_add]
  have hb : (l ++ x :: r).map some ++ room = (l ++ [x]).map some ++ (r.map some ++ room) := by simp
  have hcount : (s.2.finish.idx - (elem a l.length).idx - 1).toNat = r.length := by
    rw [hfinish, elem_idx, elem_idx, length_append, length_cons]
    omega
  have hmoved : r.map some <+: ((l ++ x :: r).map some ++ room).drop (l.length + 1) := by
    rw [hb, drop_left' (by simp)]
    exact prefix_append _ _
  -- behind the elements there is one more that is not used now
  obtain ⟨room', hroom', hblit⟩ : ∃ room' : Block T, room'.length = room.length + 1 ∧
      blit ((l ++ x :: r).map some ++ room) l.length (r.map some) = (l ++ r).map some ++ room' := by
    refine ⟨((l ++ x :: r).map some ++ room).drop (l.length + (r.map some).length), ?_, ?_⟩
    · simp
      omega
    · rw [blit_eq _ _ _ (by simp; omega), map_append, append_assoc (l.map some),
        take_left' (by simp), map_append]
  have hlast : s.2.finish + (-1 : Int) = elem a (l ++ r).length := by
    rw [hfinish, length_append, length_cons, ← Nat.add_assoc, elem_succ_sub_one, length_append]
  rw [erase, wpe_bind, wpe_getObj, wpe_bind, hplace, wpe_check, wpe_bind, hcount, elem_add_one,
    wpe_copyUp h.cells h.cells (fun _ => Nat.le_succ _) hmoved (by simp; omega), hblit, wpe_bind,
    wpe_setObj, wpe_pure, hlast]
  · exact hQ _ _ (h.becomes (l ++ r) room' (by simp; omega))
  · rw [hstart, hfinish]
    refine ⟨⟨rfl, by simp⟩, ⟨rfl, by simp; omega⟩, fun heq => ?_⟩
    have := (elem_inj.mp heq).2
    rw [length_append, length_cons] at this
    omega

theorem Stored.becomes_of_finish (h : Stored s a xs room) (ys : List T) (room' : Block T)
    (hblock : ys.map some ++ room' = xs.map some ++ room) :
    Becomes s (s.1, { s.2 with finish := elem a ys.length }) ys := by
  have hlen := congrArg length hblock
  simp only [length_append, length_map] at hlen
  have hbecomes := h.becomes ys room' hlen
  rwa [hblock, setBlock_same h.cells] at hbecomes

theorem Stored.wpe_resizeLoop {k : Nat} (h : Stored s a xs room) (hk : k ≤ room.length)
    (hQ : ∀ s', Becomes s s' (xs ++ List.replicate k x) → Q () s') :
    wpe (resizeLoop x k) Q X s := by
  induction k generalizing s xs room with
  | zero =>
    rw [resizeLoop, wpe_pure]
    refine hQ s ⟨?_, Kept.refl s, Nat.le_refl _⟩
    rw [replicate_zero, append_nil]
    exact h.holds
  | succ k ih =>
    cases room with
    | nil => exact absurd hk (Nat.not_succ_le_zero k)
    | cons r room =>
      simp only [resizeLoop, wpe_bind, wpe_getObj, wpe_setObj]
      refine h.wpe_append (Q := fun _ s1 => wpe (resizeLoop x k) Q X s1) fun s1 h1 hbecomes => ?_
      refine ih h1 (Nat.le_of_succ_le_succ hk) fun s' h' => hQ s' (hbecomes.trans ?_)
      rwa [append_assoc, singleton_append, ← replicate_succ] at h'

theorem Holds.wpe_resize (h : Holds s xs)
    (hQ : ∀ s', Becomes s s' (xs.take n ++ List.replicate (n - xs.length) x) → Q () s')
    (hX : maxElems < n → X .badAlloc s) : wpe (resize n x) Q X s := by
  rw [resize, wpe_bind, wpe_getObj, wpe_bind, wpe_whenever]
  constructor
  · intro hn
    have hle := h.size_le_capacity
    have hsize := h.size_eq
    refine h.wpe_reserve hn (fun s1 h1 hkept => ?_) hX
    rw [wpe_bind, wpe_getObj, h1.size_eq, if_pos (by omega)]
    refine h1.wpe_resizeLoop (by rw [length_replicate]) fun s' h' => hQ s' ?_
    rw [take_of_length_le (by omega)]
    refine ⟨h'.holds, hkept.trans h'.kept, le_trans ?_ h'.capacity_le⟩
    rw [h1.capacity_eq, length_replicate]
    omega
  · intro hn
    rw [wpe_bind, wpe_getObj, h.size_eq, wpe_ite]
    rcases h with ⟨hnull, rfl⟩ | ⟨a, room, h⟩
    · rw [hnull, null_capacity] at hn
      obtain rfl : n = 0 := by omega
      refine ⟨fun hlt => absurd hlt (Nat.lt_irrefl 0), fun _ => ?_⟩
      rw [wpe_setObj]
      exact hQ _ ⟨Or.inl ⟨by rw [hnull]; rfl, rfl⟩, Kept.members rfl, Nat.le_refl _⟩
    · rw [h.capacity_eq] at hn
      refine ⟨fun hlt => ?_, fun hlt => ?_⟩
      · refine h.wpe_resizeLoop (by omega) fun s' h' => hQ s' ?_
        rwa [take_of_length_le hlt.le]
      · have hfinish : s.2.start + (n : Int) = elem a (xs.take n).length := by
          rw [h.members, elem_add, Nat.zero_add, length_take_of_le (by omega)]
        rw [wpe_setObj, hfinish]
        refine hQ _ ?_
        rw [Nat.sub_eq_zero_of_le (by omega), replicate_zero, append_nil]
        refine h.becomes_of_finish _ ((xs.drop n).map some ++ room) ?_
        rw [← append_assoc, ← map_append, take_append_drop]

theorem Holds.wpe_popBack (h : Holds s xs) (hne : xs ≠ [])
    (hQ : ∀ s', Becomes s s' xs.dropLast → Q () s') : wpe popBack Q X s := by
  rcases h with ⟨-, hnil⟩ | ⟨a, room, h⟩
  · exact absurd hnil hne
  obtain ⟨ys, y, rfl⟩ := (eq_nil_or_concat' xs).resolve_left hne
  have hne' : s.2.finish ≠ s.2.start := by
    rw [h.members, Ne, elem_inj]
    simp
  have hfinish : s.2.finish + (-1 : Int) = elem a ys.length := by
    rw [h.members, length_append, length_singleton, elem_succ_sub_one]
  rw [popBack, wpe_bind, wpe_getObj, wpe_bind, wpe_check hne', wpe_setObj, hfinish]
  rw [dropLast_concat] at hQ
  exact hQ _ (h.becomes_of_finish _ (some y :: room) (by simp))

theorem Holds.wpe_clear (h : Holds s xs) (hQ : ∀ s', Becomes s s' [] → Q () s') :
    wpe clear Q X s := by
  rw [clear, wpe_bind, wpe_getObj, wpe_setObj]
  rcases h with ⟨hnull, -⟩ | ⟨a, room, h⟩
  · refine hQ _ ⟨Or.inl ⟨by rw [hnull]; rfl, rfl⟩, Kept.members rfl, Nat.le_refl _⟩
  · have hstart : s.2.start = elem a ([] : List T).length := by rw [h.members, length_nil]
    have hbecomes := h.becomes_of_finish [] (xs.map some ++ room) (nil_append _)
    rw [← hstart] at hbecomes
    exact hQ _ hbecomes

theorem Holds.wpe_at {k : Nat} (h : Holds s xs) (hx : xs[k]? = some x)
    (Q : T → Heap (Block T) × Vec → Prop) : wpe (at_ k) Q X s ↔ Q x s := by
  have hlt : k < xs.length := (List.getElem?_eq_some_iff.mp hx).1
  have hsize := h.size_eq
  rcases h with ⟨-, rfl⟩ | ⟨a, room, h⟩
  · cases hx
  · have hstart : s.2.start = elem a 0 := by rw [h.members]
    have hcell : (xs.map some ++ room)[k]? = some (some x) := by
      rw [List.getElem?_append_left (by rwa [List.length_map]), List.getElem?_map, hx,
      Option.map_some]
    rw [at_, wpe_bind, wpe_getObj, wpe_bind, wpe_check (by rwa [hsize]), hstart, elem_add,
      Nat.zero_add, wpe_read h.cells hcell]

end one

/-! ## Several vectors -/

section family

variable {I T β : Type} {s s' : Heap (Block T) × Dict (ObjName I) Vec}
  {m : Dict (ObjName I) (List T)} {o o' : ObjName I} {xs ys : List T} {x : T} {n : Nat}
  {X : Stop → Heap (Block T) × Dict (ObjName I) Vec → Prop}

structure Family (s : Heap (Block T) × Dict (ObjName I) Vec) (m : Dict (ObjName I) (List T)) :
    Prop where
  absent : ∀ o, m o = none → s.2 o = none
  present : ∀ o xs, m o = some xs → ∃ v, s.2 o = some v ∧ Holds (s.1, v) xs
  apart : Apart Vec.base s.1.next s.2

structure Changed (o : ObjName I) (d d' : Dict (ObjName I) Vec) : Prop where
  others : ∀ k, k ≠ o → d' k = d k
  capacity_le : ∀ v v', d o = some v → d' o = some v' → v.capacity ≤ v'.capacity

theorem Family.empty : Family ((Heap.empty, Dict.empty) : Heap (Block T) × Dict (ObjName I) Vec)
    Dict.empty where
  absent _ _ := rfl
  present _ _ h := by cases h
  apart := apart_empty

variable [DecidableEq I]

variable {Q : Unit → Heap (Block T) × Dict (ObjName I) Vec → Prop}

namespace Family

section

variable (h : Family s m)

include h

theorem wpe_on (ho : m o = some xs) (ys : List T) (bound : Prop) {f : ArrayM T Vec β}
    (hf : ∀ v, s.2 o = some v → Holds (s.1, v) xs → wpe f (fun _ s' => Becomes (s.1, v) s' ys)
      (fun e s' => e = .badAlloc ∧ s' = (s.1, v) ∧ bound) (s.1, v))
    {Q : β → Heap (Block T) × Dict (ObjName I) Vec → Prop}
    (hQ : ∀ b s', Family s' (m.assign o ys) → Changed o s.2 s'.2 → Q b s')
    (hX : bound → X .badAlloc s) : wpe (on o f) Q X s := by
  obtain ⟨v, hv, hholds⟩ := h.present o xs ho
  rw [ArrayM.wpe_on hv]
  refine wpe_mono (hf v hv hholds) (fun b s' hs' => hQ b _ ?_ ?_) ?_
  · refine ⟨fun k hk => ?_, fun k zs hk => ?_, h.apart.assign hv hs'.kept hs'.holds.live⟩
    · by_cases hko : k = o
      · simp [hko] at hk
      · rw [assign_ne _ _ hko] at hk
        exact (assign_ne _ _ hko).trans (h.absent k hk)
    · by_cases hko : k = o
      · rw [hko, assign_self, some_inj] at hk
        exact ⟨s'.2, by rw [hko]; exact assign_self _ _ _, hk ▸ hs'.holds⟩
      · rw [assign_ne _ _ hko] at hk
        obtain ⟨w, hw, hwholds⟩ := h.present k zs hk
        refine ⟨w, (assign_ne _ _ hko).trans hw, hwholds.of_cells fun a ha => ?_⟩
        exact h.apart.cells_eq hv hs'.kept hw hko ha
  · refine ⟨fun k hk => assign_ne _ _ hk, fun w w' hw hw' => ?_⟩
    rw [hv, some_inj] at hw
    obtain rfl : s'.2 = w' := some_inj.mp ((assign_self _ _ _).symm.trans hw')
    rw [← hw]
    exact hs'.capacity_le
  · rintro e s' ⟨rfl, rfl, hbound⟩
    rw [assign_of_some hv]
    exact hX hbound

theorem construct (o : ObjName I) : Family (s.1, s.2.assign o Vec.null) (m.assign o []) where
  absent k hk := by
    by_cases hko : k = o
    · simp [hko] at hk
    · rw [assign_ne _ _ hko] at hk
      exact (assign_ne _ _ hko).trans (h.absent k hk)
  present k zs hk := by
    by_cases hko : k = o
    · rw [hko, assign_self, some_inj] at hk
      exact ⟨Vec.null, by rw [hko]; exact assign_self _ _ _, Or.inl ⟨rfl, hk.symm⟩⟩
    · rw [assign_ne _ _ hko] at hk
      obtain ⟨w, hw, hwholds⟩ := h.present k zs hk
      exact ⟨w, (assign_ne _ _ hko).trans hw, hwholds⟩
  apart := h.apart.construct o rfl

theorem erase {h' : Heap (Block T)} (hnext : s.1.next ≤ h'.next)
    (hcells : ∀ k v a, k ≠ o → s.2 k = some v → v.base = some a → h'.cells a = s.1.cells a) :
    Family (h', s.2.erase o) (m.erase o) where
  absent k hk := by
    by_cases hko : k = o
    · rw [hko]
      exact erase_self _ _
    · rw [erase_ne _ hko] at hk
      exact (erase_ne _ hko).trans (h.absent k hk)
  present k zs hk := by
    by_cases hko : k = o
    · simp [hko] at hk
    · rw [erase_ne _ hko] at hk
      obtain ⟨w, hw, hwholds⟩ := h.present k zs hk
      exact ⟨w, (erase_ne _ hko).trans hw, hwholds.of_cells fun a => hcells k w a hko hw⟩
  apart := (h.apart.erase o).mono hnext

theorem swap (o o' : ObjName I) : Family (s.1, s.2.swap o o') (m.swap o o') where
  absent _ := h.absent _
  present _ := h.present _
  apart := ⟨fun _ => h.apart.live _, fun _ _ v v' a hk hk' ha ha' =>
    (Equiv.swap o o').injective (h.apart.distinct _ _ v v' a hk hk' ha ha')⟩

theorem wpe_swap (ho : m o = some xs) (ho' : m o' = some ys)
    (hQ : Family (s.1, s.2.swap o o') (m.swap o o') → Q () (s.1, s.2.swap o o')) :
    wpe (ZhcVector.swap o o') Q X s := by
  obtain ⟨v, hv, -⟩ := h.present o xs ho
  obtain ⟨w, hw, -⟩ := h.present o' ys ho'
  rw [ZhcVector.swap, wpe_bind, wpe_fetch hv, wpe_bind, wpe_fetch hw, wpe_bind, wpe_put, wpe_put,
    assign_assign_swap hv hw]
  exact hQ (h.swap o o')

theorem wpe_destroy (ho : m o = some xs)
    (hQ : ∀ h', Family (h', s.2.erase o) (m.erase o) → Q () (h', s.2.erase o)) :
    wpe (destroy o) Q X s := by
  obtain ⟨v, hv, hholds⟩ := h.present o xs ho
  rw [destroy, wpe_bind, ArrayM.wpe_on hv, release, wpe_bind, wpe_getObj, wpe_bind]
  rcases hholds with ⟨hnull, -⟩ | ⟨a, room, hstored⟩
  · have hstart : v.start = .null := congrArg Vec.start hnull
    rw [hstart, wpe_delete_null, wpe_setObj, wpe_drop, erase_assign]
    exact hQ s.1 (h.erase (Nat.le_refl _) fun _ _ _ _ _ _ => rfl)
  · have hstart : v.start = elem a 0 := congrArg Vec.start hstored.members
    have hbase : v.base = some a := hstored.base_eq
    rw [hstart, wpe_deleteArray hstored.cells, wpe_setObj, wpe_drop, erase_assign]
    refine hQ (s.1.free a) (h.erase (Nat.le_refl _) fun k w c hko hw hc => free_ne _ ?_)
    -- the array is that of the vector alone
    intro hca
    exact hko (h.apart.distinct k o w v a hw hv (hca ▸ hc) hbase)

theorem of_unwound {zs : List T} (ho : m o = none) (h' : Family s' (m.assign o zs))
    (hothers : ∀ k, k ≠ o → s'.2 k = s.2 k) : s'.2.erase o = s.2 ∧ Family (s'.1, s.2) m := by
  have hobjs : s'.2.erase o = s.2 := by
    funext k
    by_cases hk : k = o
    · rw [hk, erase_self, h.absent o ho]
    · rw [erase_ne _ hk, hothers k hk]
  have hrest := h'.erase (o := o) (Nat.le_refl _) fun _ _ _ _ _ _ => rfl
  rw [erase_assign, erase_of_none ho, hobjs] at hrest
  exact ⟨hobjs, hrest⟩

end

theorem wpe_rangeLoop (done rest : List T) {v : Vec} {a : Nat} (h : Family s m)
    (ho : m o = some done) (ho' : m o' = some (done ++ rest)) (hne : o' ≠ o) (hv : s.2 o' = some v)
    (hstart : v.start = elem a 0)
    (hQ : ∀ s', Family s' (m.assign o (done ++ rest)) → (∀ k, k ≠ o → s'.2 k = s.2 k) → Q () s')
    (hX : ∀ s' zs, Family s' (m.assign o zs) → (∀ k, k ≠ o → s'.2 k = s.2 k) →
      maxElems < 2 * (done ++ rest).length → X .badAlloc s') :
    wpe (rangeLoop o rest.length (elem a done.length)) Q X s := by
  induction rest generalizing s m done with
  | nil =>
    rw [length_nil, rangeLoop, wpe_pure]
    refine hQ s ?_ fun _ _ => rfl
    rwa [append_nil, assign_of_some ho]
  | cons y rest ih =>
    rw [length_cons, rangeLoop, wpe_bind]
    refine h.wpe_on ho (done ++ [y]) (maxElems < 2 * done.length)
      (fun w hw hholds => ?_) (fun _ s1 h1 hchanged => ?_) fun hbound => ?_
    · obtain ⟨v', hv', hsrc⟩ := h.present o' _ ho'
      obtain rfl : v = v' := some_inj.mp (hv.symm.trans hv')
      rcases hsrc with ⟨-, hnil⟩ | ⟨c, room, hsrc⟩
      · simp at hnil
      -- the source is not in the array of the new vector
      obtain rfl : c = a := (elem_inj.mp ((congrArg Vec.start hsrc.members).symm.trans hstart)).1
      refine hholds.wpe_pushBack (Outside.element hsrc.cells (by simp) fun hbase => ?_)
        (fun _ h' => h') fun hbound => ⟨rfl, rfl, hbound⟩
      exact hne (h.apart.distinct o' o v w c hv hw hsrc.base_eq hbase)
    · have happ : done ++ [y] ++ rest = done ++ y :: rest := by simp
      have hlen : (done ++ [y]).length = done.length + 1 := by simp
      rw [elem_add_one, ← hlen]
      refine ih _ h1 (assign_self _ _ _) (by rw [assign_ne _ _ hne, ho', happ])
        ((hchanged.others o' hne).trans hv) (fun s' h' hothers => ?_)
        fun s' zs h' hothers hbound => ?_
      · rw [assign_assign, happ] at h'
        exact hQ s' h' fun k hk => (hothers k hk).trans (hchanged.others k hk)
      · rw [assign_assign] at h'
        rw [happ] at hbound
        exact hX s' zs h' (fun k hk => (hothers k hk).trans (hchanged.others k hk)) hbound
    · refine hX s done (by rwa [assign_of_some ho]) (fun _ _ => rfl) ?_
      rw [length_append]
      omega

theorem wpe_ofRange {v : Vec} (h : Family s m) (ho : m o = none) (ho' : m o' = some ys)
    (hv : s.2 o' = some v)
    (hQ : ∀ s', Family s' (m.assign o ys) → (∀ k, k ≠ o → s'.2 k = s.2 k) → Q () s')
    (hX : ∀ h', Family (h', s.2) m → maxElems < 2 * ys.length → X .badAlloc (h', s.2)) :
    wpe (ofRange o v.start v.finish) Q X s := by
  have hne : o' ≠ o := by
    intro heq
    rw [heq, ho] at ho'
    cases ho'
  have h1 := h.construct o
  have hothers : ∀ k, k ≠ o → (s.2.assign o Vec.null) k = s.2 k := fun k hk => assign_ne _ _ hk
  rw [ofRange, wpe_constructing, wpe_bind, wpe_put]
  obtain ⟨v', hv', hsrc⟩ := h.present o' _ ho'
  obtain rfl : v = v' := some_inj.mp (hv.symm.trans hv')
  rcases hsrc with ⟨hnull, rfl⟩ | ⟨a, room, hsrc⟩
  · obtain rfl : v = Vec.null := hnull
    rw [show (Vec.null.finish.idx - Vec.null.start.idx).toNat = 0 from rfl, rangeLoop, wpe_pure]
    exact hQ _ h1 hothers
  · have hstart : v.start = elem a 0 := congrArg Vec.start hsrc.members
    have hcount : (v.finish.idx - v.start.idx).toNat = ys.length := by
      rw [show v = _ from hsrc.members, elem_idx, elem_idx]
      omega
    rw [hcount, hstart]
    refine h1.wpe_rangeLoop [] ys (assign_self _ _ _)
      (by rw [assign_ne _ _ hne, ho', nil_append]) hne ((hothers o' hne).trans hv) hstart
      (fun s' h' hothers' => ?_) fun s' zs h' hothers' hbound => ?_
    · rw [assign_assign, nil_append] at h'
      exact hQ s' h' fun k hk => (hothers' k hk).trans (hothers k hk)
    · rw [assign_assign] at h'
      obtain ⟨hobjs, hrest⟩ := h.of_unwound ho h' fun k hk => (hothers' k hk).trans (hothers k hk)
      rw [hobjs]
      exact hX s'.1 hrest hbound

theorem others_of_swap {d d' : Dict (ObjName I) Vec} (ho' : d o' = none)
    (hothers : ∀ k, k ≠ o' → d' k = d k) : ∀ k, k ≠ o → ((d'.swap o o').erase o') k = d k := by
  intro k hk
  by_cases hk' : k = o'
  · rw [hk', erase_self, ho']
  · rw [erase_ne _ hk', swap_ne _ hk hk', hothers k hk']

theorem wpe_copy (h : Family s m) (ho : m o = none) (htmp : m .tmp = none) (hne : o ≠ .tmp)
    (ho' : m o' = some ys)
    (hQ : ∀ s', Family s' (m.assign o ys) → (∀ k, k ≠ o → s'.2 k = s.2 k) → Q () s')
    (hX : ∀ h', Family (h', s.2) m → maxElems < 2 * ys.length → X .badAlloc (h', s.2)) :
    wpe (copy o o') Q X s := by
  have hsrc : o' ≠ o := by
    intro heq
    rw [heq, ho] at ho'
    cases ho'
  obtain ⟨v, hv, -⟩ := h.present o' _ ho'
  have h1 := h.construct o
  have htmp1 : (m.assign o []) .tmp = none := (Dict.assign_ne _ _ hne.symm).trans htmp
  have ho1 : (m.assign o []) o' = some ys := (Dict.assign_ne _ _ hsrc).trans ho'
  have hv1 : (s.2.assign o Vec.null) o' = some v := (Dict.assign_ne _ _ hsrc).trans hv
  rw [copy, wpe_constructing, wpe_bind, wpe_put, wpe_bind, wpe_fetch hv1, wpe_bind]
  refine h1.wpe_ofRange htmp1 ho1 hv1 (fun s2 h2 hothers => ?_) fun h' hrest hbound => ?_
  · rw [wpe_bind]
    refine h2.wpe_swap ((Dict.assign_ne _ _ hne).trans (Dict.assign_self _ _ _))
      (Dict.assign_self _ _ _) fun h3 => ?_
    -- `tmp` is now the vector without an array that was made first
    have hempty : (Dict.assign (m.assign o []) .tmp ys).swap o .tmp .tmp = some [] := by
      rw [Dict.swap_right, Dict.assign_ne _ _ hne, Dict.assign_self]
    refine h3.wpe_destroy hempty fun h' h4 => ?_
    rw [Dict.erase_swap htmp1 hne, Dict.assign_assign] at h4
    refine hQ _ h4 fun k hk => ?_
    have htmp2 := (Dict.assign_ne s.2 Vec.null hne.symm).trans (h.absent .tmp htmp)
    exact (others_of_swap htmp2 hothers k hk).trans (Dict.assign_ne _ _ hk)
  · obtain ⟨hobjs, hrest⟩ := h.of_unwound ho hrest fun k hk => Dict.assign_ne _ _ hk
    rw [hobjs]
    exact hX h' hrest hbound

theorem wpe_assign (h : Family s m) (ho : m o = some xs) (htmp : m .tmp = none)
    (harg : m .arg = none) (ho' : m o' = some ys)
    (hQ : ∀ s', Family s' (m.assign o ys) → (∀ k, k ≠ o → s'.2 k = s.2 k) → Q () s')
    (hX : ∀ h', Family (h', s.2) m → maxElems < 2 * ys.length → X .badAlloc (h', s.2)) :
    wpe (assign o o') Q X s := by
  have hne : o ≠ .arg := by
    intro heq
    rw [heq, harg] at ho
    cases ho
  rw [assign, wpe_bind]
  refine h.wpe_copy harg htmp (by simp) ho' (fun s1 h1 hothers => ?_) hX
  rw [wpe_bind]
  refine h1.wpe_swap ((assign_ne _ _ hne).trans ho) (assign_self _ _ _) fun h2 => ?_
  have hold : (m.assign .arg ys).swap o .arg .arg = some xs := by
    rw [swap_right, assign_ne _ _ hne, ho]
  refine h2.wpe_destroy hold fun h' h3 => ?_
  rw [erase_swap harg hne] at h3
  exact hQ _ h3 (others_of_swap (h.absent .arg harg) hothers)

theorem wpe_countLoop {k : Nat} (h : Family s m) (ho : m o = some xs)
    (hQ : ∀ s', Family s' (m.assign o (xs ++ List.replicate k x)) →
      (∀ k, k ≠ o → s'.2 k = s.2 k) → Q () s')
    (hX : ∀ s' zs, Family s' (m.assign o zs) → (∀ k, k ≠ o → s'.2 k = s.2 k) →
      maxElems < 2 * (xs.length + k) → X .badAlloc s') : wpe (countLoop o x k) Q X s := by
  induction k generalizing s m xs with
  | zero =>
    rw [countLoop, wpe_pure]
    refine hQ s ?_ fun _ _ => rfl
    rwa [replicate_zero, append_nil, assign_of_some ho]
  | succ k ih =>
    rw [countLoop, wpe_bind]
    refine h.wpe_on ho (xs ++ [x]) (maxElems < 2 * xs.length)
      (fun w _ hholds => hholds.wpe_pushBack (Outside.value x) (fun _ h' => h') fun hbound =>
        ⟨rfl, rfl, hbound⟩) (fun _ s1 h1 hchanged => ?_) fun hbound => ?_
    · refine ih h1 (assign_self _ _ _) (fun s' h' hothers => ?_) fun s' zs h' hothers hbound => ?_
      · rw [assign_assign, append_assoc, singleton_append, ← replicate_succ] at h'
        exact hQ s' h' fun j hj => (hothers j hj).trans (hchanged.others j hj)
      · rw [assign_assign] at h'
        rw [length_append, length_singleton] at hbound
        exact hX s' zs h' (fun j hj => (hothers j hj).trans (hchanged.others j hj)) (by omega)
    · exact hX s xs (by rwa [assign_of_some ho]) (fun _ _ => rfl) (by omega)

theorem wpe_ofCount (h : Family s m) (ho : m o = none)
    (hQ : ∀ s', Family s' (m.assign o (List.replicate n x)) → (∀ k, k ≠ o → s'.2 k = s.2 k) →
      Q () s') (hX : ∀ h', Family (h', s.2) m → maxElems < 2 * n → X .badAlloc (h', s.2)) :
    wpe (ofCount o n x) Q X s := by
  have hothers : ∀ k, k ≠ o → (s.2.assign o Vec.null) k = s.2 k := fun k hk => assign_ne _ _ hk
  have hgone : ∀ s' zs, Family s' (m.assign o zs) → (∀ k, k ≠ o → s'.2 k = s.2 k) →
      maxElems < 2 * n → X .badAlloc (s'.1, s'.2.erase o) := by
    intro s' zs h' hothers' hbound
    obtain ⟨hobjs, hrest⟩ := h.of_unwound ho h' hothers'
    rw [hobjs]
    exact hX s'.1 hrest hbound
  rw [ofCount, wpe_constructing, wpe_bind, wpe_put, wpe_bind]
  refine (h.construct o).wpe_on (assign_self _ _ _) [] (maxElems < n)
    (fun v _ hholds => hholds.wpe_reserve_becomes (fun _ h' => h') fun hbound => ⟨rfl, rfl, hbound⟩)
    (fun _ s1 h1 hchanged => ?_) fun hbound => hgone _ _ (h.construct o) hothers (by omega)
  rw [assign_assign] at h1
  have hothers1 : ∀ k, k ≠ o → s1.2 k = s.2 k := fun k hk =>
    (hchanged.others k hk).trans (hothers k hk)
  refine h1.wpe_countLoop (assign_self _ _ _) (fun s' h' hothers' => ?_)
    fun s' zs h' hothers' hbound => ?_
  · rw [assign_assign, nil_append] at h'
    exact hQ s' h' fun k hk => (hothers' k hk).trans (hothers1 k hk)
  · rw [assign_assign] at h'
    rw [length_nil, Nat.zero_add] at hbound
    exact hgone s' zs h' (fun k hk => (hothers' k hk).trans (hothers1 k hk)) hbound

end Family

end family

/-! ## The sequences -/

section sequences

variable {I T : Type} [DecidableEq I]

def Call.onSeqs (m : Dict I (List T)) : Call I T → Option (Dict I (List T))
  | .construct i => if (m i).isNone then some (m.assign i []) else none
  | .ofCount i n x => if (m i).isNone then some (m.assign i (List.replicate n x)) else none
  | .copy i j => do
      let ys ← m j
      if (m i).isNone then some (m.assign i ys) else none
  | .assign i j => do
      let _ ← m i
      let ys ← m j
      some (m.assign i ys)
  | .swap i j => do
      let _ ← m i
      let _ ← m j
      some (m.swap i j)
  | .destroy i => do
      let _ ← m i
      some (m.erase i)
  | .pushBack i x => do
      let xs ← m i
      some (m.assign i (xs ++ [x]))
  | .popBack i => do
      let xs ← m i
      if xs.isEmpty then none else some (m.assign i xs.dropLast)
  | .insert i n x => do
      let xs ← m i
      if n < xs.length then some (m.assign i (xs.take n ++ x :: xs.drop n)) else none
  | .erase i n => do
      let xs ← m i
      if n < xs.length then some (m.assign i (xs.eraseIdx n)) else none
  | .resize i n x => do
      let xs ← m i
      some (m.assign i (xs.take n ++ List.replicate (n - xs.length) x))
  | .reserve i _ => do
      let xs ← m i
      some (m.assign i xs)
  | .clear i => do
      let _ ← m i
      some (m.assign i [])

def Call.demand (m : Dict I (List T)) : Call I T → Nat
  | .ofCount _ n _ | .resize _ n _ | .reserve _ n => n
  | .copy _ i | .assign _ i | .pushBack i _ | .insert i _ _ => ((m i).getD []).length
  | _ => 0

def Call.Exchanges (i : I) : Call I T → Prop
  | .assign j _ => j = i
  | .swap j k => j = i ∨ k = i
  | _ => False

def CapacityKept (c : Call I T) (d d' : Dict (ObjName I) Vec) : Prop :=
  ∀ i v v', d (.var i) = some v → d' (.var i) = some v' → ¬ c.Exchanges i → v.capacity ≤ v'.capacity

variable {d d' : Dict (ObjName I) Vec}

omit [DecidableEq I] in
theorem Changed.capacityKept {c : Call I T} {o : ObjName I}
    (h : Changed o d d') : CapacityKept c d d' := by
  intro i v v' hv hv' _
  by_cases hi : .var i = o
  · subst hi
    exact h.capacity_le v v' hv hv'
  · rw [h.others _ hi, hv, some_inj] at hv'
    rw [hv']

omit [DecidableEq I] in
theorem capacityKept_of_others {c : Call I T} {j : I}
    (h : ∀ k, k ≠ ObjName.var j → d' k = d k) (hj : d (.var j) = none ∨ c.Exchanges j) :
    CapacityKept c d d' := by
  intro i v v' hv hv' hnot
  by_cases hi : i = j
  · subst hi
    rcases hj with hnone | hex
    · rw [hnone] at hv
      cases hv
    · exact absurd hex hnot
  · rw [h _ (by simpa using hi), hv, some_inj] at hv'
    rw [hv']

open ObjName

variable {s : Heap (Block T) × Dict (ObjName I) Vec} {m m' : Dict I (List T)} {c : Call I T}

/-- Called in `s`, `c` makes of the vectors with the sequences `m` ones with the sequences `m'`;
    or it is out of memory and leaves them as they are. -/
def Call.Correct (c : Call I T) (s : Heap (Block T) × Dict (ObjName I) Vec)
    (m m' : Dict I (List T)) : Prop :=
  wpe (exec c) (fun _ s' => Family s' (vars m') ∧ CapacityKept c s.2 s'.2)
    (fun e s' => e = .badAlloc ∧ s'.2 = s.2 ∧ Family s' (vars m) ∧ maxElems < 2 * c.demand m) s

namespace Family

variable {i j : I} {xs ys : List T} (h : Family s (vars m))

include h

theorem correct_construct (hi : m i = none) : (Call.construct i).Correct s m (m.assign i []) := by
  rw [Call.Correct, exec, wpe_put, vars_assign]
  exact ⟨h.construct _, capacityKept_of_others (fun k hk => assign_ne _ _ hk)
    (Or.inl (h.absent (.var i) hi))⟩

theorem correct_ofCount (hi : m i = none) (n : Nat) (x : T) :
    (Call.ofCount i n x).Correct s m (m.assign i (replicate n x)) := by
  rw [Call.Correct, exec, vars_assign]
  exact h.wpe_ofCount (o := .var i) hi
    (fun s' h' hothers => ⟨h', capacityKept_of_others hothers (Or.inl (h.absent (.var i) hi))⟩)
    fun h' hrest hbound => ⟨rfl, rfl, hrest, hbound⟩

theorem correct_copy (hi : m i = none) (hj : m j = some ys) :
    (Call.copy i j).Correct s m (m.assign i ys) := by
  rw [Call.Correct, exec, vars_assign]
  refine h.wpe_copy (o := .var i) hi rfl (by simp) (show vars m (.var j) = some ys from hj)
    (fun s' h' hothers => ⟨h', capacityKept_of_others hothers (Or.inl (h.absent (.var i) hi))⟩)
    fun h' hrest hbound => ⟨rfl, rfl, hrest, ?_⟩
  rwa [Call.demand, hj]

theorem correct_assign (hi : m i = some xs) (hj : m j = some ys) :
    (Call.assign i j).Correct s m (m.assign i ys) := by
  rw [Call.Correct, exec, vars_assign]
  refine h.wpe_assign (o := .var i) hi rfl rfl (show vars m (.var j) = some ys from hj)
    (fun s' h' hothers => ⟨h', capacityKept_of_others hothers (Or.inr rfl)⟩)
    fun h' hrest hbound => ⟨rfl, rfl, hrest, ?_⟩
  rwa [Call.demand, hj]

theorem correct_swap (hi : m i = some xs) (hj : m j = some ys) :
    (Call.swap i j).Correct s m (m.swap i j) := by
  rw [Call.Correct, exec, vars_swap hi hj]
  refine h.wpe_swap (o := .var i) hi (show vars m (.var j) = some ys from hj) fun h' =>
    ⟨h', fun k v v' hv hv' hnot => ?_⟩
  -- a third vector
  have hki : k ≠ i := fun hki => hnot (Or.inl hki.symm)
  have hkj : k ≠ j := fun hkj => hnot (Or.inr hkj.symm)
  have hsame : s.2.swap (.var i) (.var j) (.var k) = s.2 (.var k) :=
    swap_ne _ (by simpa using hki) (by simpa using hkj)
  obtain rfl : v = v' := some_inj.mp (hv.symm.trans (hsame.symm.trans hv'))
  exact Nat.le_refl _

theorem correct_destroy (hi : m i = some xs) : (Call.destroy i).Correct s m (m.erase i) := by
  rw [Call.Correct, exec, vars_erase]
  refine h.wpe_destroy (o := .var i) hi fun h' hrest => ⟨hrest, fun k v v' hv hv' _ => ?_⟩
  have hv' : s.2.erase (.var i) (.var k) = some v' := hv'
  by_cases hki : k = i
  · rw [hki, erase_self] at hv'
    cases hv'
  · rw [erase_ne _ (by simpa using hki), hv, some_inj] at hv'
    rw [hv']

theorem wpe_exec_on {f : ArrayM T Vec Unit} (hi : m i = some xs)
    (hf : ∀ v, Holds (s.1, v) xs → wpe f (fun _ s' => Becomes (s.1, v) s' ys)
      (fun e s' => e = .badAlloc ∧ s' = (s.1, v) ∧ maxElems < 2 * c.demand m) (s.1, v)) :
    wpe (on (.var i) f) (fun _ s' => Family s' (vars (m.assign i ys)) ∧ CapacityKept c s.2 s'.2)
      (fun e s' => e = .badAlloc ∧ s'.2 = s.2 ∧ Family s' (vars m) ∧ maxElems < 2 * c.demand m)
      s := by
  rw [vars_assign]
  exact h.wpe_on (o := .var i) hi ys (maxElems < 2 * c.demand m) (fun v _ => hf v)
    (fun _ s' h' hchanged => ⟨h', hchanged.capacityKept⟩) fun hbound => ⟨rfl, rfl, h, hbound⟩

variable (hi : m i = some xs)

include hi

theorem correct_pushBack (x : T) : (Call.pushBack i x).Correct s m (m.assign i (xs ++ [x])) := by
  refine h.wpe_exec_on hi fun v hv => hv.wpe_pushBack (Outside.value x) (fun _ h' => h')
    fun hbound => ⟨rfl, rfl, ?_⟩
  rwa [Call.demand, hi]

theorem correct_popBack (hne : xs ≠ []) : (Call.popBack i).Correct s m (m.assign i xs.dropLast) :=
  h.wpe_exec_on hi fun _ hv => hv.wpe_popBack hne fun _ h' => h'

theorem correct_insert {n : Nat} (hn : n < xs.length) (x : T) :
    (Call.insert i n x).Correct s m (m.assign i (xs.take n ++ x :: xs.drop n)) := by
  have hlen : (xs.take n).length = n := length_take_of_le hn.le
  refine h.wpe_exec_on hi fun v hv => ?_
  rw [← take_append_drop n xs] at hv
  have hinsert := hv.wpe_insert (by simpa using hn) (Outside.value x) (X := fun e s' =>
    e = .badAlloc ∧ s' = (s.1, v) ∧ maxElems < 2 * (Call.insert i n x).demand m)
    (Q := fun _ s' => Becomes (s.1, v) s' (xs.take n ++ x :: xs.drop n)) (fun _ _ h' => h')
    fun hbound => ⟨rfl, rfl, by rwa [Call.demand, hi, getD_some, ← take_append_drop n xs]⟩
  rw [hlen] at hinsert
  rw [wpe_bind, wpe_getObj, wpe_bind]
  exact wpe_mono hinsert (fun _ _ h' => (wpe_pure _ _ _ _).mpr h') fun _ _ hX => hX

theorem correct_erase {n : Nat} (hn : n < xs.length) :
    (Call.erase i n).Correct s m (m.assign i (xs.eraseIdx n)) := by
  obtain ⟨as, b, bs, rfl, rfl⟩ : ∃ as b bs, xs = as ++ b :: bs ∧ as.length = n :=
    ⟨xs.take n, xs[n], xs.drop (n + 1), by simp, length_take_of_le hn.le⟩
  rw [eraseIdx_append_of_length_le le_rfl, Nat.sub_self, eraseIdx_cons_zero]
  refine h.wpe_exec_on hi fun v hv => ?_
  rw [wpe_bind, wpe_getObj, wpe_bind]
  exact hv.wpe_erase fun _ _ h' => (wpe_pure _ _ _ _).mpr h'

theorem correct_resize (n : Nat) (x : T) : (Call.resize i n x).Correct s m
    (m.assign i (xs.take n ++ replicate (n - xs.length) x)) := by
  refine h.wpe_exec_on hi fun v hv => hv.wpe_resize (fun _ h' => h') fun hbound => ⟨rfl, rfl, ?_⟩
  rw [Call.demand]
  omega

theorem correct_reserve (n : Nat) : (Call.reserve i n).Correct s m (m.assign i xs) := by
  refine h.wpe_exec_on hi fun v hv => hv.wpe_reserve_becomes (fun _ h' => h')
    fun hbound => ⟨rfl, rfl, ?_⟩
  rw [Call.demand]
  omega

theorem correct_clear : (Call.clear i).Correct s m (m.assign i []) :=
  h.wpe_exec_on hi fun _ hv => hv.wpe_clear fun _ h' => h'

end Family

/-- The step lemma: what is defined on the sequences is what the code does. -/
theorem wpe_exec (h : Family s (vars m)) (hc : c.onSeqs m = some m') : c.Correct s m m' := by
  cases c with
  | construct i =>
    obtain ⟨hi, rfl⟩ : m i = none ∧ _ = m' := by simpa [Call.onSeqs] using hc
    exact h.correct_construct hi
  | ofCount i n x =>
    obtain ⟨hi, rfl⟩ : m i = none ∧ _ = m' := by simpa [Call.onSeqs] using hc
    exact h.correct_ofCount hi n x
  | copy i j =>
    obtain ⟨ys, hj, hi, rfl⟩ : ∃ ys, m j = some ys ∧ m i = none ∧ m.assign i ys = m' := by
      simpa [Call.onSeqs, bind_eq_some_iff] using hc
    exact h.correct_copy hi hj
  | assign i j =>
    obtain ⟨⟨xs, hi⟩, ys, hj, rfl⟩ : (∃ xs, m i = some xs) ∧ ∃ ys, m j = some ys ∧
        m.assign i ys = m' := by simpa [Call.onSeqs, bind_eq_some_iff] using hc
    exact h.correct_assign hi hj
  | swap i j =>
    obtain ⟨⟨xs, hi⟩, ⟨ys, hj⟩, rfl⟩ : (∃ xs, m i = some xs) ∧ (∃ ys, m j = some ys) ∧
        m.swap i j = m' := by simpa [Call.onSeqs, bind_eq_some_iff] using hc
    exact h.correct_swap hi hj
  | destroy i =>
    obtain ⟨⟨xs, hi⟩, rfl⟩ : (∃ xs, m i = some xs) ∧ m.erase i = m' := by
      simpa [Call.onSeqs, bind_eq_some_iff] using hc
    exact h.correct_destroy hi
  | pushBack i x =>
    obtain ⟨xs, hi, rfl⟩ : ∃ xs, m i = some xs ∧ m.assign i (xs ++ [x]) = m' := by
      simpa [Call.onSeqs, bind_eq_some_iff] using hc
    exact h.correct_pushBack hi x
  | popBack i =>
    obtain ⟨xs, hi, hne, rfl⟩ : ∃ xs, m i = some xs ∧ xs ≠ [] ∧ m.assign i xs.dropLast = m' := by
      simpa [Call.onSeqs, bind_eq_some_iff] using hc
    exact h.correct_popBack hi hne
  | insert i n x =>
    obtain ⟨xs, hi, hn, rfl⟩ : ∃ xs, m i = some xs ∧ n < xs.length ∧
        m.assign i (xs.take n ++ x :: xs.drop n) = m' := by
      simpa [Call.onSeqs, bind_eq_some_iff] using hc
    exact h.correct_insert hi hn x
  | erase i n =>
    obtain ⟨xs, hi, hn, rfl⟩ : ∃ xs, m i = some xs ∧ n < xs.length ∧
        m.assign i (xs.eraseIdx n) = m' := by
      simpa [Call.onSeqs, bind_eq_some_iff] using hc
    exact h.correct_erase hi hn
  | resize i n x =>
    obtain ⟨xs, hi, rfl⟩ : ∃ xs, m i = some xs ∧
        m.assign i (xs.take n ++ replicate (n - xs.length) x) = m' := by
      simpa [Call.onSeqs, bind_eq_some_iff] using hc
    exact h.correct_resize hi n x
  | reserve i n =>
    obtain ⟨xs, hi, rfl⟩ : ∃ xs, m i = some xs ∧ m.assign i xs = m' := by
      simpa [Call.onSeqs, bind_eq_some_iff] using hc
    exact h.correct_reserve hi n
  | clear i =>
    obtain ⟨⟨xs, hi⟩, rfl⟩ : (∃ xs, m i = some xs) ∧ m.assign i [] = m' := by
      simpa [Call.onSeqs, bind_eq_some_iff] using hc
    exact h.correct_clear hi

end sequences

/-! ## Runs -/

section runs

open ObjName

variable {I T : Type} [DecidableEq I] {s : Heap (Block T) × Dict (ObjName I) Vec}
  {m : Dict I (List T)}

def vectors (I T : Type) [DecidableEq I] :
    System ((Heap (Block T) × Dict (ObjName I) Vec) × Dict I (List T)) (Call I T) where
  init w := w = ((Heap.empty, Dict.empty), Dict.empty)
  step w c w' := ∃ m', c.onSeqs w.2 = some m' ∧
    (exec c w.1 = .ok () w'.1 ∧ w'.2 = m' ∨ exec c w.1 = .error .badAlloc w'.1 ∧ w'.2 = w.2)

structure Shows (s : Heap (Block T) × Dict (ObjName I) Vec) (m : Dict I (List T)) : Prop where
  absent : ∀ i, m i = none → s.2 (.var i) = none
  vector : ∀ i xs, m i = some xs → ∃ v, s.2 (.var i) = some v ∧ v.size = xs.length ∧
    v.size ≤ v.capacity ∧ ∀ k x, xs[k]? = some x → at_ k (s.1, v) = .ok x (s.1, v)

omit [DecidableEq I] in
theorem Family.shows (h : Family s (vars m)) : Shows s m where
  absent i hi := h.absent (.var i) hi
  vector i xs hi := by
    obtain ⟨v, hv, hholds⟩ := h.present (.var i) xs hi
    exact ⟨v, hv, hholds.size_eq, hholds.size_le_capacity, fun k x hx =>
      eq_ok_of_wpe ((hholds.wpe_at hx _).mpr ⟨rfl, rfl⟩)⟩

theorem family_of_reachable (h : (vectors I T).Reachable (s, m)) : Family s (vars m) := by
  refine System.invariant (fun w => Family w.1 (vars w.2)) ?_ ?_ (s, m) h
  · rintro _ rfl
    have hempty : vars (Dict.empty : Dict I (List T)) = Dict.empty := by
      funext k
      cases k <;> rfl
    rw [hempty]
    exact Family.empty
  · rintro ⟨s, m⟩ c ⟨s', m'⟩ hfamily ⟨m'', hc, ⟨hok, rfl⟩ | ⟨herror, rfl⟩⟩
    · exact (wpe_ok (wpe_exec hfamily hc) hok).1
    · exact (wpe_error (wpe_exec hfamily hc) herror).2.2.1

/-- **Vectors are sequences**: after every run of valid calls the vectors show the sequences,
    and the next call returns, with the capacities kept except where arrays are exchanged, or
    it throws `std::bad_alloc` and leaves all vectors as they are. It reads no element that
    has not been written and throws only if it asks for more than half of `PTRDIFF_MAX`
    elements. -/
theorem vector_refines_sequence (h : (vectors I T).Reachable (s, m)) :
    Shows s m ∧ ∀ c m', c.onSeqs m = some m' →
      (∃ s', exec c s = .ok () s' ∧ Shows s' m' ∧ CapacityKept c s.2 s'.2) ∨
        ∃ s', exec c s = .error .badAlloc s' ∧ s'.2 = s.2 ∧ Shows s' m ∧
          maxElems < 2 * c.demand m := by
  have hfamily := family_of_reachable h
  refine ⟨hfamily.shows, fun c m' hc => ?_⟩
  rcases wpe_cases (wpe_exec hfamily hc) with
    ⟨_, s', hok, h', hcap⟩ | ⟨e, s', herror, rfl, hobjs, h', hbound⟩
  · exact Or.inl ⟨s', hok, h'.shows, hcap⟩
  · exact Or.inr ⟨s', herror, hobjs, h'.shows, hbound⟩

theorem exists_reachable (cs : List (Call I T)) {m' : Dict I (List T)}
    (h : (vectors I T).Reachable (s, m)) (hcs : cs.foldlM (fun m c =>
      if 2 * c.demand m ≤ maxElems then c.onSeqs m else none) m = some m') :
    ∃ s', (vectors I T).Reachable (s', m') := by
  induction cs generalizing s m with
  | nil =>
    cases hcs
    exact ⟨s, h⟩
  | cons c cs ih =>
    rw [foldlM_cons] at hcs
    obtain ⟨m1, hc, hcs⟩ := bind_eq_some_iff.mp hcs
    obtain ⟨hdemand, hc⟩ := ite_none_right_eq_some.mp hc
    rcases wpe_cases (wpe_exec (family_of_reachable h) hc) with
      ⟨_, s1, hok, -⟩ | ⟨_, _, _, _, _, _, hmore⟩
    · have hstep : (vectors I T).step (s, m) c (s1, m1) := ⟨m1, hc, Or.inl ⟨hok, rfl⟩⟩
      exact ih (h.step hstep) hcs
    · omega

/-- One vector: 7 is inserted between 5 and 6, 5 is erased, and then 3 can be inserted. -/
theorem vector_refines_sequence_edits :
    ∃ (s s' : Heap (Block Nat) × Dict (ObjName Unit) Vec) (m : Dict Unit (List Nat)),
      (vectors Unit Nat).Reachable (s, m) ∧ Shows s m ∧ m () = some [7, 6] ∧
        exec (.insert () 0 3) s = .ok () s' ∧ Shows s' (m.assign () [3, 7, 6]) := by
  obtain ⟨s, h⟩ := exists_reachable (I := Unit) (T := Nat) [.construct (), .pushBack () 5,
    .pushBack () 6, .insert () 1 7, .erase () 0] ⟨_, [], rfl, .nil _⟩ rfl
  obtain ⟨hshows, hnext⟩ := vector_refines_sequence h
  rcases hnext (.insert () 0 3) _ rfl with ⟨s', hok, h', -⟩ | ⟨_, _, _, _, hmore⟩
  · exact ⟨s, s', _, h, hshows, rfl, hok, h'⟩
  · exact absurd hmore (by decide)

end runs

/-! ## An element of the vector itself -/

section own

variable {T : Type} {s : Heap (Block T) × Vec} {xs ys : List T} {x : T}

theorem Holds.unique (h : Holds s xs) (h' : Holds s ys) : xs = ys := by
  rcases h with ⟨hnull, rfl⟩ | ⟨a, room, h⟩ <;> rcases h' with ⟨hnull', rfl⟩ | ⟨a', room', h'⟩
  · rfl
  · exact absurd (hnull.symm.trans h'.members) (by simp [Vec.null, elem, ElemPtr.null])
  · exact absurd (hnull'.symm.trans h.members) (by simp [Vec.null, elem, ElemPtr.null])
  · have hmembers := h.members.symm.trans h'.members
    obtain ⟨rfl, hlen⟩ := elem_inj.mp (congrArg Vec.finish hmembers)
    have hcells := some_inj.mp (h.cells.symm.trans h'.cells)
    exact map_injective_iff.mpr (some_injective T) (append_inj_left hcells (by simpa using hlen))

theorem getElem?_shifted (y : Option T) (room : Block T) {pos j : Nat} (hpos : pos < xs.length)
    (hj : j < xs.length) :
    (blit (xs.map some ++ y :: room) (pos + 1) ((xs.drop pos).map some))[j]? =
      (xs[if j ≤ pos then j else j - 1]?).map some := by
  rw [blit_eq _ _ _ (by simp; omega)]
  split
  · next hle =>
    rw [append_assoc, getElem?_append_left (by simp; omega), getElem?_take,
      if_pos (by omega), getElem?_append_left (by simpa using hj), getElem?_map]
  · next hlt =>
    rw [append_assoc, getElem?_append_right (by simp; omega),
      getElem?_append_left (by simp; omega), getElem?_map, getElem?_drop]
    congr 2
    simp
    omega

theorem Stored.wpe_insert_own {a pos j : Nat} {room : Block T} (h : Stored s a xs room)
    (hroom : s.2.size < s.2.capacity) (hpos : pos < xs.length) (hj : j < xs.length)
    (hx : xs[if j ≤ pos then j else j - 1]? = some x) :
    wpe (insert (s.2.start + (pos : Int)) (.element (s.2.start + (j : Int))))
      (fun _ s' => Holds s' (xs.take pos ++ x :: xs.drop pos)) (fun _ _ => False) s := by
  obtain ⟨l, r, rfl, rfl⟩ : ∃ l r, l ++ r = xs ∧ l.length = pos :=
    ⟨_, _, take_append_drop pos xs, length_take_of_le hpos.le⟩
  have hr : r ≠ [] := by
    rintro rfl
    simp at hpos
  have hnot : s.2.finish ≠ s.2.endofstorage := by
    intro heq
    rw [Vec.size, Vec.capacity, heq] at hroom
    exact lt_irrefl _ hroom
  rw [take_left, drop_left]
  refine h.wpe_insert hr (fun s1 a1 y1 room1 h1 _ _ hsame => ?_) fun hfull => absurd hfull hnot
  obtain rfl := hsame hnot
  rw [h1.wpe_insertAt (x := x) fun Q' => ?_]
  · exact (h1.becomes (l ++ x :: r) room1 (by simp; omega)).holds
  · have hread := getElem?_shifted y1 room1 hpos hj
    rw [drop_left, hx, map_some] at hread
    have hplace : s1.2.start + (j : Int) = elem a1 j := by
      rw [h1.members, elem_add, Nat.zero_add]
    rw [Arg.get, hplace]
    exact wpe_read (setBlock_self h1.cells) hread Q'

/-- **An own element**: where there is room, an element of the vector that is inserted into
    it is inserted with its old value if and only if it is not behind the position, or is
    equal to the element before it. -/
theorem insert_own_element_iff (s : Heap (Block T) × Vec) (xs : List T) (h : Holds s xs)
    (hroom : s.2.size < s.2.capacity) (pos j : Nat) (hpos : pos < xs.length) (x : T)
    (hx : xs[j]? = some x) :
    (∃ p s', insert (s.2.start + (pos : Int)) (.element (s.2.start + (j : Int))) s = .ok p s' ∧
        Holds s' (xs.take pos ++ x :: xs.drop pos)) ↔
      j ≤ pos ∨ xs[j - 1]? = some x := by
  have hj : j < xs.length := (List.getElem?_eq_some_iff.mp hx).1
  rcases h with ⟨-, rfl⟩ | ⟨a, room, h⟩
  · cases hx
  -- the value that is read at the place of the element
  obtain ⟨x', hx'⟩ : ∃ x', xs[if j ≤ pos then j else j - 1]? = some x' :=
    ⟨_, List.getElem?_eq_getElem (by split <;> omega)⟩
  obtain ⟨p, s', hok, hholds⟩ := exists_of_wpe (h.wpe_insert_own hroom hpos hj hx')
  have hiff : (∃ p s', insert (s.2.start + (pos : Int)) (.element (s.2.start + (j : Int))) s =
      .ok p s' ∧ Holds s' (xs.take pos ++ x :: xs.drop pos)) ↔ x' = x := by
    constructor
    · rintro ⟨p', s'', hok', hholds'⟩
      rw [hok, EStateM.Result.ok.injEq] at hok'
      have hsame := hholds.unique (hok'.2 ▸ hholds')
      exact (List.cons.inj (List.append_cancel_left hsame)).1
    · rintro rfl
      exact ⟨p, s', hok, hholds⟩
  rw [hiff]
  by_cases hle : j ≤ pos
  · rw [if_pos hle, hx, Option.some_inj] at hx'
    simp [hle, hx']
  · rw [if_neg hle] at hx'
    simp [hle, hx']

def threeOfFour : Heap (Block Nat) × Vec :=
  (Heap.empty.alloc [some 1, some 2, some 3, none], ⟨elem 0 0, elem 0 3, elem 0 4⟩)

theorem threeOfFour_holds : Holds threeOfFour [1, 2, 3] :=
  Or.inr ⟨0, [none], rfl, rfl, by decide⟩

theorem insert_own_element_first :
    ∃ p s', insert (elem 0 1) (.element (elem 0 0)) threeOfFour = .ok p s' ∧
      Holds s' [1, 1, 2, 3] :=
  (insert_own_element_iff threeOfFour [1, 2, 3] threeOfFour_holds (by decide) 1 0 (by decide) 1
    rfl).mpr (Or.inl (by decide))

/-- The `2` has been moved, and the `1` is at its place, when it is read. -/
theorem insert_own_element_moved :
    ∃ p s', insert (elem 0 0) (.element (elem 0 1)) threeOfFour = .ok p s' ∧
      Holds s' [1, 1, 2, 3] ∧ ¬ Holds s' [2, 1, 2, 3] := by
  obtain ⟨p, s', hok, hholds⟩ : ∃ p s', insert (elem 0 0) (.element (elem 0 1)) threeOfFour =
      .ok p s' ∧ Holds s' [1, 1, 2, 3] :=
    ⟨_, (_, _), rfl, Or.inr ⟨0, [], rfl, rfl, by decide⟩⟩
  exact ⟨p, s', hok, hholds, fun h => absurd (hholds.unique h) (by decide)⟩

end own

end CallLesson.Algorithm.ZhcVector
