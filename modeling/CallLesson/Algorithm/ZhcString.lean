import CallLesson.Framework.CStrings
import CallLesson.Framework.System

/-! # `zhc::string`

    Model of `String.hpp`: an array with `_capacity + 1` characters, of which the first
    `_size` are the string. The class copies with the functions of `<cstring>`, which stop at
    a null byte, and computes positions as `size_t`, which wraps. A `const char*` is a pointer
    into any array of the program, also that of a string. -/

namespace CallLesson.Algorithm.ZhcString

open ArrayM Exec Text

/-! ## Model -/

structure Str where
  str : ElemPtr
  size : UInt64
  capacity : UInt64
  deriving DecidableEq

namespace Str

def base (v : Str) : Ptr := v.str.base

end Str

def npos : UInt64 := -1

section model

abbrev StringM := ArrayM UInt8 Str

def ofCStr {ρ : Type} (str : ElemPtr) : ArrayM UInt8 ρ Str := do
  let size ← strlen str
  let capacity := size
  let copy ← newArray (capacity + 1).toNat
  strcpy copy str
  pure ⟨copy, size, capacity⟩

def at_ (pos : UInt64) : StringM UInt8 := do
  let v ← getObj
  check (pos < v.size)
  read (v.str + pos)

def reserve (n : UInt64) : StringM Unit := do
  let v ← getObj
  whenever (n > v.capacity) do
    let tmp ← newArray (n + 1).toNat
    strcpy tmp v.str
    deleteArray v.str
    setObj { v with str := tmp, capacity := n }

def resize (n : UInt64) (ch : UInt8) : StringM Unit := do
  let v ← getObj
  if n > v.size then
    reserve n
    let v ← getObj
    fill (v.str + v.size) ch (n - v.size).toNat
    setObj { v with size := n }
    write (v.str + n) 0
  else
    write (v.str + n) 0
    setObj { v with size := n }

def makeRoom : StringM Unit := do
  let v ← getObj
  whenever (v.size = v.capacity) (reserve (if v.capacity = 0 then 4 else v.capacity * 2))

def pushBack (ch : UInt8) : StringM Unit := do
  makeRoom
  let v ← getObj
  write (v.str + v.size) ch
  setObj { v with size := v.size + 1 }
  write (v.str + (v.size + 1)) 0

def makeRoomFor (len : UInt64) : StringM Unit := do
  let v ← getObj
  whenever (v.size + len > v.capacity) (reserve (v.size + len))

def append (str : ElemPtr) : StringM Unit := do
  let len ← strlen str
  makeRoomFor len
  let v ← getObj
  strcpy (v.str + v.size) str
  setObj { v with size := v.size + len }

def addChar (ch : UInt8) : StringM Unit := pushBack ch

def addStr (str : ElemPtr) : StringM Unit := append str

def shiftLoop (str : ElemPtr) (len : UInt64) : Nat → UInt64 → StringM Unit
  | 0, _ => pure ()
  | k + 1, last => do
      write (str + last) (← read (str + (last - len)))
      shiftLoop str len k (last - 1)

def insertChar (pos : UInt64) (ch : UInt8) : StringM Unit := do
  let v ← getObj
  check (pos ≤ v.size)
  makeRoom
  let v ← getObj
  let last := v.size + 1
  shiftLoop v.str 1 (last.toNat - pos.toNat) last
  write (v.str + pos) ch
  setObj { v with size := v.size + 1 }

def insertStr (pos : UInt64) (str : ElemPtr) : StringM Unit := do
  let len ← strlen str
  makeRoomFor len
  let v ← getObj
  let last := v.size + len
  shiftLoop v.str len (last.toNat - (pos + len - 1).toNat) last
  strncpy (v.str + pos) str len.toNat
  setObj { v with size := v.size + len }

def erase (pos len : UInt64) : StringM Unit := do
  let v ← getObj
  check (pos < v.size)
  if len = npos ∨ pos + len ≥ v.size then
    write (v.str + pos) 0
    setObj { v with size := pos }
  else
    strcpy (v.str + pos) (v.str + pos + len)
    setObj { v with size := v.size - len }

def findLoop (str : ElemPtr) (ch : UInt8) : Nat → UInt64 → StringM UInt64
  | 0, _ => pure npos
  | k + 1, pos => do
      if (← read (str + pos)) = ch then pure pos else findLoop str ch k (pos + 1)

def findChar (ch : UInt8) (pos : UInt64) : StringM UInt64 := do
  let v ← getObj
  check (pos < v.size)
  findLoop v.str ch (v.size.toNat - pos.toNat) pos

def findStr (str : ElemPtr) (pos : UInt64) : StringM UInt64 := do
  let v ← getObj
  check (pos < v.size)
  let ptr ← strstr (v.str + pos) str
  if ptr = .null then pure npos else pure (UInt64.ofInt (ptr.idx - v.str.idx))

def clear : StringM Unit := do
  let v ← getObj
  setObj { v with size := 0 }
  write v.str 0

inductive Call where
  | pushBack (ch : UInt8)
  | append (str : ElemPtr)
  | addChar (ch : UInt8)
  | addStr (str : ElemPtr)
  | insertChar (pos : UInt64) (ch : UInt8)
  | insertStr (pos : UInt64) (str : ElemPtr)
  | erase (pos len : UInt64)
  | resize (n : UInt64) (ch : UInt8)
  | reserve (n : UInt64)
  | clear
  deriving DecidableEq

def exec : Call → StringM Unit
  | .pushBack ch => pushBack ch
  | .append str => append str
  | .addChar ch => addChar ch
  | .addStr str => addStr str
  | .insertChar pos ch => insertChar pos ch
  | .insertStr pos str => insertStr pos str
  | .erase pos len => erase pos len
  | .resize n ch => resize n ch
  | .reserve n => reserve n
  | .clear => clear

end model

/-! ## One string -/

open List Heap UInt64

variable {Q : Unit → Heap (Block UInt8) × Str → Prop} {pos len : UInt64} {ch : UInt8} {l r : Bytes}
  {p : ElemPtr}

section one

variable {s s' : Heap (Block UInt8) × Str} {a : Nat} {cs ds : Bytes} {room : Block UInt8}
  {n : UInt64} {X : Stop → Heap (Block UInt8) × Str → Prop}

structure IsText (s : Heap (Block UInt8) × Str) (a : Nat) (cs : Bytes) (room : Block UInt8) :
    Prop where
  str : s.2.str = elem a 0
  size : s.2.size.toNat = cs.length
  capacity : s.2.capacity.toNat = cs.length + room.length
  cells : s.1.cells a = some ((cs ++ [0]).map some ++ room)
  plain : 0 ∉ cs
  fits : cs.length + room.length < maxElems

def Holds (s : Heap (Block UInt8) × Str) (cs : Bytes) : Prop := ∃ a room, IsText s a cs room

structure Becomes (s s' : Heap (Block UInt8) × Str) (cs : Bytes) : Prop where
  holds : Holds s' cs
  kept : Kept Str.base s s'

theorem toNat_npos : npos.toNat = 2 ^ 64 - 1 := rfl

theorem toNat_succ (hn : n ≠ npos) : (n + 1).toNat = n.toNat + 1 := by
  have hlt := n.toNat_lt
  rw [Ne, ← UInt64.toNat_inj, toNat_npos] at hn
  rw [UInt64.toNat_add, UInt64.toNat_one]
  omega

structure Outside (s : Heap (Block UInt8) × Str) (p : ElemPtr) (ds : Bytes) : Prop where
  text : s.1.textOf p = some ds
  short : ds.length < maxElems
  apart : p.base ≠ s.2.base

namespace Outside

variable {p : ElemPtr}

theorem plain (h : Outside s p ds) : 0 ∉ ds := by
  obtain ⟨_, _, _, _, _, hplain, _⟩ := textOf_eq_some_iff.mp h.text
  exact hplain

theorem of_kept (h : Outside s p ds) (hkept : Kept Str.base s s') : Outside s' p ds := by
  obtain ⟨a, i, b, rfl, ha, htext⟩ := textOf_eq_some_iff.mp h.text
  have hlt := lt_next ha
  refine ⟨?_, h.short, fun hbase => ?_⟩
  · rw [textOf_eq_some_iff]
    exact ⟨a, i, b, rfl, (hkept.others a hlt (Ne.symm h.apart)).trans ha, htext⟩
  · rcases hkept.own with hsame | hnew
    · exact h.apart (hbase.trans hsame)
    · exact absurd (hnew a hbase.symm) (by omega)

end Outside

namespace IsText

section

variable (h : IsText s a cs room)

include h

theorem base_eq : s.2.base = some a := by
  rw [Str.base, h.str, elem_base]

theorem holds : Holds s cs := ⟨a, room, h⟩

theorem place (hn : n.toNat ≤ cs.length + room.length) : s.2.str + n = elem a n.toNat := by
  have hfits := h.fits
  unfold maxElems at hfits
  rw [h.str, elem_add_size (by omega), Nat.zero_add]

theorem textOf {k : Nat} (hk : k ≤ cs.length) : s.1.textOf (elem a k) = some (cs.drop k) := by
  rw [textOf_eq_some_iff]
  refine ⟨a, k, _, rfl, h.cells, fun hmem => h.plain (mem_of_mem_drop hmem), ?_⟩
  rw [drop_append_of_le_length (by simp; omega), ← map_drop, drop_append_of_le_length hk]
  exact prefix_append _ _

theorem toNat_size_succ : (s.2.size + 1).toNat = cs.length + 1 := by
  have hfits := h.fits
  have hsize := h.size
  unfold maxElems at hfits
  rw [toNat_succ fun heq => ?_, hsize]
  rw [heq, toNat_npos] at hsize
  omega

theorem toNat_size_add (hds : ds.length < maxElems) :
    (s.2.size + UInt64.ofNat ds.length).toNat = cs.length + ds.length := by
  have hfits := h.fits
  unfold maxElems at hfits hds
  rw [UInt64.toNat_add, h.size, UInt64.toNat_ofNat']
  omega

theorem overwrite (ds : Bytes) (hl : l <+: cs) (hplain : 0 ∉ ds)
    (hfits : (l ++ ds).length ≤ cs.length + room.length) (hn : n.toNat = (l ++ ds).length) :
    Becomes s (s.1.setBlock a (blit ((cs ++ [0]).map some ++ room) l.length
      ((ds ++ [0]).map some)), { s.2 with size := n }) (l ++ ds) := by
  obtain ⟨r, rfl⟩ := hl
  have hmax := h.fits
  simp only [length_append] at hfits hmax
  refine ⟨⟨a, ((l ++ r ++ [0]).map some ++ room).drop (l.length + ds.length + 1), ?_⟩,
    Kept.setBlock _ h.base_eq h.base_eq⟩
  refine ⟨h.str, hn, ?_, ?_, ?_, ?_⟩
  · rw [length_drop]
    simp only [length_append, length_map, length_singleton]
    rw [h.capacity, length_append]
    omega
  · rw [setBlock_self h.cells, blit_eq _ _ _ (by simp; omega)]
    simp [Nat.add_assoc]
  · have := h.plain
    rw [mem_append, not_or] at this ⊢
    exact ⟨this.1, hplain⟩
  · rw [length_drop]
    simp only [length_append, length_map, length_singleton]
    omega

theorem wpe_reserve (hn : n ≠ npos)
    (hQ : ∀ s' a' room', IsText s' a' cs room' → Kept Str.base s s' →
      n.toNat ≤ cs.length + room'.length → Q () s') (hX : maxElems ≤ n.toNat → X .badAlloc s) :
    wpe (reserve n) Q X s := by
  rw [reserve, wpe_bind, wpe_getObj, wpe_whenever]
  refine ⟨fun hlt => ?_, fun hle => ?_⟩
  · rw [gt_iff_lt, lt_iff_toNat_lt, h.capacity] at hlt
    have htext := h.textOf (Nat.zero_le _)
    rw [drop_zero, ← h.str] at htext
    have hne : a ≠ s.1.next := (lt_next h.cells).ne
    rw [toNat_succ hn, wpe_strcpy_new htext (by omega)]
    refine ⟨fun hfits => ?_, fun hnot => hX (Nat.le_of_not_lt hnot)⟩
    rw [wpe_bind, h.str, wpe_deleteArray (alloc_of_some h.cells _), wpe_setObj]
    refine hQ _ s.1.next (replicate (n.toNat - cs.length) none)
      ⟨rfl, h.size, ?_, ?_, h.plain, ?_⟩ (Kept.replace _ h.base_eq rfl) ?_
    · show n.toNat = _
      rw [length_replicate]
      omega
    · rw [free_ne _ hne.symm, alloc_self]
    · rw [length_replicate]
      omega
    · rw [length_replicate]
      omega
  · rw [gt_iff_lt, lt_iff_toNat_lt, h.capacity] at hle
    exact hQ s a room h (Kept.refl s) (Nat.le_of_not_lt hle)

theorem wpe_makeRoom
    (hQ : ∀ s' a' y room', IsText s' a' cs (y :: room') → Kept Str.base s s' → Q () s')
    (hX : maxElems ≤ 2 * cs.length → X .badAlloc s) : wpe makeRoom Q X s := by
  have hfits := h.fits
  have hsize := h.size
  have hcapacity := h.capacity
  unfold maxElems at hfits
  rw [makeRoom, wpe_bind, wpe_getObj, wpe_whenever, ← UInt64.toNat_inj, hsize, hcapacity]
  refine ⟨fun hfull => ?_, fun hspare => ?_⟩
  · have hnew : (if s.2.capacity = 0 then 4 else s.2.capacity * 2).toNat =
        if cs.length = 0 then 4 else 2 * cs.length := by
      by_cases hzero : cs.length = 0
      · rw [if_pos hzero, if_pos]
        · rfl
        · rw [← UInt64.toNat_inj, hcapacity, ← hfull, hzero, UInt64.toNat_zero]
      · rw [if_neg hzero, if_neg, UInt64.toNat_mul, hcapacity, ← hfull]
        · show cs.length * 2 % 2 ^ 64 = _
          omega
        · rwa [← UInt64.toNat_inj, hcapacity, ← hfull, UInt64.toNat_zero]
    refine h.wpe_reserve (fun heq => ?_) (fun s' a' room' h' hkept hle => ?_) fun hmax => hX ?_
    · rw [heq, toNat_npos] at hnew
      split at hnew <;> omega
    · rw [hnew] at hle
      cases room' with
      | nil =>
        rw [List.length_nil] at hle
        split at hle <;> omega
      | cons y room' => exact hQ s' a' y room' h' hkept
    · rw [hnew] at hmax
      unfold maxElems at hmax ⊢
      split at hmax <;> omega
  · cases room with
    | nil => exact absurd rfl hspare
    | cons y room => exact hQ s a y room h (Kept.refl s)

theorem wpe_makeRoomFor (hds : ds.length < maxElems)
    (hQ : ∀ s' a' room', IsText s' a' cs room' → Kept Str.base s s' →
      ds.length ≤ room'.length → Q () s') (hX : maxElems ≤ cs.length + ds.length → X .badAlloc s) :
    wpe (makeRoomFor (UInt64.ofNat ds.length)) Q X s := by
  have hsum : (s.2.size + ofNat ds.length).toNat = cs.length + ds.length :=
    h.toNat_size_add hds
  have hfits := h.fits
  unfold maxElems at hfits hds
  rw [makeRoomFor, wpe_bind, wpe_getObj, wpe_whenever, gt_iff_lt, lt_iff_toNat_lt, h.capacity, hsum]
  refine ⟨fun _ => ?_, fun hle => hQ s a room h (Kept.refl s) (by omega)⟩
  refine h.wpe_reserve (fun heq => ?_) (fun s' a' room' h' hkept hle => ?_) fun hmax => ?_
  · rw [heq, toNat_npos] at hsum
    omega
  · exact hQ s' a' room' h' hkept (by omega)
  · exact hX (hsum ▸ hmax)

theorem wpe_pushBack_blit (hQ : ∀ s1 a1 y room1, IsText s1 a1 cs (y :: room1) → Kept Str.base s s1 →
      Q () (s1.1.setBlock a1 (blit ((cs ++ [0]).map some ++ y :: room1) cs.length
        (([ch] ++ [0]).map some)), { s1.2 with size := s1.2.size + 1 }))
    (hX : maxElems ≤ 2 * cs.length → X .badAlloc s) : wpe (pushBack ch) Q X s := by
  rw [pushBack, wpe_bind]
  refine h.wpe_makeRoom (fun s1 a1 y room1 h1 hkept => ?_) hX
  have hplace : s1.2.str + s1.2.size = elem a1 cs.length := by
    rw [h1.place (by rw [h1.size]; omega), h1.size]
  have hnext : s1.2.str + (s1.2.size + 1) = elem a1 (cs.length + 1) := by
    rw [h1.place (by rw [h1.toNat_size_succ, length_cons]; omega), h1.toNat_size_succ]
  rw [wpe_bind, wpe_getObj, wpe_bind, hplace, wpe_write h1.cells (by simp), wpe_bind, wpe_setObj,
    hnext, wpe_write (setBlock_self h1.cells) (by simp), setBlock_setBlock]
  exact hQ s1 a1 y room1 h1 hkept

theorem wpe_pushBack (hch : ch ≠ 0) (hQ : ∀ s', Becomes s s' (cs ++ [ch]) → Q () s')
    (hX : maxElems ≤ 2 * cs.length → X .badAlloc s) : wpe (pushBack ch) Q X s := by
  refine h.wpe_pushBack_blit (fun s1 a1 y room1 h1 hkept => ?_) hX
  have hbecomes := h1.overwrite [ch] (n := s1.2.size + 1) (prefix_refl cs)
    (by simpa using Ne.symm hch) (by simp) (by rw [h1.toNat_size_succ]; simp)
  exact hQ _ ⟨hbecomes.holds, hkept.trans hbecomes.kept⟩

theorem wpe_append (harg : Outside s p ds) (hQ : ∀ s', Becomes s s' (cs ++ ds) → Q () s')
    (hX : maxElems ≤ cs.length + ds.length → X .badAlloc s) : wpe (append p) Q X s := by
  rw [append, wpe_bind, wpe_strlen harg.text, wpe_bind]
  refine h.wpe_makeRoomFor harg.short (fun s1 a1 room1 h1 hkept hle => ?_) hX
  have harg1 := harg.of_kept hkept
  have hplace : s1.2.str + s1.2.size = elem a1 cs.length := by
    rw [h1.place (by rw [h1.size]; omega), h1.size]
  have hapart : p.base ≠ some a1 := fun hbase => harg1.apart (hbase.trans h1.base_eq.symm)
  rw [wpe_bind, wpe_getObj, wpe_bind, hplace,
    wpe_strcpy harg1.text h1.cells (fun hbase => absurd hbase hapart) (by simp; omega), wpe_setObj]
  have hbecomes := h1.overwrite ds (n := s1.2.size + ofNat ds.length)
    (prefix_refl cs) harg.plain (by simpa using hle)
    (by rw [h1.toNat_size_add harg.short, length_append])
  exact hQ _ ⟨hbecomes.holds, hkept.trans hbecomes.kept⟩

end

theorem inserted (ds : Bytes) (gap : Block UInt8) (h : IsText s a (l ++ r) (gap ++ room))
    (hgap : ds.length = gap.length) (hplain : 0 ∉ ds) (hn : n.toNat = (l ++ ds ++ r).length) :
    Becomes s (s.1.setBlock a (blit (blit ((l ++ r ++ [0]).map some ++ (gap ++ room))
      (l.length + ds.length) ((r ++ [0]).map some)) l.length (ds.map some)),
      { s.2 with size := n }) (l ++ ds ++ r) := by
  have hblock : blit (blit ((l ++ r ++ [0]).map some ++ (gap ++ room))
      (l.length + ds.length) ((r ++ [0]).map some)) l.length (ds.map some) =
      (l ++ ds ++ r ++ [0]).map some ++ room := by
    have hlen : (ds.map some).length = gap.length := by rw [length_map, hgap]
    have hmoved := blit_gap (l.map some) ((r ++ [0]).map some) gap room hlen
    rw [length_map, ← hgap] at hmoved
    simpa using hmoved
  have hfits := h.fits
  have hcapacity := h.capacity
  simp only [length_append] at hfits hcapacity
  rw [hblock]
  refine ⟨⟨a, room, h.str, ?_, ?_, ?_, ?_, ?_⟩, Kept.setBlock _ h.base_eq h.base_eq⟩
  · exact hn
  · show s.2.capacity.toNat = _
    simp only [length_append]
    omega
  · rw [setBlock_self h.cells]
  · have := h.plain
    simp only [mem_append, not_or] at this ⊢
    exact ⟨⟨this.1, hplain⟩, this.2⟩
  · simp only [length_append]
    omega

end IsText

theorem shiftLoop_eq {last : UInt64} {i k : Nat} (hlast : last.toNat < 2 ^ 63)
    (h : last.toNat + 1 = i + len.toNat + k) :
    shiftLoop (elem a 0) len k last = shiftUp (elem a i) len.toNat k := by
  induction k generalizing last with
  | zero => rfl
  | succ k ih =>
    have hread : (last - len).toNat = i + k := by
      rw [UInt64.toNat_sub_of_le _ _ (UInt64.le_iff_toNat_le.mpr (by omega))]
      omega
    have hrest : shiftLoop (elem a 0) len k (last - 1) = shiftUp (elem a i) len.toNat k := by
      by_cases hzero : k = 0
      · subst hzero
        rfl
      · have hpred : (last - 1).toNat = last.toNat - 1 :=
          UInt64.toNat_sub_of_le _ _ (UInt64.le_iff_toNat_le.mpr (by rw [UInt64.toNat_one]; omega))
        exact ih (by omega) (by omega)
    rw [shiftLoop, shiftUp, hrest, elem_add_size hlast, elem_add_size (by omega), hread,
      elem_add, elem_add, show 0 + last.toNat = i + (k + len.toNat) by omega, Nat.zero_add]

namespace IsText

theorem wpe_shiftLoop {last : UInt64} (gap : Block UInt8) (h : IsText s a (l ++ r) (gap ++ room))
    (hlen : len.toNat = gap.length) (hlast : last.toNat = (l ++ r).length + gap.length) :
    wpe (shiftLoop s.2.str len (r.length + 1) last) Q X s ↔
      Q () (s.1.setBlock a (blit ((l ++ r ++ [0]).map some ++ (gap ++ room))
        (l.length + gap.length) ((r ++ [0]).map some)), s.2) := by
  have hfits := h.fits
  unfold maxElems at hfits
  simp only [length_append] at hfits hlast
  have hmoved : (r ++ [0]).map some <+:
      ((l ++ r ++ [0]).map some ++ (gap ++ room)).drop l.length := by
    have hmap : (l ++ r ++ [0]).map some = l.map some ++ (r ++ [0]).map some := by simp
    rw [hmap, append_assoc, drop_left' (by simp)]
    exact prefix_append _ _
  have hroom : l.length + gap.length + (r ++ [0]).length ≤
      ((l ++ r ++ [0]).map some ++ (gap ++ room)).length := by
    simp
    omega
  have hshift := wpe_shiftUp (X := X) h.cells hmoved hroom Q
  rw [h.str, shiftLoop_eq (i := l.length) (by omega) (by omega), hlen]
  rwa [length_append, length_singleton] at hshift

theorem wpe_insertChar (h : IsText s a (l ++ r) room) (hpos : pos.toNat = l.length) (hch : ch ≠ 0)
    (hQ : ∀ s', Becomes s s' (l ++ [ch] ++ r) → Q () s')
    (hX : maxElems ≤ 2 * (l ++ r).length → X .badAlloc s) : wpe (insertChar pos ch) Q X s := by
  have hcheck : pos ≤ s.2.size := by
    rw [le_iff_toNat_le, hpos, h.size, length_append]
    omega
  rw [insertChar, wpe_bind, wpe_getObj, wpe_bind, wpe_check hcheck, wpe_bind]
  refine h.wpe_makeRoom (fun s1 a1 y room1 h1 hkept => ?_) hX
  have hlast := h1.toNat_size_succ
  have hcount : (s1.2.size + 1).toNat - pos.toNat = r.length + 1 := by
    rw [hlast, hpos, length_append]
    omega
  have hplace : s1.2.str + pos = elem a1 l.length := by
    rw [h1.place (by rw [hpos, length_append]; omega), hpos]
  have hshift : wpe (shiftLoop s1.2.str 1 ((s1.2.size + 1).toNat - pos.toNat) (s1.2.size + 1))
      (fun _ s2 => s2 = (s1.1.setBlock a1 (blit ((l ++ r ++ [0]).map some ++ ([y] ++ room1))
        (l.length + [ch].length) ((r ++ [0]).map some)), s1.2)) X s1 := by
    rw [hcount]
    exact (wpe_shiftLoop [y] h1 rfl hlast).mpr rfl
  rw [wpe_bind, wpe_getObj, wpe_bind]
  refine wpe_mono hshift ?_ fun _ _ he => he
  rintro _ _ rfl
  rw [wpe_bind, hplace, wpe_write (setBlock_self h1.cells) (by simp), wpe_setObj, setBlock_setBlock]
  have hbecomes := inserted [ch] [y] (n := s1.2.size + 1) h1 rfl
    (by simpa using Ne.symm hch) (by rw [hlast]; simp; omega)
  exact hQ _ ⟨hbecomes.holds, hkept.trans hbecomes.kept⟩

theorem wpe_openGap (gap : Block UInt8) (h : IsText s a (l ++ r) (gap ++ room))
    (hpos : pos.toNat = l.length) (hlen : len.toNat = gap.length)
    (hlast : (s.2.size + len).toNat = (l ++ r).length + gap.length) :
    wpe (shiftLoop s.2.str len ((s.2.size + len).toNat - (pos + len - 1).toNat) (s.2.size + len))
        Q X s ↔
      Q () (s.1.setBlock a (blit ((l ++ r ++ [0]).map some ++ (gap ++ room))
        (l.length + gap.length) ((r ++ [0]).map some)), s.2) := by
  have hfits := h.fits
  unfold maxElems at hfits
  by_cases hzero : l.length + gap.length = 0
  · obtain rfl : l = [] := List.length_eq_zero_iff.mp (by omega)
    obtain rfl : gap = [] := List.length_eq_zero_iff.mp (by omega)
    obtain rfl : pos = 0 := UInt64.toNat_inj.mp hpos
    obtain rfl : len = 0 := UInt64.toNat_inj.mp hlen
    have hbound : ((0 : UInt64) + 0 - 1).toNat = 2 ^ 64 - 1 := rfl
    have hsame := blit_middle [] ((r ++ [0]).map some) room rfl
    have hcells := Heap.setBlock_same h.cells
    rw [hbound, hlast, Nat.sub_eq_zero_of_le (by simp only [List.length_nil]; omega), shiftLoop,
      wpe_pure]
    simp only [List.nil_append, List.length_nil, Nat.add_zero] at hsame hcells ⊢
    rw [hsame, hcells]
  · rw [List.length_append, List.length_append] at hfits
    have hsum : (pos + len).toNat = l.length + gap.length := by
      rw [UInt64.toNat_add, hpos, hlen]
      omega
    have hcount : (s.2.size + len).toNat - (pos + len - 1).toNat = r.length + 1 := by
      have hone : (1 : UInt64) ≤ pos + len := by
        rw [UInt64.le_iff_toNat_le, hsum, UInt64.toNat_one]
        omega
      rw [UInt64.toNat_sub_of_le _ _ hone, hsum, hlast, List.length_append, UInt64.toNat_one]
      omega
    rw [hcount, wpe_shiftLoop gap h hlen hlast]

theorem wpe_insertStr (h : IsText s a (l ++ r) room) (hpos : pos.toNat = l.length)
    (harg : Outside s p ds) (hQ : ∀ s', Becomes s s' (l ++ ds ++ r) → Q () s')
    (hX : maxElems ≤ (l ++ r).length + ds.length → X .badAlloc s) :
    wpe (insertStr pos p) Q X s := by
  rw [insertStr, wpe_bind, wpe_strlen harg.text, wpe_bind]
  refine h.wpe_makeRoomFor harg.short (fun s1 a1 room1 h1 hkept hle => ?_) hX
  obtain ⟨gap, room1, rfl, hgap⟩ : ∃ gap rest, gap ++ rest = room1 ∧ gap.length = ds.length :=
    ⟨_, _, take_append_drop ds.length room1, length_take_of_le hle⟩
  have harg1 := harg.of_kept hkept
  obtain ⟨c, i, b, rfl, hc, -, htext⟩ := textOf_eq_some_iff.mp harg1.text
  have hapart : c ≠ a1 := fun hca => harg1.apart (by rw [elem_base, hca, h1.base_eq])
  have hlast := h1.toNat_size_add harg.short
  have hlen : (ofNat ds.length).toNat = ds.length := by
    have hshort := harg.short
    unfold maxElems at hshort
    rw [toNat_ofNat']
    omega
  have hplace : s1.2.str + pos = elem a1 l.length := by
    rw [h1.place (by rw [hpos, length_append]; omega), hpos]
  have hbecomes := inserted ds gap (n := s1.2.size + ofNat ds.length) h1 hgap.symm
    harg.plain (by rw [hlast]; simp only [length_append]; omega)
  rw [wpe_bind, wpe_getObj, wpe_bind,
    wpe_openGap gap h1 hpos (hlen.trans hgap.symm) (by rw [hlast, hgap]), hgap]
  rw [wpe_bind, hplace, hlen,
    wpe_strncpy (by rw [setBlock_ne hapart]; exact hc) (setBlock_self h1.cells)
      (fun hca => absurd hca hapart) harg.plain
      ((prefix_append _ _).trans (by simpa using htext)) (by simp; omega),
    wpe_setObj, setBlock_setBlock]
  exact hQ _ ⟨hbecomes.holds, hkept.trans hbecomes.kept⟩

variable (h : IsText s a cs room)

include h

theorem wpe_truncate (hpos : pos.toNat ≤ cs.length)
    (hQ : ∀ s', Becomes s s' (cs.take pos.toNat) → Q () s') :
    wpe (do write (s.2.str + pos) 0; setObj { s.2 with size := pos }) Q X s := by
  have hlen : (cs.take pos.toNat).length = pos.toNat := length_take_of_le hpos
  have hbecomes := h.overwrite [] (n := pos) (List.take_prefix pos.toNat cs) (by simp)
    (by rw [append_nil, hlen]; omega) (by rw [append_nil, hlen])
  rw [hlen, append_nil] at hbecomes
  rw [wpe_bind, h.place (by omega), wpe_write h.cells (by simp; omega), wpe_setObj]
  exact hQ _ hbecomes

theorem wpe_erase (hpos : pos.toNat < cs.length)
    (hlen : len = npos ∨ pos.toNat + len.toNat < 2 ^ 64)
    (hQ : ∀ s', Becomes s s' (cs.take pos.toNat ++
      cs.drop (pos.toNat + min len.toNat (cs.length - pos.toNat))) → Q () s') :
    wpe (erase pos len) Q X s := by
  have hfits := h.fits
  unfold maxElems at hfits
  have hcheck : pos < s.2.size := by rwa [UInt64.lt_iff_toNat_lt, h.size]
  rw [erase, wpe_bind, wpe_getObj, wpe_bind, wpe_check hcheck, wpe_ite]
  refine ⟨fun htail => h.wpe_truncate hpos.le fun s' h' => hQ s' ?_, fun hmiddle => ?_⟩
  · -- nothing is left behind the range
    have hall : cs.length - pos.toNat ≤ len.toNat := by
      rcases htail with rfl | hge
      · rw [toNat_npos]
        omega
      · rw [ge_iff_le, UInt64.le_iff_toNat_le, h.size, UInt64.toNat_add] at hge
        omega
    rwa [min_eq_right hall, List.drop_eq_nil_of_le (by omega), List.append_nil]
  · obtain ⟨hnpos, hlt⟩ := not_or.mp hmiddle
    have hsum : (pos + len).toNat = pos.toNat + len.toNat := by
      have := hlen.resolve_left hnpos
      rw [UInt64.toNat_add]
      omega
    rw [ge_iff_le, UInt64.le_iff_toNat_le, h.size, hsum, Nat.not_le] at hlt
    have htake : (cs.take pos.toNat).length = pos.toNat := List.length_take_of_le hpos.le
    have hsize : (s.2.size - len).toNat =
        (cs.take pos.toNat ++ cs.drop (pos.toNat + len.toNat)).length := by
      rw [UInt64.toNat_sub_of_le _ _ (UInt64.le_iff_toNat_le.mpr (by rw [h.size]; omega)), h.size,
        List.length_append, htake, List.length_drop]
      omega
    have hplain : 0 ∉ cs.drop (pos.toNat + len.toNat) := fun hmem =>
      h.plain (List.mem_of_mem_drop hmem)
    have hbecomes := h.overwrite _ (List.take_prefix pos.toNat cs) hplain
      (by rw [List.length_append, htake, List.length_drop]; omega) hsize
    rw [htake] at hbecomes
    rw [wpe_bind, h.place (by omega), elem_add_size (by omega),
      wpe_strcpy (h.textOf hlt.le) h.cells (fun _ => by rw [elem_idx]; omega)
        (by simp; omega), wpe_setObj]
    rw [min_eq_left (by omega)] at hQ
    exact hQ _ hbecomes

theorem wpe_resize (hn : n ≠ npos) (hch : ch ≠ 0)
    (hQ : ∀ s', Becomes s s' (cs.take n.toNat ++ List.replicate (n.toNat - cs.length) ch) → Q () s')
    (hX : maxElems ≤ n.toNat → X .badAlloc s) : wpe (resize n ch) Q X s := by
  rw [resize, wpe_bind, wpe_getObj, wpe_ite, gt_iff_lt, UInt64.lt_iff_toNat_lt, h.size]
  refine ⟨fun hlt => ?_, fun hle => h.wpe_truncate (Nat.le_of_not_lt hle) fun s' h' => hQ s' ?_⟩
  · rw [wpe_bind]
    refine h.wpe_reserve hn (fun s1 a1 room1 h1 hkept hle => ?_) hX
    have hcount : (n - s1.2.size).toNat = n.toNat - cs.length := by
      rw [UInt64.toNat_sub_of_le _ _ (UInt64.le_iff_toNat_le.mpr (by rw [h1.size]; omega)), h1.size]
    have hplace : s1.2.str + s1.2.size = elem a1 cs.length := by
      rw [h1.place (by rw [h1.size]; omega), h1.size]
    have hbecomes := h1.overwrite (List.replicate (n.toNat - cs.length) ch) (n := n)
      (List.prefix_refl cs) (by simpa using fun _ => Ne.symm hch)
      (by simp only [List.length_append, List.length_replicate]; omega)
      (by simp only [List.length_append, List.length_replicate]; omega)
    -- the null byte is written last
    have hmap : (List.replicate (n.toNat - cs.length) ch ++ [0]).map some =
        List.replicate (n.toNat - cs.length) (some ch) ++ [some 0] := by simp
    rw [hmap, blit_append, List.length_replicate, Nat.add_sub_of_le hlt.le] at hbecomes
    rw [wpe_bind, wpe_getObj, wpe_bind, hplace, hcount, wpe_fill h1.cells (by simp; omega),
      wpe_bind, wpe_setObj, h1.place hle, wpe_write (Heap.setBlock_self h1.cells) (by simp; omega),
      Heap.setBlock_setBlock]
    rw [List.take_of_length_le hlt.le] at hQ
    exact hQ _ ⟨hbecomes.holds, hkept.trans hbecomes.kept⟩
  · rwa [Nat.sub_eq_zero_of_le (Nat.le_of_not_lt hle), List.replicate_zero, List.append_nil]

theorem wpe_clear (hQ : ∀ s', Becomes s s' [] → Q () s') : wpe clear Q X s := by
  have hbecomes := h.overwrite [] (n := 0) (List.nil_prefix (l := cs)) (by simp) (by simp) (by simp)
  have hwrite : (write s.2.str 0 : StringM Unit) = write (elem a 0) 0 := by rw [h.str]
  have hcells : (s.1, (⟨s.2.str, 0, s.2.capacity⟩ : Str)).1.cells a = _ := h.cells
  rw [clear, wpe_bind, wpe_getObj, wpe_bind, wpe_setObj, hwrite, wpe_write hcells (by simp)]
  exact hQ _ hbecomes

theorem wpe_at {k : UInt64} {c : UInt8} (hc : cs[k.toNat]? = some c)
    (Q : UInt8 → Heap (Block UInt8) × Str → Prop) : wpe (at_ k) Q X s ↔ Q c s := by
  have hlt : k.toNat < cs.length := (List.getElem?_eq_some_iff.mp hc).1
  have hcell : ((cs ++ [0]).map some ++ room)[k.toNat]? = some (some c) := by
    rw [List.getElem?_append_left (by simp; omega), List.getElem?_map,
      List.getElem?_append_left hlt, hc, Option.map_some]
  rw [at_, wpe_bind, wpe_getObj, wpe_bind,
    wpe_check (by rwa [UInt64.lt_iff_toNat_lt, h.size]), h.place (by omega),
    wpe_read h.cells hcell]

end IsText

def Finds (pat cs : Bytes) (pos r : UInt64) : Prop :=
  (pat <+: cs.drop r.toNat ∧ pos.toNat ≤ r.toNat ∧ r.toNat + pat.length ≤ cs.length ∧
      ∀ j, pos.toNat ≤ j → j < r.toNat → ¬ pat <+: cs.drop j) ∨
    (r = npos ∧ ∀ j, pos.toNat ≤ j → ¬ pat <+: cs.drop j)

def foundAt (pos : UInt64) : Option Nat → UInt64
  | none => npos
  | some i => pos + UInt64.ofNat i

theorem finds_foundAt (pat : Bytes) (hcs : cs.length < maxElems) (hpos : pos.toNat < cs.length) :
    Finds pat cs pos (foundAt pos (find pat (cs.drop pos.toNat))) := by
  unfold maxElems at hcs
  cases hfind : find pat (cs.drop pos.toNat) with
  | none =>
    refine Or.inr ⟨rfl, fun j hj hpre => not_prefix_of_find hfind (j - pos.toNat) ?_⟩
    rwa [List.drop_drop, Nat.add_sub_of_le hj]
  | some i =>
    obtain ⟨hpre, hle, hleast⟩ := find_spec hfind
    rw [List.length_drop] at hle
    have hr : (foundAt pos (some i)).toNat = pos.toNat + i := by
      rw [foundAt, UInt64.toNat_add, UInt64.toNat_ofNat']
      omega
    refine Or.inl ⟨?_, ?_, ?_, fun j hj hlt hpre' => hleast (j - pos.toNat) ?_ ?_⟩
    · rwa [List.drop_drop, ← hr] at hpre
    · omega
    · omega
    · omega
    · rwa [List.drop_drop, Nat.add_sub_of_le hj]

namespace IsText

variable (h : IsText s a cs room) {Q : UInt64 → Heap (Block UInt8) × Str → Prop}

include h

theorem wpe_findLoop {k : Nat} (hk : pos.toNat + k = cs.length) :
    wpe (findLoop s.2.str ch k pos) Q X s ↔ Q (foundAt pos (find [ch] (cs.drop pos.toNat))) s := by
  have hfits := h.fits
  unfold maxElems at hfits
  induction k generalizing pos with
  | zero =>
    rw [findLoop, wpe_pure, List.drop_eq_nil_of_le (by omega)]
    rfl
  | succ k ih =>
    obtain ⟨c, hc⟩ : ∃ c, cs[pos.toNat]? = some c :=
      ⟨_, List.getElem?_eq_getElem (by omega)⟩
    have hcell : ((cs ++ [0]).map some ++ room)[pos.toNat]? = some (some c) := by
      rw [List.getElem?_append_left (by simp; omega), List.getElem?_map,
        List.getElem?_append_left (by omega), hc, Option.map_some]
    have hdrop : cs.drop pos.toNat = c :: cs.drop (pos.toNat + 1) := by
      obtain ⟨hlt, rfl⟩ := List.getElem?_eq_some_iff.mp hc
      exact List.drop_eq_getElem_cons hlt
    have hnext : (pos + 1).toNat = pos.toNat + 1 := by
      refine toNat_succ fun heq => ?_
      rw [heq, toNat_npos] at hk
      omega
    have hk' : (pos + 1).toNat + k = cs.length := by omega
    rw [findLoop, wpe_bind, h.place (by omega), wpe_read h.cells hcell, hdrop, find]
    by_cases hch : c = ch
    · subst hch
      rw [if_pos rfl, if_pos (by simp), wpe_pure, foundAt]
      simp
    · rw [if_neg hch, if_neg (by simpa [List.cons_prefix_cons] using Ne.symm hch)]
      refine (ih hk').trans ?_
      rw [hnext]
      cases find [ch] (cs.drop (pos.toNat + 1)) with
      | none => rfl
      | some i =>
        have hadd : pos + 1 + UInt64.ofNat i = pos + UInt64.ofNat (i + 1) := by
          rw [UInt64.ofNat_add, add_assoc, add_comm 1]
          rfl
        rw [Option.map_some, foundAt, foundAt, hadd]

theorem wpe_findChar (hpos : pos.toNat < cs.length) (hQ : ∀ r, Finds [ch] cs pos r → Q r s) :
    wpe (findChar ch pos) Q X s := by
  have hfits := h.fits
  rw [findChar, wpe_bind, wpe_getObj, wpe_bind,
    wpe_check (by rwa [lt_iff_toNat_lt, h.size]), h.size, h.wpe_findLoop (by omega)]
  exact hQ _ (finds_foundAt _ (by omega) hpos)

theorem wpe_findStr (hp : s.1.textOf p = some ds) (hpos : pos.toNat < cs.length)
    (hQ : ∀ r, Finds ds cs pos r → Q r s) : wpe (findStr p pos) Q X s := by
  have hfits := h.fits
  rw [findStr, wpe_bind, wpe_getObj, wpe_bind,
    wpe_check (by rwa [UInt64.lt_iff_toNat_lt, h.size]), wpe_bind, h.place (by omega),
    wpe_strstr (h.textOf hpos.le) hp]
  have hfinds := finds_foundAt ds (by omega) hpos
  cases hfind : find ds (cs.drop pos.toNat) with
  | none =>
    rw [hfind] at hfinds
    rw [if_pos rfl, wpe_pure]
    exact hQ _ hfinds
  | some i =>
    rw [hfind] at hfinds
    have hidx : UInt64.ofInt ((elem a (pos.toNat + i)).idx - s.2.str.idx) =
        foundAt pos (some i) := by
      unfold maxElems at hfits
      obtain ⟨-, hle, -⟩ := find_spec hfind
      rw [List.length_drop] at hle
      rw [h.str, elem_idx, elem_idx, Nat.cast_zero, sub_zero, foundAt, UInt64.ofInt,
        Int.emod_eq_of_lt (by omega) (by omega), Int.toNat_natCast, UInt64.ofNat_add,
        UInt64.ofNat_toNat]
    simp only [elem_add]
    rw [if_neg (elem_ne_null _ _), wpe_pure, hidx]
    exact hQ _ hfinds

end IsText

theorem IsText.wpe_reserve_npos (h : IsText s a cs room) :
    wpe (reserve npos) (fun _ _ => False) (fun e _ => e ≠ .badAlloc) s := by
  have hlt : npos > s.2.capacity := by
    have hfits := h.fits
    unfold maxElems at hfits
    rw [gt_iff_lt, lt_iff_toNat_lt, toNat_npos, h.capacity]
    omega
  have hapart : s.2.str.base ≠ some s.1.next := by
    rw [h.str, elem_base, Ne, Option.some_inj]
    exact (lt_next h.cells).ne
  have hnone : (npos + 1).toNat = 0 := rfl
  rw [reserve, wpe_bind, wpe_getObj, wpe_whenever]
  refine ⟨fun _ => ?_, fun hnot => absurd hlt hnot⟩
  rw [wpe_bind, wpe_newArray, hnone]
  refine ⟨fun _ => ?_, fun hnot => absurd (Nat.zero_le _) hnot⟩
  rw [wpe_bind]
  refine wpe_mono (wpe_strcpy_cases (alloc_self _ _) hapart) ?_ fun _ _ he => he
  rintro _ _ ⟨cs, -, hroom, -⟩
  exact absurd hroom (Nat.not_lt_zero _)

theorem wpe_ofCStr {ρ : Type} {s : Heap (Block UInt8) × ρ}
    {X : Stop → Heap (Block UInt8) × ρ → Prop} (hp : s.1.textOf p = some cs)
    (hcs : cs.length < maxElems) (Q : Str → Heap (Block UInt8) × ρ → Prop) :
    wpe (ofCStr p) Q X s ↔
      Q ⟨elem s.1.next 0, UInt64.ofNat cs.length, UInt64.ofNat cs.length⟩
        (s.1.alloc ((cs ++ [0]).map some), s.2) := by
  have hlen : (UInt64.ofNat cs.length + 1).toNat = cs.length + 1 := by
    unfold maxElems at hcs
    rw [UInt64.toNat_add, UInt64.toNat_ofNat', UInt64.toNat_one]
    omega
  rw [ofCStr, wpe_bind, wpe_strlen hp]
  simp only
  rw [hlen, wpe_strcpy_new hp (Nat.le_refl _), Nat.sub_self, List.replicate_zero, List.append_nil]
  simp [hcs]

end one

/-! ## Runs -/

section runs

variable {s s' : Heap (Block UInt8) × Str} {cs cs' : Bytes} {c : Call}

def argText (s : Heap (Block UInt8) × Str) (p : ElemPtr) : Option Bytes := do
  let ds ← s.1.textOf p
  if ds.length < maxElems ∧ p.base ≠ s.2.base then some ds else none

def Call.onText (s : Heap (Block UInt8) × Str) (cs : Bytes) : Call → Option Bytes
  | .pushBack ch | .addChar ch => if ch ≠ 0 then some (cs ++ [ch]) else none
  | .append str | .addStr str => do some (cs ++ (← argText s str))
  | .insertChar pos ch =>
      if ch ≠ 0 ∧ pos.toNat ≤ cs.length then
        some (cs.take pos.toNat ++ [ch] ++ cs.drop pos.toNat)
      else none
  | .insertStr pos str => do
      let ds ← argText s str
      if pos.toNat ≤ cs.length then some (cs.take pos.toNat ++ ds ++ cs.drop pos.toNat) else none
  | .erase pos len =>
      if pos.toNat < cs.length ∧ (len = npos ∨ pos.toNat + len.toNat < 2 ^ 64) then
        some (cs.take pos.toNat ++ cs.drop (pos.toNat + min len.toNat (cs.length - pos.toNat)))
      else none
  | .resize n ch =>
      if ch ≠ 0 then some (cs.take n.toNat ++ List.replicate (n.toNat - cs.length) ch) else none
  | .reserve _ => some cs
  | .clear => some []

def Call.request : Call → Option UInt64
  | .resize n _ | .reserve n => some n
  | _ => none

def Call.demand (cs' : Bytes) : Call → Nat
  | .reserve n => n.toNat
  | _ => cs'.length

theorem outside_of_argText {ds : Bytes} (h : argText s p = some ds) : Outside s p ds := by
  simp only [argText, Option.bind_eq_bind, Option.bind_eq_some_iff, Option.ite_none_right_eq_some,
    Option.some_inj] at h
  obtain ⟨_, htext, ⟨hshort, hapart⟩, rfl⟩ := h
  exact ⟨htext, hshort, hapart⟩

theorem wpe_exec (h : Holds s cs) (hc : c.onText s cs = some cs') (hn : c.request ≠ some npos) :
    wpe (exec c) (fun _ s' => Becomes s s' cs')
      (fun e s' => e = .badAlloc ∧ s' = s ∧ maxElems ≤ 2 * c.demand cs') s := by
  obtain ⟨a, room, h⟩ := h
  cases c with
  | pushBack ch | addChar ch =>
    simp only [Call.onText, Option.ite_none_right_eq_some, Option.some_inj] at hc
    obtain ⟨hch, rfl⟩ := hc
    refine h.wpe_pushBack hch (fun _ h' => h') fun hmax => ⟨rfl, rfl, hmax.trans ?_⟩
    simp [Call.demand]
  | append p | addStr p =>
    simp only [Call.onText, Option.bind_eq_bind, Option.bind_eq_some_iff, Option.some_inj] at hc
    obtain ⟨ds, hds, rfl⟩ := hc
    refine h.wpe_append (outside_of_argText hds) (fun _ h' => h') fun hmax =>
      ⟨rfl, rfl, hmax.trans ?_⟩
    simp only [Call.demand, length_append]
    omega
  | insertChar pos ch =>
    simp only [Call.onText, Option.ite_none_right_eq_some, Option.some_inj] at hc
    obtain ⟨⟨hch, hpos⟩, rfl⟩ := hc
    rw [← take_append_drop pos.toNat cs] at h
    refine h.wpe_insertChar (length_take_of_le hpos).symm hch (fun _ h' => h') fun hmax =>
      ⟨rfl, rfl, hmax.trans ?_⟩
    simp only [Call.demand, length_append]
    omega
  | insertStr pos p =>
    simp only [Call.onText, Option.bind_eq_bind, Option.bind_eq_some_iff,
      Option.ite_none_right_eq_some, Option.some_inj] at hc
    obtain ⟨ds, hds, hpos, rfl⟩ := hc
    rw [← take_append_drop pos.toNat cs] at h
    refine h.wpe_insertStr (length_take_of_le hpos).symm (outside_of_argText hds)
      (fun _ h' => h') fun hmax => ⟨rfl, rfl, hmax.trans ?_⟩
    simp only [Call.demand, length_append]
    omega
  | erase pos len =>
    simp only [Call.onText, Option.ite_none_right_eq_some, Option.some_inj] at hc
    obtain ⟨⟨hpos, hlen⟩, rfl⟩ := hc
    exact h.wpe_erase hpos hlen fun _ h' => h'
  | resize n ch =>
    simp only [Call.onText, Option.ite_none_right_eq_some, Option.some_inj] at hc
    obtain ⟨hch, rfl⟩ := hc
    refine h.wpe_resize (fun hnpos => hn (congrArg some hnpos)) hch (fun _ h' => h') fun hmax =>
      ⟨rfl, rfl, hmax.trans ?_⟩
    simp only [Call.demand, length_append, length_take, length_replicate]
    omega
  | reserve n =>
    obtain rfl : cs = cs' := Option.some_inj.mp hc
    refine h.wpe_reserve (fun hnpos => hn (congrArg some hnpos))
      (fun s' a' room' h' hkept _ => ⟨h'.holds, hkept⟩) fun hmax => ⟨rfl, rfl, ?_⟩
    rw [Call.demand]
    omega
  | clear =>
    obtain rfl : [] = cs' := Option.some_inj.mp hc
    exact h.wpe_clear fun _ h' => h'

theorem wpe_exec_npos (h : Holds s cs) (hn : c.request = some npos) :
    wpe (exec c) (fun _ _ => False) (fun e _ => e ≠ .badAlloc) s := by
  obtain ⟨a, room, h⟩ := h
  cases c with
  | resize n ch =>
    obtain rfl : n = npos := Option.some_inj.mp hn
    have hlt : npos > s.2.size := by
      have hfits := h.fits
      unfold maxElems at hfits
      rw [gt_iff_lt, lt_iff_toNat_lt, h.size, toNat_npos]
      omega
    rw [exec, resize, wpe_bind, wpe_getObj, if_pos hlt, wpe_bind]
    exact wpe_mono h.wpe_reserve_npos (fun _ _ h => h.elim) fun _ _ he => he
  | reserve n =>
    obtain rfl : n = npos := Option.some_inj.mp hn
    exact h.wpe_reserve_npos
  | _ => cases hn

inductive Event where
  | own
  | call (c : Call)

def texts : System ((Heap (Block UInt8) × Str) × Bytes) Event where
  init w := ∃ h p, h.textOf p = some w.2 ∧ w.2.length < maxElems ∧
    ofCStr p (h, ()) = .ok w.1.2 (w.1.1, ())
  step w e w' :=
    match e with
    | .own => w'.1.2 = w.1.2 ∧ w'.2 = w.2 ∧
        ∀ a, w.1.2.base = some a → w'.1.1.cells a = w.1.1.cells a
    | .call c => ∃ cs', c.onText w.1 w.2 = some cs' ∧
        (exec c w.1 = .ok () w'.1 ∧ w'.2 = cs' ∨ exec c w.1 = .error .badAlloc w'.1 ∧ w'.2 = w.2)

structure Shows (s : Heap (Block UInt8) × Str) (cs : Bytes) : Prop where
  size : s.2.size.toNat = cs.length
  capacity : s.2.size ≤ s.2.capacity
  char : ∀ (k : UInt64) c, cs[k.toNat]? = some c → at_ k s = .ok c s
  terminator : read (s.2.str + s.2.size) s = .ok 0 s
  findChar : ∀ ch pos, pos < s.2.size → ∃ r, findChar ch pos s = .ok r s ∧ Finds [ch] cs pos r
  findStr : ∀ p ds pos, s.1.textOf p = some ds → pos < s.2.size →
    ∃ r, findStr p pos s = .ok r s ∧ Finds ds cs pos r

theorem Holds.shows (h : Holds s cs) : Shows s cs := by
  obtain ⟨a, room, h⟩ := h
  have hle : s.2.size ≤ s.2.capacity := by
    rw [le_iff_toNat_le, h.size, h.capacity]
    exact Nat.le_add_right _ _
  have hend : ((cs ++ [0]).map some ++ room)[cs.length]? = some (some 0) := by simp
  refine ⟨h.size, hle, fun k c hc => ?_, ?_, fun ch pos hpos => ?_, fun p ds pos hp hpos => ?_⟩
  · exact eq_ok_of_wpe ((h.wpe_at hc _).mpr ⟨rfl, rfl⟩)
  · rw [h.place (by rw [h.size]; omega), h.size]
    exact eq_ok_of_wpe ((wpe_read h.cells hend _).mpr ⟨rfl, rfl⟩)
  · rw [lt_iff_toNat_lt, h.size] at hpos
    obtain ⟨r, _, hok, hr, rfl⟩ := exists_of_wpe
      (h.wpe_findChar hpos (Q := fun r s' => Finds [ch] cs pos r ∧ s' = s) fun _ hr => ⟨hr, rfl⟩)
    exact ⟨r, hok, hr⟩
  · rw [lt_iff_toNat_lt, h.size] at hpos
    obtain ⟨r, _, hok, hr, rfl⟩ := exists_of_wpe
      (h.wpe_findStr hp hpos (Q := fun r s' => Finds ds cs pos r ∧ s' = s) fun _ hr => ⟨hr, rfl⟩)
    exact ⟨r, hok, hr⟩

theorem Holds.of_cells {h' : Heap (Block UInt8)} (h : Holds s cs)
    (hcells : ∀ a, s.2.base = some a → h'.cells a = s.1.cells a) : Holds (h', s.2) cs := by
  obtain ⟨a, room, h⟩ := h
  exact ⟨a, room, h.str, h.size, h.capacity, (hcells a h.base_eq).trans h.cells, h.plain, h.fits⟩

theorem holds_new {h : Heap (Block UInt8)} (hplain : 0 ∉ cs) (hcs : cs.length < maxElems) :
    Holds (h.alloc ((cs ++ [0]).map some),
      ⟨elem h.next 0, UInt64.ofNat cs.length, UInt64.ofNat cs.length⟩) cs := by
  have hlen : (ofNat cs.length).toNat = cs.length := by
    unfold maxElems at hcs
    rw [toNat_ofNat']
    omega
  refine ⟨h.next, [], rfl, hlen, ?_, ?_, hplain, ?_⟩
  · rw [length_nil, Nat.add_zero]
    exact hlen
  · rw [append_nil]
    exact alloc_self _ _
  · rwa [length_nil, Nat.add_zero]

theorem holds_of_reachable (h : texts.Reachable (s, cs)) : Holds s cs := by
  refine System.invariant (fun w => Holds w.1 w.2) ?_ ?_ (s, cs) h
  · rintro ⟨⟨heap, v⟩, cs⟩ ⟨h0, p, hp, hcs, hok⟩
    obtain ⟨_, _, _, _, _, hplain, _⟩ := textOf_eq_some_iff.mp hp
    have hnew : wpe (ofCStr p) (fun v s' => Holds (s'.1, v) cs) (fun _ _ => False) (h0, ()) :=
      (wpe_ofCStr hp hcs _).mpr (holds_new hplain hcs)
    have hholds := wpe_ok hnew hok
    exact hholds
  · rintro ⟨s, cs⟩ (_ | c) ⟨s', cs'⟩ hholds hstep
    · obtain ⟨hobj, rfl, hcells⟩ := hstep
      have hrest := hholds.of_cells hcells
      rwa [← hobj] at hrest
    · obtain ⟨cs1, hc, hrun⟩ := hstep
      by_cases hn : c.request = some npos
      · rcases hrun with ⟨hok, -⟩ | ⟨herror, -⟩
        · exact (wpe_ok (wpe_exec_npos hholds hn) hok).elim
        · exact absurd rfl (wpe_error (wpe_exec_npos hholds hn) herror)
      · rcases hrun with ⟨hok, rfl⟩ | ⟨herror, rfl⟩
        · exact (wpe_ok (wpe_exec hholds hc hn) hok).holds
        · obtain ⟨-, hsame, -⟩ := wpe_error (wpe_exec hholds hc hn) herror
          rwa [hsame]

/-- **Refinement**: in every run the string is the text, with its null byte, and is searched as
    the text. A valid call does to it what it does to the text, or throws and does nothing, if
    and only if it does not ask for room for `2 ^ 64 - 1` characters. -/
theorem string_refines_text_iff (h : texts.Reachable (s, cs)) :
    Shows s cs ∧ ∀ c cs', c.onText s cs = some cs' →
      (((∃ s', exec c s = .ok () s' ∧ Shows s' cs') ∨
          exec c s = .error .badAlloc s ∧ maxElems ≤ 2 * c.demand cs') ↔
        c.request ≠ some npos) := by
  have hholds := holds_of_reachable h
  refine ⟨hholds.shows, fun c cs' hc => ⟨fun hrun hn => ?_, fun hn => ?_⟩⟩
  · rcases hrun with ⟨s', hok, -⟩ | ⟨herror, -⟩
    · exact wpe_ok (wpe_exec_npos hholds hn) hok
    · exact wpe_error (wpe_exec_npos hholds hn) herror rfl
  · rcases wpe_cases (wpe_exec hholds hc hn) with ⟨_, s', hok, h'⟩ | ⟨_, _, herror, rfl, rfl, hmax⟩
    · exact Or.inl ⟨s', hok, h'.holds.shows⟩
    · exact Or.inr ⟨herror, hmax⟩

def oneLetter : Heap (Block UInt8) × Str :=
  ((Heap.empty.alloc [some 97, some 0]).alloc [some 97, some 0], ⟨elem 1 0, 1, 1⟩)

theorem oneLetter_reachable : texts.Reachable (oneLetter, [97]) := by
  have hnew : ofCStr (elem 0 0) (empty.alloc [some 97, some 0], ()) =
      .ok oneLetter.2 (oneLetter.1, ()) :=
    eq_ok_of_wpe ((wpe_ofCStr (p := elem 0 0) (s := (empty.alloc [some 97, some 0], ()))
      (show _ = some [97] from rfl) (by decide) _).mpr ⟨rfl, rfl⟩)
  exact ⟨_, [], ⟨_, elem 0 0, rfl, by decide, hnew⟩, .nil _⟩

theorem exists_called (h : texts.Reachable (s, cs)) (hc : c.onText s cs = some cs')
    (hn : c.request ≠ some npos) (hroom : 2 * c.demand cs' < maxElems) :
    ∃ s', texts.Reachable (s', cs') := by
  rcases wpe_cases (wpe_exec (holds_of_reachable h) hc hn) with
    ⟨_, s', hok, -⟩ | ⟨_, _, _, _, _, hmax⟩
  · have hstep : texts.step (s, cs) (.call c) (s', cs') := ⟨cs', hc, Or.inl ⟨hok, rfl⟩⟩
    exact ⟨s', h.step hstep⟩
  · omega

/-- `"a"` becomes `"ba"` and then `"b"`, and a letter can be inserted behind it. -/
theorem string_refines_text_edited :
    ∃ s s', texts.Reachable (s, [98]) ∧ Shows s [98] ∧ exec (.insertChar 1 99) s = .ok () s' ∧
      Shows s' [98, 99] := by
  obtain ⟨s1, h1⟩ := exists_called (c := .insertChar 0 98) oneLetter_reachable rfl nofun (by decide)
  obtain ⟨s2, h2⟩ := exists_called (c := .erase 1 1) h1 rfl nofun (by decide)
  obtain ⟨hshows, hnext⟩ := string_refines_text_iff h2
  rcases (hnext (.insertChar 1 99) [98, 99] rfl).mpr nofun with ⟨s3, hok, h3⟩ | ⟨-, hmax⟩
  · exact ⟨s2, s3, h2, hshows, hok, h3⟩
  · exact absurd hmax (by decide)

/-- The array that is to hold `"a"` has no element. -/
theorem reserve_npos_faults : texts.Reachable (oneLetter, [97]) ∧
    (Call.reserve npos).onText oneLetter [97] = some [97] ∧
      ∃ s', exec (.reserve npos) oneLetter = .error (.fault .badAccess) s' :=
  ⟨oneLetter_reachable, rfl, _, rfl⟩

end runs

/-! ## Ranges that wrap -/

section ranges

variable {s : Heap (Block UInt8) × Str} {a : Nat} {cs : Bytes} {room : Block UInt8}
  {pos len : UInt64}

theorem IsText.wpe_erase_wrapped (h : IsText s a cs room) (hpos : pos.toNat < cs.length)
    (hnpos : len ≠ npos) (hwrap : 2 ^ 64 ≤ pos.toNat + len.toNat) :
    wpe (erase pos len) (fun _ _ => False) (fun e _ => e = .fault .badAccess) s := by
  have hfits := h.fits
  have hlt := len.toNat_lt
  unfold maxElems at hfits
  rw [Ne, ← UInt64.toNat_inj, toNat_npos] at hnpos
  have hcheck : pos < s.2.size := by rwa [UInt64.lt_iff_toNat_lt, h.size]
  have hsum : (pos + len).toNat = pos.toNat + len.toNat - 2 ^ 64 := by
    rw [UInt64.toNat_add]
    omega
  have hbranch : ¬ (len = npos ∨ pos + len ≥ s.2.size) := by
    rw [not_or, ← UInt64.toNat_inj, toNat_npos, ge_iff_le, UInt64.le_iff_toNat_le, h.size, hsum]
    omega
  rw [erase, wpe_bind, wpe_getObj, wpe_bind, wpe_check hcheck, if_neg hbranch, wpe_bind,
    h.place (by omega), elem_add_size_wrapped (by omega) hwrap, strcpy, wpe_bind,
    wpe_cellsFrom (Heap.cellsAt_elem h.cells)]
  refine wpe_mono (wpe_strcpyLoop_behind h.cells (by omega) fun n _ hn => ?_)
    (fun _ _ h => h.elim) fun _ _ he => he
  -- a character of the text
  have hmem : n < cs.length := by omega
  refine ⟨cs[n], fun hzero => h.plain (hzero ▸ List.getElem_mem hmem), ?_⟩
  rw [List.getElem?_append_left (by simp; omega), List.getElem?_map,
    List.getElem?_append_left hmem, List.getElem?_eq_getElem hmem, Option.map_some]

def unwritten (s : Heap (Block UInt8) × Str) : Heap (Block UInt8) × Str :=
  (s.1.updateAt s.2.base fun b => b.take (s.2.size.toNat + 1) ++
    List.replicate (b.length - (s.2.size.toNat + 1)) none, s.2)

theorem IsText.unwritten (h : IsText s a cs room) :
    IsText (unwritten s) a cs (List.replicate room.length none) := by
  have hblock : ((cs ++ [0]).map some ++ room).take (s.2.size.toNat + 1) ++
      replicate (((cs ++ [0]).map some ++ room).length - (s.2.size.toNat + 1)) none =
      (cs ++ [0]).map some ++ replicate room.length none := by
    have hlen : ((cs ++ [0]).map (some : UInt8 → Option UInt8)).length = s.2.size.toNat + 1 := by
      simp [h.size]
    rw [take_left' hlen, length_append, hlen, Nat.add_sub_cancel_left]
  refine ⟨h.str, h.size, ?_, ?_, h.plain, ?_⟩
  · rw [length_replicate]
    exact h.capacity
  · show (s.1.updateAt s.2.base _).cells a = _
    rw [h.base_eq, ← hblock]
    exact update_self h.cells _
  · rw [length_replicate]
    exact h.fits

/-- **The range of `erase`**: the characters of the range are removed, without a read behind the
    null byte, if and only if the length is `npos` or the end of the range does not wrap. -/
theorem erase_range_iff (s : Heap (Block UInt8) × Str) (cs : Bytes) (h : Holds s cs)
    (pos len : UInt64) (hpos : pos.toNat < cs.length) :
    ((∃ s', erase pos len s = .ok () s' ∧ Shows s' (cs.take pos.toNat ++
        cs.drop (pos.toNat + min len.toNat (cs.length - pos.toNat)))) ∧
      ∃ s', erase pos len (unwritten s) = .ok () s') ↔
      len = npos ∨ pos.toNat + len.toNat < 2 ^ 64 := by
  obtain ⟨a, room, h⟩ := h
  constructor
  · rintro ⟨⟨s', hok, -⟩, -⟩
    by_contra hnot
    rw [not_or, Nat.not_lt] at hnot
    exact wpe_ok (h.wpe_erase_wrapped hpos hnot.1 hnot.2) hok
  · intro hlen
    obtain ⟨_, s', hok, hbecomes⟩ := exists_of_wpe
      (h.wpe_erase hpos hlen (Q := fun _ s' => Becomes s s' _) fun _ h' => h')
    obtain ⟨_, s'', hok', -⟩ := exists_of_wpe
      (h.unwritten.wpe_erase hpos hlen (Q := fun _ _ => True) fun _ _ => trivial)
    exact ⟨⟨s', hok, hbecomes.holds.shows⟩, s'', hok'⟩

def abc : Heap (Block UInt8) × Str :=
  (Heap.empty.alloc [some 97, some 98, some 99, some 0], ⟨elem 0 0, 3, 3⟩)

theorem abc_holds : Holds abc [97, 98, 99] :=
  ⟨0, [], rfl, rfl, rfl, rfl, by decide, by decide⟩

theorem erase_range_first : (∃ s', erase 0 1 abc = .ok () s' ∧ Shows s' [98, 99]) ∧
      ∃ s', erase 0 1 (unwritten abc) = .ok () s' :=
  (erase_range_iff abc [97, 98, 99] abc_holds 0 1 (by decide)).mpr (Or.inr (by decide))

/-- The sum of `2` and `2 ^ 64 - 2` is `0`: the text is copied from its start on. -/
theorem erase_range_faults : Holds abc [97, 98, 99] ∧
    ∃ s', erase 2 18446744073709551614 abc = .error (.fault .badAccess) s' :=
  ⟨abc_holds, _, rfl⟩

end ranges

end CallLesson.Algorithm.ZhcString
