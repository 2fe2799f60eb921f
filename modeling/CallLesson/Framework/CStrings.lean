import CallLesson.Framework.Arrays
import CallLesson.Framework.Text

/-! # C strings in arrays

    The functions of `<cstring>`, on arrays of characters. A C string is given by a pointer to
    its first character and ends before the first null byte. A function that meets the end of
    the array, or a character that has not been written, before the null byte has a fault.
    Each function has a rule for the C strings that it is called with. -/

namespace CallLesson

open Text Option

instance : HAdd ElemPtr UInt64 ElemPtr := ⟨fun p n => p + (n.toNat : Int).bmod (2 ^ 64)⟩

open List Heap

theorem elem_add_size {a i : Nat} {n : UInt64} (h : n.toNat < 2 ^ 63) :
    elem a i + n = elem a (i + n.toNat) := by
  have hsmall : (n.toNat : Int).bmod (2 ^ 64) = n.toNat :=
    Int.bmod_eq_of_le (by omega) (by omega)
  show elem a i + (n.toNat : Int).bmod (2 ^ 64) = _
  rw [hsmall, elem_add]

variable {p q : ElemPtr}

theorem add_size_eq_self {n : UInt64} : p + n = p ↔ n = 0 := by
  have hlt := n.toNat_lt
  have hzero : (n.toNat : Int).bmod (2 ^ 64) = 0 ↔ n.toNat = 0 := by
    rw [Int.bmod_def]
    omega
  have hidx : p + n = p ↔ (n.toNat : Int).bmod (2 ^ 64) = 0 := by
    obtain ⟨base, idx⟩ := p
    show (⟨base, idx + (n.toNat : Int).bmod (2 ^ 64)⟩ : ElemPtr) = ⟨base, idx⟩ ↔ _
    rw [ElemPtr.mk.injEq]
    constructor
    · rintro ⟨-, h⟩
      omega
    · intro h
      exact ⟨rfl, by omega⟩
  rw [hidx, hzero, ← UInt64.toNat_inj, UInt64.toNat_zero]

theorem elem_add_size_wrapped {a i : Nat} {n : UInt64} (h : 2 ^ 63 ≤ n.toNat)
    (hi : 2 ^ 64 ≤ i + n.toNat) : elem a i + n = elem a (i + n.toNat - 2 ^ 64) := by
  have hlt := n.toNat_lt
  have hwrap : (n.toNat : Int).bmod (2 ^ 64) = n.toNat - 2 ^ 64 := by
    rw [Int.bmod_def]
    omega
  have hidx : ((i + n.toNat - 2 ^ 64 : Nat) : Int) = i + ((n.toNat : Int) - 2 ^ 64) := by omega
  show (⟨some a, (i : Int) + (n.toNat : Int).bmod (2 ^ 64)⟩ : ElemPtr) =
    ⟨some a, ((i + n.toNat - 2 ^ 64 : Nat) : Int)⟩
  rw [hwrap, hidx]

def textAt : Block UInt8 → Option Bytes
  | some c :: b => if c = 0 then some [] else (textAt b).map (c :: ·)
  -- the end, or a character that has not been written
  | _ => none

theorem textAt_eq_some_iff {b : Block UInt8} {cs : Bytes} :
    textAt b = some cs ↔ 0 ∉ cs ∧ (cs ++ [0]).map some <+: b := by
  induction b generalizing cs with
  | nil => simp [textAt]
  | cons c b ih =>
    cases c with
    | none =>
      cases cs <;> simp [textAt, cons_prefix_cons]
    | some c =>
      by_cases hc : c = 0
      · subst hc
        cases cs with
        | nil => simp [textAt, cons_prefix_cons]
        | cons d cs =>
          have hne : 0 ∉ d :: cs → ¬ d = 0 := fun hmem hd => hmem (by simp [hd])
          simp only [textAt, if_true, some_inj, cons_append, map_cons, cons_prefix_cons]
          constructor
          · intro h
            cases h
          · rintro ⟨hmem, hd, -⟩
            exact absurd (hd) (hne hmem)
      · cases cs with
        | nil =>
          simp [textAt, hc, cons_prefix_cons, Ne.symm hc]
        | cons d cs =>
          simp only [textAt, hc, if_false, map_eq_some_iff, cons.injEq, ih,
            cons_append, map_cons, cons_prefix_cons, some_inj,
            mem_cons, not_or]
          constructor
          · rintro ⟨cs', ⟨hmem, hpre⟩, rfl, rfl⟩
            exact ⟨⟨Ne.symm hc, hmem⟩, rfl, hpre⟩
          · rintro ⟨⟨_, hmem⟩, rfl, hpre⟩
            exact ⟨cs, ⟨hmem, hpre⟩, rfl, rfl⟩

def Heap.cellsAt {α : Type} (h : Heap (Block α)) (p : ElemPtr) : Option (Block α) := do
  let b ← h.cells (← p.base)
  if 0 ≤ p.idx then some (b.drop p.idx.toNat) else none

/-- The C string that a pointer points to. -/
def Heap.textOf (h : Heap (Block UInt8)) (p : ElemPtr) : Option Bytes := h.cellsAt p >>= textAt

theorem Heap.cellsAt_elem {α : Type} {h : Heap (Block α)} {a i : Nat} {b : Block α}
    (ha : h.cells a = some b) : h.cellsAt (elem a i) = some (b.drop i) := by
  simp [cellsAt, ha]

theorem Heap.cellsAt_eq_some_iff {α : Type} {h : Heap (Block α)} {c : Block α} :
    h.cellsAt p = some c ↔ ∃ a i b, p = elem a i ∧ h.cells a = some b ∧ c = b.drop i := by
  constructor
  · intro hc
    obtain ⟨_ | a, idx⟩ := p
    · cases hc
    cases ha : h.cells a with
    | none => simp [cellsAt, ha] at hc
    | some b =>
      by_cases hidx : 0 ≤ idx
      · obtain ⟨i, rfl⟩ := Int.eq_ofNat_of_zero_le hidx
        refine ⟨a, i, b, rfl, ha, ?_⟩
        exact some_inj.mp (hc.symm.trans (cellsAt_elem ha))
      · simp [cellsAt, hidx] at hc
  · rintro ⟨a, i, b, rfl, ha, rfl⟩
    exact cellsAt_elem ha

theorem Heap.textOf_eq_some_iff {h : Heap (Block UInt8)} {cs : Bytes} :
    h.textOf p = some cs ↔ ∃ a i b, p = elem a i ∧ h.cells a = some b ∧
      0 ∉ cs ∧ (cs ++ [0]).map some <+: b.drop i := by
  rw [textOf, bind_eq_bind, bind_eq_some_iff]
  constructor
  · rintro ⟨c, hc, htext⟩
    obtain ⟨a, i, b, rfl, ha, rfl⟩ := cellsAt_eq_some_iff.mp hc
    exact ⟨a, i, b, rfl, ha, textAt_eq_some_iff.mp htext⟩
  · rintro ⟨a, i, b, rfl, ha, htext⟩
    exact ⟨_, cellsAt_elem ha, textAt_eq_some_iff.mpr htext⟩

theorem Heap.textOf_alloc {h : Heap (Block UInt8)} {cs : Bytes} (hp : h.textOf p = some cs)
    (b : Block UInt8) : (h.alloc b).textOf p = some cs := by
  obtain ⟨a, i, b', rfl, ha, htext⟩ := textOf_eq_some_iff.mp hp
  exact textOf_eq_some_iff.mpr ⟨a, i, b', rfl, alloc_of_some ha b, htext⟩

namespace ArrayM

open Exec

variable {ρ : Type}

/-! ## The functions -/

def cellsFrom {α : Type} (p : ElemPtr) : ArrayM α ρ (Block α) := do
  match (← get).1.cellsAt p with
  | none => throw (.fault .badAccess)
  | some c => pure c

def readText (p : ElemPtr) : ArrayM UInt8 ρ Bytes := do
  match (← get).1.textOf p with
  | none => throw (.fault .badAccess)
  | some cs => pure cs

def strlen (p : ElemPtr) : ArrayM UInt8 ρ UInt64 := do
  return UInt64.ofNat (← readText p).length

/-- One byte after the other, front to back, also where the two overlap. -/
def strcpyLoop (dst src : ElemPtr) : Nat → ArrayM UInt8 ρ Unit
  -- the next cell is behind the end of the array
  | 0 => throw (.fault .badAccess)
  | k + 1 => do
      let c ← read src
      write dst c
      if c = 0 then pure () else strcpyLoop (dst + (1 : Int)) (src + (1 : Int)) k

def strcpy (dst src : ElemPtr) : ArrayM UInt8 ρ Unit := do
  strcpyLoop dst src (← cellsFrom src).length

def strncpy (dst src : ElemPtr) : Nat → ArrayM UInt8 ρ Unit
  | 0 => pure ()
  | n + 1 => do
      let c ← read src
      write dst c
      if c = 0 then fill (dst + (1 : Int)) 0 n
      else strncpy (dst + (1 : Int)) (src + (1 : Int)) n

def strstr (haystack needle : ElemPtr) : ArrayM UInt8 ρ ElemPtr := do
  let cs ← readText haystack
  match find (← readText needle) cs with
  | none => pure .null
  | some i => pure (haystack + (i : Int))

/-! ## Rules -/

variable {s : Heap (Block UInt8) × ρ} {a d i j : Nat} {b bd : Block UInt8} {cs : Bytes}
  {p : ElemPtr} {X : Stop → Heap (Block UInt8) × ρ → Prop}

theorem wpe_cellsFrom {α : Type} {s : Heap (Block α) × ρ} {c : Block α}
    {X : Stop → Heap (Block α) × ρ → Prop} (hc : s.1.cellsAt p = some c)
    (Q : Block α → Heap (Block α) × ρ → Prop) : wpe (cellsFrom p) Q X s ↔ Q c s := by
  rw [cellsFrom, wpe_bind, wpe_get, hc, wpe_pure]

theorem wpe_readText (h : s.1.textOf p = some cs) (Q : Bytes → Heap (Block UInt8) × ρ → Prop) :
    wpe (readText p) Q X s ↔ Q cs s := by
  rw [readText, wpe_bind, wpe_get, h, wpe_pure]

theorem wpe_readText_cases (s : Heap (Block UInt8) × ρ) (p : ElemPtr) :
    wpe (readText p) (fun cs s' => s' = s ∧ s.1.textOf p = some cs) (fun e _ => e ≠ .badAlloc)
      s := by
  rw [readText, wpe_bind, wpe_get]
  cases s.1.textOf p <;> simp

theorem wpe_strlen (h : s.1.textOf p = some cs) (Q : UInt64 → Heap (Block UInt8) × ρ → Prop) :
    wpe (strlen p) Q X s ↔ Q (UInt64.ofNat cs.length) s := by
  rw [strlen, wpe_bind, wpe_readText h, wpe_pure]

theorem wpe_strlen_cases (s : Heap (Block UInt8) × ρ) (p : ElemPtr) :
    wpe (strlen p) (fun n s' => s' = s ∧ ∃ cs, s.1.textOf p = some cs ∧ n = UInt64.ofNat cs.length)
      (fun e _ => e ≠ .badAlloc) s := by
  rw [strlen, wpe_bind]
  refine wpe_mono (wpe_readText_cases s p) ?_ fun _ _ he => he
  rintro cs _ ⟨rfl, htext⟩
  exact (wpe_pure _ _ _ _).mpr ⟨rfl, cs, htext, rfl⟩

theorem wpe_strcpyLoop {k : Nat} (ha : s.1.cells a = some b) (hd : s.1.cells d = some bd)
    (hbefore : a = d → j ≤ i) (hcs : 0 ∉ cs) (htext : (cs ++ [0]).map some <+: b.drop i)
    (hroom : j + cs.length < bd.length) (hk : cs.length < k)
    (Q : Unit → Heap (Block UInt8) × ρ → Prop) :
    wpe (strcpyLoop (elem d j) (elem a i) k) Q X s ↔
      Q () (s.1.setBlock d (blit bd j ((cs ++ [0]).map some)), s.2) := by
  induction cs generalizing i j b bd s k with
  | nil =>
    obtain ⟨k, rfl⟩ := Nat.exists_eq_succ_of_ne_zero (Nat.ne_of_gt hk)
    obtain ⟨hx, -⟩ := prefix_drop_cons htext
    rw [strcpyLoop, wpe_bind, wpe_read ha hx, wpe_bind,
      wpe_write hd (show j < bd.length from hroom), if_pos rfl, wpe_pure]
    rfl
  | cons c cs ih =>
    obtain ⟨k, rfl⟩ := Nat.exists_eq_succ_of_ne_zero (Nat.ne_zero_of_lt hk)
    rw [length_cons] at hroom hk
    rw [mem_cons, not_or] at hcs
    obtain ⟨hx, hrest⟩ := prefix_drop_cons htext
    obtain ⟨b', ha', hrest'⟩ := prefix_of_set (y := some c) ha hd hbefore hrest
    rw [strcpyLoop, wpe_bind, wpe_read ha hx, wpe_bind, wpe_write hd (by omega),
      if_neg (Ne.symm hcs.1), elem_add_one, elem_add_one,
      ih ha' (setBlock_self hd) (fun had => Nat.succ_le_succ (hbefore had)) hcs.2 hrest'
        (by rw [length_set]; omega) (by omega),
      cons_append, map_cons, blit, setBlock_setBlock]

theorem wpe_strcpy (h : s.1.textOf p = some cs) (hd : s.1.cells d = some bd)
    (hbefore : p.base = some d → (j : Int) ≤ p.idx) (hroom : j + cs.length < bd.length)
    (Q : Unit → Heap (Block UInt8) × ρ → Prop) :
    wpe (strcpy (elem d j) p) Q X s ↔
      Q () (s.1.setBlock d (blit bd j ((cs ++ [0]).map some)), s.2) := by
  obtain ⟨a, i, b, rfl, ha, hcs, hpre⟩ := textOf_eq_some_iff.mp h
  have hlen := hpre.length_le
  rw [length_map, length_append, length_singleton] at hlen
  rw [strcpy, wpe_bind, wpe_cellsFrom (cellsAt_elem ha)]
  refine wpe_strcpyLoop ha hd (fun had => ?_) hcs hpre hroom hlen Q
  have := hbefore (by rw [elem_base, had])
  rwa [elem_idx, Int.ofNat_le] at this

theorem wpe_strcpy_new {β : Type} {m : Nat} (h : s.1.textOf p = some cs) (hm : cs.length ≤ m)
    (f : ElemPtr → ArrayM UInt8 ρ β) (Q : β → Heap (Block UInt8) × ρ → Prop) :
    wpe (newArray (m + 1) >>= fun q => strcpy q p >>= fun _ => f q) Q X s ↔
      (m < maxElems → wpe (f (elem s.1.next 0)) Q X
        (s.1.alloc ((cs ++ [0]).map some ++ List.replicate (m - cs.length) none), s.2)) ∧
      (¬ m < maxElems → X .badAlloc s) := by
  have hblit : blit (replicate (m + 1) none) 0 ((cs ++ [0]).map some) =
      (cs ++ [0]).map some ++ replicate (m - cs.length) none := by
    rw [blit_eq _ _ _ (by simp; omega), take_zero, nil_append, Nat.zero_add,
      drop_replicate, length_map, length_append, length_singleton,
      Nat.add_sub_add_right]
  have hbefore : p.base = some s.1.next → ((0 : Nat) : Int) ≤ p.idx := by
    intro _
    obtain ⟨a, i, _, rfl, -⟩ := textOf_eq_some_iff.mp h
    exact Int.natCast_nonneg i
  rw [wpe_bind, wpe_newArray, wpe_bind,
    wpe_strcpy (textOf_alloc h _) (alloc_self _ _) hbefore
      (by rw [length_replicate]; omega), alloc_setBlock, hblit]
  rfl

theorem wpe_strcpyLoop_behind {k : Nat} (ha : s.1.cells a = some b) (hij : i < j)
    (htext : ∀ n, i ≤ n → n < j → ∃ c, c ≠ 0 ∧ b[n]? = some (some c)) :
    wpe (strcpyLoop (elem a j) (elem a i) k) (fun _ _ => False)
      (fun e _ => e = .fault .badAccess) s := by
  induction k generalizing i j b s with
  | zero => rw [strcpyLoop, wpe_throw]
  | succ k ih =>
    obtain ⟨c, hc, hx⟩ := htext i (Nat.le_refl i) hij
    rw [strcpyLoop, wpe_bind, wpe_read ha hx, wpe_bind]
    by_cases hj : j < b.length
    · rw [wpe_write ha hj, if_neg hc, elem_add_one, elem_add_one]
      refine ih (setBlock_self ha) (Nat.succ_lt_succ hij) fun n hn hnj => ?_
      rcases Nat.lt_succ_iff_lt_or_eq.mp hnj with hlt | rfl
      · rw [getElem?_set_ne (by omega)]
        exact htext n (by omega) hlt
      · exact ⟨c, hc, getElem?_set_self hj⟩
    · rw [wpe_write_outside ha (Nat.le_of_not_lt hj)]

theorem wpe_strncpy (ha : s.1.cells a = some b) (hd : s.1.cells d = some bd)
    (hbefore : a = d → j ≤ i) (hcs : 0 ∉ cs) (htext : cs.map some <+: b.drop i)
    (hroom : j + cs.length ≤ bd.length) (Q : Unit → Heap (Block UInt8) × ρ → Prop) :
    wpe (strncpy (elem d j) (elem a i) cs.length) Q X s ↔
      Q () (s.1.setBlock d (blit bd j (cs.map some)), s.2) := by
  induction cs generalizing i j b bd s with
  | nil => rw [length_nil, strncpy, wpe_pure, map_nil, blit, setBlock_same hd]
  | cons c cs ih =>
    rw [length_cons] at hroom
    rw [mem_cons, not_or] at hcs
    obtain ⟨hx, hrest⟩ := prefix_drop_cons htext
    obtain ⟨b', ha', hrest'⟩ := prefix_of_set (y := some c) ha hd hbefore hrest
    rw [length_cons, strncpy, wpe_bind, wpe_read ha hx, wpe_bind, wpe_write hd (by omega),
      if_neg (Ne.symm hcs.1), elem_add_one, elem_add_one,
      ih ha' (setBlock_self hd) (fun had => Nat.succ_le_succ (hbefore had)) hcs.2 hrest'
        (by rw [length_set]; omega),
      map_cons, blit, setBlock_setBlock]

theorem wpe_strstr {ds : Bytes} (h : s.1.textOf p = some cs) (h' : s.1.textOf q = some ds)
    (Q : ElemPtr → Heap (Block UInt8) × ρ → Prop) :
    wpe (strstr p q) Q X s ↔
      Q (match find ds cs with
        | none => .null
        | some i => p + (i : Int)) s := by
  rw [strstr, wpe_bind, wpe_readText h, wpe_bind, wpe_readText h']
  cases find ds cs <;> exact wpe_pure _ _ _ _

theorem wpe_strcpyLoop_cases {k : Nat} (ha : s.1.cells a = some b) (hd : s.1.cells d = some bd)
    (hne : a ≠ d) :
    wpe (strcpyLoop (elem d j) (elem a i) k)
      (fun _ s' => ∃ cs, 0 ∉ cs ∧ (cs ++ [0]).map some <+: b.drop i ∧ j + cs.length < bd.length ∧
        s' = (s.1.setBlock d (blit bd j ((cs ++ [0]).map some)), s.2))
      (fun e _ => e ≠ .badAlloc) s := by
  induction k generalizing i j bd s with
  | zero => exact (wpe_throw _ _ _ _).mpr nofun
  | succ k ih =>
    rw [strcpyLoop, wpe_bind]
    rcases hx : b[i]? with _ | _ | c
    · simp [read, ha, hx]
    · simp [read, ha, hx]
    obtain ⟨hlt, hc⟩ := List.getElem?_eq_some_iff.mp hx
    have hdrop : b.drop i = some c :: b.drop (i + 1) := by rw [List.drop_eq_getElem_cons hlt, hc]
    rw [wpe_read ha hx, wpe_bind]
    by_cases hj : j < bd.length
    · rw [wpe_write hd hj, hdrop]
      by_cases hzero : c = 0
      · subst hzero
        rw [if_pos rfl, wpe_pure]
        exact ⟨[], by simp, List.cons_prefix_cons.mpr ⟨rfl, List.nil_prefix⟩, hj, rfl⟩
      · rw [if_neg hzero, elem_add_one, elem_add_one]
        have ha' : (s.1.setBlock d (bd.set j (some c))).cells a = some b := by
          rw [Heap.setBlock_ne hne, ha]
        refine wpe_mono (ih ha' (Heap.setBlock_self hd)) ?_ fun _ _ he => he
        rintro _ _ ⟨cs, hcs, hpre, hroom, rfl⟩
        rw [List.length_set] at hroom
        refine ⟨c :: cs, ?_, List.cons_prefix_cons.mpr ⟨rfl, hpre⟩, ?_, ?_⟩
        · simpa using ⟨Ne.symm hzero, hcs⟩
        · rw [List.length_cons]
          omega
        · rw [Heap.setBlock_setBlock]
          rfl
    · rw [wpe_write_outside hd (Nat.le_of_not_lt hj)]
      exact nofun

theorem wpe_strcpy_cases (hd : s.1.cells d = some bd) (hp : p.base ≠ some d) :
    wpe (strcpy (elem d j) p)
      (fun _ s' => ∃ cs, s.1.textOf p = some cs ∧ j + cs.length < bd.length ∧
        s' = (s.1.setBlock d (blit bd j ((cs ++ [0]).map some)), s.2))
      (fun e _ => e ≠ .badAlloc) s := by
  rw [strcpy, wpe_bind, cellsFrom, wpe_bind, wpe_get]
  cases hc : s.1.cellsAt p with
  | none => exact (wpe_throw _ _ _ _).mpr nofun
  | some c =>
    obtain ⟨a, i, b, rfl, ha, rfl⟩ := cellsAt_eq_some_iff.mp hc
    have hne : a ≠ d := fun had => hp (by rw [elem_base, had])
    rw [wpe_pure]
    refine wpe_mono (wpe_strcpyLoop_cases ha hd hne) ?_ fun _ _ he => he
    rintro _ _ ⟨cs, hcs, hpre, hroom, rfl⟩
    exact ⟨cs, textOf_eq_some_iff.mpr ⟨a, i, b, rfl, ha, hcs, hpre⟩, hroom, rfl⟩

/-! ## Programs that write to one array only -/

variable {α β γ : Type} {o : Ptr}

structure Within (o : Ptr) (s s' : Heap (Block α) × ρ) : Prop where
  obj : s'.2 = s.2
  next : s'.1.next = s.1.next
  others : ∀ c, o ≠ some c → s'.1.cells c = s.1.cells c
  lengths : ∀ c, (s'.1.cells c).map List.length = (s.1.cells c).map List.length

theorem Within.refl (o : Ptr) (s : Heap (Block α) × ρ) : Within o s s :=
  ⟨rfl, rfl, fun _ _ => rfl, fun _ => rfl⟩

theorem Within.trans {s s' s'' : Heap (Block α) × ρ} (h : Within o s s') (h' : Within o s' s'') :
    Within o s s'' :=
  ⟨h'.obj.trans h.obj, h'.next.trans h.next, fun c hc => (h'.others c hc).trans (h.others c hc),
    fun c => (h'.lengths c).trans (h.lengths c)⟩

/-- The program writes to one array only, and allocates none. -/
def Confined (o : Ptr) (x : ArrayM α ρ β) : Prop :=
  ∀ s, wpe x (fun _ s' => Within o s s') (fun e _ => e ≠ .badAlloc) s

theorem confined_pure (y : β) : Confined o (pure y : ArrayM α ρ β) :=
  fun s => (wpe_pure _ _ _ _).mpr (Within.refl o s)

theorem confined_fault (f : Fault) : Confined o (throw (.fault f) : ArrayM α ρ β) :=
  fun _ => (wpe_throw _ _ _ _).mpr nofun

theorem confined_bind {x : ArrayM α ρ β} {f : β → ArrayM α ρ γ} (hx : Confined o x)
    (hf : ∀ y, Confined o (f y)) : Confined o (x >>= f) := by
  intro s
  rw [wpe_bind]
  refine wpe_mono (hx s) (fun y s' h => ?_) fun _ _ he => he
  exact wpe_mono (hf y s') (fun _ _ h' => h.trans h') fun _ _ he => he

theorem confined_ite (c : Prop) [Decidable c] {x y : ArrayM α ρ β} (hx : Confined o x)
    (hy : Confined o y) : Confined o (if c then x else y) := by
  split
  · exact hx
  · exact hy

theorem confined_check (c : Prop) [Decidable c] : Confined o (check c : ArrayM α ρ Unit) :=
  confined_ite c (confined_pure ()) (confined_fault _)

theorem confined_read (p : ElemPtr) : Confined o (read p : ArrayM α ρ α) := by
  intro s
  obtain ⟨_ | c, idx⟩ := p
  · simp [read]
  cases hc : s.1.cells c with
  | none => simp [read, hc]
  | some b =>
    by_cases hidx : 0 ≤ idx
    · rcases hx : b[idx.toNat]? with _ | _ | x
      · simp [read, hc, hidx, hx]
      · simp [read, hc, hidx, hx]
      · simp [read, hc, hidx, hx, Within.refl]
    · simp [read, hc, hidx]

theorem confined_write (hp : p.base = o) (x : α) : Confined o (write p x : ArrayM α ρ Unit) := by
  intro s
  subst hp
  obtain ⟨_ | a, idx⟩ := p
  · simp [write]
  cases ha : s.1.cells a with
  | none => simp [write, ha]
  | some b =>
    by_cases hidx : 0 ≤ idx ∧ idx.toNat < b.length
    · simp only [write, ha, hidx, wpe_bind, wpe_get, if_true, and_self, wpe_modify]
      refine ⟨rfl, rfl, fun c hc => setBlock_ne fun hca => hc (congrArg some hca.symm), fun c => ?_⟩
      by_cases hca : c = a
      · rw [hca, setBlock_self ha, ha, map_some, map_some, length_set]
      · rw [setBlock_ne hca]
    · simp [write, ha, hidx]

theorem confined_fill (hp : p.base = o) (x : α) (n : Nat) :
    Confined o (fill p x n : ArrayM α ρ Unit) := by
  induction n generalizing p with
  | zero => exact confined_pure ()
  | succ n ih => exact confined_bind (confined_write hp x) fun _ => ih hp

theorem confined_strcpyLoop (hp : p.base = o) (k : Nat) :
    Confined o (strcpyLoop p q k : ArrayM UInt8 ρ Unit) := by
  induction k generalizing p q with
  | zero => exact confined_fault _
  | succ k ih =>
    exact confined_bind (confined_read q) fun c => confined_bind (confined_write hp c) fun _ =>
      confined_ite _ (confined_pure ()) (ih hp)

theorem confined_strcpy (hp : p.base = o) : Confined o (strcpy p q : ArrayM UInt8 ρ Unit) := by
  refine confined_bind (fun s => ?_) fun _ => confined_strcpyLoop hp _
  rw [cellsFrom, wpe_bind, wpe_get]
  cases s.1.cellsAt q <;> simp [Within.refl]

theorem confined_strncpy (hp : p.base = o) (n : Nat) :
    Confined o (strncpy p q n : ArrayM UInt8 ρ Unit) := by
  induction n generalizing p q with
  | zero => exact confined_pure ()
  | succ n ih =>
    exact confined_bind (confined_read q) fun c => confined_bind (confined_write hp c) fun _ =>
      confined_ite _ (confined_fill (p := p + (1 : Int)) hp 0 n) (ih hp)

end ArrayM

end CallLesson
