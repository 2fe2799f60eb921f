import CallLesson.Algorithm.ZhcString

/-! # Several strings

    The constructors of `String.hpp`, its assignment, `swap` and the observers. A program has
    any number of strings, which it names. The copy constructor works with a string `tmp` of
    its own and `operator=` with its argument; both are destroyed when it returns. A moved-from
    string has the null pointer.

    A string that is not moved-from has an array of `_capacity + 1` characters, with anything in
    it: `resize` and `operator[]` can put null bytes into the text, and `insert` can write
    behind it. -/

namespace CallLesson.Algorithm.ZhcString

open ArrayM Exec Text Str

/-! ## Model -/

namespace Str

def null : Str := ⟨.null, 0, 0⟩

def begin_ (v : Str) : ElemPtr := v.str

def end_ (v : Str) : ElemPtr := v.str + v.size

def empty (v : Str) : Bool := v.size == 0 && v.capacity == 0

end Str

def setAt (pos : UInt64) (ch : UInt8) : StringM Unit := do
  let v ← getObj
  check (pos < v.size)
  write (v.str + pos) ch

def release : StringM Unit := do
  deleteArray (← getObj).str
  setObj null

def printLoop : Nat → UInt64 → StringM Bytes
  | 0, _ => pure []
  | k + 1, i => do
      let c ← at_ i
      return c :: (← printLoop k (i + 1))

def print : StringM Bytes := do
  printLoop (← getObj).size.toNat 0

inductive Op (I : Type) where
  | construct (i : I) (str : ElemPtr)
  | copy (i j : I)
  | move (i j : I)
  | assign (i j : I)
  | swap (i j : I)
  | destroy (i : I)
  | setAt (i : I) (pos : UInt64) (ch : UInt8)
  | call (i : I) (c : Call)
  deriving DecidableEq

section objects

variable {I : Type} [DecidableEq I]

abbrev StringsM (I : Type) := ArrayM UInt8 (Dict (ObjName I) Str)

def construct (this : ObjName I) (str : ElemPtr) : StringsM I Unit := do
  put this (← ofCStr str)

def destroy (this : ObjName I) : StringsM I Unit := do
  on this release
  drop this

def swap (this s : ObjName I) : StringsM I Unit := do
  let l ← fetch this
  let r ← fetch s
  put this r
  put s l

def copy (this s : ObjName I) : StringsM I Unit :=
  constructing this do
    put this null
    let src ← fetch s
    construct .tmp src.str
    swap this .tmp
    destroy .tmp

def move (this s : ObjName I) : StringsM I Unit :=
  constructing this do
    put this null
    swap this s

def assign (this s : ObjName I) : StringsM I Unit := do
  copy .arg s
  swap this .arg
  destroy .arg

def run : Op I → StringsM I Unit
  | .construct i str => construct (.var i) str
  | .copy i j => copy (.var i) (.var j)
  | .move i j => move (.var i) (.var j)
  | .assign i j => assign (.var i) (.var j)
  | .swap i j => swap (.var i) (.var j)
  | .destroy i => destroy (.var i)
  | .setAt i pos ch => on (.var i) (ZhcString.setAt pos ch)
  | .call i c => on (.var i) (exec c)

omit [DecidableEq I] in
def Op.Valid (d : Dict (ObjName I) Str) : Op I → Prop
  | .construct i _ => d (.var i) = none
  | .copy i j | .move i j => d (.var i) = none ∧ ∃ v, d (.var j) = some v
  | .assign i j | .swap i j => (∃ w, d (.var i) = some w) ∧ ∃ v, d (.var j) = some v
  | .destroy i | .setAt i _ _ | .call i _ => ∃ v, d (.var i) = some v

end objects

/-! ## Whatever is in the array -/

open List Option Function Dict Heap

section sound

variable {s s' : Heap (Block UInt8) × Str} {n : UInt64}

def Sound (s : Heap (Block UInt8) × Str) : Prop :=
  (s.2.str = .null ∧ s.2.capacity = 0) ∨ ∃ a b, s.2.str = elem a 0 ∧ s.1.cells a = some b ∧
    b.length = s.2.capacity.toNat + 1 ∧ b.length ≤ maxElems

structure Evolves (s s' : Heap (Block UInt8) × Str) : Prop where
  sound : Sound s'
  kept : Kept base s s'

theorem Sound.evolves (h : Sound s) : Evolves s s := ⟨h, Kept.refl s⟩

theorem Evolves.trans {s'' : Heap (Block UInt8) × Str} (h : Evolves s s') (h' : Evolves s' s'') :
    Evolves s s'' :=
  ⟨h'.sound, h.kept.trans h'.kept⟩

theorem Sound.within (h : Sound s) (hw : Within s.2.base s s') : Evolves s s' := by
  refine ⟨?_, hw.next.ge, fun a _ ha => hw.others a ha, Or.inl (by rw [hw.obj])⟩
  rw [Sound, hw.obj]
  rcases h with hnull | ⟨a, b, hstr, ha, hlen, hmax⟩
  · exact Or.inl hnull
  · have hlength := hw.lengths a
    rw [ha, map_some, map_eq_some_iff] at hlength
    obtain ⟨b', ha', hsame⟩ := hlength
    exact Or.inr ⟨a, b', hstr, ha', hsame.trans hlen, hsame.trans_le hmax⟩

theorem Evolves.resized {v : Str} (h : Evolves s s') (hobj : s'.2 = v) (n : UInt64) :
    Evolves s (s'.1, { v with size := n }) := by
  subst hobj
  exact ⟨h.sound, h.kept.trans (Kept.members rfl)⟩

theorem Sound.live (h : Sound s) : ∀ a, s.2.base = some a → a < s.1.next := by
  intro a ha
  rcases h with ⟨hnull, -⟩ | ⟨c, b, hstr, hc, -⟩
  · rw [base, hnull] at ha
    cases ha
  · rw [base, hstr, elem_base, some_inj] at ha
    exact ha ▸ lt_next hc

theorem Sound.of_cells {h' : Heap (Block UInt8)} (h : Sound s)
    (hcells : ∀ a, s.2.base = some a → h'.cells a = s.1.cells a) : Sound (h', s.2) := by
  rcases h with hnull | ⟨a, b, hstr, ha, hlen⟩
  · exact Or.inl hnull
  · exact Or.inr ⟨a, b, hstr, (hcells a (by rw [base, hstr, elem_base])).trans ha, hlen⟩

variable {X : Stop → Heap (Block UInt8) × Str → Prop}

theorem Sound.wpe_confined {β : Type} {x : StringM β} (h : Sound s)
    (hx : Confined s.2.base x) {Q : β → Heap (Block UInt8) × Str → Prop}
    (hX : ∀ e s', e ≠ .badAlloc → X e s')
    (hQ : ∀ y s', Evolves s s' → s'.2 = s.2 → Q y s') : wpe x Q X s :=
  wpe_mono (hx s) (fun y s' hw => hQ y s' (h.within hw) hw.obj) fun e s' => hX e s'

theorem Sound.wpe_reserve (h : Sound s) {Q : Unit → Heap (Block UInt8) × Str → Prop}
    (hX : ∀ e s', e ≠ .badAlloc → X e s')
    (hQ : ∀ s', Evolves s s' → s'.2.size = s.2.size →
      s'.2.capacity = (if n > s.2.capacity then n else s.2.capacity) → Q () s')
    (hfull : n ≠ npos → maxElems ≤ n.toNat → X .badAlloc s) : wpe (reserve n) Q X s := by
  rw [reserve, wpe_bind, wpe_getObj, wpe_whenever]
  refine ⟨fun hlt => ?_, fun hle => hQ s h.evolves rfl (if_neg hle).symm⟩
  rw [wpe_bind, wpe_newArray]
  have hsucc : (n + 1).toNat ≠ 0 → n ≠ npos ∧ (n + 1).toNat = n.toNat + 1 := by
    intro hzero
    have hn : n ≠ npos := fun heq => hzero (by rw [heq]; rfl)
    exact ⟨hn, toNat_succ hn⟩
  refine ⟨fun hfits => ?_, fun hnot => ?_⟩
  · have hapart : s.2.str.base ≠ some s.1.next := fun hbase => lt_irrefl _ (h.live _ hbase)
    rw [wpe_bind]
    refine wpe_mono (wpe_strcpy_cases (alloc_self _ _) hapart) ?_ fun e s' => hX e s'
    rintro _ _ ⟨cs, htext, hroom, rfl⟩
    rw [length_replicate] at hroom
    obtain ⟨-, hm⟩ := hsucc (by omega)
    -- there was something to copy, so the string is not moved-from
    rcases h with ⟨hnull, -⟩ | ⟨a, b, hstr, ha, -⟩
    · rw [hnull] at htext
      cases htext
    have hne : a ≠ s.1.next := (lt_next ha).ne
    rw [alloc_setBlock, hstr, wpe_bind, wpe_deleteArray (alloc_of_some ha _), wpe_setObj]
    refine hQ _ ⟨Or.inr ⟨s.1.next, blit (replicate (n + 1).toNat none) 0
      ((cs ++ [0]).map some), rfl, ?_, ?_, ?_⟩, Kept.replace _ ?_ rfl⟩ rfl (if_pos hlt).symm
    · rw [free_ne _ hne.symm, alloc_self]
    · rw [blit_length, length_replicate, hm]
    · rwa [blit_length, length_replicate]
    · rw [base, hstr, elem_base]
  · obtain ⟨hn, hm⟩ := hsucc (by omega)
    exact hfull hn (by omega)

theorem Sound.capacity_lt (h : Sound s) : s.2.capacity.toNat < maxElems := by
  rcases h with ⟨-, hcap⟩ | ⟨a, b, -, -, hlen, hmax⟩
  · rw [hcap]
    decide
  · omega

structure Tracks (v v' : Str) : Prop where
  kept : v.capacity ≠ 0 → v'.capacity ≠ 0
  filled : v'.capacity ≠ 0 → v.capacity ≠ 0 ∨ v'.size ≠ 0
  occupied : (v.size ≠ 0 → v.capacity ≠ 0) → v'.size ≠ 0 → v'.capacity ≠ 0

theorem tracks_same {v v' : Str} (hcap : v'.capacity = v.capacity)
    (hsize : v'.size ≠ 0 → v.size ≠ 0) : Tracks v v' where
  kept h := by rwa [hcap]
  filled h := Or.inl (by rwa [← hcap])
  occupied h hne := by
    rw [hcap]
    exact h (hsize hne)

theorem tracks_grown {v v' : Str} (hle : v'.size ≤ v'.capacity)
    (hcap : v'.capacity = v.capacity ∨ v'.capacity = v'.size ∧ v.capacity < v'.capacity) :
    Tracks v v' := by
  rw [UInt64.le_iff_toNat_le] at hle
  rw [UInt64.lt_iff_toNat_lt] at hcap
  constructor
  · intro hne
    rcases hcap with hsame | ⟨-, hlt⟩
    · rwa [hsame]
    · rw [Ne, ← UInt64.toNat_inj, UInt64.toNat_zero]
      omega
  · intro hne
    rcases hcap with hsame | ⟨hsize, -⟩
    · exact Or.inl (hsame ▸ hne)
    · exact Or.inr (hsize ▸ hne)
  · intro _ hne
    rw [Ne, ← UInt64.toNat_inj, UInt64.toNat_zero] at hne ⊢
    omega

section calls

variable {Q : Unit → Heap (Block UInt8) × Str → Prop} {X : Stop → Heap (Block UInt8) × Str → Prop}

section

variable (h : Sound s) (hX : ∀ e s', e ≠ .badAlloc → X e s') (hfull : X .badAlloc s)

include h hX hfull

theorem Sound.wpe_makeRoom (hQ : ∀ s', Evolves s s' → s'.2.size = s.2.size →
      (∀ w : Str, w.capacity = s'.2.capacity → w.size = s.2.size + 1 → Tracks s.2 w) → Q () s') :
    wpe makeRoom Q X s := by
  rw [makeRoom, wpe_bind, wpe_getObj, wpe_whenever]
  refine ⟨fun heq => ?_, fun hne => hQ s h.evolves rfl fun w hcap hsize => ?_⟩
  · refine h.wpe_reserve hX (fun s' h' hsize hcap => hQ s' h' hsize fun w hwcap hwsize => ?_)
      fun _ _ => hfull
    have hcap' : w.capacity ≠ 0 := by
      rw [hwcap, hcap]
      by_cases hzero : s.2.capacity = 0
      · rw [hzero]
        decide
      · rw [if_neg hzero]
        split
        · next hgt =>
          intro hnone
          rw [hnone] at hgt
          exact UInt64.not_lt_zero hgt
        · exact hzero
    have hsize' : w.size ≠ 0 := by
      have hlt := h.capacity_lt
      unfold maxElems at hlt
      rw [hwsize, heq, Ne, ← UInt64.toNat_inj, UInt64.toNat_add, UInt64.toNat_one,
        UInt64.toNat_zero]
      omega
    exact ⟨fun _ => hcap', fun _ => Or.inr hsize', fun _ _ => hcap'⟩
  · refine ⟨fun hcap' => by rwa [hcap], fun hcap' => Or.inl (by rwa [← hcap]), fun hocc _ => ?_⟩
    -- a string without capacity would be full
    rw [hcap]
    intro hzero
    exact hocc (fun hsize' => hne (hsize'.trans hzero.symm)) hzero

theorem Sound.wpe_makeRoomFor {len : UInt64} (hQ : ∀ s', Evolves s s' → s'.2.size = s.2.size →
      (∀ w : Str, w.capacity = s'.2.capacity → w.size = s.2.size + len → Tracks s.2 w) → Q () s') :
    wpe (makeRoomFor len) Q X s := by
  rw [makeRoomFor, wpe_bind, wpe_getObj, wpe_whenever]
  refine ⟨fun hgt => ?_, fun hle => hQ s h.evolves rfl fun w hcap hsize => ?_⟩
  · refine h.wpe_reserve hX (fun s' h' hsize hcap => hQ s' h' hsize fun w hwcap hwsize => ?_)
      fun _ _ => hfull
    rw [if_pos hgt] at hcap
    have hsame : w.capacity = w.size := by rw [hwcap, hcap, hwsize]
    refine tracks_grown (UInt64.le_of_eq hsame.symm) (Or.inr ⟨hsame, ?_⟩)
    rwa [hsame, hwsize]
  · refine tracks_grown ?_ (Or.inl hcap)
    rw [hcap, hsize]
    exact UInt64.not_lt.mp hle

theorem Sound.wpe_pushBack {ch : UInt8} (hQ : ∀ s', Evolves s s' → Tracks s.2 s'.2 → Q () s') :
    wpe (pushBack ch) Q X s := by
  rw [pushBack, wpe_bind]
  refine h.wpe_makeRoom hX hfull fun s1 h1 hsize htracks => ?_
  rw [wpe_bind, wpe_getObj, wpe_bind]
  refine h1.sound.wpe_confined (confined_write (p := s1.2.str + s1.2.size) rfl ch) hX
    fun _ s2 h2 hobj => ?_
  have h3 := (h1.trans h2).resized hobj (s1.2.size + 1)
  rw [wpe_bind, wpe_setObj]
  refine h3.sound.wpe_confined (confined_write (p := s1.2.str + (s1.2.size + 1)) rfl 0) hX
    fun _ s4 h4 hobj' => ?_
  exact hQ s4 (h3.trans h4) (htracks _ (by rw [hobj']) (by rw [hobj', hsize]))

theorem Sound.wpe_append {str : ElemPtr} (hQ : ∀ s', Evolves s s' → Tracks s.2 s'.2 → Q () s') :
    wpe (append str) Q X s := by
  rw [append, wpe_bind]
  refine wpe_mono (wpe_strlen_cases s str) ?_ fun e s' => hX e s'
  rintro len _ ⟨rfl, -⟩
  rw [wpe_bind]
  refine h.wpe_makeRoomFor hX hfull fun s1 h1 hsize htracks => ?_
  rw [wpe_bind, wpe_getObj, wpe_bind]
  refine h1.sound.wpe_confined (confined_strcpy (p := s1.2.str + s1.2.size) rfl) hX
    fun _ s2 h2 hobj => ?_
  rw [wpe_setObj]
  exact hQ _ ((h1.trans h2).resized hobj _) (htracks _ rfl (by rw [← hsize]))

end

theorem confined_shiftLoop {str : ElemPtr} {len : UInt64} (k : Nat) (last : UInt64) :
    Confined str.base (shiftLoop str len k last) := by
  induction k generalizing last with
  | zero => exact confined_pure ()
  | succ k ih =>
    exact confined_bind (confined_read _) fun c =>
      confined_bind (confined_write (p := str + last) rfl c) fun _ => ih _

section

variable (h : Sound s) (hX : ∀ e s', e ≠ .badAlloc → X e s')

include h hX

theorem Sound.wpe_insertChar {pos : UInt64} {ch : UInt8} (hfull : X .badAlloc s)
    (hQ : ∀ s', Evolves s s' → Tracks s.2 s'.2 → Q () s') : wpe (insertChar pos ch) Q X s := by
  rw [insertChar, wpe_bind, wpe_getObj, wpe_bind, check, wpe_ite]
  refine ⟨fun _ => ?_, fun _ => (wpe_throw _ _ _ _).mpr (hX _ _ (by simp))⟩
  rw [wpe_pure, wpe_bind]
  refine h.wpe_makeRoom hX hfull fun s1 h1 hsize htracks => ?_
  rw [wpe_bind, wpe_getObj, wpe_bind]
  refine h1.sound.wpe_confined (confined_shiftLoop _ _) hX fun _ s2 h2 hobj => ?_
  rw [wpe_bind]
  refine h2.sound.wpe_confined (confined_write (p := s1.2.str + pos) (by rw [hobj]; rfl) ch) hX
    fun _ s3 h3 hobj' => ?_
  rw [wpe_setObj]
  exact hQ _ ((h1.trans (h2.trans h3)).resized (hobj'.trans hobj) _)
    (htracks _ rfl (by rw [← hsize]))

theorem Sound.wpe_insertStr {pos : UInt64} {str : ElemPtr} (hfull : X .badAlloc s)
    (hQ : ∀ s', Evolves s s' → Tracks s.2 s'.2 → Q () s') : wpe (insertStr pos str) Q X s := by
  rw [insertStr, wpe_bind]
  refine wpe_mono (wpe_strlen_cases s str) ?_ fun e s' => hX e s'
  rintro len _ ⟨rfl, -⟩
  rw [wpe_bind]
  refine h.wpe_makeRoomFor hX hfull fun s1 h1 hsize htracks => ?_
  rw [wpe_bind, wpe_getObj, wpe_bind]
  refine h1.sound.wpe_confined (confined_shiftLoop _ _) hX fun _ s2 h2 hobj => ?_
  rw [wpe_bind]
  refine h2.sound.wpe_confined (confined_strncpy (p := s1.2.str + pos) (by rw [hobj]; rfl) _) hX
    fun _ s3 h3 hobj' => ?_
  rw [wpe_setObj]
  exact hQ _ ((h1.trans (h2.trans h3)).resized (hobj'.trans hobj) _)
    (htracks _ rfl (by rw [← hsize]))

theorem Sound.wpe_erase {pos len : UInt64} (hQ : ∀ s', Evolves s s' → Tracks s.2 s'.2 → Q () s') :
    wpe (erase pos len) Q X s := by
  rw [erase, wpe_bind, wpe_getObj, wpe_bind, check, wpe_ite]
  refine ⟨fun hpos => ?_, fun _ => (wpe_throw _ _ _ _).mpr (hX _ _ (by simp))⟩
  -- there is a character to erase
  have hne : s.2.size ≠ 0 := by
    rw [UInt64.lt_iff_toNat_lt] at hpos
    rw [Ne, ← UInt64.toNat_inj, UInt64.toNat_zero]
    omega
  rw [wpe_pure, wpe_ite, wpe_bind, wpe_bind]
  constructor
  · intro _
    refine h.wpe_confined (confined_write (p := s.2.str + pos) rfl 0) hX fun _ s1 h1 hobj => ?_
    rw [wpe_setObj]
    exact hQ _ (h1.resized hobj _) (tracks_same rfl fun _ => hne)
  · intro _
    refine h.wpe_confined (confined_strcpy (p := s.2.str + pos) rfl) hX fun _ s1 h1 hobj => ?_
    rw [wpe_setObj]
    exact hQ _ (h1.resized hobj _) (tracks_same rfl fun _ => hne)

theorem Sound.wpe_resize {ch : UInt8} (hfull : X .badAlloc s)
    (hQ : ∀ s', Evolves s s' → Tracks s.2 s'.2 → Q () s') : wpe (resize n ch) Q X s := by
  rw [resize, wpe_bind, wpe_getObj, wpe_ite, wpe_bind, wpe_bind]
  constructor
  · intro hgt
    refine h.wpe_reserve hX (fun s1 h1 hsize hcap => ?_) fun _ _ => hfull
    rw [wpe_bind, wpe_getObj, wpe_bind]
    refine h1.sound.wpe_confined (confined_fill (p := s1.2.str + s1.2.size) rfl ch _) hX
      fun _ s2 h2 hobj => ?_
    have h3 := (h1.trans h2).resized hobj n
    rw [wpe_bind, wpe_setObj]
    refine h3.sound.wpe_confined (confined_write (p := s1.2.str + n) rfl 0) hX
      fun _ s4 h4 hobj' => hQ s4 (h3.trans h4) ?_
    rw [hobj']
    by_cases hlt : n > s.2.capacity
    · rw [if_pos hlt] at hcap
      exact tracks_grown (UInt64.le_of_eq hcap.symm) (Or.inr ⟨hcap, by rw [hcap]; exact hlt⟩)
    · rw [if_neg hlt] at hcap
      exact tracks_grown (by rw [hcap]; exact UInt64.not_lt.mp hlt) (Or.inl hcap)
  · intro hle
    refine h.wpe_confined (confined_write (p := s.2.str + n) rfl 0) hX fun _ s1 h1 hobj => ?_
    rw [wpe_setObj]
    refine hQ _ (h1.resized hobj _) (tracks_same rfl fun (hne : n ≠ 0) => ?_)
    rw [gt_iff_lt, UInt64.lt_iff_toNat_lt] at hle
    rw [Ne, ← UInt64.toNat_inj, UInt64.toNat_zero] at hne ⊢
    omega

theorem Sound.wpe_clear (hQ : ∀ s', Evolves s s' → Tracks s.2 s'.2 → Q () s') :
    wpe clear Q X s := by
  have h1 := h.evolves.resized rfl 0
  rw [clear, wpe_bind, wpe_getObj, wpe_bind, wpe_setObj]
  refine h1.sound.wpe_confined (confined_write (p := s.2.str) rfl 0) hX fun _ s2 h2 hobj =>
    hQ s2 (h1.trans h2) ?_
  rw [hobj]
  exact tracks_same rfl fun hne => absurd rfl hne

end

theorem Sound.wpe_exec (h : Sound s) (c : Call) : wpe (exec c)
      (fun _ s' => Evolves s s' ∧ ((∀ n, c ≠ .reserve n) → Tracks s.2 s'.2))
      (fun e s' => e = .badAlloc → s' = s) s := by
  have hX : ∀ (e : Stop) (s' : Heap (Block UInt8) × Str), e ≠ .badAlloc → e = .badAlloc → s' = s :=
    fun e s' hne heq => absurd heq hne
  have hQ : ∀ s', Evolves s s' → Tracks s.2 s'.2 →
      Evolves s s' ∧ ((∀ n, c ≠ .reserve n) → Tracks s.2 s'.2) :=
    fun s' h' htracks => ⟨h', fun _ => htracks⟩
  cases c with
  | pushBack ch | addChar ch => exact h.wpe_pushBack hX (fun _ => rfl) hQ
  | append str | addStr str => exact h.wpe_append hX (fun _ => rfl) hQ
  | insertChar pos ch => exact h.wpe_insertChar hX (fun _ => rfl) hQ
  | insertStr pos str => exact h.wpe_insertStr hX (fun _ => rfl) hQ
  | erase pos len => exact h.wpe_erase hX hQ
  | resize n ch => exact h.wpe_resize hX (fun _ => rfl) hQ
  | reserve n =>
    exact h.wpe_reserve hX (fun s' h' _ _ => ⟨h', fun hnot => absurd rfl (hnot n)⟩) fun _ _ _ => rfl
  | clear => exact h.wpe_clear hX hQ

end calls

def Refused (h : Heap (Block UInt8)) (p : ElemPtr) (e : Stop) : Prop :=
  (∃ cs, h.textOf p = some cs ∧ maxElems ≤ cs.length) ∨ h.textOf p = none ∧ e ≠ .badAlloc

theorem wpe_ofCStr_cases {ρ : Type} (s : Heap (Block UInt8) × ρ) (p : ElemPtr) :
    wpe (ofCStr p)
      (fun w s' => ∃ cs, s.1.textOf p = some cs ∧ cs.length < maxElems ∧
        w = ⟨elem s.1.next 0, UInt64.ofNat cs.length, UInt64.ofNat cs.length⟩ ∧
        s' = (s.1.alloc ((cs ++ [0]).map some), s.2))
      (fun e s' => (e = .badAlloc → s' = s) ∧ Refused s.1 p e) s := by
  cases htext : s.1.textOf p with
  | none =>
    rw [ofCStr, wpe_bind]
    refine wpe_mono (wpe_strlen_cases s p) ?_ fun e s' hne =>
      ⟨fun heq => absurd heq hne, Or.inr ⟨htext, hne⟩⟩
    rintro _ _ ⟨-, cs, hcs, -⟩
    rw [htext] at hcs
    cases hcs
  | some cs =>
    by_cases hcs : cs.length < maxElems
    · exact (wpe_ofCStr htext hcs _).mpr ⟨cs, rfl, hcs, rfl, rfl⟩
    · have hlong : ∀ e, Refused s.1 p e := fun _ => Or.inl ⟨cs, htext, Nat.le_of_not_lt hcs⟩
      have hapart : p.base ≠ some s.1.next := by
        obtain ⟨a, i, b, rfl, ha, -⟩ := textOf_eq_some_iff.mp htext
        rw [elem_base, Ne, some_inj]
        exact (lt_next ha).ne
      rw [ofCStr, wpe_bind, wpe_strlen htext]
      simp only
      rw [wpe_bind, wpe_newArray]
      refine ⟨fun hfits => ?_, fun _ => ⟨fun _ => rfl, hlong _⟩⟩
      · rw [wpe_bind]
        refine wpe_mono (wpe_strcpy_cases (alloc_self _ _) hapart) ?_
          fun e s' hne => ⟨fun heq => absurd heq hne, hlong e⟩
        rintro _ _ ⟨cs', htext', hroom, -⟩
        -- the length of the C string has wrapped
        obtain rfl : cs = cs' :=
          some_inj.mp ((textOf_alloc htext _).symm.trans htext')
        rw [length_replicate] at hroom
        omega

end sound

/-! ## The strings of a program -/

variable {cs : Bytes}

section strings

variable {I : Type} {s s' : Heap (Block UInt8) × Dict (ObjName I) Str} {o o' : ObjName I}
  {v w : Str}

structure AllSound (s : Heap (Block UInt8) × Dict (ObjName I) Str) : Prop where
  sound : ∀ o v, s.2 o = some v → Sound (s.1, v)
  apart : Apart base s.1.next s.2

variable [DecidableEq I]

namespace AllSound

theorem assign {s1 : Heap (Block UInt8) × Str} (h : AllSound s) (ho : s.2 o = some v)
    (h1 : Evolves (s.1, v) s1) : AllSound (s1.1, s.2.assign o s1.2) where
  sound k w hk := by
    by_cases hko : k = o
    · subst hko
      obtain rfl : s1.2 = w := some_inj.mp ((assign_self _ _ _).symm.trans hk)
      exact h1.sound
    · have hk' : s.2 k = some w := (assign_ne _ _ hko).symm.trans hk
      exact (h.sound k w hk').of_cells fun a ha => h.apart.cells_eq ho h1.kept hk' hko ha
  apart := h.apart.assign ho h1.kept h1.sound.live

theorem null (h : AllSound s) (o : ObjName I) : AllSound (s.1, s.2.assign o null) where
  sound k w hk := by
    by_cases hko : k = o
    · subst hko
      obtain rfl : Str.null = w := some_inj.mp ((assign_self _ _ _).symm.trans hk)
      exact Or.inl ⟨rfl, rfl⟩
    · exact h.sound k w ((assign_ne _ _ hko).symm.trans hk)
  apart := h.apart.construct o rfl

theorem alloc {b : Block UInt8} (h : AllSound s) (o : ObjName I) (hw : w.str = elem s.1.next 0)
    (hlen : b.length = w.capacity.toNat + 1) (hmax : b.length ≤ maxElems) :
    AllSound (s.1.alloc b, s.2.assign o w) where
  sound k x hk := by
    by_cases hko : k = o
    · subst hko
      obtain rfl : w = x := some_inj.mp ((assign_self _ _ _).symm.trans hk)
      exact Or.inr ⟨s.1.next, b, hw, alloc_self _ _, hlen, hmax⟩
    · have hk' : s.2 k = some x := (assign_ne _ _ hko).symm.trans hk
      exact (h.sound k x hk').of_cells fun a ha =>
        alloc_ne _ _ (h.apart.live k x a hk' ha).ne
  apart := by
    have hbase : w.base = some s.1.next := by rw [base, hw, elem_base]
    refine h.apart.assign_of (Nat.le_succ _) (fun a ha => ?_) fun m p a _ hm ha hwa => ?_
    · rw [hbase, some_inj] at ha
      exact ha ▸ Nat.lt_succ_self _
    · rw [hbase, some_inj] at hwa
      exact absurd (h.apart.live m p a hm ha) (hwa ▸ lt_irrefl _)

theorem swap (h : AllSound s) (o o' : ObjName I) : AllSound (s.1, s.2.swap o o') where
  sound _ := h.sound _
  apart := ⟨fun _ => h.apart.live _, fun _ _ v v' a hk hk' ha ha' =>
    (Equiv.swap o o').injective (h.apart.distinct _ _ v v' a hk hk' ha ha')⟩

theorem erase {h' : Heap (Block UInt8)} (h : AllSound s)
    (hcells : ∀ k v a, k ≠ o → s.2 k = some v → v.base = some a → h'.cells a = s.1.cells a)
    (hnext : s.1.next ≤ h'.next) : AllSound (h', s.2.erase o) where
  sound k w hk := by
    by_cases hko : k = o
    · subst hko
      exact absurd ((erase_self _ _).symm.trans hk) nofun
    · have hk' : s.2 k = some w := (erase_ne _ hko).symm.trans hk
      exact (h.sound k w hk').of_cells fun a ha => hcells k w a hko hk' ha
  apart := (h.apart.erase o).mono hnext

theorem wpe_destroy (h : AllSound s) (ho : s.2 o = some v)
    {Q : Unit → Heap (Block UInt8) × Dict (ObjName I) Str → Prop}
    {X : Stop → Heap (Block UInt8) × Dict (ObjName I) Str → Prop}
    (hQ : ∀ h', AllSound (h', s.2.erase o) → (∀ a, v.base ≠ some a → h'.cells a = s.1.cells a) →
      Q () (h', s.2.erase o)) : wpe (destroy o) Q X s := by
  rw [destroy, wpe_bind, wpe_on ho, release, wpe_bind, wpe_getObj, wpe_bind]
  rcases h.sound o v ho with ⟨hnull, -⟩ | ⟨a, b, hstr, ha, -⟩
  · replace hnull : v.str = .null := hnull
    rw [hnull, wpe_delete_null, wpe_setObj, wpe_drop, erase_assign]
    exact hQ s.1 (h.erase (fun _ _ _ _ _ _ => rfl) (Nat.le_refl _)) fun _ _ => rfl
  · replace hstr : v.str = elem a 0 := hstr
    have hbase : v.base = some a := by rw [base, hstr, elem_base]
    rw [hstr, wpe_deleteArray ha, wpe_setObj, wpe_drop, erase_assign]
    refine hQ (s.1.free a) (h.erase (fun k w c hko hw hc => free_ne _ ?_) (Nat.le_refl _))
      fun c hc => free_ne _ ?_
    -- the array is that of the string alone
    · intro hca
      exact hko (h.apart.distinct k o w v a hw ho (hca ▸ hc) hbase)
    · intro hca
      exact hc (hca ▸ hbase)

end AllSound

theorem wpe_swap (ho : s.2 o = some v) (ho' : s.2 o' = some w)
    {X : Stop → Heap (Block UInt8) × Dict (ObjName I) Str → Prop}
    (Q : Unit → Heap (Block UInt8) × Dict (ObjName I) Str → Prop) :
    wpe (swap o o') Q X s ↔ Q () (s.1, s.2.swap o o') := by
  rw [swap, wpe_bind, wpe_fetch ho, wpe_bind, wpe_fetch ho', wpe_bind, wpe_put, wpe_put,
    assign_assign_swap ho ho']

def madeOf (h : Heap (Block UInt8)) (cs : Bytes) : Str :=
  ⟨elem h.next 0, UInt64.ofNat cs.length, UInt64.ofNat cs.length⟩

theorem toNat_length (hcs : cs.length < maxElems) : (UInt64.ofNat cs.length).toNat = cs.length := by
  unfold maxElems at hcs
  rw [UInt64.toNat_ofNat']
  omega

theorem AllSound.made (h : AllSound s) (o : ObjName I) (hcs : cs.length < maxElems) :
    AllSound (s.1.alloc ((cs ++ [0]).map some), s.2.assign o (madeOf s.1 cs)) := by
  have hlen : ((cs ++ [0]).map (some : UInt8 → Option UInt8)).length = cs.length + 1 := by simp
  refine h.alloc o rfl (hlen.trans ?_) (hlen.trans_le hcs)
  show _ = (UInt64.ofNat cs.length).toNat + 1
  rw [toNat_length hcs]

theorem wpe_copy_cases (ho' : s.2 o' = some v) (hne : o' ≠ o) (hlocal : o ≠ .tmp)
    (htmp : s.2 .tmp = none) :
    wpe (copy o o')
      (fun _ s' => ∃ cs, s.1.textOf v.str = some cs ∧ cs.length < maxElems ∧
        s' = (s.1.alloc ((cs ++ [0]).map some), s.2.assign o (madeOf s.1 cs)))
      (fun e s' => (e = .badAlloc → s' = (s.1, s.2.erase o)) ∧ Refused s.1 v.str e) s := by
  have htmp' : (s.2.assign o null) .tmp = none := (Dict.assign_ne _ _ hlocal.symm).trans htmp
  rw [copy, wpe_constructing, wpe_bind, wpe_put, wpe_bind,
    wpe_fetch ((Dict.assign_ne _ _ hne).trans ho'), wpe_bind, construct, wpe_bind]
  refine wpe_mono (wpe_ofCStr_cases _ _) ?_ ?_
  · rintro _ _ ⟨cs, htext, hcs, rfl, rfl⟩
    have hthis : (Dict.assign (s.2.assign o null) .tmp (madeOf s.1 cs)) o = some null :=
      (Dict.assign_ne _ _ hlocal).trans (Dict.assign_self _ _ _)
    have hmade : (Dict.assign (s.2.assign o null) .tmp (madeOf s.1 cs)) .tmp =
      some (madeOf s.1 cs) := Dict.assign_self _ _ _
    rw [wpe_put]
    show wpe (do swap o .tmp; destroy .tmp) _ _
      (s.1.alloc ((cs ++ [0]).map some), Dict.assign (s.2.assign o null) .tmp (madeOf s.1 cs))
    rw [wpe_bind, wpe_swap hthis hmade]
    -- `tmp` is now the string without an array that was made first
    have hnull : (Dict.assign (s.2.assign o null) .tmp (madeOf s.1 cs)).swap o .tmp .tmp =
        some null := by
      rw [Dict.swap_right, hthis]
    have hdict : (Dict.swap (Dict.assign (s.2.assign o null) .tmp (madeOf s.1 cs)) o .tmp).erase
        .tmp = s.2.assign o (madeOf s.1 cs) := by
      rw [Dict.erase_swap htmp' hlocal, Dict.assign_assign]
    rw [destroy, wpe_bind, wpe_on hnull, release, wpe_bind, wpe_getObj, wpe_bind,
      show null.str = .null from rfl, wpe_delete_null, wpe_setObj, wpe_drop, Dict.erase_assign]
    exact ⟨cs, htext, hcs, by rw [hdict]⟩
  · rintro e s' ⟨hfull, hcs⟩
    refine ⟨fun heq => ?_, hcs⟩
    rw [hfull heq, Dict.erase_assign]

theorem wpe_assign_cases (h : AllSound s) (ho : s.2 o = some w) (ho' : s.2 o' = some v)
    (htmp : s.2 .tmp = none) (harg : s.2 .arg = none) :
    wpe (assign o o')
      (fun _ s' => AllSound s' ∧ ∃ cs, s.1.textOf v.str = some cs ∧ cs.length < maxElems ∧
        s'.2 = s.2.assign o (madeOf s.1 cs) ∧ s'.1.cells s.1.next = some ((cs ++ [0]).map some))
      (fun e s' => (e = .badAlloc → s' = s) ∧ Refused s.1 v.str e) s := by
  have hlocal : o ≠ .arg := fun heq => by simp [heq, harg] at ho
  have hlocal' : o' ≠ .arg := fun heq => by simp [heq, harg] at ho'
  rw [assign, wpe_bind]
  refine wpe_mono (wpe_copy_cases ho' hlocal' (by simp) htmp) ?_ ?_
  · rintro _ _ ⟨cs, htext, hcs, rfl⟩
    have hmade := (h.made .arg hcs).swap o .arg
    have hthis : (s.2.assign .arg (madeOf s.1 cs)) o = some w :=
    (assign_ne _ _ hlocal).trans ho
    have hcopy : (s.2.assign .arg (madeOf s.1 cs)) .arg = some (madeOf s.1 cs) :=
      assign_self _ _ _
    have hold : (s.2.assign .arg (madeOf s.1 cs)).swap o .arg .arg = some w := by
      rw [swap_right, hthis]
    have hfresh : w.base ≠ some s.1.next := fun hbase => lt_irrefl _ (h.apart.live o w _ ho hbase)
    rw [wpe_bind, wpe_swap hthis hcopy]
    refine hmade.wpe_destroy hold fun h' hsound hcells => ⟨hsound, cs, htext, hcs, ?_, ?_⟩
    · exact erase_swap harg hlocal
    · exact (hcells _ hfresh).trans (alloc_self _ _)
  · rintro e s' ⟨hfull, hcs⟩
    refine ⟨fun heq => ?_, hcs⟩
    rw [hfull heq, erase_of_none harg]

def Op.Effect (d d' : Dict (ObjName I) Str) : Op I → Prop
  | .construct i _ | .copy i _ | .assign i _ =>
      (∃ v, d' (.var i) = some v ∧ v.size = v.capacity) ∧ ∀ k, k ≠ i → d' (.var k) = d (.var k)
  | .move i j => d' (.var i) = d (.var j) ∧ d' (.var j) = some null ∧
      ∀ k, k ≠ i → k ≠ j → d' (.var k) = d (.var k)
  | .swap i j => d' (.var i) = d (.var j) ∧ d' (.var j) = d (.var i) ∧
      ∀ k, k ≠ i → k ≠ j → d' (.var k) = d (.var k)
  | .destroy i => d' (.var i) = none ∧ ∀ k, k ≠ i → d' (.var k) = d (.var k)
  | .setAt _ _ _ => ∀ k, d' (.var k) = d (.var k)
  | .call i c =>
      (∃ v v', d (.var i) = some v ∧ d' (.var i) = some v' ∧
        ((∀ n, c ≠ .reserve n) → Tracks v v')) ∧ ∀ k, k ≠ i → d' (.var k) = d (.var k)

structure Between (s : Heap (Block UInt8) × Dict (ObjName I) Str) : Prop where
  sound : AllSound s
  tmp : s.2 .tmp = none
  arg : s.2 .arg = none

section

variable {h' : Heap (Block UInt8)} {i : I} (h : Between s)

include h

theorem Between.of_assign (hsound : AllSound (h', s.2.assign (.var i) v)) :
    Between (h', s.2.assign (.var i) v) where
  sound := hsound
  tmp := (assign_ne s.2 v (k := .var i) (i := .tmp) (by simp)).trans h.tmp
  arg := (assign_ne s.2 v (k := .var i) (i := .arg) (by simp)).trans h.arg

theorem Between.of_swap {j : I} (hsound : AllSound (h', s.2.swap (.var i) (.var j))) :
    Between (h', s.2.swap (.var i) (.var j)) where
  sound := hsound
  tmp := (swap_ne s.2 (show ObjName.tmp ≠ .var i by simp)
    (show ObjName.tmp ≠ .var j by simp)).trans h.tmp
  arg := (swap_ne s.2 (show ObjName.arg ≠ .var i by simp)
    (show ObjName.arg ≠ .var j by simp)).trans h.arg

theorem Between.of_erase (hsound : AllSound (h', s.2.erase (.var i))) :
    Between (h', s.2.erase (.var i)) where
  sound := hsound
  tmp := (erase_ne s.2 (k := .var i) (i := .tmp) (by simp)).trans h.tmp
  arg := (erase_ne s.2 (k := .var i) (i := .arg) (by simp)).trans h.arg

end

omit [DecidableEq I] in
theorem var_ne {i k : I} (h : k ≠ i) : ObjName.var k ≠ .var i := by
  simpa using h

theorem assign_var_others (d : Dict (ObjName I) Str) (i : I) (v : Str) :
    ∀ k, k ≠ i → d.assign (.var i) v (.var k) = d (.var k) :=
  fun _ hk => assign_ne _ _ (var_ne hk)

theorem Between.wpe_run (h : Between s) (op : Op I) (hop : op.Valid s.2) :
    wpe (run op) (fun _ s' => Between s' ∧ op.Effect s.2 s'.2)
      (fun e s' => e = .badAlloc → s' = s) s := by
  cases op with
  | construct i str =>
    rw [run, construct, wpe_bind]
    refine wpe_mono (wpe_ofCStr_cases s str) ?_ fun e s' hfull => hfull.1
    rintro _ _ ⟨cs, -, hcs, rfl, rfl⟩
    rw [wpe_put]
    exact ⟨h.of_assign (h.sound.made _ hcs), ⟨_, assign_self _ _ _, rfl⟩, assign_var_others _ i _⟩
  | copy i j =>
    obtain ⟨hi, v, hj⟩ := hop
    have hne : j ≠ i := fun heq => by simp [heq, hi] at hj
    refine wpe_mono (wpe_copy_cases hj (var_ne hne) (by simp) h.tmp) ?_ ?_
    · rintro _ _ ⟨cs, -, hcs, rfl⟩
      exact ⟨h.of_assign (h.sound.made _ hcs), ⟨_, assign_self _ _ _, rfl⟩, assign_var_others _ i _⟩
    · rintro e s' ⟨hfull, -⟩ heq
      rw [hfull heq, erase_of_none hi]
  | move i j =>
    obtain ⟨hi, v, hj⟩ := hop
    have hne : j ≠ i := fun heq => by simp [heq, hi] at hj
    have hthis : (s.2.assign (.var i) null) (.var i) = some null := assign_self _ _ _
    have hfrom : (s.2.assign (.var i) null) (.var j) = some v :=
      (assign_ne _ _ (var_ne hne)).trans hj
    rw [run, move, wpe_constructing, wpe_bind, wpe_put, wpe_swap hthis hfrom]
    refine ⟨(h.of_assign (h.sound.null _)).of_swap ((h.sound.null _).swap _ _), ?_, ?_,
      fun k hki hkj => ?_⟩
    · exact (swap_left _ _ _).trans (hfrom.trans hj.symm)
    · exact (swap_right _ _ _).trans hthis
    · exact (swap_ne _ (var_ne hki) (var_ne hkj)).trans (assign_var_others _ i _ k hki)
  | assign i j =>
    obtain ⟨⟨w, hi⟩, v, hj⟩ := hop
    refine wpe_mono (wpe_assign_cases h.sound hi hj h.tmp h.arg) ?_ fun e s' hfull => hfull.1
    rintro _ ⟨h', d'⟩ ⟨hsound, cs, -, -, hd, -⟩
    obtain rfl : d' = _ := hd
    exact ⟨h.of_assign hsound, ⟨_, assign_self _ _ _, rfl⟩, assign_var_others _ i _⟩
  | swap i j =>
    obtain ⟨⟨w, hi⟩, v, hj⟩ := hop
    rw [run, wpe_swap hi hj]
    exact ⟨h.of_swap (h.sound.swap _ _), swap_left _ _ _, swap_right _ _ _,
      fun k hki hkj => swap_ne _ (var_ne hki) (var_ne hkj)⟩
  | destroy i =>
    obtain ⟨v, hi⟩ := hop
    exact h.sound.wpe_destroy hi fun h' hsound _ => ⟨h.of_erase hsound, erase_self _ _,
      fun k hk => erase_ne _ (var_ne hk)⟩
  | setAt i pos ch =>
    obtain ⟨v, hi⟩ := hop
    have hset : Confined v.base (do check (pos < v.size); write (v.str + pos) ch : StringM Unit) :=
      confined_bind (confined_check _) fun _ => confined_write (p := v.str + pos) rfl ch
    rw [run, wpe_on hi, ZhcString.setAt, wpe_bind, wpe_getObj]
    refine (h.sound.sound _ _ hi).wpe_confined hset (fun e s' hne heq => absurd heq hne)
      fun _ s1 h1 hobj => ⟨h.of_assign (h.sound.assign hi h1), fun k => ?_⟩
    rw [hobj]
    exact congrFun (assign_of_some hi) (.var k)
  | call i c =>
    obtain ⟨v, hi⟩ := hop
    rw [run, wpe_on hi]
    refine wpe_mono ((h.sound.sound _ _ hi).wpe_exec c) (fun _ s1 h1 => ?_) fun e s1 hfull heq => ?_
    · exact ⟨h.of_assign (h.sound.assign hi h1.1), ⟨v, s1.2, hi, assign_self _ _ _, h1.2⟩,
        assign_var_others _ i _⟩
    · rw [hfull heq]
      exact Prod.ext rfl (assign_of_some hi)

/-! ## Copies and growth -/

inductive Act (I : Type) where
  | own
  | op (x : Op I)

def strings (I : Type) [DecidableEq I] :
    System (Heap (Block UInt8) × Dict (ObjName I) Str) (Act I) where
  init s := s.2 = Dict.empty
  step s e s' :=
    match e with
    | .own => s'.2 = s.2 ∧
        ∀ o v a, s.2 o = some v → v.base = some a → s'.1.cells a = s.1.cells a
    | .op x => x.Valid s.2 ∧ (run x s = .ok () s' ∨ run x s = .error .badAlloc s')

omit [DecidableEq I] in
theorem Between.own (h : Between s) (hobjs : s'.2 = s.2)
    (hcells : ∀ o v a, s.2 o = some v → v.base = some a → s'.1.cells a = s.1.cells a) :
    Between s' := by
  obtain ⟨h', d'⟩ := s'
  obtain rfl : d' = s.2 := hobjs
  have hsound : ∀ o v, s.2 o = some v → Sound (h', v) := fun o v ho =>
    (h.sound.sound o v ho).of_cells fun a => hcells o v a ho
  exact ⟨⟨hsound, fun o v a ho => (hsound o v ho).live a, h.sound.apart.distinct⟩, h.tmp, h.arg⟩

theorem strings_sound (h : (strings I).Reachable s) : Between s := by
  refine System.invariant Between ?_ ?_ s h
  · rintro ⟨heap, _⟩ rfl
    exact ⟨⟨nofun, apart_empty⟩, rfl, rfl⟩
  · rintro s (_ | x) s' hs hstep
    · exact hs.own hstep.1 hstep.2
    · obtain ⟨hvalid, hok | herror⟩ := hstep
      · exact (wpe_ok (hs.wpe_run x hvalid) hok).1
      · rw [wpe_error (hs.wpe_run x hvalid) herror rfl]
        exact hs

def Has (s : Heap (Block UInt8) × Str) (cs : Bytes) : Prop :=
  s.2.size.toNat = cs.length ∧ ∃ b, s.1.cellsAt s.2.str = some b ∧ cs.map some <+: b

def Leaves (x : Op I) (s : Heap (Block UInt8) × Dict (ObjName I) Str) (k : I) (cs : Bytes) : Prop :=
  (∃ s' v, run x s = .ok () s' ∧ s'.2 (.var k) = some v ∧ Has (s'.1, v) cs) ∨
    run x s = .error .badAlloc s

theorem Sound.not_refused {s : Heap (Block UInt8) × Str} (h : Sound s) :
    ¬ Refused s.1 s.2.str .badAlloc := by
  rintro (⟨cs, htext, hlong⟩ | ⟨-, hne⟩)
  · obtain ⟨a, i, b, hstr, ha, -, hpre⟩ := textOf_eq_some_iff.mp htext
    rcases h with ⟨hnull, -⟩ | ⟨a', b', hstr', ha', -, hmax⟩
    · exact elem_ne_null a i (hstr.symm.trans hnull)
    · obtain ⟨rfl, rfl⟩ := elem_inj.mp (hstr.symm.trans hstr')
      obtain rfl : b = b' := some_inj.mp (ha.symm.trans ha')
      have hlen := hpre.length_le
      simp only [length_map, length_append, length_singleton, length_drop] at hlen
      omega
  · exact hne rfl

theorem IsText.has {s : Heap (Block UInt8) × Str} {a : Nat} {room : Block UInt8}
    (h : IsText s a cs room) : Has s cs := by
  refine ⟨h.size, _, by rw [h.str]; exact cellsAt_elem h.cells, ?_⟩
  rw [drop_zero, map_append, append_assoc]
  exact prefix_append _ _

theorem IsText.has_pushed {s : Heap (Block UInt8) × Str} {a : Nat} {y : Option UInt8}
    {room : Block UInt8} (h : IsText s a cs (y :: room)) (ch : UInt8) :
    Has (s.1.setBlock a (blit ((cs ++ [0]).map some ++ y :: room) cs.length
      (([ch] ++ [0]).map some)), { s.2 with size := s.2.size + 1 }) (cs ++ [ch]) := by
  have hblit : blit ((cs ++ [0]).map some ++ y :: room) cs.length (([ch] ++ [0]).map some) =
      (cs ++ [ch]).map some ++ some 0 :: room := by
    have htwo : [some ch, some 0].length = [some 0, y].length := rfl
    have hmiddle := blit_middle (cs.map some) [some 0, y] room htwo
    rw [length_map] at hmiddle
    simpa using hmiddle
  rw [hblit]
  refine ⟨?_, (cs ++ [ch]).map some ++ some 0 :: room, ?_, prefix_append _ _⟩
  · rw [length_append, length_singleton]
    exact h.toNat_size_succ
  · show (s.1.setBlock a _).cellsAt s.2.str = _
    rw [h.str]
    exact cellsAt_elem (setBlock_self h.cells)

theorem has_madeOf {h h' : Heap (Block UInt8)} (hcs : cs.length < maxElems)
    (hcells : h'.cells h.next = some ((cs ++ [0]).map some)) : Has (h', madeOf h cs) cs := by
  refine ⟨toNat_length hcs, _, cellsAt_elem hcells, ?_⟩
  rw [drop_zero, map_append]
  exact prefix_append _ _

theorem Sound.holds {s : Heap (Block UInt8) × Str} (h : Sound s)
    (htext : s.1.textOf s.2.str = some cs) (hsize : s.2.size.toNat = cs.length) : Holds s cs := by
  obtain ⟨a, i, b, hstr, ha, hplain, room, hroom⟩ := textOf_eq_some_iff.mp htext
  rcases h with ⟨hnull, -⟩ | ⟨a', b', hstr', ha', hlen, hmax⟩
  · exact absurd (hstr.symm.trans hnull) (elem_ne_null a i)
  obtain ⟨rfl, rfl⟩ := elem_inj.mp (hstr.symm.trans hstr')
  obtain rfl : b = b' := some_inj.mp (ha.symm.trans ha')
  rw [drop_zero] at hroom
  subst hroom
  simp only [length_append, length_map, length_singleton] at hlen hmax
  exact ⟨a, room, hstr, hsize, by omega, ha, hplain, by omega⟩

section preserved

variable {cs cs' : Bytes} {i j k : I} {c : Call}

omit [DecidableEq I] in
theorem not_refused_of_text {h : Heap (Block UInt8)} {p : ElemPtr} {e : Stop}
    (htext : h.textOf p = some cs) (hcs : cs.length < maxElems) : ¬ Refused h p e := by
  rintro (⟨cs', htext', hlong⟩ | ⟨hnone, -⟩)
  · obtain rfl : cs = cs' := some_inj.mp (htext.symm.trans htext')
    omega
  · rw [htext] at hnone
    cases hnone

theorem leaves_copy (h : Between s) (hi : s.2 (.var i) = some v) (hk : s.2 (.var k) = none)
    (htext : s.1.textOf v.str = some cs) (hcs : cs.length < maxElems) :
    Leaves (.copy k i) s k cs := by
  have hne : i ≠ k := fun heq => by simp [heq, hk] at hi
  rcases wpe_cases (wpe_copy_cases hi (var_ne hne) (by simp) h.tmp) with
    ⟨_, s', hok, cs', htext', -, rfl⟩ | ⟨e, s', -, -, hrefused⟩
  · obtain rfl : cs = cs' := some_inj.mp (htext.symm.trans htext')
    exact Or.inl ⟨_, _, hok, assign_self _ _ _, has_madeOf hcs (alloc_self _ _)⟩
  · exact absurd hrefused (not_refused_of_text htext hcs)

theorem leaves_assign (h : Between s) (hi : s.2 (.var i) = some v) (hj : s.2 (.var j) = some w)
    (htext : s.1.textOf v.str = some cs) (hcs : cs.length < maxElems) :
    Leaves (.assign j i) s j cs := by
  rcases wpe_cases (wpe_assign_cases h.sound hj hi h.tmp h.arg) with
    ⟨_, s', hok, -, cs', htext', -, hobjs, hcells⟩ | ⟨e, s', -, -, hrefused⟩
  · obtain rfl : cs = cs' := some_inj.mp (htext.symm.trans htext')
    exact Or.inl ⟨s', _, hok, by rw [hobjs, assign_self], has_madeOf hcs hcells⟩
  · exact absurd hrefused (not_refused_of_text htext hcs)

theorem leaves_call (hi : s.2 (.var i) = some v)
    (h : wpe (exec c) (fun _ s' => Has s' cs) (fun e s' => e = .badAlloc ∧ s' = (s.1, v))
      (s.1, v)) :
    Leaves (.call i c) s i cs := by
  have hrun : wpe (run (.call i c)) (fun _ s' => ∃ w, s'.2 (.var i) = some w ∧ Has (s'.1, w) cs)
      (fun e s' => e = .badAlloc ∧ s' = s) s := by
    rw [run, wpe_on hi]
    refine wpe_mono h (fun _ s' h' => ⟨s'.2, assign_self _ _ _, h'⟩) ?_
    rintro e _ ⟨rfl, rfl⟩
    exact ⟨rfl, Prod.ext rfl (assign_of_some hi)⟩
  rcases wpe_cases hrun with ⟨_, s', hok, w, hw, h'⟩ | ⟨_, _, herror, rfl, rfl⟩
  · exact Or.inl ⟨s', w, hok, hw, h'⟩
  · exact Or.inr herror

theorem text_of_leaves_assign (h : Between s) (hi : s.2 (.var i) = some v)
    (hleaves : Leaves (.assign i i) s i cs) : s.1.textOf v.str = some cs := by
  have hassign := wpe_assign_cases h.sound hi hi h.tmp h.arg
  rcases hleaves with ⟨s', v', hok, hv', hsize, b, hb, hpre⟩ | herror
  · obtain ⟨-, cs', htext, hcs, hobjs, hcells⟩ := wpe_ok hassign hok
    obtain rfl : madeOf s.1 cs' = v' := by
      rw [hobjs, assign_self, some_inj] at hv'
      exact hv'
    obtain rfl : ((cs' ++ [0]).map some).drop 0 = b :=
      some_inj.mp ((cellsAt_elem hcells).symm.trans hb)
    have hlen : cs'.length = cs.length := (toNat_length hcs).symm.trans hsize
    -- both are at the start of the array, and of the same length
    rw [drop_zero, map_append] at hpre
    have hmap : cs.map some = cs'.map some :=
      (prefix_of_prefix_length_le hpre (prefix_append _ _) (by simp [hlen])).eq_of_length
        (by simp [hlen])
    rw [htext, map_injective_iff.mpr (some_injective UInt8) hmap]
  · exact absurd (wpe_error hassign herror).2 (h.sound.sound _ _ hi).not_refused

/-- **Copies and growth**: copying a string, assigning it, reserving room for `n` characters and
    adding one preserve its characters if and only if the string is, with its null byte, a C
    string of `size()` characters, and `n` is not `2 ^ 64 - 1`. -/
theorem copies_preserve_iff (h : (strings I).Reachable s) (i : I) (v : Str)
    (hi : s.2 (.var i) = some v) (n : UInt64) :
    (∃ cs, Has (s.1, v) cs ∧ (∀ k, s.2 (.var k) = none → Leaves (.copy k i) s k cs) ∧
        (∀ j w, s.2 (.var j) = some w → Leaves (.assign j i) s j cs) ∧
        Leaves (.call i (.reserve n)) s i cs ∧
        ∀ ch, Leaves (.call i (.pushBack ch)) s i (cs ++ [ch])) ↔
      (∃ cs, s.1.textOf v.str = some cs ∧ v.size.toNat = cs.length) ∧ n ≠ npos := by
  have hbetween := strings_sound h
  have hsound := hbetween.sound.sound _ _ hi
  constructor
  · rintro ⟨cs, hhas, -, hassign, hreserve, -⟩
    have htext := text_of_leaves_assign hbetween hi (hassign i v hi)
    refine ⟨⟨cs, htext, hhas.1⟩, fun hn => ?_⟩
    subst hn
    obtain ⟨a, room, htextual⟩ := hsound.holds htext hhas.1
    have hnpos : wpe (run (.call i (.reserve npos))) (fun _ _ => False) (fun e _ => e ≠ .badAlloc)
        s := by
      rw [run, wpe_on hi]
      exact htextual.wpe_reserve_npos
    rcases hreserve with ⟨s', v', hok, -⟩ | herror
    · exact wpe_ok hnpos hok
    · exact wpe_error hnpos herror rfl
  · rintro ⟨⟨cs, htext, hsize⟩, hn⟩
    obtain ⟨a, room, hholds⟩ := hsound.holds htext hsize
    have hcs : cs.length < maxElems := lt_of_le_of_lt (Nat.le_add_right _ _) hholds.fits
    refine ⟨cs, hholds.has, fun k hk => leaves_copy hbetween hi hk htext hcs,
      fun j w hj => leaves_assign hbetween hi hj htext hcs, leaves_call hi ?_,
      fun ch => leaves_call hi ?_⟩
    · exact hholds.wpe_reserve hn (fun s' a' room' h' _ _ => h'.has) fun _ => ⟨rfl, rfl⟩
    · exact hholds.wpe_pushBack_blit (fun s1 a1 y room1 h1 _ => h1.has_pushed ch)
        fun _ => ⟨rfl, rfl⟩

end preserved

/-- A string that is made of the literal `"a"` is copied as it is. -/
theorem copies_preserve_letter : ∃ (s : Heap (Block UInt8) × Dict (ObjName Bool) Str) (v : Str),
    (strings Bool).Reachable s ∧ s.2 (.var false) = some v ∧
      ∃ cs, Has (s.1, v) cs ∧ Leaves (.copy true false) s true cs := by
  have hinit : (strings Bool).Reachable (Heap.empty.alloc [some 97, some 0], Dict.empty) :=
    ⟨(_, Dict.empty), [], rfl, .nil _⟩
  have hmade : (strings Bool).Reachable (_, _) :=
    hinit.step (l := .op (.construct false (elem 0 0))) ⟨rfl, Or.inl rfl⟩
  obtain ⟨cs, hhas, hcopy, -⟩ :=
    (copies_preserve_iff hmade false _ rfl 10).mpr ⟨⟨[97], rfl, rfl⟩, by decide⟩
  exact ⟨_, _, hmade, rfl, cs, hhas, hcopy true rfl⟩

/-- A string of one null byte, which `resize` has written, has a copy without characters. -/
theorem copy_loses_null : ∃ (s : Heap (Block UInt8) × Dict (ObjName Bool) Str) (v : Str),
    (strings Bool).Reachable s ∧ s.2 (.var false) = some v ∧ Has (s.1, v) [0] ∧
      ∃ s' v', run (.copy true false) s = .ok () s' ∧ s'.2 (.var true) = some v' ∧ v'.size = 0 := by
  have hinit : (strings Bool).Reachable (Heap.empty.alloc [some 0], Dict.empty) :=
    ⟨(_, Dict.empty), [], rfl, .nil _⟩
  have hmade : (strings Bool).Reachable (_, _) :=
    hinit.step (l := .op (.construct false (elem 0 0))) ⟨rfl, Or.inl rfl⟩
  have hresized : (strings Bool).Reachable (_, _) :=
    hmade.step (l := .op (.call false (.resize 1 0))) ⟨⟨_, rfl⟩, Or.inl rfl⟩
  exact ⟨_, _, hresized, rfl, ⟨rfl, _, rfl, ⟨[some 0], rfl⟩⟩, (_, _), _, rfl, rfl, rfl⟩

/-! ## Observers -/

variable {d : Dict (ObjName I) Str}

section observers

variable {held : I → Bool} {i : I} {v : Str}

omit [DecidableEq I] in
def Op.Listed : Op I → Prop
  | .construct _ _ | .copy _ _ | .move _ _ | .assign _ _ | .destroy _ => True
  | .call _ c => ∀ n, c ≠ .reserve n
  | .swap _ _ | .setAt _ _ _ => False

omit [DecidableEq I] in
def nonEmpty (d : Dict (ObjName I) Str) (i : I) : Bool := (d (.var i)).any (·.size != 0)

def Op.history (d' : Dict (ObjName I) Str) (held : I → Bool) : Op I → I → Bool
  | .construct i _ | .copy i _ | .assign i _ => Function.update held i (nonEmpty d' i)
  | .move i j => Function.update (Function.update held i (held j)) j false
  | .call i _ => Function.update held i (held i || nonEmpty d' i)
  | .destroy _ | .swap _ _ | .setAt _ _ _ => held

def histories (I : Type) [DecidableEq I] :
    System ((Heap (Block UInt8) × Dict (ObjName I) Str) × (I → Bool)) (Act I) where
  init w := (strings I).init w.1
  step w e w' :=
    match e with
    | .own => (strings I).step w.1 .own w'.1 ∧ w'.2 = w.2
    | .op x => x.Listed ∧ x.Valid w.1.2 ∧
        (run x w.1 = .ok () w'.1 ∧ w'.2 = x.history w'.1.2 w.2 ∨
          run x w.1 = .error .badAlloc w'.1 ∧ w'.2 = w.2)

structure Tracked (held : Bool) (v : Str) : Prop where
  capacity : v.capacity ≠ 0 ↔ held = true
  occupied : v.size ≠ 0 → v.capacity ≠ 0

theorem tracked_new (h : v.size = v.capacity) : Tracked (v.size != 0) v :=
  ⟨by rw [← h, bne_iff_ne], fun hne => h ▸ hne⟩

theorem Tracked.call {held : Bool} {v' : Str} (h : Tracked held v) (h' : Tracks v v') :
    Tracked (held || v'.size != 0) v' where
  capacity := by
    rw [Bool.or_eq_true, bne_iff_ne, ← h.capacity]
    constructor
    · exact h'.filled
    · rintro (hcap | hsize)
      · exact h'.kept hcap
      · exact h'.occupied h.occupied hsize
  occupied := h'.occupied h.occupied

omit [DecidableEq I] in
theorem nonEmpty_of_some (h : d (.var i) = some v) : nonEmpty d i = (v.size != 0) := by
  rw [nonEmpty, h, any_some]

theorem tracked_made {d' : Dict (ObjName I) Str} (hd' : d' (.var i) = some v)
    (hsize : v.size = v.capacity) (hothers : ∀ k, k ≠ i → d' (.var k) = d (.var k))
    (h : ∀ k w, d (.var k) = some w → Tracked (held k) w) (k : I) (w : Str)
    (hk : d' (.var k) = some w) : Tracked (Function.update held i (nonEmpty d' i) k) w := by
  by_cases hki : k = i
  · subst hki
    obtain rfl : v = w := Option.some_inj.mp (hd'.symm.trans hk)
    rw [Function.update_self, nonEmpty_of_some hd']
    exact tracked_new hsize
  · rw [Function.update_of_ne hki]
    exact h k w ((hothers k hki).symm.trans hk)

theorem Op.tracked {d' : Dict (ObjName I) Str} (x : Op I) (hlisted : x.Listed)
    (heffect : x.Effect d d') (h : ∀ k w, d (.var k) = some w → Tracked (held k) w) (k : I)
    (w : Str) (hk : d' (.var k) = some w) : Tracked (x.history d' held k) w := by
  cases x with
  | construct i _ | copy i _ | assign i _ =>
    obtain ⟨⟨v, hv, hsize⟩, hothers⟩ := heffect
    exact tracked_made hv hsize hothers h k w hk
  | move i j =>
    obtain ⟨hi, hj, hothers⟩ := heffect
    by_cases hkj : k = j
    · subst hkj
      obtain rfl : null = w := Option.some_inj.mp (hj.symm.trans hk)
      rw [Op.history, Function.update_self]
      exact ⟨by simp [null], fun hne => absurd rfl hne⟩
    · rw [Op.history, Function.update_of_ne hkj]
      by_cases hki : k = i
      · subst hki
        rw [Function.update_self]
        exact h j w (hi.symm.trans hk)
      · rw [Function.update_of_ne hki]
        exact h k w ((hothers k hki hkj).symm.trans hk)
  | destroy i =>
    obtain ⟨hi, hothers⟩ := heffect
    by_cases hki : k = i
    · subst hki
      rw [hi] at hk
      cases hk
    · exact h k w ((hothers k hki).symm.trans hk)
  | call i c =>
    obtain ⟨⟨v, v', hv, hv', htracks⟩, hothers⟩ := heffect
    by_cases hki : k = i
    · subst hki
      obtain rfl : v' = w := Option.some_inj.mp (hv'.symm.trans hk)
      rw [Op.history, Function.update_self, nonEmpty_of_some hv']
      exact (h k v hv).call (htracks hlisted)
    · rw [Op.history, Function.update_of_ne hki]
      exact h k w ((hothers k hki).symm.trans hk)
  | swap i j | setAt i pos ch => exact hlisted.elim

theorem tracked_of_reachable (h : (histories I).Reachable (s, held)) :
    Between s ∧ ∀ i v, s.2 (.var i) = some v → Tracked (held i) v := by
  refine System.invariant
    (fun w => Between w.1 ∧ ∀ i v, w.1.2 (.var i) = some v → Tracked (w.2 i) v) ?_ ?_ (s, held) h
  · rintro ⟨⟨heap, _⟩, held⟩ rfl
    exact ⟨⟨⟨nofun, apart_empty⟩, rfl, rfl⟩, nofun⟩
  · rintro ⟨s, held⟩ (_ | x) ⟨s', held'⟩ ⟨hs, htracked⟩ hstep
    · obtain ⟨⟨hobjs, hcells⟩, rfl⟩ := hstep
      refine ⟨hs.own hobjs hcells, fun i v hi => htracked i v ?_⟩
      rw [← hi]
      exact congrFun hobjs.symm _
    · obtain ⟨hlisted, hvalid, ⟨hok, hheld⟩ | ⟨herror, hheld⟩⟩ := hstep
      · obtain rfl : held' = x.history s'.2 held := hheld
        obtain ⟨hs', heffect⟩ := wpe_ok (hs.wpe_run x hvalid) hok
        exact ⟨hs', x.tracked hlisted heffect htracked⟩
      · obtain rfl : held' = held := hheld
        obtain rfl : s' = s := wpe_error (hs.wpe_run x hvalid) herror rfl
        exact ⟨hs, htracked⟩

structure Agree (s : Heap (Block UInt8) × Str) : Prop where
  empty : s.2.empty = true ↔ s.2.size = 0
  ends : s.2.size = 0 ↔ s.2.begin_ = s.2.end_
  prints : s.2.begin_ = s.2.end_ ↔ print s = .ok [] s

theorem ends_iff : v.size = 0 ↔ v.begin_ = v.end_ := by
  rw [eq_comm (a := v.begin_)]
  exact add_size_eq_self.symm

theorem print_nil_iff {s : Heap (Block UInt8) × Str} : print s = .ok [] s ↔ s.2.size = 0 := by
  constructor
  · intro hok
    by_contra hne
    obtain ⟨k, hk⟩ := Nat.exists_eq_succ_of_ne_zero fun hzero : s.2.size.toNat = 0 =>
      hne (UInt64.toNat_inj.mp hzero)
    -- a first character has been written
    have hprint : wpe print (fun cs _ => cs ≠ []) (fun _ _ => True) s := by
      rw [print, wpe_bind, wpe_getObj, hk, printLoop, wpe_bind]
      refine wpe_of_forall (fun c s' => ?_) fun _ _ => trivial
      rw [wpe_bind]
      exact wpe_of_forall (fun cs s'' => (wpe_pure _ _ _ _).mpr (cons_ne_nil _ _))
        fun _ _ => trivial
    exact wpe_ok hprint hok rfl
  · intro hzero
    refine eq_ok_of_wpe ?_
    rw [print, wpe_bind, wpe_getObj, hzero]
    exact (wpe_pure _ _ _ _).mpr ⟨rfl, rfl⟩

/-- **Observers**: in every run with the listed operations, `empty()`, `size()`, the iterators and
    `operator<<` agree on whether a string has characters if and only if it has some, or has
    had none since it was made. -/
theorem observers_agree_iff (h : (histories I).Reachable (s, held)) (i : I) (v : Str)
    (hi : s.2 (.var i) = some v) : Agree (s.1, v) ↔ v.size ≠ 0 ∨ held i = false := by
  have htracked := (tracked_of_reachable h).2 i v hi
  have hheld : held i = false ↔ v.capacity = 0 := by
    rw [← Bool.not_eq_true, ← htracked.capacity, not_not]
  have hempty : v.empty = true ↔ v.size = 0 ∧ v.capacity = 0 := by
    rw [Str.empty, Bool.and_eq_true, beq_iff_eq, beq_iff_eq]
  rw [hheld]
  constructor
  · intro hagree
    by_contra hnot
    rw [not_or, not_not] at hnot
    exact hnot.2 (hempty.mp (hagree.empty.mpr hnot.1)).2
  · intro hcap
    refine ⟨?_, ends_iff, ends_iff.symm.trans print_nil_iff.symm⟩
    rw [hempty]
    exact ⟨fun hboth => hboth.1, fun hsize => ⟨hsize, hcap.resolve_left (not_not.mpr hsize)⟩⟩

/-- A string that has grown, has been cleared and has a character again. -/
theorem observers_agree_again : ∃ (s : Heap (Block UInt8) × Dict (ObjName Unit) Str) (v : Str)
    (held : Unit → Bool), (histories Unit).Reachable (s, held) ∧ s.2 (.var ()) = some v ∧
      held () = true ∧ v.size = 1 ∧ Agree (s.1, v) := by
  have hinit : (histories Unit).Reachable
      ((Heap.empty.alloc [some 0], Dict.empty), fun _ => false) :=
    ⟨((_, Dict.empty), _), [], rfl, .nil _⟩
  have hmade : (histories Unit).Reachable ((_, _), _) :=
    hinit.step (l := .op (.construct () (elem 0 0))) ⟨trivial, rfl, Or.inl ⟨rfl, rfl⟩⟩
  have hpushed : (histories Unit).Reachable ((_, _), _) :=
    hmade.step (l := .op (.call () (.pushBack 97))) ⟨nofun, ⟨_, rfl⟩, Or.inl ⟨rfl, rfl⟩⟩
  have hcleared : (histories Unit).Reachable ((_, _), _) :=
    hpushed.step (l := .op (.call () .clear)) ⟨nofun, ⟨_, rfl⟩, Or.inl ⟨rfl, rfl⟩⟩
  have hagain : (histories Unit).Reachable ((_, _), _) :=
    hcleared.step (l := .op (.call () (.pushBack 98))) ⟨nofun, ⟨_, rfl⟩, Or.inl ⟨rfl, rfl⟩⟩
  exact ⟨_, _, _, hagain, rfl, rfl, rfl,
    (observers_agree_iff hagain () _ rfl).mpr (Or.inl (by decide))⟩

/-- After `push_back` and `clear`, `empty()` is false and there is no character. -/
theorem empty_false_cleared : ∃ (s : Heap (Block UInt8) × Dict (ObjName Unit) Str) (v : Str)
    (held : Unit → Bool), (histories Unit).Reachable (s, held) ∧ s.2 (.var ()) = some v ∧
      v.size = 0 ∧ v.begin_ = v.end_ ∧ print (s.1, v) = .ok [] (s.1, v) ∧ v.empty = false := by
  have hinit : (histories Unit).Reachable
      ((Heap.empty.alloc [some 0], Dict.empty), fun _ => false) :=
    ⟨((_, Dict.empty), _), [], rfl, .nil _⟩
  have hmade : (histories Unit).Reachable ((_, _), _) :=
    hinit.step (l := .op (.construct () (elem 0 0))) ⟨trivial, rfl, Or.inl ⟨rfl, rfl⟩⟩
  have hpushed : (histories Unit).Reachable ((_, _), _) :=
    hmade.step (l := .op (.call () (.pushBack 97))) ⟨nofun, ⟨_, rfl⟩, Or.inl ⟨rfl, rfl⟩⟩
  have hcleared : (histories Unit).Reachable ((_, _), _) :=
    hpushed.step (l := .op (.call () .clear)) ⟨nofun, ⟨_, rfl⟩, Or.inl ⟨rfl, rfl⟩⟩
  exact ⟨_, _, _, hcleared, rfl, rfl, rfl, rfl, rfl⟩

end observers

end strings

end CallLesson.Algorithm.ZhcString
