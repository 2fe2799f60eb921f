import CallLesson.Algorithm.SearchTree

/-! # The red-black tree

    `RBTree::insert` on a heap of nodes, over any type of data with a linear order on the
    keys that the functor `KeyOFT` takes from it. The two halves of the loop that repairs
    the colours are mirror images of each other and are one program with a side here.

    The loop works on a tree with one fault in it, a red node below a red one, which it
    moves upwards by recolouring until rotations remove it. -/

namespace CallLesson.Algorithm

open LinkedTree HeapM Exec List

/-! ## Model -/

inductive Color where
  | red
  | black
  deriving DecidableEq

structure Entry (T : Type) where
  data : T
  col : Color
  deriving DecidableEq

open BinTree

variable {fuel : Nat}

namespace RBTree

section model

variable {T K : Type}

def setCol (p : Ptr) (c : Color) : HeapM (Node (Entry T)) Ptr Unit :=
  store p (Node.mapVal fun e => { e with col := c })

def isRed (p : Ptr) : HeapM (Node (Entry T)) Ptr Bool := do
  if p = none then pure false
  else
    let n ← load p
    pure (n.val.col = .red)

def fixSide (d : Side) (cur parent grandfater : Ptr) :
    HeapM (Node (Entry T)) Ptr (Option (Ptr × Ptr)) := do
  let uncle := (← load grandfater).child d.other
  -- a red uncle: only colours change, and the fault may be two levels up now
  if (← isRed uncle) then
    setCol uncle .black
    setCol parent .black
    setCol grandfater .red
    let n ← load grandfater
    pure (some (grandfater, n.parent))
  else
    let n ← load parent
    -- a black uncle, or none: one rotation, or two if `cur` is an inner child
    if n.child d = cur then
      rotate d grandfater
      setCol parent .black
      setCol grandfater .red
      setCol cur .red
    else
      rotate d.other parent
      rotate d grandfater
      setCol cur .black
      setCol grandfater .red
      setCol parent .red
    pure none

def fixStep (cur parent : Ptr) : HeapM (Node (Entry T)) Ptr (Option (Ptr × Ptr)) := do
  let grandfater := (← load parent).parent
  -- neither test of `grandfater` holds: `assert(false)`
  if grandfater = none then throw (.fault .assertFailed)
  else
    let n ← load grandfater
    if n.left = parent then fixSide .left cur parent grandfater
    else if n.right = parent then fixSide .right cur parent grandfater
    else throw (.fault .assertFailed)

def fixLoop : Nat → Ptr → Ptr → HeapM (Node (Entry T)) Ptr Unit
  | 0, _, _ => throw .running
  | fuel + 1, cur, parent => do
      if (← isRed parent) then
        match ← fixStep cur parent with
        | none => pure ()
        | some (cur, parent) => fixLoop fuel cur parent
      else pure ()

def insertBelow [LT K] [DecidableLT K] (kot : T → K) (fuel : Nat) (data : T) (parent : Ptr) :
    HeapM (Node (Entry T)) Ptr (Ptr × Bool) := do
  let newnode ← attach (fun e => kot e.data) ⟨data, .red⟩ parent
  fixLoop fuel newnode parent
  -- `_root->_col=BLACK`, whatever the loop has done
  setCol (← getObj) .black
  pure (newnode, true)

def insert [LT K] [DecidableLT K] (kot : T → K) (fuel : Nat) (data : T) :
    HeapM (Node (Entry T)) Ptr (Ptr × Bool) := do
  let root ← getObj
  if root = none then
    let p ← new ⟨none, none, none, ⟨data, .red⟩⟩
    setObj p
    setCol p .black
    pure (p, true)
  else
    let (parent, cur) ← descend (fun e => kot e.data) .left (kot data) fuel none root
    if cur = none then insertBelow kot fuel data parent
    else pure (cur, false)

end model

/-! ## Red-black trees -/

section colours

variable {T : Type}

def color : BinTree (Entry T) → Color
  | .nil => .black
  | .node _ _ e _ => e.col

def NoRedRed : BinTree (Entry T) → Prop
  | .nil => True
  | .node l _ e r =>
      (e.col = .red → color l = .black ∧ color r = .black) ∧ NoRedRed l ∧ NoRedRed r

def weight : Color → Nat
  | .red => 0
  | .black => 1

def BlackHeight : BinTree (Entry T) → Nat → Prop
  | .nil, n => n = 0
  | .node l _ e r, n => ∃ m, BlackHeight l m ∧ BlackHeight r m ∧ n = m + weight e.col

structure RedBlack (t : BinTree (Entry T)) (n : Nat) : Prop where
  noRedRed : NoRedRed t
  blackHeight : BlackHeight t n

variable {d : Side} {l r t : BinTree (Entry T)} {a n : Nat} {e : Entry T}

theorem redBlack_nil : RedBlack (.nil : BinTree (Entry T)) n ↔ n = 0 :=
  ⟨fun h => h.blackHeight, fun h => ⟨trivial, h⟩⟩

@[simp] theorem color_mk : color (.mk d l a e r) = e.col := by cases d <;> rfl

theorem redBlack_mk : RedBlack (.mk d l a e r) n ↔
    ∃ m, RedBlack l m ∧ RedBlack r m ∧ n = m + weight e.col ∧
      (e.col = .red → color l = .black ∧ color r = .black) := by
  cases d with
  | left =>
    constructor
    · intro ⟨⟨hred, hl, hr⟩, m, hbl, hbr, hn⟩
      exact ⟨m, ⟨hl, hbl⟩, ⟨hr, hbr⟩, hn, hred⟩
    · intro ⟨m, hl, hr, hn, hred⟩
      exact ⟨⟨hred, hl.1, hr.1⟩, m, hl.2, hr.2, hn⟩
  | right =>
    constructor
    · intro ⟨⟨hred, hr, hl⟩, m, hbr, hbl, hn⟩
      exact ⟨m, ⟨hl, hbl⟩, ⟨hr, hbr⟩, hn, fun he => (hred he).symm⟩
    · intro ⟨m, hl, hr, hn, hred⟩
      exact ⟨⟨fun he => (hred he).symm, hr.1, hl.1⟩, m, hr.2, hl.2, hn⟩

theorem color_plug_congr {t t' : BinTree (Entry T)} (h : color t = color t')
    (fs : Path (Entry T)) : color (Path.plug fs t) = color (Path.plug fs t') := by
  induction fs generalizing t t' with
  | nil => exact h
  | cons f fs ih => exact ih (by rw [Frame.plug, Frame.plug, color_mk, color_mk])

theorem redBlack_red {x : T} : RedBlack (.mk d l a ⟨x, .red⟩ r) n ↔
    RedBlack l n ∧ RedBlack r n ∧ color l = .black ∧ color r = .black := by
  rw [redBlack_mk]
  constructor
  · rintro ⟨m, hl, hr, rfl, hred⟩
    exact ⟨hl, hr, hred rfl⟩
  · intro ⟨hl, hr, hred⟩
    exact ⟨n, hl, hr, rfl, fun _ => hred⟩

theorem redBlack_black {x : T} (hl : RedBlack l n) (hr : RedBlack r n) :
    RedBlack (.mk d l a ⟨x, .black⟩ r) (n + 1) :=
  redBlack_mk.mpr ⟨n, hl, hr, rfl, nofun⟩

def headCol (fs : Path (Entry T)) : Option Color := fs.head?.map fun f => f.val.col

def PathOk : Path (Entry T) → Nat → Prop
  | [], _ => True
  | f :: fs, n =>
      RedBlack f.sib n ∧ PathOk fs (n + weight f.val.col) ∧
        (f.val.col = .red → color f.sib = .black ∧ headCol fs = some .black)

variable {fs : Path (Entry T)}

theorem redBlack_plug (hfs : PathOk fs n) (ht : RedBlack t n)
    (hcol : color t = .red → headCol fs ≠ some .red) : ∃ m, RedBlack (Path.plug fs t) m := by
  -- upwards along the path: each frame is a red-black tree around the one below
  induction fs generalizing t n with
  | nil => exact ⟨n, ht⟩
  | cons f fs ih =>
    obtain ⟨hsib, hrest, hred⟩ := hfs
    refine ih hrest (redBlack_mk.mpr ⟨n, ht, hsib, rfl, fun hf => ⟨?_, (hred hf).1⟩⟩) ?_
    · cases ht : color t with
      | black => rfl
      | red => exact absurd (congrArg some hf) (hcol ht)
    · intro hf
      rw [Frame.plug, color_mk] at hf
      simp [(hred hf).2]

theorem pathOk_of_plug {m : Nat} (h : RedBlack (Path.plug fs t) m)
    (hroot : color (Path.plug fs t) = .black) :
    ∃ n, RedBlack t n ∧ PathOk fs n ∧ (color t = .red → headCol fs = some .black) := by
  induction fs generalizing t with
  | nil => exact ⟨m, h, trivial, fun hred => Color.noConfusion (hroot.symm.trans hred)⟩
  | cons f fs ih =>
    obtain ⟨n', hplug, hrest, hcol⟩ := ih h hroot
    obtain ⟨n, ht, hsib, rfl, hred⟩ := redBlack_mk.mp hplug
    rw [Frame.plug, color_mk] at hcol
    refine ⟨n, ht, ⟨hsib, hrest, fun hf => ⟨(hred hf).2, hcol hf⟩⟩, fun htred => ?_⟩
    cases hf : f.val.col with
    | black => exact congrArg some hf
    | red => cases htred.symm.trans (hred hf).1

theorem redBlack_blacken (h : RedBlack (.mk d l a e r) n) :
    ∃ m, RedBlack (.mk d l a { e with col := .black } r) m := by
  obtain ⟨m, hl, hr, -, -⟩ := redBlack_mk.mp h
  exact ⟨m + 1, redBlack_black hl hr⟩

end colours

/-! ### Height -/

section height

variable {T : Type} {t : BinTree (Entry T)} {n : Nat}

theorem pow_le_length (h : BlackHeight t n) : 2 ^ n ≤ t.inorder.length + 1 := by
  induction t generalizing n with
  | nil =>
    cases h
    simp
  | node l a e r ihl ihr =>
    obtain ⟨m, hl, hr, rfl⟩ := h
    have hpl := ihl hl
    have hpr := ihr hr
    simp only [inorder, length_append, length_cons]
    -- a red node leaves the number of black ones as it is, a black one doubles the bound
    cases e.col with
    | red =>
      rw [weight, Nat.add_zero]
      omega
    | black =>
      rw [weight, pow_succ]
      omega

theorem height_le (h : RedBlack t n) :
    t.height ≤ 2 * n + 1 ∧ (color t = .black → t.height ≤ 2 * n) := by
  -- the two bounds together: a red node is one above two black ones
  induction t generalizing n with
  | nil => simp [height]
  | node l a e r ihl ihr =>
    obtain ⟨m, hl, hr, rfl, hred⟩ := (redBlack_mk (d := .left)).mp h
    obtain ⟨hl1, hl2⟩ := ihl hl
    obtain ⟨hr1, hr2⟩ := ihr hr
    rw [height, color]
    cases he : e.col with
    | red =>
      have hl2 := hl2 (hred he).1
      have hr2 := hr2 (hred he).2
      refine ⟨?_, fun hblack => by cases hblack⟩
      rw [weight]
      omega
    | black =>
      rw [weight]
      omega

theorem height_le_logb (h : RedBlack t n) (hroot : color t = .black) :
    (t.height : ℝ) ≤ 2 * Real.logb 2 (t.inorder.length + 1) := by
  have hpow : (2 : ℝ) ^ n ≤ t.inorder.length + 1 := by exact_mod_cast pow_le_length h.blackHeight
  have hn : (n : ℝ) ≤ Real.logb 2 (t.inorder.length + 1) := by
    rw [Real.le_logb_iff_rpow_le one_lt_two (by positivity), Real.rpow_natCast]
    exact hpow
  have hheight : (t.height : ℝ) ≤ 2 * n := by exact_mod_cast (height_le h).2 hroot
  linarith

end height

/-! ## The repair -/

section repair

variable {T : Type} {s : Heap (Node (Entry T)) × Ptr} {fs : Path (Entry T)}
  {t l r A B C U : BinTree (Entry T)} {d e : Side} {a p g n : Nat} {x y : Entry T} {c : Color}

variable {E : Heap (Node (Entry T)) × Ptr → Prop}

variable {Q : Bool → Heap (Node (Entry T)) × Ptr → Prop}

theorem wp_isRed {q : Ptr} (h : t.Rep s.1 q) : wp (isRed t.ptr) Q E s ↔ Q (color t = .red) s := by
  cases t with
  | nil => simp [isRed, ptr, color]
  | node l a x r =>
    simp only [isRed, ptr, reduceCtorEq, if_false, wp_bind]
    rw [wp_load h.1, wp_pure]
    rfl

theorem wp_isRed_path {hole : Ptr}
    (h : Path.Rep s.1 fs hole) : wp (isRed (Path.ptr fs)) Q E s ↔ Q (headCol fs = some .red) s := by
  cases fs with
  | nil => simp [isRed, Path.ptr, headCol]
  | cons f fs =>
    simp only [isRed, Path.ptr, reduceCtorEq, if_false, wp_bind]
    rw [wp_load h.1, wp_pure, Node.val_of]
    simp [headCol]

theorem ne_nil_of_red (h : color t = .red) : t ≠ .nil := by
  intro ht
  rw [ht] at h
  cases h

variable {Q : Option (Ptr × Ptr) → Heap (Node (Entry T)) × Ptr → Prop}

theorem wp_fixSide (h : Linked s fs (.mk d (.mk e t p x B) g y U)) (hx : x.col = .red)
    (hy : y.col = .black) (ht : RedBlack t n) (hred : color t = .red) (hB : RedBlack B n)
    (hBcol : color B = .black) (hU : RedBlack U n)
    (hup : ∀ s' t', Linked s' fs t' → t'.ptr = some g → RedBlack t' (n + 1) → color t' = .red →
      t'.places Entry.data = BinTree.places Entry.data (.mk d (.mk e t p x B) g y U) →
      Q (some (some g, Path.ptr fs)) s')
    (hdone : ∀ s' t', Linked s' fs t' → RedBlack t' (n + 1) → color t' = .black →
      t'.places Entry.data = BinTree.places Entry.data (.mk d (.mk e t p x B) g y U) → Q none s') :
    wp (fixSide d t.ptr (some p) (some g)) Q (fun _ => False) s := by
  obtain ⟨x, xc⟩ := x
  obtain rfl : xc = .red := hx
  obtain ⟨y, yc⟩ := y
  obtain rfl : yc = .black := hy
  unfold fixSide
  rw [wp_bind, wp_load h.cell, Node.child_of_other, wp_bind, wp_isRed (rep_mk.mp h.rep).2.2]
  -- the colour of the uncle decides between recolouring and rotating
  cases hUcol : color U with
  | red =>
    obtain ⟨ul, u, ⟨z, zc⟩, ur, rfl⟩ := exists_mk .left (ne_nil_of_red hUcol)
    obtain rfl : zc = .red := by simpa using hUcol
    obtain ⟨hul, hur, -, -⟩ := redBlack_red.mp hU
    simp only [decide_true, if_true, wp_bind, ptr_mk]
    refine h.wp_mapVal_far fun s1 h1 => h1.wp_mapVal_near fun s2 h2 => h2.wp_mapVal fun s3 h3 => ?_
    rw [wp_load h3.cell, wp_pure, Node.parent_of]
    refine hup s3 _ h3 ptr_mk (redBlack_red.mpr ?_) color_mk ?_
    · exact ⟨redBlack_black ht hB, redBlack_black hul hur, color_mk, color_mk⟩
    · exact places_mk_congr (places_mk_congr rfl rfl rfl) rfl (places_mk_congr rfl rfl rfl)
  | black =>
    obtain ⟨tl, c, ⟨z, zc⟩, tr, rfl⟩ := exists_mk d.other (ne_nil_of_red hred)
    obtain rfl : zc = .red := by simpa using hred
    obtain ⟨htl, htr, htlcol, htrcol⟩ := redBlack_red.mp ht
    simp only [reduceCtorEq, decide_false, Bool.false_eq_true, if_false, wp_bind, ptr_mk]
    rw [wp_load (linked_near.mp h).cell]
    rcases Side.eq_or_eq_other d e with rfl | rfl
    · -- the two red nodes are on the same side
      rw [Node.child_of, ptr_mk, if_pos rfl]
      simp only [wp_bind, wp_pure]
      refine wp_rotate h fun s1 h1 => h1.wp_mapVal fun s2 h2 => h2.wp_mapVal_far fun s3 h3 =>
        h3.wp_mapVal_near fun s4 h4 => ?_
      refine hdone s4 _ h4 (redBlack_black ht (redBlack_red.mpr ?_)) color_mk ?_
      · exact ⟨hB, hU, hBcol, hUcol⟩
      · exact places_rotate rfl rfl
    · -- they are on different sides: the lower one goes up twice
      have hne : B.ptr ≠ some c := fun hc => by
        grind [nodup_rotate.mp (linked_near.mp h).nodup, addrs_of_ptr hc]
      rw [Node.of_other, Node.child_of, if_neg hne]
      simp only [wp_bind, wp_pure]
      refine wp_rotate (linked_near.mp h) fun s1 h1 => ?_
      replace h1 := linked_near.mpr h1
      rw [mk_other] at h1
      refine wp_rotate h1 fun s2 h2 => h2.wp_mapVal fun s3 h3 => h3.wp_mapVal_far fun s4 h4 =>
        h4.wp_mapVal_near fun s5 h5 => ?_
      refine hdone s5 _ h5 (redBlack_black (redBlack_red.mpr ?_) (redBlack_red.mpr ?_)) color_mk ?_
      · exact ⟨htr, hB, htrcol, hBcol⟩
      · exact ⟨htl, hU, htlcol, hUcol⟩
      · exact places_rotate_twice rfl rfl rfl

theorem wp_fixStep {f g : Frame (Entry T)} (h : Linked s (f :: g :: fs) t)
    (hQ : wp (fixSide g.side t.ptr (some f.addr) (some g.addr)) Q E s) :
    wp (fixStep t.ptr (some f.addr)) Q E s := by
  have hsib : g.sib.ptr ≠ some f.addr := fun hp => by
    grind [h.nodup, addrs_of_ptr hp, Path.addrs, nodup_append]
  obtain ⟨hp, -, hg, -, -⟩ := h.path
  unfold fixStep
  rw [wp_bind, wp_load hp, Node.parent_of, Path.ptr, if_neg (by simp), wp_bind, wp_load hg]
  cases hd : g.side with
  | left =>
    rw [hd] at hQ
    simpa only [Node.of, if_true] using hQ
  | right =>
    rw [hd] at hQ
    simpa only [Node.of, if_neg hsib, if_true] using hQ

theorem exists_frames (hfs : PathOk fs n) (hhead : headCol fs = some .red) :
    ∃ f g gs, fs = f :: g :: gs ∧ f.val.col = .red ∧ g.val.col = .black := by
  cases fs with
  | nil => cases hhead
  | cons f fs =>
    have hf : f.val.col = .red := Option.some.inj hhead
    have habove := (hfs.2.2 hf).2
    cases fs with
    | nil => cases habove
    | cons g gs => exact ⟨f, g, gs, rfl, hf, Option.some.inj habove⟩

theorem wp_fixLoop (h : Linked s fs t) (ht : RedBlack t n) (hred : color t = .red)
    (hfs : PathOk fs n) (hfuel : fs.length < fuel) :
    wp (fixLoop fuel t.ptr (Path.ptr fs))
      (fun _ s' => ∃ t' m, Linked s' [] t' ∧ RedBlack t' m ∧
        t'.places Entry.data = BinTree.places Entry.data (Path.plug fs t)) (fun _ => False) s := by
  -- a turn that goes on leaves two frames of the path behind
  induction fuel generalizing s fs t n with
  | zero => omega
  | succ fuel ih =>
    rw [fixLoop, wp_bind, wp_isRed_path h.path]
    by_cases hhead : headCol fs = some .red
    · rw [decide_eq_true hhead, if_pos rfl, wp_bind]
      -- a red parent is not the root, so `grandfater` is there
      obtain ⟨f, g, gs, rfl, hf, hg⟩ := exists_frames hfs hhead
      obtain ⟨hB, ⟨hU, hrest, -⟩, hcol⟩ := hfs
      rw [hf] at hU hrest
      rw [hg] at hrest
      have hlinked := linked_cons.mp (linked_cons.mp h)
      refine wp_fixStep h (wp_fixSide hlinked hf hg ht hred hB (hcol hf).1 hU
        (fun s' t' h' hptr hrb hcol' hplaces => ?_) fun s' t' h' hrb hcol' hplaces => ?_)
      · rw [← hptr]
        refine wp_imp (ih h' hrb hcol' hrest ?_) (fun _ s'' hs'' => ?_)
        · simp only [length_cons] at hfuel
          omega
        · obtain ⟨t'', m, hlinked'', hm, hplaces''⟩ := hs''
          exact ⟨t'', m, hlinked'', hm, hplaces''.trans (Path.places_plug_congr gs hplaces)⟩
      · obtain ⟨m, hm⟩ := redBlack_plug hrest hrb fun hred' =>
          Color.noConfusion (hcol'.symm.trans hred')
        exact (wp_pure _ _ _ _).mpr ⟨_, m, linked_plug.mp h', hm, Path.places_plug_congr gs hplaces⟩
    -- a black parent, or none: the red node in the focus is no fault
    · rw [decide_eq_false hhead, if_neg Bool.false_ne_true, wp_pure]
      obtain ⟨m, hm⟩ := redBlack_plug hfs ht fun _ => hhead
      exact ⟨_, m, linked_plug.mp h, hm, rfl⟩

end repair

/-! ## Insertion -/

section insertion

variable {T K : Type} [LinearOrder K] {kot : T → K} {s : Heap (Node (Entry T)) × Ptr}
  {t : BinTree (Entry T)}

structure TreeOk (kot : T → K) (s : Heap (Node (Entry T)) × Ptr) (t : BinTree (Entry T)) :
    Prop where
  linked : Linked s [] t
  root : color t = .black
  balanced : ∃ n, RedBlack t n
  sorted : ((t.items Entry.data).map kot).Pairwise (· < ·)

theorem treeOk_nil (h : Heap (Node (Entry T))) : TreeOk kot (h, none) .nil :=
  ⟨⟨trivial, trivial, List.Pairwise.nil, rfl⟩, rfl, ⟨0, redBlack_nil.mpr rfl⟩, List.Pairwise.nil⟩

inductive Inserted (kot : T → K) (x : T) (s : Heap (Node (Entry T)) × Ptr) (t : BinTree (Entry T)) :
    Ptr × Bool → Heap (Node (Entry T)) × Ptr → BinTree (Entry T) → Prop where
  | added (a : Nat) (s' : Heap (Node (Entry T)) × Ptr) (t' : BinTree (Entry T))
      (hinsert : SortedInsert (fun e => kot e.2) (a, x) (t.places Entry.data)
        (t'.places Entry.data) true) : Inserted kot x s t (some a, true) s' t'
  | kept (a : Nat) (y : T) (hmem : (a, y) ∈ t.places Entry.data) (hy : kot y = kot x) :
      Inserted kot x s t (some a, false) s t

variable {s' : Heap (Node (Entry T)) × Ptr}

theorem Inserted.items {x : T} {res : Ptr × Bool}
    {t' : BinTree (Entry T)} (h : Inserted kot x s t res s' t') :
    SortedInsert kot x (t.items Entry.data) (t'.items Entry.data) res.2 := by
  cases h with
  | added a s' t' hinsert =>
    have hitems : SortedInsert kot x _ _ true := hinsert.map
    rwa [map_snd_places, map_snd_places] at hitems
  | kept a y hmem hy =>
    rw [← map_snd_places]
    exact SortedInsert.of_mem (mem_map_of_mem hmem) hy

theorem wp_blacken {n : Nat} (h : Linked s [] t) (ht : RedBlack t n) (hne : t ≠ .nil)
    {Q : Unit → Heap (Node (Entry T)) × Ptr → Prop} {E : Heap (Node (Entry T)) × Ptr → Prop}
    (hQ : ∀ s' t' m, Linked s' [] t' → color t' = .black → RedBlack t' m →
      t'.places Entry.data = t.places Entry.data → Q () s') : wp (setCol s.2 .black) Q E s := by
  obtain ⟨l, a, e, r, rfl⟩ := exists_mk .left hne
  obtain ⟨m, hm⟩ := redBlack_blacken ht
  have hroot : s.2 = some a := h.root
  rw [hroot]
  exact h.wp_mapVal fun s' h' => hQ s' _ m h' color_mk hm (places_mk_congr rfl rfl rfl)

theorem wp_insertBelow {f : Frame (Entry T)} {fs : Path (Entry T)} {x : T}
    (h : TreeOk kot s (Path.plug (f :: fs) .nil))
    (haround : Around (fun e => kot e.data) (kot x) (f :: fs))
    (hfuel : (Path.plug (f :: fs) .nil).height < fuel) :
    wp (insertBelow kot fuel x (some f.addr))
      (fun res s' => ∃ t', TreeOk kot s' t' ∧ Inserted kot x s (Path.plug (f :: fs) .nil) res s' t')
      (fun _ => False) s := by
  obtain ⟨m, hm⟩ := h.balanced
  obtain ⟨n, hn, hpath, -⟩ := pathOk_of_plug hm h.root
  obtain rfl := redBlack_nil.mp hn
  have hlength := Path.length_le_height_plug (f :: fs) (.nil : BinTree (Entry T))
  unfold insertBelow
  rw [wp_bind]
  refine wp_attach (linked_plug.mpr h.linked) haround fun s1 a h1 => ?_
  -- the new leaf is red
  have hleaf : RedBlack (.node .nil a ⟨x, .red⟩ .nil : BinTree (Entry T)) 0 :=
    (redBlack_red (d := .left)).mpr ⟨hn, hn, rfl, rfl⟩
  have hinsert := sortedInsert_attach kot Entry.data ⟨x, .red⟩ a haround
  rw [wp_bind]
  refine wp_imp (wp_fixLoop h1 hleaf rfl hpath (by omega)) (fun _ s2 hs2 => ?_)
  obtain ⟨t2, m2, h2, hm2, hplaces2⟩ := hs2
  rw [wp_bind, wp_getObj, wp_bind]
  refine wp_blacken h2 hm2 ?_ fun s3 t3 m3 h3 hroot3 hm3 hplaces3 => ?_
  · rintro rfl
    have hmem : (a, x) ∈ places Entry.data (Path.plug (f :: fs) (.node .nil a ⟨x, .red⟩ .nil)) :=
      mem_places_plug Entry.data
    rw [← hplaces2] at hmem
    cases hmem
  · rw [wp_pure]
    rw [← hplaces2, ← hplaces3] at hinsert
    have hres : Inserted kot x s _ (some a, true) s3 t3 := .added a s3 t3 hinsert
    exact ⟨t3, ⟨h3, hroot3, ⟨m3, hm3⟩, hres.items.sorted h.sorted⟩, hres⟩

theorem wp_insert (h : TreeOk kot s t) (x : T) (hfuel : t.height < fuel) :
    wp (insert kot fuel x) (fun res s' => ∃ t', TreeOk kot s' t' ∧ Inserted kot x s t res s' t')
      (fun _ => False) s := by
  have hroot : s.2 = t.ptr := h.linked.root
  unfold insert
  rw [wp_bind, wp_getObj, hroot]
  by_cases ht : t = .nil
  · subst ht
    rw [ptr, if_pos rfl]
    simp only [wp_bind, wp_new, wp_setObj, wp_pure]
    have hleaf := linked_first s.1 (⟨x, .red⟩ : Entry T)
    refine Linked.wp_mapVal (d := .left) hleaf fun s' h' => ⟨_, ⟨h', rfl, ⟨1, ?_⟩, ?_⟩, ?_⟩
    · exact redBlack_black (redBlack_nil.mpr rfl) (redBlack_nil.mpr rfl)
    · simp [items, mk, inorder]
    · exact .added _ _ _ (SortedInsert.added [] [] (forall_mem_nil _) (forall_mem_nil _))
  · rw [if_neg (ptr_eq_none.not.mpr ht), wp_bind]
    refine wp_search .left h.linked ht h.sorted hfuel (fun f gs hplug haround => ?_)
      fun gs l a y r hplug hy => ?_
    · subst hplug
      exact wp_insertBelow h haround hfuel
    · subst hplug
      exact (wp_pure _ _ _ _).mpr ⟨_, h, .kept a y.data (mem_places_plug Entry.data) hy⟩

theorem wp_inserts (kot : T → K) (ds : List T) (hfuel : ds.length < fuel) :
    wp (ds.mapM (insert kot fuel))
      (fun rs s' => ∃ t, TreeOk kot s' t ∧ Collected kot ds (t.items Entry.data) (rs.map Prod.snd))
      (fun _ => False) (Heap.empty, none) :=
  wp_collect Prod.snd (treeOk_nil _) (fun _ _ x ht hheight =>
    wp_imp (wp_insert ht x hheight) (fun _ _ ⟨t', ht', hres⟩ => ⟨t', ht', hres.items⟩)) hfuel

theorem exists_inserts (kot : T → K) (ds : List T) (hfuel : ds.length < fuel) :
    ∃ rs s t, ds.mapM (insert kot fuel) (Heap.empty, none) = .ok rs s ∧ TreeOk kot s t ∧
      Collected kot ds (t.items Entry.data) (rs.map Prod.snd) ∧ t.height < fuel := by
  obtain ⟨rs, s, hrun, t, ht, hcollected⟩ := exists_of_wp (wp_inserts kot ds hfuel)
  have hlength := hcollected.length_le
  rw [items, length_map] at hlength
  have hheight := t.height_le_length
  exact ⟨rs, s, t, hrun, ht, hcollected, by omega⟩

/-- Whatever is inserted into an empty tree, every call returns, so that no assertion fails
    and no null pointer is dereferenced, and the tree is a red-black tree with its parent
    pointers and is sorted; and so it is low. -/
theorem rb_inserts_invariants (kot : T → K) (ds : List T) (fuel : Nat) (hfuel : ds.length < fuel) :
    ∃ rs s' t, ds.mapM (insert kot fuel) (Heap.empty, none) = .ok rs s' ∧
      Linked s' [] t ∧ ParentsOk s' t ∧ color t = .black ∧ NoRedRed t ∧ (∃ n, BlackHeight t n) ∧
      ((t.items Entry.data).map kot).Pairwise (· < ·) ∧
      (t.height : ℝ) ≤ 2 * Real.logb 2 ((t.items Entry.data).length + 1) := by
  obtain ⟨rs, s', t, hrun, ht, -, -⟩ := exists_inserts kot ds hfuel
  obtain ⟨n, hn⟩ := ht.balanced
  refine ⟨rs, s', t, hrun, ht.linked, ht.linked.parentsOk, ht.root, hn.noRedRed,
    ⟨n, hn.blackHeight⟩, ht.sorted, ?_⟩
  rw [BinTree.items, length_map]
  exact height_le_logb hn ht.root

theorem rb_inserts_invariants_three : [3, 1, 2].length < 4 ∧
    ∃ rs s' t, [3, 1, 2].mapM (insert (id : Nat → Nat) 4) (Heap.empty, none) = .ok rs s' ∧
      Linked s' [] t ∧ ParentsOk s' t ∧ color t = .black ∧ NoRedRed t ∧ (∃ n, BlackHeight t n) ∧
      ((t.items Entry.data).map id).Pairwise (· < ·) ∧
      (t.height : ℝ) ≤ 2 * Real.logb 2 ((t.items Entry.data).length + 1) :=
  ⟨by decide, rb_inserts_invariants id [3, 1, 2] 4 (by decide)⟩

/-! ### What an insertion returns -/

def dataAt (s : Heap (Node (Entry T)) × Ptr) (it : Ptr) : Option T :=
  it.bind (s.1.field fun n => n.val.data)

theorem dataAt_of_places {a : Nat} {y : T} (h : Linked s [] t) (hmem : (a, y) ∈ t.places Entry.data) :
    dataAt s (some a) = some y := by
  obtain ⟨n, hn, hy⟩ := h.rep.cell_of_places hmem
  exact (Heap.field_of_some hn).trans (congrArg some hy)

theorem exists_places_of_addrs {a : Nat} (ha : a ∈ t.addrs) :
    ∃ y, (a, y) ∈ t.places Entry.data := by
  rw [← map_fst_places (φ := Entry.data)] at ha
  obtain ⟨⟨_, y⟩, hmem, rfl⟩ := mem_map.mp ha
  exact ⟨y, hmem⟩

theorem Inserted.mem_places {x : T} {res : Ptr × Bool}
    {t' : BinTree (Entry T)} {e : Nat × T} (h : Inserted kot x s t res s' t')
    (he : e ∈ t.places Entry.data) : e ∈ t'.places Entry.data := by
  cases h with
  | added a s' t' hinsert => exact (hinsert.mem_iff e).mpr (Or.inl he)
  | kept a y hmem hy => exact he

/-- **Insertion is insertion into a set**: into the tree that any insertions have left, `insert`
    of `d` returns `true` iff no item has its key. Then `*it` is `d`, and the items in order
    are those before with `d` at its place. Otherwise the node behind `it` is one of the tree
    with that key, and the heap is what it was. In both cases an iterator to a node of the tree
    still designates the same data. -/
theorem insert_is_set_insertion (kot : T → K) (ds : List T) (d : T) (fuel : Nat)
    (hfuel : ds.length < fuel) :
    ∃ rs s t it b s' t', ds.mapM (insert kot fuel) (Heap.empty, none) = .ok rs s ∧
      Linked s [] t ∧ insert kot fuel d s = .ok (it, b) s' ∧ Linked s' [] t' ∧
      (b = true ↔ ∀ e ∈ t.items Entry.data, kot e ≠ kot d) ∧
      (b = true → dataAt s' it = some d ∧ ∃ l r, t.items Entry.data = l ++ r ∧
        t'.items Entry.data = l ++ d :: r ∧ (∀ e ∈ l, kot e < kot d) ∧ ∀ e ∈ r, kot d < kot e) ∧
      (b = false → s' = s ∧ t' = t ∧ ∃ a y, it = some a ∧ a ∈ t.addrs ∧ dataAt s it = some y ∧
        kot y = kot d) ∧
      ∀ a ∈ t.addrs, dataAt s' (some a) = dataAt s (some a) := by
  obtain ⟨rs, s, t, hrun, ht, -, hheight⟩ := exists_inserts kot ds hfuel
  obtain ⟨⟨it, b⟩, s', hinsert, t', ht', hres⟩ := exists_of_wp (wp_insert ht d hheight)
  refine ⟨rs, s, t, it, b, s', t', hrun, ht.linked, hinsert, ht'.linked, hres.items.answer_iff,
    fun hb => ?_, fun hb => ?_, fun a ha => ?_⟩
  · subst hb
    have hitems := hres.items
    generalize t.items Entry.data = before at hitems
    generalize hafter : t'.items Entry.data = after at hitems
    cases hitems with
    | added l r hl hr =>
      cases hres with
      | added a s' t' hplaces =>
        have hmem : (a, d) ∈ t'.places Entry.data := (hplaces.mem_iff _).mpr (Or.inr ⟨rfl, rfl⟩)
        exact ⟨dataAt_of_places ht'.linked hmem, l, r, rfl, rfl, hl, hr⟩
  · subst hb
    cases hres with
    | kept a y hmem hy =>
      have ha : a ∈ t.addrs := by
        rw [← BinTree.map_fst_places (φ := Entry.data)]
        exact mem_map_of_mem hmem
      exact ⟨rfl, rfl, a, y, rfl, ha, dataAt_of_places ht.linked hmem, hy⟩
  · obtain ⟨y, hy⟩ := exists_places_of_addrs ha
    rw [dataAt_of_places ht.linked hy, dataAt_of_places ht'.linked (hres.mem_places hy)]

/-- A key that is there already. -/
theorem insert_is_set_insertion_again : [3, 1].length < 3 ∧
    ∃ rs s it b s', [3, 1].mapM (insert (id : Nat → Nat) 3) (Heap.empty, none) = .ok rs s ∧
      insert id 3 1 s = .ok (it, b) s' ∧ (b = true → dataAt s' it = some 1) ∧
      (b = false → s' = s) := by
  refine ⟨by decide, ?_⟩
  obtain ⟨rs, s, t, it, b, s', t', hrun, -, hinsert, -, -, hadded, hkept, -⟩ :=
    insert_is_set_insertion (id : Nat → Nat) [3, 1] 1 3 (by decide)
  exact ⟨rs, s, it, b, s', hrun, hinsert, fun hb => (hadded hb).1, fun hb => (hkept hb).1⟩

end insertion

end RBTree

end CallLesson.Algorithm
