import CallLesson.Algorithm.SearchTree

/-! # The AVL tree

    `zhc::AVLTree::insert` on a heap of nodes, with the two sides as one program.

    On its way up from the new leaf the loop finds the tree in the focus balanced and
    higher by one than it was, and the balance factors above it still those of the old
    height (`PathOk`). It ends where the height is the old one again: where a factor
    becomes zero, or where a rotation has taken the additional level away. -/

namespace CallLesson.Algorithm.AVLTree

open LinkedTree HeapM Exec

/-! ## Model -/

structure Entry (K V : Type) where
  kv : K × V
  bf : Int
  deriving DecidableEq

def sgn : Side → Int
  | .left => -1
  | .right => 1

section model

variable {K V : Type}

def setBf (p : Ptr) (b : Int) : HeapM (Node (Entry K V)) Ptr Unit :=
  store p (Node.mapVal fun e => { e with bf := b })

def rotateBf (d : Side) (parent : Ptr) : HeapM (Node (Entry K V)) Ptr Unit := do
  let sub := (← load parent).child d
  rotate d parent
  setBf sub 0
  setBf parent 0

def rotateL (parent : Ptr) : HeapM (Node (Entry K V)) Ptr Unit := rotateBf .right parent

def rotateR (parent : Ptr) : HeapM (Node (Entry K V)) Ptr Unit := rotateBf .left parent

def rotateTwice (d : Side) (parent : Ptr) : HeapM (Node (Entry K V)) Ptr Unit := do
  let sub := (← load parent).child d
  let inner := (← load sub).child d.other
  let bf := (← load inner).val.bf
  -- the argument is read from `parent` once more
  rotateBf d.other ((← load parent).child d)
  rotateBf d parent
  -- the rotations have made all three factors 0
  if bf = 0 then
    setBf parent 0
    setBf inner 0
    setBf sub 0
  else if bf = sgn d then
    setBf parent (-sgn d)
    setBf sub 0
    setBf inner 0
  else if bf = -sgn d then
    setBf sub (sgn d)
    setBf inner 0
    setBf parent 0
  else throw (.fault .assertFailed)

def rotateLR (parent : Ptr) : HeapM (Node (Entry K V)) Ptr Unit := rotateTwice .left parent

def rotateRL (parent : Ptr) : HeapM (Node (Entry K V)) Ptr Unit := rotateTwice .right parent

def rebalance (d : Side) (cur parent : Ptr) : HeapM (Node (Entry K V)) Ptr Unit := do
  let n ← load parent
  -- the first test looks at the child of `parent`, the second one at `cur`
  if (← load (n.child d)).val.bf = sgn d then rotateBf d parent
  else if (← load cur).val.bf = -sgn d then rotateTwice d parent
  else throw (.fault .assertFailed)

def adjust : Nat → Ptr → Ptr → HeapM (Node (Entry K V)) Ptr Unit
  | 0, _, _ => throw .running
  | fuel + 1, cur, parent => do
      if parent = none then pure ()
      else
        let n ← load parent
        -- `cur` is compared with `_left` only
        let bf := if cur = n.left then n.val.bf - 1 else n.val.bf + 1
        setBf parent bf
        if bf = 0 then pure ()
        else if bf = 1 ∨ bf = -1 then adjust fuel parent n.parent
        else if bf = 2 then rebalance .right cur parent
        else if bf = -2 then rebalance .left cur parent
        else throw (.fault .assertFailed)

def insertBelow [LT K] [DecidableLT K] (fuel : Nat) (kv : K × V) (parent : Ptr) :
    HeapM (Node (Entry K V)) Ptr Bool := do
  let cur ← attach (fun e => e.kv.1) ⟨kv, 0⟩ parent
  adjust fuel cur parent
  pure true

def insert [LT K] [DecidableLT K] (fuel : Nat) (kv : K × V) :
    HeapM (Node (Entry K V)) Ptr Bool := do
  let root ← getObj
  if root = none then
    let p ← new ⟨none, none, none, ⟨kv, 0⟩⟩
    setObj p
    pure true
  else
    let (parent, cur) ← descend (fun e => e.kv.1) .right kv.1 fuel none root
    if cur = none then insertBelow fuel kv parent
    else pure false

end model

/-! ## Balanced trees -/

open BinTree

section balance

variable {K V : Type} {d : Side} {l r t A B C : BinTree (Entry K V)} {a p g h : Nat}
  {x y : Entry K V} {fs : Path (Entry K V)}

def Balanced : BinTree (Entry K V) → Prop
  | .nil => True
  | .node l _ e r =>
      e.bf = r.height - l.height ∧ (e.bf = -1 ∨ e.bf = 0 ∨ e.bf = 1) ∧ Balanced l ∧ Balanced r

theorem balanced_mk : Balanced (.mk d l a x r) ↔
    x.bf = sgn d * (l.height - r.height) ∧ (x.bf = -1 ∨ x.bf = 0 ∨ x.bf = 1) ∧
      Balanced l ∧ Balanced r := by
  cases d with
  | left =>
    simp only [mk, Balanced, sgn]
    constructor <;> intro h <;> refine ⟨by omega, h.2⟩
  | right =>
    simp only [mk, Balanced, sgn]
    constructor <;> intro h <;> exact ⟨by omega, h.2.1, h.2.2.2, h.2.2.1⟩

theorem balanced_leaf (kv : K × V) : Balanced (.node .nil a ⟨kv, 0⟩ .nil) :=
  ⟨rfl, Or.inr (Or.inl rfl), trivial, trivial⟩

def PathOk : Path (Entry K V) → Nat → Prop
  | [], _ => True
  | f :: fs, h =>
      f.val.bf = sgn f.side * (h - f.sib.height) ∧ (f.val.bf = -1 ∨ f.val.bf = 0 ∨ f.val.bf = 1) ∧
        Balanced f.sib ∧ PathOk fs (max h f.sib.height + 1)

theorem balanced_plug : Balanced (Path.plug fs t) ↔ PathOk fs t.height ∧ Balanced t := by
  induction fs generalizing t with
  | nil => simp [Path.plug, PathOk]
  | cons f fs ih =>
    rw [Path.plug, ih, Frame.plug, balanced_mk, height_mk, PathOk]
    tauto

end balance

/-! ## Rotations -/

section rotations

variable {K V : Type} {s : Heap (Node (Entry K V)) × Ptr} {fs : Path (Entry K V)} {d : Side}
  {A B C U : BinTree (Entry K V)} {a c p g : Nat} {x y z : Entry K V}
  {Q : Unit → Heap (Node (Entry K V)) × Ptr → Prop}

theorem wp_rotateBf (h : Linked s fs (.mk d (.mk d A p x B) g y C))
    (hQ : ∀ s', Linked s' fs (.mk d A p { x with bf := 0 } (.mk d B g { y with bf := 0 } C)) →
      Q () s') : wp (rotateBf d (some g)) Q (fun _ => False) s := by
  unfold rotateBf
  rw [wp_bind, wp_load h.cell, Node.child_of, ptr_mk, wp_bind]
  refine wp_rotate h fun s1 h1 => ?_
  rw [wp_bind]
  exact h1.wp_mapVal fun s2 h2 => h2.wp_mapVal_far hQ

def Factors (d : Side) (bz bx by' : Int) : Prop :=
  (bz = 0 ∧ bx = 0 ∧ by' = 0) ∨ (bz = sgn d ∧ bx = 0 ∧ by' = -sgn d) ∨
    (bz = -sgn d ∧ bx = sgn d ∧ by' = 0)

theorem sgn_ne_zero (d : Side) : sgn d ≠ 0 := by cases d <;> decide

theorem sgn_ne_neg (d : Side) : -sgn d ≠ sgn d := by cases d <;> decide

theorem wp_rotateTwice (h : Linked s fs (.mk d (.mk d.other (.mk d.other A c z B) p x C) g y U))
    (hz : z.bf = 0 ∨ z.bf = sgn d ∨ z.bf = -sgn d)
    (hQ : ∀ s' bx by', Factors d z.bf bx by' →
      Linked s' fs (.mk d (.mk d.other B p { x with bf := bx } C) c { z with bf := 0 }
        (.mk d A g { y with bf := by' } U)) → Q () s') :
    wp (rotateTwice d (some g)) Q (fun _ => False) s := by
  have hp := linked_near.mp h
  have hc := linked_near.mp hp
  unfold rotateTwice
  rw [wp_bind, wp_load h.cell, Node.child_of, ptr_mk, wp_bind, wp_load hp.cell,
    Node.child_of, ptr_mk, wp_bind, wp_load hc.cell, Node.val_of, wp_bind,
    wp_load h.cell, Node.child_of, ptr_mk, wp_bind]
  -- one level down, and the focus is back on `parent` for the second rotation
  refine wp_rotateBf hp fun s1 h1 => ?_
  replace h1 := linked_near.mpr h1
  rw [mk_other] at h1
  rw [wp_bind]
  refine wp_rotateBf h1 fun s2 h2 => ?_
  -- the factors are assigned in an order of its own in each of the three cases
  rcases hz with hz | hz | hz
  · rw [hz, if_pos rfl]
    simp only [wp_bind]
    exact h2.wp_mapVal_far fun s3 h3 => h3.wp_mapVal fun s4 h4 => h4.wp_mapVal_near fun s5 h5 =>
      hQ s5 0 0 (Or.inl ⟨hz, rfl, rfl⟩) h5
  · rw [hz, if_neg (sgn_ne_zero d), if_pos rfl]
    simp only [wp_bind]
    exact h2.wp_mapVal_far fun s3 h3 => h3.wp_mapVal_near fun s4 h4 => h4.wp_mapVal fun s5 h5 =>
      hQ s5 0 (-sgn d) (Or.inr (Or.inl ⟨hz, rfl, rfl⟩)) h5
  · rw [hz, if_neg (neg_ne_zero.mpr (sgn_ne_zero d)), if_neg (sgn_ne_neg d), if_pos rfl]
    simp only [wp_bind]
    exact h2.wp_mapVal_near fun s3 h3 => h3.wp_mapVal fun s4 h4 => h4.wp_mapVal_far fun s5 h5 =>
      hQ s5 (sgn d) 0 (Or.inr (Or.inr ⟨hz, rfl, rfl⟩)) h5

theorem height_of_bf (h : x.bf = sgn d * (A.height - B.height)) :
    (x.bf = sgn d → A.height = B.height + 1) ∧ (x.bf = 0 → A.height = B.height) ∧
      (x.bf = -sgn d → B.height = A.height + 1) := by
  cases d <;> simp only [sgn] at h ⊢ <;> omega

theorem bf_of_height : (A.height = B.height → sgn d * (A.height - B.height) = 0) ∧
      (A.height = B.height + 1 → sgn d * (A.height - B.height) = sgn d) ∧
      (B.height = A.height + 1 → sgn d * (A.height - B.height) = -sgn d) := by
  cases d <;> simp only [sgn] <;> omega

theorem balanced_rotate (hA : Balanced A) (hB : Balanced B) (hC : Balanced C)
    (hAB : A.height = B.height + 1) (hBC : B.height = C.height) :
    Balanced (.mk d A p { x with bf := 0 } (.mk d B g { y with bf := 0 } C)) ∧
      (BinTree.mk d A p { x with bf := 0 } (.mk d B g { y with bf := 0 } C)).height =
        C.height + 2 := by
  have hlow : (mk d B g { y with bf := 0 } C).height = C.height + 1 := by
    rw [height_mk, hBC, max_self]
  refine ⟨balanced_mk.mpr ⟨?_, by simp, hA, balanced_mk.mpr ⟨?_, by simp, hB, hC⟩⟩, ?_⟩
  · rw [bf_of_height.1 (by omega)]
  · rw [bf_of_height.1 hBC]
  · rw [height_mk, hlow]
    omega

theorem balanced_rotateTwice {bx by' : Int} (hf : Factors d z.bf bx by') (hA : Balanced A)
    (hB : Balanced B) (hC : Balanced C) (hU : Balanced U)
    (hz : z.bf = sgn d.other * (A.height - B.height))
    (hheight : max A.height B.height = C.height) (hCU : C.height = U.height) :
    Balanced (.mk d (.mk d.other B p { x with bf := bx } C) c { z with bf := 0 }
        (.mk d A g { y with bf := by' } U)) ∧
      (BinTree.mk d (.mk d.other B p { x with bf := bx } C) c { z with bf := 0 }
        (.mk d A g { y with bf := by' } U)).height = C.height + 2 := by
  -- the two halves are equally high, whatever the factor of the node between them
  have hleft : ∀ e, (mk d.other B p e C).height = C.height + 1 := by
    intro e
    rw [height_mk]
    omega
  have hright : ∀ e, (mk d A g e U).height = C.height + 1 := by
    intro e
    rw [height_mk]
    omega
  refine ⟨balanced_mk.mpr ⟨?_, by simp, balanced_mk.mpr ⟨?_, ?_, hB, hC⟩,
    balanced_mk.mpr ⟨?_, ?_, hA, hU⟩⟩, ?_⟩
  · rw [bf_of_height.1 (by rw [hleft, hright])]
  · cases d <;> simp only [Factors, sgn, Side.other] at hf hz ⊢ <;> omega
  · cases d <;> simp only [Factors, sgn] at hf ⊢ <;> omega
  · cases d <;> simp only [Factors, sgn, Side.other] at hf hz ⊢ <;> omega
  · cases d <;> simp only [Factors, sgn] at hf ⊢ <;> omega
  · rw [height_mk, hleft, hright]
    omega

theorem wp_rebalance (h : Linked s fs (.mk d (.mk d A p x B) g y C))
    (hsub : Balanced (.mk d A p x B)) (hC : Balanced C) (hbf : x.bf ≠ 0)
    (hheight : (BinTree.mk d A p x B).height = C.height + 2)
    (hQ : ∀ s' t', Linked s' fs t' → Balanced t' → t'.height = C.height + 2 →
      t'.places Entry.kv = (BinTree.mk d (.mk d A p x B) g y C).places Entry.kv → Q () s') :
    wp (rebalance d (some p) (some g)) Q (fun _ => False) s := by
  have hp := linked_near.mp h
  obtain ⟨hx, hrange, hA, hB⟩ := balanced_mk.mp hsub
  rw [height_mk] at hheight
  unfold rebalance
  rw [wp_bind, wp_load h.cell, Node.child_of, ptr_mk, wp_bind, wp_load hp.cell, Node.val_of]
  by_cases hlean : x.bf = sgn d
  · rw [if_pos hlean]
    have hAB := (height_of_bf hx).1 hlean
    obtain ⟨hbal, hheight'⟩ := balanced_rotate (d := d) (p := p) (g := g) (x := x) (y := y) hA hB hC
      hAB (by omega)
    exact wp_rotateBf h fun s' h' => hQ s' _ h' hbal hheight' (places_rotate rfl rfl)
  · have hother : x.bf = -sgn d := by cases d <;> simp only [sgn] at hlean ⊢ <;> omega
    have hBA := (height_of_bf hx).2.2 hother
    -- the inner child is there, as it is the higher one
    have hne : B ≠ .nil := by
      rintro rfl
      simp [height] at hBA
    obtain ⟨B₁, c, z, B₂, rfl⟩ := exists_mk d.other hne
    obtain ⟨hz, hzrange, hB1, hB2⟩ := balanced_mk.mp hB
    rw [height_mk] at hBA hheight
    rw [if_neg hlean, wp_bind, wp_load hp.cell, Node.val_of, if_pos hother]
    have hmk : mk d A p x (.mk d.other B₁ c z B₂) =
        .mk d.other (.mk d.other B₁ c z B₂) p x A := mk_other.symm
    rw [hmk] at h hQ
    have hz' : z.bf = 0 ∨ z.bf = sgn d ∨ z.bf = -sgn d := by
      cases d <;> simp only [sgn] <;> omega
    refine wp_rotateTwice h hz' fun s' bx by' hf h' => ?_
    obtain ⟨hbal, hheight'⟩ := balanced_rotateTwice (d := d) (p := p) (c := c) (g := g) (x := x)
      (y := y) hf hB1 hB2 hA hC hz (by omega) (by omega)
    exact hQ s' _ h' hbal (by omega) (places_rotate_twice rfl rfl rfl)

end rotations

/-! ## Insertion -/

section insertion

variable {K V : Type} {s : Heap (Node (Entry K V)) × Ptr} {fs : Path (Entry K V)}
  {t l r : BinTree (Entry K V)} {d : Side} {a n : Nat} {e : Entry K V}

theorem bf_step {f : Frame (Entry K V)} (h : Linked s (f :: fs) (.mk d l a e r)) :
    (if some a = (Node.of f.side (some a) f.sib.ptr (Path.ptr fs) f.val).left then f.val.bf - 1
      else f.val.bf + 1) = f.val.bf + sgn f.side := by
  cases hd : f.side with
  | left => exact if_pos rfl
  | right =>
    refine if_neg fun hsib => ?_
    have ha := addrs_of_ptr hsib.symm
    have hmem : a ∈ (mk d l a e r).addrs := addrs_of_ptr ptr_mk
    grind [h.nodup, Path.addrs, List.nodup_append]

theorem bf_cases {b : Int} {m : Nat} (hb : b = sgn d * (n - m)) (hrange : b = -1 ∨ b = 0 ∨ b = 1) :
    (b + sgn d = 0 ∧ m = n + 1) ∨ (b + sgn d = sgn d ∧ m = n) ∨
      (b + sgn d = 2 * sgn d ∧ n = m + 1) := by
  cases d <;> simp only [sgn] at hb ⊢ <;> omega

theorem rebalance_eq (d : Side) (cur parent : Ptr) (again : HeapM (Node (Entry K V)) Ptr Unit) :
    (if 2 * sgn d = 0 then pure ()
      else if 2 * sgn d = 1 ∨ 2 * sgn d = -1 then again
      else if 2 * sgn d = 2 then rebalance .right cur parent
      else if 2 * sgn d = -2 then rebalance .left cur parent
      else throw (.fault .assertFailed)) = rebalance d cur parent := by
  cases d <;> simp [sgn]

theorem wp_adjust {fuel : Nat} (h : Linked s fs (.mk d l a e r)) (ht : Balanced (.mk d l a e r))
    (hheight : (BinTree.mk d l a e r).height = n + 1) (hfs : PathOk fs n)
    (hbf : n = 0 ∨ e.bf ≠ 0) (hfuel : fs.length < fuel) :
    wp (adjust fuel (some a) (Path.ptr fs))
      (fun _ s' => ∃ t', Linked s' [] t' ∧ Balanced t' ∧
        t'.places Entry.kv = (Path.plug fs (.mk d l a e r)).places Entry.kv)
      (fun _ => False) s := by
  -- the focus goes up one frame with each turn, from the leaf to the root
  induction fuel generalizing s fs d l a e r n with
  | zero => omega
  | succ fuel ih =>
    rw [adjust]
    cases fs with
    | nil =>
      rw [Path.ptr, if_pos rfl, wp_pure]
      exact ⟨_, h, ht, rfl⟩
    | cons f fs =>
      obtain ⟨hfbf, hrange, hsib, hrest⟩ := hfs
      have hcell := h.path.1
      rw [ptr_mk] at hcell
      have hlinked := linked_cons.mp h
      have hside := bf_step h
      rw [Path.ptr, if_neg (by simp), wp_bind, wp_load hcell, Node.val_of, Node.parent_of]
      dsimp only
      rw [hside, wp_bind]
      refine hlinked.wp_mapVal fun s1 h1 => ?_
      have hplaces : (mk f.side (.mk d l a e r) f.addr
          { f.val with bf := f.val.bf + sgn f.side } f.sib).places Entry.kv =
          (f.plug (.mk d l a e r)).places Entry.kv := places_mk_congr rfl rfl rfl
      rcases bf_cases hfbf hrange with ⟨hb, hsame⟩ | ⟨hb, hsame⟩ | ⟨hb, hsame⟩
      · -- the subtree was the lower one
        rw [hb] at h1 hplaces ⊢
        rw [if_pos rfl, wp_pure]
        refine ⟨_, linked_plug.mp h1, balanced_plug.mpr ⟨?_, balanced_mk.mpr ⟨?_, ?_, ht, hsib⟩⟩,
          Path.places_plug_congr fs hplaces⟩
        · rw [height_mk, hheight, hsame, max_self]
          rwa [hsame, Nat.max_eq_right (Nat.le_succ n)] at hrest
        · rw [bf_of_height.1 (hheight.trans hsame.symm)]
        · simp
      · -- both sides were equally high, and the tree above is higher now
        rw [hb] at h1 hplaces ⊢
        have hup : sgn f.side = 1 ∨ sgn f.side = -1 := by cases f.side <;> simp [sgn]
        rw [if_neg (sgn_ne_zero f.side), if_pos hup]
        refine wp_imp (ih h1 (balanced_mk.mpr ⟨?_, ?_, ht, hsib⟩) ?_ hrest
          (Or.inr (sgn_ne_zero f.side)) ?_) (fun _ s' hs' => ?_)
        · rw [bf_of_height.2.1 (hheight.trans (congrArg (· + 1) hsame.symm))]
        · cases f.side <;> simp [sgn]
        · rw [height_mk, hheight]
          omega
        · rw [List.length_cons] at hfuel
          omega
        · obtain ⟨t', ht', hbal', hplaces'⟩ := hs'
          exact ⟨t', ht', hbal', hplaces'.trans (Path.places_plug_congr fs hplaces)⟩
      · -- the subtree was the higher one
        rw [hb] at h1 hplaces ⊢
        rw [rebalance_eq]
        obtain ⟨A, B, hAB⟩ := exists_mk_side f.side d l a e r
        rw [hAB] at h1 ht hheight hplaces ⊢
        refine wp_rebalance h1 ht hsib (hbf.resolve_left (by omega)) (by omega)
          fun s' t' h' hbal' hheight' hplaces' => ?_
        refine ⟨_, linked_plug.mp h', balanced_plug.mpr ⟨?_, hbal'⟩,
          Path.places_plug_congr fs (hplaces'.trans hplaces)⟩
        rw [hheight']
        rwa [hsame, Nat.max_eq_left (Nat.le_succ _)] at hrest

variable [LinearOrder K]

structure TreeOk (s : Heap (Node (Entry K V)) × Ptr) (t : BinTree (Entry K V)) : Prop where
  linked : Linked s [] t
  balanced : Balanced t
  sorted : ((t.items Entry.kv).map Prod.fst).Pairwise (· < ·)

theorem treeOk_nil (h : Heap (Node (Entry K V))) : TreeOk (h, none) .nil :=
  ⟨⟨trivial, trivial, List.Pairwise.nil, rfl⟩, trivial, List.Pairwise.nil⟩

theorem wp_insertBelow {f : Frame (Entry K V)} {kv : K × V} {fuel : Nat}
    (h : TreeOk s (Path.plug (f :: fs) .nil))
    (haround : Around (fun e => e.kv.1) kv.1 (f :: fs))
    (hfuel : (Path.plug (f :: fs) .nil).height < fuel) :
    wp (insertBelow fuel kv (some f.addr))
      (fun b s' => ∃ t', TreeOk s' t' ∧
        SortedInsert Prod.fst kv (BinTree.items Entry.kv (Path.plug (f :: fs) .nil))
          (t'.items Entry.kv) b)
      (fun _ => False) s := by
  obtain ⟨hpath, -⟩ := balanced_plug.mp h.balanced
  have hlength := Path.length_le_height_plug (f :: fs) (.nil : BinTree (Entry K V))
  unfold insertBelow
  rw [wp_bind]
  refine wp_attach (linked_plug.mpr h.linked) haround fun s1 a h1 => ?_
  have hinsert := sortedInsert_attach Prod.fst Entry.kv ⟨kv, 0⟩ a haround
  -- the places after the loop are those with the new leaf
  rw [wp_bind]
  refine wp_imp (wp_adjust (d := .left) h1 (balanced_leaf kv) rfl hpath (Or.inl rfl) (by omega))
    (fun _ s2 hs2 => ?_)
  obtain ⟨t2, h2, hbal2, hplaces2⟩ := hs2
  replace hinsert : SortedInsert (fun e => e.2.1) (a, kv)
      (places Entry.kv (Path.plug (f :: fs) .nil)) (t2.places Entry.kv) true :=
    hplaces2 ▸ hinsert
  have hitems : SortedInsert Prod.fst kv _ _ true := hinsert.map
  rw [map_snd_places, map_snd_places] at hitems
  rw [wp_pure]
  exact ⟨t2, ⟨h2, hbal2, hitems.sorted h.sorted⟩, hitems⟩

theorem wp_insert (h : TreeOk s t) (kv : K × V) {fuel : Nat} (hfuel : t.height < fuel) :
    wp (insert fuel kv)
      (fun b s' => ∃ t', TreeOk s' t' ∧
        SortedInsert Prod.fst kv (t.items Entry.kv) (t'.items Entry.kv) b)
      (fun _ => False) s := by
  have hroot : s.2 = t.ptr := h.linked.root
  unfold insert
  rw [wp_bind, wp_getObj, hroot]
  -- the first node becomes the root without a search
  by_cases ht : t = .nil
  · subst ht
    rw [ptr, if_pos rfl]
    simp only [wp_bind, wp_new, wp_setObj, wp_pure]
    refine ⟨_, ⟨linked_first s.1 ⟨kv, 0⟩, balanced_leaf kv, ?_⟩, ?_⟩
    · simp [items, inorder]
    · exact SortedInsert.added [] [] (List.forall_mem_nil _) (List.forall_mem_nil _)
  · rw [if_neg (ptr_eq_none.not.mpr ht), wp_bind]
    refine wp_search .right h.linked ht h.sorted hfuel (fun f gs hplug haround => ?_)
      fun gs l a y r hplug hy => ?_
    · subst hplug
      exact wp_insertBelow h haround hfuel
    · subst hplug
      exact (wp_pure _ _ _ _).mpr ⟨_, h, SortedInsert.of_mem (mem_items_plug Entry.kv) hy⟩

/-- Whatever is inserted into an empty tree, every call returns, so that no assertion fails,
    and the tree is balanced with exact factors and its parent pointers; it holds the first
    value given for each key, and a call has answered `true` if its key was absent. -/
theorem avl_inserts_balanced (kvs : List (K × V)) (fuel : Nat) (hfuel : kvs.length < fuel) :
    ∃ bs s' t, kvs.mapM (insert fuel) (Heap.empty, none) = .ok bs s' ∧
      Linked s' [] t ∧ ParentsOk s' t ∧ Balanced t ∧
      ((t.items Entry.kv).map Prod.fst).Pairwise (· < ·) ∧
      (∀ e, e ∈ t.items Entry.kv ↔ kvs.find? (fun kv => kv.1 = e.1) = some e) ∧
      bs = kvs.mapIdx fun i kv => decide (∀ kv' ∈ kvs.take i, kv'.1 ≠ kv.1) := by
  have hrun := wp_collect id (treeOk_nil _) (fun s t kv ht hheight => wp_insert ht kv hheight) hfuel
  obtain ⟨bs, s', hrun, t, ht, hcollected⟩ := exists_of_wp hrun
  rw [List.map_id] at hcollected
  exact ⟨bs, s', t, hrun, ht.linked, ht.linked.parentsOk, ht.balanced, ht.sorted,
    hcollected.mem_iff, hcollected.answers⟩

theorem avl_inserts_balanced_four : [(3, 'a'), (1, 'b'), (2, 'c'), (3, 'd')].length < 5 ∧
    ∃ bs s' t, [(3, 'a'), (1, 'b'), (2, 'c'), (3, 'd')].mapM (insert 5) (Heap.empty, none) =
        .ok bs s' ∧
      Linked s' [] t ∧ ParentsOk s' t ∧ Balanced t ∧
      ((t.items Entry.kv).map Prod.fst).Pairwise (· < ·) ∧
      (∀ e, e ∈ t.items Entry.kv ↔ [(3, 'a'), (1, 'b'), (2, 'c'), (3, 'd')].find?
        (fun kv => kv.1 = e.1) = some e) ∧
      bs = [(3, 'a'), (1, 'b'), (2, 'c'), (3, 'd')].mapIdx fun i kv =>
        decide (∀ kv' ∈ [(3, 'a'), (1, 'b'), (2, 'c'), (3, 'd')].take i, kv'.1 ≠ kv.1) :=
  ⟨by decide, avl_inserts_balanced [(3, 'a'), (1, 'b'), (2, 'c'), (3, 'd')] 5 (by decide)⟩

end insertion

end CallLesson.Algorithm.AVLTree
