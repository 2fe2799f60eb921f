import CallLesson.Algorithm.RBTree

/-! # The checker of the red-black tree

    `IsRBTree` and `check`, on any tree of coloured nodes. The checker counts the black
    nodes on the leftmost path, and then walks through the tree with the number of black
    nodes above, which it compares at every null pointer. Both counters are of type `int`
    and wrap around; two paths whose numbers of black nodes differ by a multiple of `2 ^ 32`
    would look the same to it, but a tree where all paths look the same and two are not has
    more nodes than there are addresses. -/

namespace CallLesson.Algorithm.RBTree

open LinkedTree HeapM Exec

/-! ## Model -/

section model

variable {T : Type}

def countBlack (col : Color) (n : Int) : Int :=
  if col = .black then (n + 1).bmod (2 ^ 32) else n

def refLoop : Nat → Ptr → Int → HeapM (Node (Entry T)) Ptr Int
  | 0, _, _ => throw .running
  | fuel + 1, left, ref => do
      if left = none then pure ref
      else
        let n ← load left
        refLoop fuel n.left (countBlack n.val.col ref)

def redBelowRed (n : Node (Entry T)) : HeapM (Node (Entry T)) Ptr Bool := do
  if n.val.col = .red then
    let p ← load n.parent
    pure (p.val.col = .red)
  else pure false

def check : Nat → Ptr → Int → Int → HeapM (Node (Entry T)) Ptr (Bool × List String)
  | 0, _, _, _ => throw .running
  | fuel + 1, root, blackNum, ref => do
      if root = none then
        if blackNum ≠ ref then pure (false, ["黑色路径有问题"]) else pure (true, [])
      else
        let n ← load root
        if (← redBelowRed n) then pure (false, ["红色有连续问题"])
        else
          let left ← check fuel n.left (countBlack n.val.col blackNum) ref
          if left.1 then
            let right ← check fuel n.right (countBlack n.val.col blackNum) ref
            pure (right.1, left.2 ++ right.2)
          else pure left

def isRBTree (fuel : Nat) : HeapM (Node (Entry T)) Ptr (Bool × List String) := do
  let root ← getObj
  if root = none then pure (true, [])
  else
    let n ← load root
    if n.val.col = .red then pure (false, [])
    else
      let ref ← refLoop fuel root 0
      check fuel root 0 ref

end model

/-! ## The black nodes on the paths -/

open List BinTree

section paths

variable {T : Type} {t l r : BinTree (Entry T)} {a n M : Nat} {e : Entry T}

def blacks : BinTree (Entry T) → List Nat
  | .nil => [0]
  | .node l _ e r => (blacks l ++ blacks r).map (· + weight e.col)

theorem blacks_of_blackHeight (h : BlackHeight t n) : ∀ m ∈ blacks t, m = n := by
  induction t generalizing n with
  | nil =>
    cases h
    simp [blacks]
  | node l a e r ihl ihr =>
    obtain ⟨k, hl, hr, rfl⟩ := h
    intro m hm
    obtain ⟨j, hj, rfl⟩ := mem_map.mp hm
    rcases mem_append.mp hj with hj | hj
    · rw [ihl hl j hj]
    · rw [ihr hr j hj]

theorem mem_blacks_of_blackHeight (h : BlackHeight t n) : n ∈ blacks t := by
  induction t generalizing n with
  | nil =>
    cases h
    simp [blacks]
  | node l a e r ihl ihr =>
    obtain ⟨k, hl, -, rfl⟩ := h
    exact mem_map_of_mem (mem_append_left _ (ihl hl))

theorem exists_blackHeight (hmod : ∀ m ∈ blacks t, ∀ m' ∈ blacks t, m ≡ m' [MOD M])
    (hsize : t.inorder.length + 1 < 2 ^ M) : ∃ n, BlackHeight t n := by
  induction t with
  | nil => exact ⟨0, rfl⟩
  | node l a e r ihl ihr =>
    have hmod' : ∀ m ∈ blacks l ++ blacks r, ∀ m' ∈ blacks l ++ blacks r, m ≡ m' [MOD M] :=
      fun m hm m' hm' => Nat.ModEq.add_right_cancel' _
        (hmod _ (mem_map_of_mem hm) _ (mem_map_of_mem hm'))
    rw [inorder, length_append, length_cons] at hsize
    obtain ⟨i, hi⟩ := ihl
      (fun m hm m' hm' => hmod' m (mem_append_left _ hm) m' (mem_append_left _ hm'))
      (by omega)
    obtain ⟨j, hj⟩ := ihr
      (fun m hm m' hm' => hmod' m (mem_append_right _ hm) m' (mem_append_right _ hm'))
      (by omega)
    -- both are below `M`: a subtree of black height `M` would be too large
    have hiM : i < M := (Nat.pow_lt_pow_iff_right one_lt_two).mp
      (lt_of_le_of_lt (pow_le_length hi) (by omega))
    have hjM : j < M := (Nat.pow_lt_pow_iff_right one_lt_two).mp
      (lt_of_le_of_lt (pow_le_length hj) (by omega))
    have hij : i = j := (hmod' i (mem_append_left _ (mem_blacks_of_blackHeight hi)) j
      (mem_append_right _ (mem_blacks_of_blackHeight hj))).eq_of_lt_of_lt hiM hjM
    exact ⟨i + weight e.col, i, hi, hij ▸ hj, rfl⟩

end paths

/-! ## What the checker finds -/

section run

variable {T : Type} {s : Heap (Node (Entry T)) × Ptr} {fs : Path (Entry T)}
  {t : BinTree (Entry T)} {fuel : Nat}

theorem countBlack_bmod (col : Color) (k : Nat) :
    countBlack col ((k : Int).bmod (2 ^ 32)) = ((k + weight col : Nat) : Int).bmod (2 ^ 32) := by
  cases col with
  | red => simp [countBlack, weight]
  | black => simp [countBlack, weight]

theorem wp_refLoop {p : Ptr} (h : t.Rep s.1 p) (hfuel : t.height < fuel) (k : Nat) :
    wp (refLoop fuel t.ptr ((k : Int).bmod (2 ^ 32)))
      (fun ref s' => s' = s ∧ ∃ m ∈ blacks t, ref = ((k + m : Nat) : Int).bmod (2 ^ 32))
      (fun _ => False) s := by
  induction fuel generalizing t p k with
  | zero => omega
  | succ fuel ih =>
    rw [refLoop]
    cases t with
    | nil => simp [ptr, blacks]
    | node l a e r =>
      obtain ⟨ha, hl, -⟩ := h
      rw [height] at hfuel
      rw [ptr, if_neg (by simp), wp_bind, wp_load ha, countBlack_bmod]
      refine wp_imp (ih hl (by omega) _) ?_
      rintro ref s' ⟨hs, m, hm, href⟩
      have hk : k + weight e.col + m = k + (m + weight e.col) := by omega
      rw [hk] at href
      exact ⟨hs, m + weight e.col, mem_map_of_mem (mem_append_left _ hm), href⟩

theorem wp_redBelowRed {n : Node (Entry T)} {hole : Ptr} (h : Path.Rep s.1 fs hole)
    (hn : n.parent = Path.ptr fs) (hroot : n.val.col = .red → fs ≠ [])
    {Q : Bool → Heap (Node (Entry T)) × Ptr → Prop} {E : Heap (Node (Entry T)) × Ptr → Prop}
    (hQ : Q (n.val.col = .red ∧ headCol fs = some .red) s) : wp (redBelowRed n) Q E s := by
  unfold redBelowRed
  by_cases hred : n.val.col = .red
  · cases fs with
    | nil => exact absurd rfl (hroot hred)
    | cons f fs =>
      rw [if_pos hred, wp_bind, hn, Path.ptr, wp_load h.1, Node.val_of, wp_pure]
      simpa [hred, headCol] using hQ
  · rw [if_neg hred, wp_pure]
    simpa [hred] using hQ

structure Checked (fs : Path (Entry T)) (t : BinTree (Entry T)) (k : Nat) (ref : Int) : Prop where
  above : ¬ (color t = .red ∧ headCol fs = some .red)
  noRedRed : NoRedRed t
  paths : ∀ m ∈ blacks t, ((k + m : Nat) : Int).bmod (2 ^ 32) = ref

theorem checked_nil {k : Nat} {ref : Int} :
    Checked fs (.nil : BinTree (Entry T)) k ref ↔ (k : Int).bmod (2 ^ 32) = ref := by
  constructor
  · intro h
    exact h.paths 0 mem_cons_self
  · intro h
    have hred : ¬ (color (.nil : BinTree (Entry T)) = .red ∧ headCol fs = some .red) :=
      fun hred => Color.noConfusion hred.1
    exact ⟨hred, trivial, by simpa [blacks] using h⟩

theorem checked_node {l r : BinTree (Entry T)} {a k : Nat} {e : Entry T} {ref : Int} :
    Checked fs (.node l a e r) k ref ↔ ¬ (e.col = .red ∧ headCol fs = some .red) ∧
      Checked (⟨.left, a, e, r⟩ :: fs) l (k + weight e.col) ref ∧
      Checked (⟨.right, a, e, l⟩ :: fs) r (k + weight e.col) ref := by
  -- what is counted at the node is counted above its children
  have hk : ∀ m, k + (m + weight e.col) = k + weight e.col + m := fun m => by omega
  have hblack : ∀ c : Color, ¬ (c = .red ∧ some e.col = some .red) ↔
      (e.col = .red → c = .black) := fun c => by cases c <;> simp
  constructor
  · intro ⟨habove, ⟨hred, hl, hr⟩, hpaths⟩
    refine ⟨habove, ⟨(hblack _).mpr fun he => (hred he).1, hl, fun m hm => ?_⟩,
      ⟨(hblack _).mpr fun he => (hred he).2, hr, fun m hm => ?_⟩⟩
    · rw [← hk]
      exact hpaths _ (mem_map_of_mem (mem_append_left _ hm))
    · rw [← hk]
      exact hpaths _ (mem_map_of_mem (mem_append_right _ hm))
  · intro ⟨habove, ⟨hal, hl, hpl⟩, ⟨har, hr, hpr⟩⟩
    refine ⟨habove, ⟨fun he => ⟨(hblack _).mp hal he, (hblack _).mp har he⟩, hl, hr⟩,
      fun m hm => ?_⟩
    obtain ⟨j, hj, rfl⟩ := mem_map.mp hm
    rw [hk]
    rcases mem_append.mp hj with hj | hj
    · exact hpl j hj
    · exact hpr j hj

theorem wp_check (h : Linked s fs t) (hroot : color t = .red → fs ≠ []) (hfuel : t.height < fuel)
    (k : Nat) (ref : Int) :
    wp (check fuel t.ptr ((k : Int).bmod (2 ^ 32)) ref)
      (fun res s' => s' = s ∧ (res.1 = true ↔ Checked fs t k ref)) (fun _ => False) s := by
  induction fuel generalizing fs t k with
  | zero => omega
  | succ fuel ih =>
    rw [check]
    cases t with
    | nil =>
      rw [ptr, if_pos rfl, checked_nil, wp_ite, wp_pure, wp_pure]
      simp
    | node l a e r =>
      have hl : Linked s (⟨.left, a, e, r⟩ :: fs) l := linked_near.mp h
      have hr : Linked s (⟨.right, a, e, l⟩ :: fs) r := linked_far (d := .left).mp h
      rw [height] at hfuel
      rw [ptr, if_neg (by simp), wp_bind, wp_load h.rep.1, wp_bind, checked_node]
      refine wp_redBelowRed h.path rfl hroot ?_
      rw [wp_ite]
      refine ⟨fun hred => ?_, fun hred => ?_⟩
      · rw [wp_pure]
        exact ⟨rfl, fun hfalse => Bool.noConfusion hfalse,
          fun hchecked => absurd (of_decide_eq_true hred) hchecked.1⟩
      · have hnot : ¬ (e.col = .red ∧ headCol fs = some .red) := by simpa using hred
        rw [wp_bind, countBlack_bmod]
        refine wp_imp (ih hl (fun _ => by simp) (by omega) _) ?_
        rintro left s' ⟨rfl, hleft⟩
        -- the right subtree is looked at only if the left one has passed
        rw [wp_ite, wp_bind, wp_pure]
        refine ⟨fun htrue => ?_, fun hfalse => ?_⟩
        · refine wp_imp (ih hr (fun _ => by simp) (by omega) _) ?_
          rintro right s' ⟨rfl, hright⟩
          rw [wp_pure]
          exact ⟨rfl, hright.trans ⟨fun hc => ⟨hnot, hleft.mp htrue, hc⟩, fun hc => hc.2.2⟩⟩
        · exact ⟨rfl, fun htrue => absurd htrue hfalse, fun hc => absurd (hleft.mpr hc.2.1) hfalse⟩

theorem checked_root {m : Nat} (hm : m ∈ blacks t) (hsize : t.inorder.length ≤ 2 ^ 64) :
    Checked [] t 0 ((m : Int).bmod (2 ^ 32)) ↔ NoRedRed t ∧ ∃ n, BlackHeight t n := by
  constructor
  · intro ⟨_, hred, hpaths⟩
    have hmod : ∀ j ∈ blacks t, j ≡ m [MOD 2 ^ 32] := fun j hj => by
      have hbmod := congrArg (· % ((2 ^ 32 : Nat) : Int)) (hpaths j hj)
      simp only [Nat.zero_add, Int.bmod_emod] at hbmod
      exact_mod_cast hbmod
    refine ⟨hred, exists_blackHeight (fun i hi j hj => (hmod i hi).trans (hmod j hj).symm) ?_⟩
    calc t.inorder.length + 1 < 2 ^ 65 := by omega
      _ ≤ 2 ^ 2 ^ 32 := Nat.pow_le_pow_right two_pos (by decide)
  · intro ⟨hred, n, hn⟩
    refine ⟨fun habove => by simp [headCol] at habove, hred, fun j hj => ?_⟩
    rw [Nat.zero_add, blacks_of_blackHeight hn j hj, blacks_of_blackHeight hn m hm]

theorem wp_isRBTree (h : Linked s [] t) (hsize : t.inorder.length ≤ 2 ^ 64)
    (hfuel : t.height < fuel) :
    wp (isRBTree fuel) (fun res s' => s' = s ∧ (res.1 = true ↔
      t = .nil ∨ color t = .black ∧ NoRedRed t ∧ ∃ n, BlackHeight t n)) (fun _ => False) s := by
  have hroot : s.2 = t.ptr := h.root
  unfold isRBTree
  rw [wp_bind, wp_getObj, hroot]
  cases t with
  | nil => simp [ptr]
  | node l a e r =>
    rw [ptr, if_neg (by simp), wp_bind, wp_load h.rep.1, wp_ite]
    refine ⟨fun hred => ?_, fun hblack => ?_⟩
    · have hcol : e.col = .red := hred
      rw [wp_pure]
      simp [color, hcol]
    · have hcol : color (.node l a e r) = .black := by
        cases hc : e.col with
        | red => exact absurd hc hblack
        | black => exact hc
      -- the root is black, so that `check` does not look for its parent
      have hred : color (.node l a e r) = .red → ([] : Path (Entry T)) ≠ [] :=
        fun hred => Color.noConfusion (hcol.symm.trans hred)
      rw [wp_bind]
      refine wp_imp (wp_refLoop h.rep hfuel 0) ?_
      rintro ref s' ⟨hs, m, hm, href⟩
      rw [hs, href, Nat.zero_add]
      refine wp_imp (wp_check h hred hfuel 0 _) ?_
      rintro res s' ⟨hs, hres⟩
      refine ⟨hs, hres.trans ((checked_root hm hsize).trans ?_)⟩
      simp [hcol]

/-- **The checker**: on every tree of coloured nodes with consistent pointers, at 64-bit
    addresses, `IsRBTree()` returns, without reading through a null pointer, and the answer
    is whether the tree is empty or has a black root, no red node below a red one and the
    same number of black nodes on all paths. -/
theorem isRBTree_accepts_iff (s : Heap (Node (Entry T)) × Ptr) (t : BinTree (Entry T)) (fuel : Nat)
    (h : Linked s [] t) (haddr : s.1.next ≤ 2 ^ 64) (hfuel : t.height < fuel) :
    ∃ ok out, isRBTree fuel s = .ok (ok, out) s ∧
      (ok = true ↔ t = .nil ∨ color t = .black ∧ NoRedRed t ∧ ∃ n, BlackHeight t n) := by
  obtain ⟨⟨ok, out⟩, s', hok, rfl, hres⟩ :=
    exists_of_wp (wp_isRBTree h (h.length_le_next.trans haddr) hfuel)
  exact ⟨ok, out, hok, hres⟩

/-- A black root with two red children. -/
def threeNodes : BinTree (Entry Nat) :=
  .node (.node .nil 1 ⟨3, .red⟩ .nil) 0 ⟨5, .black⟩ (.node .nil 2 ⟨9, .red⟩ .nil)

def threeHeap : Heap (Node (Entry Nat)) × Ptr :=
  (((Heap.empty.alloc ⟨some 1, some 2, none, ⟨5, .black⟩⟩).alloc
    ⟨none, none, some 0, ⟨3, .red⟩⟩).alloc ⟨none, none, some 0, ⟨9, .red⟩⟩, some 0)

theorem isRBTree_accepts_iff_three :
    Linked threeHeap [] threeNodes ∧ ∃ out, isRBTree 3 threeHeap = .ok (true, out) threeHeap := by
  have h : Linked threeHeap [] threeNodes :=
    ⟨⟨rfl, ⟨rfl, trivial, trivial⟩, rfl, trivial, trivial⟩, trivial, by decide, rfl⟩
  obtain ⟨ok, out, hrun, hok⟩ := isRBTree_accepts_iff threeHeap threeNodes 3 h (by decide) (by decide)
  have haccepts : ok = true := hok.mpr (Or.inr ⟨rfl, by simp [threeNodes, NoRedRed, color], 1, 0,
    ⟨0, rfl, rfl, rfl⟩, ⟨0, rfl, rfl, rfl⟩, rfl⟩)
  exact ⟨h, out, haccepts ▸ hrun⟩

end run

end CallLesson.Algorithm.RBTree
