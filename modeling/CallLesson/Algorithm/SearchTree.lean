import CallLesson.Framework.LinkedTree
import CallLesson.Framework.SortedInsert

/-! # The search tree below `RBTree` and `zhc::AVLTree`

    The parts that `RBTree::insert` and `zhc::AVLTree::insert` have in common, over nodes
    with any payload: the search for the place of a key, the new leaf, and the rotations
    `RotateL` and `RotateR`, without the balance factors of `AVLTree`. The rotations are
    mirror images of each other but for the test `ppNode->_left == parent`, which is the
    same in both. -/

namespace CallLesson.Algorithm

open LinkedTree HeapM Exec Node

/-! ## Model -/

section model

variable {α K : Type}

def goes [LT K] (d : Side) (a k : K) : Prop :=
  match d with
  | .left => k < a
  | .right => a < k

instance [LT K] [DecidableLT K] (d : Side) (a k : K) : Decidable (goes d a k) := by
  unfold goes
  cases d <;> infer_instance

def descend [LT K] [DecidableLT K] (key : α → K) (first : Side) (k : K) :
    Nat → Ptr → Ptr → HeapM (Node α) Ptr (Ptr × Ptr)
  | 0, _, _ => throw .running
  | fuel + 1, parent, cur => do
      if cur = none then pure (parent, cur)
      else
        let n ← load cur
        if goes first (key n.val) k then descend key first k fuel cur (n.child first)
        else if goes first.other (key n.val) k then
          descend key first k fuel cur (n.child first.other)
        else pure (parent, cur)

def attach [LT K] [DecidableLT K] (key : α → K) (x : α) (parent : Ptr) :
    HeapM (Node α) Ptr Ptr := do
  let cur ← new ⟨none, none, none, x⟩
  -- the side is found by comparing the keys once more
  let n ← load parent
  store parent (setChild (if key x < key n.val then .left else .right) cur)
  store cur (setParent parent)
  pure cur

def replaceChild (ppNode parent sub : Ptr) : HeapM (Node α) Ptr Unit := do
  if ppNode = none then
    setObj sub
    store sub (setParent none)
  else
    let n ← load ppNode
    store ppNode (setChild (if n.left = parent then .left else .right) sub)
    store sub (setParent ppNode)

def rotate (d : Side) (parent : Ptr) : HeapM (Node α) Ptr Unit := do
  -- `subR` and `subRL` in `RotateL`, `subL` and `subLR` in `RotateR`
  let sub := (← load parent).child d
  let inner := (← load sub).child d.other
  store parent (setChild d inner)
  whenever (inner ≠ none) (store inner (setParent parent))
  -- read before `parent` is moved below `sub`
  let ppNode := (← load parent).parent
  store sub (setChild d.other parent)
  store parent (setParent sub)
  replaceChild ppNode parent sub

def rotateL (parent : Ptr) : HeapM (Node α) Ptr Unit := rotate .right parent

def rotateR (parent : Ptr) : HeapM (Node α) Ptr Unit := rotate .left parent

end model

/-! ## The search -/

open List Heap BinTree Path

variable {D : Type}

section search

variable {α K : Type} [LinearOrder K] {key : α → K} {k : K} {s : Heap (Node α) × Ptr}
  {fs : Path α} {t : BinTree α}

def Around (key : α → K) (k : K) (fs : Path α) : Prop :=
  (∀ y ∈ Path.before fs, key y < k) ∧ ∀ y ∈ Path.after fs, k < key y

variable {a fuel : Nat}

theorem around_cons {d : Side} {near far : BinTree α} {x : α}
    (hsorted : ((Path.plug (⟨d, a, x, far⟩ :: fs) near).inorder.map key).Pairwise (· < ·))
    (h : Around key k fs) (hgoes : goes d (key x) k) :
    Around key k (⟨d, a, x, far⟩ :: fs) := by
  rw [plug, Frame.plug, inorder_plug, pairwise_map] at hsorted
  have hroot := (pairwise_append.mp (pairwise_append.mp hsorted).1).2.1
  cases d with
  | left =>
    have hfar : ∀ y ∈ far.inorder, key x < key y :=
      (pairwise_cons.mp (pairwise_append.mp hroot).2.1).1
    refine ⟨h.1, fun y hy => ?_⟩
    rcases mem_append.mp hy with hy | hy
    · rcases mem_cons.mp hy with rfl | hy
      · exact hgoes
      · exact hgoes.trans (hfar y hy)
    · exact h.2 y hy
  | right =>
    have hfar : ∀ y ∈ far.inorder, key y < key x := fun y hy =>
      (pairwise_append.mp hroot).2.2 y hy x mem_cons_self
    refine ⟨fun y hy => ?_, h.2⟩
    rcases mem_append.mp hy with hy | hy
    · exact h.1 y hy
    · rcases mem_append.mp hy with hy | hy
      · exact (hfar y hy).trans hgoes
      · exact mem_singleton.mp hy ▸ hgoes

theorem eq_of_not_goes {d : Side} {a : K} (h : ¬ goes d a k) (h' : ¬ goes d.other a k) : a = k := by
  cases d with
  | left => exact le_antisymm (not_lt.mp h) (not_lt.mp h')
  | right => exact le_antisymm (not_lt.mp h') (not_lt.mp h)

variable {Q : Ptr × Ptr → Heap (Node α) × Ptr → Prop}

theorem wp_descend (d : Side) (h : Linked s fs t)
    (hsorted : ((Path.plug fs t).inorder.map key).Pairwise (· < ·)) (haround : Around key k fs)
    (hfuel : t.height < fuel)
    (habsent : ∀ gs, Path.plug gs .nil = Path.plug fs t → Around key k gs → Q (Path.ptr gs, none) s)
    (hfound : ∀ gs l a x r, Path.plug gs (.node l a x r) = Path.plug fs t → key x = k →
      Q (Path.ptr gs, some a) s) :
    wp (descend key d k fuel (Path.ptr fs) t.ptr) Q (fun _ => False) s := by
  -- `cur` is the focus; it goes down one level with each unit of fuel
  induction fuel generalizing fs t with
  | zero => omega
  | succ fuel ih =>
    rw [descend]
    by_cases ht : t = .nil
    · subst ht
      simpa [BinTree.ptr] using habsent fs rfl haround
    · obtain ⟨near, a, x, far, rfl⟩ := BinTree.exists_mk d ht
      rw [BinTree.height_mk] at hfuel
      rw [BinTree.ptr_mk, if_neg (by simp), wp_bind, wp_load h.cell, val_of,
        child_of, child_of_other, wp_ite, wp_ite, wp_pure]
      refine ⟨fun hgoes => ?_, fun hgoes => ⟨fun hgoes' => ?_, fun hgoes' => ?_⟩⟩
      · exact ih (linked_near.mp h) hsorted (around_cons hsorted haround hgoes) (by omega)
          habsent hfound
      -- the second test of the loop, which goes to the other side
      · have hplug : Path.plug (⟨d.other, a, x, near⟩ :: fs) far =
            Path.plug fs (.mk d near a x far) := by
          rw [Path.plug, Frame.plug, BinTree.mk_other]
        rw [← hplug] at hsorted habsent hfound
        exact ih (linked_far.mp h) hsorted (around_cons hsorted haround hgoes') (by omega)
          habsent hfound
      · have hx : key x = k := eq_of_not_goes hgoes hgoes'
        cases d with
        | left => exact hfound fs near a x far rfl hx
        | right => exact hfound fs far a x near rfl hx

theorem wp_search {key : D → K} {φ : α → D} (d : Side) {x : D} (h : Linked s [] t)
    (hne : t ≠ .nil) (hsorted : ((t.items φ).map key).Pairwise (· < ·)) (hfuel : t.height < fuel)
    (habsent : ∀ f fs, Path.plug (f :: fs) .nil = t →
      Around (fun e => key (φ e)) (key x) (f :: fs) → Q (some f.addr, none) s)
    (hfound : ∀ fs l a y r, Path.plug fs (.node l a y r) = t → key (φ y) = key x →
      Q (Path.ptr fs, some a) s) :
    wp (descend (fun e => key (φ e)) d (key x) fuel none t.ptr) Q (fun _ => False) s := by
  rw [items, map_map] at hsorted
  refine wp_descend d h hsorted ⟨forall_mem_nil _, forall_mem_nil _⟩ hfuel
    (fun gs hplug haround => ?_) hfound
  cases gs with
  | nil => exact absurd hplug.symm hne
  | cons f gs => exact habsent f gs hplug haround

theorem wp_attach {f : Frame α} {x : α} (h : Linked s (f :: fs) .nil)
    (haround : Around key (key x) (f :: fs)) {Q : Ptr → Heap (Node α) × Ptr → Prop}
    (hQ : ∀ s' a, Linked s' (f :: fs) (.node .nil a x .nil) → Q (some a) s') :
    wp (attach key x (some f.addr)) Q (fun _ => False) s := by
  -- the comparison finds the side on which the search left the last node
  have hside : (if key x < key f.val then Side.left else Side.right) = f.side := by
    cases hs : f.side with
    | left => exact if_pos (haround.2 f.val (by simp [Path.after, hs]))
    | right => exact if_neg (haround.1 f.val (by simp [Path.before, hs])).not_gt
  obtain ⟨hcell, -, -⟩ := h.path
  have hcell' := Heap.alloc_of_some hcell (⟨none, none, none, x⟩ : Node α)
  have hne : s.1.next ≠ f.addr := (Heap.lt_next hcell).ne'
  have hnew := Heap.alloc_self s.1 (⟨none, none, none, x⟩ : Node α)
  rw [← Heap.update_ne _ (setChild f.side (some s.1.next)) hne] at hnew
  unfold attach
  simp only [wp_bind, wp_new, wp_pure]
  refine (wp_load hcell' _).mpr ?_
  rw [val_of, hside]
  refine (wp_store hcell' _ _).mpr ((wp_store hnew _ _).mpr ?_)
  exact hQ _ _ (h.attach x)

theorem sortedInsert_attach (key : D → K) (φ : α → D) (x : α) (a : Nat)
    (haround : Around (fun e => key (φ e)) (key (φ x)) fs) :
    SortedInsert (fun e => key e.2) (a, φ x) ((Path.plug fs .nil).places φ)
      ((Path.plug fs (.node .nil a x .nil)).places φ) true := by
  have hplug := fun t => along_places_plug (φ := φ) .right fs t
  simp only [Side.along, Side.other] at hplug
  rw [hplug, hplug]
  -- the values on both sides are those that the search has compared with
  have hl : ∀ v ∈ (before fs).map φ, key v < key (φ x) := forall_mem_map.mpr haround.1
  have hr : ∀ v ∈ (after fs).map φ, key (φ x) < key v := forall_mem_map.mpr haround.2
  rw [← map_snd_beyond_left, forall_mem_map] at hl
  rw [← map_snd_beyond_right, forall_mem_map] at hr
  have hadded : SortedInsert (fun e : Nat × D => key e.2) (a, φ x)
      ((beyond φ .left fs).reverse ++ beyond φ .right fs) _ true :=
    SortedInsert.added _ _ hl hr
  simpa [places] using hadded

theorem mem_places_plug (φ : α → D) {l r : BinTree α} {x : α} :
    (a, φ x) ∈ (Path.plug fs (.node l a x r)).places φ := by
  have hplug := along_places_plug (φ := φ) .right fs (.node l a x r)
  simp only [Side.along] at hplug
  simp [hplug, places]

theorem mem_items_plug (φ : α → D) {l r : BinTree α} {x : α} :
    φ x ∈ (Path.plug fs (.node l a x r)).items φ := by
  rw [← map_snd_places]
  exact mem_map_of_mem (mem_places_plug φ)

end search

/-! ## What a rotation does -/

section rotation

variable {α : Type} {s : Heap (Node α) × Ptr} {fs : Path α} {g p : Nat}

variable {Q : Unit → Heap (Node α) × Ptr → Prop}

theorem wp_replaceChild {n : Node α} (hpath : Path.Rep s.1 fs (some g))
    (hroot : s.2 = Path.root fs (some g)) (hnodup : (g :: p :: Path.addrs fs).Nodup)
    (hp : s.1.cells p = some n) (hQ : ∀ s' : Heap (Node α) × Ptr, Path.Rep s'.1 fs (some p) →
      s'.2 = Path.root fs (some p) → s'.1.cells p = some (n.setParent (Path.ptr fs)) →
      (∀ a, a ≠ p → a ∉ Path.addrs fs → s'.1.cells a = s.1.cells a) → Q () s') :
    wp (replaceChild (Path.ptr fs) (some g) (some p)) Q (fun _ => False) s := by
  have hgp : g ≠ p := fun h => (List.nodup_cons.mp hnodup).1 (h ▸ List.mem_cons_self)
  have hgfs : g ∉ Path.addrs fs := fun h => (List.nodup_cons.mp hnodup).1 (List.mem_cons_of_mem p h)
  have hpfs : p ∉ Path.addrs fs := (List.nodup_cons.mp (List.nodup_cons.mp hnodup).2).1
  cases fs with
  | nil =>
    simp only [replaceChild, Path.ptr, if_true, wp_bind, wp_setObj]
    refine (wp_store (s := (s.1, some p)) hp _ _).mpr ?_
    exact hQ _ trivial rfl (Heap.update_self hp _) fun a ha _ => Heap.update_ne _ _ ha
  | cons f fs =>
    obtain ⟨hf, hsib, hrest⟩ := hpath
    simp only [Path.addrs, List.mem_cons, List.mem_append, not_or] at hgfs hpfs
    -- the side of the path is found by the pointer to the old child
    have hside : (if (of f.side (some g) f.sib.ptr (Path.ptr fs) f.val).left = some g then
        Side.left else Side.right) = f.side := by
      cases hs : f.side with
      | left => exact if_pos rfl
      | right =>
        apply if_neg
        intro hsibg
        exact hgfs.2.1 (BinTree.addrs_of_ptr hsibg)
    have hfnd : f.addr ∉ f.sib.addrs ++ Path.addrs fs :=
      (List.nodup_cons.mp (List.nodup_cons.mp (List.nodup_cons.mp hnodup).2).2).1
    have hkeep : ∀ a ∈ f.sib.addrs ++ Path.addrs fs, a ≠ f.addr ∧ a ≠ p := by
      intro a ha
      refine ⟨fun h => hfnd (h ▸ ha), fun h => ?_⟩
      rcases List.mem_append.mp ha with ha | ha
      · exact hpfs.2.1 (h ▸ ha)
      · exact hpfs.2.2 (h ▸ ha)
    simp only [replaceChild, Path.ptr, reduceCtorEq, if_false, wp_bind]
    have hp' : (s.1.update f.addr (setChild f.side (some p))).cells p = some n := by
      rw [Heap.update_ne _ _ hpfs.1, hp]
    rw [wp_load hf, hside, wp_store hf]
    refine (wp_store hp' _ _).mpr ?_
    refine hQ _ ⟨?_, hsib.frame fun a ha => ?_, hrest.frame fun a ha => ?_⟩ hroot ?_
      fun a ha hafs => ?_
    · rw [Heap.update_ne _ _ (Ne.symm hpfs.1), Heap.update_self hf, setChild_of]
    · obtain ⟨haf, hap⟩ := hkeep a (List.mem_append_left _ ha)
      rw [Heap.update_ne _ _ hap, Heap.update_ne _ _ haf]
    · obtain ⟨haf, hap⟩ := hkeep a (List.mem_append_right _ ha)
      rw [Heap.update_ne _ _ hap, Heap.update_ne _ _ haf]
    · exact Heap.update_self hp' _
    · simp only [Path.addrs, List.mem_cons, not_or] at hafs
      rw [Heap.update_ne _ _ ha, Heap.update_ne _ _ hafs.1]

variable {d : Side} {A B C : BinTree α} {x y : α}

def moved (d : Side) (g : Nat) (inner : Ptr) (h : Heap (Node α)) : Heap (Node α) :=
  (h.update g (setChild d inner)).updateAt inner (setParent (some g))

def turned (d : Side) (g p : Nat) (inner : Ptr) (h : Heap (Node α)) : Heap (Node α) :=
  ((moved d g inner h).update p (setChild d.other (some g))).update g (setParent (some p))

theorem turned_ne (h : Heap (Node α)) {b : Nat} (hg : b ≠ g) (hp : b ≠ p) (hB : b ∉ B.addrs) :
    (turned d g p B.ptr h).cells b = h.cells b := by
  have hptr : B.ptr ≠ some b := fun hptr => hB (addrs_of_ptr hptr)
  rw [turned, update_ne _ _ hg, update_ne _ _ hp, moved, updateAt_ne _ _ hptr, update_ne _ _ hg]

theorem nodup_rotate {rest : List Nat} :
    ((BinTree.mk d (.mk d A p x B) g y C).addrs ++ rest).Nodup ↔
      (g :: p :: (A.addrs ++ (B.addrs ++ (C.addrs ++ rest)))).Nodup := by
  have hperm : ((mk d A p x B).addrs ++ (C.addrs ++ rest)).Perm
      (p :: (A.addrs ++ (B.addrs ++ (C.addrs ++ rest)))) := by
    simpa using (addrs_mk (d := d) (x := x)).append_right (C.addrs ++ rest)
  rw [nodup_mk, (hperm.cons g).nodup_iff]

variable (h : Linked s fs (.mk d (.mk d A p x B) g y C))

include h

theorem moved_cells : (moved d g B.ptr s.1).cells g = some (of d B.ptr C.ptr (Path.ptr fs) y) ∧
      (moved d g B.ptr s.1).cells p = some (of d A.ptr B.ptr (some g) x) ∧
      B.Rep (moved d g B.ptr s.1) (some g) := by
  have hnd := nodup_rotate.mp h.nodup
  obtain ⟨hg, hsub, hC⟩ := rep_mk.mp h.rep
  obtain ⟨hp, hA, hB⟩ := rep_mk.mp hsub
  have hgp : p ≠ g := by grind
  have hgB : B.ptr ≠ some g := fun hptr => by grind [addrs_of_ptr hptr]
  have hpB : B.ptr ≠ some p := fun hptr => by grind [addrs_of_ptr hptr]
  rw [ptr_mk] at hg
  refine ⟨?_, ?_, BinTree.Rep.setParent (p := some p) ?_ ?_ _⟩
  · rw [moved, updateAt_ne _ _ hgB, update_self hg, setChild_of]
  · rw [moved, updateAt_ne _ _ hpB, update_ne _ _ hgp, hp]
  · refine hB.frame fun b hb => update_ne _ _ ?_
    grind
  · grind [nodup_append]

theorem turned_cells : (turned d g p B.ptr s.1).cells g = some (of d B.ptr C.ptr (some p) y) ∧
      (turned d g p B.ptr s.1).cells p = some (of d A.ptr (some g) (some g) x) ∧
      B.Rep (turned d g p B.ptr s.1) (some g) := by
  have hnd := nodup_rotate.mp h.nodup
  obtain ⟨hg, hp, hB⟩ := moved_cells h
  have hgp : p ≠ g := by grind
  refine ⟨?_, ?_, hB.frame fun b hb => ?_⟩
  · rw [← update_ne _ (setChild d.other (some g)) hgp.symm] at hg
    rw [turned, update_self hg, setParent_of]
  · rw [turned, update_ne _ _ hgp, update_self hp, setChild_of_other]
  · have hbg : b ≠ g := by grind
    have hbp : b ≠ p := by grind
    rw [turned, update_ne _ _ hbg, update_ne _ _ hbp]

theorem wp_rotate_turned {E : Heap (Node α) × Ptr → Prop}
    (hQ : wp (replaceChild (Path.ptr fs) (some g) (some p)) Q E (turned d g p B.ptr s.1, s.2)) :
    wp (rotate d (some g)) Q E s := by
  have hnd := nodup_rotate.mp h.nodup
  have hgp : g ≠ p := by grind
  obtain ⟨hg, hsub, hC⟩ := rep_mk.mp h.rep
  obtain ⟨hp, hA, hB⟩ := rep_mk.mp hsub
  obtain ⟨hg', hp', hB'⟩ := moved_cells h
  rw [ptr_mk] at hg
  have hcellB : ∀ b, B.ptr = some b → ∃ n, (s.1.update g (setChild d B.ptr)).cells b = some n := by
    intro b hb
    have hbg : b ≠ g := by grind [addrs_of_ptr hb]
    rw [update_ne _ _ hbg]
    exact hB.cell (addrs_of_ptr hb)
  unfold rotate
  simp only [wp_bind]
  -- `whenever` is `if (subRL)`: an empty subtree has no parent pointer to set
  rw [wp_load hg, child_of, wp_load hp, child_of_other, wp_store hg]
  refine (wp_store_whenever hcellB _ _).mpr ?_
  refine (wp_load (s := (moved d g B.ptr s.1, s.2)) hg' _).mpr ?_
  refine (wp_store (s := (moved d g B.ptr s.1, s.2)) hp' _ _).mpr ?_
  rw [← update_ne _ (setChild d.other (some g)) hgp] at hg'
  refine (wp_store hg' _ _).mpr ?_
  rw [parent_of]
  exact hQ

theorem wp_rotate (hQ : ∀ s', Linked s' fs (.mk d A p x (.mk d B g y C)) → Q () s') :
    wp (rotate d (some g)) Q (fun _ => False) s := by
  have hnd := nodup_rotate.mp h.nodup
  obtain ⟨-, hsub, hC⟩ := rep_mk.mp h.rep
  obtain ⟨-, hA, -⟩ := rep_mk.mp hsub
  obtain ⟨hg, hp, hB⟩ := turned_cells h
  -- the other subtrees and the path are as they were
  have hkeep : ∀ b ∈ A.addrs ++ (C.addrs ++ addrs fs),
      (turned d g p B.ptr s.1).cells b = s.1.cells b := by
    intro b hb
    refine turned_ne s.1 ?_ ?_ ?_ <;> grind [nodup_append]
  have hpath : Path.Rep (turned d g p B.ptr s.1) fs (some g) :=
    (ptr_mk ▸ h.path).frame fun b hb => hkeep b (by simp [hb])
  refine wp_rotate_turned h (wp_replaceChild hpath (ptr_mk ▸ h.root) ?_ hp ?_)
  · grind [nodup_append]
  · intro s' hpath' hroot' hp' hsame
    have hsame' : ∀ b ∈ A.addrs ++ (B.addrs ++ C.addrs),
        s'.1.cells b = (turned d g p B.ptr s.1).cells b := by
      intro b hb
      refine hsame b ?_ ?_ <;> grind [nodup_append]
    -- the node that went up with its outer subtree, and the other one below it
    refine hQ s' ⟨rep_mk.mpr ⟨?_, ?_, rep_mk.mpr ⟨?_, ?_, ?_⟩⟩, ?_, ?_, ?_⟩
    · rw [hp', setParent_of, ptr_mk]
    · refine hA.frame fun b hb => ?_
      rw [hsame' b (by simp [hb]), hkeep b (by simp [hb])]
    · rw [hsame g (by grind) (by grind), hg]
    · exact hB.frame fun b hb => hsame' b (by simp [hb])
    · refine hC.frame fun b hb => ?_
      rw [hsame' b (by simp [hb]), hkeep b (by simp [hb])]
    · rw [ptr_mk]
      exact hpath'
    · rw [addrs_rotate]
      exact h.nodup
    · rw [ptr_mk]
      exact hroot'

end rotation

/-! ## Runs of insertions -/

theorem wp_collect {α β K : Type} [LinearOrder K] {key : D → K} {φ : α → D} (flag : β → Bool)
    {insert : D → HeapM (Node α) Ptr β} {Ok : Heap (Node α) × Ptr → BinTree α → Prop} {fuel : Nat}
    (hnil : Ok (Heap.empty, none) .nil) (hstep : ∀ s t x, Ok s t → t.height < fuel → wp (insert x)
      (fun b s' => ∃ t', Ok s' t' ∧ SortedInsert key x (t.items φ) (t'.items φ) (flag b))
      (fun _ => False) s) {xs : List D} (hfuel : xs.length < fuel) :
    wp (xs.mapM insert) (fun bs s' => ∃ t, Ok s' t ∧ Collected key xs (t.items φ) (bs.map flag))
      (fun _ => False) (Heap.empty, none) := by
  refine wp_mapM (I := fun done bs s => ∃ t, Ok s t ∧
    Collected key done (t.items φ) (bs.map flag)) ⟨.nil, hnil, Collected.nil⟩ ?_
  intro done x rest bs s hxs hinv
  obtain ⟨t, ht, hcollected⟩ := hinv
  -- the tree is not higher than the number of items inserted so far
  have hheight : t.height < fuel := by
    have hlength := hcollected.length_le
    rw [items, length_map] at hlength
    have htotal := congrArg length hxs
    rw [length_append, length_cons] at htotal
    have := t.height_le_length
    omega
  refine wp_imp (hstep s t x ht hheight) (fun b s' hs' => ?_)
  obtain ⟨t', ht', hinsert⟩ := hs'
  refine ⟨t', ht', ?_⟩
  rw [map_append]
  exact hcollected.snoc hinsert

end CallLesson.Algorithm
