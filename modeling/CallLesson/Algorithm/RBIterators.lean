import CallLesson.Algorithm.RBTree

/-! # The iterators of the red-black tree

    `begin`, `rbegin` and the operators of `RBTree_iterator` and `_reverse_iterator`. A
    step in one direction goes down to the nearest node of the subtree on that side, or,
    where there is none, up to the first node that is reached from its other side. The
    two directions are one program with a side here. `operator--` of `_reverse_iterator`
    is left out: it names a member `right` that a node does not have. -/

namespace CallLesson.Algorithm.RBTree

open LinkedTree HeapM Exec Side

/-! ## Model -/

section model

variable {T : Type}

def extreme (d : Side) : Nat → Ptr → HeapM (Node (Entry T)) Ptr Ptr
  | 0, _ => throw .running
  | fuel + 1, cur => do
      if cur = none then pure cur
      else
        let n ← load cur
        if n.child d = none then pure cur else extreme d fuel (n.child d)

def climb (d : Side) : Nat → Ptr → Ptr → HeapM (Node (Entry T)) Ptr Ptr
  | 0, _, _ => throw .running
  | fuel + 1, cur, parent => do
      if parent = none then pure parent
      else
        let n ← load parent
        if n.child d = cur then
          -- `cur` is moved by its own parent pointer
          let m ← load cur
          climb d fuel m.parent n.parent
        else pure parent

def advance (d : Side) (fuel : Nat) (node : Ptr) : HeapM (Node (Entry T)) Ptr Ptr := do
  let n ← load node
  if n.child d ≠ none then extreme d.other fuel (n.child d)
  else climb d fuel node n.parent

def next (fuel : Nat) (node : Ptr) : HeapM (Node (Entry T)) Ptr Ptr := advance .right fuel node

def prev (fuel : Nat) (node : Ptr) : HeapM (Node (Entry T)) Ptr Ptr := advance .left fuel node

def reverseNext (fuel : Nat) (node : Ptr) : HeapM (Node (Entry T)) Ptr Ptr :=
  advance .left fuel node

def begin (fuel : Nat) : HeapM (Node (Entry T)) Ptr Ptr := do extreme .left fuel (← getObj)

def rbegin (fuel : Nat) : HeapM (Node (Entry T)) Ptr Ptr := do extreme .right fuel (← getObj)

def end_ : HeapM (Node (Entry T)) Ptr Ptr := pure none

def rend : HeapM (Node (Entry T)) Ptr Ptr := pure none

def visit (step : Ptr → HeapM (Node (Entry T)) Ptr Ptr) (last : Ptr) :
    Nat → Ptr → HeapM (Node (Entry T)) Ptr (List (Ptr × T))
  | 0, _ => throw .running
  | fuel + 1, it => do
      if it = last then pure []
      else
        let n ← load it
        let rest ← visit step last fuel (← step it)
        pure ((it, n.val.data) :: rest)

def forward (fuel : Nat) : HeapM (Node (Entry T)) Ptr (List (Ptr × T)) := do
  visit (next fuel) (← end_) fuel (← begin fuel)

def backward (fuel : Nat) : HeapM (Node (Entry T)) Ptr (List (Ptr × T)) := do
  visit (reverseNext fuel) (← rend) fuel (← rbegin fuel)

end model

/-! ## One step -/

open List BinTree

section step

variable {T : Type} {s : Heap (Node (Entry T)) × Ptr} {fs : Path (Entry T)}
  {t near far : BinTree (Entry T)} {d : Side} {a fuel : Nat} {x : Entry T}
  {Q : Ptr → Heap (Node (Entry T)) × Ptr → Prop}

theorem wp_extreme {p : Ptr} (h : t.Rep s.1 p) (hfuel : t.height < fuel)
    (hQ : Q (d.other.along t.addrs).head? s) :
    wp (extreme d fuel t.ptr) Q (fun _ => False) s := by
  induction fuel generalizing t p with
  | zero => omega
  | succ fuel ih =>
    rw [extreme]
    by_cases ht : t = .nil
    · subst ht
      simpa [ptr, addrs] using hQ
    · obtain ⟨near, a, x, far, rfl⟩ := exists_mk d ht
      obtain ⟨hcell, hnear, -⟩ := rep_mk.mp h
      rw [height_mk] at hfuel
      rw [along_other, along_addrs_mk, reverse_append, reverse_cons, ← along_other] at hQ
      rw [ptr_mk, if_neg (by simp), wp_bind, wp_load hcell, Node.child_of]
      by_cases hnil : near = .nil
      · subst hnil
        rw [ptr, if_pos rfl, wp_pure]
        simpa [addrs] using hQ
      · rw [if_neg (ptr_eq_none.not.mpr hnil)]
        refine ih hnear (by omega) ?_
        -- the first node from that side is one of this subtree
        obtain ⟨l, b, y, r, rfl⟩ := exists_mk d hnil
        rw [along_other, along_addrs_mk] at hQ ⊢
        simpa using hQ

theorem wp_climb (h : Linked s fs t) (ht : t ≠ .nil) (hfuel : fs.length < fuel)
    (hQ : Q ((Path.beyond Entry.data d fs).map Prod.fst).head? s) :
    wp (climb d fuel t.ptr (Path.ptr fs)) Q (fun _ => False) s := by
  -- the focus goes up one frame with each turn
  induction fuel generalizing fs t with
  | zero => omega
  | succ fuel ih =>
    rw [climb]
    cases fs with
    | nil =>
      rw [Path.ptr, if_pos rfl, wp_pure]
      exact hQ
    | cons f fs =>
      obtain ⟨hf, hsib, -⟩ := h.path
      rw [Path.ptr, if_neg (by simp), wp_bind, wp_load hf, Node.parent_of]
      rw [Path.beyond] at hQ
      rcases eq_or_eq_other d f.side with hd | hd
      · rw [hd, Node.child_of, if_pos rfl, wp_bind]
        obtain ⟨l, b, y, r, rfl⟩ := exists_mk d ht
        rw [ptr_mk, wp_load h.cell, Node.parent_of, Path.ptr]
        have hup := linked_cons.mp h
        have hne : f.plug (.mk d l b y r) ≠ .nil := fun hnil => by
          have hptr := congrArg ptr hnil
          rw [Frame.plug, ptr_mk] at hptr
          cases hptr
        rw [if_pos hd] at hQ
        have hrest := ih hup hne (by simpa using hfuel) hQ
        rwa [Frame.plug, ptr_mk] at hrest
      · have hsib : f.sib.ptr ≠ t.ptr := fun hptr => by
          obtain ⟨l, b, y, r, rfl⟩ := exists_mk d ht
          have hroot : (mk d l b y r).ptr = some b := ptr_mk
          have hb := addrs_of_ptr hroot
          have hb' := addrs_of_ptr (hptr.trans hroot)
          grind [h.nodup, Path.addrs, nodup_append]
        have hne : f.side ≠ d := fun he => other_ne d (hd.symm.trans he)
        rw [hd, Node.of_other, Node.child_of, if_neg hsib, wp_pure]
        rw [if_neg hne] at hQ
        exact hQ

theorem wp_advance (h : Linked s fs (.mk d near a x far)) (hheight : near.height < fuel)
    (hlength : fs.length < fuel)
    (hQ : Q (d.along near.addrs ++ (Path.beyond Entry.data d fs).map Prod.fst).head? s) :
    wp (advance d fuel (some a)) Q (fun _ => False) s := by
  unfold advance
  rw [wp_bind, wp_load h.cell, Node.child_of, Node.parent_of]
  by_cases hnil : near = .nil
  · subst hnil
    rw [ptr, if_neg (by simp)]
    have hne : mk d .nil a x far ≠ .nil := by cases d <;> simp [mk]
    have hup := wp_climb (d := d) h hne hlength (by simpa [addrs] using hQ)
    rwa [ptr_mk] at hup
  · rw [if_pos (ptr_eq_none.not.mpr hnil)]
    refine wp_extreme (rep_mk.mp h.rep).2.1 hheight ?_
    have hne : d.along near.addrs ≠ [] := fun hempty => by
      obtain ⟨l, b, y, r, rfl⟩ := exists_mk d hnil
      simp [along_addrs_mk] at hempty
    rw [head?_append_of_ne_nil _ hne] at hQ
    rwa [other_other]

theorem wp_advance_of_split {done rest : List Nat} (h : Linked s [] t)
    (hsplit : d.along t.addrs = done ++ a :: rest) (hfuel : t.height < fuel)
    (hQ : Q rest.head? s) : wp (advance d fuel (some a)) Q (fun _ => False) s := by
  have ha : a ∈ t.addrs := by
    rw [← mem_along (d := d), hsplit]
    simp
  obtain ⟨fs, near, x, far, rfl⟩ := Path.exists_plug ha d
  have hheight := Path.length_le_height_plug fs (.mk d near a x far)
  rw [height_mk] at hheight
  have hnodup : (d.along (Path.plug fs (.mk d near a x far)).addrs).Nodup := by
    cases d with
    | left => exact nodup_reverse.mpr h.nodup_addrs
    | right => exact h.nodup_addrs
  -- the nodes in order, split at this one in two ways
  have hsame : d.along (Path.plug fs (.mk d near a x far)).addrs =
      (((Path.beyond Entry.data d.other fs).reverse).map Prod.fst ++ d.along far.addrs) ++
        a :: (d.along near.addrs ++ (Path.beyond Entry.data d fs).map Prod.fst) := by
    rw [← map_fst_places (φ := Entry.data), ← map_along, Path.along_places_plug,
      map_append, map_append, map_along, map_fst_places,
      along_addrs_mk]
    simp
  rw [hsplit] at hnodup
  obtain ⟨-, -, rfl⟩ := (append_cons_inj_of_notMem (by grind) (by grind)).mp
    (hsplit.symm.trans hsame)
  exact wp_advance (linked_plug.mpr h) (by omega) (by omega) hQ

end step

/-! ## Walking through the tree -/

section walk

variable {T : Type} {s : Heap (Node (Entry T)) × Ptr} {t : BinTree (Entry T)} {d : Side}
  {fuel : Nat}

def designated (e : Nat × T) : Ptr × T := (some e.1, e.2)

variable {Q : List (Ptr × T) → Heap (Node (Entry T)) × Ptr → Prop}

theorem wp_visit {steps : Nat} {done rest : List (Nat × T)} (h : Linked s [] t)
    (hheight : t.height < fuel) (hsplit : d.along (t.places Entry.data) = done ++ rest)
    (hsteps : rest.length < steps)
    (hQ : Q (rest.map designated) s) :
    wp (visit (advance d fuel) none steps (rest.map Prod.fst).head?) Q (fun _ => False) s := by
  -- one node of the list with each turn
  induction rest generalizing steps done Q with
  | nil =>
    cases steps with
    | zero => cases hsteps
    | succ steps =>
      rw [visit, map_nil, head?_nil, if_pos rfl, wp_pure]
      exact hQ
  | cons e rest ih =>
    cases steps with
    | zero => cases hsteps
    | succ steps =>
      have hmem : e ∈ t.places Entry.data := by
        rw [← mem_along (d := d), hsplit]
        simp
      obtain ⟨n, hn, hdata⟩ := h.rep.cell_of_places (φ := Entry.data) hmem
      rw [visit, map_cons, head?_cons, if_neg (by simp), wp_bind, wp_load hn, wp_bind]
      have haddrs : d.along t.addrs = done.map Prod.fst ++ e.1 :: rest.map Prod.fst := by
        rw [← map_fst_places (φ := Entry.data), ← map_along, hsplit]
        simp
      refine wp_advance_of_split h haddrs hheight ?_
      rw [wp_bind]
      have hsplit' : d.along (t.places Entry.data) = (done ++ [e]) ++ rest := by simp [hsplit]
      refine ih hsplit' (Nat.lt_of_succ_lt_succ hsteps) ?_
      rw [wp_pure, hdata]
      exact hQ

theorem wp_walk (d : Side) (h : Linked s [] t) (hfuel : (t.items Entry.data).length < fuel)
    (hQ : Q ((d.along (t.places Entry.data)).map designated) s) :
    wp (do visit (advance d fuel) none fuel (← extreme d.other fuel (← getObj))) Q
      (fun _ => False) s := by
  have hlength := length_places (φ := Entry.data) t
  have hheight := t.height_le_length
  rw [items, length_map] at hfuel
  have halong : (d.along (t.places Entry.data)).length = (t.places Entry.data).length := by
    cases d <;> simp [along]
  have hroot : s.2 = t.ptr := h.root
  rw [wp_bind, wp_getObj, wp_bind, hroot]
  refine wp_extreme h.rep (by omega) ?_
  rw [other_other, ← map_fst_places (φ := Entry.data), ← map_along]
  have hsplit : d.along (t.places Entry.data) = [] ++ d.along (t.places Entry.data) := rfl
  exact wp_visit h (by omega) hsplit (by omega) hQ

/-- **Iteration**: in the tree that any insertions have left, the loop from `begin()` to `end()`
    visits every node once, in increasing order of the keys, and the loop from `rbegin()` to
    `rend()` visits the same nodes in the reverse order; and from every node but the last one
    `++` and then `--` lead back to it. -/
theorem iterators_walk_in_order {K : Type} [LinearOrder K] (kot : T → K) (ds : List T)
    (fuel : Nat) (hfuel : ds.length < fuel) :
    ∃ rs s t, ds.mapM (insert kot fuel) (Heap.empty, none) = .ok rs s ∧ Linked s [] t ∧
      t.addrs.Nodup ∧ ((t.items Entry.data).map kot).Pairwise (· < ·) ∧
      forward fuel s = .ok ((t.places Entry.data).map designated) s ∧
      backward fuel s = .ok ((t.places Entry.data).map designated).reverse s ∧
      ∀ a ∈ t.addrs, t.addrs.getLast? ≠ some a →
        (do prev fuel (← next fuel (some a))) s = .ok (some a) s := by
  obtain ⟨rs, s, t, hrun, ht, hcollected, hheight⟩ := exists_inserts kot ds hfuel
  have hlength := lt_of_le_of_lt hcollected.length_le hfuel
  refine ⟨rs, s, t, hrun, ht.linked, ht.linked.nodup_addrs, ht.sorted, ?_, ?_, fun a ha hlast => ?_⟩
  · exact eq_ok_of_wp (wp_walk .right ht.linked hlength ⟨rfl, rfl⟩)
  · exact eq_ok_of_wp (wp_walk .left ht.linked hlength ⟨List.map_reverse, rfl⟩)
  -- forward from `a` to its neighbour `b`, and back along the reversed sequence
  · obtain ⟨done, rest, hsplit⟩ := List.append_of_mem ha
    cases rest with
    | nil => simp [hsplit] at hlast
    | cons b rest =>
      apply eq_ok_of_wp
      rw [wp_bind]
      refine wp_advance_of_split (d := .right) ht.linked hsplit hheight ?_
      have hback : left.along t.addrs = rest.reverse ++ b :: a :: done.reverse := by
        simp [along, hsplit]
      exact wp_advance_of_split ht.linked hback hheight ⟨rfl, rfl⟩

theorem iterators_walk_in_order_three : [3, 1, 2].length < 4 ∧
    ∃ rs s t, [3, 1, 2].mapM (insert (id : Nat → Nat) 4) (Heap.empty, none) = .ok rs s ∧
      Linked s [] t ∧ t.addrs.Nodup ∧ ((t.items Entry.data).map id).Pairwise (· < ·) ∧
      forward 4 s = .ok ((t.places Entry.data).map designated) s ∧
      backward 4 s = .ok ((t.places Entry.data).map designated).reverse s ∧
      ∀ a ∈ t.addrs, t.addrs.getLast? ≠ some a →
        (do prev 4 (← next 4 (some a))) s = .ok (some a) s :=
  ⟨by decide, iterators_walk_in_order id [3, 1, 2] 4 (by decide)⟩

end walk

end CallLesson.Algorithm.RBTree
