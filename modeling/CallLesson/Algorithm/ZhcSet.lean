import CallLesson.Algorithm.RBIterators

/-! # `zhc::set`

    The set over `RBTree`, with the accessors in their two overloads. All of them delegate
    to the tree, whose own overloads have the same text; the one of `rend() const` calls
    `rbegin`. -/

namespace CallLesson.Algorithm.ZhcSet

open LinkedTree HeapM Exec

/-! ## Model -/

section model

variable {K : Type}

def setKeyOFt (k : K) : K := k

def insert [LT K] [DecidableLT K] (fuel : Nat) (key : K) :
    HeapM (Node (Entry K)) Ptr (Ptr × Bool) :=
  RBTree.insert setKeyOFt fuel key

def rbegin (fuel : Nat) : HeapM (Node (Entry K)) Ptr Ptr := RBTree.rbegin fuel

def rend : HeapM (Node (Entry K)) Ptr Ptr := RBTree.rend

def rendConst (fuel : Nat) : HeapM (Node (Entry K)) Ptr Ptr := RBTree.rbegin fuel

def rbeginConst (fuel : Nat) : HeapM (Node (Entry K)) Ptr Ptr := RBTree.rbegin fuel

def begin (fuel : Nat) : HeapM (Node (Entry K)) Ptr Ptr := RBTree.begin fuel

def end_ : HeapM (Node (Entry K)) Ptr Ptr := RBTree.end_

def beginConst (fuel : Nat) : HeapM (Node (Entry K)) Ptr Ptr := RBTree.begin fuel

def endConst : HeapM (Node (Entry K)) Ptr Ptr := RBTree.end_

def elements (walk : HeapM (Node (Entry K)) Ptr (List (Ptr × K))) :
    HeapM (Node (Entry K)) Ptr (List K) := do
  pure ((← walk).map Prod.snd)

def forward (fuel : Nat) : HeapM (Node (Entry K)) Ptr (List K) :=
  elements do RBTree.visit (RBTree.next fuel) (← end_) fuel (← begin fuel)

def forwardConst (fuel : Nat) : HeapM (Node (Entry K)) Ptr (List K) :=
  elements do RBTree.visit (RBTree.next fuel) (← endConst) fuel (← beginConst fuel)

def backward (fuel : Nat) : HeapM (Node (Entry K)) Ptr (List K) :=
  elements do RBTree.visit (RBTree.reverseNext fuel) (← rend) fuel (← rbegin fuel)

def backwardConst (fuel : Nat) : HeapM (Node (Entry K)) Ptr (List K) :=
  elements do RBTree.visit (RBTree.reverseNext fuel) (← rendConst fuel) fuel (← rbeginConst fuel)

end model

/-! ## The four loops -/

section loops

variable {K : Type} {s : Heap (Node (Entry K)) × Ptr} {t : BinTree (Entry K)} {fuel : Nat}

structure Agree (fuel : Nat) (s : Heap (Node (Entry K)) × Ptr) (keys : List K) : Prop where
  forward : forward fuel s = .ok keys s
  forwardConst : forwardConst fuel s = .ok keys s
  backward : backward fuel s = .ok keys.reverse s
  backwardConst : backwardConst fuel s = .ok keys.reverse s

theorem elements_of_walk {walk : HeapM (Node (Entry K)) Ptr (List (Ptr × K))} {l : List (Nat × K)}
    (h : walk s = .ok (l.map RBTree.designated) s) : elements walk s = .ok (l.map Prod.snd) s := by
  have hbind : elements walk s = .ok ((l.map RBTree.designated).map Prod.snd) s := by
    show EStateM.bind walk _ s = _
    rw [EStateM.bind, h]
    rfl
  rw [hbind, List.map_map]
  rfl

theorem forward_eq (h : Linked s [] t) (hfuel : (t.items Entry.data).length < fuel) :
    forward fuel s = .ok (t.items Entry.data) s := by
  rw [← BinTree.map_snd_places]
  exact elements_of_walk (eq_ok_of_wp (RBTree.wp_walk .right h hfuel ⟨rfl, rfl⟩))

theorem backward_eq (h : Linked s [] t) (hfuel : (t.items Entry.data).length < fuel) :
    backward fuel s = .ok (t.items Entry.data).reverse s := by
  rw [← BinTree.map_snd_places, ← List.map_reverse]
  exact elements_of_walk (eq_ok_of_wp (RBTree.wp_walk .left h hfuel ⟨rfl, rfl⟩))

theorem backwardConst_eq (h : Linked s [] t) (hfuel : t.height < fuel) :
    backwardConst fuel s = .ok [] s := by
  have hroot : s.2 = t.ptr := h.root
  obtain ⟨fuel, rfl⟩ := Nat.exists_eq_succ_of_ne_zero (Nat.ne_zero_of_lt hfuel)
  refine elements_of_walk (l := []) (eq_ok_of_wp ?_)
  -- `rend() const` and `rbegin() const` find the same node
  rw [wp_bind, rendConst, RBTree.rbegin, wp_bind, wp_getObj, hroot]
  refine RBTree.wp_extreme h.rep hfuel ?_
  rw [wp_bind, rbeginConst, RBTree.rbegin, wp_bind, wp_getObj, hroot]
  refine RBTree.wp_extreme h.rep hfuel ?_
  rw [RBTree.visit, if_pos rfl, wp_pure]
  exact ⟨rfl, rfl⟩

end loops

/-! ## Sets -/

section sets

variable {K : Type} [LinearOrder K] {ks : List K} {fuel : Nat}

def TraversalsAgree (fuel : Nat) (ks : List K) : Prop :=
  ∃ rs s keys, ks.mapM (insert fuel) (Heap.empty, none) = .ok rs s ∧
    keys.Pairwise (· < ·) ∧ (∀ k, k ∈ keys ↔ k ∈ ks) ∧ Agree fuel s keys

theorem traversals (hfuel : ks.length < fuel) :
    ∃ rs s keys, ks.mapM (insert fuel) (Heap.empty, none) = .ok rs s ∧
      keys.Pairwise (· < ·) ∧ (∀ k, k ∈ keys ↔ k ∈ ks) ∧ forward fuel s = .ok keys s ∧
      forwardConst fuel s = .ok keys s ∧ backward fuel s = .ok keys.reverse s ∧
      backwardConst fuel s = .ok [] s := by
  obtain ⟨rs, s, t, hrun, ht, hcollected, hheight⟩ := RBTree.exists_inserts setKeyOFt ks hfuel
  have hlength := lt_of_le_of_lt hcollected.length_le hfuel
  have hmem : ∀ k, k ∈ t.items Entry.data ↔ k ∈ ks := fun k => by
    have hne := hcollected.forall_ne_iff k
    simpa [setKeyOFt] using hne.not
  have hsorted := ht.sorted
  rw [show (t.items Entry.data).map setKeyOFt = t.items Entry.data from List.map_id _] at hsorted
  have hforward := forward_eq ht.linked hlength
  exact ⟨rs, s, t.items Entry.data, hrun, hsorted, hmem, hforward, hforward,
    backward_eq ht.linked hlength, backwardConst_eq ht.linked hheight⟩

theorem eq_nil_of_agree (hfuel : ks.length < fuel) (h : TraversalsAgree fuel ks) : ks = [] := by
  obtain ⟨rs, s, keys, hrun, -, hmem, hagree⟩ := h
  obtain ⟨rs', s', -, hrun', -, -, -, -, -, hempty⟩ := traversals hfuel
  rw [hrun] at hrun'
  cases hrun'
  have hkeys := hagree.backwardConst.symm.trans hempty
  simp only [EStateM.Result.ok.injEq, List.reverse_eq_nil_iff, and_true] at hkeys
  subst hkeys
  exact List.eq_nil_iff_forall_not_mem.mpr fun k hk => List.not_mem_nil ((hmem k).mpr hk)

/-- **Traversals**: the four loops over a set agree iff nothing has been inserted into it. -/
theorem traversals_agree_iff (ks : List K) (fuel : Nat) (hfuel : ks.length < fuel) :
    TraversalsAgree fuel ks ↔ ks = [] := by
  refine ⟨eq_nil_of_agree hfuel, ?_⟩
  rintro rfl
  obtain ⟨rs, s, keys, hrun, hsorted, hmem, hf, hfc, hb, hbc⟩ := traversals hfuel
  have hkeys : keys = [] := List.eq_nil_iff_forall_not_mem.mpr fun k hk =>
    List.not_mem_nil ((hmem k).mp hk)
  subst hkeys
  exact ⟨rs, s, [], hrun, hsorted, hmem, hf, hfc, hb, hbc⟩

theorem traversals_agree_empty : ([] : List Nat).length < 1 ∧ TraversalsAgree 1 ([] : List Nat) :=
  ⟨by decide, (traversals_agree_iff [] 1 (by decide)).mpr rfl⟩

/-- A set with one key. -/
theorem traversals_disagree : ¬ TraversalsAgree 2 [5] := fun h =>
  List.cons_ne_nil _ _ (eq_nil_of_agree (by decide) h)

end sets

end CallLesson.Algorithm.ZhcSet
