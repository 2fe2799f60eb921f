import CallLesson.Framework.Heap

/-! # Singly linked chains

    A chain in the heap is described by the list of its addresses and values. A program
    takes a node out of one chain and puts it into another; each such step is one lemma, in
    which the chains it works on stand first and the others are not looked at. -/

namespace CallLesson.Chain

structure Link (α : Type) where
  val : α
  next : Ptr
  deriving DecidableEq

namespace Link

variable {α : Type}

def setNext (p : Ptr) (n : Link α) : Link α := { n with next := p }

def mapVal (ψ : α → α) (n : Link α) : Link α := { n with val := ψ n.val }

end Link

open List Heap

section segments

variable {α : Type} {h h' : Heap (Link α)} {c l r : List (Nat × α)} {a : Nat} {x : α} {q : Ptr}

def ptrTo (c : List (Nat × α)) (q : Ptr) : Ptr :=
  match c with
  | [] => q
  | e :: _ => some e.1

def ptr (c : List (Nat × α)) : Ptr := ptrTo c none

@[simp] theorem ptr_nil : ptr ([] : List (Nat × α)) = none := rfl

@[simp] theorem ptr_cons (e : Nat × α) : ptr (e :: c) = some e.1 := rfl

/-- The heap holds the nodes of a chain that goes on at `q`. -/
def Seg (h : Heap (Link α)) : List (Nat × α) → Ptr → Prop
  | [], _ => True
  | e :: c, q => h.cells e.1 = some ⟨e.2, ptrTo c q⟩ ∧ Seg h c q

def addrs (c : List (Nat × α)) : List Nat := c.map Prod.fst

@[simp] theorem addrs_nil : addrs ([] : List (Nat × α)) = [] := rfl

@[simp] theorem addrs_cons (e : Nat × α) : addrs (e :: c) = e.1 :: addrs c := rfl

@[simp] theorem addrs_append : addrs (l ++ r) = addrs l ++ addrs r := map_append

theorem mem_addrs_flatten {cs : List (List (Nat × α))} :
    a ∈ addrs cs.flatten ↔ ∃ c ∈ cs, a ∈ addrs c := by
  simp only [addrs, mem_map, mem_flatten]
  grind

theorem ptrTo_append : ptrTo (l ++ r) q = ptrTo l (ptrTo r q) := by
  cases l <;> rfl

theorem seg_append : Seg h (l ++ r) q ↔ Seg h l (ptrTo r q) ∧ Seg h r q := by
  induction l with
  | nil => simp [Seg]
  | cons e l ih =>
    rw [cons_append, Seg, Seg, ih, ptrTo_append]
    tauto

theorem Seg.frame (hagree : ∀ a ∈ addrs c, h'.cells a = h.cells a) (hc : Seg h c q) :
    Seg h' c q := by
  induction c with
  | nil => trivial
  | cons e c ih =>
    obtain ⟨he, hc⟩ := hc
    refine ⟨?_, ih (fun b hb => hagree b (mem_cons_of_mem _ hb)) hc⟩
    rw [hagree e.1 mem_cons_self, he]

theorem Seg.cell_of_mem {e : Nat × α} (hc : Seg h c q) (he : e ∈ c) :
    ∃ p, h.cells e.1 = some ⟨e.2, p⟩ := by
  induction c with
  | nil => cases he
  | cons d c ih =>
    rcases mem_cons.mp he with rfl | he
    · exact ⟨_, hc.1⟩
    · exact ih hc.2 he

def lastPtr (prev : Ptr) : List (Nat × α) → Ptr
  | [] => prev
  | e :: c => lastPtr (some e.1) c

theorem lastPtr_append (prev : Ptr) (c : List (Nat × α)) (e : Nat × α) :
    lastPtr prev (c ++ [e]) = some e.1 := by
  induction c generalizing prev with
  | nil => rfl
  | cons d c ih => exact ih (some d.1)

end segments

/-! ## Chains without common nodes -/

section chains

variable {α : Type} {h : Heap (Link α)} {cs cs' : List (List (Nat × α))}
  {b c l r : List (Nat × α)} {a p : Nat} {x y : α}

/-- Chains that share no node. -/
structure Chains (h : Heap (Link α)) (cs : List (List (Nat × α))) : Prop where
  rep : ∀ c ∈ cs, Seg h c none
  nodup : (addrs cs.flatten).Nodup

namespace Chains

theorem nil (h : Heap (Link α)) : Chains h [] := ⟨nofun, List.Pairwise.nil⟩

theorem perm (hcs : Chains h cs) (hperm : cs.Perm cs') : Chains h cs' where
  rep c hc := hcs.rep c (hperm.mem_iff.mpr hc)
  nodup := (hperm.flatten.map Prod.fst).nodup_iff.mp hcs.nodup

theorem tail (hcs : Chains h (c :: cs)) : Chains h cs where
  rep d hd := hcs.rep d (mem_cons_of_mem c hd)
  nodup := by
    have hnodup := hcs.nodup
    rw [flatten_cons, addrs_append] at hnodup
    exact (nodup_append.mp hnodup).2.1

theorem append_nils (hcs : Chains h cs) (n : Nat) : Chains h (cs ++ List.replicate n []) where
  rep d hd := by
    rcases mem_append.mp hd with hd | hd
    · exact hcs.rep d hd
    · rw [eq_of_mem_replicate hd]
      trivial
  nodup := by simpa using hcs.nodup

theorem lt_next (hcs : Chains h cs) (ha : a ∈ addrs cs.flatten) : a < h.next := by
  obtain ⟨c, hc, hac⟩ := mem_addrs_flatten.mp ha
  obtain ⟨e, he, rfl⟩ := mem_map.mp hac
  obtain ⟨p, hp⟩ := (hcs.rep c hc).cell_of_mem he
  exact lt_next hp

theorem cell_of_mem {e : Nat × α} (hcs : Chains h cs) (he : e ∈ cs.flatten) :
    ∃ p, h.cells e.1 = some ⟨e.2, p⟩ := by
  obtain ⟨c, hc, hec⟩ := mem_flatten.mp he
  exact (hcs.rep c hc).cell_of_mem hec

theorem replace {h' : Heap (Link α)} (hcs : Chains h (c :: cs)) (hb : Seg h' b none)
    (hnodup : (addrs b).Nodup) (hnew : ∀ a ∈ addrs b, a ∉ addrs cs.flatten)
    (hkeep : ∀ a ∈ addrs cs.flatten, h'.cells a = h.cells a) : Chains h' (b :: cs) where
  rep d hd := by
    rcases mem_cons.mp hd with rfl | hd
    · exact hb
    · exact (hcs.rep d (mem_cons_of_mem _ hd)).frame fun a ha =>
        hkeep a (mem_addrs_flatten.mpr ⟨d, hd, ha⟩)
  nodup := by
    have hrest := hcs.nodup
    rw [flatten_cons, addrs_append] at hrest ⊢
    refine nodup_append.mpr ⟨hnodup, (nodup_append.mp hrest).2.1, fun a ha b hb hab => ?_⟩
    exact hnew a ha (hab ▸ hb)

theorem head (hcs : Chains h (((a, x) :: b) :: cs)) : h.cells a = some ⟨x, ptr b⟩ :=
  (hcs.rep _ mem_cons_self).1

theorem free (hcs : Chains h (((a, x) :: b) :: cs)) : Chains (h.free a) (b :: cs) := by
  have hnd := hcs.nodup
  simp only [flatten_cons, cons_append, addrs_cons, addrs_append] at hnd
  refine hcs.replace ?_ ?_ ?_ fun i hi => free_ne _ ?_
  · refine (hcs.rep _ mem_cons_self).2.frame fun i hi => free_ne _ ?_
    grind
  all_goals grind [nodup_append]

theorem push (hcs : Chains h (c :: cs)) (x : α) :
    Chains ((h.alloc ⟨x, none⟩).update h.next (Link.setNext (ptr c))) (((h.next, x) :: c) :: cs) := by
  have hnd := hcs.nodup
  have hlt : ∀ i ∈ addrs c ++ addrs cs.flatten, i ≠ h.next := fun i hi =>
    (hcs.lt_next (by simpa using hi)).ne
  have hkeep : ∀ i ∈ addrs c ++ addrs cs.flatten,
      ((h.alloc ⟨x, none⟩).update h.next (Link.setNext (ptr c))).cells i = h.cells i := by
    intro i hi
    rw [update_ne _ _ (hlt i hi), alloc_ne _ _ (hlt i hi)]
  simp only [flatten_cons, addrs_append] at hnd
  refine hcs.replace ⟨?_, ?_⟩ ?_ ?_ fun i hi => hkeep i (mem_append_right _ hi)
  · exact update_self (alloc_self h _) _
  · exact (hcs.rep c mem_cons_self).frame fun i hi => hkeep i (mem_append_left _ hi)
  · refine nodup_cons.mpr ⟨fun hn => ?_, (nodup_append.mp hnd).1⟩
    exact hlt _ (mem_append_left _ hn) rfl
  · intro i hi hics
    rcases mem_cons.mp hi with rfl | hi
    · exact hlt _ (mem_append_right _ hics) rfl
    · exact (nodup_append.mp hnd).2.2 i hi i hics rfl

theorem move (hcs : Chains h (((a, x) :: b) :: c :: cs)) :
    Chains (h.update a (Link.setNext (ptr c))) (b :: ((a, x) :: c) :: cs) := by
  have hnd := hcs.nodup
  simp only [flatten_cons, cons_append, addrs_cons, addrs_append] at hnd
  have hkeep : ∀ i ∈ addrs b ++ (addrs c ++ addrs cs.flatten),
      (h.update a (Link.setNext (ptr c))).cells i = h.cells i := by
    intro i hi
    refine update_ne _ _ fun hia => ?_
    exact (nodup_cons.mp hnd).1 (hia ▸ hi)
  refine ⟨fun d hd => ?_, ?_⟩
  · rcases mem_cons.mp hd with rfl | hd
    · exact (hcs.rep _ mem_cons_self).2.frame fun i hi => hkeep i (by simp [hi])
    · rcases mem_cons.mp hd with rfl | hd
      · refine ⟨update_self hcs.head _, ?_⟩
        exact (hcs.rep c (by simp)).frame fun i hi => hkeep i (by simp [hi])
      · refine (hcs.rep d (by simp [hd])).frame fun i hi => hkeep i ?_
        exact mem_append_right _ (mem_append_right _ (mem_addrs_flatten.mpr ⟨d, hd, hi⟩))
  · simp only [flatten_cons, cons_append, addrs_cons, addrs_append]
    exact perm_middle.nodup_iff.mpr hnd

theorem unlink (hcs : Chains h ((l ++ (p, y) :: (a, x) :: r) :: cs)) :
    Chains ((h.update p (Link.setNext (ptr r))).free a) ((l ++ (p, y) :: r) :: cs) := by
  have hnd := hcs.nodup
  simp only [flatten_cons, addrs_append, addrs_cons] at hnd
  have hpa : p ≠ a := by grind [nodup_append]
  have hkeep : ∀ i, i ≠ p → i ≠ a →
      ((h.update p (Link.setNext (ptr r))).free a).cells i = h.cells i := by
    intro i hip hia
    rw [free_ne _ hia, update_ne _ _ hip]
  obtain ⟨hl, hp, ha, hr⟩ := seg_append.mp (hcs.rep _ mem_cons_self)
  refine hcs.replace (seg_append.mpr ⟨?_, ?_, ?_⟩) ?_ ?_ fun i hi => hkeep i ?_ ?_
  · refine hl.frame fun i hi => hkeep i ?_ ?_ <;> grind [nodup_append]
  · rw [free_ne _ hpa, update_self hp]
    rfl
  · refine hr.frame fun i hi => hkeep i ?_ ?_ <;> grind [nodup_append]
  all_goals grind [nodup_append, addrs_append, addrs_cons]

theorem mapVal (hcs : Chains h ((l ++ (a, x) :: r) :: cs)) (ψ : α → α) :
    Chains (h.update a (Link.mapVal ψ)) ((l ++ (a, ψ x) :: r) :: cs) := by
  have hnd := hcs.nodup
  simp only [flatten_cons, addrs_append, addrs_cons] at hnd
  obtain ⟨hl, ha, hr⟩ := seg_append.mp (hcs.rep _ mem_cons_self)
  refine hcs.replace (seg_append.mpr ⟨?_, ?_, ?_⟩) ?_ ?_ fun i hi => update_ne _ _ ?_
  · refine hl.frame fun i hi => update_ne _ _ ?_
    grind [nodup_append]
  · exact update_self ha _
  · refine hr.frame fun i hi => update_ne _ _ ?_
    grind [nodup_append]
  all_goals grind [nodup_append, addrs_append, addrs_cons]

end Chains

end chains

end CallLesson.Chain
