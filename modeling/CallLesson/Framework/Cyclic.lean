import CallLesson.Framework.Chain

/-! # Circular doubly linked lists

    A ring in the heap is described by the addresses and values of its nodes, in order; it
    may be described from any of its nodes on. The lemmas on families of rings are the
    steps that programs make: a ring of one node comes and goes, a node is linked in after
    another or taken out, and rings change their names. -/

namespace CallLesson.Cyclic

open Chain (addrs)

/-- A node of a doubly linked list. -/
structure Node (α : Type) where
  next : Ptr
  prev : Ptr
  data : α
  deriving DecidableEq

namespace Node

variable {α : Type}

/-- The node, pointing forward to `p`. -/
def setNext (p : Ptr) (n : Node α) : Node α := { n with next := p }

/-- The node, pointing back to `p`. -/
def setPrev (p : Ptr) (n : Node α) : Node α := { n with prev := p }

end Node

/-! ## One ring -/

open List Function Heap Chain Node Option

section ring

variable {α : Type} {h h' : Heap (Node α)} {as l r : List Nat} {a p q cur n : Nat}

/-- The nodes at `a` and `b` point to each other. -/
def Adj (h : Heap (Node α)) (a b : Nat) : Prop :=
  h.field next a = some (some b) ∧ h.field prev b = some (some a)

/-- Each node points to the next one and back, and the last one to the first. -/
def IsRing (h : Heap (Node α)) (as : List Nat) : Prop := Cycle.Chain (Adj h) as

theorem isRing_iff : IsRing h as ↔
    as.IsChain (Adj h) ∧ ∀ a ∈ as.getLast?, ∀ b ∈ as.head?, Adj h a b := by
  cases as with
  | nil => simp [IsRing]
  | cons b as =>
    rw [IsRing, Cycle.chain_coe_cons, ← cons_append, isChain_append]
    simp

theorem IsRing.rotate (hring : IsRing h (l ++ r)) : IsRing h (r ++ l) := by
  unfold IsRing at hring ⊢
  rwa [Cycle.coe_eq_coe.mpr isRotated_append]

theorem isChain_of_agree (hchain : as.IsChain (Adj h)) (hnodup : as.Nodup)
    (hnext : ∀ b ∈ as, b ∉ as.getLast? → h'.field next b = h.field next b)
    (hprev : ∀ b ∈ as, b ∉ as.head? → h'.field prev b = h.field prev b) :
    as.IsChain (Adj h') := by
  rw [isChain_iff_forall_rel_of_append_cons_cons] at hchain ⊢
  intro b c l r has
  obtain ⟨hb, hc⟩ := hchain has
  subst has
  have hsplit := nodup_append.mp hnodup
  have hlast : b ∉ (l ++ b :: c :: r).getLast? := by
    rw [getLast?_append_cons, getLast?_cons_cons]
    intro hb
    exact (nodup_cons.mp hsplit.2.1).1 (mem_of_getLast? hb)
  have hfirst : c ∉ (l ++ b :: c :: r).head? := by
    cases l with
    | nil =>
      intro hc
      obtain rfl : b = c := by simpa using hc
      exact (nodup_cons.mp hsplit.2.1).1 mem_cons_self
    | cons d l =>
      intro hc
      obtain rfl : d = c := by simpa using hc
      exact hsplit.2.2 d mem_cons_self d (by simp) rfl
  refine ⟨?_, ?_⟩
  · rw [hnext b (by simp) hlast, hb]
  · rw [hprev c (by simp) hfirst, hc]

theorem IsRing.of_agree (hring : IsRing h as) (hnodup : as.Nodup)
    (hagree : ∀ b ∈ as, h'.cells b = h.cells b) : IsRing h' as := by
  rw [isRing_iff] at hring ⊢
  refine ⟨isChain_of_agree hring.1 hnodup (fun b hb _ => field_congr (hagree b hb))
    (fun b hb _ => field_congr (hagree b hb)), fun b hb c hc => ?_⟩
  obtain ⟨hbc, hcb⟩ := hring.2 b hb c hc
  refine ⟨?_, ?_⟩
  · rw [field_congr (hagree b (mem_of_getLast? hb)), hbc]
  · rw [field_congr (hagree c (mem_of_head? hc)), hcb]

theorem IsRing.link (hring : IsRing h as) (hnodup : as.Nodup) (hp : as.getLast? = some p)
    (hcur : as.head? = some cur) (hpa : Adj h' p a) (hac : Adj h' a cur)
    (hnext : ∀ b ∈ as, b ≠ p → h'.field next b = h.field next b)
    (hprev : ∀ b ∈ as, b ≠ cur → h'.field prev b = h.field prev b) :
    IsRing h' (as ++ [a]) := by
  have hchain : as.IsChain (Adj h') := by
    refine isChain_of_agree (isRing_iff.mp hring).1 hnodup (fun b hb hlast => ?_)
      (fun b hb hfirst => ?_)
    · exact hnext b hb fun hbp => hlast (by simp [hp, hbp])
    · exact hprev b hb fun hbc => hfirst (by simp [hcur, hbc])
  rw [isRing_iff]
  refine ⟨?_, ?_⟩
  · refine hchain.append (isChain_singleton a) fun b hb c hc => ?_
    obtain rfl : p = b := by simpa [hp] using hb
    obtain rfl : a = c := by simpa using hc
    exact hpa
  · intro b hb c hc
    obtain rfl : a = b := by simpa using hb
    obtain rfl : cur = c := by simpa [hcur] using hc
    exact hac

theorem IsRing.unlink (hring : IsRing h (q :: l)) (hnodup : l.Nodup)
    (hp : l.getLast? = some p) (hn : l.head? = some n) (hpn : Adj h' p n)
    (hnext : ∀ b ∈ l, b ≠ p → h'.field next b = h.field next b)
    (hprev : ∀ b ∈ l, b ≠ n → h'.field prev b = h.field prev b) :
    IsRing h' l := by
  rw [isRing_iff]
  refine ⟨?_, ?_⟩
  · refine isChain_of_agree (isRing_iff.mp hring).1.tail hnodup (fun b hb hlast => ?_)
      (fun b hb hfirst => ?_)
    · exact hnext b hb fun hbp => hlast (by simp [hp, hbp])
    · exact hprev b hb fun hbn => hfirst (by simp [hn, hbn])
  · intro b hb c hc
    obtain rfl : p = b := by simpa [hp] using hb
    obtain rfl : n = c := by simpa [hn] using hc
    exact hpn

end ring

/-! ## Families of rings -/

section rings

variable {α ι : Type} {h h' : Heap (Node α)} {R : ι → List (Nat × α)} {i j : ι}
  {l r : List (Nat × α)} {e : Nat × α} {x : α} {a cur p n : Nat}

/-- A family of rings that share no node, to which every node of the heap belongs. -/
structure Rings (h : Heap (Node α)) (R : ι → List (Nat × α)) : Prop where
  ring : ∀ i, IsRing h (addrs (R i))
  data : ∀ i, ∀ e ∈ R i, h.field data e.1 = some e.2
  nodup : ∀ i, (addrs (R i)).Nodup
  owner : ∀ {i j a}, a ∈ addrs (R i) → a ∈ addrs (R j) → i = j
  cover : ∀ {a x}, h.cells a = some x → ∃ i, a ∈ addrs (R i)

namespace Rings

theorem empty : Rings (Heap.empty : Heap (Node α)) fun _ : ι => [] where
  ring _ := Cycle.Chain.nil _
  data _ := nofun
  nodup _ := List.Pairwise.nil
  owner := nofun
  cover := nofun

theorem cell_of_mem (hR : Rings h R) (ha : a ∈ addrs (R i)) : ∃ x, h.cells a = some x := by
  obtain ⟨e, he, rfl⟩ := mem_map.mp ha
  obtain ⟨x, hx, _⟩ := exists_of_field (hR.data i e he)
  exact ⟨x, hx⟩

theorem lt_next (hR : Rings h R) (ha : a ∈ addrs (R i)) : a < h.next := by
  obtain ⟨x, hx⟩ := hR.cell_of_mem ha
  exact Heap.lt_next hx

theorem rename (hR : Rings h R) (σ : Equiv.Perm ι) : Rings h fun i => R (σ i) where
  ring i := hR.ring (σ i)
  data i := hR.data (σ i)
  nodup i := hR.nodup (σ i)
  owner ha hb := σ.injective (hR.owner ha hb)
  cover ha := by
    obtain ⟨i, hi⟩ := hR.cover ha
    refine ⟨σ.symm i, ?_⟩
    rwa [σ.apply_symm_apply]

variable [DecidableEq ι]

theorem replace (hR : Rings h R) (hring : IsRing h' (addrs l))
    (hdata : ∀ e ∈ l, h'.field Node.data e.1 = some e.2) (hnodup : (addrs l).Nodup)
    (hnew : ∀ a ∈ addrs l, a ∈ addrs (R i) ∨ h.cells a = none)
    (hgone : ∀ a ∈ addrs (R i), a ∉ addrs l → h'.cells a = none)
    (hrest : ∀ a, a ∉ addrs (R i) → a ∉ addrs l → h'.cells a = h.cells a) :
    Rings h' (Function.update R i l) := by
  have hother : ∀ {j a}, j ≠ i → a ∈ addrs (R j) → a ∉ addrs (R i) ∧ a ∉ addrs l := by
    intro j a hj ha
    have hnot : a ∉ addrs (R i) := fun hai => hj (hR.owner ha hai)
    refine ⟨hnot, fun hal => ?_⟩
    obtain ⟨x, hx⟩ := hR.cell_of_mem ha
    rcases hnew a hal with hai | hfree
    · exact hnot hai
    · rw [hfree] at hx
      cases hx
  have hagree : ∀ {j a}, j ≠ i → a ∈ addrs (R j) → h'.cells a = h.cells a := fun hj ha =>
    hrest _ (hother hj ha).1 (hother hj ha).2
  constructor
  · intro j
    by_cases hj : j = i
    · subst hj
      rwa [Function.update_self]
    · rw [Function.update_of_ne hj]
      exact (hR.ring j).of_agree (hR.nodup j) fun b hb => hagree hj hb
  · intro j e he
    by_cases hj : j = i
    · subst hj
      rw [Function.update_self] at he
      exact hdata e he
    · rw [Function.update_of_ne hj] at he
      rw [Heap.field_congr (hagree hj (List.mem_map_of_mem he))]
      exact hR.data j e he
  · intro j
    by_cases hj : j = i
    · subst hj
      rwa [Function.update_self]
    · rw [Function.update_of_ne hj]
      exact hR.nodup j
  · intro j k a hj hk
    by_cases hji : j = i <;> by_cases hki : k = i
    · rw [hji, hki]
    · subst hji
      rw [Function.update_self] at hj
      rw [Function.update_of_ne hki] at hk
      exact absurd hj (hother hki hk).2
    · subst hki
      rw [Function.update_self] at hk
      rw [Function.update_of_ne hji] at hj
      exact absurd hk (hother hji hj).2
    · rw [Function.update_of_ne hji] at hj
      rw [Function.update_of_ne hki] at hk
      exact hR.owner hj hk
  · intro a x ha
    by_cases hal : a ∈ addrs l
    · exact ⟨i, by rwa [Function.update_self]⟩
    · have hnot : a ∉ addrs (R i) := fun hai => by
        rw [hgone a hai hal] at ha
        cases ha
      rw [hrest a hnot hal] at ha
      obtain ⟨j, hj⟩ := hR.cover ha
      have hji : j ≠ i := fun hji => hnot (hji ▸ hj)
      exact ⟨j, by rwa [Function.update_of_ne hji]⟩

end Rings

end rings

/-! ## Steps on a family of rings -/

section fields

variable {α : Type} {h : Heap (Node α)} {a b : Nat} {p : Ptr}

@[simp] theorem next_setPrev : (h.update a (setPrev p)).field next b = h.field next b :=
  field_update _ fun _ => rfl

@[simp] theorem prev_setNext : (h.update a (setNext p)).field prev b = h.field prev b :=
  field_update _ fun _ => rfl

@[simp] theorem data_setNext : (h.update a (setNext p)).field data b = h.field data b :=
  field_update _ fun _ => rfl

@[simp] theorem data_setPrev : (h.update a (setPrev p)).field data b = h.field data b :=
  field_update _ fun _ => rfl

theorem next_setNext (ha : (h.cells a).isSome) : (h.update a (setNext p)).field next b =
      if b = a then some p else h.field next b :=
  field_update_const ha fun _ => rfl

theorem prev_setPrev (ha : (h.cells a).isSome) : (h.update a (setPrev p)).field prev b =
      if b = a then some p else h.field prev b :=
  field_update_const ha fun _ => rfl

end fields

section steps

variable {α ι : Type} {h : Heap (Node α)} {R : ι → List (Nat × α)} {i : ι}
  {l r : List (Nat × α)} {e : Nat × α} {x : α} {b p cur q n : Nat}

/-- The heap with a new ring of one node. -/
def ringOf (h : Heap (Node α)) (x : α) : Heap (Node α) :=
  ((h.alloc ⟨none, none, x⟩).update h.next (setNext h.next)).update h.next (setPrev h.next)

/-- A new node between `p` and `cur`. -/
def linkIn (h : Heap (Node α)) (p cur : Nat) (x : α) : Heap (Node α) :=
  ((((h.alloc ⟨none, none, x⟩).update p (setNext h.next)).update h.next
    (setPrev p)).update h.next (setNext cur)).update cur (setPrev h.next)

/-- The node `q` goes, and `p` and `n` point to each other. -/
def linkOut (h : Heap (Node α)) (p n q : Nat) : Heap (Node α) :=
  ((h.update p (setNext n)).update n (setPrev p)).free q

theorem linkIn_ne (hp : b ≠ p) (hcur : b ≠ cur) (hnew : b ≠ h.next) :
    (linkIn h p cur x).cells b = h.cells b := by
  simp [linkIn, hp, hcur, hnew]

theorem linkIn_data : (linkIn h p cur x).field data b =
    if b = h.next then some x else h.field data b := by
  simp [linkIn]

theorem linkIn_next (hp : (h.cells p).isSome) : (linkIn h p cur x).field next b =
    if b = h.next then some (some cur) else if b = p then some (some h.next)
    else h.field next b := by
  simp [linkIn, next_setNext, hp]
  grind

theorem linkIn_prev (hcur : (h.cells cur).isSome) : (linkIn h p cur x).field prev b =
    if b = cur then some (some h.next) else if b = h.next then some (some p)
    else h.field prev b := by
  simp [linkIn, prev_setPrev, hcur]
  grind

theorem linkOut_ne (hp : b ≠ p) (hn : b ≠ n) (hq : b ≠ q) :
    (linkOut h p n q).cells b = h.cells b := by
  simp [linkOut, hp, hn, hq]

theorem linkOut_data (hq : b ≠ q) : (linkOut h p n q).field data b = h.field data b := by
  unfold linkOut
  rw [field_congr (free_ne _ hq), data_setPrev, data_setNext]

theorem linkOut_next (hp : (h.cells p).isSome) (hq : b ≠ q) :
    (linkOut h p n q).field next b =
      if b = p then some (some n) else h.field next b := by
  unfold linkOut
  rw [field_congr (free_ne _ hq), next_setPrev, next_setNext hp]

theorem linkOut_prev (hn : (h.cells n).isSome) (hq : b ≠ q) :
    (linkOut h p n q).field prev b =
      if b = n then some (some p) else h.field prev b := by
  unfold linkOut
  rw [field_congr (free_ne _ hq), prev_setPrev (by simpa using hn), prev_setNext]

section one

variable {l r : List Nat}

theorem IsRing.linkIn (hring : IsRing h (l ++ r)) (hnodup : (l ++ r).Nodup)
    (hsome : ∀ b ∈ l ++ r, (h.cells b).isSome) (hp : l.getLast? = some p)
    (hcur : (r ++ l).head? = some cur) : IsRing (linkIn h p cur x) (l ++ h.next :: r) := by
  have hcomm : ∀ b, b ∈ r ++ l ↔ b ∈ l ++ r := fun b => perm_append_comm.mem_iff
  have hlast : (r ++ l).getLast? = some p := by
    rw [getLast?_append, hp]
    rfl
  have hps := hsome p (mem_append_left _ (mem_of_getLast? hp))
  have hcs := hsome cur ((hcomm cur).mp (mem_of_head? hcur))
  have hne : ∀ b, (h.cells b).isSome → b ≠ h.next := by
    intro b hb hbn
    rw [hbn, h.fresh _ le_rfl] at hb
    cases hb
  have hpa : Adj (Cyclic.linkIn h p cur x) p h.next := by
    refine ⟨?_, ?_⟩
    · rw [linkIn_next hps, if_neg (hne p hps), if_pos rfl]
    · rw [linkIn_prev hcs, if_neg (hne cur hcs).symm, if_pos rfl]
  have hac : Adj (Cyclic.linkIn h p cur x) h.next cur := by
    refine ⟨?_, ?_⟩
    · rw [linkIn_next hps, if_pos rfl]
    · rw [linkIn_prev hcs, if_pos rfl]
  -- read from the node after the new one on, the new node is the last
  have hlinked : IsRing (Cyclic.linkIn h p cur x) (r ++ l ++ [h.next]) := by
    refine hring.rotate.link (perm_append_comm.nodup_iff.mp hnodup) hlast hcur hpa hac
      (fun b hb hbp => ?_) fun b hb hbc => ?_
    · rw [linkIn_next hps, if_neg (hne b (hsome b ((hcomm b).mp hb))), if_neg hbp]
    · rw [linkIn_prev hcs, if_neg hbc, if_neg (hne b (hsome b ((hcomm b).mp hb)))]
  rw [append_assoc] at hlinked
  simpa using hlinked.rotate

theorem IsRing.linkOut (hring : IsRing h (l ++ q :: r)) (hq : q ∉ l ++ r)
    (hnodup : (l ++ r).Nodup) (hsome : ∀ b ∈ l ++ r, (h.cells b).isSome)
    (hp : (r ++ l).getLast? = some p) (hn : (r ++ l).head? = some n) :
    IsRing (linkOut h p n q) (l ++ r) := by
  have hcomm : ∀ b, b ∈ r ++ l ↔ b ∈ l ++ r := fun b => perm_append_comm.mem_iff
  have hpmem := (hcomm p).mp (mem_of_getLast? hp)
  have hnmem := (hcomm n).mp (mem_of_head? hn)
  have hne : ∀ b ∈ l ++ r, b ≠ q := fun b hb hbq => hq (hbq ▸ hb)
  have hpn : Adj (Cyclic.linkOut h p n q) p n := by
    refine ⟨?_, ?_⟩
    · rw [linkOut_next (hsome p hpmem) (hne p hpmem), if_pos rfl]
    · rw [linkOut_prev (hsome n hnmem) (hne n hnmem), if_pos rfl]
  have hunlinked : IsRing (Cyclic.linkOut h p n q) (r ++ l) := by
    refine IsRing.unlink hring.rotate (perm_append_comm.nodup_iff.mp hnodup) hp hn hpn
      (fun b hb hbp => ?_) fun b hb hbn => ?_
    · rw [linkOut_next (hsome p hpmem) (hne b ((hcomm b).mp hb)), if_neg hbp]
    · rw [linkOut_prev (hsome n hnmem) (hne b ((hcomm b).mp hb)), if_neg hbn]
  exact hunlinked.rotate

end one

namespace Rings

theorem isSome_of_mem (hR : Rings h R) (hb : b ∈ addrs (R i)) : (h.cells b).isSome :=
  isSome_iff_exists.mpr (hR.cell_of_mem hb)

theorem adj (hR : Rings h R) (hi : R i = l ++ r) (hp : (addrs l).getLast? = some p)
    (hcur : (addrs (r ++ l)).head? = some cur) : Adj h p cur := by
  have hring := hR.ring i
  rw [hi, addrs_append] at hring
  refine (isRing_iff.mp hring.rotate).2 p ?_ cur ?_
  · rw [getLast?_append, hp]
    rfl
  · rwa [← addrs_append]

variable [DecidableEq ι]

theorem add (hR : Rings h R) (hi : R i = []) (x : α) :
    Rings (ringOf h x) (Function.update R i [(h.next, x)]) := by
  have hnew : (ringOf h x).cells h.next = some ⟨some h.next, some h.next, x⟩ :=
    update_self (update_self (alloc_self _ _) _) _
  refine hR.replace ?_ ?_ (nodup_singleton _) ?_ ?_ ?_
  · refine (Cycle.chain_singleton _ _).mpr ⟨?_, ?_⟩
    · exact field_of_some hnew
    · exact field_of_some hnew
  · intro e he
    rw [mem_singleton] at he
    subst he
    exact field_of_some hnew
  · intro a ha
    obtain rfl : a = h.next := mem_singleton.mp ha
    exact Or.inr (h.fresh _ le_rfl)
  · rw [hi]
    exact nofun
  · intro a _ ha
    have hne : a ≠ h.next := fun hah => ha (mem_singleton.mpr hah)
    simp [ringOf, hne]

theorem remove (hR : Rings h R) (hi : R i = [e]) : Rings (h.free e.1) (Function.update R i []) := by
  refine hR.replace (Cycle.Chain.nil _) nofun List.Pairwise.nil nofun ?_ ?_
  · intro a ha _
    rw [hi] at ha
    obtain rfl : a = e.1 := mem_singleton.mp ha
    exact Dict.erase_self _ _
  · intro a ha _
    rw [hi] at ha
    exact free_ne _ fun hae => ha (mem_singleton.mpr hae)

theorem link (hR : Rings h R) (hi : R i = l ++ r) (hp : (addrs l).getLast? = some p)
    (hcur : (addrs (r ++ l)).head? = some cur) (x : α) :
    Rings (linkIn h p cur x) (Function.update R i (l ++ (h.next, x) :: r)) := by
  have hnodup := hR.nodup i
  have hring := hR.ring i
  have hsome : ∀ b ∈ addrs (R i), (h.cells b).isSome := fun b hb => hR.isSome_of_mem hb
  have hfresh : ∀ b ∈ addrs (R i), b ≠ h.next := fun b hb => (hR.lt_next hb).ne
  have hdata := hR.data i
  have hpmem : p ∈ addrs (R i) := by
    rw [hi, addrs_append]
    exact mem_append_left _ (mem_of_getLast? hp)
  have hcurmem : cur ∈ addrs (R i) := by
    have hmem := mem_of_head? hcur
    rw [addrs_append] at hmem
    rw [hi, addrs_append]
    exact mem_append.mpr (mem_append.mp hmem).symm
  have hperm : (l ++ (h.next, x) :: r).Perm ((h.next, x) :: R i) := by
    rw [hi]
    exact perm_middle
  have hmem : ∀ b, b ∈ addrs (l ++ (h.next, x) :: r) ↔ b = h.next ∨ b ∈ addrs (R i) :=
    fun b => ((hperm.map Prod.fst).mem_iff).trans mem_cons
  refine hR.replace ?_ ?_ ?_ ?_ ?_ ?_
  · rw [hi, addrs_append] at hring hnodup hsome
    rw [addrs_append, addrs_cons]
    rw [addrs_append] at hcur
    exact hring.linkIn hnodup hsome hp hcur
  · intro e he
    rw [linkIn_data]
    rcases mem_cons.mp (hperm.mem_iff.mp he) with rfl | he
    · rw [if_pos rfl]
    · rw [if_neg (hfresh _ (mem_map_of_mem he)), hdata e he]
  · refine (hperm.map Prod.fst).nodup_iff.mpr (nodup_cons.mpr ⟨fun hnew => ?_, hnodup⟩)
    exact hfresh _ hnew rfl
  · intro a ha
    rcases (hmem a).mp ha with rfl | ha
    · exact Or.inr (h.fresh _ le_rfl)
    · exact Or.inl ha
  · intro a ha hnot
    exact absurd ((hmem a).mpr (Or.inr ha)) hnot
  · intro a ha hnot
    refine linkIn_ne (fun hap => ha (hap ▸ hpmem)) (fun hac => ha (hac ▸ hcurmem)) fun hah => ?_
    exact hnot ((hmem a).mpr (Or.inl hah))

theorem unlink (hR : Rings h R) (hi : R i = l ++ e :: r) (hp : (addrs (r ++ l)).getLast? = some p)
    (hn : (addrs (r ++ l)).head? = some n) :
    Rings (linkOut h p n e.1) (Function.update R i (l ++ r)) := by
  have hperm : (R i).Perm (e :: (l ++ r)) := by
    rw [hi]
    exact perm_middle
  have hmem : ∀ b, b ∈ addrs (R i) ↔ b = e.1 ∨ b ∈ addrs (l ++ r) := fun b =>
    ((hperm.map Prod.fst).mem_iff).trans mem_cons
  have hnodup : (addrs (e :: (l ++ r))).Nodup := (hperm.map Prod.fst).nodup_iff.mp (hR.nodup i)
  rw [addrs_cons, nodup_cons] at hnodup
  have hsome : ∀ b ∈ addrs (l ++ r), (h.cells b).isSome := fun b hb =>
    hR.isSome_of_mem ((hmem b).mpr (Or.inr hb))
  have hcomm : ∀ b, b ∈ addrs (r ++ l) ↔ b ∈ addrs (l ++ r) := fun b =>
    ((perm_append_comm.map Prod.fst).mem_iff)
  have hpmem := (hcomm p).mp (mem_of_getLast? hp)
  have hnmem := (hcomm n).mp (mem_of_head? hn)
  refine hR.replace ?_ ?_ hnodup.2 ?_ ?_ ?_
  · have hring := hR.ring i
    rw [hi, addrs_append, addrs_cons] at hring
    rw [addrs_append] at hnodup hsome hp hn ⊢
    exact hring.linkOut hnodup.1 hnodup.2 hsome hp hn
  · intro d hd
    have hne : d.1 ≠ e.1 := fun hde => hnodup.1 (hde ▸ mem_map_of_mem hd)
    rw [linkOut_data hne]
    exact hR.data i d (hperm.mem_iff.mpr (mem_cons_of_mem _ hd))
  · exact fun a ha => Or.inl ((hmem a).mpr (Or.inr ha))
  · intro a ha hnot
    obtain rfl := ((hmem a).mp ha).resolve_right hnot
    exact Dict.erase_self _ _
  · intro a ha hnot
    refine linkOut_ne (fun hap => hnot (hap ▸ hpmem)) (fun han => hnot (han ▸ hnmem)) fun hae => ?_
    exact ha ((hmem a).mpr (Or.inl hae))

end Rings

end steps

/-! ## Traversals -/

section traversals

variable {α ι : Type} {h : Heap (Node α)} {R : ι → List (Nat × α)} {i : ι}
  {l : List (Nat × α)} {e : Nat × α} {step : Node α → Ptr} {a stop : Nat}

/-- The nodes from `p` on, up to the node `stop`. -/
def walk (step : Node α → Ptr) (h : Heap (Node α)) (stop : Nat) :
    Nat → Ptr → Option (List (Nat × α))
  | 0, _ => none
  | fuel + 1, p => do
      let a ← p
      if a = stop then some []
      else
        let n ← h.cells a
        let rest ← walk step h stop fuel (step n)
        some ((a, n.data) :: rest)

/-- The nodes behind the node at `a`, until the traversal is back there. -/
def traverse (step : Node α → Ptr) (h : Heap (Node α)) (a fuel : Nat) : Option (List (Nat × α)) :=
  (h.cells a).bind fun n => walk step h a fuel (step n)

theorem walk_eq (hdata : ∀ e ∈ l, h.field data e.1 = some e.2) (hstop : stop ∉ addrs l)
    (hchain : (addrs l ++ [stop]).IsChain fun a b => h.field step a = some (some b))
    {fuel : Nat} (hfuel : l.length < fuel) :
    walk step h stop fuel (addrs l ++ [stop]).head? = some l := by
  induction l generalizing fuel with
  | nil =>
    obtain ⟨fuel, rfl⟩ : ∃ k, fuel = k + 1 := ⟨fuel - 1, by simp at hfuel; omega⟩
    simp [walk]
  | cons e l ih =>
    obtain ⟨fuel, rfl⟩ : ∃ k, fuel = k + 1 := ⟨fuel - 1, by simp at hfuel; omega⟩
    rw [addrs_cons, mem_cons, not_or] at hstop
    rw [addrs_cons, cons_append, isChain_cons] at hchain
    obtain ⟨n, hn, hnd⟩ := exists_of_field (hdata e mem_cons_self)
    have hnext : step n = (addrs l ++ [stop]).head? := by
      obtain ⟨b, hb⟩ : ∃ b, (addrs l ++ [stop]).head? = some b :=
        isSome_iff_exists.mp (by simp)
      have hstep := hchain.1 b hb
      rw [field_of_some hn, some_inj] at hstep
      rw [hstep, hb]
    have hrest := ih (fun d hd => hdata d (mem_cons_of_mem e hd)) hstop.2 hchain.2
      (Nat.lt_of_succ_lt_succ hfuel)
    rw [← hnext] at hrest
    simp [walk, Ne.symm hstop.1, hn, hrest, hnd]

theorem traverse_eq (hdata : ∀ e ∈ l, h.field data e.1 = some e.2) (ha : a ∉ addrs l)
    (hchain : (a :: addrs l ++ [a]).IsChain fun a b => h.field step a = some (some b))
    {fuel : Nat} (hfuel : l.length < fuel) : traverse step h a fuel = some l := by
  rw [cons_append, isChain_cons] at hchain
  obtain ⟨b, hb⟩ : ∃ b, (addrs l ++ [a]).head? = some b := isSome_iff_exists.mp (by simp)
  obtain ⟨n, hn, hnb⟩ := exists_of_field (hchain.1 b hb)
  rw [traverse, hn, bind_some, hnb, ← hb]
  exact walk_eq hdata ha hchain.2 hfuel

namespace Rings

variable {fuel : Nat}

theorem traverse_next (hR : Rings h R) (hi : R i = e :: l) (hfuel : l.length < fuel) :
    traverse next h e.1 fuel = some l := by
  have hdata := hR.data i
  have hnodup := hR.nodup i
  have hring := hR.ring i
  rw [hi] at hdata hnodup hring
  refine traverse_eq (fun d hd => hdata d (mem_cons_of_mem e hd)) (nodup_cons.mp hnodup).1 ?_ hfuel
  exact ((Cycle.chain_coe_cons _ _ _).mp hring).imp fun _ _ hadj => hadj.1

theorem traverse_prev (hR : Rings h R) (hi : R i = e :: l) (hfuel : l.length < fuel) :
    traverse prev h e.1 fuel = some l.reverse := by
  have hdata := hR.data i
  have hnodup := hR.nodup i
  have hring := hR.ring i
  rw [hi] at hdata hnodup hring
  have haddrs : addrs l.reverse = (addrs l).reverse := map_reverse
  refine traverse_eq (fun d hd => hdata d (mem_cons_of_mem e (mem_reverse.mp hd))) ?_
    ?_ (by rwa [length_reverse])
  · rw [haddrs, mem_reverse]
    exact (nodup_cons.mp hnodup).1
  · -- the other way round, the chain is the reverse one
    have hback : e.1 :: addrs l.reverse ++ [e.1] = (e.1 :: (addrs l ++ [e.1])).reverse := by
      rw [haddrs]
      simp
    rw [hback, isChain_reverse]
    exact ((Cycle.chain_coe_cons _ _ _).mp hring).imp fun _ _ hadj => hadj.2

theorem exists_next (hR : Rings h R) (ha : a ∈ addrs (R i)) : ∃ b, Adj h a b := by
  obtain ⟨e, he, rfl⟩ := mem_map.mp ha
  obtain ⟨l, r, hi⟩ := append_of_mem he
  have hsplit : R i = (l ++ [e]) ++ r := by rw [hi, append_assoc, singleton_append]
  obtain ⟨b, hb⟩ : ∃ b, (addrs (r ++ (l ++ [e]))).head? = some b :=
    isSome_iff_exists.mp (by simp)
  exact ⟨b, hR.adj hsplit (by simp) hb⟩

theorem exists_prev (hR : Rings h R) (ha : a ∈ addrs (R i)) : ∃ b, Adj h b a := by
  obtain ⟨e, he, rfl⟩ := mem_map.mp ha
  obtain ⟨l, r, hi⟩ := append_of_mem he
  cases l with
  | nil =>
    -- the node the ring is read from: the last node is before it
    obtain ⟨b, hb⟩ : ∃ b, (addrs (e :: r)).getLast? = some b :=
      isSome_iff_exists.mp (by simp)
    exact ⟨b, hR.adj (hi.trans (append_nil _).symm) hb rfl⟩
  | cons d l =>
    obtain ⟨b, hb⟩ : ∃ b, (addrs (d :: l)).getLast? = some b :=
      isSome_iff_exists.mp (by simp)
    exact ⟨b, hR.adj hi hb rfl⟩

end Rings

end traversals

end CallLesson.Cyclic
