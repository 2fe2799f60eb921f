import CallLesson.Framework.Chain

/-! # Chained hash tables

    What `Hash::HashTable` and `zhc_hash::HashTable` have in common: a vector of chains,
    the search along one of them, the new node in front of one, and the growth, which
    relinks the nodes of the old chains into a vector of twice the size. The first of the
    two classes has pairs for items and takes the key from them directly, the second one
    does it with a functor `kot`; both are instances of the functor here. -/

namespace CallLesson.Algorithm.Chained

open Chain HeapM Exec

/-! ## Model -/

structure HashTable where
  stable : List Ptr
  size : Nat
  deriving DecidableEq

def HashTable.new : HashTable := ⟨List.replicate 10 none, 0⟩

section model

variable {T K : Type} [DecidableEq K] (kot : T → K) (hf : K → Nat)

def bucketAt (table : List Ptr) (i : Nat) : HeapM (Link T) HashTable Ptr :=
  match table[i]? with
  | none => throw (.fault .badAccess)
  | some p => pure p

def findLoop (key : K) : Nat → Ptr → HeapM (Link T) HashTable Ptr
  | 0, _ => throw .running
  | fuel + 1, cur => do
      if cur = none then pure none
      else
        let n ← load cur
        if kot n.val = key then pure cur else findLoop key fuel n.next

def find (fuel : Nat) (key : K) : HeapM (Link T) HashTable Ptr := do
  let t ← getObj
  let index := hf key % t.stable.length
  findLoop kot key fuel (← bucketAt t.stable index)

def relink : Nat → Ptr → List Ptr → HeapM (Link T) HashTable (List Ptr)
  | 0, _, _ => throw .running
  | fuel + 1, cur, newTable => do
      if cur = none then pure newTable
      else
        let n ← load cur
        let index := hf (kot n.val) % newTable.length
        let head ← bucketAt newTable index
        store cur (Link.setNext head)
        relink fuel n.next (newTable.set index cur)

def rehash (fuel : Nat) : Nat → Nat → List Ptr → HeapM (Link T) HashTable (List Ptr)
  | 0, _, newTable => pure newTable
  | left + 1, i, newTable => do
      let cur ← bucketAt (← getObj).stable i
      let newTable ← relink kot hf fuel cur newTable
      let t ← getObj
      setObj { t with stable := t.stable.set i none }
      rehash fuel left (i + 1) newTable

def grow (fuel : Nat) : HeapM (Link T) HashTable Unit := do
  let t ← getObj
  if t.size = t.stable.length then
    let newTable := List.replicate (t.stable.length * 2) none
    let newTable ← rehash kot hf fuel t.stable.length 0 newTable
    setObj { (← getObj) with stable := newTable }
  else pure ()

def add (fuel : Nat) (data : T) : HeapM (Link T) HashTable Ptr := do
  grow kot hf fuel
  let t ← getObj
  let index := hf (kot data) % t.stable.length
  let newnode ← new ⟨data, none⟩
  let head ← bucketAt t.stable index
  store newnode (Link.setNext head)
  setObj { stable := t.stable.set index newnode, size := t.size + 1 }
  pure newnode

end model

/-! ## Tables in the heap -/

open List

section tables

variable {T K : Type} {kot : T → K} {hf : K → Nat} {s : Heap (Link T) × HashTable}
  {bs pre post : List (List (Nat × T))} {b : List (Nat × T)} {e : Nat × T} {k : K}

def Placed (kot : T → K) (hf : K → Nat) (bs : List (List (Nat × T))) : Prop :=
  ∀ i b, bs[i]? = some b → ∀ e ∈ b, hf (kot e.2) % bs.length = i

structure TableOk (kot : T → K) (hf : K → Nat) (s : Heap (Link T) × HashTable)
    (bs : List (List (Nat × T))) : Prop where
  stable : s.2.stable = bs.map ptr
  chains : Chains s.1 bs
  pos : bs ≠ []
  placed : Placed kot hf bs
  unique : (bs.flatten.map fun e => kot e.2).Nodup

theorem exists_bucket (hf : K → Nat) (k : K) (hpos : bs ≠ []) :
    ∃ pre b post, bs = pre ++ b :: post ∧ pre.length = hf k % bs.length := by
  have hlt : hf k % bs.length < bs.length := Nat.mod_lt _ (length_pos_iff.mpr hpos)
  refine ⟨bs.take (hf k % bs.length), bs[hf k % bs.length], bs.drop (hf k % bs.length + 1), ?_, ?_⟩
  · rw [cons_getElem_drop_succ, take_append_drop]
  · rw [length_take, Nat.min_eq_left hlt.le]

theorem wp_bucketAt {table : List Ptr} {i : Nat} {p : Ptr} (h : table[i]? = some p)
    {Q : Ptr → Heap (Link T) × HashTable → Prop} {E : Heap (Link T) × HashTable → Prop} :
    wp (bucketAt table i) Q E s ↔ Q p s := by
  rw [bucketAt, h, wp_pure]

theorem Placed.ne_of_mem (h : Placed kot hf (pre ++ b :: post))
    (hk : pre.length = hf k % (pre ++ b :: post).length) (he : e ∈ (pre ++ post).flatten) :
    kot e.2 ≠ k := by
  rintro rfl
  obtain ⟨c, hc, hec⟩ := mem_flatten.mp he
  rcases mem_append.mp hc with hc | hc
  · obtain ⟨i, hi, hic⟩ := getElem_of_mem hc
    have hplace := h i c (by rw [getElem?_append_left hi, getElem?_eq_getElem hi, hic]) e hec
    omega
  · obtain ⟨i, hi, hic⟩ := getElem_of_mem hc
    have hplace := h (pre.length + 1 + i) c (by simp [Nat.add_assoc, Nat.add_comm 1, hi, hic]) e hec
    omega

theorem placed_nils (n : Nat) : Placed kot hf (List.replicate n ([] : List (Nat × T))) := by
  intro i b hb e he
  rw [eq_of_mem_replicate (mem_of_getElem? hb)] at he
  cases he

theorem Placed.replace {c : List (Nat × T)} (h : Placed kot hf (pre ++ b :: post))
    (hc : ∀ e ∈ c, hf (kot e.2) % (pre ++ b :: post).length = pre.length) :
    Placed kot hf (pre ++ c :: post) := by
  have hset : pre ++ c :: post = (pre ++ b :: post).set pre.length c := by simp
  intro i d hd e he
  rw [hset, length_set]
  rw [hset, getElem?_set] at hd
  split at hd
  · rename_i hi
    rw [if_pos (by simp)] at hd
    cases hd
    rw [← hi]
    exact hc e he
  · exact h i d hd e he

theorem flatten_perm : (pre ++ b :: post).flatten.Perm (b ++ (pre ++ post).flatten) := by
  rw [flatten_append, flatten_cons, flatten_append]
  exact perm_append_comm_assoc _ _ _

theorem flatten_node_perm {l r : List (Nat × T)} :
    (pre ++ (l ++ e :: r) :: post).flatten.Perm (e :: (pre ++ (l ++ r) :: post).flatten) :=
  (flatten_perm.trans (perm_middle.append_right _)).trans (flatten_perm.symm.cons e)

theorem flatten_push_perm :
    (pre ++ (e :: b) :: post).flatten.Perm (e :: (pre ++ b :: post).flatten) :=
  flatten_perm.trans (flatten_perm.symm.cons e)

theorem front_perm {olds : List (List (Nat × T))} :
    (pre ++ b :: post ++ olds).Perm (b :: (pre ++ post ++ olds)) := by
  rw [append_assoc, append_assoc]
  exact perm_middle

theorem TableOk.bucket (h : TableOk kot hf s (pre ++ b :: post)) :
    s.2.stable[pre.length]? = some (ptr b) := by
  rw [h.stable]
  simp

theorem tableOk_new (kot : T → K) (hf : K → Nat) :
    TableOk kot hf (Heap.empty, HashTable.new) (List.replicate 10 []) where
  stable := by simp [HashTable.new]
  chains := (Chains.nil _).append_nils 10
  pos := by simp
  placed := placed_nils 10
  unique := by simp

theorem TableOk.of_perm {s' : Heap (Link T) × HashTable} {bs' : List (List (Nat × T))}
    (h : TableOk kot hf s bs) (hstable : s'.2.stable = bs'.map ptr) (hchains : Chains s'.1 bs')
    (hpos : bs' ≠ []) (hplaced : Placed kot hf bs') (hperm : bs'.flatten.Perm bs.flatten) :
    TableOk kot hf s' bs' :=
  ⟨hstable, hchains, hpos, hplaced, (hperm.map _).nodup_iff.mpr h.unique⟩

end tables

/-! ## Search -/

section search

variable {T K : Type} [DecidableEq K] {kot : T → K} {hf : K → Nat}
  {s : Heap (Link T) × HashTable} {bs : List (List (Nat × T))} {k : K} {fuel : Nat}
  {Q : Ptr → Heap (Link T) × HashTable → Prop}

theorem wp_findLoop {c : List (Nat × T)} (hc : Seg s.1 c none) (hfuel : c.length < fuel)
    (hQ : Q ((c.find? fun e => kot e.2 = k).map Prod.fst) s) :
    wp (findLoop kot k fuel (ptr c)) Q (fun _ => False) s := by
  -- along the chain, with one unit of fuel for each node
  induction c generalizing fuel with
  | nil =>
    cases fuel with
    | zero => cases hfuel
    | succ fuel =>
      rw [findLoop, ptr_nil, if_pos rfl, wp_pure]
      exact hQ
  | cons e c ih =>
    cases fuel with
    | zero => cases hfuel
    | succ fuel =>
      rw [findLoop, ptr_cons, if_neg (by simp), wp_bind, wp_load hc.1]
      by_cases hk : kot e.2 = k
      · rw [if_pos hk, wp_pure]
        simpa [find?_cons, hk] using hQ
      · rw [if_neg hk]
        refine ih hc.2 (Nat.lt_of_succ_lt_succ hfuel) ?_
        simpa [find?_cons, hk] using hQ

theorem wp_find (h : TableOk kot hf s bs) (hfuel : bs.flatten.length < fuel)
    (hQ : Q ((bs.flatten.find? fun e => kot e.2 = k).map Prod.fst) s) :
    wp (find kot hf fuel k) Q (fun _ => False) s := by
  obtain ⟨pre, b, post, rfl, hk⟩ := exists_bucket hf k h.pos
  -- a key can only be in its own bucket
  have hothers : ∀ e ∈ (pre ++ post).flatten, kot e.2 ≠ k := fun e he => h.placed.ne_of_mem hk he
  have hfind : ((pre ++ b :: post).flatten.find? fun e => kot e.2 = k) =
      b.find? fun e => kot e.2 = k := by
    have hpre : (pre.flatten.find? fun e => kot e.2 = k) = none :=
      find?_eq_none.mpr fun e he => by simpa using hothers e (by simp [he])
    have hpost : (post.flatten.find? fun e => kot e.2 = k) = none :=
      find?_eq_none.mpr fun e he => by simpa using hothers e (by simp [he])
    rw [flatten_append, flatten_cons, find?_append, find?_append, hpre, hpost]
    simp
  rw [hfind] at hQ
  have hlength := (flatten_perm : (pre ++ b :: post).flatten.Perm _).length_eq
  rw [length_append] at hlength
  unfold find
  rw [wp_bind, wp_getObj, wp_bind]
  have hindex : hf k % s.2.stable.length = pre.length := by rw [h.stable, length_map, hk]
  rw [hindex, wp_bucketAt h.bucket]
  exact wp_findLoop (h.chains.rep b (by simp)) (by omega) hQ

end search

/-! ## Growth -/

section growth

variable {T K : Type} {kot : T → K} {hf : K → Nat} {s : Heap (Link T) × HashTable}
  {bs nbs olds : List (List (Nat × T))} {b : List (Nat × T)} {fuel : Nat}

variable {Q : List Ptr → Heap (Link T) × HashTable → Prop}

theorem wp_relink (hcs : Chains s.1 (b :: (nbs ++ olds))) (hpos : nbs ≠ [])
    (hplaced : Placed kot hf nbs) (hfuel : b.length < fuel)
    (hQ : ∀ h' nbs', Chains h' (nbs' ++ olds) → nbs'.length = nbs.length → Placed kot hf nbs' →
      nbs'.flatten.Perm (b ++ nbs.flatten) → Q (nbs'.map ptr) (h', s.2)) :
    wp (relink kot hf fuel (ptr b) (nbs.map ptr)) Q (fun _ => False) s := by
  induction b generalizing s nbs fuel with
  | nil =>
    cases fuel with
    | zero => cases hfuel
    | succ fuel =>
      rw [relink, ptr_nil, if_pos rfl, wp_pure]
      exact hQ s.1 nbs hcs.tail rfl hplaced (List.Perm.refl _)
  | cons e b ih =>
    cases fuel with
    | zero => cases hfuel
    | succ fuel =>
      obtain ⟨a, x⟩ := e
      -- the node goes to the front of its bucket in the new table
      obtain ⟨pre, c, post, rfl, hk⟩ := exists_bucket hf (kot x) hpos
      have hindex : hf (kot x) % ((pre ++ c :: post).map ptr).length = pre.length := by
        rw [length_map, hk]
      have hhead : ((pre ++ c :: post).map ptr)[pre.length]? = some (ptr c) := by simp
      have hset : ((pre ++ c :: post).map ptr).set pre.length (some a) =
          (pre ++ ((a, x) :: c) :: post).map ptr := by simp
      rw [relink, ptr_cons, if_neg (by simp), wp_bind, wp_load hcs.head, wp_bind, hindex,
        wp_bucketAt hhead, wp_bind, wp_store hcs.head, hset]
      -- the chains stay apart, and the elements are the same up to their order
      refine ih ?_ (by simp) (hplaced.replace fun e he => ?_) (Nat.lt_of_succ_lt_succ hfuel)
        fun h' nbs' hcs' hlength hplaced' hperm => hQ h' nbs' hcs' ?_ hplaced' (hperm.trans ?_)
      · exact ((hcs.perm (front_perm.cons _)).move).perm (front_perm.symm.cons _)
      · rcases mem_cons.mp he with rfl | he
        · exact hk.symm
        · exact hplaced pre.length c (by simp) e he
      · simpa using hlength
      · exact (flatten_push_perm.append_left b).trans perm_middle

theorem wp_rehash {i : Nat} (hstable : s.2.stable = List.replicate i none ++ bs.map ptr)
    (hcs : Chains s.1 (bs ++ nbs)) (hpos : nbs ≠ []) (hplaced : Placed kot hf nbs)
    (hfuel : bs.flatten.length < fuel)
    (hQ : ∀ s' nbs', s'.2.size = s.2.size → Chains s'.1 nbs' → nbs'.length = nbs.length →
      Placed kot hf nbs' → nbs'.flatten.Perm (bs.flatten ++ nbs.flatten) → Q (nbs'.map ptr) s') :
    wp (rehash kot hf fuel bs.length i (nbs.map ptr)) Q (fun _ => False) s := by
  -- bucket by bucket; the ones behind `i` are empty already
  induction bs generalizing s nbs i with
  | nil =>
    rw [length_nil, rehash, wp_pure]
    exact hQ s nbs rfl hcs rfl hplaced (List.Perm.refl _)
  | cons b bs ih =>
    rw [flatten_cons, length_append] at hfuel
    have hhead : s.2.stable[i]? = some (ptr b) := by
      rw [hstable]
      simp
    have hcs' : Chains s.1 (b :: (nbs ++ bs)) := hcs.perm (perm_append_comm.cons b)
    rw [length_cons, rehash, wp_bind, wp_getObj, wp_bind, wp_bucketAt hhead, wp_bind]
    refine wp_relink hcs' hpos hplaced (by omega) fun h1 nbs1 hcs1 hlength1 hplaced1 hperm1 => ?_
    rw [wp_bind, wp_getObj, wp_bind, wp_setObj]
    refine ih ?_ (hcs1.perm perm_append_comm) ?_ hplaced1 (by omega)
      fun s2 nbs2 hsize2 hcs2 hlength2 hplaced2 hperm2 =>
        hQ s2 nbs2 hsize2 hcs2 (hlength2.trans hlength1) hplaced2 (hperm2.trans ?_)
    · rw [hstable, replicate_succ']
      simp
    · rw [← length_pos_iff, hlength1, length_pos_iff]
      exact hpos
    · rw [flatten_cons, append_assoc]
      exact (hperm1.append_left bs.flatten).trans (perm_append_comm_assoc _ _ _)

theorem wp_grow (h : TableOk kot hf s bs) (hfuel : bs.flatten.length < fuel)
    {Q : Unit → Heap (Link T) × HashTable → Prop}
    (hQ : ∀ s' bs', TableOk kot hf s' bs' → bs'.flatten.Perm bs.flatten → s'.2.size = s.2.size →
      bs'.length = (if s.2.size = bs.length then bs.length * 2 else bs.length) → Q () s') :
    wp (grow kot hf fuel) Q (fun _ => False) s := by
  have hlength : s.2.stable.length = bs.length := by rw [h.stable, length_map]
  unfold grow
  rw [wp_bind, wp_getObj, hlength]
  -- the table grows when it has as many nodes as buckets
  by_cases hfull : s.2.size = bs.length
  · rw [if_pos hfull, wp_bind]
    have hempty : (replicate (bs.length * 2) none : List Ptr) =
        (replicate (bs.length * 2) ([] : List (Nat × T))).map ptr := by simp
    have hpos : 0 < bs.length := length_pos_iff.mpr h.pos
    rw [hempty]
    refine wp_rehash (i := 0) ?_ ?_ ?_ ?_ hfuel fun s1 nbs hsize hcs hlength1 hplaced hperm => ?_
    · simpa using h.stable
    · exact h.chains.append_nils _
    · simp [hpos.ne']
    · exact placed_nils _
    · rw [wp_bind, wp_getObj, wp_setObj]
      rw [length_replicate] at hlength1
      have hperm' : nbs.flatten.Perm bs.flatten := by simpa using hperm
      have hpos' : nbs ≠ [] := by
        rw [← length_pos_iff]
        omega
      exact hQ _ nbs (h.of_perm rfl hcs hpos' hplaced hperm') hperm' hsize
        (hlength1.trans (if_pos hfull).symm)
  · rw [if_neg hfull, wp_pure]
    exact hQ s bs h (List.Perm.refl _) rfl (if_neg hfull).symm

theorem wp_add (h : TableOk kot hf s bs) {x : T} (habsent : ∀ e ∈ bs.flatten, kot e.2 ≠ kot x)
    (hfuel : bs.flatten.length < fuel) {Q : Ptr → Heap (Link T) × HashTable → Prop}
    (hQ : ∀ s' bs' a, TableOk kot hf s' bs' → bs'.flatten.Perm ((a, x) :: bs.flatten) →
      s'.2.size = s.2.size + 1 → (s.2.size ≤ bs.length → s'.2.size ≤ bs'.length) →
      Q (some a) s') :
    wp (add kot hf fuel x) Q (fun _ => False) s := by
  unfold add
  rw [wp_bind]
  refine wp_grow h hfuel fun s1 bs1 h1 hperm1 hsize1 hlength1 => ?_
  -- after the growth there is room for one more node
  have hroom : s.2.size ≤ bs.length → s.2.size + 1 ≤ bs1.length := by
    have hpos := length_pos_iff.mpr h.pos
    intro hload
    split at hlength1 <;> omega
  obtain ⟨pre, b, post, rfl, hk⟩ := exists_bucket hf (kot x) h1.pos
  have hindex : hf (kot x) % s1.2.stable.length = pre.length := by
    rw [h1.stable, length_map, hk]
  -- after the growth the key has a bucket, and the new node becomes its head
  have hpush := (h1.chains.perm perm_middle).push x
  rw [wp_bind, wp_getObj, hindex, wp_bind, wp_new, wp_bind, wp_bucketAt h1.bucket, wp_bind]
  refine (wp_store (Heap.alloc_self s1.1 _) _ _).mpr ?_
  rw [wp_bind, wp_setObj, wp_pure]
  have hperm : (pre ++ ((s1.1.next, x) :: b) :: post).flatten.Perm
      ((s1.1.next, x) :: bs.flatten) := flatten_push_perm.trans (hperm1.cons _)
  refine hQ _ _ s1.1.next ⟨?_, hpush.perm perm_middle.symm, by simp, ?_, ?_⟩ hperm
    (congrArg (· + 1) hsize1) fun hload => ?_
  · rw [h1.stable]
    simp
  · refine h1.placed.replace fun e he => ?_
    rcases mem_cons.mp he with rfl | he
    · exact hk.symm
    · exact h1.placed pre.length b (by simp) e he
  -- the key was not there, so the keys stay distinct
  · rw [(hperm.map fun e => kot e.2).nodup_iff, map_cons, nodup_cons]
    refine ⟨fun hmem => ?_, h.unique⟩
    obtain ⟨e, he, hek⟩ := mem_map.mp hmem
    exact habsent e he hek
  · rw [hsize1]
    simpa using hroom hload

end growth

end CallLesson.Algorithm.Chained
