import CallLesson.Algorithm.ChainedTable

/-! # Counting with `zhc::unordered_map`

    The map over `zhc_hash::HashTable`, with `operator[]`, and the iterator of the table:
    `++` goes on along the chain, and from its end to the next chain that has a node, for
    which it takes the place of the chain from the hash of the key.

    The values are of type `int` here, as in `Test1`: an increment of the largest value is
    taken to wrap around. -/

namespace CallLesson.Algorithm.Chained

open Chain HeapM Exec

/-! ## Model -/

open List

namespace Zhc

section table

variable {T K : Type} [DecidableEq K] (kot : T → K) (hf : K → Nat)

def insert (fuel : Nat) (data : T) : HeapM (Link T) HashTable (Ptr × Bool) := do
  let it ← find kot hf fuel (kot data)
  if it ≠ none then pure (it, false)
  else
    let newnode ← add kot hf fuel data
    pure (newnode, false)

def scan (table : List Ptr) : Nat → Nat → HeapM (Link T) HashTable Ptr
  | 0, _ => pure none
  | left + 1, i => do
      let p ← bucketAt table i
      if p ≠ none then pure p else scan table left (i + 1)

def begin : HeapM (Link T) HashTable Ptr := do
  let t ← getObj
  scan t.stable t.stable.length 0

def next (it : Ptr) : HeapM (Link T) HashTable Ptr := do
  let n ← load it
  if n.next ≠ none then pure n.next
  else
    let t ← getObj
    let index := hf (kot n.val) % t.stable.length + 1
    scan t.stable (t.stable.length - index) index

def visit : Nat → Ptr → HeapM (Link T) HashTable (List T)
  | 0, _ => throw .running
  | fuel + 1, it => do
      if it = none then pure []
      else
        let n ← load it
        let rest ← visit fuel (← next kot hf it)
        pure (n.val :: rest)

def visitAll (fuel : Nat) : HeapM (Link T) HashTable (List T) := do
  visit kot hf fuel (← begin)

end table

def incr (v : Int) : Int := (v + 1).bmod (2 ^ 32)

def bump {K : Type} [DecidableEq K] (hf : K → Nat) (fuel : Nat) (k : K) :
    HeapM (Link (K × Int)) HashTable Unit := do
  let ret ← insert Prod.fst hf fuel (k, 0)
  store ret.1 (Link.mapVal fun kv => (kv.1, incr kv.2))

def count {K : Type} [DecidableEq K] (hf : K → Nat) (fuel : Nat) (ks : List K) :
    HeapM (Link (K × Int)) HashTable (List Unit) :=
  ks.mapM (bump hf fuel)

/-! ## Places in the table -/

section iteration

variable {T K : Type} {kot : T → K} {hf : K → Nat} {s : Heap (Link T) × HashTable}
  {bs pre post : List (List (Nat × T))} {Q : Ptr → Heap (Link T) × HashTable → Prop}
  {E : Heap (Link T) × HashTable → Prop}

variable {done c : List (Nat × T)} {e : Nat × T}

theorem exists_split (h : bs.flatten = done ++ e :: c) :
    ∃ pre l r post, bs = pre ++ (l ++ e :: r) :: post ∧ c = r ++ post.flatten := by
  rcases flatten_eq_append_iff.mp h with ⟨as, ds, rfl, -, hc⟩ | ⟨as, l, d, r, ds, rfl, -, hc⟩
  · obtain ⟨as', r, ds', rfl, -, rfl⟩ := flatten_eq_cons_iff.mp hc.symm
    exact ⟨as ++ as', [], r, ds', by simp, rfl⟩
  · obtain ⟨rfl, rfl⟩ := cons.inj hc
    exact ⟨as, l, r, ds, rfl, rfl⟩

theorem wp_scan {table : List Ptr} (htable : table = (pre ++ post).map ptr)
    (hQ : Q (ptr post.flatten) s) : wp (scan table post.length pre.length) Q E s := by
  induction post generalizing pre with
  | nil =>
    rw [length_nil, scan, wp_pure]
    exact hQ
  | cons b post ih =>
    have hhead : table[pre.length]? = some (ptr b) := by simp [htable]
    rw [length_cons, scan, wp_bind, wp_bucketAt hhead]
    cases b with
    | nil =>
      have htable' : table = ((pre ++ [[]]) ++ post).map ptr := by simp [htable]
      have hrest := ih htable' hQ
      rw [length_append, length_singleton] at hrest
      simpa using hrest
    | cons e b =>
      rw [ptr_cons, if_pos (by simp), wp_pure]
      exact hQ

variable (h : TableOk kot hf s bs)

include h

theorem wp_next (hsplit : bs.flatten = done ++ e :: c) (hQ : Q (ptr c) s) :
    wp (next kot hf (some e.1)) Q E s := by
  obtain ⟨pre, l, r, post, rfl, rfl⟩ := exists_split hsplit
  have hcell := (seg_append.mp (h.chains.rep (l ++ e :: r) (by simp))).2.1
  have hindex : hf (kot e.2) % s.2.stable.length = pre.length := by
    rw [h.stable, length_map]
    exact h.placed pre.length (l ++ e :: r) (by simp) e (by simp)
  unfold next
  rw [wp_bind, wp_load hcell]
  cases r with
  | nil =>
    -- the end of a chain
    have htable : s.2.stable = ((pre ++ [l ++ [e]]) ++ post).map ptr := by
      rw [h.stable]
      simp
    have hscan := wp_scan (E := E) htable hQ
    have hleft : s.2.stable.length - (pre.length + 1) = post.length := by
      rw [htable]
      simp
      omega
    rw [length_append, length_singleton] at hscan
    rw [if_neg (by simp [ptrTo]), wp_bind, wp_getObj, hindex]
    dsimp only
    rw [hleft]
    exact hscan
  | cons d r =>
    rw [if_pos (by simp [ptrTo]), wp_pure]
    exact hQ

variable {Q : List T → Heap (Link T) × HashTable → Prop}

theorem wp_visit {fuel : Nat} (hsplit : bs.flatten = done ++ c) (hfuel : c.length < fuel)
    (hQ : Q (c.map Prod.snd) s) :
    wp (visit kot hf fuel (ptr c)) Q (fun _ => False) s := by
  induction c generalizing fuel done Q with
  | nil =>
    cases fuel with
    | zero => cases hfuel
    | succ fuel =>
      rw [visit, ptr_nil, if_pos rfl, wp_pure]
      exact hQ
  | cons e c ih =>
    cases fuel with
    | zero => cases hfuel
    | succ fuel =>
      obtain ⟨q, hq⟩ := h.chains.cell_of_mem (show e ∈ bs.flatten by simp [hsplit])
      rw [visit, ptr_cons, if_neg (by simp), wp_bind, wp_load hq, wp_bind]
      refine wp_next h hsplit ?_
      have hsplit' : bs.flatten = (done ++ [e]) ++ c := by simp [hsplit]
      rw [wp_bind]
      refine ih hsplit' (Nat.lt_of_succ_lt_succ hfuel) ?_
      rw [wp_pure]
      exact hQ

theorem wp_visitAll {fuel : Nat} (hfuel : bs.flatten.length < fuel)
    (hQ : Q (bs.flatten.map Prod.snd) s) :
    wp (visitAll kot hf fuel) Q (fun _ => False) s := by
  have htable : s.2.stable = (([] : List (List (Nat × T))) ++ bs).map ptr := h.stable
  have hlength : s.2.stable.length = bs.length := by rw [h.stable, length_map]
  unfold visitAll begin
  rw [wp_bind, wp_bind, wp_getObj, hlength]
  have hsplit : bs.flatten = [] ++ bs.flatten := rfl
  exact wp_scan htable (wp_visit h hsplit hfuel hQ)

theorem wp_mapVal (he : e ∈ bs.flatten) {ψ : T → T} (hψ : kot (ψ e.2) = kot e.2)
    {Q : Unit → Heap (Link T) × HashTable → Prop}
    (hQ : ∀ s' bs' rest, TableOk kot hf s' bs' → bs.flatten.Perm (e :: rest) →
      bs'.flatten.Perm ((e.1, ψ e.2) :: rest) → Q () s') :
    wp (store (some e.1) (Link.mapVal ψ)) Q E s := by
  obtain ⟨done, c, hsplit⟩ := append_of_mem he
  obtain ⟨pre, l, r, post, rfl, -⟩ := exists_split hsplit
  have hfirst : Chains s.1 ((l ++ (e.1, e.2) :: r) :: (pre ++ post)) :=
    h.chains.perm perm_middle
  have hcell := (seg_append.mp (hfirst.rep _ mem_cons_self)).2.1
  -- the key is kept, so the node may stay in its bucket
  refine (wp_store hcell _ _).mpr ?_
  refine hQ _ (pre ++ (l ++ (e.1, ψ e.2) :: r) :: post) _ ⟨?_, ?_, by simp, ?_, ?_⟩
    flatten_node_perm flatten_node_perm
  · rw [h.stable]
    cases l <;> simp
  · exact (hfirst.mapVal ψ).perm perm_middle.symm
  · have hplace := h.placed pre.length (l ++ e :: r) (by simp)
    refine h.placed.replace fun d hd => ?_
    rcases mem_append.mp hd with hd | hd
    · exact hplace d (by simp [hd])
    · rcases mem_cons.mp hd with rfl | hd
      · rw [hψ]
        exact hplace e (by simp)
      · exact hplace d (by simp [hd])
  · have hunique := (flatten_node_perm.map fun d : Nat × T => kot d.2).nodup_iff.mp h.unique
    rw [(flatten_node_perm.map fun d : Nat × T => kot d.2).nodup_iff]
    rw [map_cons] at hunique ⊢
    rw [hψ]
    exact hunique

theorem wp_insert [DecidableEq K] {fuel : Nat} {x : T} (hfuel : bs.flatten.length < fuel)
    {Q : Ptr × Bool → Heap (Link T) × HashTable → Prop}
    (hadded : ∀ s' bs' a, (∀ e ∈ bs.flatten, kot e.2 ≠ kot x) → TableOk kot hf s' bs' →
      bs'.flatten.Perm ((a, x) :: bs.flatten) → Q (some a, false) s')
    (hkept : ∀ e ∈ bs.flatten, kot e.2 = kot x → Q (some e.1, false) s) :
    wp (insert kot hf fuel x) Q (fun _ => False) s := by
  unfold insert
  rw [wp_bind]
  refine wp_find h hfuel ?_
  cases hfind : bs.flatten.find? fun e => kot e.2 = kot x with
  | none =>
    have habsent : ∀ e ∈ bs.flatten, kot e.2 ≠ kot x := fun e he => by
      simpa using find?_eq_none.mp hfind e he
    rw [Option.map_none, if_neg (by simp), wp_bind]
    refine wp_add h habsent hfuel fun s' bs' a h' hperm _ _ => ?_
    rw [wp_pure]
    exact hadded s' bs' a habsent h' hperm
  | some e =>
    rw [Option.map_some, if_pos (by simp), wp_pure]
    exact hkept e (mem_of_find?_eq_some hfind) (by simpa using find?_some hfind)

end iteration

/-! ## Counting -/

section counting

variable {K : Type} [DecidableEq K] {hf : K → Nat} {s : Heap (Link (K × Int)) × HashTable}
  {bs : List (List (Nat × (K × Int)))} {fuel : Nat} {k : K}

structure Counts (ks : List K) (items : List (K × Int)) : Prop where
  unique : (items.map Prod.fst).Nodup
  mem_iff : ∀ k v, (k, v) ∈ items ↔ k ∈ ks ∧ v = (ks.count k : Int).bmod (2 ^ 32)

variable {ks : List K}

theorem Counts.perm {items items' : List (K × Int)} (h : Counts ks items)
    (hperm : items'.Perm items) : Counts ks items' where
  unique := (hperm.map Prod.fst).nodup_iff.mpr h.unique
  mem_iff k v := hperm.mem_iff.trans (h.mem_iff k v)

theorem Counts.snoc {items rest : List (K × Int)} {v : Int} (h : Counts ks items)
    (hrest : ∀ k' v', k' ≠ k → ((k', v') ∈ rest ↔ (k', v') ∈ items))
    (hunique : (rest.map Prod.fst).Nodup) (hnot : ∀ e ∈ rest, e.1 ≠ k)
    (hv : v = (ks.count k : Int).bmod (2 ^ 32)) : Counts (ks ++ [k]) ((k, incr v) :: rest) where
  unique := by
    rw [map_cons, nodup_cons]
    refine ⟨fun hmem => ?_, hunique⟩
    obtain ⟨e, he, hek⟩ := mem_map.mp hmem
    exact hnot e he hek
  mem_iff k' v' := by
    rw [mem_cons, Prod.mk.injEq, mem_append, mem_singleton, count_append, count_singleton]
    by_cases hk : k' = k
    · subst hk
      have hnotin : (k', v') ∉ rest := fun hmem => hnot _ hmem rfl
      have hincr : incr v = (ks.count k' + 1 : Int).bmod (2 ^ 32) := by
        rw [incr, hv, Int.bmod_add_bmod]
      simp [hnotin, hincr]
    · rw [hrest k' v' hk, h.mem_iff]
      simp [hk, Ne.symm hk]

theorem wp_insert_zero (h : TableOk Prod.fst hf s bs) (hc : Counts ks (bs.flatten.map Prod.snd))
    (hfuel : bs.flatten.length < fuel) {Q : Ptr × Bool → Heap (Link (K × Int)) × HashTable → Prop}
    (hQ : ∀ s' bs' a v, TableOk Prod.fst hf s' bs' → (a, (k, v)) ∈ bs'.flatten →
      v = (ks.count k : Int).bmod (2 ^ 32) → bs'.flatten.length ≤ bs.flatten.length + 1 →
      (∀ e, e.1 ≠ k → (e ∈ bs'.flatten.map Prod.snd ↔ e ∈ bs.flatten.map Prod.snd)) →
      Q (some a, false) s') : wp (insert Prod.fst hf fuel (k, 0)) Q (fun _ => False) s := by
  refine wp_insert h hfuel (fun s' bs' a habsent h' hperm => ?_) fun e he hek => ?_
  · refine hQ s' bs' a 0 h' (hperm.mem_iff.mpr mem_cons_self) ?_ ?_ fun e he => ?_
    · have hnot : k ∉ ks := by
        intro hk
        obtain ⟨e, he, hek⟩ := mem_map.mp ((hc.mem_iff k _).mpr ⟨hk, rfl⟩)
        have hkey : e.2.1 = k := congrArg Prod.fst hek
        exact habsent e he hkey
      rw [count_eq_zero.mpr hnot]
      decide
    · rw [hperm.length_eq, length_cons]
    · rw [(hperm.map Prod.snd).mem_iff, map_cons, mem_cons]
      exact ⟨fun hmem => hmem.resolve_left fun hek => he (congrArg Prod.fst hek), Or.inr⟩
  · obtain rfl : e.2.1 = k := hek
    exact hQ s bs e.1 e.2.2 h he ((hc.mem_iff _ _).mp (mem_map_of_mem he)).2 (Nat.le_succ _)
      fun _ _ => Iff.rfl

theorem wp_bump (h : TableOk Prod.fst hf s bs) (hc : Counts ks (bs.flatten.map Prod.snd))
    (hfuel : bs.flatten.length < fuel) :
    wp (bump hf fuel k)
      (fun _ s' => ∃ bs', TableOk Prod.fst hf s' bs' ∧
        Counts (ks ++ [k]) (bs'.flatten.map Prod.snd) ∧
        bs'.flatten.length ≤ bs.flatten.length + 1)
      (fun _ => False) s := by
  unfold bump
  rw [wp_bind]
  refine wp_insert_zero h hc hfuel fun s1 bs1 a v h1 hmem hv hlength hothers => ?_
  refine wp_mapVal h1 hmem rfl fun s2 bs2 rest h2 hperm1 hperm2 => ?_
  have hunique := (hperm1.map fun e => e.2.1).nodup_iff.mp h1.unique
  rw [map_cons, nodup_cons] at hunique
  have hnot : ∀ e ∈ rest, e.2.1 ≠ k := fun e he hek =>
    hunique.1 (mem_map.mpr ⟨e, he, hek⟩)
  have hcounts : Counts (ks ++ [k]) ((k, incr v) :: rest.map Prod.snd) := by
    refine hc.snoc (fun k' v' hk' => ?_) ?_ (forall_mem_map.mpr hnot) hv
    · rw [← hothers (k', v') hk', (hperm1.map Prod.snd).mem_iff, map_cons, mem_cons]
      exact ⟨Or.inr, fun hmem => hmem.resolve_left fun hek => hk' (congrArg Prod.fst hek)⟩
    · rw [map_map]
      exact hunique.2
  refine ⟨bs2, h2, hcounts.perm (hperm2.map Prod.snd), ?_⟩
  rw [hperm1.length_eq, length_cons] at hlength
  rw [hperm2.length_eq, length_cons]
  exact hlength

theorem wp_count (hf : K → Nat) (hfuel : ks.length < fuel) :
    wp (do let _ ← count hf fuel ks; visitAll Prod.fst hf fuel) (fun items _ => Counts ks items)
      (fun _ => False) (Heap.empty, HashTable.new) := by
  rw [wp_bind]
  have hinv : wp (count hf fuel ks) (fun _ s => ∃ bs, TableOk Prod.fst hf s bs ∧
      Counts ks (bs.flatten.map Prod.snd) ∧ bs.flatten.length ≤ ks.length)
      (fun _ => False) (Heap.empty, HashTable.new) := by
    refine wp_mapM (I := fun done _ s => ∃ bs, TableOk Prod.fst hf s bs ∧
      Counts done (bs.flatten.map Prod.snd) ∧ bs.flatten.length ≤ done.length)
      ⟨_, tableOk_new Prod.fst hf, ⟨by simp, by simp⟩, by simp⟩ ?_
    intro done k rest _ s hks ⟨bs, h, hc, hlength⟩
    have htotal := congrArg length hks
    rw [length_append, length_cons] at htotal
    refine wp_imp (wp_bump h hc (by omega)) (fun _ s' hs' => ?_)
    obtain ⟨bs', h', hc', hlength'⟩ := hs'
    refine ⟨bs', h', hc', ?_⟩
    rw [length_append, length_singleton]
    omega
  refine wp_imp hinv (fun _ s hs => ?_)
  obtain ⟨bs, h, hc, hlength⟩ := hs
  exact wp_visitAll h (by omega) hc

/-- The words are counted, as long as the numbers are values of type `int`: the calls return,
    and the iteration visits each key of the list once, with its number of occurrences, and
    ends. -/
theorem word_count_correct (hf : K → Nat) (ks : List K) (hcount : ∀ k, ks.count k < 2 ^ 31)
    (fuel : Nat) (hfuel : ks.length < fuel) :
    ∃ items s, (do let _ ← count hf fuel ks; visitAll Prod.fst hf fuel)
        (Heap.empty, HashTable.new) = .ok items s ∧
      (items.map Prod.fst).Nodup ∧ ∀ k (v : Int), (k, v) ∈ items ↔ k ∈ ks ∧ v = ks.count k := by
  obtain ⟨items, s, hrun, hc⟩ := exists_of_wp (wp_count hf hfuel)
  refine ⟨items, s, hrun, hc.unique, fun k v => ?_⟩
  have hsmall : (ks.count k : Int).bmod (2 ^ 32) = ks.count k := by
    have := hcount k
    exact Int.bmod_eq_of_le (by omega) (by omega)
  rw [hc.mem_iff, hsmall]

theorem word_count_correct_fruit :
    (∀ k, ["apple", "pear", "apple"].count k < 2 ^ 31) ∧ ["apple", "pear", "apple"].length < 4 ∧
      ∃ items s, (do
          let _ ← count String.length 4 ["apple", "pear", "apple"]
          visitAll Prod.fst String.length 4) (Heap.empty, HashTable.new) = .ok items s ∧
        (items.map Prod.fst).Nodup ∧ ∀ k (v : Int), (k, v) ∈ items ↔
          k ∈ ["apple", "pear", "apple"] ∧ v = ["apple", "pear", "apple"].count k := by
  have hcount : ∀ k, ["apple", "pear", "apple"].count k < 2 ^ 31 := fun k =>
    lt_of_le_of_lt (List.count_le_length) (by decide)
  exact ⟨hcount, by decide, word_count_correct String.length _ hcount 4 (by decide)⟩

/-- A key that occurs once more than the type `int` can count. -/
theorem word_count_overflow : ∃ items s, (do
        let _ ← count id (2 ^ 31 + 1) (List.replicate (2 ^ 31) 0)
        visitAll Prod.fst id (2 ^ 31 + 1)) (Heap.empty, HashTable.new) = .ok items s ∧
      (0, ((List.replicate (2 ^ 31) 0).count 0 : Int)) ∉ items ∧ (0, -2 ^ 31) ∈ items := by
  have hfuel : (List.replicate (2 ^ 31) 0).length < 2 ^ 31 + 1 := by
    rw [List.length_replicate]
    exact Nat.lt_succ_self _
  obtain ⟨items, s, hrun, hc⟩ := exists_of_wp (wp_count id hfuel)
  have hcount : (List.replicate (2 ^ 31) 0).count 0 = 2 ^ 31 := List.count_replicate_self
  refine ⟨items, s, hrun, fun hmem => ?_, (hc.mem_iff _ _).mpr ⟨?_, ?_⟩⟩
  · have hv := ((hc.mem_iff _ _).mp hmem).2
    rw [hcount] at hv
    revert hv
    decide
  · exact List.mem_replicate.mpr ⟨by decide, rfl⟩
  · rw [hcount]
    decide

end counting

end Zhc

end CallLesson.Algorithm.Chained
