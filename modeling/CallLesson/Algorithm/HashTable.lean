import CallLesson.Algorithm.ChainedTable

/-! # `Hash::HashTable` is a map

    The member functions `insert`, `erase` and `find` of the chained table of pairs, and
    what they are for: a finite map, on which each call has an effect and an answer of its
    own. A run of calls on the table gives the answers of the map. -/

namespace CallLesson.Algorithm.Chained

open Chain HeapM Exec HashTable Option

/-! ## Model -/

inductive Call (K V : Type) where
  | insert (kv : K × V)
  | erase (kv : K × V)
  | find (k : K)
  deriving DecidableEq

inductive Answer (K V : Type) where
  | flag (b : Bool)
  | entry (e : Option (K × V))
  deriving DecidableEq

section model

variable {K V : Type} [DecidableEq K] (hf : K → Nat)

def insert (fuel : Nat) (kv : K × V) : HeapM (Link (K × V)) HashTable Bool := do
  let pos ← find Prod.fst hf fuel kv.1
  if pos ≠ none then pure false
  else
    let _ ← add Prod.fst hf fuel kv
    pure true

def eraseLoop (key : K) : Nat → Ptr → Ptr → HeapM (Link (K × V)) HashTable (Ptr × Ptr)
  | 0, _, _ => throw .running
  | fuel + 1, prev, cur => do
      if cur = none then pure (prev, cur)
      else
        let n ← load cur
        if n.val.1 = key then pure (prev, cur) else eraseLoop key fuel cur n.next

def remove (fuel : Nat) (key : K) : HeapM (Link (K × V)) HashTable Unit := do
  let t ← getObj
  let index := hf key % t.stable.length
  let head ← bucketAt t.stable index
  let (prev, cur) ← eraseLoop key fuel none head
  let n ← load cur
  if cur = head then setObj { t with stable := t.stable.set index n.next }
  else store prev (Link.setNext n.next)
  delete cur

def erase (fuel : Nat) (kv : K × V) : HeapM (Link (K × V)) HashTable Bool := do
  let pos ← find Prod.fst hf fuel kv.1
  if pos = none then pure false
  else
    remove hf fuel kv.1
    pure true

def exec (fuel : Nat) : Call K V → HeapM (Link (K × V)) HashTable (Answer K V)
  | .insert kv => do pure (.flag (← insert hf fuel kv))
  | .erase kv => do pure (.flag (← erase hf fuel kv))
  | .find k => do
      let pos ← find Prod.fst hf fuel k
      if pos = none then pure (.entry none)
      else
        let n ← load pos
        pure (.entry (some n.val))

end model

/-! ## The map -/

section map

variable {K V : Type} [DecidableEq K]

def Call.onMap (m : Dict K V) : Call K V → Dict K V × Answer K V
  | .insert kv => (m.insert kv.1 kv.2, .flag (m kv.1).isNone)
  | .erase kv => (m.erase kv.1, .flag (m kv.1).isSome)
  | .find k => (m, .entry ((m k).map fun v => (k, v)))

def Call.allOnMap (cs : List (Call K V)) : Dict K V × List (Answer K V) :=
  cs.foldl (fun r c => ((c.onMap r.1).1, r.2 ++ [(c.onMap r.1).2])) (Dict.empty, [])

def Call.erased (m : Dict K V) : Call K V → Nat
  | .erase kv => if (m kv.1).isSome then 1 else 0
  | _ => 0

def Call.NothingErased (cs : List (Call K V)) : Prop :=
  ∀ pre kv post, cs = pre ++ .erase kv :: post → (Call.allOnMap pre).1 kv.1 = none

def Agrees (bs : List (List (Nat × (K × V)))) (m : Dict K V) : Prop :=
  ∀ k v, (k, v) ∈ bs.flatten.map Prod.snd ↔ m k = some v

end map

/-! ## Each call -/

open List

section calls

variable {K V : Type} {hf : K → Nat} {s : Heap (Link (K × V)) × HashTable}
  {bs : List (List (Nat × (K × V)))} {m : Dict K V} {k : K}

theorem Agrees.none_iff (h : Agrees bs m) : m k = none ↔ ∀ e ∈ bs.flatten, e.2.1 ≠ k := by
  rw [eq_none_iff_forall_ne_some]
  constructor
  · rintro hm e he rfl
    exact hm e.2.2 ((h _ _).mp (mem_map_of_mem he))
  · intro hall v hv
    obtain ⟨e, he, hek⟩ := mem_map.mp ((h k v).mpr hv)
    exact hall e he (congrArg Prod.fst hek)

variable {e : Nat × (K × V)}

theorem Agrees.of_mem (h : Agrees bs m) (he : e ∈ bs.flatten) : m e.2.1 = some e.2.2 :=
  (h _ _).mp (mem_map_of_mem he)

structure Counted (s s' : Heap (Link (K × V)) × HashTable)
    (bs bs' : List (List (Nat × (K × V)))) (erased : Nat) : Prop where
  nodes : bs'.flatten.length ≤ bs.flatten.length + 1
  size : s'.2.size + bs.flatten.length = s.2.size + bs'.flatten.length + erased
  load : s.2.size ≤ bs.length → s'.2.size ≤ bs'.length

theorem Counted.same : Counted s s bs bs 0 := ⟨by omega, by omega, fun hload => hload⟩

variable {l r : List (Nat × (K × V))}

theorem TableOk.without {pre post : List (List (Nat × (K × V)))}
    (s' : Heap (Link (K × V)) × HashTable)
    (h : TableOk Prod.fst hf s (pre ++ (l ++ e :: r) :: post))
    (hstable : s'.2.stable = (pre ++ (l ++ r) :: post).map ptr)
    (hcs : Chains s'.1 ((l ++ r) :: (pre ++ post))) :
    TableOk Prod.fst hf s' (pre ++ (l ++ r) :: post) ∧
      (pre ++ (l ++ e :: r) :: post).flatten.Perm (e :: (pre ++ (l ++ r) :: post).flatten) := by
  refine ⟨⟨hstable, hcs.perm perm_middle.symm, by simp, ?_, ?_⟩, flatten_node_perm⟩
  · refine h.placed.replace fun d hd => h.placed pre.length (l ++ e :: r) (by simp) d ?_
    simp only [mem_append, mem_cons] at hd ⊢
    tauto
  · have hunique := (flatten_node_perm.map fun e : Nat × (K × V) => e.2.1).nodup_iff.mp h.unique
    exact (nodup_cons.mp hunique).2

variable [DecidableEq K] {fuel : Nat}

theorem Agrees.of_find_none (h : Agrees bs m)
    (hfind : (bs.flatten.find? fun e => e.2.1 = k) = none) : m k = none :=
  h.none_iff.mpr fun e he => by simpa using find?_eq_none.mp hfind e he

theorem Agrees.of_find_some (h : Agrees bs m)
    (hfind : (bs.flatten.find? fun e => e.2.1 = k) = some e) :
    e ∈ bs.flatten ∧ e.2.1 = k ∧ m k = some e.2.2 := by
  have he := mem_of_find?_eq_some hfind
  obtain rfl : e.2.1 = k := by simpa using find?_some hfind
  exact ⟨he, rfl, h.of_mem he⟩

theorem wp_insert (h : TableOk Prod.fst hf s bs) (hm : Agrees bs m) (kv : K × V)
    (hfuel : bs.flatten.length < fuel) :
    wp (insert hf fuel kv)
      (fun b s' => ∃ bs', TableOk Prod.fst hf s' bs' ∧ Agrees bs' (m.insert kv.1 kv.2) ∧
        b = (m kv.1).isNone ∧ Counted s s' bs bs' 0)
      (fun _ => False) s := by
  unfold insert
  rw [wp_bind]
  refine wp_find h hfuel ?_
  cases hfind : bs.flatten.find? fun e => e.2.1 = kv.1 with
  | none =>
    have hnone := hm.of_find_none hfind
    rw [map_none, if_neg (by simp), wp_bind]
    refine wp_add h (hm.none_iff.mp hnone) hfuel fun s' bs' a h' hperm hsize hload => ?_
    have hlength := hperm.length_eq
    rw [length_cons] at hlength
    rw [wp_pure]
    -- one node more, and `_size` with it
    refine ⟨bs', h', fun k v => ?_, by simp [hnone], by omega, by omega, hload⟩
    rw [(hperm.map Prod.snd).mem_iff, map_cons, mem_cons, hm k v]
    by_cases hk : k = kv.1
    · subst hk
      simp [Dict.insert_of_none kv.2 hnone, hnone, Prod.ext_iff, eq_comm]
    · simp [Prod.ext_iff, hk]
  | some e =>
    obtain ⟨he, hek, hsome⟩ := hm.of_find_some hfind
    rw [map_some, if_pos (by simp), wp_pure]
    refine ⟨bs, h, ?_, by simp [hsome], .same⟩
    rw [Dict.insert_of_some kv.2 hsome]
    exact hm

theorem wp_eraseLoop {prev : Ptr} (hseg : Seg s.1 (l ++ e :: r) none)
    (hl : ∀ d ∈ l, d.2.1 ≠ k) (he : e.2.1 = k) (hfuel : l.length < fuel)
    {Q : Ptr × Ptr → Heap (Link (K × V)) × HashTable → Prop} (hQ : Q (lastPtr prev l, some e.1) s) :
    wp (eraseLoop k fuel prev (ptr (l ++ e :: r))) Q (fun _ => False) s := by
  induction l generalizing fuel prev with
  | nil =>
    cases fuel with
    | zero => cases hfuel
    | succ fuel =>
      rw [nil_append, eraseLoop, ptr_cons, if_neg (by simp), wp_bind, wp_load hseg.1,
        if_pos he, wp_pure]
      exact hQ
  | cons d l ih =>
    cases fuel with
    | zero => cases hfuel
    | succ fuel =>
      rw [cons_append, eraseLoop, ptr_cons, if_neg (by simp), wp_bind, wp_load hseg.1,
        if_neg (hl d mem_cons_self)]
      exact ih hseg.2 (fun d' hd' => hl d' (mem_cons_of_mem _ hd'))
        (Nat.lt_of_succ_lt_succ hfuel) hQ

theorem wp_remove (h : TableOk Prod.fst hf s bs) (he : e ∈ bs.flatten)
    (hfuel : bs.flatten.length < fuel) {Q : Unit → Heap (Link (K × V)) × HashTable → Prop}
    (hQ : ∀ s' bs', TableOk Prod.fst hf s' bs' → bs.flatten.Perm (e :: bs'.flatten) →
      s'.2.size = s.2.size → bs'.length = bs.length → Q () s') :
    wp (remove hf fuel e.2.1) Q (fun _ => False) s := by
  obtain ⟨pre, b, post, rfl, hk⟩ := exists_bucket hf e.2.1 h.pos
  have heb : e ∈ b := by
    rcases mem_append.mp (flatten_perm.mem_iff.mp he) with he | he
    · exact he
    · exact absurd rfl (h.placed.ne_of_mem hk he)
  obtain ⟨l, r, rfl⟩ := append_of_mem heb
  -- the loop stops at this node, the only one with the key
  have hl : ∀ d ∈ l, d.2.1 ≠ e.2.1 := by
    have hunique := h.unique
    simp only [flatten_append, flatten_cons, map_append, map_cons] at hunique
    grind [nodup_append]
  have hfirst : Chains s.1 ((l ++ e :: r) :: (pre ++ post)) := h.chains.perm perm_middle
  have hseg := hfirst.rep _ mem_cons_self
  have hcell := (seg_append.mp hseg).2.1
  have hindex : hf e.2.1 % s.2.stable.length = pre.length := by rw [h.stable, length_map, hk]
  have hlength := (flatten_perm : (pre ++ (l ++ e :: r) :: post).flatten.Perm _).length_eq
  simp only [length_append, length_cons] at hlength
  unfold remove
  rw [wp_bind, wp_getObj, hindex, wp_bind, wp_bucketAt h.bucket, wp_bind]
  refine wp_eraseLoop hseg hl rfl (by omega) ?_
  rw [wp_bind]
  refine (wp_load hcell _).mpr ?_
  rcases eq_nil_or_concat l with rfl | ⟨l, ⟨p, y⟩, rfl⟩
  · -- the first node of the chain
    rw [nil_append, ptr_cons, if_pos rfl, wp_bind, wp_setObj]
    let t' : HashTable := { s.2 with stable := s.2.stable.set pre.length (ptr r) }
    refine (wp_delete (s := (s.1, t')) hcell _).mpr ?_
    have hstable : t'.stable = (pre ++ ([] ++ r) :: post).map ptr := by
      simp [t', h.stable]
    obtain ⟨h', hperm⟩ := TableOk.without (s.1.free e.1, t') h hstable hfirst.free
    exact hQ _ _ h' hperm rfl (by simp)
  · -- a node inside of the chain
    rw [concat_eq_append] at h hfirst hQ ⊢
    have hinner : Chains s.1 ((l ++ (p, y) :: (e.1, e.2) :: r) :: (pre ++ post)) := by
      simpa using hfirst
    have hnd := hinner.nodup
    simp only [flatten_cons, addrs_append, addrs_cons] at hnd
    have hne : (some e.1 : Ptr) ≠ ptr (l ++ [(p, y)] ++ e :: r) := by
      cases l <;> simp at hnd ⊢ <;> grind
    have hcellp := (seg_append.mp (hinner.rep _ mem_cons_self)).2.1
    have hep : e.1 ≠ p := by grind [nodup_append]
    rw [if_neg hne, lastPtr_append, wp_bind, wp_store hcellp]
    rw [← Heap.update_ne _ (Link.setNext (ptr r)) hep] at hcell
    refine (wp_delete (s := (s.1.update p (Link.setNext (ptr r)), s.2)) hcell _).mpr ?_
    have hstable : s.2.stable = (pre ++ (l ++ [(p, y)] ++ r) :: post).map ptr := by
      rw [h.stable]
      cases l <;> simp
    obtain ⟨h', hperm⟩ := TableOk.without
      ((s.1.update p (Link.setNext (ptr r))).free e.1, s.2) h hstable
      (by simpa using hinner.unlink)
    exact hQ _ _ h' hperm rfl (by simp)

theorem wp_erase (h : TableOk Prod.fst hf s bs) (hm : Agrees bs m) (kv : K × V)
    (hfuel : bs.flatten.length < fuel) :
    wp (erase hf fuel kv)
      (fun b s' => ∃ bs', TableOk Prod.fst hf s' bs' ∧ Agrees bs' (m.erase kv.1) ∧
        b = (m kv.1).isSome ∧ Counted s s' bs bs' (if (m kv.1).isSome then 1 else 0))
      (fun _ => False) s := by
  unfold erase
  rw [wp_bind]
  refine wp_find h hfuel ?_
  cases hfind : bs.flatten.find? fun e => e.2.1 = kv.1 with
  | none =>
    have hnone := hm.of_find_none hfind
    rw [map_none, if_pos rfl, wp_pure]
    rw [hnone]
    refine ⟨bs, h, fun k v => ?_, by simp, .same⟩
    rw [hm k v]
    by_cases hk : k = kv.1
    · simp [hk, hnone]
    · simp [hk]
  | some e =>
    obtain ⟨he, hek, hsome⟩ := hm.of_find_some hfind
    rw [map_some, if_neg (by simp), wp_bind, ← hek]
    refine wp_remove h he hfuel fun s' bs' h' hperm hsize hchains => ?_
    have hlength := hperm.length_eq
    rw [length_cons] at hlength
    rw [wp_pure, hm.of_mem he, isSome_some, if_pos rfl]
    -- `_size` is as it was, with one node less
    refine ⟨bs', h', fun k v => ?_, by simp, by omega, by omega, by omega⟩
    -- the other nodes have other keys
    have hne : ∀ d ∈ bs'.flatten, d.2.1 ≠ e.2.1 := by
      have hunique := (hperm.map fun e => e.2.1).nodup_iff.mp h.unique
      rw [map_cons, nodup_cons] at hunique
      exact fun d hd hde => hunique.1 (mem_map.mpr ⟨d, hd, hde⟩)
    by_cases hk : k = e.2.1
    · subst hk
      rw [Dict.erase_self]
      refine ⟨fun hmem => ?_, nofun⟩
      obtain ⟨d, hd, hdk⟩ := mem_map.mp hmem
      exact absurd (congrArg Prod.fst hdk) (hne d hd)
    · rw [Dict.erase_ne m hk, ← hm k v, (hperm.map Prod.snd).mem_iff, map_cons, mem_cons]
      refine ⟨Or.inr, fun hmem => hmem.resolve_left fun hkv => hk (congrArg Prod.fst hkv)⟩

theorem wp_exec (h : TableOk Prod.fst hf s bs) (hm : Agrees bs m) (c : Call K V)
    (hfuel : bs.flatten.length < fuel) :
    wp (exec hf fuel c)
      (fun a s' => ∃ bs', TableOk Prod.fst hf s' bs' ∧ Agrees bs' (c.onMap m).1 ∧
        a = (c.onMap m).2 ∧ Counted s s' bs bs' (c.erased m))
      (fun _ => False) s := by
  cases c with
  | insert kv =>
    rw [exec, wp_bind]
    refine wp_imp (wp_insert h hm kv hfuel) (fun b s' hs' => ?_)
    obtain ⟨bs', h', hm', hb, hcounted⟩ := hs'
    exact (wp_pure _ _ _ _).mpr ⟨bs', h', hm', congrArg Answer.flag hb, hcounted⟩
  | erase kv =>
    rw [exec, wp_bind]
    refine wp_imp (wp_erase h hm kv hfuel) (fun b s' hs' => ?_)
    obtain ⟨bs', h', hm', hb, hcounted⟩ := hs'
    exact (wp_pure _ _ _ _).mpr ⟨bs', h', hm', congrArg Answer.flag hb, hcounted⟩
  | find k =>
    rw [exec, wp_bind]
    refine wp_find h hfuel ?_
    cases hfind : bs.flatten.find? fun e => e.2.1 = k with
    | none =>
      rw [map_none, if_pos rfl, wp_pure]
      exact ⟨bs, h, hm, by simp [Call.onMap, hm.of_find_none hfind], .same⟩
    | some e =>
      obtain ⟨he, hek, hsome⟩ := hm.of_find_some hfind
      obtain ⟨q, hq⟩ := h.chains.cell_of_mem he
      subst hek
      rw [map_some, if_neg (by simp), wp_bind, wp_load hq, wp_pure]
      exact ⟨bs, h, hm, by simp [Call.onMap, hsome], .same⟩

end calls

/-! ## Runs -/

section runs

variable {K V : Type} [DecidableEq K]

theorem allOnMap_snoc (cs : List (Call K V)) (c : Call K V) :
    Call.allOnMap (cs ++ [c]) = ((c.onMap (Call.allOnMap cs).1).1,
      (Call.allOnMap cs).2 ++ [(c.onMap (Call.allOnMap cs).1).2]) := by
  simp [Call.allOnMap]

theorem nothingErased_snoc {cs : List (Call K V)} {c : Call K V} :
    Call.NothingErased (cs ++ [c]) ↔ Call.NothingErased cs ∧ c.erased (Call.allOnMap cs).1 = 0 := by
  constructor
  · intro h
    refine ⟨fun pre kv post hcs => h pre kv (post ++ [c]) (by simp [hcs]), ?_⟩
    cases c with
    | erase kv => simp [Call.erased, h cs kv [] rfl]
    | insert kv => rfl
    | find k => rfl
  · intro ⟨h, hc⟩ pre kv post hcs
    -- the call is the last one, or one of those before
    rcases eq_nil_or_concat post with rfl | ⟨post, last, rfl⟩
    · obtain ⟨rfl, hlast⟩ := append_inj' hcs rfl
      obtain rfl := singleton_inj.mp hlast
      simpa [Call.erased] using hc
    · rw [concat_eq_append, ← cons_append, ← append_assoc] at hcs
      exact h pre kv post (append_inj' hcs rfl).1

structure AfterCalls (hf : K → Nat) (cs : List (Call K V)) (answers : List (Answer K V))
    (s : Heap (Link (K × V)) × HashTable) (bs : List (List (Nat × (K × V)))) : Prop where
  table : TableOk Prod.fst hf s bs
  agrees : Agrees bs (Call.allOnMap cs).1
  answers : answers = (Call.allOnMap cs).2
  nodes : bs.flatten.length ≤ cs.length
  load : s.2.size ≤ bs.length
  drift : ∃ n, s.2.size = bs.flatten.length + n ∧ (n = 0 ↔ Call.NothingErased cs)

theorem wp_calls (hf : K → Nat) {cs : List (Call K V)} {fuel : Nat} (hfuel : cs.length < fuel) :
    wp (cs.mapM (exec hf fuel)) (fun answers s => ∃ bs, AfterCalls hf cs answers s bs)
      (fun _ => False) (Heap.empty, new) := by
  refine wp_mapM (I := fun done answers s => ∃ bs, AfterCalls hf done answers s bs) ?_ ?_
  · refine ⟨_, tableOk_new Prod.fst hf, fun k v => ?_, rfl, by simp, by simp [HashTable.new], 0,
      by simp [HashTable.new], by simp [Call.NothingErased]⟩
    simp [Call.allOnMap, Dict.empty]
  · rintro done c rest answers s hcs ⟨bs, h⟩
    have htotal := congrArg length hcs
    rw [length_append, length_cons] at htotal
    have hnodes := h.nodes
    refine wp_imp (wp_exec h.table h.agrees c (by omega)) (fun a s' hs' => ?_)
    obtain ⟨bs', h', hm', ha, hcounted⟩ := hs'
    -- what this call has erased is added to what was erased before
    obtain ⟨n, hn, hzero⟩ := h.drift
    have hnodes' := hcounted.nodes
    have hsize' := hcounted.size
    refine ⟨bs', h', by rwa [allOnMap_snoc], by rw [allOnMap_snoc, h.answers, ha], ?_,
      hcounted.load h.load, n + c.erased (Call.allOnMap done).1, by omega, ?_⟩
    · rw [length_append, length_singleton]
      omega
    · rw [nothingErased_snoc, ← hzero]
      omega

/-- **The table is a map**: a sequence of calls on a new table returns and gives the answers
    that the map gives. Then the nodes hold the pairs of the map, each in the chain of its
    hash and no key twice; and growing into the doubled vector would leave the same nodes. -/
theorem hash_table_refines_map (hf : K → Nat) (cs : List (Call K V)) (fuel : Nat)
    (hfuel : cs.length < fuel) :
    ∃ answers s bs, cs.mapM (exec hf fuel) (Heap.empty, new) = .ok answers s ∧
      answers = (Call.allOnMap cs).2 ∧
      s.2.stable = bs.map ptr ∧ Chains s.1 bs ∧
      (∀ i b, bs[i]? = some b → ∀ e ∈ b, hf e.2.1 % bs.length = i) ∧
      (bs.flatten.map fun e => e.2.1).Nodup ∧
      (∀ k v, (k, v) ∈ bs.flatten.map Prod.snd ↔ (Call.allOnMap cs).1 k = some v) ∧
      ∃ s' bs', grow Prod.fst hf fuel s = .ok () s' ∧ s'.2.stable = bs'.map ptr ∧
        Chains s'.1 bs' ∧ bs'.flatten.Perm bs.flatten ∧
        bs'.length = (if s.2.size = bs.length then bs.length * 2 else bs.length) := by
  obtain ⟨answers, s, hrun, bs, h, hm, hanswers, hlength, -, -⟩ := exists_of_wp (wp_calls hf hfuel)
  have hgrow := wp_grow (Q := fun _ s' => ∃ bs', s'.2.stable = bs'.map ptr ∧ Chains s'.1 bs' ∧
      bs'.flatten.Perm bs.flatten ∧
      bs'.length = (if s.2.size = bs.length then bs.length * 2 else bs.length)) h
    (lt_of_le_of_lt hlength hfuel)
    fun s' bs' h' hperm _ hlength' => ⟨bs', h'.stable, h'.chains, hperm, hlength'⟩
  obtain ⟨_, s', hs', bs', hbs'⟩ := exists_of_wp hgrow
  exact ⟨answers, s, bs, hrun, hanswers, h.stable, h.chains, h.placed, h.unique, hm, s', bs', hs',
    hbs'⟩

/-- Keys that collide, a key inserted twice, a key erased from inside of a chain. -/
theorem hash_table_refines_map_collide :
    [Call.insert (1, 'a'), .insert (11, 'b'), .insert (21, 'c'), .insert (11, 'd'),
        .erase (11, 'x'), .find 11, .find 21].length < 8 ∧
      ∃ (answers : List (Answer Nat Char)) (s : Heap (Link (Nat × Char)) × HashTable)
        (bs : List (List (Nat × (Nat × Char)))),
        [Call.insert (1, 'a'), .insert (11, 'b'), .insert (21, 'c'), .insert (11, 'd'),
          .erase (11, 'x'), .find 11, .find 21].mapM (exec id 8) (Heap.empty, new) =
          .ok answers s ∧
        answers = [.flag true, .flag true, .flag true, .flag false, .flag true, .entry none,
          .entry (some (21, 'c'))] ∧ s.2.stable = bs.map ptr ∧
        (bs.flatten.map fun e => e.2.1).Nodup := by
  refine ⟨by decide, ?_⟩
  obtain ⟨answers, s, bs, hrun, hanswers, hstable, -, -, hunique, -, -⟩ :=
    hash_table_refines_map id [Call.insert (1, 'a'), .insert (11, 'b'), .insert (21, 'c'),
      .insert (11, 'd'), .erase (11, 'x'), .find 11, .find 21] 8 (by decide)
  exact ⟨answers, s, bs, hrun, hanswers.trans rfl, hstable, hunique⟩

/-! ### The size -/

/-- **The size field**: after a sequence of calls, `_size` is the number of nodes in all
    chains, the table would double only with as many nodes as chains and there is at most
    one node per chain on average, if and only if no call has erased a key that was there:
    `erase` leaves `_size` as it is. -/
theorem size_exact_iff (hf : K → Nat) (cs : List (Call K V)) (fuel : Nat)
    (hfuel : cs.length < fuel) :
    ∃ answers s bs, cs.mapM (exec hf fuel) (Heap.empty, new) = .ok answers s ∧
      s.2.stable = bs.map ptr ∧ Chains s.1 bs ∧
      ((s.2.size = bs.flatten.length ∧
          (∀ s', grow Prod.fst hf fuel s = .ok () s' → s'.2.stable.length ≠ s.2.stable.length →
            bs.flatten.length = bs.length) ∧
          bs.flatten.length ≤ bs.length) ↔
        Call.NothingErased cs) := by
  obtain ⟨answers, s, hrun, bs, h⟩ := exists_of_wp (wp_calls hf hfuel)
  obtain ⟨n, hsize, hzero⟩ := h.drift
  refine ⟨answers, s, bs, hrun, h.table.stable, h.table.chains, ?_⟩
  rw [← hzero]
  constructor
  · intro ⟨hexact, _⟩
    omega
  · rintro rfl
    have hload := h.load
    refine ⟨hsize, fun s' hgrow hgrown => ?_, by omega⟩
    -- it grows only when `_size` is the number of chains
    have hlength := wp_ok (wp_grow (Q := fun _ s' => s'.2.stable.length =
      if s.2.size = bs.length then bs.length * 2 else bs.length) h.table
      (lt_of_le_of_lt h.nodes hfuel)
      fun s' bs' h' _ _ hlength' => by rw [h'.stable, List.length_map, hlength']) hgrow
    rw [h.table.stable, List.length_map] at hgrown
    split at hlength <;> omega

theorem size_exact_inserts : [Call.insert (1, 'a'), .erase (2, 'a')].length < 3 ∧
    ∃ (answers : List (Answer Nat Char)) (s : Heap (Link (Nat × Char)) × HashTable)
      (bs : List (List (Nat × (Nat × Char)))),
      [Call.insert (1, 'a'), .erase (2, 'a')].mapM (exec id 3) (Heap.empty, new) =
        .ok answers s ∧ s.2.stable = bs.map ptr ∧ Chains s.1 bs ∧
      ((s.2.size = bs.flatten.length ∧
          (∀ s', grow Prod.fst id 3 s = .ok () s' → s'.2.stable.length ≠ s.2.stable.length →
            bs.flatten.length = bs.length) ∧
          bs.flatten.length ≤ bs.length) ↔
        Call.NothingErased [Call.insert (1, 'a'), .erase (2, 'a')]) :=
  ⟨by decide, size_exact_iff id _ 3 (by decide)⟩

/-- A key is inserted and erased: the chains are empty, and `_size` is 1. After ten times
    the empty table doubles. -/
theorem size_drifts : returns ([Call.insert (1, 'a'), .erase (1, 'a')].mapM (exec id 3))
      (Heap.empty, new) = true ∧
    (stateAfter ([Call.insert (1, 'a'), .erase (1, 'a')].mapM (exec id 3))
      (Heap.empty, new)).2 = ⟨List.replicate 10 none, 1⟩ ∧
    (stateAfter (((List.replicate 10 [Call.insert (1, 'a'), .erase (1, 'a')]).flatten ++
      [Call.insert (1, 'a')]).mapM (exec id 3)) (Heap.empty, new)).2.stable.length = 20 := by
  decide +kernel

end runs

end CallLesson.Algorithm.Chained
