import CallLesson.Algorithm.UnorderedMap

/-! # `zhc::unordered_set`

    The set over `zhc_hash::HashTable`, whose items are the keys themselves. `insert` gives
    back what the table's `insert` returns, an iterator and a flag; a caller who reads
    through the iterator finds the key that was asked for, and the flag says nothing. -/

namespace CallLesson.Algorithm.Chained.UnorderedSet

open Chain HeapM Exec

/-! ## Model -/

section model

variable {K : Type} [DecidableEq K] (hf : K → Nat)

def setOft (k : K) : K := k

def insert (fuel : Nat) (key : K) : HeapM (Link K) HashTable (Ptr × Bool) :=
  Zhc.insert setOft hf fuel key

def report (fuel : Nat) (key : K) : HeapM (Link K) HashTable (K × Bool) := do
  let ret ← insert hf fuel key
  let n ← load ret.1
  pure (n.val, ret.2)

def visitAll (fuel : Nat) : HeapM (Link K) HashTable (List K) := Zhc.visitAll setOft hf fuel

end model

/-! ## What the calls report -/

open List

section reports

variable {K : Type} [DecidableEq K] {hf : K → Nat} {s : Heap (Link K) × HashTable}
  {bs : List (List (Nat × K))} {fuel : Nat} {k : K}

structure Reports (ks : List K) (rs : List (K × Bool)) (items : List K) : Prop where
  designates : rs.map Prod.fst = ks
  flags : ∀ i k r, ks[i]? = some k → rs[i]? = some r → (r.2 = true ↔ k ∉ ks.take i)
  total : rs.countP Prod.snd = items.length

theorem wp_report (h : TableOk setOft hf s bs) (hfuel : bs.flatten.length < fuel) :
    wp (report hf fuel k)
      (fun r s' => r = (k, false) ∧ ∃ bs', TableOk setOft hf s' bs' ∧
        (∀ x, x ∈ bs'.flatten.map Prod.snd ↔ x ∈ bs.flatten.map Prod.snd ∨ x = k) ∧
        bs'.flatten.length ≤ bs.flatten.length + 1)
      (fun _ => False) s := by
  unfold report insert
  rw [wp_bind]
  refine Zhc.wp_insert h hfuel (fun s' bs' a _ h' hperm => ?_) fun e he hek => ?_
  · obtain ⟨q, hq⟩ := h'.chains.cell_of_mem (hperm.mem_iff.mpr mem_cons_self)
    rw [wp_bind, wp_load hq, wp_pure]
    refine ⟨rfl, bs', h', fun x => ?_, ?_⟩
    · rw [(hperm.map Prod.snd).mem_iff, map_cons, mem_cons, or_comm]
    · rw [hperm.length_eq, length_cons]
  · -- the key is its own item
    obtain rfl : e.2 = k := hek
    obtain ⟨q, hq⟩ := h.chains.cell_of_mem he
    rw [wp_bind, wp_load hq, wp_pure]
    refine ⟨rfl, bs, h, fun x => ⟨Or.inl, ?_⟩, by omega⟩
    rintro (hx | rfl)
    · exact hx
    · exact mem_map_of_mem he

theorem wp_reports (hf : K → Nat) {ks : List K} (hfuel : ks.length < fuel) :
    wp (ks.mapM (report hf fuel))
      (fun rs s => rs = ks.map (·, false) ∧ ∃ bs, TableOk setOft hf s bs ∧
        (∀ x, x ∈ bs.flatten.map Prod.snd ↔ x ∈ ks) ∧ bs.flatten.length ≤ ks.length)
      (fun _ => False) (Heap.empty, HashTable.new) := by
  refine wp_mapM (I := fun done rs s => rs = done.map (·, false) ∧ ∃ bs,
    TableOk setOft hf s bs ∧ (∀ x, x ∈ bs.flatten.map Prod.snd ↔ x ∈ done) ∧
      bs.flatten.length ≤ done.length)
    ⟨rfl, _, tableOk_new setOft hf, by simp, by simp⟩ ?_
  intro done k rest rs s hks ⟨hrs, bs, h, hmem, hlength⟩
  have htotal := congrArg length hks
  rw [length_append, length_cons] at htotal
  refine wp_imp (wp_report h (by omega)) (fun r s' hs' => ?_)
  obtain ⟨hr, bs', h', hmem', hlength'⟩ := hs'
  refine ⟨by rw [hrs, hr, map_append, map_singleton], bs', h', fun x => ?_, ?_⟩
  · rw [hmem', hmem, mem_append, mem_singleton]
  · rw [length_append, length_singleton]
    omega

/-- **The result of `insert`**: a sequence of calls on a new set returns, and the set is what
    it should be: a loop from `begin()` to `end()` visits each inserted key once. Each call
    returns an iterator to its key, but the flag is `false` every time, so that the calls
    report what they did if and only if there are none. -/
theorem insert_reports_iff (hf : K → Nat) (ks : List K) (fuel : Nat) (hfuel : ks.length < fuel) :
    ∃ rs s items, ks.mapM (report hf fuel) (Heap.empty, HashTable.new) = .ok rs s ∧
      visitAll hf fuel s = .ok items s ∧ items.Nodup ∧ (∀ k, k ∈ items ↔ k ∈ ks) ∧
      rs = ks.map (·, false) ∧ (Reports ks rs items ↔ ks = []) := by
  obtain ⟨rs, s, hrun, hrs, bs, h, hmem, hlength⟩ := exists_of_wp (wp_reports hf hfuel)
  have hvisit : visitAll hf fuel s = .ok (bs.flatten.map Prod.snd) s :=
    eq_ok_of_wp (Zhc.wp_visitAll h (by omega) ⟨rfl, rfl⟩)
  refine ⟨rs, s, _, hrun, hvisit, h.unique, hmem, hrs, fun hreports => ?_, ?_⟩
  · -- the first call has added its key
    cases ks with
    | nil => rfl
    | cons k ks =>
      have hflag := hreports.flags 0 k (k, false) rfl (by rw [hrs]; rfl)
      simp at hflag
  · rintro rfl
    refine ⟨by simp [hrs], by simp, ?_⟩
    have hempty : bs.flatten.map Prod.snd = [] :=
      List.eq_nil_iff_forall_not_mem.mpr fun x hx => List.not_mem_nil ((hmem x).mp hx)
    rw [hempty, hrs]
    rfl

theorem insert_reports_iff_twice : [5, 5].length < 3 ∧
    ∃ rs s items, [5, 5].mapM (report id 3) (Heap.empty, HashTable.new) = .ok rs s ∧
      visitAll id 3 s = .ok items s ∧ items.Nodup ∧ (∀ k, k ∈ items ↔ k ∈ [5, 5]) ∧
      rs = [5, 5].map (·, false) ∧ (Reports [5, 5] rs items ↔ [5, 5] = []) :=
  ⟨by decide, insert_reports_iff id [5, 5] 3 (by decide)⟩

/-- One key: it is there afterwards, and the call that has put it there says that it has not. -/
theorem insert_denies_news :
    ∃ s, [5].mapM (report id 2) (Heap.empty, HashTable.new) = .ok [(5, false)] s ∧
      visitAll id 2 s = .ok [5] s ∧ ¬ Reports [5] [(5, false)] [5] := by
  refine ⟨_, rfl, rfl, fun h => ?_⟩
  have htotal := h.total
  simp at htotal

end reports

end CallLesson.Algorithm.Chained.UnorderedSet
