import CallLesson.Algorithm.RBIterators

/-! # `zhc::map`

    The map over `RBTree`. Its functor `mapKeyOft` returns the key as a `const V&`, so all
    keys are compared as values of type `V`. Where the key has to be converted to a
    temporary, as an `int` to a `char`, the reference is to an object that has ended, and a
    comparison, which reads it, is a fault. -/

namespace CallLesson.Algorithm.ZhcMap

open LinkedTree HeapM Exec BinTree RBTree

/-! ## Model -/

section model

variable {K V : Type}

/-- How `return v.first` makes a `const V&` of the key. -/
structure Conversion (K V : Type) where
  toV : K → V
  /-- The reference is not to the key or a part of it, but to a temporary. -/
  temporary : Bool

/-- `V` is `K`. -/
def Conversion.same (K : Type) : Conversion K K := ⟨id, false⟩

/-- What the reference of the functor reads, if its object lives. -/
def mapKeyOft (conv : K → V) (v : K × V) : V := conv v.1

variable [LT V] [DecidableLT V]

def insert (c : Conversion K V) (fuel : Nat) (kv : K × V) :
    HeapM (Node (Entry (K × V))) Ptr (Ptr × Bool) := do
  -- only in an empty tree does `RBTree::insert` compare no keys
  if c.temporary = true ∧ (← getObj) ≠ none then throw (.fault .badAccess)
  else RBTree.insert (mapKeyOft c.toV) fuel kv

def index (c : Conversion K V) (init : V) (fuel : Nat) (k : K) :
    HeapM (Node (Entry (K × V))) Ptr Ptr := do
  let res ← insert c fuel (k, init)
  pure res.1

def Entry.mapSecond (ψ : V → V) (e : Entry (K × V)) : Entry (K × V) :=
  { e with data := (e.data.1, ψ e.data.2) }

def use (c : Conversion K V) (init : V) (fuel : Nat) (u : K × (V → V)) :
    HeapM (Node (Entry (K × V))) Ptr Ptr := do
  let p ← index c init fuel u.1
  store p (Node.mapVal (Entry.mapSecond u.2))
  pure p

def keys (fuel : Nat) : HeapM (Node (Entry (K × V))) Ptr (List K) := do
  pure ((← forward fuel).map fun e => e.2.1)

end model

/-! ## Assignments to values -/

open List

section assign

variable {K V : Type} [LinearOrder V] {conv : K → V} {s : Heap (Node (Entry (K × V))) × Ptr}
  {t : BinTree (Entry (K × V))} {fs : Path (Entry (K × V))}

def keyOf (e : Entry (K × V)) : K := e.data.1

omit [LinearOrder V] in
theorem places_keyOf (t : BinTree (Entry (K × V))) :
    t.places keyOf = (t.places Entry.data).map fun e => (e.1, e.2.1) :=
  (map_places Prod.fst t).symm

theorem sorted_iff : ((t.items Entry.data).map (mapKeyOft conv)).Pairwise (· < ·) ↔
    ((t.places keyOf).map fun e => conv e.2).Pairwise (· < ·) := by
  rw [places_keyOf, ← map_snd_places, map_map, map_map]
  exact Iff.rfl

theorem wp_assign {a : Nat} {ψ : V → V} (h : RBTree.TreeOk (mapKeyOft conv) s t) (ha : a ∈ t.addrs)
    {Q : Unit → Heap (Node (Entry (K × V))) × Ptr → Prop}
    {E : Heap (Node (Entry (K × V))) × Ptr → Prop}
    (hQ : ∀ s' t', RBTree.TreeOk (mapKeyOft conv) s' t' → t'.places keyOf = t.places keyOf →
      Q () s') : wp (store (some a) (Node.mapVal (Entry.mapSecond ψ))) Q E s := by
  obtain ⟨fs, l, x, r, rfl⟩ := Path.exists_plug ha .left
  obtain ⟨m, hm⟩ := h.balanced
  obtain ⟨n, hn, hpath, hcol⟩ := pathOk_of_plug hm h.root
  refine (linked_plug.mpr h.linked).wp_mapVal fun s' h' => ?_
  have hplaces : (Path.plug fs (.mk .left l a (Entry.mapSecond ψ x) r)).places keyOf =
      (Path.plug fs (.mk .left l a x r)).places keyOf :=
    Path.places_plug_congr fs (places_mk_congr rfl rfl rfl)
  refine hQ s' _ ⟨linked_plug.mp h', ?_, ?_, ?_⟩ hplaces
  · rw [← h.root]
    exact color_plug_congr (by rw [color_mk, color_mk]; rfl) fs
  -- the colours are those before
  · have hparts := redBlack_mk.mp hn
    refine redBlack_plug hpath (redBlack_mk.mpr hparts) ?_
    rw [color_mk] at hcol ⊢
    intro hred hhead
    rw [hcol hred] at hhead
    cases hhead
  · rw [sorted_iff, hplaces]
    exact sorted_iff.mp h.sorted

end assign

/-! ## Runs of uses -/

section runs

variable {K V : Type} [LinearOrder V] {conv : K → V} {init : V}
  {s : Heap (Node (Entry (K × V))) × Ptr} {t : BinTree (Entry (K × V))} {us : List (K × (V → V))}
  {ps : List Ptr} {fuel : Nat}

theorem keys_of_inserted {k : K} {res : Ptr × Bool} {s' : Heap (Node (Entry (K × V))) × Ptr}
    {t' : BinTree (Entry (K × V))}
    (h : RBTree.Inserted (mapKeyOft conv) (k, init) s t res s' t') :
    (∃ e ∈ t'.places keyOf, res.1 = some e.1 ∧ conv e.2 = conv k) ∧
      (∀ e ∈ t.places keyOf, e ∈ t'.places keyOf) ∧
      (∀ e ∈ t'.places keyOf, e ∈ t.places keyOf ∨ e.2 = k) ∧
      (t'.places keyOf).length ≤ (t.places keyOf).length + 1 := by
  rw [places_keyOf, places_keyOf]
  cases h with
  | added a s' t' hinsert =>
    refine ⟨⟨(a, k), ?_, rfl, rfl⟩, ?_, ?_, ?_⟩
    · exact mem_map.mpr ⟨(a, (k, init)), (hinsert.mem_iff _).mpr (Or.inr ⟨rfl, rfl⟩), rfl⟩
    · rw [forall_mem_map]
      exact fun e he => mem_map_of_mem ((hinsert.mem_iff e).mpr (Or.inl he))
    · rw [forall_mem_map]
      intro e he
      rcases (hinsert.mem_iff e).mp he with he | ⟨-, rfl⟩
      · exact Or.inl (mem_map_of_mem he)
      · exact Or.inr rfl
    · simpa using hinsert.length_le
  | kept a y hmem hy =>
    refine ⟨⟨(a, y.1), mem_map_of_mem hmem, rfl, hy⟩, fun _ he => he, fun _ he => Or.inl he, ?_⟩
    omega

structure Used (conv : K → V) (us : List (K × (V → V))) (ps : List Ptr)
    (t : BinTree (Entry (K × V))) : Prop where
  found : ∀ x ∈ us.zip ps, ∃ e ∈ t.places keyOf, x.2 = some e.1 ∧ conv e.2 = conv x.1.1
  stored : ∀ e ∈ t.places keyOf, ∃ u ∈ us, u.1 = e.2
  length_eq : us.length = ps.length
  length_le : (t.places keyOf).length ≤ us.length

omit [LinearOrder V] in
theorem used_nil (conv : K → V) : Used conv [] [] .nil := ⟨nofun, nofun, rfl, le_refl 0⟩

theorem wp_use {c : Conversion K V} (h : RBTree.TreeOk (mapKeyOft c.toV) s t)
    (hused : Used c.toV us ps t) (hfirst : c.temporary = true → us = []) (u : K × (V → V))
    (hfuel : us.length < fuel) :
    wp (use c init fuel u)
      (fun p s' => ∃ t', RBTree.TreeOk (mapKeyOft c.toV) s' t' ∧
        Used c.toV (us ++ [u]) (ps ++ [p]) t')
      (fun _ => False) s := by
  have hle := hused.length_le
  rw [length_places] at hle
  have hheight : t.height < fuel := lt_of_le_of_lt (t.height_le_length.trans hle) hfuel
  have hroot : ¬ (c.temporary = true ∧ s.2 ≠ none) := by
    rintro ⟨htemp, hne⟩
    rw [hfirst htemp] at hle
    rw [show s.2 = t.ptr from h.linked.root, ne_eq, ptr_eq_none] at hne
    obtain ⟨l, a, e, r, rfl⟩ := exists_mk .left hne
    simp [mk, inorder] at hle
  unfold use index insert
  rw [wp_bind, wp_bind, wp_bind, wp_getObj, if_neg hroot]
  refine wp_imp (RBTree.wp_insert h (u.1, init) hheight) (fun res s1 hs1 => ?_)
  obtain ⟨t1, h1, hres⟩ := hs1
  obtain ⟨⟨e, he, hptr, hconv⟩, hkeep, honly, hlength⟩ := keys_of_inserted hres
  have ha : e.1 ∈ t1.addrs := by
    rw [← map_fst_places (φ := keyOf)]
    exact mem_map_of_mem he
  rw [wp_pure, hptr, wp_bind]
  refine wp_assign h1 ha fun s2 t2 h2 hplaces => ?_
  rw [wp_pure]
  -- an assignment to a value leaves all keys where they are
  refine ⟨t2, h2, ?_, ?_, by simp [hused.length_eq], ?_⟩
  · intro x hx
    rw [zip_append hused.length_eq, zip_cons_cons, zip_nil_right] at hx
    rw [hplaces]
    rcases mem_append.mp hx with hx | hx
    · obtain ⟨e', he', hfound⟩ := hused.found x hx
      exact ⟨e', hkeep e' he', hfound⟩
    · rw [mem_singleton] at hx
      subst hx
      exact ⟨e, he, rfl, hconv⟩
  · intro e' he'
    rw [hplaces] at he'
    rcases honly e' he' with he' | hk
    · obtain ⟨u', hu', hkey⟩ := hused.stored e' he'
      exact ⟨u', mem_append_left _ hu', hkey⟩
    · exact ⟨u, by simp, hk.symm⟩
  · have := hused.length_le
    rw [hplaces, length_append, length_singleton]
    omega

theorem wp_uses (c : Conversion K V) (init : V) {us : List (K × (V → V))}
    (hlive : c.temporary = true → us.length ≤ 1) (hfuel : us.length < fuel) :
    wp (us.mapM (use c init fuel))
      (fun ps s => ∃ t, RBTree.TreeOk (mapKeyOft c.toV) s t ∧ Used c.toV us ps t)
      (fun _ => False) (Heap.empty, none) := by
  refine wp_mapM (I := fun done ps s => ∃ t, RBTree.TreeOk (mapKeyOft c.toV) s t ∧
    Used c.toV done ps t) ⟨.nil, treeOk_nil _, used_nil _⟩ ?_
  intro done u rest ps s hus ⟨t, h, hused⟩
  have htotal := congrArg length hus
  rw [length_append, length_cons] at htotal
  refine wp_use h hused (fun htemp => ?_) u (by omega)
  have := hlive htemp
  exact eq_nil_of_length_eq_zero (by omega)

/-- The second use compares its key with that of the first one. -/
theorem wp_uses_dangling {c : Conversion K V} (htemp : c.temporary = true) (init : V)
    {us : List (K × (V → V))} (hmore : 1 < us.length) (hfuel : us.length < fuel) :
    wp (us.mapM (use c init fuel)) (fun _ _ => False) (fun _ => True) (Heap.empty, none) := by
  rcases us with _ | ⟨u, _ | ⟨v, rest⟩⟩
  · simp at hmore
  · simp at hmore
  have hfirst : wp (use c init fuel u) _ _ _ := wp_use (RBTree.treeOk_nil Heap.empty)
    (used_nil c.toV) (fun _ => rfl) u (lt_of_le_of_lt (Nat.zero_le _) hfuel)
  rw [mapM_cons, mapM_cons, wp_bind]
  refine wp_mono hfirst (fun p s hs => ?_) fun _ _ => trivial
  obtain ⟨t, htree, hused⟩ := hs
  obtain ⟨e, he, -⟩ := hused.found (u, p) (by simp)
  have hroot : s.2 ≠ none := by
    rw [show s.2 = t.ptr from htree.linked.root, ne_eq, ptr_eq_none]
    rintro rfl
    cases he
  unfold use index insert
  simp only [wp_bind, wp_getObj]
  rw [if_pos ⟨htemp, hroot⟩, wp_throw]
  trivial

theorem keys_eq (h : RBTree.TreeOk (mapKeyOft conv) s t) (hfuel : (t.places keyOf).length < fuel) :
    keys fuel s = .ok ((t.places keyOf).map Prod.snd) s := by
  rw [length_places] at hfuel
  apply eq_ok_of_wp
  unfold keys
  rw [wp_bind]
  refine wp_walk .right h.linked ?_ ?_
  · rwa [items, length_map]
  · rw [wp_pure, places_keyOf, map_map, map_map]
    exact ⟨rfl, rfl⟩

end runs

/-! ## Which keys are distinguished -/

section keys

variable {K V : Type} [LinearOrder K] [LinearOrder V] {conv : K → V} {t : BinTree (Entry (K × V))}
  {us : List (K × (V → V))} {ps : List Ptr} {init : V} {fuel : Nat} {c : Conversion K V}

/-- Two uses designate one value iff their keys are equal, and the iteration visits the keys in
    increasing order. -/
def Distinguishes (c : Conversion K V) (init : V) (fuel : Nat) (us : List (K × (V → V))) : Prop :=
  ∃ ps s ks, us.mapM (use c init fuel) (Heap.empty, none) = .ok ps s ∧
    keys fuel s = .ok ks s ∧ (∀ x ∈ us.zip ps, ∀ y ∈ us.zip ps, x.2 = y.2 ↔ x.1.1 = y.1.1) ∧
    ks.Pairwise (· < ·)

omit [LinearOrder K] in
theorem Used.ptr_eq_iff (h : Used conv us ps t) (hnodup : t.addrs.Nodup)
    (hsorted : ((t.places keyOf).map fun e => conv e.2).Pairwise (· < ·)) {x y : (K × (V → V)) × Ptr}
    (hx : x ∈ us.zip ps) (hy : y ∈ us.zip ps) : x.2 = y.2 ↔ conv x.1.1 = conv y.1.1 := by
  obtain ⟨e, he, hxe, hconve⟩ := h.found x hx
  obtain ⟨f, hf, hyf, hconvf⟩ := h.found y hy
  rw [← map_fst_places (φ := keyOf)] at hnodup
  rw [hxe, hyf, ← hconve, ← hconvf]
  constructor
  · intro hptr
    rw [inj_on_of_nodup_map hnodup he hf (Option.some.inj hptr)]
  · intro hconv
    rw [inj_on_of_nodup_map hsorted.nodup he hf hconv]

variable {u : K × (V → V)}

omit [LinearOrder K] [LinearOrder V] in
theorem Used.exists_zip (h : Used conv us ps t) (hu : u ∈ us) : ∃ p, (u, p) ∈ us.zip ps := by
  have hfst : (us.zip ps).map Prod.fst = us := map_fst_zip (by rw [h.length_eq])
  rw [← hfst] at hu
  obtain ⟨⟨_, p⟩, hmem, rfl⟩ := mem_map.mp hu
  exact ⟨p, hmem⟩

theorem length_of_distinguishes (hfuel : us.length < fuel) (h : Distinguishes c init fuel us)
    (htemp : c.temporary = true) : us.length ≤ 1 := by
  obtain ⟨ps, s, ks, hrun, -⟩ := h
  by_contra hmore
  exact wp_ok (wp_uses_dangling htemp init (not_le.mp hmore) hfuel) hrun

theorem lt_of_distinguishes (hfuel : us.length < fuel) (h : Distinguishes c init fuel us)
    {u' : K × (V → V)} (hu : u ∈ us) (hu' : u' ∈ us) (hlt : u.1 < u'.1) :
    c.toV u.1 < c.toV u'.1 := by
  have hlive := length_of_distinguishes hfuel h
  obtain ⟨ps, s, ks, hrun, hkeys, hptr, hks⟩ := h
  obtain ⟨t, htree, hused⟩ := wp_ok (wp_uses c init hlive hfuel) hrun
  have hnodup := htree.linked.nodup_addrs
  have hsorted := sorted_iff.mp htree.sorted
  rw [keys_eq htree (lt_of_le_of_lt hused.length_le hfuel)] at hkeys
  cases hkeys
  -- keys with the same conversion are equal, so that each key is stored itself
  have hinj : ∀ v ∈ us, ∀ v' ∈ us, c.toV v.1 = c.toV v'.1 → v.1 = v'.1 := by
    intro v hv v' hv' hconv
    obtain ⟨p, hp⟩ := hused.exists_zip hv
    obtain ⟨q, hq⟩ := hused.exists_zip hv'
    exact (hptr _ hp _ hq).mp ((hused.ptr_eq_iff hnodup hsorted hp hq).mpr hconv)
  have hstored : ∀ v ∈ us, ∃ e ∈ t.places keyOf, e.2 = v.1 := by
    intro v hv
    obtain ⟨p, hp⟩ := hused.exists_zip hv
    obtain ⟨e, he, -, hconv⟩ := hused.found _ hp
    obtain ⟨v', hv', hkey⟩ := hused.stored e he
    exact ⟨e, he, hkey.symm.trans (hinj v' hv' v hv (hkey ▸ hconv))⟩
  obtain ⟨e, he, hek⟩ := hstored u hu
  obtain ⟨f, hf, hfk⟩ := hstored u' hu'
  rw [← hek, ← hfk] at hlt ⊢
  -- the two orders agree on the stored keys
  have hboth := (pairwise_map.mp hks).and (pairwise_map.mp hsorted)
  have hagree : ∀ e ∈ t.places keyOf, ∀ f ∈ t.places keyOf, e.2 < f.2 ↔ c.toV e.2 < c.toV f.2 := by
    refine List.Pairwise.forall_of_forall_of_flip (fun e _ => by simp) ?_ ?_
    · exact hboth.imp fun hrel => iff_of_true hrel.1 hrel.2
    · exact hboth.imp fun hrel => iff_of_false hrel.1.not_gt hrel.2.not_gt
  exact (hagree e he f hf).mp hlt

theorem lt_of_conv_lt (hmono : ∀ u ∈ us, ∀ u' ∈ us, u.1 < u'.1 → conv u.1 < conv u'.1)
    {u' : K × (V → V)} (hu : u ∈ us) (hu' : u' ∈ us) (hlt : conv u.1 < conv u'.1) : u.1 < u'.1 := by
  rcases lt_trichotomy u.1 u'.1 with hless | heq | hgt
  · exact hless
  · exact absurd (congrArg conv heq) hlt.ne
  · exact absurd hlt (hmono u' hu' u hu hgt).not_gt

/-- **Keys**: a map distinguishes the keys it is used with, and visits them in their order, iff
    the conversion to the type of the values is strictly increasing on them and, where it makes
    a temporary, the map is used only once. -/
theorem map_distinguishes_iff (c : Conversion K V) (init : V) (us : List (K × (V → V))) (fuel : Nat)
    (hfuel : us.length < fuel) :
    Distinguishes c init fuel us ↔ (c.temporary = true → us.length ≤ 1) ∧
      ∀ u ∈ us, ∀ u' ∈ us, u.1 < u'.1 → c.toV u.1 < c.toV u'.1 := by
  refine ⟨fun h => ⟨length_of_distinguishes hfuel h, fun u hu u' hu' hlt =>
    lt_of_distinguishes hfuel h hu hu' hlt⟩, ?_⟩
  rintro ⟨hlive, hmono⟩
  obtain ⟨ps, s, hrun, t, htree, hused⟩ := exists_of_wp (wp_uses c init hlive hfuel)
  have hnodup := htree.linked.nodup_addrs
  have hsorted := sorted_iff.mp htree.sorted
  refine ⟨ps, s, _, hrun, keys_eq htree (lt_of_le_of_lt hused.length_le hfuel), ?_, ?_⟩
  · intro x hx y hy
    have hxu := (List.of_mem_zip hx).1
    have hyu := (List.of_mem_zip hy).1
    rw [hused.ptr_eq_iff hnodup hsorted hx hy]
    -- the tree tells keys apart by their conversions
    refine ⟨fun hconv => ?_, fun heq => by rw [heq]⟩
    rcases lt_trichotomy x.1.1 y.1.1 with hlt | heq | hgt
    · exact absurd hconv (hmono _ hxu _ hyu hlt).ne
    · exact heq
    · exact absurd hconv (hmono _ hyu _ hxu hgt).ne'
  · rw [List.pairwise_map] at hsorted ⊢
    refine hsorted.imp_of_mem fun {e f} he hf hlt => ?_
    obtain ⟨u, hu, hue⟩ := hused.stored e he
    obtain ⟨u', hu', huf⟩ := hused.stored f hf
    rw [← hue, ← huf] at hlt ⊢
    exact lt_of_conv_lt hmono hu hu' hlt

/-- The keys and the values are of type `int`. -/
theorem map_distinguishes_ints : Distinguishes (.same Int) 0 3 [(7, id), (-2, fun _ => 5)] :=
  (map_distinguishes_iff (.same Int) 0 [(7, id), (-2, fun _ => 5)] 3 (by decide)).mpr
    ⟨nofun, fun _ _ _ _ hlt => hlt⟩

def intToChar : Conversion Int Int := ⟨fun n => n.bmod (2 ^ 8), true⟩

/-- Keys of type `int` and values of type `char`: the comparison of 1 with 2 is a fault. -/
theorem map_reads_dangling : (∃ s, [(1, id), (2, id)].mapM (use intToChar 0 3) (Heap.empty, none) =
      .error (.fault .badAccess) s) ∧ ¬ Distinguishes intToChar 0 3 [(1, id), (2, id)] := by
  have hfault : ∃ s, [(1, id), (2, id)].mapM (use intToChar 0 3) (Heap.empty, none) =
      .error (.fault .badAccess) s := ⟨_, rfl⟩
  refine ⟨hfault, ?_⟩
  rintro ⟨ps, s, ks, hrun, -⟩
  obtain ⟨s', hs'⟩ := hfault
  cases hrun.symm.trans hs'

end keys

end CallLesson.Algorithm.ZhcMap
