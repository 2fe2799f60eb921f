import CallLesson.Algorithm.OpenHash

/-! # Which calls of the open-addressing table return

    The loop of `find` goes on until an empty slot or the key, and an erased entry does
    not leave its slot empty. The load that lets the table grow does not count such slots,
    so they can fill the table, and then `find` of a key that is not there goes around
    for ever. -/

namespace CallLesson.Algorithm.Open

open Fuel Extends

open Option

namespace Hash

variable {K V : Type} [DecidableEq K] {hf : K → Nat} {t t' : Hash K V} {m n : Nat} {k : K}

/-! ## More fuel -/

theorem find_extends (hmn : m ≤ n) (k : K) : Extends (t.find hf m k) (t.find hf n k) := by
  rw [find, find, findLoop_eq, findLoop_eq]
  exact (Probe.search_extends _ _ hmn).map _

omit [DecidableEq K] in
theorem place_extends (hmn : m ≤ n) (kv : K × V) : Extends (t.place hf m kv) (t.place hf n kv) := by
  rw [place, place, freeLoop_eq, freeLoop_eq]
  exact (Probe.search_extends _ _ hmn).map _

omit [DecidableEq K] in
theorem rehash_extends {f g : Hash K V → K × V → Option (Hash K V × Bool)}
    (hfg : ∀ t kv, Extends (f t kv) (g t kv)) (es : List (HashData K V)) :
    ∀ t : Hash K V, Extends (rehash f es t) (rehash g es t) := by
  induction es with
  | nil => exact fun t => refl _
  | cons e es ih =>
    intro t
    exact ite _ ((hfg t e.kv).bind fun r => ih r.1) (ih t)

variable [Inhabited K] [Inhabited V]

theorem insert_extends : ∀ {m n : Nat} (t : Hash K V) (kv : K × V), m ≤ n →
    Extends (t.insert hf m kv) (t.insert hf n kv) := by
  intro m
  induction m with
  | zero =>
    intro n t kv _ r h
    cases h
  | succ m ih =>
    intro n t kv hmn
    obtain ⟨n, rfl⟩ : ∃ n', n = n' + 1 := ⟨n - 1, by omega⟩
    refine (find_extends (by omega) kv.1).bind fun r => ?_
    cases r with
    | some i => exact refl _
    | none =>
      refine bind (ite _ ?_ (refl _)) fun t1 =>
        (place_extends (by omega) kv).map _
      exact (rehash_extends (fun t kv => ih t kv (by omega)) _ _).map _

theorem exec_extends (hmn : m ≤ n) (t : Hash K V) (c : Call K V) :
    Extends (t.exec hf m c) (t.exec hf n c) := by
  cases c with
  | insert kv => exact (insert_extends t kv hmn).map _
  | erase k => exact ((find_extends hmn k).map _).map _
  | find k => exact (find_extends hmn k).map _
  | write k v => exact (find_extends hmn k).map _

theorem execs_extends (hmn : m ≤ n) (cs : List (Call K V)) :
    ∀ t : Hash K V, Extends (t.execs hf m cs) (t.execs hf n cs) := by
  induction cs with
  | nil => exact fun t => refl _
  | cons c cs ih =>
    intro t
    exact (exec_extends hmn t c).bind fun r => (ih r.1).map _

end Hash

/-! ## Enough fuel -/

def Call.key {K V : Type} : Call K V → K
  | .insert kv => kv.1
  | .erase k => k
  | .find k => k
  | .write k _ => k

namespace Hash

variable {K V : Type} {hf : K → Nat} {t t' : Hash K V} {fuel : Nat} {k : K}

def Ends (t : Hash K V) (k : K) : Prop :=
  (∃ i, (t.hs i).states = .empty) ∨ ∃ i, t.Live i ∧ (t.hs i).kv.1 = k

def Clean (t : Hash K V) : Prop := ∀ i, (t.hs i).states ≠ .delete

theorem TableOk.n_le_size (hok : TableOk hf t) : t.n ≤ t.size := by
  rw [hok.count]
  calc Tally.tally occupied t.hs ≤ ∑ _i : Fin t.size, 1 := Finset.sum_le_sum fun i _ => by
        unfold occupied
        split <;> omega
    _ = t.size := by simp

theorem TableOk.exists_free (hok : TableOk hf t) (hn : t.n < t.size) :
    ∃ i, (t.hs i).states ≠ .exist := by
  by_contra hall
  push Not at hall
  have hfull : Tally.tally occupied t.hs = t.size := by
    have hone : ∀ i, occupied (t.hs i) = 1 := fun i => if_pos (hall i)
    simp [Tally.tally, hone]
  rw [hok.count, hfull] at hn
  exact lt_irrefl _ hn

theorem TableOk.place_isSome (hok : TableOk hf t) (hn : t.n < t.size) (hfuel : t.size ≤ fuel)
    (kv : K × V) : (t.place hf fuel kv).isSome := by
  obtain ⟨i, hi⟩ := hok.exists_free hn
  rw [Hash.place, freeLoop_eq, isSome_map]
  exact Probe.search_isSome_of_exists (r := i) (decide_eq_true hi) _ hfuel

theorem Clean.ends (hclean : t.Clean) (hok : TableOk hf t) (hn : t.n < t.size) (k : K) :
    t.Ends k := by
  obtain ⟨i, hi⟩ := hok.exists_free hn
  have hdel := hclean i
  refine Or.inl ⟨i, ?_⟩
  cases hstates : (t.hs i).states with
  | empty => rfl
  | exist => exact absurd hstates hi
  | delete => exact absurd hstates hdel

theorem Clean.place (hclean : t.Clean) {kv : K × V} (h : t.place hf fuel kv = some t') :
    t'.Clean ∧ t'.size = t.size := by
  obtain ⟨i, _, rfl⟩ := map_eq_some_iff.mp h
  refine ⟨fun (i' : Fin t.size) => ?_, rfl⟩
  show (Function.update t.hs i { kv := kv, states := .exist } i').states ≠ .delete
  by_cases hi : i' = i
  · rw [hi, Function.update_self]
    simp
  · rw [Function.update_of_ne hi]
    exact hclean i'

variable [DecidableEq K]

theorem find_isSome (hf : K → Nat) (h : t.Ends k) (hfuel : t.size ≤ fuel) :
    (t.find hf fuel k).isSome := by
  rw [find, findLoop_eq, isSome_map]
  rcases h with ⟨i, hempty⟩ | ⟨i, hlive, hk⟩
  · have hstops : t.stops k i = true := by simp [stops, hempty]
    exact Probe.search_isSome_of_exists hstops _ hfuel
  · have hstops : t.stops k i = true := by
      simp [stops, show (t.hs i).states = .exist from hlive, hk]
    exact Probe.search_isSome_of_exists hstops _ hfuel

theorem ends_of_find (h : (t.find hf fuel k).isSome) : t.Ends k := by
  obtain ⟨r, hr⟩ := isSome_iff_exists.mp h
  rcases find_cases hr with ⟨i, _, hi⟩ | ⟨_, j, hempty, _⟩
  · exact Or.inr ⟨i, hi⟩
  · exact Or.inl ⟨_, hempty⟩

variable [Inhabited K] [Inhabited V]

theorem insert_succ (hf : K → Nat) (fuel : Nat) (t : Hash K V) (kv : K × V) :
    t.insert hf (fuel + 1) kv = (t.find hf fuel kv.1).bind fun
      | some _ => some (t, false)
      | none =>
          (if 7 < t.n * 10 / t.size then t.grow (Hash.insert hf fuel) else some t).bind fun t =>
            (t.place hf fuel kv).map fun t => (t, true) :=
  rfl

theorem Clean.insert (hclean : t.Clean) (hok : TableOk hf t) (hhalf : 2 * t.n ≤ t.size)
    (hfuel : t.size ≤ fuel) (kv : K × V) :
    ∃ t' b, t.insert hf (fuel + 1) kv = some (t', b) ∧ TableOk hf t' ∧ t'.Clean ∧
      t'.size = t.size ∧ t'.n ≤ t.n + 1 := by
  have hpos := t.pos
  have hlight : ¬ 7 < t.n * 10 / t.size := by
    rw [not_lt]
    calc t.n * 10 / t.size ≤ 5 * t.size / t.size := Nat.div_le_div_right (by omega)
      _ = 5 := Nat.mul_div_cancel 5 hpos
      _ ≤ 7 := by decide
  obtain ⟨r, hr⟩ := isSome_iff_exists.mp (find_isSome hf (hclean.ends hok (by omega) kv.1) hfuel)
  cases r with
  | some i =>
    refine ⟨t, false, ?_, hok, hclean, rfl, Nat.le_succ _⟩
    rw [insert_succ]
    simp [hr]
  | none =>
    obtain ⟨t', ht'⟩ := isSome_iff_exists.mp (hok.place_isSome (by omega) hfuel kv)
    have hadded := hok.place (hok.absent_of_find hr) ht'
    obtain ⟨hclean', hsize⟩ := hclean.place ht'
    refine ⟨t', true, ?_, hadded.ok, hclean', hsize, hadded.n.le⟩
    rw [insert_succ]
    simp [hr, hlight, ht']

theorem Clean.rehash (es : List (HashData K V)) :
    ∀ {t : Hash K V}, t.Clean → TableOk hf t → 2 * (t.n + es.length) ≤ t.size → t.size ≤ fuel →
      ∃ t', Hash.rehash (Hash.insert hf (fuel + 1)) es t = some t' ∧ t'.size = t.size := by
  induction es with
  | nil => exact fun {t} _ _ _ _ => ⟨t, rfl, rfl⟩
  | cons e es ih =>
    intro t hclean hok hhalf hfuel
    simp only [List.length_cons] at hhalf
    by_cases hexist : e.states = .exist
    · obtain ⟨t1, b, hinsert, hok1, hclean1, hsize1, hn1⟩ :=
        hclean.insert hok (by omega) hfuel e.kv
      obtain ⟨t', ht', hsize'⟩ := ih hclean1 hok1 (by omega) (by omega)
      refine ⟨t', ?_, hsize'.trans hsize1⟩
      simp [Hash.rehash, hexist, hinsert, ht']
    · obtain ⟨t', ht', hsize'⟩ := ih hclean hok (by omega) hfuel
      refine ⟨t', ?_, hsize'⟩
      simp [Hash.rehash, hexist, ht']

theorem grow_isSome (hf : K → Nat) (hfuel : t.size * 2 ≤ fuel) :
    ∃ t', t.grow (Hash.insert hf (fuel + 1)) = some t' ∧ t'.size = t.size * 2 ∧ t'.n = t.n := by
  have hpos : 0 < t.size * 2 := by
    have := t.pos
    omega
  have hclean : (resized K V (t.size * 2) hpos).Clean := fun i => by simp [resized]
  have hok : TableOk hf (resized K V (t.size * 2) hpos) := TableOk.resized _ hpos
  obtain ⟨t', ht', hsize⟩ := hclean.rehash (List.ofFn t.hs) hok (by simp [resized]; omega) hfuel
  exact ⟨{ t' with n := t.n }, by rw [grow, ht', map_some], hsize, rfl⟩

theorem TableOk.insert_isSome (hok : TableOk hf t) {kv : K × V} (h : t.Ends kv.1)
    (hfuel : t.size * 2 ≤ fuel) : (t.insert hf (fuel + 2) kv).isSome := by
  have hfind : (t.find hf (fuel + 1) kv.1).isSome := find_isSome hf h (by omega)
  obtain ⟨r, hr⟩ := isSome_iff_exists.mp hfind
  have hn := hok.n_le_size
  have hpos := t.pos
  cases r with
  | some i =>
    rw [insert_succ]
    simp [hr]
  | none =>
    by_cases hload : 7 < t.n * 10 / t.size
    · obtain ⟨t1, hgrow, hsize, hn1⟩ := grow_isSome hf hfuel
      have hok1 := (Inserts.grow (inserts hf (fuel + 1)) hok hgrow).1
      have hplace : (t1.place hf (fuel + 1) kv).isSome :=
        hok1.place_isSome (by omega) (by omega) kv
      rw [insert_succ]
      simp [hr, hload, hgrow, hplace]
    · have hlt : t.n < t.size := by
        have := (Nat.div_lt_iff_lt_mul hpos).mp (Nat.lt_succ_of_le (not_lt.mp hload))
        omega
      have hplace : (t.place hf (fuel + 1) kv).isSome := hok.place_isSome hlt (by omega) kv
      rw [insert_succ]
      simp [hr, hload, hplace]

theorem TableOk.exec_isSome_iff (hok : TableOk hf t) (c : Call K V) :
    (∃ fuel, (t.exec hf fuel c).isSome) ↔ t.Ends c.key := by
  constructor
  · intro ⟨fuel, h⟩
    cases c with
    | insert kv =>
      cases fuel with
      | zero => simp [exec, Hash.insert] at h
      | succ fuel =>
        have hfind : (t.find hf fuel kv.1).isSome := by
          by_contra hnone
          rw [not_isSome_iff_eq_none] at hnone
          simp [exec, insert_succ, hnone] at h
        exact ends_of_find hfind
    | erase k => exact ends_of_find (by simpa [exec, Hash.erase, Call.key] using h)
    | find k => exact ends_of_find (by simpa [exec, Call.key] using h)
    | write k v => exact ends_of_find (by simpa [exec, Call.key] using h)
  · intro h
    refine ⟨t.size * 2 + 2, ?_⟩
    have hfind : (t.find hf (t.size * 2 + 2) c.key).isSome := find_isSome hf h (by omega)
    cases c with
    | insert kv => simpa [exec] using hok.insert_isSome h le_rfl
    | erase k => simpa [exec, Hash.erase, Call.key] using hfind
    | find k => simpa [exec, Call.key] using hfind
    | write k v => simpa [exec, Call.key] using hfind

/-! ## Sequences of calls -/

def Completes (hf : K → Nat) (t : Hash K V) (cs : List (Call K V)) : Prop :=
  ∃ fuel, (t.execs hf fuel cs).isSome

def After (hf : K → Nat) (t : Hash K V) (cs : List (Call K V)) (t' : Hash K V) : Prop :=
  ∃ fuel answers, t.execs hf fuel cs = some (t', answers)

theorem execs_append (hf : K → Nat) (fuel : Nat) (cs cs' : List (Call K V)) :
    ∀ t : Hash K V, t.execs hf fuel (cs ++ cs') = (t.execs hf fuel cs).bind fun r =>
      (r.1.execs hf fuel cs').map fun r' => (r'.1, r.2 ++ r'.2) := by
  induction cs with
  | nil =>
    intro t
    simp [execs]
  | cons c cs ih =>
    intro t
    simp only [List.cons_append, execs, ih, bind_assoc]
    congr 1
    funext r
    cases r.1.execs hf fuel cs with
    | none => rfl
    | some r' => simp only [bind_some, map_some, map_map, Function.comp_def,
        List.cons_append]

theorem After.ok {cs : List (Call K V)} (h : After hf (new K V) cs t) : TableOk hf t := by
  obtain ⟨fuel, answers, hrun⟩ := h
  exact ((TableOk.resized _ _).execs_onMap agrees_new hrun).1

theorem completes_append_iff {cs : List (Call K V)} {c : Call K V} :
    Completes hf (new K V) (cs ++ [c]) ↔
      Completes hf (new K V) cs ∧ ∀ t, After hf (new K V) cs t → t.Ends c.key := by
  constructor
  · intro ⟨fuel, h⟩
    obtain ⟨r, hr⟩ := isSome_iff_exists.mp h
    rw [execs_append] at hr
    obtain ⟨⟨t1, as1⟩, hcs, hlast⟩ := bind_eq_some_iff.mp hr
    refine ⟨⟨fuel, by rw [hcs]; rfl⟩, fun t hafter => ?_⟩
    obtain ⟨fuel', answers, hcs'⟩ := hafter
    have hextends : ∀ {m n}, m ≤ n → Extends ((new K V).execs hf m cs) ((new K V).execs hf n cs) :=
      fun hmn => execs_extends hmn cs _
    have heq : (t1, as1) = (t, answers) := Fuel.eq_of_extends hextends hcs hcs'
    obtain ⟨rfl, rfl⟩ : t1 = t ∧ as1 = answers := by simpa using heq
    refine ((After.ok ⟨fuel, _, hcs⟩).exec_isSome_iff c).mp ⟨fuel, ?_⟩
    by_contra hnone
    rw [not_isSome_iff_eq_none] at hnone
    simp [execs, show t1.exec hf fuel c = none from hnone] at hlast
  · intro ⟨⟨fuel, h⟩, hends⟩
    obtain ⟨⟨t1, as1⟩, hcs⟩ := isSome_iff_exists.mp h
    have hafter : After hf (new K V) cs t1 := ⟨fuel, as1, hcs⟩
    obtain ⟨fuel', h'⟩ := (hafter.ok.exec_isSome_iff c).mpr (hends t1 hafter)
    -- both parts return with the larger fuel
    refine ⟨max fuel fuel', ?_⟩
    have hcs' := execs_extends (Nat.le_max_left fuel fuel') cs _ _ hcs
    obtain ⟨r, hr⟩ := isSome_iff_exists.mp h'
    have hlast := exec_extends (Nat.le_max_right fuel fuel') t1 c r hr
    rw [execs_append, hcs', bind_some, isSome_map]
    simp [execs, hlast]

/-- **Which sequences of calls return**: exactly those in which every call meets a table
    with an empty slot, or one that has the key. -/
theorem open_hash_completes_iff (hf : K → Nat) (cs : List (Call K V)) :
    Completes hf (new K V) cs ↔ ∀ before c rest, cs = before ++ c :: rest →
      ∀ t, After hf (new K V) before t → t.Ends c.key := by
  induction cs using List.reverseRecOn with
  | nil =>
    refine ⟨fun _ before c rest h => by simp at h, fun _ => ⟨0, rfl⟩⟩
  | append_singleton cs c ih =>
    rw [completes_append_iff, ih]
    constructor
    · intro ⟨hcs, hlast⟩ before c' rest h
      rcases List.eq_nil_or_concat rest with rfl | ⟨rest', c'', rfl⟩
      · obtain ⟨rfl, hc⟩ := List.append_inj' h rfl
        cases hc
        exact hlast
      · rw [List.concat_eq_append, ← List.cons_append, ← List.append_assoc] at h
        obtain ⟨rfl, _⟩ := List.append_inj' h rfl
        exact hcs before c' rest' rfl
    · intro hall
      refine ⟨fun before c' rest h => ?_, hall cs c [] rfl⟩
      exact hall before c' (rest ++ [c]) (by rw [h, List.append_assoc, List.cons_append])

/-- Ten keys are inserted and erased one after the other. None of the slots is empty after
    that, and looking for the first of the keys does not end. -/
theorem open_hash_not_completes : ¬ ∀ cs : List (Call Nat Nat), Completes id (new Nat Nat) cs := by
  intro hall
  obtain ⟨r, hrun, hdeleted⟩ := Option.map_eq_some_iff.mp
    (show ((new Nat Nat).execs id 12 ((List.range 10).flatMap fun k =>
        [.insert (k, 0), .erase k])).map
        (fun r => (List.ofFn r.1.hs).all fun e => e.states == .delete) = some true by
      decide +kernel)
  have hends := (completes_append_iff.mp (hall (_ ++ [.find 0]))).2 r.1 ⟨12, r.2, hrun⟩
  have hslot : ∀ i, (r.1.hs i).states = .delete := fun i =>
    beq_iff_eq.mp (List.all_eq_true.mp hdeleted _ (List.mem_ofFn.mpr ⟨i, rfl⟩))
  rcases hends with ⟨i, hi⟩ | ⟨i, hi, _⟩
  · simp [hslot i] at hi
  · simp [Live, hslot i] at hi

end Hash

end CallLesson.Algorithm.Open
