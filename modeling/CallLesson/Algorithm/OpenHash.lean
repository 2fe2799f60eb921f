import CallLesson.Framework.Probe
import CallLesson.Framework.Tally
import CallLesson.Framework.Dict

/-! # The open-addressing hash table

    `zhc_test1::Hash` of `Algorithm/HashTable.hpp`. A slot is empty, or holds an entry, or
    held one that has been erased. The loops have a fuel: `none` says that a call has not
    returned within so many steps. The index of a slot is always reduced by the size of
    the table, which is never 0, so it is a number below the size by its type. -/

namespace CallLesson.Algorithm.Open

open Probe

/-! ## Model -/

inductive States where
  | empty
  | exist
  | delete
  deriving DecidableEq

structure HashData (K V : Type) where
  kv : K × V
  states : States := .empty
  deriving DecidableEq

structure Hash (K V : Type) where
  size : Nat
  pos : 0 < size
  hs : Fin size → HashData K V
  n : Nat

namespace Hash

variable {K V : Type} [DecidableEq K] [Inhabited K] [Inhabited V]

def resized (K V : Type) [Inhabited K] [Inhabited V] (size : Nat) (pos : 0 < size) : Hash K V where
  size := size
  pos := pos
  hs := fun _ => { kv := default }
  n := 0

def new (K V : Type) [Inhabited K] [Inhabited V] : Hash K V := resized K V 10 (by decide)

def home (t : Hash K V) (hf : K → Nat) (k : K) : Fin t.size := ⟨hf k % t.size, Nat.mod_lt _ t.pos⟩

def findLoop (t : Hash K V) (k : K) : Nat → Fin t.size → Option (Option (Fin t.size))
  | 0, _ => none
  | fuel + 1, index =>
      if (t.hs index).states ≠ .empty then
        if (t.hs index).states = .exist ∧ (t.hs index).kv.1 = k then some (some index)
        else t.findLoop k fuel (ahead index 1)
      else some none

def find (hf : K → Nat) (fuel : Nat) (t : Hash K V) (k : K) : Option (Option (Fin t.size)) :=
  t.findLoop k fuel (t.home hf k)

def freeLoop (t : Hash K V) : Nat → Fin t.size → Option (Fin t.size)
  | 0, _ => none
  | fuel + 1, index =>
      if (t.hs index).states = .exist then t.freeLoop fuel (ahead index 1) else some index

def setSlot (t : Hash K V) (i : Fin t.size) (d : HashData K V) : Hash K V :=
  { t with hs := Function.update t.hs i d }

def place (hf : K → Nat) (fuel : Nat) (t : Hash K V) (kv : K × V) : Option (Hash K V) :=
  (t.freeLoop fuel (t.home hf kv.1)).map fun index =>
    { t.setSlot index { kv := kv, states := .exist } with n := t.n + 1 }

def rehash (insert : Hash K V → K × V → Option (Hash K V × Bool)) :
    List (HashData K V) → Hash K V → Option (Hash K V)
  | [], newHash => some newHash
  | e :: es, newHash =>
      if e.states = .exist then (insert newHash e.kv).bind fun r => rehash insert es r.1
      else rehash insert es newHash

def grow (insert : Hash K V → K × V → Option (Hash K V × Bool)) (t : Hash K V) :
    Option (Hash K V) :=
  (rehash insert (List.ofFn t.hs) (resized K V (t.size * 2) (by have := t.pos; omega))).map
    fun newHash => { newHash with n := t.n }

def insert (hf : K → Nat) : Nat → Hash K V → K × V → Option (Hash K V × Bool)
  | 0, _, _ => none
  | fuel + 1, t, kv =>
      (t.find hf fuel kv.1).bind fun
      | some _ => some (t, false)
      | none =>
          (if 7 < t.n * 10 / t.size then t.grow (insert hf fuel) else some t).bind fun t =>
            (t.place hf fuel kv).map fun t => (t, true)

def erase (hf : K → Nat) (fuel : Nat) (t : Hash K V) (k : K) : Option (Hash K V × Bool) :=
  (t.find hf fuel k).map fun
  | some pos => ({ t.setSlot pos { (t.hs pos) with states := .delete } with n := t.n - 1 }, true)
  | none => (t, false)

end Hash

inductive Call (K V : Type) where
  | insert (kv : K × V)
  | erase (k : K)
  | find (k : K)
  | write (k : K) (v : V)
  deriving DecidableEq

inductive Answer (K V : Type) where
  | flag (b : Bool)
  | entry (e : Option (K × V))
  deriving DecidableEq

namespace Hash

variable {K V : Type} [DecidableEq K] [Inhabited K] [Inhabited V]

def exec (hf : K → Nat) (fuel : Nat) (t : Hash K V) : Call K V → Option (Hash K V × Answer K V)
  | .insert kv => (t.insert hf fuel kv).map fun r => (r.1, .flag r.2)
  | .erase k => (t.erase hf fuel k).map fun r => (r.1, .flag r.2)
  | .find k => (t.find hf fuel k).map fun pos => (t, .entry (pos.map fun i => (t.hs i).kv))
  | .write k v =>
      (t.find hf fuel k).map fun
      | some i =>
          (t.setSlot i { (t.hs i) with kv := ((t.hs i).kv.1, v) }, .entry (some ((t.hs i).kv.1, v)))
      | none => (t, .entry none)

def execs (hf : K → Nat) (fuel : Nat) : Hash K V → List (Call K V) →
    Option (Hash K V × List (Answer K V))
  | t, [] => some (t, [])
  | t, c :: cs =>
      (t.exec hf fuel c).bind fun r =>
        (execs hf fuel r.1 cs).map fun r' => (r'.1, r.2 :: r'.2)

end Hash

/-! ## Slots and entries -/

open List Option Function

namespace Hash

variable {K V : Type} {hf : K → Nat} {t t' : Hash K V} {fuel : Nat} {k : K}

def Live (t : Hash K V) (i : Fin t.size) : Prop := (t.hs i).states = .exist

def occupied (d : HashData K V) : Nat := if d.states = .exist then 1 else 0

def Maps (t : Hash K V) (k : K) (v : V) : Prop := ∃ i, t.hs i = { kv := (k, v), states := .exist }

def Absent (t : Hash K V) (k : K) : Prop := ∀ v, ¬ t.Maps k v

def Bridged (hf : K → Nat) (t : Hash K V) (i : Fin t.size) : Prop :=
  ∃ j, ahead (t.home hf (t.hs i).kv.1) j = i ∧
    ∀ l < j, (t.hs (ahead (t.home hf (t.hs i).kv.1) l)).states ≠ .empty

structure TableOk (hf : K → Nat) (t : Hash K V) : Prop where
  bridged : ∀ i, t.Live i → t.Bridged hf i
  unique : ∀ i i', t.Live i → t.Live i' → (t.hs i).kv.1 = (t.hs i').kv.1 → i = i'
  count : t.n = Tally.tally occupied t.hs

variable {i : Fin t.size} {d : HashData K V}

theorem maps_of_live (hlive : t.Live i) : t.Maps (t.hs i).kv.1 (t.hs i).kv.2 :=
  ⟨i, by rw [← hlive]⟩

theorem absent_iff : t.Absent k ↔ ∀ i, t.Live i → (t.hs i).kv.1 ≠ k := by
  constructor
  · intro h i hi hk
    exact h _ (hk ▸ maps_of_live hi)
  · intro h v ⟨i, hi⟩
    exact h i (by rw [Live, hi]) (by rw [hi])

def Agrees (t : Hash K V) (m : Dict K V) : Prop := ∀ k v, t.Maps k v ↔ m k = some v

theorem Agrees.absent_iff {m : Dict K V} (h : t.Agrees m) (k : K) : t.Absent k ↔ m k = none := by
  simp only [Absent, h k, eq_none_iff_forall_ne_some]

theorem Agrees.of_live {m : Dict K V} (h : t.Agrees m) (hlive : t.Live i) :
    m (t.hs i).kv.1 = some (t.hs i).kv.2 :=
  (h _ _).mp (maps_of_live hlive)

theorem freeLoop_eq (t : Hash K V) (fuel : Nat) (i : Fin t.size) :
    t.freeLoop fuel i = search (fun i => decide ((t.hs i).states ≠ .exist)) fuel i := by
  induction fuel generalizing i with
  | zero => rfl
  | succ fuel ih =>
    simp only [freeLoop, search, decide_eq_true_eq]
    by_cases hexist : (t.hs i).states = .exist
    · simp only [hexist, if_true, ne_eq, not_true_eq_false, if_false]
      exact ih _
    · simp [hexist]

theorem bridged_setSlot {i' : Fin t.size} (hd : d.states ≠ .empty)
    (hkey : i' = i → d.kv.1 = (t.hs i).kv.1) (h : t.Bridged hf i') :
    (t.setSlot i d).Bridged hf i' := by
  have hkv : ((t.setSlot i d).hs i').kv.1 = (t.hs i').kv.1 := by
    by_cases hi : i' = i
    · subst hi
      simpa [setSlot] using hkey rfl
    · simp [setSlot, hi]
  obtain ⟨j, hj, hbefore⟩ := h
  refine ⟨j, ?_, fun l hl => ?_⟩
  · rw [hkv]
    exact hj
  · rw [hkv]
    show (update t.hs i d (ahead (t.home hf (t.hs i').kv.1) l)).states ≠ .empty
    by_cases hi : ahead (t.home hf (t.hs i').kv.1) l = i
    · rw [hi, update_self]
      exact hd
    · rw [update_of_ne hi]
      exact hbefore l hl

theorem tally_setSlot (t : Hash K V) (i : Fin t.size) (d : HashData K V) :
    Tally.tally occupied (t.setSlot i d).hs + occupied (t.hs i) =
      Tally.tally occupied t.hs + occupied d :=
  Tally.tally_update occupied t.hs i d

theorem live_setSlot {i' : Fin t.size} :
    (t.setSlot i d).Live i' ↔ i' = i ∧ d.states = .exist ∨ i' ≠ i ∧ t.Live i' := by
  by_cases hi : i' = i
  · subst hi
    simp [Live, setSlot]
  · simp [Live, setSlot, hi]

theorem maps_setSlot {v : V} : (t.setSlot i d).Maps k v ↔ d = { kv := (k, v), states := .exist } ∨
      ∃ i', i' ≠ i ∧ t.hs i' = { kv := (k, v), states := .exist } := by
  constructor
  · intro ⟨(i' : Fin t.size), hi'⟩
    change update t.hs i d i' = _ at hi'
    by_cases hi : i' = i
    · subst hi
      exact Or.inl (by simpa using hi')
    · exact Or.inr ⟨i', hi, by simpa [hi] using hi'⟩
  · intro h
    rcases h with hd | ⟨i', hi, hi'⟩
    · exact ⟨i, by simpa [setSlot] using hd⟩
    · exact ⟨i', by simpa [setSlot, hi] using hi'⟩

theorem TableOk.setSlot (hok : TableOk hf t) {n : Nat} (hd : d.states ≠ .empty)
    (hbridged : d.states = .exist → (t.setSlot i d).Bridged hf i)
    (hunique : d.states = .exist → ∀ i', i' ≠ i → t.Live i' → (t.hs i').kv.1 ≠ d.kv.1)
    (hcount : n + occupied (t.hs i) = t.n + occupied d) :
    TableOk hf { t.setSlot i d with n := n } where
  bridged := by
    refine fun (i' : Fin t.size) hlive => ?_
    rcases live_setSlot.mp hlive with ⟨rfl, hexist⟩ | ⟨hne, hlive⟩
    · exact hbridged hexist
    · exact bridged_setSlot hd (fun h => absurd h hne) (hok.bridged i' hlive)
  unique := by
    refine fun (i1 i2 : Fin t.size) h1 h2 hkey => ?_
    change (update t.hs i d i1).kv.1 = (update t.hs i d i2).kv.1 at hkey
    -- a pair with the written slot goes by `hunique`, one without it is as before
    rcases live_setSlot.mp h1 with ⟨rfl, hexist⟩ | ⟨hne1, hlive1⟩
    · rcases live_setSlot.mp h2 with ⟨rfl, _⟩ | ⟨hne2, hlive2⟩
      · rfl
      · rw [update_self, update_of_ne hne2] at hkey
        exact absurd hkey.symm (hunique hexist i2 hne2 hlive2)
    · rcases live_setSlot.mp h2 with ⟨rfl, hexist⟩ | ⟨hne2, hlive2⟩
      · rw [update_self, update_of_ne hne1] at hkey
        exact absurd hkey (hunique hexist i1 hne1 hlive1)
      · rw [update_of_ne hne1, update_of_ne hne2] at hkey
        exact hok.unique i1 i2 hlive1 hlive2 hkey
  count := by
    have := tally_setSlot t i d
    have := hok.count
    show n = Tally.tally occupied (t.setSlot i d).hs
    omega

theorem TableOk.maps_ne (hok : TableOk hf t) (hlive : t.Live i) {v : V} :
    (∃ i', i' ≠ i ∧ t.hs i' = { kv := (k, v), states := .exist }) ↔
      k ≠ (t.hs i).kv.1 ∧ t.Maps k v := by
  constructor
  · intro ⟨i', hne, hi'⟩
    refine ⟨fun hk => hne (hok.unique i' i ?_ hlive ?_), i', hi'⟩
    · rw [Live, hi']
    · rw [hi', hk]
  · intro ⟨hk, i', hi'⟩
    refine ⟨i', fun hii => hk ?_, hi'⟩
    rw [← hii, hi']

theorem TableOk.pos_of_live (hok : TableOk hf t) (hlive : t.Live i) : 0 < t.n := by
  have hle := Tally.le_tally occupied t.hs i
  have hone : occupied (t.hs i) = 1 := if_pos hlive
  have := hok.count
  omega

structure Added (hf : K → Nat) (t : Hash K V) (kv : K × V) (t' : Hash K V) : Prop where
  ok : TableOk hf t'
  n : t'.n = t.n + 1
  maps : ∀ k v, t'.Maps k v ↔ (k, v) = kv ∨ t.Maps k v

theorem TableOk.place (hok : TableOk hf t) {kv : K × V} (habsent : t.Absent kv.1)
    (h : t.place hf fuel kv = some t') : Added hf t kv t' := by
  rw [Hash.place, freeLoop_eq] at h
  obtain ⟨i, hsearch, rfl⟩ := map_eq_some_iff.mp h
  obtain ⟨hfree, j, hj, hbefore⟩ := exists_of_search hsearch
  have hfree : (t.hs i).states ≠ .exist := decide_eq_true_eq.mp hfree
  refine ⟨hok.setSlot (by simp) (fun _ => ?_) (fun _ i' _ hlive => ?_) ?_, rfl, fun k v => ?_⟩
  · -- the slots that were tried before all hold entries
    refine ⟨j, ?_, fun l hl => ?_⟩
    · show ahead (t.home hf (update t.hs i _ i).kv.1) j = i
      rw [update_self]
      exact hj
    · have hexist : (t.hs (ahead (t.home hf kv.1) l)).states = .exist := by
        simpa using hbefore l hl
      have hne : ahead (t.home hf kv.1) l ≠ i := fun hi => hfree (hi ▸ hexist)
      simp only [Hash.setSlot, update_self]
      show (update t.hs i _ (ahead (t.home hf kv.1) l)).states ≠ .empty
      rw [update_of_ne hne, hexist]
      simp
  · exact absent_iff.mp habsent i' hlive
  · simp [occupied, hfree]
  · show (t.setSlot i { kv := kv, states := .exist }).Maps k v ↔ _
    rw [maps_setSlot]
    constructor
    · intro hmaps
      rcases hmaps with hd | ⟨i', _, hi'⟩
      · simp only [HashData.mk.injEq] at hd
        exact Or.inl hd.1.symm
      · exact Or.inr ⟨i', hi'⟩
    · intro hmaps
      rcases hmaps with hkv | ⟨i', hi'⟩
      · exact Or.inl (by rw [hkv])
      · refine Or.inr ⟨i', fun hii => hfree ?_, hi'⟩
        rw [← hii, hi']

theorem TableOk.write (hok : TableOk hf t) (hlive : t.Live i) (v : V) :
    TableOk hf (t.setSlot i { (t.hs i) with kv := ((t.hs i).kv.1, v) }) ∧
      ∀ k' v', (t.setSlot i { (t.hs i) with kv := ((t.hs i).kv.1, v) }).Maps k' v' ↔
        k' = (t.hs i).kv.1 ∧ v' = v ∨ k' ≠ (t.hs i).kv.1 ∧ t.Maps k' v' := by
  have hexist : (t.hs i).states = .exist := hlive
  constructor
  · refine hok.setSlot (by simp [hexist]) (fun _ => ?_) (fun _ i' hne hlive' hkey => ?_) ?_
    · exact bridged_setSlot (by simp [hexist]) (fun _ => rfl) (hok.bridged i hlive)
    · exact hne (hok.unique i' i hlive' hlive hkey)
    · simp [occupied]
  · intro k' v'
    rw [maps_setSlot, hok.maps_ne hlive]
    refine or_congr ?_ Iff.rfl
    simp only [HashData.mk.injEq, Prod.mk.injEq, hexist, and_true]
    exact and_congr eq_comm eq_comm

theorem TableOk.resized [Inhabited K] [Inhabited V] (size : Nat) (pos : 0 < size) :
    TableOk hf (resized K V size pos) where
  bridged i hlive := by cases hlive
  unique i i' hlive := by cases hlive
  count := (Tally.tally_eq_zero.mpr fun _ => rfl).symm

theorem absent_resized [Inhabited K] [Inhabited V] (size : Nat) (pos : 0 < size) (k : K) :
    (resized K V size pos).Absent k :=
  absent_iff.mpr fun _ hlive => by cases hlive

theorem agrees_new [Inhabited K] [Inhabited V] : (new K V).Agrees Dict.empty := fun k v =>
  iff_of_false (absent_resized _ _ k v) (by simp [Dict.empty])

/-! ## Probe chains -/

variable [DecidableEq K]

def stops (t : Hash K V) (k : K) (i : Fin t.size) : Bool :=
  decide ((t.hs i).states = .empty ∨ (t.hs i).states = .exist ∧ (t.hs i).kv.1 = k)

theorem findLoop_eq (t : Hash K V) (k : K) (fuel : Nat) (i : Fin t.size) :
    t.findLoop k fuel i = (search (t.stops k) fuel i).map fun i =>
      if (t.hs i).states = .empty then none else some i := by
  induction fuel generalizing i with
  | zero => rfl
  | succ fuel ih =>
    simp only [findLoop, search, stops, decide_eq_true_eq]
    by_cases hempty : (t.hs i).states = .empty
    · simp [hempty]
    · by_cases hk : (t.hs i).states = .exist ∧ (t.hs i).kv.1 = k
      · simp [hk]
      · simp only [hempty, hk, ne_eq, not_false_iff, if_true, if_false, false_or]
        exact ih _

theorem find_cases {r : Option (Fin t.size)} (h : t.find hf fuel k = some r) :
    (∃ i, r = some i ∧ t.Live i ∧ (t.hs i).kv.1 = k) ∨
      r = none ∧ ∃ j, (t.hs (ahead (t.home hf k) j)).states = .empty ∧
        ∀ l < j, t.stops k (ahead (t.home hf k) l) = false := by
  rw [find, findLoop_eq] at h
  obtain ⟨i, hsearch, rfl⟩ := map_eq_some_iff.mp h
  obtain ⟨hstops, j, rfl, hbefore⟩ := exists_of_search hsearch
  by_cases hempty : (t.hs (ahead (t.home hf k) j)).states = .empty
  · exact Or.inr ⟨by simp [hempty], j, hempty, hbefore⟩
  · have hkey := (decide_eq_true_eq.mp hstops).resolve_left hempty
    exact Or.inl ⟨_, by simp [hempty], hkey.1, hkey.2⟩

theorem live_of_find (h : t.find hf fuel k = some (some i)) : t.Live i ∧ (t.hs i).kv.1 = k := by
  rcases find_cases h with ⟨i', hi', hlive⟩ | ⟨hnone, _⟩
  · cases hi'
    exact hlive
  · cases hnone

theorem TableOk.absent_of_find (hok : TableOk hf t) (h : t.find hf fuel k = some none) :
    t.Absent k := by
  rw [absent_iff]
  intro i hlive hk
  rcases find_cases h with ⟨i', hi', _⟩ | ⟨_, j, hempty, hbefore⟩
  · cases hi'
  · obtain ⟨j', hj', hbridge⟩ := hok.bridged i hlive
    rw [hk] at hj' hbridge
    rcases Nat.lt_trichotomy j j' with hlt | heq | hgt
    · exact hbridge j hlt hempty
    · rw [heq, hj'] at hempty
      rw [Live, hempty] at hlive
      cases hlive
    · have := hbefore j' hgt
      rw [hj'] at this
      simp [stops, hk, show (t.hs i).states = .exist from hlive] at this

theorem TableOk.erase (hok : TableOk hf t) {b : Bool} (h : t.erase hf fuel k = some (t', b)) :
    TableOk hf t' ∧ (b = true ↔ ¬ t.Absent k) ∧ ∀ k' v, t'.Maps k' v ↔ k' ≠ k ∧ t.Maps k' v := by
  obtain ⟨r, hfind, hr⟩ := map_eq_some_iff.mp h
  cases r with
  | none =>
    simp only [Prod.mk.injEq] at hr
    obtain ⟨rfl, rfl⟩ := hr
    have habsent := hok.absent_of_find hfind
    refine ⟨hok, by simp [habsent], fun k' v => ⟨fun hv => ⟨?_, hv⟩, fun hv => hv.2⟩⟩
    intro hk
    exact habsent v (hk ▸ hv)
  | some i =>
    simp only [Prod.mk.injEq] at hr
    obtain ⟨rfl, rfl⟩ := hr
    obtain ⟨hlive, hk⟩ := live_of_find hfind
    -- the slot is marked `DELETE` and not `EMPTY`, which keeps every probe path whole
    refine ⟨hok.setSlot (by simp) (by simp) (by simp) ?_, ?_, fun k' v => ?_⟩
    · have := hok.pos_of_live hlive
      simp only [occupied, show (t.hs i).states = .exist from hlive, if_true]
      simp only [reduceCtorEq, if_false]
      omega
    · have : ¬ t.Absent k := fun habsent => absent_iff.mp habsent i hlive hk
      simp [this]
    · show (t.setSlot i _).Maps k' v ↔ _
      rw [maps_setSlot, hok.maps_ne hlive, hk]
      simp

/-! ## Growth -/

def Inserts (hf : K → Nat) (insert : Hash K V → K × V → Option (Hash K V × Bool)) : Prop :=
  ∀ {t kv t' b}, TableOk hf t → insert t kv = some (t', b) →
    b = false ∧ t' = t ∧ ¬ t.Absent kv.1 ∨ b = true ∧ t.Absent kv.1 ∧ Added hf t kv t'

variable {insert : Hash K V → K × V → Option (Hash K V × Bool)}

theorem Inserts.rehash (hins : Inserts hf insert) (es : List (HashData K V)) :
    ∀ {t t' : Hash K V}, TableOk hf t →
      (es.filter fun e => decide (e.states = .exist)).Pairwise (fun e e' => e.kv.1 ≠ e'.kv.1) →
      (∀ e ∈ es, e.states = .exist → t.Absent e.kv.1) → rehash insert es t = some t' →
      TableOk hf t' ∧ t'.n = t.n + (es.map occupied).sum ∧
        ∀ k v, t'.Maps k v ↔ { kv := (k, v), states := .exist } ∈ es ∨ t.Maps k v := by
  induction es with
  | nil =>
    intro t t' hok _ _ h
    cases h
    simp [hok]
  | cons e es ih =>
    intro t t' hok hkeys habsent h
    simp only [Hash.rehash] at h
    by_cases hexist : e.states = .exist
    · rw [if_pos hexist] at h
      obtain ⟨⟨t1, b⟩, hinsert, hrest⟩ := bind_eq_some_iff.mp h
      have habs := habsent e mem_cons_self hexist
      rcases hins hok hinsert with ⟨_, _, hpresent⟩ | ⟨_, _, hadded⟩
      · exact absurd habs hpresent
      · rw [filter_cons_of_pos (by simpa using hexist), pairwise_cons] at hkeys
        -- the keys still to come differ from the one just added
        have habsent1 : ∀ e' ∈ es, e'.states = .exist → t1.Absent e'.kv.1 := by
          intro e' he' hexist' v hv
          rcases (hadded.maps _ _).mp hv with heq | hold
          · refine hkeys.1 e' (mem_filter.mpr ⟨he', by simpa using hexist'⟩) ?_
            exact (congrArg Prod.fst heq).symm
          · exact habsent e' (mem_cons_of_mem e he') hexist' v hold
        obtain ⟨hok', hn, hmaps⟩ := ih hadded.ok hkeys.2 habsent1 hrest
        refine ⟨hok', ?_, fun k v => ?_⟩
        · rw [hn, hadded.n, map_cons, sum_cons, occupied, if_pos hexist]
          omega
        · have hcons : ({ kv := (k, v), states := .exist } : HashData K V) = e ↔ (k, v) = e.kv := by
            rw [← hexist]
            constructor
            · intro he
              rw [← he]
            · intro he
              rw [he]
          rw [hmaps, hadded.maps, mem_cons, hcons]
          tauto
    · rw [if_neg hexist] at h
      rw [filter_cons_of_neg (by simpa using hexist)] at hkeys
      obtain ⟨hok', hn, hmaps⟩ := ih hok hkeys (fun e' he' => habsent e' (mem_cons_of_mem e he')) h
      refine ⟨hok', ?_, fun k v => ?_⟩
      · rw [hn, map_cons, sum_cons, occupied, if_neg hexist, Nat.zero_add]
      · have hne : ({ kv := (k, v), states := .exist } : HashData K V) ≠ e := by
          intro he
          exact hexist (he ▸ rfl)
        rw [hmaps, mem_cons]
        simp [hne]

variable [Inhabited K] [Inhabited V]

theorem Inserts.grow (hins : Inserts hf insert) (hok : TableOk hf t) (h : t.grow insert = some t') :
    TableOk hf t' ∧ t'.n = t.n ∧ ∀ k v, t'.Maps k v ↔ t.Maps k v := by
  obtain ⟨newHash, hrehash, rfl⟩ := map_eq_some_iff.mp h
  have hkeys : ((ofFn t.hs).filter fun e => decide (e.states = .exist)).Pairwise
      (fun e e' => e.kv.1 ≠ e'.kv.1) := by
    rw [pairwise_filter, pairwise_ofFn]
    intro i i' hlt hi hi' hkey
    have hlive : t.Live i := by simpa [Live] using hi
    have hlive' : t.Live i' := by simpa [Live] using hi'
    exact hlt.ne (hok.unique i i' hlive hlive' hkey)
  obtain ⟨hok', hn, hmaps⟩ := hins.rehash _ (TableOk.resized _ _) hkeys
    (fun e _ _ => absent_resized _ _ e.kv.1) hrehash
  have hcount : newHash.n = t.n := by
    have hsum : ((ofFn t.hs).map occupied).sum = Tally.tally occupied t.hs := by
      rw [map_ofFn, sum_ofFn]
      rfl
    rw [hn, hsum, ← hok.count]
    exact Nat.zero_add _
  refine ⟨⟨hok'.bridged, hok'.unique, hcount ▸ hok'.count⟩, rfl, fun k v => ?_⟩
  refine (hmaps k v).trans ?_
  rw [mem_ofFn, or_iff_left (absent_resized _ _ k v)]
  exact Iff.rfl

theorem inserts (hf : K → Nat) (fuel : Nat) :
    Inserts hf (Hash.insert (K := K) (V := V) hf fuel) := by
  induction fuel with
  | zero =>
    intro t kv t' b _ h
    cases h
  | succ fuel ih =>
    intro t kv t' b hok h
    obtain ⟨r, hfind, h⟩ := bind_eq_some_iff.mp h
    cases r with
    | some i =>
      obtain ⟨rfl, rfl⟩ : t = t' ∧ false = b := by simpa using h
      obtain ⟨hlive, hk⟩ := live_of_find hfind
      exact Or.inl ⟨rfl, rfl, fun habsent => absent_iff.mp habsent i hlive hk⟩
    | none =>
      have habsent := hok.absent_of_find hfind
      obtain ⟨t1, hgrow, h⟩ := bind_eq_some_iff.mp h
      obtain ⟨t2, hplace, heq⟩ := map_eq_some_iff.mp h
      obtain ⟨rfl, rfl⟩ : t2 = t' ∧ true = b := by simpa using heq
      -- grown or not, the table has the entries that it had
      have hsame : TableOk hf t1 ∧ t1.n = t.n ∧ ∀ k v, t1.Maps k v ↔ t.Maps k v := by
        split at hgrow
        · exact ih.grow hok hgrow
        · cases hgrow
          exact ⟨hok, rfl, fun _ _ => Iff.rfl⟩
      obtain ⟨hok1, hn1, hmaps1⟩ := hsame
      have hadded := hok1.place (fun v hv => habsent v ((hmaps1 _ _).mp hv)) hplace
      refine Or.inr ⟨rfl, habsent, hadded.ok, hn1 ▸ hadded.n, fun k v => ?_⟩
      rw [hadded.maps, hmaps1]

end Hash

/-! ## The table as a map -/

section map

variable {K V : Type} [DecidableEq K]

def Call.onMap (m : Dict K V) : Call K V → Dict K V × Answer K V
  | .insert kv => (m.insert kv.1 kv.2, .flag (m kv.1).isNone)
  | .erase k => (m.erase k, .flag (m k).isSome)
  | .find k => (m, .entry ((m k).map fun v => (k, v)))
  | .write k v =>
      match m k with
      | some _ => (m.assign k v, .entry (some (k, v)))
      | none => (m, .entry none)

def Call.allOnMap : Dict K V → List (Call K V) → Dict K V × List (Answer K V)
  | m, [] => (m, [])
  | m, c :: cs =>
      ((allOnMap (c.onMap m).1 cs).1, (c.onMap m).2 :: (allOnMap (c.onMap m).1 cs).2)

namespace Hash

variable {hf : K → Nat} {t t' : Hash K V} {fuel : Nat} {m : Dict K V}

theorem TableOk.find_onMap (hok : TableOk hf t) (hm : t.Agrees m) {k : K}
    {r : Option (Fin t.size)} (h : t.find hf fuel k = some r) :
    r.map (fun i => (t.hs i).kv) = (m k).map fun v => (k, v) := by
  cases r with
  | none => rw [(hm.absent_iff k).mp (hok.absent_of_find h), map_none, map_none]
  | some i =>
    obtain ⟨hlive, rfl⟩ := live_of_find h
    rw [hm.of_live hlive, map_some, map_some]

theorem TableOk.erase_onMap (hok : TableOk hf t) (hm : t.Agrees m) {k : K} {b : Bool}
    (h : t.erase hf fuel k = some (t', b)) :
    TableOk hf t' ∧ t'.Agrees (m.erase k) ∧ b = (m k).isSome := by
  obtain ⟨hok', hb, hmaps⟩ := hok.erase h
  refine ⟨hok', fun k' v => ?_, ?_⟩
  · rw [hmaps, hm k' v]
    by_cases hk : k' = k
    · simp [hk]
    · simp [hk]
  · rw [hm.absent_iff] at hb
    cases hmk : m k <;> simpa [hmk] using hb

variable [Inhabited K] [Inhabited V]

theorem TableOk.insert_onMap (hok : TableOk hf t) (hm : t.Agrees m) {kv : K × V} {b : Bool}
    (h : t.insert hf fuel kv = some (t', b)) :
    TableOk hf t' ∧ t'.Agrees (m.insert kv.1 kv.2) ∧ b = (m kv.1).isNone := by
  rcases inserts hf fuel hok h with ⟨rfl, rfl, hpresent⟩ | ⟨rfl, habsent, hadded⟩
  · rw [hm.absent_iff] at hpresent
    obtain ⟨v, hv⟩ := ne_none_iff_exists'.mp hpresent
    refine ⟨hok, fun k v' => ?_, by simp [hv]⟩
    rw [hm k v']
    by_cases hk : k = kv.1
    · subst hk
      simp [Dict.insert, hv]
    · rw [Dict.insert_ne m kv.2 hk]
  · rw [hm.absent_iff] at habsent
    refine ⟨hadded.ok, fun k v' => ?_, by simp [habsent]⟩
    rw [hadded.maps, hm k v', Prod.ext_iff]
    by_cases hk : k = kv.1
    · subst hk
      simp [Dict.insert_of_none kv.2 habsent, habsent, eq_comm]
    · rw [Dict.insert_ne m kv.2 hk]
      simp [hk]

theorem TableOk.exec_onMap (hok : TableOk hf t) (hm : t.Agrees m) {c : Call K V}
    {a : Answer K V} (h : t.exec hf fuel c = some (t', a)) :
    TableOk hf t' ∧ t'.Agrees (c.onMap m).1 ∧ a = (c.onMap m).2 := by
  cases c with
  | insert kv =>
    obtain ⟨r, hinsert, hr⟩ := map_eq_some_iff.mp h
    obtain ⟨rfl, rfl⟩ : r.1 = t' ∧ Answer.flag r.2 = a := by simpa using hr
    obtain ⟨hok', hm', hb⟩ := hok.insert_onMap hm hinsert
    exact ⟨hok', hm', congrArg Answer.flag hb⟩
  | erase k =>
    obtain ⟨r, herase, hr⟩ := map_eq_some_iff.mp h
    obtain ⟨rfl, rfl⟩ : r.1 = t' ∧ Answer.flag r.2 = a := by simpa using hr
    obtain ⟨hok', hm', hb⟩ := hok.erase_onMap hm herase
    exact ⟨hok', hm', congrArg Answer.flag hb⟩
  | find k =>
    obtain ⟨r, hfind, hr⟩ := map_eq_some_iff.mp h
    obtain ⟨rfl, rfl⟩ : t = t' ∧ Answer.entry (r.map fun i => (t.hs i).kv) = a := by simpa using hr
    exact ⟨hok, hm, congrArg Answer.entry (hok.find_onMap hm hfind)⟩
  | write k v =>
    obtain ⟨r, hfind, hr⟩ := map_eq_some_iff.mp h
    cases r with
    | none =>
      obtain ⟨rfl, rfl⟩ : t = t' ∧ Answer.entry none = a := by simpa using hr
      have hnone := (hm.absent_iff k).mp (hok.absent_of_find hfind)
      simp only [Call.onMap, hnone]
      exact ⟨hok, hm, trivial⟩
    | some i =>
      obtain ⟨hlive, rfl⟩ := live_of_find hfind
      obtain ⟨rfl, rfl⟩ : t.setSlot i { (t.hs i) with kv := ((t.hs i).kv.1, v) } = t' ∧
          Answer.entry (some ((t.hs i).kv.1, v)) = a := by simpa using hr
      -- a write goes through the pointer that `find` returned; the key stays
      obtain ⟨hok', hmaps⟩ := hok.write hlive v
      simp only [Call.onMap, hm.of_live hlive]
      refine ⟨hok', fun k' v' => ?_, trivial⟩
      rw [hmaps, hm k' v']
      by_cases hk : k' = (t.hs i).kv.1
      · simp [hk, eq_comm]
      · simp [hk]

theorem TableOk.execs_onMap {cs : List (Call K V)} :
    ∀ {t t' : Hash K V} {m : Dict K V} {answers : List (Answer K V)}, TableOk hf t →
      t.Agrees m → t.execs hf fuel cs = some (t', answers) →
      TableOk hf t' ∧ t'.Agrees (Call.allOnMap m cs).1 ∧ answers = (Call.allOnMap m cs).2 := by
  induction cs with
  | nil =>
    intro t t' m answers hok hm h
    cases h
    exact ⟨hok, hm, rfl⟩
  | cons c cs ih =>
    intro t t' m answers hok hm h
    obtain ⟨⟨t1, a⟩, hexec, h⟩ := bind_eq_some_iff.mp h
    obtain ⟨⟨t2, as⟩, hrest, heq⟩ := map_eq_some_iff.mp h
    obtain ⟨rfl, rfl⟩ : t2 = t' ∧ a :: as = answers := by simpa using heq
    obtain ⟨hok1, hm1, ha⟩ := hok.exec_onMap hm hexec
    obtain ⟨hok2, hm2, has⟩ := ih hok1 hm1 hrest
    exact ⟨hok2, hm2, by rw [ha, has]; rfl⟩

/-- **The table is a map**: a sequence of calls that all return gives the answers that a
    map gives, and leaves the entries of the map in slots of their own, as many as `_n`
    says. -/
theorem open_hash_refines_map {cs : List (Call K V)} {answers : List (Answer K V)}
    (h : (new K V).execs hf fuel cs = some (t, answers)) :
    answers = (Call.allOnMap Dict.empty cs).2 ∧
      (∀ k v, t.Maps k v ↔ (Call.allOnMap Dict.empty cs).1 k = some v) ∧
      (∀ i i', t.Live i → t.Live i' → (t.hs i).kv.1 = (t.hs i').kv.1 → i = i') ∧
      t.n = (Finset.univ.filter fun i => (t.hs i).states = .exist).card := by
  obtain ⟨hok, hm, hanswers⟩ := (TableOk.resized _ _).execs_onMap agrees_new h
  refine ⟨hanswers, hm, hok.unique, ?_⟩
  rw [hok.count, Finset.card_filter]
  rfl

/-- Keys that collide, a slot that is used again, and a key that is inserted twice. -/
theorem open_hash_refines_map_reuse : ∃ (t : Hash Nat Nat) (answers : List (Answer Nat Nat)),
      (new Nat Nat).execs id 20 [.insert (1, 10), .insert (11, 20), .erase 1, .insert (21, 30),
        .find 11, .write 11 5, .insert (11, 99), .find 11, .find 1] = some (t, answers) ∧
      answers = [.flag true, .flag true, .flag true, .flag true, .entry (some (11, 20)),
        .entry (some (11, 5)), .flag false, .entry (some (11, 5)), .entry none] ∧
      t.n = (Finset.univ.filter fun i => (t.hs i).states = .exist).card := by
  obtain ⟨⟨t, answers⟩, hrun, hanswers⟩ := Option.map_eq_some_iff.mp
    (show ((new Nat Nat).execs id 20 [.insert (1, 10), .insert (11, 20), .erase 1,
        .insert (21, 30), .find 11, .write 11 5, .insert (11, 99), .find 11, .find 1]).map
        Prod.snd = some [.flag true, .flag true, .flag true, .flag true,
          .entry (some (11, 20)), .entry (some (11, 5)), .flag false, .entry (some (11, 5)),
          .entry none] by decide +kernel)
  exact ⟨t, answers, hrun, hanswers, (open_hash_refines_map hrun).2.2.2⟩

end Hash

end map

end CallLesson.Algorithm.Open
