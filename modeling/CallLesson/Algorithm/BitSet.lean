import CallLesson.Framework.Exec

/-! # `zhc::bitset`

    The bits of eight indices are in one `char`, which is signed: an operation promotes it
    to `int`, with its sign, and `set` and `reset` convert the result back. The vector has
    its length from the constructor on.

    `test` masks the bit of its index away instead of all others, so that it looks at the
    neighbours of the index, and at the copies of the sign bit above the byte. -/

namespace CallLesson.Algorithm.Bits

open Exec

/-! ## Model -/

def promote (c : BitVec 8) : BitVec 32 := c.signExtend 32

def toChar (v : BitVec 32) : BitVec 8 := v.setWidth 8

def mask (j : Nat) : BitVec 32 := 1#32 <<< j

abbrev BitSet (N : Nat) := Vector (BitVec 8) (N / 8 + 1)

def BitSet.new (N : Nat) : BitSet N := Vector.replicate (N / 8 + 1) 0

section model

variable {N : Nat}

def byteAt (i : Nat) : EStateM Fault (BitSet N) (BitVec 8) := do
  match (← get)[i]? with
  | none => throw .badAccess
  | some c => pure c

def assign (i : Nat) (f : BitVec 32 → BitVec 32) : EStateM Fault (BitSet N) Unit := do
  let c ← byteAt i
  modify fun b => b.setIfInBounds i (toChar (f (promote c)))

def set (x : Nat) : EStateM Fault (BitSet N) Unit :=
  assign (x / 8) (· ||| mask (x % 8))

def reset (x : Nat) : EStateM Fault (BitSet N) Unit :=
  assign (x / 8) (· &&& ~~~ mask (x % 8))

def test (x : Nat) : EStateM Fault (BitSet N) Bool := do
  let c ← byteAt (x / 8)
  pure (promote c &&& ~~~ mask (x % 8) ≠ 0#32)

end model

inductive Op where
  | set (x : Nat)
  | reset (x : Nat)
  deriving DecidableEq

namespace Op

def index : Op → Nat
  | .set x => x
  | .reset x => x

def exec {N : Nat} : Op → EStateM Fault (BitSet N) Unit
  | .set x => Bits.set x
  | .reset x => Bits.reset x

def after (m : Nat → Bool) : Op → Nat → Bool
  | .set x, y => if y = x then true else m y
  | .reset x, y => if y = x then false else m y

def lastSet (ops : List Op) : Nat → Bool := ops.foldl after fun _ => false

end Op

/-! ## Bits -/

section bits

variable {c : BitVec 8} {j k : Nat}

theorem getLsbD_mask (hk : k < 32) : (mask j).getLsbD k = decide (k = j) := by
  rw [mask, BitVec.getLsbD_shiftLeft, BitVec.getLsbD_one]
  rcases lt_trichotomy k j with h | h | h
  · simp [h, h.ne]
  · subst h
    simp [hk]
  · have hsub : k - j ≠ 0 := by omega
    simp [h.ne', hsub]

theorem getLsbD_promote (hk : k < 32) : (promote c).getLsbD k = c.getLsbD (min k 7) := by
  rw [promote, BitVec.getLsbD_signExtend, BitVec.msb_eq_getLsbD_last]
  by_cases h : k < 8
  · rw [if_pos h, Nat.min_eq_left (by omega)]
    simp [hk]
  · rw [if_neg h, Nat.min_eq_right (by omega)]
    simp [hk]

theorem getLsbD_toChar (v : BitVec 32) (hk : k < 8) : (toChar v).getLsbD k = v.getLsbD k := by
  rw [toChar, BitVec.getLsbD_setWidth]
  simp [hk]

theorem getLsbD_set (hk : k < 8) :
    (toChar (promote c ||| mask j)).getLsbD k = if k = j then true else c.getLsbD k := by
  have hmin : min k 7 = k := by omega
  rw [getLsbD_toChar _ hk, BitVec.getLsbD_or, getLsbD_promote (by omega), getLsbD_mask (by omega),
    hmin]
  by_cases h : k = j <;> simp [h]

theorem getLsbD_reset (hk : k < 8) :
    (toChar (promote c &&& ~~~ mask j)).getLsbD k = if k = j then false else c.getLsbD k := by
  have hmin : min k 7 = k := by omega
  rw [getLsbD_toChar _ hk, BitVec.getLsbD_and, BitVec.getLsbD_not, getLsbD_promote (by omega),
    getLsbD_mask (by omega), hmin]
  have hk' : k < 32 := by omega
  by_cases h : k = j <;> simp [h, hk']

theorem ne_zero_iff (hj : j < 8) : promote c &&& ~~~ mask j ≠ 0#32 ↔
    ∃ k < 8, c.getLsbD k = true ∧ (k = j → k = 7) := by
  have hbit : ∀ k < 32, (promote c &&& ~~~ mask j).getLsbD k =
      (c.getLsbD (min k 7) && !decide (k = j)) := fun k hk => by
    rw [BitVec.getLsbD_and, BitVec.getLsbD_not, getLsbD_promote hk, getLsbD_mask hk]
    simp [hk]
  constructor
  · intro hne
    by_contra hall
    push Not at hall
    refine hne (BitVec.eq_of_getLsbD_eq fun k hk => ?_)
    rw [hbit k hk, BitVec.getLsbD_zero]
    by_contra htrue
    simp only [Bool.and_eq_true, Bool.not_eq_false, Bool.not_eq_true', decide_eq_false_iff_not]
      at htrue
    obtain ⟨hmin, hne7⟩ := hall (min k 7) (by omega) htrue.1
    omega
  · rintro ⟨k, hk, hset, hkj⟩ hzero
    -- the bit itself, or a copy of the highest one above the byte
    have hzeros : ∀ i < 32, (c.getLsbD (min i 7) && !decide (i = j)) = false := fun i hi => by
      rw [← hbit i hi, hzero, BitVec.getLsbD_zero]
    by_cases h : k = j
    · have hcopy := hzeros 8 (by omega)
      have h8 : 8 ≠ j := by omega
      rw [Nat.min_eq_right (by omega), ← hkj h, hset] at hcopy
      simp [h8] at hcopy
    · have hself := hzeros k (by omega)
      have hmin : min k 7 = k := by omega
      simp [hset, hmin, h] at hself

end bits

/-! ## The set of indices -/

section runs

variable {N : Nat} {b : BitSet N} {m : Nat → Bool} {x : Nat}

def Holds (b : BitSet N) (m : Nat → Bool) : Prop :=
  ∀ y (hy : y / 8 < N / 8 + 1), b[y / 8].getLsbD (y % 8) = m y

theorem wp_byteAt {i : Nat} (hi : i < N / 8 + 1) {Q : BitVec 8 → BitSet N → Prop}
    {E : BitSet N → Prop} : wp (byteAt i) Q E b ↔ Q b[i] b := by
  unfold byteAt
  rw [wp_bind, wp_get, Vector.getElem?_eq_getElem hi, wp_pure]

theorem wp_assign (h : Holds b m) (hx : x / 8 < N / 8 + 1) {f : BitVec 32 → BitVec 32} {v : Bool}
    (hf : ∀ k < 8, (toChar (f (promote b[x / 8]))).getLsbD k =
      if k = x % 8 then v else b[x / 8].getLsbD k) :
    wp (assign (x / 8) f) (fun _ b' => Holds b' fun y => if y = x then v else m y)
      (fun _ => False) b := by
  unfold assign
  rw [wp_bind, wp_byteAt hx, wp_modify]
  intro y hy
  rw [Vector.getElem_setIfInBounds hy]
  by_cases hbyte : x / 8 = y / 8
  · rw [if_pos hbyte, hf _ (Nat.mod_lt _ (by decide))]
    have hsame : y % 8 = x % 8 ↔ y = x := by omega
    simp only [hsame, ← h y hy, hbyte]
  · have hne : y ≠ x := by
      rintro rfl
      exact hbyte rfl
    simp only [if_neg hbyte, if_neg hne]
    exact h y hy

theorem wp_exec (h : Holds b m) (op : Op) (hop : op.index ≤ N) :
    wp op.exec (fun _ b' => Holds b' (op.after m)) (fun _ => False) b := by
  cases op with
  | set x =>
    have hx : x / 8 < N / 8 + 1 := Nat.lt_succ_of_le (Nat.div_le_div_right hop)
    rw [Op.exec, Bits.set]
    exact wp_assign h hx fun k hk => getLsbD_set hk
  | reset x =>
    have hx : x / 8 < N / 8 + 1 := Nat.lt_succ_of_le (Nat.div_le_div_right hop)
    rw [Op.exec, Bits.reset]
    exact wp_assign h hx fun k hk => getLsbD_reset hk

variable {ops : List Op}

theorem wp_ops (hops : ∀ op ∈ ops, op.index ≤ N) (h : Holds b m) :
    wp (runAll Op.exec ops) (fun _ b' => Holds b' (ops.foldl Op.after m)) (fun _ => False) b := by
  induction ops generalizing b m with
  | nil =>
    rw [runAll, wp_pure]
    exact h
  | cons op ops ih =>
    rw [runAll, wp_bind]
    refine wp_imp (wp_exec h op (hops op List.mem_cons_self)) (fun _ b' h' => ?_)
    exact ih (fun op' hop' => hops op' (List.mem_cons_of_mem _ hop')) h'

theorem exists_test (h : Holds b m) (hx : x ≤ N) : ∃ r, test x b = .ok r b ∧
    (r = true ↔ ∃ z, z / 8 = x / 8 ∧ m z = true ∧ (z = x → x % 8 = 7)) := by
  have hindex : x / 8 < N / 8 + 1 := Nat.lt_succ_of_le (Nat.div_le_div_right hx)
  have hrun : wp (test x) (fun r b' => (r = true ↔ ∃ z, z / 8 = x / 8 ∧ m z = true ∧
      (z = x → x % 8 = 7)) ∧ b' = b) (fun _ => False) b := by
    unfold test
    rw [wp_bind, wp_byteAt hindex, wp_pure]
    refine ⟨?_, rfl⟩
    rw [decide_eq_true_iff, ne_zero_iff (Nat.mod_lt _ (by decide))]
    -- the bits of the byte are the indices that share it
    constructor
    · rintro ⟨k, hk, hset, hkx⟩
      have hdiv : (8 * (x / 8) + k) / 8 = x / 8 := by omega
      have hmod : (8 * (x / 8) + k) % 8 = k := by omega
      refine ⟨8 * (x / 8) + k, hdiv, ?_, fun hz => by omega⟩
      rw [← h _ (by omega)]
      simpa only [hdiv, hmod] using hset
    · rintro ⟨z, hz, hset, hzx⟩
      refine ⟨z % 8, Nat.mod_lt _ (by decide), ?_, fun hmod => by omega⟩
      rw [← h z (by omega)] at hset
      simpa only [hz] using hset
  obtain ⟨r, b', hr, hiff, rfl⟩ := exists_of_wp hrun
  exact ⟨r, hr, hiff⟩

theorem holds_new (N : Nat) : Holds (BitSet.new N) fun _ => false := by
  intro y hy
  simp [BitSet.new]

theorem foldl_after_le (hops : ∀ op ∈ ops, op.index ≤ N)
    (hm : ∀ y, m y = true → y ≤ N) : ∀ y, ops.foldl Op.after m y = true → y ≤ N := by
  induction ops generalizing m with
  | nil => exact hm
  | cons op ops ih =>
    refine ih (fun op' hop' => hops op' (List.mem_cons_of_mem _ hop')) fun y hy => ?_
    have hop := hops op List.mem_cons_self
    cases op <;> grind [Op.after, Op.index]

theorem lastSet_le (hops : ∀ op ∈ ops, op.index ≤ N) (hx : Op.lastSet ops x = true) : x ≤ N :=
  foldl_after_le hops (fun _ hy => Bool.noConfusion hy) x hx

theorem answers_iff (hm : ∀ y, m y = true → y ≤ N) :
    (∀ y ≤ N, (m y = true ↔ ∃ z, z / 8 = y / 8 ∧ m z = true ∧ (z = y → y % 8 = 7))) ↔
      (∀ y ≤ N, ∀ z ≤ N, y / 8 = z / 8 → m y = m z) ∧ (N % 8 = 0 → m N = false) := by
  constructor
  · intro hright
    have hshare : ∀ y ≤ N, ∀ z ≤ N, y / 8 = z / 8 → m y = true → m z = true := by
      intro y _ z hz hyz hset
      by_cases heq : y = z
      · rwa [← heq]
      · exact (hright z hz).mpr ⟨y, hyz, hset, fun h => absurd h heq⟩
    refine ⟨fun y hy z hz hyz => ?_, fun hN => ?_⟩
    · exact Bool.eq_iff_iff.mpr ⟨hshare y hy z hz hyz, hshare z hz y hy hyz.symm⟩
    · by_contra hset
      obtain ⟨z, hz, hzset, hzN⟩ := (hright N le_rfl).mp (Bool.not_eq_false _ ▸ hset)
      have hzle := hm z hzset
      omega
  · intro ⟨hshare, hlast⟩ y hy
    constructor
    · -- another index of the byte, before or after this one
      intro hset
      by_cases hfirst : y % 8 = 0
      · have hlt : y < N := by
          refine lt_of_le_of_ne hy ?_
          rintro rfl
          rw [hlast hfirst] at hset
          cases hset
        exact ⟨y + 1, by omega, (hshare (y + 1) hlt y hy (by omega)).trans hset, by omega⟩
      · exact ⟨y - 1, by omega, (hshare (y - 1) (by omega) y hy (by omega)).trans hset, by omega⟩
    · rintro ⟨z, hz, hset, -⟩
      exact (hshare z (hm z hset) y hy hz).symm.trans hset

/-- **The bits**: operations on indices up to `N` stay inside of the vector, and so does
    `test`; it answers, for all indices, whether the last operation was `set`, if and only
    if the indices that share a byte agree in this, and the byte of `N` is empty if there is
    no other index in it. -/
theorem bitset_is_set_iff (N : Nat) (ops : List Op) (hops : ∀ op ∈ ops, op.index ≤ N) :
    ∃ b, runAll Op.exec ops (BitSet.new N) = .ok () b ∧ (∀ y ≤ N, ∃ r, test y b = .ok r b) ∧
      ((∀ y ≤ N, test y b = .ok (Op.lastSet ops y) b) ↔
        (∀ y ≤ N, ∀ z ≤ N, y / 8 = z / 8 → Op.lastSet ops y = Op.lastSet ops z) ∧
          (N % 8 = 0 → Op.lastSet ops N = false)) := by
  obtain ⟨_, b, hrun, h⟩ := exists_of_wp (wp_ops hops (holds_new N))
  have htest : ∀ y ≤ N, ∃ r, test y b = .ok r b ∧ (r = true ↔
      ∃ z, z / 8 = y / 8 ∧ Op.lastSet ops z = true ∧ (z = y → y % 8 = 7)) :=
    fun y hy => exists_test h hy
  refine ⟨b, hrun, fun y hy => (htest y hy).imp fun _ hr => hr.1, ?_⟩
  rw [← answers_iff fun y => lastSet_le hops]
  refine forall₂_congr fun y hy => ?_
  obtain ⟨r, hr, hiff⟩ := htest y hy
  rw [hr, ← hiff, Bool.eq_iff_iff.symm]
  simp [eq_comm]

/-- A byte that is filled. -/
theorem bitset_is_set_full : (∀ op ∈ [Op.set 0, .set 1], op.index ≤ 1) ∧
    ∃ b, runAll Op.exec [Op.set 0, .set 1] (BitSet.new 1) = .ok () b ∧
      (∀ y ≤ 1, ∃ r, test y b = .ok r b) ∧
      ((∀ y ≤ 1, test y b = .ok (Op.lastSet [.set 0, .set 1] y) b) ↔
        (∀ y ≤ 1, ∀ z ≤ 1, y / 8 = z / 8 →
          Op.lastSet [.set 0, .set 1] y = Op.lastSet [.set 0, .set 1] z) ∧
          (1 % 8 = 0 → Op.lastSet [.set 0, .set 1] 1 = false)) :=
  ⟨by decide, bitset_is_set_iff 1 [.set 0, .set 1] (by decide)⟩

/-- One index of two: `test` says that it is not in the set, and that the other one is. -/
theorem bitset_misses_index : ∃ b : BitSet 1, runAll Op.exec [.set 0] (BitSet.new 1) = .ok () b ∧
      Op.lastSet [.set 0] 0 = true ∧ test 0 b = .ok false b ∧
      Op.lastSet [.set 0] 1 = false ∧ test 1 b = .ok true b :=
  ⟨_, rfl, rfl, rfl, rfl, rfl⟩

end runs

end CallLesson.Algorithm.Bits
