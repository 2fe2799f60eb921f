import Mathlib

/-! # Byte strings

    What the C++ library offers on a `std::string`, with a string as the list
    of its bytes. -/

namespace CallLesson.Text

abbrev Bytes := List UInt8

def ascii (s : String) : Bytes := s.toList.map fun c => UInt8.ofNat c.toNat

def cString (s : Bytes) : Bytes := s.takeWhile (· ≠ 0)

open List

variable {s : Bytes} {z : Int} {c : UInt8}

theorem cString_eq_self_iff : cString s = s ↔ 0 ∉ s := by
  rw [cString, takeWhile_eq_self_iff]
  constructor
  · intro h hmem
    exact absurd (h 0 hmem) (by decide)
  · intro h c hc
    exact decide_eq_true fun hzero => h (hzero ▸ hc)

theorem cString_append (s w : Bytes) :
    cString (s ++ w) = if 0 ∈ s then cString s else s ++ cString w := by
  split
  · next hmem =>
    rw [cString, cString, takeWhile_append, if_neg]
    intro hlen
    exact cString_eq_self_iff.mp ((List.takeWhile_prefix _).eq_of_length hlen) hmem
  · next hnot =>
    exact takeWhile_append_of_pos fun c hc => decide_eq_true fun hzero => hnot (hzero ▸ hc)

/-! ## Occurrences -/

section Occurrences

variable {α : Type} [DecidableEq α]

/-- The position of the first occurrence of a pattern. -/
def find (pat : List α) : List α → Option Nat
  | [] => if pat = [] then some 0 else none
  | c :: s => if pat <+: c :: s then some 0 else (find pat s).map (· + 1)

/-- The position of the last occurrence of a pattern. -/
def rfind (pat : List α) : List α → Option Nat
  | [] => if pat = [] then some 0 else none
  | c :: s =>
      match rfind pat s with
      | some i => some (i + 1)
      | none => if pat <+: c :: s then some 0 else none

variable {pat : List α} {c d : α}

theorem find_eq_none (hc : c ∈ pat) : ∀ {s : List α}, c ∉ s → find pat s = none := by
  intro s
  induction s with
  | nil =>
    intro _
    exact if_neg (ne_nil_of_mem hc)
  | cons d s ih =>
    intro hs
    have hpre : ¬ pat <+: d :: s := fun h => hs (h.subset hc)
    rw [find, if_neg hpre, ih (fun h => hs (mem_cons_of_mem d h))]
    rfl

theorem find_append (pat post : List α) :
    ∀ {pre : List α}, c ∉ pre → find (c :: pat) (pre ++ (c :: pat) ++ post) = some pre.length := by
  intro pre
  induction pre with
  | nil =>
    intro _
    exact if_pos ⟨post, rfl⟩
  | cons d pre ih =>
    intro hpre
    have hne : c ≠ d := fun h => hpre (h ▸ mem_cons_self)
    have hnot : ¬ (c :: pat) <+: d :: (pre ++ (c :: pat) ++ post) := fun h =>
      hne (cons_prefix_cons.mp h).1
    rw [cons_append, cons_append, find, if_neg hnot, ih (fun h => hpre (mem_cons_of_mem d h))]
    rfl

theorem not_prefix_of_find : ∀ {s : List α}, find pat s = none → ∀ i, ¬ pat <+: s.drop i := by
  intro s
  induction s with
  | nil =>
    intro h i hpre
    rw [drop_nil, prefix_nil] at hpre
    simp [find, hpre] at h
  | cons c s ih =>
    intro h i
    unfold find at h
    split at h
    · cases h
    · next hnot =>
      cases i with
      | zero => exact hnot
      | succ i => exact ih (Option.map_eq_none_iff.mp h) i

theorem find_spec : ∀ {s : List α} {i : Nat}, find pat s = some i →
      pat <+: s.drop i ∧ i + pat.length ≤ s.length ∧ ∀ j < i, ¬ pat <+: s.drop j := by
  intro s
  induction s with
  | nil =>
    intro i h
    unfold find at h
    split at h
    · next hnil =>
      cases h
      simp [hnil]
    · cases h
  | cons c s ih =>
    intro i h
    unfold find at h
    split at h
    · next hpre =>
      cases h
      exact ⟨hpre, by simpa using hpre.length_le, fun j hj => absurd hj (Nat.not_lt_zero j)⟩
    · next hnot =>
      obtain ⟨i, hfind, rfl⟩ := Option.map_eq_some_iff.mp h
      obtain ⟨hpre, hle, hbefore⟩ := ih hfind
      refine ⟨hpre, by rw [length_cons]; omega, fun j hj => ?_⟩
      cases j with
      | zero => exact hnot
      | succ j => exact hbefore j (Nat.lt_of_succ_lt_succ hj)

variable {s w : List α}

theorem find_eq_none_iff : find pat s = none ↔ ¬ pat <:+: s := by
  constructor
  · rintro h ⟨pre, post, rfl⟩
    refine not_prefix_of_find h pre.length ?_
    rw [append_assoc, drop_left]
    exact prefix_append pat post
  · intro h
    cases hfind : find pat s with
    | none => rfl
    | some i => exact absurd ((find_spec hfind).1.isInfix.trans (drop_suffix i s).isInfix) h

omit [DecidableEq α] in
theorem infix_of_infix_append_cons {t : List α} (hd : d ∉ pat) (h : pat <:+: s ++ d :: t) :
    pat <:+: s ∨ pat <:+: t := by
  obtain ⟨pre, post, heq⟩ := h
  rcases append_eq_append_iff.mp heq with ⟨more, rfl, -⟩ | ⟨more, hpre, hpost⟩
  · exact Or.inl ⟨pre, more, rfl⟩
  · cases more with
    | nil => exact Or.inl ⟨pre, [], by rw [append_nil, hpre, append_nil]⟩
    | cons c more =>
      obtain ⟨rfl, rfl⟩ := cons.inj hpost
      -- the character comes before the occurrence
      rcases append_eq_append_iff.mp hpre with ⟨left, -, rfl⟩ | ⟨left, -, hpat⟩
      · exact absurd (mem_append_right left mem_cons_self) hd
      · cases left with
        | nil => exact absurd (by rw [← nil_append pat, ← hpat]; exact mem_cons_self) hd
        | cons c left =>
          obtain ⟨rfl, rfl⟩ := cons.inj hpat
          exact Or.inr ⟨left, post, rfl⟩

theorem find_eq_some :
    ∀ {s : List α} {i : Nat}, i ≤ s.length → pat <+: s.drop i → (∀ j < i, ¬ pat <+: s.drop j) →
      find pat s = some i := by
  intro s
  induction s with
  | nil =>
    intro i hle hpre _
    obtain rfl : i = 0 := Nat.le_zero.mp hle
    exact if_pos (prefix_nil.mp hpre)
  | cons c s ih =>
    intro i hle hpre hbefore
    cases i with
    | zero => exact if_pos hpre
    | succ i =>
      have hnot : ¬ pat <+: c :: s := hbefore 0 (Nat.succ_pos i)
      rw [find, if_neg hnot,
        ih (Nat.le_of_succ_le_succ hle) hpre fun j hj => hbefore (j + 1) (Nat.succ_lt_succ hj)]
      rfl

omit [DecidableEq α] in
theorem prefix_drop_left {i : Nat} (h : pat <+: (s ++ w).drop i)
    (hle : i + pat.length ≤ s.length) : pat <+: s.drop i := by
  rw [drop_append_of_le_length (by omega)] at h
  exact prefix_of_prefix_length_le h (prefix_append _ _) (by rw [length_drop]; omega)

theorem find_append_left {i : Nat} (h : find pat s = some i) (w : List α) :
    find pat (s ++ w) = some i := by
  obtain ⟨hpre, hle, hbefore⟩ := find_spec h
  refine find_eq_some (by rw [length_append]; omega) ?_ fun j hj hpre' => ?_
  · rw [drop_append_of_le_length (by omega)]
    exact hpre.trans (prefix_append _ _)
  · exact hbefore j hj (prefix_drop_left hpre' (by omega))

theorem lt_of_find_append {i : Nat} (hnone : find pat s = none)
    (h : find pat (s ++ w) = some i) : s.length < i + pat.length := by
  by_contra hle
  exact not_prefix_of_find hnone i (prefix_drop_left (find_spec h).1 (by omega))

theorem find_append_none (pat : List α) (hnone : find (pat ++ [d]) s = none)
    (hd : d ∉ w) : find (pat ++ [d]) (s ++ w) = none := by
  cases hfind : find (pat ++ [d]) (s ++ w) with
  | none => rfl
  | some i =>
    have hlt := lt_of_find_append hnone hfind
    obtain ⟨hpre, hle, -⟩ := find_spec hfind
    rw [length_append, length_singleton] at hlt hle
    rw [length_append] at hle
    -- the last character of the occurrence is one of `w`
    have hlast : ((s ++ w).drop i)[pat.length]? = some d := by
      rw [prefix_iff_getElem?.mp hpre pat.length (by simp)]
      simp
    rw [getElem?_drop, getElem?_append_right (by omega)] at hlast
    exact absurd (mem_of_getElem? hlast) hd

theorem find_append_pattern (pat : List α) {pre : List α} (hnone : find (c :: pat) pre = none)
    (hc : c ∉ pat) (post : List α) : find (c :: pat) (pre ++ (c :: pat) ++ post) = some pre.length := by
  refine find_eq_some (by simp) ?_ fun j hj hpre => ?_
  · rw [append_assoc, drop_left]
    exact prefix_append _ _
  · by_cases hle : j + (c :: pat).length ≤ pre.length
    · rw [append_assoc] at hpre
      exact not_prefix_of_find hnone j (prefix_drop_left hpre hle)
    · -- the first character of the pattern would be inside of the earlier occurrence
      have hat : (c :: pat)[pre.length - j]? = some c := by
        have hlt : pre.length - j < (c :: pat).length := by omega
        rw [getElem?_eq_getElem hlt, ← prefix_iff_getElem?.mp hpre _ hlt, getElem?_drop,
          Nat.add_sub_cancel' hj.le, append_assoc, getElem?_append_right (Nat.le_refl _)]
        simp
      obtain ⟨k, hk⟩ : ∃ k, pre.length - j = k + 1 := ⟨pre.length - j - 1, by omega⟩
      rw [hk, getElem?_cons_succ] at hat
      exact hc (mem_of_getElem? hat)

theorem rfind_eq_none (hc : c ∈ pat) : ∀ {s : List α}, c ∉ s → rfind pat s = none := by
  intro s
  induction s with
  | nil =>
    intro _
    exact if_neg (ne_nil_of_mem hc)
  | cons d s ih =>
    intro hs
    have hpre : ¬ pat <+: d :: s := fun h => hs (h.subset hc)
    rw [rfind, ih (fun h => hs (mem_cons_of_mem d h))]
    exact if_neg hpre

theorem rfind_append {post : List α} (hpost : c ∉ post) (pre : List α) :
    rfind [c] (pre ++ c :: post) = some pre.length := by
  induction pre with
  | nil =>
    rw [nil_append, rfind, rfind_eq_none mem_cons_self hpost]
    exact if_pos ⟨post, rfl⟩
  | cons d pre ih =>
    rw [cons_append, rfind, ih]
    rfl

end Occurrences

/-! ## Decimal numbers -/

def isDigit (c : UInt8) : Bool := 48 ≤ c && c ≤ 57

def isSpace (c : UInt8) : Bool := c = 32 || (9 ≤ c && c ≤ 13)

def digit (d : Nat) : UInt8 := UInt8.ofNat (48 + d)

def decimal (n : Nat) : Bytes :=
  if n = 0 then [digit 0] else (Nat.digits 10 n).reverse.map digit

def decimalInt (z : Int) : Bytes :=
  if z < 0 then 45 :: decimal z.natAbs else decimal z.natAbs

def digitsVal (s : Bytes) : Nat := s.foldl (fun n c => 10 * n + (c.toNat - 48)) 0

/-- The number at the start of a text, as `strtol` reads it. -/
def scanInt (s : Bytes) : Option Int :=
  let s := s.dropWhile isSpace
  let digits := (if s.head? = some 45 ∨ s.head? = some 43 then s.tail else s).takeWhile isDigit
  if digits = [] then none
  else if s.head? = some 45 then some (-(digitsVal digits : Int))
  else some (digitsVal digits)

inductive StoiError where
  | invalidArgument
  | outOfRange
  deriving DecidableEq

/-- The number at the start of a text, or the exception thrown. -/
def stoi (s : Bytes) : Except StoiError Int :=
  match scanInt s with
  | none => .error .invalidArgument
  | some z => if -2 ^ 31 ≤ z ∧ z < 2 ^ 31 then .ok z else .error .outOfRange

def stol (s : Bytes) : Except StoiError Int :=
  match scanInt s with
  | none => .error .invalidArgument
  | some z => if -2 ^ 63 ≤ z ∧ z < 2 ^ 63 then .ok z else .error .outOfRange

/-- The number at the start of a text, or 0. -/
def atoi (s : Bytes) : Int :=
  match scanInt s with
  | none => 0
  | some z => (max (-2 ^ 63) (min z (2 ^ 63 - 1))).bmod (2 ^ 32)

theorem digit_spec : ∀ d < 10, (digit d).toNat - 48 = d ∧ isDigit (digit d) = true := by
  decide

theorem decimal_ne_nil (n : Nat) : decimal n ≠ [] := by
  unfold decimal
  split
  · simp
  · next h => simpa [Nat.digits_eq_nil_iff_eq_zero] using h

theorem isDigit_of_mem_decimal {n : Nat} (h : c ∈ decimal n) : isDigit c = true := by
  unfold decimal at h
  split at h
  · rw [mem_singleton.mp h]
    rfl
  · obtain ⟨d, hd, rfl⟩ := mem_map.mp h
    exact (digit_spec d (Nat.digits_lt_base (by decide) (mem_reverse.mp hd))).2

theorem digitsVal_map_reverse {ds : List Nat} (h : ∀ d ∈ ds, d < 10) :
    digitsVal (ds.reverse.map digit) = Nat.ofDigits 10 ds := by
  induction ds with
  | nil => rfl
  | cons d ds ih =>
    have hd := (digit_spec d (h d mem_cons_self)).1
    have ih' := ih fun d' h' => h d' (mem_cons_of_mem d h')
    unfold digitsVal at ih' ⊢
    rw [reverse_cons, map_append, foldl_append, ih', Nat.ofDigits_cons]
    simp [hd, Nat.add_comm]

theorem digitsVal_decimal (n : Nat) : digitsVal (decimal n) = n := by
  unfold decimal
  split
  · next h => rw [h]; rfl
  · rw [digitsVal_map_reverse fun d hd => Nat.digits_lt_base (by decide) hd, Nat.ofDigits_digits]

theorem not_mem_decimal (h : isDigit c = false) (n : Nat) : c ∉ decimal n := fun hc => by
  simp [isDigit_of_mem_decimal hc] at h

theorem not_mem_decimalInt (h : isDigit c = false) (hc : c ≠ 45) (z : Int) : c ∉ decimalInt z := by
  have := not_mem_decimal h z.natAbs
  unfold decimalInt
  split <;> simp [this, hc]

theorem isDigit_plain (h : isDigit c = true) : isSpace c = false ∧ c ≠ 45 ∧ c ≠ 43 := by
  simp only [isDigit, isSpace, Bool.and_eq_true, Bool.or_eq_false_iff, Bool.and_eq_false_iff,
    decide_eq_true_eq, decide_eq_false_iff_not, ne_eq, ← UInt8.toNat_inj,
    UInt8.le_iff_toNat_le] at h ⊢
  simp only [UInt8.reduceToNat] at h ⊢
  omega

theorem scanInt_digits (hne : s ≠ []) (h : ∀ c ∈ s, isDigit c = true) :
    scanInt s = some (digitsVal s : Int) := by
  have htake : s.takeWhile isDigit = s := takeWhile_eq_self_iff.mpr h
  obtain ⟨c, s, rfl⟩ := exists_cons_of_ne_nil hne
  obtain ⟨hspace, hminus, hplus⟩ := isDigit_plain (h c mem_cons_self)
  have hdrop : (c :: s).dropWhile isSpace = c :: s := by simp [hspace]
  simp [scanInt, hdrop, htake, hminus, hplus]

theorem scanInt_minus (hne : s ≠ []) (h : ∀ c ∈ s, isDigit c = true) :
    scanInt (45 :: s) = some (-(digitsVal s : Int)) := by
  have htake : s.takeWhile isDigit = s := takeWhile_eq_self_iff.mpr h
  have hdrop : (45 :: s).dropWhile isSpace = 45 :: s := rfl
  simp [scanInt, hdrop, htake, hne]

theorem scanInt_decimal (n : Nat) : scanInt (decimal n) = some (n : Int) := by
  rw [scanInt_digits (decimal_ne_nil n) fun _ => isDigit_of_mem_decimal, digitsVal_decimal]

theorem scanInt_decimalInt (z : Int) : scanInt (decimalInt z) = some z := by
  unfold decimalInt
  split
  · rw [scanInt_minus (decimal_ne_nil _) fun _ => isDigit_of_mem_decimal, digitsVal_decimal]
    congr 1
    omega
  · rw [scanInt_decimal]
    congr 1
    omega

theorem stoi_decimalInt (h : -2 ^ 31 ≤ z ∧ z < 2 ^ 31) : stoi (decimalInt z) = .ok z := by
  rw [stoi, scanInt_decimalInt]
  exact if_pos h

theorem stoi_decimal {n : Nat} (h : n < 2 ^ 31) : stoi (decimal n) = .ok (n : Int) := by
  rw [stoi, scanInt_decimal]
  exact if_pos (by omega)

theorem stoi_decimal_large {n : Nat} (h : 2 ^ 31 ≤ n) : stoi (decimal n) = .error .outOfRange := by
  rw [stoi, scanInt_decimal]
  exact if_neg (by omega)

theorem scanInt_of_stol (h : stol s = .ok z) : scanInt s = some z ∧ -2 ^ 63 ≤ z ∧ z < 2 ^ 63 := by
  unfold stol at h
  split at h
  · cases h
  · next w hw =>
    split at h
    · cases h
      exact ⟨hw, by assumption⟩
    · cases h

def unsigned (s : Bytes) : Bytes :=
  let s := s.dropWhile isSpace
  if s.head? = some 45 ∨ s.head? = some 43 then s.tail else s

theorem scanInt_eq (s : Bytes) : scanInt s =
      if (unsigned s).takeWhile isDigit = [] then none
      else if (s.dropWhile isSpace).head? = some 45 then
        some (-(digitsVal ((unsigned s).takeWhile isDigit) : Int))
      else some (digitsVal ((unsigned s).takeWhile isDigit)) := rfl

theorem scanInt_of_unsigned_nil (h : unsigned s = []) : scanInt s = none := by
  rw [scanInt_eq, h]
  rfl

theorem unsigned_append (h : unsigned s ≠ []) (w : Bytes) : unsigned (s ++ w) = unsigned s ++ w ∧
      ((s ++ w).dropWhile isSpace).head? = (s.dropWhile isSpace).head? := by
  cases hs : s.dropWhile isSpace with
  | nil => exact absurd (by simp [unsigned, hs]) h
  | cons c t =>
    have hdrop : (s ++ w).dropWhile isSpace = c :: (t ++ w) := by
      rw [dropWhile_append, hs]
      rfl
    refine ⟨?_, by rw [hdrop]; rfl⟩
    simp only [unsigned, hs, hdrop, head?_cons, tail_cons]
    split <;> rfl

theorem scanInt_append_zero (h : unsigned s = []) : scanInt (s ++ [48]) = some 0 := by
  have hdrop : (s ++ [48]).dropWhile isSpace = s.dropWhile isSpace ++ [48] := by
    rw [dropWhile_append]
    split
    · next hempty => rw [isEmpty_iff.mp hempty]; rfl
    · rfl
  unfold unsigned at h
  simp only at h
  split at h
  · next hsign =>
    obtain ⟨c, hs⟩ : ∃ c, s.dropWhile isSpace = [c] := by
      cases hs : s.dropWhile isSpace with
      | nil => simp [hs] at hsign
      | cons c t =>
        rw [hs] at h
        exact ⟨c, congrArg (c :: ·) h⟩
    rw [hs] at hsign hdrop
    rcases hsign with hc | hc <;>
    · obtain rfl := Option.some_inj.mp hc
      simp only [scanInt, hdrop]
      decide
  · rw [h] at hdrop
    simp only [scanInt, hdrop]
    decide

theorem unsigned_ne_nil (h : scanInt s = some z) : unsigned s ≠ [] := fun hnil => by
  rw [scanInt_of_unsigned_nil hnil] at h
  cases h

theorem scanInt_append {w : Bytes} (h : scanInt s = some z) (hw : w.takeWhile isDigit = []) :
    scanInt (s ++ w) = some z := by
  obtain ⟨happend, hhead⟩ := unsigned_append (unsigned_ne_nil h) w
  have hdigits : (unsigned s ++ w).takeWhile isDigit = (unsigned s).takeWhile isDigit := by
    rw [takeWhile_append]
    split
    · next hall => rw [hw, append_nil, (List.takeWhile_prefix isDigit).eq_of_length hall]
    · rfl
  rw [scanInt_eq, happend, hhead, hdigits, ← scanInt_eq, h]

theorem stoi_append {w : Bytes} (h : stoi s = .ok z) (hw : w.takeWhile isDigit = []) :
    stoi (s ++ w) = .ok z := by
  unfold stoi at h ⊢
  cases hs : scanInt s with
  | none => rw [hs] at h; cases h
  | some z' => rwa [scanInt_append hs hw, ← hs]

theorem digitsVal_concat (s : Bytes) (c : UInt8) :
    digitsVal (s ++ [c]) = 10 * digitsVal s + (c.toNat - 48) :=
  foldl_append

theorem digitsVal_le_append (s w : Bytes) : digitsVal s ≤ digitsVal (s ++ w) := by
  induction w using reverseRecOn with
  | nil => rw [append_nil]
  | append_singleton w c ih =>
    rw [← append_assoc, digitsVal_concat]
    omega

theorem stoi_append_error {e : StoiError} (hne : unsigned s ≠ []) (h : stoi s = .error e)
    (w : Bytes) : ∃ e', stoi (s ++ w) = .error e' := by
  obtain ⟨happend, hhead⟩ := unsigned_append hne w
  -- the digits stay, and more come only where all of the text is digits
  obtain ⟨more, hmore, hnil⟩ : ∃ more,
      (unsigned s ++ w).takeWhile isDigit = (unsigned s).takeWhile isDigit ++ more ∧
        ((unsigned s).takeWhile isDigit = [] → more = []) := by
    rw [takeWhile_append]
    split
    · next hall =>
      rw [(List.takeWhile_prefix isDigit).eq_of_length hall]
      exact ⟨_, rfl, fun hnil => absurd hnil hne⟩
    · exact ⟨[], (append_nil _).symm, fun _ => rfl⟩
  have hle := digitsVal_le_append ((unsigned s).takeWhile isDigit) more
  unfold stoi at h ⊢
  rw [scanInt_eq] at h ⊢
  rw [happend, hhead, hmore]
  by_cases hdigits : (unsigned s).takeWhile isDigit = []
  · rw [hdigits, hnil hdigits]
    exact ⟨_, rfl⟩
  · rw [if_neg hdigits] at h
    rw [if_neg fun h' => hdigits (append_eq_nil_iff.mp h').1]
    by_cases hminus : (s.dropWhile isSpace).head? = some 45
    · rw [if_pos hminus] at h ⊢
      simp only at h ⊢
      split at h
      · cases h
      · exact ⟨_, if_neg (by omega)⟩
    · rw [if_neg hminus] at h ⊢
      simp only at h ⊢
      split at h
      · cases h
      · exact ⟨_, if_neg (by omega)⟩

/-! ## Words -/

/-- What `>>` extracts from a `std::stringstream`. -/
def word (s : Bytes) : Bytes × Bytes := (s.dropWhile isSpace).span fun c => !isSpace c

def toUpper (c : UInt8) : UInt8 := if 97 ≤ c ∧ c ≤ 122 then c - 32 else c

end CallLesson.Text
