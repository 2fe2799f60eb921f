import CallLesson.Calculator.Answers

/-! # Malformed packages

    What `ParseOnePackage` and the loop of `calculate` do with arbitrary bytes in
    `inbuffer`. The header is what `std::stoi` makes of the text before the first
    line separator: it may throw, and a negative number can make the size of the
    package 0, so that nothing is taken, or negative, so that it never comes. -/

namespace CallLesson.Calculator

open Text

/-! ## What is expected -/

def packageSize (pos : Nat) (textLen : Int) : Int :=
  Int.bmod (pos + 2 * lineSep.length + textLen) (2 ^ 32)

structure Harmless (inbuffer : Bytes) : Prop where
  returns : ∃ r, parseOnePackage inbuffer = .ok r
  removes : ∀ package rest, parseOnePackage inbuffer = .ok (some (package, rest)) →
    rest.length < inbuffer.length
  continues : parseOnePackage inbuffer = .ok none →
    ∃ more package rest, parseOnePackage (inbuffer ++ more) = .ok (some (package, rest))

def Blocked (inbuffer : Bytes) : Prop :=
  ∀ more package rest, parseOnePackage (inbuffer ++ more) = .ok (some (package, rest)) →
    rest = inbuffer ++ more

def Promising (header : Bytes) : Prop := unsigned header = [] ∨ ∃ n, stoi header = .ok n

def Sane (inbuffer : Bytes) : Prop :=
  match find lineSep inbuffer with
  -- no separator yet: more of the header can come
  | none => Promising inbuffer
  | some pos => ∃ n, stoi (inbuffer.take pos) = .ok n ∧ 1 ≤ packageSize pos n

/-! ## One call -/

open List

section Parse

variable {inbuffer : Bytes} {pos : Nat}

theorem parse_error {e : StoiError} (hfind : find lineSep inbuffer = some pos)
    (hstoi : stoi (inbuffer.take pos) = .error e) : parseOnePackage inbuffer = .error e := by
  simp only [parseOnePackage, hfind, hstoi, bind, Except.bind]

theorem parse_ok {n : Int} (hfind : find lineSep inbuffer = some pos)
    (hstoi : stoi (inbuffer.take pos) = .ok n) :
    parseOnePackage inbuffer =
      if packageSize pos n < 0 ∨ (inbuffer.length : Int) < packageSize pos n then .ok none
      else .ok (some (inbuffer.take (packageSize pos n).toNat,
        inbuffer.drop (packageSize pos n).toNat)) := by
  simp only [parseOnePackage, hfind, hstoi, bind, Except.bind, pure, Except.pure]
  rfl

theorem parse_split {package rest : Bytes}
    (h : parseOnePackage inbuffer = .ok (some (package, rest))) : inbuffer = package ++ rest := by
  cases hfind : find lineSep inbuffer with
  | none =>
    simp only [parseOnePackage, hfind] at h
    cases h
  | some pos =>
    cases hstoi : stoi (inbuffer.take pos) with
    | error e =>
      rw [parse_error hfind hstoi] at h
      cases h
    | ok n =>
      rw [parse_ok hfind hstoi] at h
      split at h
      · cases h
      · cases h
        exact (take_append_drop _ _).symm

theorem header_append (hfind : find lineSep inbuffer = some pos) (more : Bytes) :
    find lineSep (inbuffer ++ more) = some pos ∧
      (inbuffer ++ more).take pos = inbuffer.take pos := by
  have hle := (find_spec hfind).2.1
  exact ⟨find_append_left hfind more, take_append_of_le_length (by omega)⟩

theorem parse_of_size {n : Int} (hfind : find lineSep inbuffer = some pos)
    (hstoi : stoi (inbuffer.take pos) = .ok n) (hsize : 1 ≤ packageSize pos n) :
    ∃ more package rest, parseOnePackage (inbuffer ++ more) = .ok (some (package, rest)) ∧
      rest.length < (inbuffer ++ more).length := by
  -- any bytes will do once the header is complete
  let more : Bytes := replicate (packageSize pos n).toNat 0
  obtain ⟨hfind', htake⟩ := header_append hfind more
  have hlen : (inbuffer ++ more).length = inbuffer.length + (packageSize pos n).toNat := by
    simp [more]
  refine ⟨more, _, _, (parse_ok hfind' (htake ▸ hstoi)).trans (if_neg ?_), ?_⟩
  · omega
  · rw [length_drop]
    omega

end Parse

/-! ## A header that has not come whole -/

section Header

variable {s : Bytes}

theorem exists_line_of_number {n : Int} (hnone : find lineSep s = none) (hstoi : stoi s = .ok n) :
    ∃ more pos, find lineSep (s ++ more) = some pos ∧ stoi ((s ++ more).take pos) = .ok n ∧
      packageSize pos n = 1 := by
  -- text behind the number does not change it, so the header can be made as long as the
  -- size needs it to be, modulo the range of an `int`
  obtain ⟨k, hk⟩ : ∃ k : Nat, (s.length + k + 4 + n) % 2 ^ 32 = 1 :=
    ⟨((1 - (s.length + 4 + n)) % 2 ^ 32).toNat, by omega⟩
  let junk : Bytes := replicate k 120
  have hjunk : find lineSep (s ++ junk) = none :=
    find_append_none [13] hnone fun h => absurd (eq_of_mem_replicate h) (by decide)
  have hdigits : junk.takeWhile isDigit = [] := by
    cases k with
    | zero => rfl
    | succ k => rfl
  have hlen : (s ++ junk).length = s.length + k := by simp [junk]
  refine ⟨junk ++ lineSep, (s ++ junk).length, ?_, ?_, ?_⟩
  · have := find_append_pattern (c := 13) [10] hjunk (by decide) []
    rwa [append_nil, append_assoc] at this
  · rw [← append_assoc, take_left]
    exact stoi_append hstoi hdigits
  · have hrem : (((s.length + k : Nat) : Int) + 2 * lineSep.length + n) % (2 ^ 32 : Nat) = 1 := by
      simp only [lineSep, length_cons, length_nil]
      omega
    rw [packageSize, hlen, Int.bmod_def, hrem]
    rfl

theorem exists_line_of_promising (hnone : find lineSep s = none) (h : Promising s) :
    ∃ more pos n, find lineSep (s ++ more) = some pos ∧ stoi ((s ++ more).take pos) = .ok n ∧
      packageSize pos n = 1 := by
  rcases h with hnil | ⟨n, hn⟩
  -- nothing but blanks and a sign: a digit makes it a number
  · have hzero : stoi (s ++ [48]) = .ok 0 := by
      rw [stoi, scanInt_append_zero hnil]
      rfl
    have hnone' : find lineSep (s ++ [48]) = none := find_append_none [13] hnone (by decide)
    obtain ⟨more, pos, hline⟩ := exists_line_of_number hnone' hzero
    rw [append_assoc] at hline
    exact ⟨[48] ++ more, pos, 0, hline⟩
  · obtain ⟨more, pos, hline⟩ := exists_line_of_number hnone hn
    exact ⟨more, pos, n, hline⟩

theorem stoi_error_of_not_promising {more : Bytes} {pos : Nat} (hnone : find lineSep s = none)
    (h : ¬ Promising s) (hfind : find lineSep (s ++ more) = some pos) :
    ∃ e, stoi ((s ++ more).take pos) = .error e := by
  obtain ⟨hne, hbad⟩ := not_or.mp h
  obtain ⟨e, he⟩ : ∃ e, stoi s = .error e := by
    cases hs : stoi s with
    | error e => exact ⟨e, rfl⟩
    | ok n => exact absurd ⟨n, hs⟩ hbad
  have hlt := lt_of_find_append hnone hfind
  by_cases hle : s.length ≤ pos
  · obtain ⟨k, rfl⟩ := Nat.exists_eq_add_of_le hle
    rw [take_length_add_append]
    exact stoi_append_error hne he _
  · -- the separator begins with the last byte of `s`
    obtain ⟨hpre, hle', -⟩ := find_spec hfind
    have hpos : pos + 1 = s.length := by
      simp only [lineSep, length_cons, length_nil] at hlt
      omega
    have hs : s = s.take pos ++ [13] := by
      have hlast : s[pos]? = some 13 := by
        have := prefix_iff_getElem?.mp hpre 0 (by decide)
        rwa [getElem?_drop, Nat.add_zero, getElem?_append_left (by omega)] at this
      have hdrop : s.drop pos = [13] := by
        rw [drop_eq_getElem_cons (by omega), drop_eq_nil_of_le (by omega)]
        rw [getElem?_eq_getElem (by omega)] at hlast
        rw [Option.some_inj.mp hlast]
      rw [← hdrop, take_append_drop]
    rw [take_append_of_le_length (by omega)]
    cases htake : stoi (s.take pos) with
    | error e => exact ⟨e, rfl⟩
    | ok n =>
      have := stoi_append (w := [13]) htake (by decide)
      rw [← hs] at this
      exact absurd ⟨n, this⟩ hbad

end Header

/-! ## Which buffers are harmless -/

section Buffers

variable {inbuffer : Bytes}

theorem Sane.exists_package (h : Sane inbuffer) :
    ∃ more package rest, parseOnePackage (inbuffer ++ more) = .ok (some (package, rest)) ∧
      rest.length < (inbuffer ++ more).length := by
  unfold Sane at h
  split at h
  · next hnone =>
    obtain ⟨more, pos, n, hfind, hstoi, hsize⟩ := exists_line_of_promising hnone h
    obtain ⟨more', package, rest, hparse⟩ := parse_of_size hfind hstoi hsize.ge
    rw [append_assoc] at hparse
    exact ⟨more ++ more', package, rest, hparse⟩
  · next pos hfind =>
    obtain ⟨n, hstoi, hsize⟩ := h
    exact parse_of_size hfind hstoi hsize

theorem Sane.harmless (h : Sane inbuffer) : Harmless inbuffer := by
  obtain ⟨more, package, rest, hparse, -⟩ := h.exists_package
  refine ⟨?_, ?_, fun _ => ⟨more, package, rest, hparse⟩⟩
  · unfold Sane at h
    split at h
    · next hnone => exact ⟨none, by simp only [parseOnePackage, hnone]⟩
    · next pos hfind =>
      obtain ⟨n, hstoi, -⟩ := h
      rw [parse_ok hfind hstoi]
      split
      · exact ⟨_, rfl⟩
      · exact ⟨_, rfl⟩
  · intro package rest hparse
    unfold Sane at h
    split at h
    · next hnone =>
      simp only [parseOnePackage, hnone] at hparse
      cases hparse
    · next pos hfind =>
      obtain ⟨n, hstoi, hsize⟩ := h
      rw [parse_ok hfind hstoi] at hparse
      split at hparse
      · cases hparse
      · cases hparse
        rw [length_drop]
        omega

theorem parse_of_not_sane (h : ¬ Sane inbuffer) :
    (∀ more taken, parseOnePackage (inbuffer ++ more) ≠ .ok (some taken)) ∨
      ∀ more, parseOnePackage (inbuffer ++ more) = .ok (some ([], inbuffer ++ more)) := by
  unfold Sane at h
  split at h
  · next hnone =>
    -- the separator may come, but never after a number that fits
    refine Or.inl fun more taken hparse => ?_
    cases hfind : find lineSep (inbuffer ++ more) with
    | none =>
      simp only [parseOnePackage, hfind] at hparse
      cases hparse
    | some pos =>
      obtain ⟨e, he⟩ := stoi_error_of_not_promising hnone h hfind
      rw [parse_error hfind he] at hparse
      cases hparse
  · next pos hfind =>
    -- the header is there and stays as it is
    have happend := header_append hfind
    cases hstoi : stoi (inbuffer.take pos) with
    | error e =>
      refine Or.inl fun more taken hparse => ?_
      rw [parse_error (happend more).1 ((happend more).2 ▸ hstoi)] at hparse
      cases hparse
    | ok n =>
      have hsize : packageSize pos n < 1 := Int.not_le.mp fun hle => h ⟨n, hstoi, hle⟩
      have hparse := fun more => parse_ok (happend more).1 ((happend more).2 ▸ hstoi)
      by_cases hneg : packageSize pos n < 0
      · refine Or.inl fun more taken htaken => ?_
        rw [hparse more, if_pos (Or.inl hneg)] at htaken
        cases htaken
      · have hzero : packageSize pos n = 0 := by omega
        refine Or.inr fun more => ?_
        rw [hparse more, hzero, if_neg (by omega)]
        rfl

theorem blocked_iff_not_sane : Blocked inbuffer ↔ ¬ Sane inbuffer := by
  constructor
  · intro h hsane
    obtain ⟨more, package, rest, hparse, hlt⟩ := hsane.exists_package
    rw [h more package rest hparse] at hlt
    exact Nat.lt_irrefl _ hlt
  · intro h more package rest hparse
    rcases parse_of_not_sane h with hnone | hempty
    · exact absurd hparse (hnone more _)
    · rw [hempty more] at hparse
      cases hparse
      rfl

theorem Harmless.sane (h : Harmless inbuffer) : Sane inbuffer := by
  by_contra hnot
  -- either it never returns true, or it returns true and takes nothing
  rcases parse_of_not_sane hnot with hnone | hempty
  · obtain ⟨r, hr⟩ := h.returns
    cases r with
    | none =>
      obtain ⟨more, package, rest, hparse⟩ := h.continues hr
      exact hnone more _ hparse
    | some taken => exact hnone [] taken (by rwa [append_nil])
  · have hsame := hempty []
    rw [append_nil] at hsame
    exact Nat.lt_irrefl _ (h.removes _ _ hsame)

end Buffers

theorem calculateLoop_ends [Codec] (inbuffer outbuffer : Bytes) :
    calculateLoop inbuffer outbuffer ≠ .error .hangs := by
  fun_induction calculateLoop inbuffer outbuffer with
  | case1 => simp
  | case2 => simp
  | case3 => simp
  | case4 => simp
  | case5 inbuffer outbuffer package rest hparse bytes hanswer hlt ih => exact ih
  | case6 inbuffer outbuffer package rest hparse bytes hanswer hge =>
    -- without progress the package is empty, and the empty package has no header
    have hsplit := parse_split hparse
    obtain rfl : package = [] := by
      rw [hsplit, length_append] at hge
      exact length_eq_zero_iff.mp (by omega)
    cases hanswer

/-- **Malformed packages**: a buffer neither crashes nor wedges `ParseOnePackage` iff its
    header is sane, every other buffer is blocked for ever, and the loop of `calculate`
    ends in any case. -/
theorem harmless_iff_sane [Codec] (inbuffer : Bytes) :
    (Harmless inbuffer ↔ Sane inbuffer) ∧ (Blocked inbuffer ↔ ¬ Sane inbuffer) ∧
      ∀ outbuffer, calculateLoop inbuffer outbuffer ≠ .error .hangs :=
  ⟨⟨Harmless.sane, Sane.harmless⟩, blocked_iff_not_sane, calculateLoop_ends inbuffer⟩

/-- A header without a number makes `ParseOnePackage` throw. With the length -6 it
    returns true and takes nothing, and with the length -7 the package never comes. -/
theorem malformed_headers_harm :
    ¬ Harmless (ascii "x\r\n") ∧ ¬ Harmless (ascii "-6\r\n") ∧ ¬ Harmless (ascii "-7\r\n") ∧
      Blocked (ascii "-7\r\n") := by
  have hthrows : parseOnePackage (ascii "x\r\n") = .error .invalidArgument := by decide
  have hempty : parseOnePackage (ascii "-6\r\n") = .ok (some ([], ascii "-6\r\n")) := by decide
  have hblocked : Blocked (ascii "-7\r\n") := by
    refine blocked_iff_not_sane.mpr fun h => ?_
    have hfind : find lineSep (ascii "-7\r\n") = some 2 := by decide
    have hstoi : stoi ((ascii "-7\r\n").take 2) = .ok (-7) := by decide
    simp only [Sane, hfind, hstoi] at h
    obtain ⟨n, hn, hsize⟩ := h
    cases hn
    exact absurd hsize (by decide)
  refine ⟨fun h => ?_, fun h => ?_, fun h => ?_, hblocked⟩
  · obtain ⟨r, hr⟩ := h.returns
    rw [hthrows] at hr
    cases hr
  · exact Nat.lt_irrefl _ (h.removes _ _ hempty)
  · exact blocked_iff_not_sane.mp hblocked h.sane

end CallLesson.Calculator
