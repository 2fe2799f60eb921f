import CallLesson.Http.Response

/-! # The bytes on the wire

    Each byte that a call accepts is recorded with its position in the response.
    Outside of the loop for the output of a program, a call that fails or accepts
    less than it is given leaves a gap before the next one; in the loop, a call that
    fails makes the next one start a byte earlier. -/

namespace CallLesson.Http

open Text

open List Option

variable {rs : List Result} {ps before : List Bytes} {total : Nat} {s : Sending} {r : Result}
  {data p : Bytes} {pc : Pc}

namespace Exchange

variable (x : Exchange)

def lengths : List Nat :=
  x.parts.map List.length ++ if x.1.cgi then [] else [x.fileBody.length]

def Stalls (i : Nat) (r : Result) : Prop :=
  r = .fails ∨ ∃ len, x.lengths[i]? = some len ∧ r.count < len

def Stalled (rs : List Result) : Prop := ∃ i r, rs[i]? = some r ∧ x.Stalls i r

def NothingAfterStall (rs : List Result) : Prop :=
  ∀ i j r r', i < j → rs[i]? = some r → rs[j]? = some r' → x.Stalls i r → r'.count = 0

structure Orderly (rs : List Result) : Prop where
  stops : x.NothingAfterStall rs
  last : (x.1.cgi = true → x.2.responseBody = []) → rs.length = x.lengths.length → .fails ∉ rs →
    ¬ x.Stalled rs

structure Delivered (rs : List Result) (s : Sending) : Prop where
  first : s.bytes <+: x.full
  inOrder : s.positions = List.range s.positions.length
  whole : s.pc = .done → .fails ∉ rs → s.bytes = x.full

structure Sendable : Prop where
  parts_ne : ∀ p ∈ x.parts, p ≠ []
  body_lt : x.2.responseBody.length < 2 ^ 64

/-! ## Positions -/

variable {n m : Nat}

theorem inOrder_append {l : List Nat} {offset : Nat} :
    l ++ List.range' offset n = List.range (l ++ List.range' offset n).length ↔
      l = List.range l.length ∧ (n = 0 ∨ offset = l.length) := by
  have hsplit : range (l.length + n) = range l.length ++ range' l.length n := by
    rw [range_eq_range', range_eq_range', ← range'_append_1, Nat.zero_add]
  rw [length_append, length_range', hsplit]
  constructor
  · intro h
    obtain ⟨hl, hr⟩ := append_inj h (by simp)
    exact ⟨hl, (range'_inj.mp hr).2⟩
  · rintro ⟨hl, rfl | rfl⟩
    · simpa using hl
    · rw [← hl]

/-! ## Where the calls are -/

variable {x}

def Progress (x : Exchange) (rs : List Result) : Pc → Prop
  | .part p ps => ∃ before, x.parts = before ++ p :: ps ∧ rs.length = before.length
  | .body total =>
      x.1.cgi = true ∧ total < x.2.responseBody.length ∧ x.parts.length ≤ rs.length ∧
        (.fails ∉ rs → rs.length ≤ x.parts.length + total)
  | .file => x.1.cgi = false ∧ rs.length = x.parts.length
  | .done =>
      if x.1.cgi then
        (x.2.responseBody = [] → rs.length = x.parts.length) ∧
          (.fails ∉ rs → rs.length ≤ x.parts.length + x.2.responseBody.length)
      else rs.length = x.parts.length + 1

theorem offset_part (h : x.parts = before ++ p :: ps) :
    x.offset (.part p ps) = before.flatten.length := by
  simp [offset, head, h]

theorem lengths_part (h : x.parts = before ++ p :: ps) :
    x.lengths[before.length]? = some p.length := by
  simp [lengths, h]

theorem lengths_file (h : x.1.cgi = false) : x.lengths[x.parts.length]? = some x.fileBody.length := by
  simp [lengths, h]

theorem lengths_body (h : x.1.cgi = true) {i : Nat} (hi : x.parts.length ≤ i) :
    x.lengths[i]? = none := by
  simpa [lengths, h] using hi

theorem bodyAt_of_lt (h : total < x.2.responseBody.length) :
    x.bodyAt total = .body total := if_pos h

theorem bodyAt_of_le (h : x.2.responseBody.length ≤ total) : x.bodyAt total = .done :=
  if_neg (not_lt.mpr h)

theorem afterParts_cases (x : Exchange) : x.1.cgi = false ∧ x.afterParts = .file ∨
      x.1.cgi = true ∧ 0 < x.2.responseBody.length ∧ x.afterParts = .body 0 ∨
      x.1.cgi = true ∧ x.2.responseBody = [] ∧ x.afterParts = .done := by
  unfold afterParts
  cases hcgi : x.1.cgi with
  | false => exact Or.inl ⟨rfl, rfl⟩
  | true =>
    by_cases hbody : 0 < x.2.responseBody.length
    · exact Or.inr (Or.inl ⟨rfl, hbody, bodyAt_of_lt hbody⟩)
    · have hnil : x.2.responseBody = [] := length_eq_zero_iff.mp (by omega)
      exact Or.inr (Or.inr ⟨rfl, hnil, bodyAt_of_le (not_lt.mp hbody)⟩)

theorem progress_afterParts (h : rs.length = x.parts.length) : Progress x rs x.afterParts := by
  rcases afterParts_cases x with ⟨hcgi, hpc⟩ | ⟨hcgi, hbody, hpc⟩ | ⟨hcgi, hnil, hpc⟩
  · rw [hpc]
    exact ⟨hcgi, h⟩
  · rw [hpc]
    exact ⟨hcgi, hbody, h.ge, fun _ => h.le⟩
  · rw [hpc]
    simp [Progress, hcgi, hnil, h]

theorem offset_afterParts : x.offset x.afterParts = x.head.length := by
  rcases afterParts_cases x with ⟨_, hpc⟩ | ⟨_, _, hpc⟩ | ⟨hcgi, hnil, hpc⟩
  · rw [hpc]
    rfl
  · rw [hpc]
    rfl
  · rw [hpc]
    simp [offset, full, body, hcgi, hnil]

theorem data_at (h : Progress x rs pc) (hdata : x.data pc = some data) :
    data <+: x.full.drop (x.offset pc) := by
  cases pc with
  | part p ps =>
    obtain ⟨before, hparts, _⟩ := h
    obtain rfl : p = data := some_inj.mp hdata
    rw [offset_part hparts]
    simp [full, head, hparts]
  | body total =>
    obtain ⟨hcgi, _⟩ := h
    obtain rfl : x.2.responseBody.drop total = data := some_inj.mp hdata
    simp [full, body, hcgi, offset]
  | file =>
    obtain ⟨hcgi, _⟩ := h
    obtain rfl : x.fileBody = data := some_inj.mp hdata
    simp [full, body, hcgi, offset]
  | done => cases hdata

theorem possible_count (h : x.possible pc data r = true) :
    r.count ≤ data.length ∧ (data ≠ [] → r ≠ .fails → 0 < r.count) := by
  cases r with
  | fails => exact ⟨Nat.zero_le _, fun _ hr => absurd rfl hr⟩
  | accepts n =>
    simp only [possible, Bool.and_eq_true, Bool.or_eq_true, decide_eq_true_eq] at h
    exact ⟨h.1.1, fun hne _ => h.1.2.resolve_right hne⟩

theorem after_body_accepts (hx : x.Sendable) (hle : total + n ≤ x.2.responseBody.length) :
    x.after (.body total) (.accepts n) = x.bodyAt (total + n) := by
  have := hx.body_lt
  rw [after, Nat.mod_eq_of_lt (by omega)]

theorem after_body_fails_zero (hx : x.Sendable) : x.after (.body 0) .fails = .done := by
  have := hx.body_lt
  exact bodyAt_of_le (by omega)

theorem after_body_fails_succ (hx : x.Sendable) (hlt : total + 1 < x.2.responseBody.length) :
    x.after (.body (total + 1)) .fails = .body total := by
  have := hx.body_lt
  have hmod : (total + 1 + (2 ^ 64 - 1)) % 2 ^ 64 = total := by omega
  rw [after, hmod]
  exact bodyAt_of_lt (by omega)

theorem progress_after (hx : x.Sendable) (h : Progress x rs pc) (hdata : x.data pc = some data)
    (hr : x.possible pc data r = true) : Progress x (rs ++ [r]) (x.after pc r) := by
  obtain ⟨hle, hpos⟩ := possible_count hr
  cases pc with
  | part p ps =>
    obtain ⟨before, hparts, hlen⟩ := h
    cases ps with
    | nil => exact progress_afterParts (by simp [hparts, hlen])
    | cons p' ps => exact ⟨before ++ [p], by simp [hparts], by simp [hlen]⟩
  | body total =>
    obtain ⟨hcgi, hlt, hmade, hbound⟩ := h
    obtain rfl : x.2.responseBody.drop total = data := some_inj.mp hdata
    have hne : x.2.responseBody ≠ [] := ne_nil_of_length_pos (by omega)
    have hdone : ∀ m, (.fails ∉ rs ++ [r] → rs.length + 1 ≤ x.parts.length + m) →
        m ≤ x.2.responseBody.length → Progress x (rs ++ [r]) .done := fun m hm hle => by
      simp only [Progress, hcgi, if_true, length_append, length_singleton]
      exact ⟨fun h => absurd h hne, fun h => by have := hm h; omega⟩
    cases r with
    | fails =>
      -- `total` goes back by one, and below 0 it is too large for the loop
      cases total with
      | zero =>
        rw [after_body_fails_zero hx]
        exact hdone 0 (by simp) (Nat.zero_le _)
      | succ total =>
        rw [after_body_fails_succ hx hlt]
        exact ⟨hcgi, by omega, by simp; omega, by simp⟩
    | accepts n =>
      have hn : total + n ≤ x.2.responseBody.length := by
        simp only [Result.count, length_drop] at hle
        omega
      have hpos' : 0 < n := hpos (by simpa using hlt) (by simp)
      have hbound' : .fails ∉ rs ++ [Result.accepts n] →
          rs.length + 1 ≤ x.parts.length + (total + n) := fun h => by
        have := hbound fun hmem => h (mem_append_left _ hmem)
        omega
      rw [after_body_accepts hx hn]
      by_cases hlt' : total + n < x.2.responseBody.length
      · rw [bodyAt_of_lt hlt']
        exact ⟨hcgi, hlt', by simp; omega, by simpa using hbound'⟩
      · rw [bodyAt_of_le (not_lt.mp hlt')]
        exact hdone _ hbound' hn
  | file =>
    obtain ⟨hcgi, hlen⟩ := h
    simp [after, Progress, hcgi, hlen]
  | done => cases hdata

/-! ## Where the accepted bytes are -/

theorem stalled_concat : x.Stalled (rs ++ [r]) ↔ x.Stalled rs ∨ x.Stalls rs.length r := by
  constructor
  · rintro ⟨i, r', hi, hstalls⟩
    rcases Nat.lt_trichotomy i rs.length with hlt | rfl | hgt
    · exact Or.inl ⟨i, r', by rwa [List.getElem?_append_left hlt] at hi, hstalls⟩
    · obtain rfl : r = r' := by simpa using hi
      exact Or.inr hstalls
    · have hnone : (rs ++ [r])[i]? = none := List.getElem?_eq_none (by simp; omega)
      simp [hnone] at hi
  · rintro (⟨i, r', hi, hstalls⟩ | hstalls)
    · have hlt : i < rs.length := (List.getElem?_eq_some_iff.mp hi).1
      exact ⟨i, r', by rwa [List.getElem?_append_left hlt], hstalls⟩
    · exact ⟨rs.length, r, by simp, hstalls⟩

def Behind (x : Exchange) (rs : List Result) (m : Nat) : Pc → Prop
  | .part p ps => m < x.offset (.part p ps)
  -- the loop goes back by one byte for each call that fails
  | .body total => total = 0 ∧ m < x.head.length ∨ x.head.length + total < m
  | .file => m < x.head.length
  | .done => .fails ∉ rs → m < x.full.length ∧ (x.1.cgi = true → x.2.responseBody = [])

theorem Behind.offset_ne (h : Behind x rs m pc) (hdata : x.data pc = some data) :
    x.offset pc ≠ m := by
  cases pc with
  | part p ps => exact (Nat.ne_of_lt h).symm
  | body total =>
    simp only [Behind, offset] at h ⊢
    omega
  | file => exact (Nat.ne_of_lt h).symm
  | done => cases hdata

theorem behind_afterParts (rs : List Result) (h : m < x.head.length) :
    Behind x rs m x.afterParts := by
  rcases afterParts_cases x with ⟨_, hpc⟩ | ⟨_, _, hpc⟩ | ⟨_, hnil, hpc⟩
  · rw [hpc]
    exact h
  · rw [hpc]
    exact Or.inl ⟨rfl, h⟩
  · rw [hpc]
    intro _
    exact ⟨by simp [full]; omega, fun _ => hnil⟩

theorem offset_after_part (h : x.parts = before ++ p :: ps) (r : Result) :
    x.offset (x.after (.part p ps) r) = before.flatten.length + p.length := by
  cases ps with
  | nil =>
    rw [after, offset_afterParts]
    simp [head, h]
  | cons p' ps =>
    have h' : x.parts = (before ++ [p]) ++ p' :: ps := by simp [h]
    rw [after, offset_part h']
    simp

theorem behind_after_part (rs : List Result) (h : m < x.offset (x.after (.part p ps) r)) :
    Behind x rs m (x.after (.part p ps) r) := by
  cases ps with
  | nil => exact behind_afterParts rs (by rwa [after, offset_afterParts] at h)
  | cons p' ps => exact h

theorem offset_bodyAt (hcgi : x.1.cgi = true) (h : total ≤ x.2.responseBody.length) :
    x.offset (x.bodyAt total) = x.head.length + total := by
  rcases Nat.lt_or_eq_of_le h with hlt | heq
  · rw [bodyAt_of_lt hlt]
    rfl
  · rw [bodyAt_of_le heq.ge]
    simp [offset, full, body, hcgi, heq]

structure Tracks (x : Exchange) (rs : List Result) (m : Nat) (pc : Pc) : Prop where
  free : ¬ x.Stalled rs → x.offset pc = m
  behind : x.Stalled rs → Behind x rs m pc

section Step

variable {rs : List Result} {m : Nat} {r : Result}

theorem Tracks.after_part (hx : x.Sendable) (h : Tracks x rs m (.part p ps))
    (hprog : Progress x rs (.part p ps)) (hle : r.count ≤ p.length)
    (horder : r.count = 0 ∨ x.offset (.part p ps) = m) :
    Tracks x (rs ++ [r]) (m + r.count) (x.after (.part p ps) r) := by
  obtain ⟨before, hparts, hlen⟩ := hprog
  have hlengths : x.lengths[rs.length]? = some p.length := hlen ▸ lengths_part hparts
  have hpos : 0 < p.length :=
    length_pos_iff.mpr (hx.parts_ne p (by rw [hparts]; simp))
  have hoff := offset_part hparts
  refine ⟨fun hfree => ?_, fun hstalled => behind_after_part _ ?_⟩
  · rw [stalled_concat, not_or] at hfree
    have hfull : ¬ r.count < p.length := fun hlt => hfree.2 (Or.inr ⟨_, hlengths, hlt⟩)
    have := h.free hfree.1
    rw [offset_after_part hparts]
    omega
  · rw [offset_after_part hparts]
    by_cases hold : x.Stalled rs
    · -- nothing is accepted, and the next part is further away
      have hb := h.behind hold
      have := horder.resolve_right (hb.offset_ne rfl)
      simp only [Behind] at hb
      omega
    · have := h.free hold
      have hshort : r.count < p.length := by
        rcases (stalled_concat.mp hstalled).resolve_left hold with rfl | ⟨len, hl, hlt⟩
        · exact hpos
        · rw [hlengths] at hl
          exact some_inj.mp hl ▸ hlt
      omega

theorem Tracks.after_body (hx : x.Sendable) (h : Tracks x rs m (.body total))
    (hprog : Progress x rs (.body total)) (hle : r.count ≤ x.2.responseBody.length - total)
    (hpos : r ≠ .fails → 0 < r.count) (horder : r.count = 0 ∨ x.offset (.body total) = m) :
    Tracks x (rs ++ [r]) (m + r.count) (x.after (.body total) r) := by
  obtain ⟨hcgi, hlt, hmade, _⟩ := hprog
  cases r with
  | accepts n =>
    have hn : 0 < n := hpos (by simp)
    have hle' : n ≤ x.2.responseBody.length - total := hle
    have hoff : x.offset (.body total) = m := horder.resolve_left (Nat.ne_of_gt hn)
    have hstalled : ¬ x.Stalled (rs ++ [Result.accepts n]) := by
      rw [stalled_concat]
      rintro (hold | hstalls | ⟨len, hl, _⟩)
      · exact (h.behind hold).offset_ne rfl hoff
      · cases hstalls
      · rw [lengths_body hcgi hmade] at hl
        cases hl
    rw [after_body_accepts hx (by omega)]
    refine ⟨fun _ => ?_, fun h => absurd h hstalled⟩
    rw [offset_bodyAt hcgi (by omega), ← hoff]
    simp only [offset, Result.count]
    omega
  | fails =>
    have hstalled : x.Stalled (rs ++ [Result.fails]) := stalled_concat.mpr (Or.inr (Or.inl rfl))
    refine ⟨fun h => absurd hstalled h, fun _ => ?_⟩
    cases total with
    | zero =>
      rw [after_body_fails_zero hx]
      exact fun hnot => absurd (by simp) hnot
    | succ total =>
      rw [after_body_fails_succ hx hlt]
      -- the byte before the last one accepted is sent next
      refine Or.inr ?_
      simp only [Result.count]
      by_cases hold : x.Stalled rs
      · have hb := h.behind hold
        simp only [Behind] at hb
        omega
      · have := h.free hold
        simp only [offset] at this
        omega

theorem Tracks.after_file (h : Tracks x rs m .file) (hprog : Progress x rs .file)
    (hle : r.count ≤ x.fileBody.length) (horder : r.count = 0 ∨ x.offset .file = m) :
    Tracks x (rs ++ [r]) (m + r.count) (x.after .file r) := by
  obtain ⟨hcgi, hlen⟩ := hprog
  have hlengths : x.lengths[rs.length]? = some x.fileBody.length := hlen ▸ lengths_file hcgi
  have hfull : x.full.length = x.head.length + x.fileBody.length := by simp [full, body, hcgi]
  refine ⟨fun hfree => ?_, fun hstalled hnot => ⟨?_, fun h => by simp [hcgi] at h⟩⟩
  · rw [stalled_concat, not_or] at hfree
    have hall : ¬ r.count < x.fileBody.length := fun hlt => hfree.2 (Or.inr ⟨_, hlengths, hlt⟩)
    have := h.free hfree.1
    simp only [after, offset] at this ⊢
    omega
  · by_cases hold : x.Stalled rs
    · have hb := h.behind hold
      have := horder.resolve_right (hb.offset_ne rfl)
      simp only [Behind] at hb
      omega
    · have := h.free hold
      simp only [offset] at this
      have hshort : r.count < x.fileBody.length := by
        rcases (stalled_concat.mp hstalled).resolve_left hold with rfl | ⟨len, hl, hlt⟩
        · simp at hnot
        · rw [hlengths] at hl
          exact some_inj.mp hl ▸ hlt
      omega

theorem Tracks.after (hx : x.Sendable) (h : Tracks x rs m pc) (hprog : Progress x rs pc)
    (hdata : x.data pc = some data) (hr : x.possible pc data r = true)
    (horder : r.count = 0 ∨ x.offset pc = m) :
    Tracks x (rs ++ [r]) (m + r.count) (x.after pc r) := by
  obtain ⟨hle, hpos⟩ := possible_count hr
  cases pc with
  | part p ps =>
    obtain rfl : p = data := some_inj.mp hdata
    exact h.after_part hx hprog hle horder
  | body total =>
    obtain rfl : x.2.responseBody.drop total = data := some_inj.mp hdata
    have hne : x.2.responseBody.drop total ≠ [] := by simpa using hprog.2.1
    exact h.after_body hx hprog (by simpa using hle) (hpos hne) horder
  | file =>
    obtain rfl : x.fileBody = data := some_inj.mp hdata
    exact h.after_file hprog hle horder
  | done => cases hdata

end Step

theorem nothingAfterStall_concat : x.NothingAfterStall (rs ++ [r]) ↔
      x.NothingAfterStall rs ∧ (x.Stalled rs → r.count = 0) := by
  have hold : ∀ {i : Nat} {r' : Result}, rs[i]? = some r' → (rs ++ [r])[i]? = some r' := fun hi => by
    rwa [List.getElem?_append_left (List.getElem?_eq_some_iff.mp hi).1]
  constructor
  · intro h
    refine ⟨fun i j r1 r2 hij hi hj => h i j r1 r2 hij (hold hi) (hold hj), ?_⟩
    rintro ⟨i, r', hi, hstalls⟩
    exact h i rs.length r' r (List.getElem?_eq_some_iff.mp hi).1 (hold hi) (by simp) hstalls
  · rintro ⟨h, hlast⟩ i j r1 r2 hij hi hj hstalls
    have hj' : j < rs.length + 1 := by simpa using (List.getElem?_eq_some_iff.mp hj).1
    have hi' : rs[i]? = some r1 := by rwa [List.getElem?_append_left (by omega)] at hi
    rcases Nat.lt_succ_iff_lt_or_eq.mp hj' with hlt | rfl
    · exact h i j r1 r2 hij hi' (by rwa [List.getElem?_append_left hlt] at hj) hstalls
    · obtain rfl : r = r2 := by simpa using hj
      exact hlast ⟨i, r1, hi', hstalls⟩

/-! ## Runs -/

structure Sent (x : Exchange) (rs : List Result) (s : Sending) : Prop where
  progress : Progress x rs s.pc
  inOrder_iff : s.positions = List.range s.positions.length ↔ x.NothingAfterStall rs
  tracks : s.positions = List.range s.positions.length → Tracks x rs s.positions.length s.pc
  bytes : s.positions = List.range s.positions.length →
    s.bytes = x.full.take s.positions.length ∧ s.positions.length ≤ x.full.length

theorem Sent.start (x : Exchange) : Sent x [] x.start := by
  have hstalled : ¬ x.Stalled [] := by simp [Stalled]
  refine ⟨⟨[], rfl, rfl⟩, ?_, fun _ => ⟨fun _ => ?_, fun h => absurd h hstalled⟩, fun _ => ?_⟩
  · simp [Exchange.start, NothingAfterStall]
  · have hparts : x.parts = [] ++ x.2.statusLine :: (x.2.responseHeader ++ [x.2.blank]) := rfl
    exact offset_part hparts
  · simp [Exchange.start]

theorem Sent.next (hx : x.Sendable) {s' : Sending} (h : Sent x rs s) (hstep : x.next s r = some s') :
    Sent x (rs ++ [r]) s' := by
  obtain ⟨data, hdata, hstep⟩ := bind_eq_some_iff.mp hstep
  split at hstep
  · next hr =>
    cases hstep
    have hcount := (possible_count hr).1
    have hat := data_at h.progress hdata
    refine ⟨progress_after hx h.progress hdata hr, ?_, ?_, ?_⟩
    · -- once the bytes are out of order they stay so
      rw [inOrder_append, nothingAfterStall_concat, ← h.inOrder_iff]
      refine and_congr_right fun horder => ?_
      have htracks := h.tracks horder
      by_cases hstalled : x.Stalled rs
      · simp [hstalled, (htracks.behind hstalled).offset_ne hdata]
      · simp [hstalled, htracks.free hstalled]
    · intro horder
      obtain ⟨hold, hnew⟩ := inOrder_append.mp horder
      simpa using (h.tracks hold).after hx h.progress hdata hr hnew
    · intro horder
      obtain ⟨hold, hnew⟩ := inOrder_append.mp horder
      obtain ⟨hbytes, hle⟩ := h.bytes hold
      have hlen : r.count ≤ x.full.length - x.offset s.pc :=
        hcount.trans (by simpa using hat.length_le)
      rcases hnew with hzero | hoff
      · simp [hzero, hbytes, hle]
      · rw [hoff] at hat hlen
        have htake : data.take r.count = (x.full.drop s.positions.length).take r.count := by
          obtain ⟨post, hpost⟩ := hat
          rw [← hpost, take_append_of_le_length hcount]
        simp only [length_append, length_range', hbytes, htake, take_add]
        exact ⟨trivial, by omega⟩
  · cases hstep

theorem Sent.of_steps (hx : x.Sendable) (h : x.sends.Steps x.start rs s) : Sent x rs s :=
  h.preserves_history (Sent x) (fun _ _ _ _ hs hstep => hs.next hx hstep) [] (Sent.start x)

theorem Sent.done_of_last (h : Sent x rs s) (hbody : x.1.cgi = true → x.2.responseBody = [])
    (hlen : rs.length = x.lengths.length) : s.pc = .done := by
  have hprog := h.progress
  have hcalls : x.lengths.length = x.parts.length + if x.1.cgi then 0 else 1 := by
    cases hcgi : x.1.cgi <;> simp [lengths, hcgi]
  cases hpc : s.pc with
  | part p ps =>
    rw [hpc] at hprog
    obtain ⟨before, hparts, hbefore⟩ := hprog
    have : x.parts.length = before.length + (ps.length + 1) := by rw [hparts]; simp
    omega
  | body total =>
    rw [hpc] at hprog
    obtain ⟨hcgi, hlt, _⟩ := hprog
    simp [hbody hcgi] at hlt
  | file =>
    rw [hpc] at hprog
    obtain ⟨hcgi, hmade⟩ := hprog
    simp [hcgi] at hcalls
    omega
  | done => rfl

theorem Sent.full_of_done (h : Sent x rs s) (hdone : s.pc = .done) (hfree : ¬ x.Stalled rs) :
    s.bytes = x.full := by
  have horder := h.inOrder_iff.mpr fun i j r r' _ hi _ hstalls => absurd ⟨i, r, hi, hstalls⟩ hfree
  have htracks := h.tracks horder
  rw [hdone] at htracks
  rw [(h.bytes horder).1, ← htracks.free hfree]
  exact take_length

theorem Sent.delivered_iff (h : Sent x rs s) : Delivered x rs s ↔ Orderly x rs := by
  constructor
  · intro hd
    refine ⟨h.inOrder_iff.mp hd.inOrder, fun hbody hlen hfails hstalled => ?_⟩
    have hdone := h.done_of_last hbody hlen
    have hbehind := (h.tracks hd.inOrder).behind hstalled
    rw [hdone] at hbehind
    have hlt := (hbehind hfails).1
    have hbytes := (h.bytes hd.inOrder).1
    rw [hd.whole hdone hfails] at hbytes
    have := congrArg length hbytes
    rw [length_take] at this
    omega
  · intro ho
    have horder := h.inOrder_iff.mpr ho.stops
    obtain ⟨hbytes, hle⟩ := h.bytes horder
    refine ⟨hbytes ▸ take_prefix _ _, horder, fun hdone hfails => ?_⟩
    have htracks := h.tracks horder
    have hprog := h.progress
    rw [hdone] at htracks hprog
    -- a call that stalled without failing was the last one
    have hfree : ¬ x.Stalled rs := fun hstalled => by
      have hbody := ((htracks.behind hstalled) hfails).2
      refine ho.last hbody ?_ hfails hstalled
      cases hcgi : x.1.cgi with
      | false => simpa [Progress, hcgi, lengths] using hprog
      | true =>
        simp only [Progress, hcgi, if_true] at hprog
        simpa [hcgi, lengths] using hprog.1 (hbody hcgi)
    exact h.full_of_done hdone hfree

theorem Sent.calls_le (h : Sent x rs s) (hfails : .fails ∉ rs) :
    rs.length ≤ x.parts.length + x.body.length + 1 := by
  have hprog := h.progress
  cases hpc : s.pc with
  | part p ps =>
    rw [hpc] at hprog
    obtain ⟨before, hparts, hbefore⟩ := hprog
    have : x.parts.length = before.length + (ps.length + 1) := by rw [hparts]; simp
    omega
  | body total =>
    rw [hpc] at hprog
    obtain ⟨hcgi, hlt, _, hbound⟩ := hprog
    have := hbound hfails
    simp only [body, hcgi, if_true]
    omega
  | file =>
    rw [hpc] at hprog
    have := hprog.2
    omega
  | done =>
    rw [hpc] at hprog
    cases hcgi : x.1.cgi with
    | false =>
      simp only [Progress, hcgi, Bool.false_eq_true, if_false] at hprog
      omega
    | true =>
      simp only [Progress, hcgi, if_true] at hprog
      have := hprog.2 hfails
      simp only [body, hcgi, if_true]
      omega

end Exchange

/-! ## Responses that are built -/

theorem sendable_helper (env : Env) (request : HttpRequest) {code : Int} {body : Bytes}
    {file : Option OpenFile} (hbody : body.length < 2 ^ 64) :
    Exchange.Sendable (buildHttpResponseHelper env
      (request, { statusCode := code, responseBody := body, file := file })) := by
  have hblank : ascii "\r\n" ≠ [] := by decide
  unfold buildHttpResponseHelper buildOKResponse handlerError
  simp only
  split
  · exact ⟨by simp [Exchange.parts, hblank], hbody⟩
  · split
    · split
      · exact ⟨by simp [Exchange.parts, hblank], hbody⟩
      · exact ⟨by simp [Exchange.parts, hblank], hbody⟩
    · exact ⟨by simp [Exchange.parts, hblank], hbody⟩

theorem processCgi_lt (run : CgiRun) : (processCgi run).2.length < 2 ^ 64 := by
  have hlt := run.output_lt
  unfold processCgi
  repeat' split
  all_goals first
    | exact hlt
    | exact Nat.two_pow_pos 64

theorem sendable_built (env : Env) (request : HttpRequest) :
    Exchange.Sendable (buildHttpResponse env request) := by
  have hempty : ([] : Bytes).length < 2 ^ 64 := Nat.two_pow_pos 64
  unfold buildHttpResponse
  simp only
  split
  · exact sendable_helper env _ hempty
  · split
    · exact sendable_helper env _ hempty
    · split
      · exact sendable_helper env _ (processCgi_lt _)
      · exact sendable_helper env _ hempty

/-- **The bytes on the wire**: the bytes accepted of a response that was built are its
    first ones, each once, and all of them if no call fails, iff no byte is accepted
    after a call that failed or, outside of the loop, accepted less than it was given,
    and there is no such call if none fails; and there are finitely many calls then. -/
theorem response_delivered_iff (env : Env) (request : HttpRequest) {rs : List Result} {s : Sending}
    (h : (buildHttpResponse env request).sends.Steps (buildHttpResponse env request).start rs s) :
    (Exchange.Delivered (buildHttpResponse env request) rs s ↔
      Exchange.Orderly (buildHttpResponse env request) rs) ∧
    (.fails ∉ rs → rs.length ≤ (buildHttpResponse env request).parts.length +
      (buildHttpResponse env request).body.length + 1) := by
  have hsent := Exchange.Sent.of_steps (sendable_built env request) h
  exact ⟨hsent.delivered_iff, hsent.calls_le⟩

def okEnv : Env where
  stat := fun _ => some ⟨false, true, 0⟩
  openFile := fun _ => none
  cgi := fun _ => ⟨true, true, true, ascii "ok", by decide, true, true, 0⟩
  unwritten := ⟨false, false, 0⟩

def okRequest : HttpRequest := { method := ascii "GET", uri := ascii "/cgi?a=1" }

def okResponse : Exchange := buildHttpResponse okEnv okRequest

def okResults : List Result :=
  [.accepts 17, .accepts 25, .accepts 18, .accepts 2, .accepts 1, .accepts 1]

/-- Its output is sent in two calls. -/
theorem response_delivered_ok :
    ∃ s, okResponse.sends.Steps okResponse.start okResults s ∧ s.pc = .done ∧
      Exchange.Delivered okResponse okResults s := by
  obtain ⟨s, hrun, hpc⟩ := Option.map_eq_some_iff.mp
    (show (System.run okResponse.next okResponse.start okResults).map Sending.pc = some .done by
      decide +kernel)
  have hlengths : okResponse.lengths = [17, 25, 18, 2] := by decide +kernel
  have hstalls : ∀ i r, okResults[i]? = some r → ¬ okResponse.Stalls i r := by
    intro i r hi
    have hlt : i < 6 := (List.getElem?_eq_some_iff.mp hi).1
    unfold Exchange.Stalls
    rw [hlengths]
    interval_cases i <;> cases hi <;> simp [Result.count]
  have hsteps : okResponse.sends.Steps okResponse.start okResults s := System.steps_of_run hrun
  exact ⟨s, hsteps, hpc, (response_delivered_iff okEnv okRequest hsteps).1.mpr
    ⟨fun i j r r' _ hi _ hs => absurd hs (hstalls i r hi),
      fun _ _ _ ⟨i, r, hi, hs⟩ => hstalls i r hi hs⟩⟩

/-- One byte of the status line is accepted, and then one of the first header line. -/
theorem response_not_delivered : ∃ rs s, okResponse.sends.Steps okResponse.start rs s ∧
      ¬ Exchange.Delivered okResponse rs s := by
  obtain ⟨s, hrun, hpos⟩ := Option.map_eq_some_iff.mp
    (show (System.run okResponse.next okResponse.start [.accepts 1, .accepts 1]).map
      Sending.positions = some [0, 17] by decide +kernel)
  refine ⟨_, s, System.steps_of_run hrun, fun h => ?_⟩
  have horder := h.inOrder
  rw [hpos] at horder
  cases horder

end CallLesson.Http
