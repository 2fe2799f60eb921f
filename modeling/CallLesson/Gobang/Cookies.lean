import CallLesson.Framework.Text

/-! # Cookies

    `string_util::split` in `game/source/util.hpp` and `get_cookie_val` in
    `game/source/server.hpp`. The header is split into cookies and each cookie into
    parts; empty parts are dropped, and a cookie that has not exactly two parts is
    skipped. -/

namespace CallLesson.Gobang

open Text Option

/-! ## Model -/

def split (sep src : Bytes) : Option (List Bytes) :=
  if src = [] then some []
  else
    match find sep src with
    | none => some [src]
    | some pos =>
        let rest := src.drop (pos + sep.length)
        -- with an empty separator the index stays where it is
        if rest.length < src.length then
          if pos = 0 then split sep rest else (split sep rest).map (src.take pos :: ·)
        else none
termination_by src.length
decreasing_by all_goals assumption

def splitInto (src sep : Bytes) (res : List Bytes) : Option (List Bytes × Int) :=
  (split sep src).map fun parts => (res ++ parts, ((res ++ parts).length : Int).bmod (2 ^ 32))

def cookieLoop (key : Bytes) : List Bytes → Option (Option Bytes)
  | [] => some none
  | str :: strs => do
      let tmpArr ← split (ascii "=") str
      -- a cookie that does not split into two is skipped
      match tmpArr with
      | [name, val] => if name = key then return some val else cookieLoop key strs
      | _ => cookieLoop key strs

def getCookieVal (cookieStr key : Bytes) : Option (Option Bytes) := do
  let cookieArr ← split (ascii "; ") cookieStr
  cookieLoop key cookieArr

structure Cookie where
  key : Bytes
  val : Bytes
  key_ne : key ≠ []
  key_no_eq : 61 ∉ key
  key_no_sep : ¬ ascii "; " <:+: key
  val_no_sep : ¬ ascii "; " <:+: val

def Cookie.text (c : Cookie) : Bytes := c.key ++ ascii "=" ++ c.val

def cookieHeader (cookies : List Cookie) : Bytes :=
  (ascii "; ").intercalate (cookies.map Cookie.text)

/-! ## Splitting -/

open List

variable {sep : Bytes}

section Split

variable {c : UInt8} {pat : Bytes}

theorem split_nil (sep : Bytes) : split sep [] = some [] := by
  rw [split, if_pos rfl]

variable {src part : Bytes}

theorem split_of_find_none (hne : src ≠ []) (hnone : find sep src = none) :
    split sep src = some [src] := by
  rw [split, if_neg hne, hnone]

theorem split_of_find {rest : Bytes} (hsep : sep ≠ [])
    (hfind : find sep (part ++ sep ++ rest) = some part.length) :
    split sep (part ++ sep ++ rest) =
      if part = [] then split sep rest else (split sep rest).map (part :: ·) := by
  have hne : part ++ sep ++ rest ≠ [] := by simp [hsep]
  have hdrop : (part ++ sep ++ rest).drop (part.length + sep.length) = rest := by
    rw [← length_append, drop_left]
  have htake : (part ++ sep ++ rest).take part.length = part := by
    rw [append_assoc, take_left]
  have hlt : rest.length < (part ++ sep ++ rest).length := by
    have hpos : 0 < sep.length := length_pos_iff.mpr hsep
    simp only [length_append]
    omega
  rw [split, if_neg hne, hfind]
  simp only [hdrop, htake, if_pos hlt, length_eq_zero_iff]

theorem split_append (hc : c ∉ pat) (hnone : find (c :: pat) part = none) (rest : Bytes) :
    split (c :: pat) (part ++ (c :: pat) ++ rest) =
      if part = [] then split (c :: pat) rest
      else (split (c :: pat) rest).map (part :: ·) :=
  split_of_find (cons_ne_nil c pat) (find_append_pattern pat hnone hc rest)

theorem split_ends (c : UInt8) (pat src : Bytes) : ∃ parts, split (c :: pat) src = some parts := by
  fun_induction split (c :: pat) src with
  | case1 => exact ⟨_, rfl⟩
  | case2 => exact ⟨_, rfl⟩
  | case3 => assumption
  | case4 src hne pos hfind rest hlt hpos ih =>
    obtain ⟨parts, hparts⟩ := ih
    exact ⟨_, by rw [hparts]; rfl⟩
  | case5 src hne pos hfind rest hge =>
    have hpos : 0 < src.length := length_pos_iff.mpr hne
    simp only [rest, length_drop, length_cons] at hge
    omega

theorem split_intercalate (hc : c ∉ pat) (parts : List Bytes)
    (h : ∀ part ∈ parts, find (c :: pat) part = none ∧ part ≠ []) :
    split (c :: pat) ((c :: pat).intercalate parts) = some parts := by
  induction parts with
  | nil => exact split_nil _
  | cons part parts ih =>
    obtain ⟨⟨hnone, hne⟩, h⟩ := forall_mem_cons.mp h
    cases parts with
    | nil =>
      rw [intercalate_singleton]
      exact split_of_find_none hne hnone
    | cons part' parts =>
      rw [intercalate_cons_cons, split_append hc hnone, if_neg hne, ih h]
      rfl

inductive Cut (sep : Bytes) : Bytes → List Bytes → Prop where
  | last {src : Bytes} : ¬ sep <:+: src → Cut sep src [src]
  | next {piece rest : Bytes} {pieces : List Bytes} :
      (∀ j < piece.length, ¬ sep <+: (piece ++ sep ++ rest).drop j) → Cut sep rest pieces →
      Cut sep (piece ++ sep ++ rest) (piece :: pieces)

def nonEmpty (pieces : List Bytes) : List Bytes := pieces.filter (· ≠ [])

theorem exists_cut (hsep : sep ≠ []) (src : Bytes) : ∃ pieces, Cut sep src pieces := by
  induction hn : src.length using Nat.strong_induction_on generalizing src with
  | _ n ih =>
    cases hfind : find sep src with
    | none => exact ⟨_, Cut.last (find_eq_none_iff.mp hfind)⟩
    | some i =>
      obtain ⟨⟨rest, hrest⟩, hle, hbefore⟩ := find_spec hfind
      have hsplit : src = src.take i ++ sep ++ rest := by
        rw [append_assoc, hrest, take_append_drop]
      have hlen := congrArg length hsplit
      have hpos : 0 < sep.length := length_pos_iff.mpr hsep
      simp only [length_append, length_take] at hlen
      obtain ⟨pieces, hcut⟩ := ih rest.length (by omega) rest rfl
      rw [hsplit]
      refine ⟨_, Cut.next (fun j hj => ?_) hcut⟩
      rw [length_take] at hj
      rw [← hsplit]
      exact hbefore j (by omega)

theorem split_of_cut {pieces : List Bytes} (hsep : sep ≠ []) (h : Cut sep src pieces) :
    split sep src = some (nonEmpty pieces) := by
  induction h with
  | @last src hnot =>
    by_cases hne : src = []
    · rw [hne, split_nil]
      rfl
    · rw [split_of_find_none hne (find_eq_none_iff.mpr hnot), nonEmpty,
        filter_cons_of_pos (by simpa using hne), filter_nil]
  | @next piece rest pieces hbefore hcut ih =>
    have hhere : sep <+: (piece ++ sep ++ rest).drop piece.length := by
      rw [append_assoc, drop_left]
      exact prefix_append sep rest
    rw [split_of_find hsep (find_eq_some (by simp) hhere hbefore), ih]
    by_cases hne : piece = []
    · rw [if_pos hne, nonEmpty, nonEmpty, filter_cons_of_neg (by simpa using hne)]
    · rw [if_neg hne, nonEmpty, nonEmpty, filter_cons_of_pos (by simpa using hne), map_some]

theorem Cut.not_infix {pieces : List Bytes} (hsep : sep ≠ []) (h : Cut sep src pieces) :
    ∀ piece ∈ pieces, ¬ sep <:+: piece := by
  induction h with
  | last hnot => simpa using hnot
  | @next piece rest pieces hbefore _ ih =>
    refine forall_mem_cons.mpr ⟨?_, ih⟩
    rintro ⟨pre, post, hpiece⟩
    have hpos : 0 < sep.length := length_pos_iff.mpr hsep
    have hlen := congrArg length hpiece
    simp only [length_append] at hlen
    refine hbefore pre.length (by omega) ?_
    rw [← hpiece]
    simp [prefix_append]

end Split

/-- **Splitting**: with a separator that is not empty, `split` returns and appends the pieces
    that are not empty, in order, none of which has the separator; the count is that of what
    is in `res` then if and only if it is an `int`. -/
theorem split_standard_iff (src sep : Bytes) (hsep : sep ≠ []) (res : List Bytes) :
    (∃ pieces, Cut sep src pieces) ∧ ∀ pieces, Cut sep src pieces →
      ((∃ res' count, splitInto src sep res = some (res', count) ∧ res' = res ++ nonEmpty pieces ∧
          (∀ piece ∈ nonEmpty pieces, piece ≠ [] ∧ ¬ sep <:+: piece) ∧
          count = (res'.length : Int)) ↔
        res.length + (nonEmpty pieces).length < 2 ^ 31) := by
  refine ⟨exists_cut hsep src, fun pieces hcut => ?_⟩
  have hpieces : ∀ piece ∈ nonEmpty pieces, piece ≠ [] ∧ ¬ sep <:+: piece := by
    intro piece hmem
    obtain ⟨hmem, hne⟩ := List.mem_filter.mp hmem
    exact ⟨by simpa using hne, hcut.not_infix hsep piece hmem⟩
  have hsplit : splitInto src sep res = some (res ++ nonEmpty pieces,
      ((res ++ nonEmpty pieces).length : Int).bmod (2 ^ 32)) := by
    rw [splitInto, split_of_cut hsep hcut, map_some]
  rw [← List.length_append]
  constructor
  · rintro ⟨res', count, hok, rfl, -, hcount⟩
    rw [hsplit, some_inj, Prod.mk.injEq] at hok
    -- the conversion to `int` has left the count as it is
    have hint := hok.2.trans hcount
    have hlt := Int.bmod_lt (x := ((res ++ nonEmpty pieces).length : Int)) (m := 2 ^ 32) (by decide)
    omega
  · intro hlt
    refine ⟨_, _, hsplit, rfl, hpieces, ?_⟩
    exact Int.bmod_eq_of_le (by omega) (by omega)

/-- Separators at both ends and next to each other. -/
theorem split_standard_commas :
    ∃ res' count, splitInto (ascii ",a,,b,") (ascii ",") [ascii "x"] = some (res', count) ∧
      res' = [ascii "x"] ++ nonEmpty [[], ascii "a", [], ascii "b", []] ∧
      (∀ piece ∈ nonEmpty [[], ascii "a", [], ascii "b", []],
        piece ≠ [] ∧ ¬ ascii "," <:+: piece) ∧ count = (res'.length : Int) := by
  have hcut : Cut (ascii ",") (ascii ",a,,b,") [[], ascii "a", [], ascii "b", []] := by
    refine @Cut.next _ [] (ascii "a,,b,") _ (by decide) ?_
    refine @Cut.next _ (ascii "a") (ascii ",b,") _ (by decide) ?_
    refine @Cut.next _ [] (ascii "b,") _ (by decide) ?_
    refine @Cut.next _ (ascii "b") [] _ (by decide) ?_
    exact Cut.last (by decide)
  exact ((split_standard_iff _ _ (by decide) [ascii "x"]).2 _ hcut).mpr (by decide)

/-- With `2 ^ 31` strings in the vector the count is negative. -/
theorem split_count_negative : splitInto [] (ascii ",") (List.replicate (2 ^ 31) []) =
        some (List.replicate (2 ^ 31) [], -2 ^ 31) ∧
      ((List.replicate (2 ^ 31) ([] : Bytes)).length : Int) = 2 ^ 31 := by
  have hlen : ((List.replicate (2 ^ 31) ([] : Bytes)).length : Int) = 2 ^ 31 := by
    rw [List.length_replicate]
    rfl
  refine ⟨?_, hlen⟩
  rw [splitInto, split_nil, map_some, List.append_nil, hlen]
  rfl

/-! ## The value of a key -/

section Value

variable (cookie : Cookie)

theorem Cookie.find_text : find (ascii "; ") cookie.text = none := by
  refine find_eq_none_iff.mpr fun h => ?_
  have htext : cookie.text = cookie.key ++ 61 :: cookie.val := by
    rw [Cookie.text, append_assoc]
    rfl
  -- the separator does not go across the equals sign
  rw [htext] at h
  exact (infix_of_infix_append_cons (by decide) h).elim cookie.key_no_sep cookie.val_no_sep

theorem Cookie.find_key : find (ascii "=") cookie.key = none :=
  find_eq_none (c := 61) (by decide) cookie.key_no_eq

theorem Cookie.split_text :
    split (ascii "=") cookie.text = (split (ascii "=") cookie.val).map (cookie.key :: ·) := by
  have hsplit := split_append (c := 61) (by simp) cookie.find_key cookie.val
  rwa [if_neg cookie.key_ne] at hsplit

theorem Cookie.split_val (hne : cookie.val ≠ []) (hval : 61 ∉ cookie.val) :
    split (ascii "=") cookie.text = some [cookie.key, cookie.val] := by
  rw [cookie.split_text, split_of_find_none hne (find_eq_none (c := 61) (by decide) hval)]
  rfl

variable {cookie} {key : Bytes}

theorem cookieLoop_other (h : cookie.key ≠ key) (strs : List Bytes) :
    cookieLoop key (cookie.text :: strs) = cookieLoop key strs := by
  -- whatever the value splits into, the key comes first
  obtain ⟨parts, hparts⟩ := split_ends 61 [] cookie.val
  have hsplit : split (ascii "=") cookie.text = some (cookie.key :: parts) := by
    rw [cookie.split_text]
    exact congrArg (Option.map (cookie.key :: ·)) hparts
  rw [cookieLoop, hsplit, bind_eq_bind, bind_some]
  split
  · next name val heq =>
    rw [← (cons.inj heq).1, if_neg h]
  · rfl

theorem cookieLoop_found (hkey : cookie.key = key) (hne : cookie.val ≠ []) (hval : 61 ∉ cookie.val)
    (strs : List Bytes) : cookieLoop key (cookie.text :: strs) = some (some cookie.val) := by
  rw [cookieLoop, cookie.split_val hne hval, bind_eq_bind, bind_some]
  exact if_pos hkey

theorem cookieLoop_eq {cookies : List Cookie}
    (h : ∀ cookie ∈ cookies, cookie.key = key → cookie.val ≠ [] ∧ 61 ∉ cookie.val) :
    cookieLoop key (cookies.map Cookie.text) =
      some ((cookies.find? (·.key = key)).map Cookie.val) := by
  induction cookies with
  | nil => rfl
  | cons cookie cookies ih =>
    obtain ⟨hcookie, h⟩ := forall_mem_cons.mp h
    by_cases hkey : cookie.key = key
    · obtain ⟨hne, hval⟩ := hcookie hkey
      rw [map_cons, cookieLoop_found hkey hne hval, find?_cons_of_pos (by simpa using hkey)]
      rfl
    · rw [map_cons, cookieLoop_other hkey, ih h, find?_cons_of_neg (by simpa using hkey)]

end Value

/-- **Cookies**: among any other cookies, also ones without a value or with an equals sign in
    it, `get_cookie_val` returns the value in the first cookie with a key, and false if there
    is none, as long as the values with that key are not empty and have no equals sign. -/
theorem cookie_value_found {cookies : List Cookie} {key : Bytes}
    (h : ∀ cookie ∈ cookies, cookie.key = key → cookie.val ≠ [] ∧ 61 ∉ cookie.val) :
    getCookieVal (cookieHeader cookies) key =
      some ((cookies.find? (·.key = key)).map Cookie.val) := by
  have hparts : split (ascii "; ") (cookieHeader cookies) = some (cookies.map Cookie.text) := by
    refine split_intercalate (c := 59) (by decide) _ fun part hpart => ?_
    obtain ⟨cookie, -, rfl⟩ := List.mem_map.mp hpart
    exact ⟨cookie.find_text, by simp [Cookie.text, cookie.key_ne]⟩
  rw [getCookieVal, hparts]
  exact cookieLoop_eq h

def cookieOf (key val : String)
    (h : ascii key ≠ [] ∧ 61 ∉ ascii key ∧ ¬ ascii "; " <:+: ascii key ∧
      ¬ ascii "; " <:+: ascii val) : Cookie :=
  ⟨ascii key, ascii val, h.1, h.2.1, h.2.2.1, h.2.2.2⟩

/-- Two cookies with odd values before the one that is asked for. -/
theorem cookie_value_third : getCookieVal
        (cookieHeader [cookieOf "a" "" (by decide), cookieOf "b" "=SSID=" (by decide),
          cookieOf "SSID" "7" (by decide), cookieOf "SSID" "8" (by decide)]) (ascii "SSID") =
      some (some (ascii "7")) :=
  cookie_value_found (by
    intro cookie hmem hkey
    fin_cases hmem
    · exact absurd hkey (by decide)
    · exact absurd hkey (by decide)
    · exact ⟨by decide, by decide⟩
    · exact ⟨by decide, by decide⟩)

end CallLesson.Gobang
