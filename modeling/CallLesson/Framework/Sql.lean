import CallLesson.Framework.Text

/-! # The tokens of an SQL statement

    A statement is read byte by byte, as MySQL does it with its default settings: words,
    single characters, and texts in single quotes, where a backslash starts an escape
    sequence and two quotes stand for one. Everything else that a statement can have is
    taken for single characters.

    A statement is often built by putting values between the quotes of a template. Every
    byte of the statement adds at most one to the size of the tokens, so that a value which
    is written in more bytes than it has would have to take them from what follows. -/

namespace CallLesson.Sql

open Text

/-! ## Tokens -/

inductive Token where
  | word (w : Bytes)
  | symbol (c : UInt8)
  | str (s : Bytes)
  deriving DecidableEq

inductive Mode where
  | between
  | word (w : Bytes)
  | quoted (s : Bytes)
  /-- After a backslash in a text. -/
  | escaped (s : Bytes)
  /-- After a quote that ends the text, unless there is another one. -/
  | closing (s : Bytes)
  deriving DecidableEq

def isWordByte (c : UInt8) : Bool :=
  isDigit c || (65 ≤ c && c ≤ 90) || (97 ≤ c && c ≤ 122) || c = 95 || c = 36 || 128 ≤ c

def unescape (c : UInt8) : Bytes :=
  if c = 48 then [0]
  else if c = 98 then [8]
  else if c = 110 then [10]
  else if c = 114 then [13]
  else if c = 116 then [9]
  else if c = 90 then [26]
  -- kept for patterns
  else if c = 37 ∨ c = 95 then [92, c]
  else [c]

def start (c : UInt8) : List Token × Mode :=
  if isSpace c then ([], .between)
  else if c = 39 then ([], .quoted [])
  else if isWordByte c then ([], .word [c])
  else ([.symbol c], .between)

def step : Mode → UInt8 → List Token × Mode
  | .between, c => start c
  | .word w, c =>
      if isWordByte c then ([], .word (w ++ [c])) else (.word w :: (start c).1, (start c).2)
  | .quoted s, c =>
      if c = 39 then ([], .closing s)
      else if c = 92 then ([], .escaped s)
      else ([], .quoted (s ++ [c]))
  | .escaped s, c => ([], .quoted (s ++ unescape c))
  | .closing s, c =>
      if c = 39 then ([], .quoted (s ++ [39])) else (.str s :: (start c).1, (start c).2)

def scan : Mode → Bytes → List Token × Mode
  | m, [] => ([], m)
  | m, c :: cs => ((step m c).1 ++ (scan (step m c).2 cs).1, (scan (step m c).2 cs).2)

def finish : Mode → Option (List Token)
  | .between => some []
  | .word w => some [.word w]
  | .quoted _ => none
  | .escaped _ => none
  | .closing s => some [.str s]

def lexFrom (m : Mode) (cs : Bytes) : Option (List Token) :=
  (finish (scan m cs).2).map ((scan m cs).1 ++ ·)

def lex (cs : Bytes) : Option (List Token) := lexFrom .between cs

open List

section scan

variable {m : Mode} {s cs xs ys : Bytes} {toks : List Token} {c : UInt8}

theorem lexFrom_cons (m : Mode) (c : UInt8) (cs : Bytes) :
    lexFrom m (c :: cs) = (lexFrom (step m c).2 cs).map ((step m c).1 ++ ·) := by
  simp [lexFrom, scan, Function.comp_def]

theorem lexFrom_silent {m' : Mode} (h : step m c = ([], m')) (cs : Bytes) :
    lexFrom m (c :: cs) = lexFrom m' cs := by
  rw [lexFrom_cons, h]
  simp

theorem lexFrom_append (m : Mode) (xs ys : Bytes) :
    lexFrom m (xs ++ ys) = (lexFrom (scan m xs).2 ys).map ((scan m xs).1 ++ ·) := by
  induction xs generalizing m with
  | nil => simp [scan]
  | cons c xs ih =>
    rw [cons_append, lexFrom_cons, ih, scan]
    simp [Function.comp_def]

theorem lexFrom_skip {toks' : List Token} (h : scan .between xs = (toks, .between)) :
    lexFrom .between (xs ++ ys) = some (toks ++ toks') ↔ lexFrom .between ys = some toks' := by
  rw [lexFrom_append, h, Option.map_eq_some_iff]
  simp

theorem lexFrom_closing (h : cs.head? ≠ some 39) :
    lexFrom (.closing s) cs = (lexFrom .between cs).map (.str s :: ·) := by
  cases cs with
  | nil => rfl
  | cons c cs =>
    have hc : c ≠ 39 := fun hc => h (congrArg some hc)
    have hstep : step (.closing s) c = (.str s :: (start c).1, (start c).2) := if_neg hc
    rw [lexFrom_cons, lexFrom_cons, hstep, step]
    simp [Function.comp_def]

end scan

/-! ## Sizes -/

section size

def Token.size : Token → Nat
  | .word w => w.length
  | .symbol _ => 1
  | .str s => s.length + 2

def size (toks : List Token) : Nat := (toks.map Token.size).sum

def Mode.size : Mode → Nat
  | .between => 0
  | .word w => w.length
  | .quoted s => s.length + 1
  | .escaped s => s.length + 2
  | .closing s => s.length + 2

@[simp] theorem size_nil : size [] = 0 := rfl

@[simp] theorem size_cons (t : Token) (toks : List Token) : size (t :: toks) = t.size + size toks := rfl

@[simp] theorem size_append (toks toks' : List Token) :
    size (toks ++ toks') = size toks + size toks' := by
  simp [size]

theorem length_unescape_le (c : UInt8) : (unescape c).length ≤ 2 := by
  unfold unescape
  repeat' split
  all_goals simp

theorem size_start (c : UInt8) : size (start c).1 + (start c).2.size ≤ 1 := by
  unfold start
  repeat' split
  all_goals simp [Mode.size, Token.size]

theorem size_step (m : Mode) (c : UInt8) : size (step m c).1 + (step m c).2.size ≤ m.size + 1 := by
  have hstart := size_start c
  have hescape := length_unescape_le c
  -- one case for each mode; a byte that ends a token also starts anew
  cases m with
  | between => simpa [step, Mode.size] using hstart
  | word w =>
    have hw : (Mode.word w).size = w.length := rfl
    rw [step]
    split
    · simp [Mode.size]
    · simp only [size_cons, Token.size, hw]
      omega
  | quoted s =>
    rw [step]
    repeat' split
    all_goals simp [Mode.size]
  | escaped s =>
    simp only [step, size_nil, Mode.size, length_append]
    omega
  | closing s =>
    have hs : (Mode.closing s).size = s.length + 2 := rfl
    rw [step]
    split
    · simp [Mode.size]
    · simp only [size_cons, Token.size, hs]
      omega

theorem size_scan (m : Mode) (cs : Bytes) :
    size (scan m cs).1 + (scan m cs).2.size ≤ m.size + cs.length := by
  induction cs generalizing m with
  | nil => simp [scan]
  | cons c cs ih =>
    have hstep := size_step m c
    have hrest := ih (step m c).2
    simp only [scan, size_append, length_cons]
    omega

theorem size_finish {m : Mode} {toks : List Token} (h : finish m = some toks) :
    size toks ≤ m.size := by
  cases m <;> cases h <;> simp [Mode.size, Token.size]

theorem size_le_length {cs : Bytes} {toks : List Token} (h : lexFrom .between cs = some toks) :
    size toks ≤ cs.length := by
  obtain ⟨last, hlast, rfl⟩ := Option.map_eq_some_iff.mp h
  have hscan := size_scan .between cs
  have hfinish := size_finish hlast
  have hbetween : Mode.between.size = 0 := rfl
  rw [size_append]
  omega

end size

/-! ## Texts in quotes -/

inductive Content : Bytes → Bytes → Prop
  | nil : Content [] []
  | plain {c : UInt8} {r v : Bytes} (hquote : c ≠ 39) (hslash : c ≠ 92) (h : Content r v) :
      Content (c :: r) (c :: v)
  | escape {r v : Bytes} (c : UInt8) (h : Content r v) : Content (92 :: c :: r) (unescape c ++ v)
  | quote {r v : Bytes} (h : Content r v) : Content (39 :: 39 :: r) (39 :: v)

def denotesItself : Bytes → Bool
  | [] => true
  | [c] => c ≠ 39 && c ≠ 92
  | c :: d :: r =>
      if c = 92 then (d = 37 || d = 95) && denotesItself r
      else c ≠ 39 && denotesItself (d :: r)

section content

variable {r v u rest : Bytes} {toks : List Token}

theorem Content.length_le (h : Content r v) : v.length ≤ r.length := by
  induction h with
  | nil => exact le_rfl
  | plain _ _ _ ih => exact Nat.succ_le_succ ih
  | escape c _ ih =>
    have hescape := length_unescape_le c
    simp only [length_append, length_cons]
    omega
  | quote _ ih =>
    simp only [length_cons]
    omega

theorem denotesItself_plain {c : UInt8} (hquote : c ≠ 39) (hslash : c ≠ 92) :
    denotesItself (c :: r) = denotesItself r := by
  cases r <;> simp [denotesItself, hquote, hslash]

theorem unescape_of_length {c : UInt8} (h : 2 ≤ (unescape c).length) :
    (c = 37 ∨ c = 95) ∧ unescape c = [92, c] := by
  unfold unescape at h ⊢
  grind

theorem Content.eq_of_length (h : Content r v) (hlength : r.length ≤ v.length) :
    v = r ∧ denotesItself r = true := by
  induction h with
  | nil => exact ⟨rfl, rfl⟩
  | plain hquote hslash _ ih =>
    obtain ⟨rfl, hr⟩ := ih (Nat.le_of_succ_le_succ hlength)
    exact ⟨rfl, (denotesItself_plain hquote hslash).trans hr⟩
  | @escape r v c h ih =>
    have hle := h.length_le
    have hescape := length_unescape_le c
    simp only [length_append, length_cons] at hlength
    obtain ⟨hc, hu⟩ := unescape_of_length (c := c) (by omega)
    obtain ⟨rfl, hr⟩ := ih (by omega)
    refine ⟨by rw [hu]; rfl, ?_⟩
    simp [denotesItself, hc, hr]
  | quote h =>
    have hle := h.length_le
    simp only [length_cons] at hlength
    omega

theorem content_of_denotesItself (h : denotesItself u = true) : Content u u := by
  fun_induction denotesItself u with
  | case1 => exact .nil
  | case2 c =>
    simp only [Bool.and_eq_true, decide_eq_true_eq] at h
    exact .plain h.1 h.2 .nil
  | case3 d r ih =>
    simp only [Bool.and_eq_true, Bool.or_eq_true, decide_eq_true_eq] at h
    have hu : unescape d = [92, d] := by rcases h.1 with rfl | rfl <;> rfl
    simpa [hu] using Content.escape d (ih h.2)
  | case4 c d r hslash ih =>
    simp only [Bool.and_eq_true, decide_eq_true_eq] at h
    exact .plain h.1 hslash (ih h.2)

theorem step_plain {c : UInt8} (hquote : c ≠ 39) (hslash : c ≠ 92) (s : Bytes) :
    step (.quoted s) c = ([], .quoted (s ++ [c])) := by
  rw [step, if_neg hquote, if_neg hslash]

theorem step_slash (s : Bytes) : step (.quoted s) 92 = ([], .escaped s) := rfl

theorem step_quote (s : Bytes) : step (.quoted s) 39 = ([], .closing s) := rfl

theorem step_double (s : Bytes) : step (.closing s) 39 = ([], .quoted (s ++ [39])) := rfl

theorem lexFrom_quoted (h : Content r v) (hrest : rest.head? ≠ some 39) (s : Bytes) :
    lexFrom (.quoted s) (r ++ 39 :: rest) = (lexFrom .between rest).map (.str (s ++ v) :: ·) := by
  induction h generalizing s with
  | nil =>
    rw [nil_append, lexFrom_silent (step_quote s), lexFrom_closing hrest, append_nil]
  | plain hquote hslash _ ih =>
    rw [cons_append, lexFrom_silent (step_plain hquote hslash s), ih, append_assoc]
    rfl
  | escape c _ ih =>
    rw [cons_append, cons_append, lexFrom_silent (step_slash s), lexFrom_silent rfl, ih,
      append_assoc]
  | quote _ ih =>
    rw [cons_append, cons_append, lexFrom_silent (step_quote s),
      lexFrom_silent (step_double s), ih, append_assoc]
    rfl

theorem exists_content {s cs : Bytes} (h : lexFrom (.quoted s) cs = some toks) :
    ∃ r v rest toks', Content r v ∧ cs = r ++ 39 :: rest ∧ lexFrom .between rest = some toks' ∧
      toks = .str (s ++ v) :: toks' := by
  -- one byte of the content after the other, or two
  induction hn : cs.length using Nat.strong_induction_on generalizing s cs with
  | _ n ih =>
    subst hn
    cases cs with
    | nil => cases h
    | cons c cs =>
      by_cases hquote : c = 39
      · subst hquote
        rw [lexFrom_silent (step_quote s)] at h
        by_cases hdouble : cs.head? = some 39
        · obtain ⟨cs, rfl⟩ : ∃ cs', cs = 39 :: cs' := by
            cases cs with
            | nil => cases hdouble
            | cons d cs => exact ⟨cs, by rw [Option.some_inj.mp hdouble]⟩
          rw [lexFrom_silent (step_double s)] at h
          obtain ⟨r, v, rest, toks', hc, rfl, hrest, rfl⟩ := ih _ (by simp) h rfl
          exact ⟨39 :: 39 :: r, 39 :: v, rest, toks', hc.quote, rfl, hrest, by simp⟩
        · rw [lexFrom_closing hdouble] at h
          obtain ⟨toks', hrest, rfl⟩ := Option.map_eq_some_iff.mp h
          exact ⟨[], [], cs, toks', .nil, rfl, hrest, by simp⟩
      · by_cases hslash : c = 92
        · subst hslash
          rw [lexFrom_silent (step_slash s)] at h
          cases cs with
          | nil => cases h
          | cons d cs =>
            rw [lexFrom_silent rfl] at h
            obtain ⟨r, v, rest, toks', hc, rfl, hrest, rfl⟩ := ih _ (by simp) h rfl
            exact ⟨92 :: d :: r, unescape d ++ v, rest, toks', hc.escape d, rfl, hrest, by simp⟩
        · rw [lexFrom_silent (step_plain hquote hslash s)] at h
          obtain ⟨r, v, rest, toks', hc, rfl, hrest, rfl⟩ := ih _ (by simp) h rfl
          exact ⟨c :: r, c :: v, rest, toks', hc.plain hquote hslash, rfl, hrest, by simp⟩

theorem literal_iff {k : Nat} (hlength : u.length ≤ v.length)
    (hsize : rest.length ≤ size toks + k) (hfar : 39 ∉ rest.take (k + 1)) :
    lexFrom .between (39 :: (u ++ 39 :: rest)) = some (.str v :: toks) ↔
      u = v ∧ denotesItself v = true ∧ lexFrom .between rest = some toks := by
  have hopen : step .between 39 = ([], .quoted []) := rfl
  rw [lexFrom_silent hopen]
  constructor
  · intro h
    obtain ⟨r, w, rest', toks', hc, heq, hrest, htoks⟩ := exists_content h
    obtain ⟨hw, rfl⟩ := cons.inj htoks
    obtain rfl : v = w := by simpa using hw
    have hle := hc.length_le
    have hsize' := size_le_length hrest
    obtain ⟨w, rfl⟩ : u <+: r := prefix_of_prefix_length_le (prefix_append u _)
      (heq ▸ prefix_append r _) (hlength.trans hle)
    rw [append_assoc, append_cancel_left_eq] at heq
    -- the closing quote is the one behind the value: there is no other near enough
    cases w with
    | nil =>
      obtain rfl : rest = rest' := by simpa using heq
      rw [append_nil] at hc
      obtain ⟨rfl, hself⟩ := hc.eq_of_length hlength
      exact ⟨rfl, hself, hrest⟩
    | cons c w =>
      obtain rfl : rest = w ++ 39 :: rest' := (cons.inj heq).2
      simp only [length_append, length_cons] at hsize
      obtain ⟨j, hj⟩ : ∃ j, k + 1 = w.length + (j + 1) := ⟨k - w.length, by omega⟩
      refine absurd ?_ hfar
      rw [hj, take_length_add_append]
      simp
  · rintro ⟨rfl, hself, hrest⟩
    have hhead : rest.head? ≠ some 39 := by
      cases rest with
      | nil => simp
      | cons c rest =>
        rintro ⟨⟩
        simp at hfar
    rw [lexFrom_quoted (content_of_denotesItself hself) hhead, hrest]
    rfl

theorem template_iff {before middle after p q : Bytes} {toks1 toks2 toks3 : List Token} {k : Nat}
    (hbefore : scan .between before = (toks1, .between))
    (hmiddle : scan .between middle = (toks2, .between))
    (hafter : lexFrom .between after = some toks3) (hsize : middle.length = size toks2 + k)
    (hsize' : after.length = size toks3) (hfar : 39 ∉ middle.take (k + 1))
    (hk : k < middle.length) (hfar' : 39 ∉ after.take 1) (hu : u.length ≤ v.length)
    (hp : p.length ≤ q.length) :
    lex (before ++ 39 :: (u ++ 39 :: (middle ++ 39 :: (p ++ 39 :: after)))) =
        some (toks1 ++ .str v :: (toks2 ++ .str q :: toks3)) ↔
      (u = v ∧ denotesItself v = true) ∧ p = q ∧ denotesItself q = true := by
  rw [lex, lexFrom_skip hbefore, literal_iff hu (k := k), lexFrom_skip hmiddle,
    literal_iff hp (k := 0) hsize'.le hfar', and_assoc, and_iff_left hafter]
  -- behind the first value there are `k` bytes more than the tokens have
  · simp only [size_append, size_cons, Token.size, length_append, length_cons]
    omega
  · rwa [take_append_of_le_length hk]

end content

end CallLesson.Sql
