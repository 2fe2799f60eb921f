import Mathlib

/-! # Streams of frames

    A sender writes frames one after the other, and the bytes arrive in chunks
    that know nothing of the frames. A parser takes one frame from the start of
    a buffer. -/

namespace CallLesson.Frames

variable {β τ ε : Type}

/-- A parser throws, finds no frame, or returns one with the bytes after it. -/
abbrev Parser (β ε : Type) := List β → Except ε (Option (List β × List β))

inductive Stop (ε : Type) where
  | threw (e : ε)
  /-- The parser returns frames of no bytes for ever. -/
  | hangs
  deriving DecidableEq

/-- Parse until there is no frame left. -/
def drain (parse : Parser β ε) (buf : List β) : List (List β) × Except (Stop ε) (List β) :=
  match parse buf with
  | .error e => ([], .error (.threw e))
  | .ok none => ([], .ok buf)
  | .ok (some (frame, rest)) =>
      if rest.length < buf.length then
        (frame :: (drain parse rest).1, (drain parse rest).2)
      else ([frame], .error .hangs)
termination_by buf.length

/-- Append each chunk to the buffer and drain it. -/
def feed (parse : Parser β ε) (buf : List β) :
    List (List β) → List (List β) × Except (Stop ε) (List β)
  | [] => ([], .ok buf)
  | chunk :: chunks =>
      match drain parse (buf ++ chunk) with
      | (frames, .error e) => (frames, .error e)
      | (frames, .ok buf') => (frames ++ (feed parse buf' chunks).1, (feed parse buf' chunks).2)

/-- Append each chunk to the buffer and parse once. -/
def feedOnce (parse : Parser β ε) (buf : List β) :
    List (List β) → List (List β) × Except (Stop ε) (List β)
  | [] => ([], .ok buf)
  | chunk :: chunks =>
      match parse (buf ++ chunk) with
      | .error e => ([], .error (.threw e))
      | .ok none => feedOnce parse (buf ++ chunk) chunks
      | .ok (some (frame, rest)) =>
          (frame :: (feedOnce parse rest chunks).1, (feedOnce parse rest chunks).2)

def wire (enc : τ → List β) (ts : List τ) : List β := (ts.map enc).flatten

/-- How many frames the first bytes of a stream complete. -/
def arrived (enc : τ → List β) : List τ → Nat → Nat
  | [], _ => 0
  | t :: ts, n => if (enc t).length ≤ n then arrived enc ts (n - (enc t).length) + 1 else 0

/-- What a parser has to do for frames. -/
structure Framing (parse : Parser β ε) (enc : τ → List β) (fits : τ → Bool) : Prop where
  nonempty : ∀ t, enc t ≠ []
  empty : parse [] = .ok none
  whole : ∀ t rest, fits t = true → parse (enc t ++ rest) = .ok (some (enc t, rest))
  cut : ∀ t s, fits t = true → s <+: enc t → s ≠ enc t → parse s = .ok none
  oversize : ∀ t s, fits t = false → s <+: enc t ∨ enc t <+: s → ∀ r, parse s ≠ .ok (some r)

/-! ## Frames that have arrived -/

open List

@[simp] theorem wire_nil (enc : τ → List β) : wire enc [] = [] := rfl

@[simp] theorem wire_cons (enc : τ → List β) (t : τ) (ts : List τ) :
    wire enc (t :: ts) = enc t ++ wire enc ts := rfl

theorem arrived_le (enc : τ → List β) : ∀ (ts : List τ) (n : Nat), arrived enc ts n ≤ ts.length
  | [], _ => Nat.le_refl 0
  | t :: ts, n => by
    unfold arrived
    split
    · exact Nat.succ_le_succ (arrived_le enc ts _)
    · exact Nat.zero_le _

theorem arrived_mono (enc : τ → List β) :
    ∀ (ts : List τ) {n m : Nat}, n ≤ m → arrived enc ts n ≤ arrived enc ts m
  | [], _, _, _ => Nat.le_refl 0
  | t :: ts, n, m, h => by
    by_cases hn : (enc t).length ≤ n
    · rw [arrived, arrived, if_pos hn, if_pos (hn.trans h)]
      exact Nat.succ_le_succ (arrived_mono enc ts (Nat.sub_le_sub_right h _))
    · rw [arrived, if_neg hn]
      exact Nat.zero_le _

theorem wire_split (enc : τ → List β) : ∀ (ts : List τ) {s : List β}, s <+: wire enc ts →
      ∃ left, s = wire enc (ts.take (arrived enc ts s.length)) ++ left ∧
        (ts.drop (arrived enc ts s.length) = [] ∧ left = [] ∨
          ∃ t ts', ts.drop (arrived enc ts s.length) = t :: ts' ∧ left <+: enc t ∧ left ≠ enc t)
  | [], s, h => by
    obtain rfl := prefix_nil.mp h
    exact ⟨[], rfl, Or.inl ⟨rfl, rfl⟩⟩
  | t :: ts, s, h => by
    by_cases hlen : (enc t).length ≤ s.length
    · -- the first frame is complete, and the rest is about the others
      obtain ⟨s', rfl⟩ := prefix_of_prefix_length_le (prefix_append (enc t) _) h hlen
      obtain ⟨left, heq, hleft⟩ := wire_split enc ts ((prefix_append_right_inj (enc t)).mp h)
      have harr : arrived enc (t :: ts) (enc t ++ s').length = arrived enc ts s'.length + 1 := by
        rw [arrived, if_pos hlen, length_append, Nat.add_sub_cancel_left]
      refine ⟨left, ?_, ?_⟩
      · rw [harr, take_succ_cons, wire_cons, append_assoc, ← heq]
      · rw [harr, drop_succ_cons]
        exact hleft
    · have harr : arrived enc (t :: ts) s.length = 0 := if_neg hlen
      refine ⟨s, ?_, Or.inr ⟨t, ts, ?_, ?_, ?_⟩⟩
      · rw [harr]
        rfl
      · rw [harr]
        rfl
      · exact prefix_of_prefix_length_le h (prefix_append _ _) (Nat.le_of_not_le hlen)
      · rintro rfl
        exact hlen (Nat.le_refl _)

theorem wire_append (enc : τ → List β) (ts ts' : List τ) :
    wire enc (ts ++ ts') = wire enc ts ++ wire enc ts' := by
  simp [wire]

theorem arrived_of_le (enc : τ → List β) :
    ∀ (ts : List τ) {n : Nat}, (wire enc ts).length ≤ n → arrived enc ts n = ts.length
  | [], _, _ => rfl
  | t :: ts, n, h => by
    rw [wire_cons, length_append] at h
    rw [arrived, if_pos (by omega), arrived_of_le enc ts (by omega), length_cons]

/-! ## Draining the buffer -/

variable {ts : List τ}

section Reading

variable {parse : Parser β ε} {enc : τ → List β} {fits : τ → Bool}

theorem drain_of_none {s : List β} (h : parse s = .ok none) : drain parse s = ([], .ok s) := by
  rw [drain, h]

theorem drain_of_error {s : List β} {e : ε} (h : parse s = .error e) :
    drain parse s = ([], .error (.threw e)) := by
  rw [drain, h]

theorem drain_wire (F : Framing parse enc fits) (left : List β) :
    ∀ ts : List τ, (∀ t ∈ ts, fits t = true) →
      drain parse (wire enc ts ++ left) = (ts.map enc ++ (drain parse left).1, (drain parse left).2)
  | [], _ => rfl
  | t :: ts, h => by
    have ih := drain_wire F left ts fun t' h' => h t' (mem_cons_of_mem t h')
    have hlt : (wire enc ts ++ left).length < (enc t ++ (wire enc ts ++ left)).length := by
      have := length_pos_iff.mpr (F.nonempty t)
      simp only [length_append]
      omega
    rw [wire_cons, append_assoc, drain, F.whole t _ (h t mem_cons_self)]
    simp only [if_pos hlt, ih, map_cons, cons_append]

def fitting (fits : τ → Bool) (ts : List τ) : List τ := ts.takeWhile fits

theorem fits_of_mem {t : τ} (h : t ∈ fitting fits ts) : fits t = true :=
  mem_takeWhile_imp h

theorem fitting_eq (h : ∀ t ∈ ts, fits t = true) : fitting fits ts = ts :=
  takeWhile_eq_self_iff.mpr h

theorem Framing.split (F : Framing parse enc fits) (ts : List τ) {s : List β}
    (h : s <+: wire enc ts) :
    ∃ left, s = wire enc ((fitting fits ts).take (arrived enc (fitting fits ts) s.length)) ++ left ∧
      (parse left = .ok none ∨
        (∃ e, parse left = .error e) ∧ (∃ t ∈ ts, fits t = false) ∧
          arrived enc (fitting fits ts) s.length = (fitting fits ts).length) := by
  have hts : wire enc ts = wire enc (fitting fits ts) ++ wire enc (ts.dropWhile fits) := by
    rw [← wire_append, fitting, takeWhile_append_dropWhile]
  by_cases hlen : s.length ≤ (wire enc (fitting fits ts)).length
  · obtain ⟨left, heq, hleft⟩ := wire_split enc (fitting fits ts)
      (prefix_of_prefix_length_le h (hts ▸ prefix_append _ _) hlen)
    refine ⟨left, heq, Or.inl ?_⟩
    rcases hleft with ⟨_, rfl⟩ | ⟨t, ts', hdrop, hpre, hne⟩
    · exact F.empty
    · have hmem : t ∈ fitting fits ts := mem_of_mem_drop (hdrop ▸ mem_cons_self)
      exact F.cut t left (fits_of_mem hmem) hpre hne
  · -- the stream has got beyond the frames that fit
    have hfull := arrived_of_le enc (fitting fits ts) (Nat.le_of_not_le hlen)
    rw [hts] at h
    obtain ⟨left, rfl⟩ := prefix_of_prefix_length_le (prefix_append _ _) h (Nat.le_of_not_le hlen)
    refine ⟨left, by rw [hfull, take_length], ?_⟩
    have hleft := (prefix_append_right_inj _).mp h
    cases hdrop : ts.dropWhile fits with
    | nil =>
      rw [hdrop] at hleft
      rw [prefix_nil.mp hleft]
      exact Or.inl F.empty
    | cons t ts' =>
      have hmem : t ∈ ts := (dropWhile_sublist fits).subset (hdrop ▸ mem_cons_self)
      have hfit : fits t = false := by
        have := head_dropWhile_not fits (hdrop ▸ cons_ne_nil t ts' : ts.dropWhile fits ≠ [])
        simpa [hdrop] using this
      rw [hdrop, wire_cons] at hleft
      have hnone := F.oversize t left hfit
        (List.prefix_or_prefix_of_prefix hleft (prefix_append _ _))
      cases hp : parse left with
      | error e => exact Or.inr ⟨⟨e, rfl⟩, ⟨t, hmem, hfit⟩, hfull⟩
      | ok r =>
        cases r with
        | none => exact Or.inl rfl
        | some r => exact absurd hp (hnone r)

variable {d m : Nat}

theorem buffer_eq (hdm : d ≤ m) {buf left : List β}
    (h : wire enc (ts.take d) ++ buf = wire enc (ts.take m) ++ left) :
    buf = wire enc ((ts.take m).drop d) ++ left := by
  have htake : ts.take m = ts.take d ++ (ts.take m).drop d := by
    conv_lhs => rw [← take_append_drop d (ts.take m)]
    rw [take_take, Nat.min_eq_left hdm]
  rw [htake, wire_append, append_assoc] at h
  exact append_cancel_left h

/-! ## Readers of chunks -/

def taken (enc : τ → List β) (fits : τ → Bool) (ts : List τ) (s : List β) : Nat :=
  arrived enc (fitting fits ts) s.length

theorem taken_le (enc : τ → List β) (fits : τ → Bool) (ts : List τ) (s : List β) :
    taken enc fits ts s ≤ (fitting fits ts).length :=
  arrived_le enc _ _

theorem taken_append (enc : τ → List β) (fits : τ → Bool) (ts : List τ) (s s' : List β) :
    taken enc fits ts s ≤ taken enc fits ts (s ++ s') :=
  arrived_mono enc _ (by simp)

def between (ts : List τ) (d m : Nat) : List τ := (ts.take m).drop d

theorem between_map {σ : Type} (f : σ → τ) (ts : List σ) (d m : Nat) :
    between (ts.map f) d m = (between ts d m).map f := by
  simp [between, map_take, map_drop]

theorem between_append_drop (ts : List τ) (hdm : d ≤ m) :
    between ts d m ++ ts.drop m = ts.drop d := by
  have hd : ts.drop m = (ts.drop d).drop (m - d) := by
    rw [drop_drop, Nat.add_sub_cancel' hdm]
  rw [between, drop_take, hd, take_append_drop]

theorem between_append (ts : List τ) {n : Nat} (hdm : d ≤ m) (hmn : m ≤ n) :
    between ts d m ++ between ts m n = between ts d n := by
  have hm : between ts d m = between (ts.take n) d m := by
    rw [between, between, take_take, Nat.min_eq_left hmn]
  rw [hm]
  exact between_append_drop (ts.take n) hdm

theorem between_self (ts : List τ) (d : Nat) : between ts d d = [] := by
  simp [between]

theorem between_length (ts : List τ) (m : Nat) : between ts ts.length m = [] := by
  simp [between]

theorem between_cons (hd : d < ts.length) :
    ∃ t ∈ ts, (∀ m, d < m → between ts d m = t :: between ts (d + 1) m) ∧
      ts.take (d + 1) = ts.take d ++ [t] := by
  refine ⟨ts[d], getElem_mem hd, fun m hdm => ?_, ?_⟩
  · rw [between, between, drop_eq_getElem_cons (by simp; omega), getElem_take]
  · rw [take_append_getElem hd]

def Behind (enc : τ → List β) (fits : τ → Bool) (ts : List τ) (s : List β) (d : Nat)
    (buf : List β) : Prop :=
  s = wire enc ((fitting fits ts).take d) ++ buf

theorem Behind.chunk (F : Framing parse enc fits) {ts : List τ} {s buf chunk : List β}
    (h : Behind enc fits ts s d buf) (hd : d ≤ taken enc fits ts (s ++ chunk))
    (hpre : s ++ chunk <+: wire enc ts) :
    ∃ left, Behind enc fits ts (s ++ chunk) (taken enc fits ts (s ++ chunk)) left ∧
      buf ++ chunk = wire enc (between (fitting fits ts) d (taken enc fits ts (s ++ chunk))) ++ left ∧
      (parse left = .ok none ∨
        (∃ e, parse left = .error e) ∧ (∃ t ∈ ts, fits t = false) ∧
          taken enc fits ts (s ++ chunk) = (fitting fits ts).length) := by
  obtain ⟨left, heq, hleft⟩ := F.split ts hpre
  refine ⟨left, heq, buffer_eq hd ?_, hleft⟩
  rw [← append_assoc, ← h]
  exact heq

theorem Behind.drain (F : Framing parse enc fits) {ts : List τ} {s buf chunk : List β}
    (h : Behind enc fits ts s (taken enc fits ts s) buf) (hpre : s ++ chunk <+: wire enc ts) :
    ∃ left, Behind enc fits ts (s ++ chunk) (taken enc fits ts (s ++ chunk)) left ∧
      (drain parse (buf ++ chunk)).1 = (between (fitting fits ts) (taken enc fits ts s)
        (taken enc fits ts (s ++ chunk))).map enc ∧
      ((drain parse (buf ++ chunk)).2 = .ok left ∨
        (∃ e, (drain parse (buf ++ chunk)).2 = .error e) ∧ (∃ t ∈ ts, fits t = false) ∧
          taken enc fits ts (s ++ chunk) = (fitting fits ts).length) := by
  obtain ⟨left, hbehind, hbufc, hleft⟩ := h.chunk F (taken_append enc fits ts s chunk) hpre
  have hdrain := drain_wire F left (between (fitting fits ts) (taken enc fits ts s)
    (taken enc fits ts (s ++ chunk)))
    fun t ht => fits_of_mem (mem_of_mem_take (mem_of_mem_drop ht))
  rw [← hbufc] at hdrain
  refine ⟨left, hbehind, ?_⟩
  rcases hleft with hnone | ⟨⟨e, herr⟩, hunfit⟩
  · rw [drain_of_none hnone, append_nil] at hdrain
    exact ⟨congrArg Prod.fst hdrain, Or.inl (congrArg Prod.snd hdrain)⟩
  · rw [drain_of_error herr, append_nil] at hdrain
    exact ⟨congrArg Prod.fst hdrain, Or.inr ⟨⟨_, congrArg Prod.snd hdrain⟩, hunfit⟩⟩

theorem feed_cons_ok {buf buf' chunk : List β} (chunks : List (List β))
    (h : (drain parse (buf ++ chunk)).2 = .ok buf') : feed parse buf (chunk :: chunks) =
      ((drain parse (buf ++ chunk)).1 ++ (feed parse buf' chunks).1, (feed parse buf' chunks).2) := by
  rw [feed]
  generalize drain parse (buf ++ chunk) = r at h ⊢
  obtain ⟨frames, rest⟩ := r
  cases h
  rfl

theorem feed_cons_error {buf chunk : List β} {e : Stop ε} (chunks : List (List β))
    (h : (drain parse (buf ++ chunk)).2 = .error e) :
    feed parse buf (chunk :: chunks) = ((drain parse (buf ++ chunk)).1, .error e) := by
  rw [feed]
  generalize drain parse (buf ++ chunk) = r at h ⊢
  obtain ⟨frames, rest⟩ := r
  cases h
  rfl

theorem feed_frames (F : Framing parse enc fits) (ts : List τ) :
    ∀ (chunks : List (List β)) {s buf : List β},
      Behind enc fits ts s (taken enc fits ts s) buf → s ++ chunks.flatten <+: wire enc ts →
      (feed parse buf chunks).1 = (between (fitting fits ts) (taken enc fits ts s)
        (taken enc fits ts (s ++ chunks.flatten))).map enc
  | [], s, buf, _, _ => by simp [feed, between]
  | chunk :: chunks, s, buf, hbuf, hpre => by
    have hassoc : s ++ (chunk :: chunks).flatten = s ++ chunk ++ chunks.flatten := by simp
    rw [hassoc] at hpre ⊢
    obtain ⟨left, hbehind, hframes, hok | ⟨⟨e, herr⟩, _, hfull⟩⟩ :=
      hbuf.drain F ((prefix_append _ _).trans hpre)
    · rw [feed_cons_ok chunks hok, hframes, feed_frames F ts chunks hbehind hpre]
      rw [← map_append, between_append _ (taken_append enc fits ts s chunk)
        (taken_append enc fits ts (s ++ chunk) _)]
    · -- the reader throws at a frame that does not fit, and no later one is to be taken
      have hend : taken enc fits ts (s ++ chunk ++ chunks.flatten) = (fitting fits ts).length :=
        Nat.le_antisymm (taken_le enc fits ts _) (hfull ▸ taken_append enc fits ts _ _)
      rw [feed_cons_error chunks herr, hframes, hend, hfull]

theorem feed_rest (F : Framing parse enc fits) (hfits : ∀ t ∈ ts, fits t = true) :
    ∀ (chunks : List (List β)) {s buf : List β},
      Behind enc fits ts s (taken enc fits ts s) buf → s ++ chunks.flatten <+: wire enc ts →
      ∃ left, (feed parse buf chunks).2 = .ok left ∧
        Behind enc fits ts (s ++ chunks.flatten) (taken enc fits ts (s ++ chunks.flatten)) left
  | [], s, buf, hbuf, _ => ⟨buf, rfl, by simpa using hbuf⟩
  | chunk :: chunks, s, buf, hbuf, hpre => by
    have hassoc : s ++ (chunk :: chunks).flatten = s ++ chunk ++ chunks.flatten := by simp
    rw [hassoc] at hpre ⊢
    obtain ⟨left, hbehind, _, hok | ⟨_, ⟨t, ht, hfit⟩, _⟩⟩ :=
      hbuf.drain F ((prefix_append _ _).trans hpre)
    · rw [feed_cons_ok chunks hok]
      exact feed_rest F hfits chunks hbehind hpre
    · simp [hfits t ht] at hfit

/-! ## The whole stream at once -/

/-- A parser that takes a frame as soon as it is there. -/
structure Prompt (parse : Parser β ε) : Prop where
  returns : ∀ s, ∃ r, parse s = .ok r
  splits : ∀ {s frame rest}, parse s = .ok (some (frame, rest)) → s = frame ++ rest ∧ frame ≠ []
  extends_ : ∀ {s frame rest}, parse s = .ok (some (frame, rest)) →
    ∀ w, parse (s ++ w) = .ok (some (frame, rest ++ w))

theorem Prompt.drain_spec (P : Prompt parse) (s : List β) :
    ∃ frames rest, drain parse s = (frames, .ok rest) ∧ parse rest = .ok none ∧
      s = frames.flatten ++ rest ∧
      (∀ frame ∈ frames, ∃ s' rest', parse s' = .ok (some (frame, rest'))) ∧
      ∀ w, drain parse (s ++ w) =
        (frames ++ (drain parse (rest ++ w)).1, (drain parse (rest ++ w)).2) := by
  -- by the length of the buffer, which each frame makes shorter
  induction hn : s.length using Nat.strongRecOn generalizing s with
  | ind n ih =>
    subst hn
    obtain ⟨r, hr⟩ := P.returns s
    cases r with
    | none => exact ⟨[], s, drain_of_none hr, hr, rfl, by simp, fun w => rfl⟩
    | some r =>
      obtain ⟨frame, rest⟩ := r
      obtain ⟨hs, hne⟩ := P.splits hr
      have hpos := length_pos_iff.mpr hne
      have hlt : rest.length < s.length := by
        rw [hs, length_append]
        omega
      obtain ⟨frames, left, hdrain, hleft, hrest, hframes, hmore⟩ := ih rest.length hlt rest rfl
      refine ⟨frame :: frames, left, ?_, hleft, ?_, ?_, fun w => ?_⟩
      · rw [drain, hr]
        simp only [if_pos hlt, hdrain]
      · rw [hs, hrest, flatten_cons, append_assoc]
      · exact forall_mem_cons.mpr ⟨⟨s, rest, hr⟩, hframes⟩
      · have hlt' : (rest ++ w).length < (s ++ w).length := by
          simp only [length_append]
          omega
        rw [drain, P.extends_ hr w]
        simp only [if_pos hlt', hmore w, cons_append]

theorem Prompt.feed_eq_drain (P : Prompt parse) :
    ∀ (chunks : List (List β)) {buf : List β}, parse buf = .ok none →
      feed parse buf chunks = drain parse (buf ++ chunks.flatten)
  | [], buf, hbuf => by simp [feed, drain_of_none hbuf]
  | chunk :: chunks, buf, _ => by
    obtain ⟨frames, rest, hdrain, hrest, -, -, hmore⟩ := P.drain_spec (buf ++ chunk)
    rw [feed, hdrain, flatten_cons, ← append_assoc, hmore]
    simp only [P.feed_eq_drain chunks hrest]

/-! ## A reader that looks once -/

def takenOnce (enc : τ → List β) (fits : τ → Bool) (ts : List τ) (s : List β) (d : Nat) :
    List (List β) → Nat
  | [] => d
  | chunk :: chunks =>
      takenOnce enc fits ts (s ++ chunk) (min (d + 1) (taken enc fits ts (s ++ chunk))) chunks

theorem le_takenOnce (enc : τ → List β) (fits : τ → Bool) (ts : List τ) :
    ∀ (chunks : List (List β)) {s : List β} {d : Nat}, d ≤ taken enc fits ts s →
      d ≤ takenOnce enc fits ts s d chunks
  | [], _, _, _ => Nat.le_refl _
  | chunk :: chunks, s, d, hd => by
    have hdm := hd.trans (taken_append enc fits ts s chunk)
    have hmin : d ≤ min (d + 1) (taken enc fits ts (s ++ chunk)) := by omega
    exact hmin.trans (le_takenOnce enc fits ts chunks (Nat.min_le_right _ _))

theorem feedOnce_frames (F : Framing parse enc fits) (ts : List τ) :
    ∀ (chunks : List (List β)) {s buf : List β} {d : Nat},
      Behind enc fits ts s d buf → d ≤ taken enc fits ts s → s ++ chunks.flatten <+: wire enc ts →
      (feedOnce parse buf chunks).1 =
        (between (fitting fits ts) d (takenOnce enc fits ts s d chunks)).map enc
  | [], s, buf, d, _, _, _ => by simp [feedOnce, between, takenOnce]
  | chunk :: chunks, s, buf, d, hbuf, hd, hpre => by
    have hassoc : s ++ (chunk :: chunks).flatten = s ++ chunk ++ chunks.flatten := by simp
    rw [hassoc] at hpre
    have hdm := hd.trans (taken_append enc fits ts s chunk)
    obtain ⟨left, _, hbufc, hleft⟩ := hbuf.chunk F hdm ((prefix_append _ _).trans hpre)
    rcases Nat.lt_or_eq_of_le hdm with hlt | heq
    · -- one of the frames that have arrived is taken
      obtain ⟨t, hmem, hcons, htake⟩ := between_cons (hlt.trans_le (taken_le enc fits ts _))
      have hmin : min (d + 1) (taken enc fits ts (s ++ chunk)) = d + 1 := Nat.min_eq_left hlt
      rw [hcons _ hlt, wire_cons, append_assoc] at hbufc
      have hbehind : Behind enc fits ts (s ++ chunk) (d + 1)
          (wire enc (between (fitting fits ts) (d + 1) (taken enc fits ts (s ++ chunk))) ++ left) := by
        rw [Behind, htake, wire_append, append_assoc, wire_cons, wire_nil, append_nil,
          ← hbufc, ← append_assoc, ← hbuf]
      have ih := feedOnce_frames F ts chunks hbehind hlt hpre
      have hle := le_takenOnce enc fits ts chunks hlt
      rw [feedOnce, hbufc, F.whole t _ (fits_of_mem hmem), takenOnce, hmin]
      simp only [ih, hcons _ hle, map_cons]
    · have hmin : min (d + 1) (taken enc fits ts (s ++ chunk)) = d := by omega
      rw [← heq, between_self, wire_nil, nil_append] at hbufc
      rcases hleft with hnone | ⟨⟨e, herr⟩, _, hfull⟩
      · have hbehind : Behind enc fits ts (s ++ chunk) d (buf ++ chunk) := by
          rw [Behind, ← append_assoc, ← hbuf]
        rw [feedOnce, hbufc, hnone, takenOnce, hmin, ← hbufc]
        exact feedOnce_frames F ts chunks hbehind hdm hpre
      · rw [feedOnce, hbufc, herr, heq, hfull, between_length]
        rfl

theorem takenOnce_le (enc : τ → List β) (fits : τ → Bool) (ts : List τ) :
    ∀ (chunks : List (List β)) {s : List β} {d : Nat}, d ≤ taken enc fits ts s →
      takenOnce enc fits ts s d chunks ≤ taken enc fits ts (s ++ chunks.flatten)
  | [], s, _, hd => by simpa [takenOnce] using hd
  | chunk :: chunks, s, d, _ => by
    have ih := takenOnce_le enc fits ts chunks
      (Nat.min_le_right (d + 1) (taken enc fits ts (s ++ chunk)))
    rwa [append_assoc, ← flatten_cons] at ih

theorem takenOnce_eq_iff (enc : τ → List β) (fits : τ → Bool) (ts : List τ) (total : Nat) :
    ∀ (chunks : List (List β)) {s : List β} {d : Nat}, d ≤ taken enc fits ts s →
      taken enc fits ts (s ++ chunks.flatten) = total →
      (takenOnce enc fits ts s d chunks = total ↔
        total ≤ d + chunks.length ∧ ∀ done rest, chunks = done ++ rest → done ≠ [] →
          total ≤ taken enc fits ts (s ++ done.flatten) + rest.length)
  | [], s, d, hd, htotal => by
    have hs : taken enc fits ts s = total := by simpa using htotal
    constructor
    · rintro (rfl : d = total)
      refine ⟨Nat.le_refl _, fun done rest hsplit hne => ?_⟩
      exact absurd (nil_eq_append_iff.mp hsplit).1 hne
    · rintro ⟨hle, _⟩
      have : total ≤ d := hle
      exact Nat.le_antisymm (hs ▸ hd) this
  | chunk :: chunks, s, d, hd, htotal => by
    have hassoc : s ++ (chunk :: chunks).flatten = s ++ chunk ++ chunks.flatten := by simp
    rw [hassoc] at htotal
    have ih := takenOnce_eq_iff enc fits ts total chunks
      (Nat.min_le_right (d + 1) (taken enc fits ts (s ++ chunk))) htotal
    rw [takenOnce, ih, length_cons]
    constructor
    · rintro ⟨hle, hrest⟩
      refine ⟨by omega, fun done rest hsplit hne => ?_⟩
      obtain ⟨c, done', rfl⟩ := exists_cons_of_ne_nil hne
      rw [cons_append, cons.injEq] at hsplit
      obtain ⟨rfl, rfl⟩ := hsplit
      by_cases hdone : done' = []
      · subst hdone
        simp only [flatten_cons, flatten_nil, append_nil, nil_append] at hle ⊢
        omega
      · have := hrest done' rest rfl hdone
        rwa [append_assoc, ← flatten_cons] at this
    · rintro ⟨hle, hrest⟩
      have hfirst := hrest [chunk] chunks rfl (cons_ne_nil _ _)
      simp only [flatten_cons, flatten_nil, append_nil] at hfirst
      refine ⟨by omega, fun done rest hsplit _ => ?_⟩
      have := hrest (chunk :: done) rest (by rw [hsplit, cons_append]) (cons_ne_nil _ _)
      rwa [flatten_cons, ← append_assoc] at this

theorem Framing.taken_nil (F : Framing parse enc fits) (ts : List τ) : taken enc fits ts [] = 0 := by
  unfold taken
  cases fitting fits ts with
  | nil => rfl
  | cons t ts' => exact if_neg (by simpa using F.nonempty t)

theorem Framing.behind_nil (F : Framing parse enc fits) (ts : List τ) :
    Behind enc fits ts [] (taken enc fits ts []) [] := by
  simp [Behind, F.taken_nil]

theorem feedOnce_eq_feed_iff (F : Framing parse enc fits) {chunks : List (List β)}
    (h : chunks.flatten <+: wire enc ts) :
    (feedOnce parse [] chunks).1 = (feed parse [] chunks).1 ↔
      ∀ k ≤ chunks.length, taken enc fits ts chunks.flatten ≤
        taken enc fits ts (chunks.take k).flatten + (chunks.length - k) := by
  have hnil := F.taken_nil ts
  have hbehind : Behind enc fits ts [] 0 [] := hnil ▸ F.behind_nil ts
  have hfeed := feed_frames F ts chunks (F.behind_nil ts) h
  have honce := feedOnce_frames F ts chunks hbehind (Nat.zero_le _) h
  have hle := takenOnce_le enc fits ts chunks (Nat.zero_le (taken enc fits ts []))
  have hgood := taken_le enc fits ts chunks.flatten
  have hiff := takenOnce_eq_iff enc fits ts _ chunks (Nat.zero_le (taken enc fits ts [])) rfl
  rw [nil_append] at hle hiff
  rw [hfeed, honce, hnil, nil_append]
  have hcount : (between (fitting fits ts) 0 (takenOnce enc fits ts [] 0 chunks)).map enc =
      (between (fitting fits ts) 0 (taken enc fits ts chunks.flatten)).map enc ↔
      takenOnce enc fits ts [] 0 chunks = taken enc fits ts chunks.flatten := by
    constructor
    · intro heq
      have hlen := congrArg length heq
      simp only [between, drop_zero, length_map, length_take] at hlen
      omega
    · intro heq
      rw [heq]
  rw [hcount, hiff]
  constructor
  · rintro ⟨hall, hrest⟩ k hk
    by_cases hdone : chunks.take k = []
    · have : chunks.length - k = chunks.length ∨ chunks.length = 0 := by
        rcases take_eq_nil_iff.mp hdone with rfl | rfl <;> simp
      rw [hdone, flatten_nil, hnil]
      omega
    · simpa using hrest _ _ (take_append_drop k chunks).symm hdone
  · intro hrest
    refine ⟨by simpa [hnil] using hrest 0 (Nat.zero_le _), ?_⟩
    rintro done rest rfl _
    simpa using hrest done.length (by simp)

end Reading

end CallLesson.Frames
