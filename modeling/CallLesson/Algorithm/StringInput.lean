import CallLesson.Algorithm.ZhcStrings

/-! # `operator>>` of `zhc::string`

    Model of the extraction in `String.hpp`. The characters of a word are staged in a local
    array of 128 characters and appended to the string 127 at a time; the last character of
    the array is never written but with a null byte, so a full array needs no terminator.

    The loop ends at a blank or a newline only. At the end of the input `in.get()` gives `EOF`,
    which as a `char` is 255, again and again. -/

namespace CallLesson.Algorithm.ZhcString

open ArrayM Exec Text Heap

/-! ## Model -/

def inWord (ch : UInt8) : Bool := ch != 32 && ch != 10

def getChar (input : Bytes) : UInt8 := input.head?.getD 255

def flushFull (buff : ElemPtr) (i : UInt64) : StringM UInt64 :=
  if i = 127 then do
    addStr buff
    pure 0
  else pure i

def extractLoop (buff : ElemPtr) : Nat → UInt64 → UInt8 → Bytes → StringM (UInt64 × Bytes)
  | 0, _, _, _ => throw .running
  | fuel + 1, i, ch, input =>
      if inWord ch then do
        let i ← flushFull buff i
        write (buff + i) ch
        extractLoop buff fuel (i + 1) (getChar input) input.tail
      else pure (i, input)

def newBuffer : StringM ElemPtr :=
  modifyGet fun s => (elem s.1.next 0, (s.1.alloc (List.replicate 128 (some 0)), s.2))

def extract (fuel : Nat) (input : Bytes) : StringM Bytes := do
  clear
  let buff ← newBuffer
  let (i, input) ← extractLoop buff fuel 0 (getChar input) input.tail
  whenever (i > 0) do
    write (buff + i) 0
    addStr buff
  -- the array is local
  deleteArray buff
  return input

/-! ## The staged characters -/

variable {s s' : Heap (Block UInt8) × Str} {b : Nat} {cs ds : Bytes} {i : UInt64}
  {X : Stop → Heap (Block UInt8) × Str → Prop}

def IsBuffer (blk : Block UInt8) (ds : Bytes) : Prop :=
  ∃ rest, blk = ds.map some ++ rest ++ [some 0] ∧ ds.length + rest.length = 127

structure Staged (s : Heap (Block UInt8) × Str) (b : Nat) (cs ds : Bytes) : Prop where
  holds : Holds s cs
  buffer : ∃ blk, s.1.cells b = some blk ∧ IsBuffer blk ds
  plain : 0 ∉ ds
  apart : s.2.base ≠ some b

open List

variable {blk : Block UInt8} {input : Bytes}

theorem isBuffer_nil (h : IsBuffer blk ds) : IsBuffer blk [] := by
  obtain ⟨rest, rfl, hlen⟩ := h
  exact ⟨ds.map some ++ rest, by simp, by simpa using hlen⟩

theorem IsBuffer.length_eq (h : IsBuffer blk ds) : blk.length = 128 := by
  obtain ⟨rest, rfl, hlen⟩ := h
  simp
  omega

theorem IsBuffer.length_le (h : IsBuffer blk ds) : ds.length ≤ 127 := by
  obtain ⟨rest, -, hlen⟩ := h
  omega

theorem IsBuffer.stage (h : IsBuffer blk ds) (hlt : ds.length < 127) (ch : UInt8) :
    IsBuffer (blk.set ds.length (some ch)) (ds ++ [ch]) := by
  obtain ⟨rest, rfl, hlen⟩ := h
  cases rest with
  | nil =>
    rw [length_nil] at hlen
    omega
  | cons c rest =>
    rw [length_cons] at hlen
    refine ⟨rest, by simp, ?_⟩
    rw [length_append, length_singleton]
    omega

theorem IsBuffer.terminate (h : IsBuffer blk ds) : IsBuffer (blk.set ds.length (some 0)) ds ∧
      (ds ++ [0]).map some <+: blk.set ds.length (some 0) := by
  obtain ⟨rest, rfl, hlen⟩ := h
  cases rest with
  | nil => exact ⟨⟨[], by simp, hlen⟩, by simp⟩
  | cons c rest =>
    exact ⟨⟨some 0 :: rest, by simp, hlen⟩, by simp⟩

variable {Q : Unit → Heap (Block UInt8) × Str → Prop}

namespace Staged

theorem written {ds' : Bytes} (h : Staged s b cs ds) (hblk : IsBuffer blk ds') (hplain : 0 ∉ ds') :
    Staged (s.1.setBlock b blk, s.2) b cs ds' := by
  obtain ⟨old, hb, -⟩ := h.buffer
  refine ⟨h.holds.of_cells fun a ha => ?_, ⟨blk, setBlock_self hb, hblk⟩, hplain, h.apart⟩
  exact setBlock_ne fun hab => h.apart (hab ▸ ha)

theorem wpe_addStr (h : Staged s b cs ds) (htext : s.1.textOf (elem b 0) = some ds)
    (hfits : (cs ++ ds).length < maxElems) (hQ : ∀ s', Staged s' b (cs ++ ds) [] → Q () s') :
    wpe (addStr (elem b 0)) Q X s := by
  rw [length_append] at hfits
  obtain ⟨a, room, hholds⟩ := h.holds
  obtain ⟨blk, hb, hblk⟩ := h.buffer
  have harg : Outside s (elem b 0) ds := ⟨htext, by omega, Ne.symm h.apart⟩
  refine hholds.wpe_append harg (fun s' hbecomes => hQ s' ?_) fun hfull => by omega
  refine ⟨hbecomes.holds, ⟨blk, ?_, isBuffer_nil hblk⟩, not_mem_nil,
    Ne.symm (harg.of_kept hbecomes.kept).apart⟩
  exact (hbecomes.kept.others b (lt_next hb) h.apart).trans hb

theorem textOf_full (h : Staged s b cs ds) (hfull : ds.length = 127) :
    s.1.textOf (elem b 0) = some ds := by
  obtain ⟨blk, hb, rest, rfl, hlen⟩ := h.buffer
  obtain rfl : rest = [] := length_eq_zero_iff.mp (by omega)
  rw [textOf_eq_some_iff]
  exact ⟨b, 0, _, rfl, hb, h.plain, by simp⟩

variable (h : Staged s b cs ds) (hi : i.toNat = ds.length)

include h hi

theorem wpe_flushFull (hfits : (cs ++ ds).length < maxElems)
    {Q : UInt64 → Heap (Block UInt8) × Str → Prop}
    (hQ : ∀ i' s' cs' ds', Staged s' b cs' ds' → i'.toNat = ds'.length → ds'.length < 127 →
      cs' ++ ds' = cs ++ ds → Q i' s') : wpe (flushFull (elem b 0) i) Q X s := by
  obtain ⟨blk, hb, hblk⟩ := h.buffer
  have hle := hblk.length_le
  rw [flushFull, wpe_ite]
  refine ⟨fun hfull => ?_, fun hnot => ?_⟩
  · rw [hfull] at hi
    rw [wpe_bind]
    refine h.wpe_addStr (h.textOf_full hi.symm) hfits fun s' h' => ?_
    exact (wpe_pure _ _ _ _).mpr (hQ 0 s' _ [] h' rfl (by decide) (append_nil _))
  · rw [wpe_pure]
    have hne : ds.length ≠ 127 := fun hfull => hnot (UInt64.toNat_inj.mp (hi.trans hfull))
    exact hQ i s cs ds h hi (by omega) rfl

theorem place : elem b 0 + i = elem b ds.length := by
  obtain ⟨blk, -, hblk⟩ := h.buffer
  have hle := hblk.length_le
  rw [elem_add_size (by omega), hi, Nat.zero_add]

theorem wpe_write {ch : UInt8} (hlt : ds.length < 127) (hch : ch ≠ 0)
    (hQ : ∀ s', Staged s' b cs (ds ++ [ch]) → Q () s') : wpe (write (elem b 0 + i) ch) Q X s := by
  obtain ⟨blk, hb, hblk⟩ := h.buffer
  rw [h.place hi, ArrayM.wpe_write hb (by rw [hblk.length_eq]; omega)]
  refine hQ _ (h.written (hblk.stage hlt ch) ?_)
  simpa using ⟨h.plain, Ne.symm hch⟩

theorem wpe_extractLoop {w rest : Bytes} {sep : UInt8} (hw : ∀ c ∈ w, inWord c = true)
    (hplain : 0 ∉ w) (hsep : inWord sep = false) (hfits : (cs ++ ds ++ w).length < maxElems)
    {Q : UInt64 × Bytes → Heap (Block UInt8) × Str → Prop}
    (hQ : ∀ i' s' cs' ds', Staged s' b cs' ds' → i'.toNat = ds'.length →
      cs' ++ ds' = cs ++ ds ++ w → Q (i', rest) s') :
    wpe (extractLoop (elem b 0) (w.length + 1) i (getChar (w ++ sep :: rest))
      (w ++ sep :: rest).tail) Q X s := by
  induction w generalizing s i cs ds with
  | nil =>
    rw [nil_append, getChar, head?_cons, Option.getD_some, tail_cons, extractLoop,
      hsep, if_neg Bool.false_ne_true, wpe_pure]
    exact hQ i s cs ds h hi (append_nil _).symm
  | cons c w ih =>
    rw [forall_mem_cons] at hw
    rw [mem_cons, not_or] at hplain
    rw [cons_append, getChar, head?_cons, Option.getD_some, tail_cons, extractLoop,
      if_pos hw.1, wpe_bind]
    refine h.wpe_flushFull hi (by simp at hfits ⊢; omega) fun i1 s1 cs1 ds1 h1 hi1 hlt heq => ?_
    rw [wpe_bind]
    refine h1.wpe_write hi1 hlt (Ne.symm hplain.1) fun s2 h2 => ?_
    -- the character has gone from the input to the array
    have hread : cs1 ++ (ds1 ++ [c]) ++ w = cs ++ ds ++ c :: w := by
      rw [← append_assoc, heq, append_assoc, singleton_append]
    refine ih h2 ?_ hw.2 hplain.2 (by rwa [hread]) fun i' s' cs' ds' h' hi' heq' =>
      hQ i' s' cs' ds' h' hi' (heq'.trans hread)
    rw [UInt64.toNat_add, hi1, UInt64.toNat_one, length_append, length_singleton]
    omega

theorem wpe_flush (hfits : (cs ++ ds).length < maxElems)
    (hQ : ∀ s', Staged s' b (cs ++ ds) [] → Q () s') :
    wpe (whenever (i > 0) do
      write (elem b 0 + i) 0
      addStr (elem b 0)) Q X s := by
  rw [wpe_whenever]
  refine ⟨fun _ => ?_, fun hnot => ?_⟩
  · obtain ⟨blk, hb, hblk⟩ := h.buffer
    obtain ⟨hterminated, hprefix⟩ := hblk.terminate
    have hle := hblk.length_le
    rw [wpe_bind, h.place hi, ArrayM.wpe_write hb (by rw [hblk.length_eq]; omega)]
    refine (h.written hterminated h.plain).wpe_addStr ?_ hfits hQ
    rw [textOf_eq_some_iff]
    exact ⟨b, 0, _, rfl, setBlock_self hb, h.plain, hprefix⟩
  · have hzero : ds.length = 0 := by
      rw [gt_iff_lt, UInt64.lt_iff_toNat_lt, UInt64.toNat_zero] at hnot
      omega
    obtain rfl := length_eq_zero_iff.mp hzero
    exact hQ s (by rwa [append_nil])

end Staged

/-! ## Words -/

theorem Sound.wpe_clear_text (h : Sound s) (hstr : s.2.str ≠ .null)
    (hQ : ∀ s', Holds s' [] → Q () s') : wpe clear Q X s := by
  obtain ⟨hnull, -⟩ | ⟨a, blk, hstr, ha, hlen, hmax⟩ := h
  · exact absurd hnull hstr
  · cases blk with
    | nil => cases hlen
    | cons c room =>
      rw [length_cons] at hlen hmax
      have hcells : (s.1, (⟨s.2.str, 0, s.2.capacity⟩ : Str)).1.cells a = _ := ha
      have hwrite : (write s.2.str 0 : StringM Unit) = write (elem a 0) 0 := by rw [hstr]
      rw [clear, wpe_bind, wpe_getObj, wpe_bind, wpe_setObj, hwrite,
        wpe_write hcells (Nat.succ_pos _)]
      refine hQ _ ⟨a, room, hstr, rfl, ?_, setBlock_self ha, not_mem_nil, ?_⟩
      · rw [length_nil, Nat.zero_add]
        exact (Nat.succ.inj hlen).symm
      · rw [length_nil]
        omega

theorem wpe_newBuffer (h : Holds s []) {Q : ElemPtr → Heap (Block UInt8) × Str → Prop}
    (hQ : ∀ b s', Staged s' b [] [] → Q (elem b 0) s') : wpe newBuffer Q X s := by
  obtain ⟨a, room, htext⟩ := h
  have hlt := lt_next htext.cells
  rw [newBuffer, wpe_modifyGet]
  refine hQ _ _ ⟨Holds.of_cells ⟨a, room, htext⟩ fun c hc => ?_,
    ⟨_, alloc_self _ _, replicate 127 (some 0), replicate_succ', by simp⟩,
    not_mem_nil, fun hbase => ?_⟩
  · rw [htext.base_eq, Option.some_inj] at hc
    exact alloc_ne _ _ (hc ▸ hlt.ne)
  · rw [htext.base_eq, Option.some_inj] at hbase
    exact absurd hbase hlt.ne

theorem Sound.wpe_extract {w : Bytes} (rest : Bytes) {sep : UInt8} (h : Sound s)
    (hstr : s.2.str ≠ .null) (hw : ∀ c ∈ w, inWord c = true) (hplain : 0 ∉ w)
    (hsep : inWord sep = false) (hfits : w.length < maxElems) :
    wpe (extract (w.length + 1) (w ++ sep :: rest)) (fun r s' => r = rest ∧ Holds s' w) X s := by
  rw [extract, wpe_bind]
  refine h.wpe_clear_text hstr fun s1 h1 => ?_
  rw [wpe_bind]
  refine wpe_newBuffer h1 fun b s2 h2 => ?_
  rw [wpe_bind]
  refine h2.wpe_extractLoop (i := 0) rfl hw hplain hsep hfits fun i s3 cs ds h3 hi heq => ?_
  obtain rfl : cs ++ ds = w := heq
  rw [wpe_bind]
  refine h3.wpe_flush hi hfits fun s4 h4 => ?_
  obtain ⟨blk, hb, -⟩ := h4.buffer
  rw [wpe_bind, wpe_deleteArray hb, wpe_pure]
  exact ⟨rfl, h4.holds.of_cells fun a ha => free_ne _ fun hab => h4.apart (hab ▸ ha)⟩

theorem inWord_getChar (h : ∀ c ∈ input, inWord c = true) : inWord (getChar input) = true := by
  cases input with
  | nil => rfl
  | cons c input => exact h c mem_cons_self

theorem wpe_extractLoop_endless {buff : ElemPtr} {fuel : Nat} {ch : UInt8} (hch : inWord ch = true)
    (hinput : ∀ c ∈ input, inWord c = true) :
    wpe (extractLoop buff fuel i ch input) (fun _ _ => False) (fun _ _ => True) s := by
  induction fuel generalizing s i ch input with
  | zero => exact (wpe_throw _ _ _ _).mpr trivial
  | succ fuel ih =>
    rw [extractLoop, if_pos hch, wpe_bind]
    refine wpe_of_forall (fun i' s1 => ?_) fun _ _ => trivial
    rw [wpe_bind]
    exact wpe_of_forall (fun _ s2 => ih (inWord_getChar hinput) fun c hc =>
      hinput c (mem_of_mem_tail hc)) fun _ _ => trivial

theorem wpe_extract_endless {fuel : Nat} (h : ∀ c ∈ input, inWord c = true) :
    wpe (extract fuel input) (fun _ _ => False) (fun _ _ => True) s := by
  rw [extract, wpe_bind]
  refine wpe_of_forall (fun _ s1 => ?_) fun _ _ => trivial
  rw [wpe_bind]
  refine wpe_of_forall (fun buff s2 => ?_) fun _ _ => trivial
  rw [wpe_bind]
  have htail : ∀ c ∈ input.tail, inWord c = true := fun c hc => h c (mem_of_mem_tail hc)
  exact wpe_mono (wpe_extractLoop_endless (inWord_getChar h) htail) (fun _ _ => False.elim)
    fun _ _ => id

theorem wpe_extract_null {fuel : Nat} (hstr : s.2.str = .null) :
    wpe (extract fuel input) (fun _ _ => False) (fun _ _ => True) s := by
  rw [extract, wpe_bind, clear, wpe_bind, wpe_getObj, wpe_bind, wpe_setObj, hstr]
  simp [write, ElemPtr.null]

def word (input : Bytes) : Bytes := input.takeWhile inWord

theorem inWord_of_mem_word : ∀ c ∈ word input, inWord c = true :=
  fun _ hc => mem_takeWhile_imp hc

theorem inWord_eq_false_iff {ch : UInt8} : inWord ch = false ↔ ch = 32 ∨ ch = 10 := by
  rw [inWord, Bool.and_eq_false_iff, bne_eq_false_iff_eq, bne_eq_false_iff_eq]

theorem separator_iff : (32 ∈ input ∨ 10 ∈ input) ↔ ∃ c ∈ input, inWord c = false := by
  simp only [inWord_eq_false_iff, and_or_left, exists_or, exists_eq_right]

theorem exists_separator (h : ∃ c ∈ input, inWord c = false) :
    ∃ sep, inWord sep = false ∧
      input = word input ++ sep :: input.drop ((word input).length + 1) := by
  induction input with
  | nil =>
    obtain ⟨c, hc, -⟩ := h
    cases hc
  | cons c input ih =>
    by_cases hc : inWord c = true
    · obtain ⟨sep, hsep, heq⟩ := ih (by simpa [hc] using h)
      refine ⟨sep, hsep, ?_⟩
      rw [word, takeWhile_cons_of_pos hc, cons_append, length_cons, drop_succ_cons]
      exact congrArg (c :: ·) heq
    · rw [word, takeWhile_cons_of_neg hc]
      exact ⟨c, Bool.eq_false_iff.mpr hc, rfl⟩

variable {I : Type} [DecidableEq I]

/-- **Extraction**: from an input without null bytes, `operator>>` into a string of a program
    returns with the first word, and leaves what is behind its separator, if and only if the
    string is not moved-from, there is a separator, and the word fits into an array. -/
theorem extract_word_iff {s : Heap (Block UInt8) × Dict (ObjName I) Str}
    (h : (strings I).Reachable s) (i : I) (v : Str) (hi : s.2 (.var i) = some v) (input : Bytes)
    (hinput : 0 ∉ input) :
    (∃ fuel s', extract fuel input (s.1, v) = .ok (input.drop ((word input).length + 1)) s' ∧
        Holds s' (word input)) ↔
      v.str ≠ .null ∧ (32 ∈ input ∨ 10 ∈ input) ∧ (word input).length < maxElems := by
  have hsound : Sound (s.1, v) := (strings_sound h).sound.sound _ _ hi
  rw [separator_iff]
  constructor
  · rintro ⟨fuel, s', hok, a, room, htext⟩
    refine ⟨fun hnull => wpe_ok (wpe_extract_null hnull) hok, ?_,
      lt_of_le_of_lt (Nat.le_add_right _ _) htext.fits⟩
    by_contra hnone
    refine wpe_ok (wpe_extract_endless fun c hc => ?_) hok
    by_contra hnot
    exact hnone ⟨c, hc, Bool.eq_false_iff.mpr hnot⟩
  · rintro ⟨hstr, hseparator, hfits⟩
    obtain ⟨sep, hsep, heq⟩ := exists_separator hseparator
    have hplain : 0 ∉ word input := fun hmem => hinput ((List.takeWhile_prefix _).mem hmem)
    obtain ⟨r, s', hok, rfl, hholds⟩ := exists_of_wpe
      (hsound.wpe_extract (input.drop ((word input).length + 1)) hstr inWord_of_mem_word
        hplain hsep hfits)
    rw [← heq] at hok
    exact ⟨_, s', hok, hholds⟩

/-- A word of 200 letters, which takes the buffer twice. -/
theorem extract_word_long : ∃ (s : Heap (Block UInt8) × Dict (ObjName Unit) Str) (v : Str),
    (strings Unit).Reachable s ∧ s.2 (.var ()) = some v ∧
      ∃ fuel s', extract fuel (List.replicate 200 97 ++ [32, 98]) (s.1, v) = .ok [98] s' ∧
        Holds s' (List.replicate 200 97) := by
  have hinit : (strings Unit).Reachable (empty.alloc [some 0], Dict.empty) :=
    ⟨(_, Dict.empty), [], rfl, .nil _⟩
  have hmade : (strings Unit).Reachable (_, _) :=
    hinit.step (l := .op (.construct () (elem 0 0))) ⟨rfl, Or.inl rfl⟩
  have hword : word (List.replicate 200 97 ++ [32, 98]) = List.replicate 200 97 := by decide +kernel
  have hextract := (extract_word_iff hmade () _ rfl (List.replicate 200 97 ++ [32, 98])
    (by decide +kernel)).mpr ⟨nofun, Or.inl (by decide +kernel), by rw [hword]; decide +kernel⟩
  have hrest : (List.replicate 200 (97 : UInt8) ++ [32, 98]).drop
      ((List.replicate 200 (97 : UInt8)).length + 1) = [98] := by decide +kernel
  rw [hword, hrest] at hextract
  exact ⟨_, _, hmade, rfl, hextract⟩

/-- The word `"a"` at the end of the input is read without end. -/
theorem extract_last_word_endless : ∃ (s : Heap (Block UInt8) × Dict (ObjName Unit) Str) (v : Str),
      (strings Unit).Reachable s ∧ s.2 (.var ()) = some v ∧ v.str ≠ .null ∧
        ∀ fuel r s', extract fuel [97] (s.1, v) ≠ .ok r s' := by
  have hinit : (strings Unit).Reachable (empty.alloc [some 0], Dict.empty) :=
    ⟨(_, Dict.empty), [], rfl, .nil _⟩
  have hmade : (strings Unit).Reachable (_, _) :=
    hinit.step (l := .op (.construct () (elem 0 0))) ⟨rfl, Or.inl rfl⟩
  have hall : ∀ c ∈ ([97] : Bytes), inWord c = true := List.forall_mem_singleton.mpr rfl
  exact ⟨_, _, hmade, rfl, nofun, fun fuel r s' hok => wpe_ok (wpe_extract_endless hall) hok⟩

end CallLesson.Algorithm.ZhcString
