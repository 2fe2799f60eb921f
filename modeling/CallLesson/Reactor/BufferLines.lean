import CallLesson.Framework.Frames
import CallLesson.Reactor.Buffer

/-! # Lines from a buffer

    A reader writes what has arrived into a buffer and calls `GetLineAndPop` until it
    returns the empty string. To the buffer, which is moved and grown between the chunks,
    this is what draining is to a stream of frames, and a line is a frame that is taken as
    soon as its newline is there. So the lines are those of the whole stream. -/

namespace CallLesson.Reactor

open Buffer

open Frames (drain feed)

/-! ## Model -/

namespace Buffer

def getLines (b : Buffer) : List Bytes × Except (Frames.Stop Fault) Buffer :=
  match b.getLineAndPop with
  | .error e => ([], .error (.threw e))
  | .ok (b', line) =>
      if line = [] then ([], .ok b')
      else if b'.readAbleSize < b.readAbleSize then (line :: (getLines b').1, (getLines b').2)
      else ([line], .error .hangs)
termination_by b.readAbleSize

def feedLines (b : Buffer) : List Bytes → List Bytes × Except (Frames.Stop Fault) Buffer
  | [] => ([], .ok b)
  | chunk :: chunks =>
      match b.writeAndPush chunk with
      | .error e => ([], .error (.threw e))
      | .ok b' =>
          match b'.getLines with
          | (lines, .error e) => (lines, .error e)
          | (lines, .ok b'') => (lines ++ (feedLines b'' chunks).1, (feedLines b'' chunks).2)

end Buffer

/-! ## Lines are frames -/

def lineParser : Frames.Parser UInt8 Fault := fun queue =>
  if lineLength queue = 0 then .ok none
  else .ok (some (queue.take (lineLength queue), queue.drop (lineLength queue)))

def IsLine (line : Bytes) : Prop := ∃ text, line = text ++ [newline] ∧ newline ∉ text

open List

variable {queue text : Bytes}

theorem lineLength_of_not_mem (h : newline ∉ queue) : lineLength queue = 0 := by
  rw [lineLength, idxOf?_eq_none_iff.mpr h]

theorem lineLength_append (htext : newline ∉ text) (rest : Bytes) :
    lineLength (text ++ newline :: rest) = text.length + 1 := by
  have hfirst : (text ++ newline :: rest).idxOf? newline = some text.length := by
    rw [idxOf?_eq_some_iff]
    refine ⟨by simp, by simp, fun j hj hnewline => htext ?_⟩
    rw [getElem_append_left hj] at hnewline
    exact hnewline ▸ getElem_mem hj
  rw [lineLength, hfirst]

theorem lineParser_cases (queue : Bytes) : newline ∉ queue ∧ lineParser queue = .ok none ∨
      ∃ text rest, newline ∉ text ∧ queue = text ++ newline :: rest := by
  by_cases hmem : newline ∈ queue
  · obtain ⟨text, rest, hqueue, htext⟩ := eq_append_cons_of_mem hmem
    exact Or.inr ⟨text, rest, htext, hqueue⟩
  · exact Or.inl ⟨hmem, if_pos (lineLength_of_not_mem hmem)⟩

theorem lineParser_append (htext : newline ∉ text) (rest : Bytes) :
    lineParser (text ++ newline :: rest) = .ok (some (text ++ [newline], rest)) := by
  have hsplit : text ++ newline :: rest = (text ++ [newline]) ++ rest := by simp
  have hlength : text.length + 1 = (text ++ [newline]).length := by simp
  rw [lineParser, lineLength_append htext, if_neg (Nat.succ_ne_zero _), hlength, hsplit,
    take_left, drop_left]

theorem lineParser_some {line rest : Bytes} (h : lineParser queue = .ok (some (line, rest))) :
    ∃ text, newline ∉ text ∧ line = text ++ [newline] ∧ queue = text ++ newline :: rest := by
  rcases lineParser_cases queue with ⟨-, hnone⟩ | ⟨text, rest', htext, rfl⟩
  · rw [hnone] at h
    cases h
  · rw [lineParser_append htext] at h
    cases h
    exact ⟨text, htext, rfl, rfl⟩

theorem lineParser_prompt : Frames.Prompt lineParser where
  returns queue := by
    unfold lineParser
    split
    · exact ⟨_, rfl⟩
    · exact ⟨_, rfl⟩
  splits h := by
    obtain ⟨text, -, rfl, rfl⟩ := lineParser_some h
    simp
  extends_ h w := by
    obtain ⟨text, htext, rfl, rfl⟩ := lineParser_some h
    rw [append_assoc, cons_append, lineParser_append htext]

/-! ## The buffer drains its queue -/

namespace Buffer

theorem getLines_refines {b : Buffer} (h : WellFormed b) :
    ∃ b', b.getLines = ((drain lineParser b.unread).1, .ok b') ∧ WellFormed b' ∧
      (drain lineParser b.unread).2 = .ok b'.unread := by
  -- by the number of unread bytes, of which every line takes some
  induction hn : b.readAbleSize using Nat.strongRecOn generalizing b with
  | ind n ih =>
    subst hn
    obtain ⟨b', hpop, hwf, hun⟩ := getLineAndPop_spec h
    by_cases hzero : lineLength b.unread = 0
    · have hnone : lineParser b.unread = .ok none := if_pos hzero
      rw [hzero, take_zero] at hpop
      rw [hzero, drop_zero] at hun
      refine ⟨b', ?_, hwf, ?_⟩
      · rw [getLines, hpop, Frames.drain_of_none hnone]
        rfl
      · rw [Frames.drain_of_none hnone, hun]
    · have hsome : lineParser b.unread = .ok (some (b.unread.take (lineLength b.unread),
          b.unread.drop (lineLength b.unread))) := if_neg hzero
      obtain ⟨hsplit, hne⟩ := lineParser_prompt.splits hsome
      rw [← hun] at hsome hsplit
      have hlt : b'.unread.length < b.unread.length := by
        have hpos := length_pos_iff.mpr hne
        rw [hsplit, length_append]
        omega
      have hlt' : b'.readAbleSize < b.readAbleSize := by
        rwa [← unread_length hwf, ← unread_length h]
      obtain ⟨b'', hlines, hwf', hdrain⟩ := ih b'.readAbleSize hlt' hwf rfl
      have hunfold : drain lineParser b.unread =
          (b.unread.take (lineLength b.unread) :: (drain lineParser b'.unread).1,
            (drain lineParser b'.unread).2) := by
        rw [drain, hsome]
        exact if_pos hlt
      refine ⟨b'', ?_, hwf', ?_⟩
      · rw [getLines, hpop, hunfold]
        simp only [if_neg hne, if_pos hlt', hlines]
      · rw [hunfold]
        exact hdrain

theorem feedLines_refines :
    ∀ (chunks : List Bytes) {b b' : Buffer} {lines : List Bytes}, WellFormed b →
      b.feedLines chunks = (lines, .ok b') →
      WellFormed b' ∧ feed lineParser b.unread chunks = (lines, .ok b'.unread)
  | [], b, b', lines, h, hfeed => by
    cases hfeed
    exact ⟨h, rfl⟩
  | chunk :: chunks, b, b', lines, h, hfeed => by
    rw [feedLines, writeAndPush_eq] at hfeed
    cases hpush : b.writeStringAndPop chunk with
    | error e =>
      rw [hpush] at hfeed
      cases hfeed
    | ok b1 =>
      obtain ⟨hwf1, hun1⟩ := writeStringAndPop_ok h hpush
      obtain ⟨b2, hlines, hwf2, hrest⟩ := getLines_refines hwf1
      rw [hpush] at hfeed
      simp only [hlines] at hfeed
      obtain ⟨hfirst, hsecond⟩ := Prod.mk.inj hfeed
      have hlater : b2.feedLines chunks = ((b2.feedLines chunks).1, .ok b') := by rw [← hsecond]
      obtain ⟨hwf, hfeed'⟩ := feedLines_refines chunks hwf2 hlater
      refine ⟨hwf, ?_⟩
      rw [hun1] at hrest hfirst
      rw [Frames.feed_cons_ok chunks hrest, hfeed', hfirst]

theorem feedLines_returns : ∀ (chunks : List Bytes) {b : Buffer}, WellFormed b →
      b.unread.length + chunks.flatten.length ≤ 2 ^ 63 →
      ∃ lines b', b.feedLines chunks = (lines, .ok b')
  | [], b, _, _ => ⟨[], b, rfl⟩
  | chunk :: chunks, b, h, hsize => by
    have hr := h.reader_le
    have hw := h.writer_le
    have hlen := unread_length h
    have hread := readAbleSize_eq h
    have htail := tailIdleSize_eq h
    rw [flatten_cons, length_append] at hsize
    -- where the vector grows, more is unread and new than it is long
    have hroom : b.readerIdx + b.tailIdleSize < chunk.length →
        b.writerIdx + chunk.length < 2 ^ 64 := fun _ => by omega
    obtain ⟨b1, hpush, hwf1, hun1⟩ := writeStringAndPop_spec h hroom
    obtain ⟨b2, hlines, hwf2, hrest⟩ := getLines_refines hwf1
    have hshort : b2.unread.length ≤ b.unread.length + chunk.length := by
      obtain ⟨frames, rest, hdrain, -, hsplit, -⟩ := lineParser_prompt.drain_spec b1.unread
      rw [hdrain] at hrest
      obtain rfl : rest = b2.unread := Except.ok.inj hrest
      rw [← length_append, ← hun1, hsplit, length_append]
      omega
    obtain ⟨lines, b', hfeed⟩ := feedLines_returns chunks hwf2 (by omega)
    refine ⟨(drain lineParser b1.unread).1 ++ lines, b', ?_⟩
    rw [feedLines, writeAndPush_eq, hpush]
    simp only [hlines, hfeed]

end Buffer

/-- **Lines**: every stream has its lines and a rest. However it is cut into chunks, if the
    lines are taken after each, what is returned are these lines, and the rest is what is
    unread at the end; and every call returns for a stream of a size that an object can
    have. -/
theorem lines_independent_of_chunks (s : Bytes) :
    ∃ lines rest, lines.flatten ++ rest = s ∧ (∀ line ∈ lines, IsLine line) ∧ newline ∉ rest ∧
      ∀ chunks : List Bytes, chunks.flatten = s →
        (s.length ≤ 2 ^ 63 → ∃ b, fresh.feedLines chunks = (lines, .ok b) ∧ b.unread = rest) ∧
        ∀ lines' b, fresh.feedLines chunks = (lines', .ok b) →
          lines' = lines ∧ b.unread = rest := by
  obtain ⟨lines, rest, hdrain, hrest, hsplit, hlines, -⟩ := lineParser_prompt.drain_spec s
  -- what the calls return is settled by the stream, as soon as they return
  have hsame : ∀ chunks : List Bytes, chunks.flatten = s → ∀ lines' b,
      fresh.feedLines chunks = (lines', .ok b) → lines' = lines ∧ b.unread = rest := by
    intro chunks hchunks lines' b hfeed
    obtain ⟨-, hfeed'⟩ := feedLines_refines chunks fresh_wellFormed hfeed
    rw [fresh_unread, lineParser_prompt.feed_eq_drain chunks rfl, List.nil_append, hchunks,
      hdrain] at hfeed'
    cases hfeed'
    exact ⟨rfl, rfl⟩
  refine ⟨lines, rest, hsplit.symm, fun line hline => ?_, ?_, fun chunks hchunks =>
    ⟨fun hsize => ?_, hsame chunks hchunks⟩⟩
  · obtain ⟨s', rest', hparse⟩ := hlines line hline
    obtain ⟨text, htext, hline, -⟩ := lineParser_some hparse
    exact ⟨text, hline, htext⟩
  · rcases lineParser_cases rest with ⟨hnot, -⟩ | ⟨text, rest', htext, rfl⟩
    · exact hnot
    · rw [lineParser_append htext] at hrest
      cases hrest
  · obtain ⟨lines', b, hfeed⟩ := feedLines_returns chunks fresh_wellFormed
      (by rw [fresh_unread, hchunks, List.length_nil, Nat.zero_add]; exact hsize)
    obtain ⟨rfl, hun⟩ := hsame chunks hchunks lines' b hfeed
    exact ⟨b, hfeed, hun⟩

end CallLesson.Reactor
