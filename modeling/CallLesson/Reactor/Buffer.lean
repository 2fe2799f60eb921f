import CallLesson.Framework.Copy
import CallLesson.Framework.Exec

/-! # The byte buffer of the reactor

    `Buffer` of `Reactor_http/source/server.hpp`: a vector of bytes with a
    read and a write offset. Reads advance `_reader_idx`; a write first makes
    room behind `_writer_idx` (`EnsureWriteSpace`), by doing nothing, by
    moving the unread bytes to the front, or by growing the vector.

    Offsets and lengths are `uint64_t`, so sums and differences wrap. An
    assertion that fails, and a copy outside of the vector, is a `Fault`. -/

namespace CallLesson.Reactor

abbrev Bytes := List UInt8

/-! ## Model -/

def add64 (a b : Nat) : Nat := (a + b) % 2 ^ 64

def sub64 (a b : Nat) : Nat := if b ≤ a then a - b else a + 2 ^ 64 - b

open List

theorem add64_eq {a b : Nat} (h : a + b < 2 ^ 64) : add64 a b = a + b :=
  Nat.mod_eq_of_lt h

theorem sub64_eq {a b : Nat} (hle : b ≤ a) : sub64 a b = a - b := if_pos hle

structure Buffer where
  /-- `_buffer`. -/
  buffer : Bytes
  /-- `_reader_idx`. -/
  readerIdx : Nat
  /-- `_writer_idx`. -/
  writerIdx : Nat
  deriving DecidableEq

variable {b : Buffer} {len : Nat} {data : Bytes}

namespace Buffer

def fresh : Buffer where
  buffer := List.replicate 1024 0
  readerIdx := 0
  writerIdx := 0

def tailIdleSize (b : Buffer) : Nat := sub64 b.buffer.length b.writerIdx

def headIdleSize (b : Buffer) : Nat := b.readerIdx

def readAbleSize (b : Buffer) : Nat := sub64 b.writerIdx b.readerIdx

def moveReadOffset (b : Buffer) (len : Nat) : Except Fault Buffer :=
  if len ≤ b.readAbleSize then .ok { b with readerIdx := add64 b.readerIdx len }
  else .error .assertFailed

def moveWriteOffset (b : Buffer) (len : Nat) : Except Fault Buffer :=
  if len = 0 then .ok b
  else if len ≤ b.tailIdleSize then .ok { b with writerIdx := add64 b.writerIdx len }
  else .error .assertFailed

def resize (v : Bytes) (n : Nat) : Bytes := v.take n ++ List.replicate (n - v.length) 0

def ensureWriteSpace (b : Buffer) (len : Nat) : Buffer :=
  if len = 0 then b
  else if len ≤ b.tailIdleSize then b
  else if len ≤ add64 b.headIdleSize b.tailIdleSize then
    -- `std::copy(ReadPosition(), ReadPosition() + rsz, Begin())`
    { buffer := moveWithin b.buffer b.readerIdx 0 b.readAbleSize
      readerIdx := 0
      writerIdx := b.readAbleSize }
  else { b with buffer := resize b.buffer (add64 b.writerIdx len) }

def write (b : Buffer) (data : Bytes) : Except Fault Buffer :=
  if data.length = 0 then .ok b
  else
    let b := b.ensureWriteSpace data.length
    if b.writerIdx + data.length ≤ b.buffer.length then
      .ok { b with buffer := blit b.buffer b.writerIdx data }
    else .error .badAccess

def writeAndPush (b : Buffer) (data : Bytes) : Except Fault Buffer :=
  if data.length = 0 then .ok b
  else do
    let b ← b.write data
    b.moveWriteOffset data.length

def writeString (b : Buffer) (data : Bytes) : Except Fault Buffer := b.write data

def writeStringAndPop (b : Buffer) (data : Bytes) : Except Fault Buffer := do
  let b ← b.writeString data
  b.moveWriteOffset data.length

def unread (b : Buffer) : Bytes := (b.buffer.drop b.readerIdx).take b.readAbleSize

def writeBuffer (b : Buffer) (data : Buffer) : Except Fault Buffer := b.write data.unread

def writeBufferAndPush (b : Buffer) (data : Buffer) : Except Fault Buffer := do
  let b ← b.writeBuffer data
  b.moveWriteOffset data.readAbleSize

def read (b : Buffer) (len : Nat) : Except Fault Bytes :=
  if len = 0 then .ok []
  else if len ≤ b.readAbleSize then .ok ((b.buffer.drop b.readerIdx).take len)
  else .error .assertFailed

def readAndPop (b : Buffer) (len : Nat) : Except Fault (Buffer × Bytes) :=
  if len = 0 then .ok (b, [])
  else do
    let data ← b.read len
    let b ← b.moveReadOffset len
    return (b, data)

def readString (b : Buffer) (len : Nat) : Except Fault Bytes :=
  if len ≤ b.readAbleSize then b.read len else .error .assertFailed

def readStringAndPop (b : Buffer) (len : Nat) : Except Fault (Buffer × Bytes) := do
  let str ← b.readString len
  let b ← b.moveReadOffset len
  return (b, str)

def newline : UInt8 := 10

def findCRLF (b : Buffer) : Option Nat := b.unread.idxOf? newline

def getLine (b : Buffer) : Except Fault Bytes :=
  match b.findCRLF with
  | none => .ok []
  | some pos => b.readString (pos + 1)

def getLineAndPop (b : Buffer) : Except Fault (Buffer × Bytes) := do
  let str ← b.getLine
  let b ← b.moveReadOffset str.length
  return (b, str)

def clear (b : Buffer) : Buffer := { b with readerIdx := 0, writerIdx := 0 }

/-! ## Well-formedness and the unread bytes -/

structure WellFormed (b : Buffer) : Prop where
  reader_le : b.readerIdx ≤ b.writerIdx
  writer_le : b.writerIdx ≤ b.buffer.length
  size_lt : b.buffer.length < 2 ^ 64

theorem fresh_wellFormed : WellFormed fresh := by
  refine ⟨Nat.le_refl _, Nat.zero_le _, ?_⟩
  simp only [fresh, length_replicate]
  omega

theorem fresh_unread : fresh.unread = [] := rfl

section accessors

variable {b : Buffer} (h : WellFormed b)

include h

theorem readAbleSize_eq : b.readAbleSize = b.writerIdx - b.readerIdx :=
  sub64_eq h.reader_le

theorem tailIdleSize_eq : b.tailIdleSize = b.buffer.length - b.writerIdx :=
  sub64_eq h.writer_le

theorem unread_eq : b.unread = (b.buffer.drop b.readerIdx).take (b.writerIdx - b.readerIdx) := by
  rw [unread, readAbleSize_eq h]

theorem unread_length : b.unread.length = b.readAbleSize := by
  have := h.reader_le
  have := h.writer_le
  rw [unread, length_take, length_drop, readAbleSize_eq h]
  omega

end accessors

theorem readAbleSize_pos_of_append {b' : Buffer} (h : WellFormed b) (h' : WellFormed b')
    (heq : b'.unread = b.unread ++ data) : 0 < b.readAbleSize → 0 < b'.readAbleSize := by
  rw [← unread_length h, ← unread_length h', heq, length_append]
  omega

/-! ### Reads -/

theorem take_unread (hlen : len ≤ b.readAbleSize) :
    b.unread.take len = (b.buffer.drop b.readerIdx).take len := by
  rw [unread, take_take, Nat.min_eq_left hlen]

theorem moveReadOffset_spec (h : WellFormed b) (hlen : len ≤ b.readAbleSize) :
    ∃ b', b.moveReadOffset len = .ok b' ∧ WellFormed b' ∧ b'.unread = b.unread.drop len := by
  have hr := h.reader_le
  have hw := h.writer_le
  have hs := h.size_lt
  have hsize := readAbleSize_eq h
  have hadd : add64 b.readerIdx len = b.readerIdx + len := add64_eq (by omega)
  refine ⟨{ b with readerIdx := b.readerIdx + len }, ?_, ?_, ?_⟩
  · rw [moveReadOffset, if_pos hlen, hadd]
  · exact ⟨by show b.readerIdx + len ≤ b.writerIdx; omega, hw, hs⟩
  · have hwf : WellFormed { b with readerIdx := b.readerIdx + len } :=
      ⟨by show b.readerIdx + len ≤ b.writerIdx; omega, hw, hs⟩
    rw [unread_eq hwf, unread_eq h, drop_take, drop_drop]
    show (b.buffer.drop (b.readerIdx + len)).take (b.writerIdx - (b.readerIdx + len)) = _
    congr 1
    omega

theorem moveReadOffset_ok {b' : Buffer} (h : WellFormed b) (hok : b.moveReadOffset len = .ok b') :
    len ≤ b.readAbleSize ∧ WellFormed b' ∧ b'.unread = b.unread.drop len := by
  by_cases hlen : len ≤ b.readAbleSize
  · obtain ⟨b'', hb'', hwf, hun⟩ := moveReadOffset_spec h hlen
    rw [hok] at hb''
    cases hb''
    exact ⟨hlen, hwf, hun⟩
  · rw [moveReadOffset, if_neg hlen] at hok
    cases hok

theorem read_spec (hlen : len ≤ b.readAbleSize) : b.read len = .ok (b.unread.take len) := by
  rw [take_unread hlen, read]
  by_cases hzero : len = 0
  · subst hzero; simp
  · rw [if_neg hzero, if_pos hlen]

theorem readString_spec (hlen : len ≤ b.readAbleSize) :
    b.readString len = .ok (b.unread.take len) := by
  rw [readString, if_pos hlen, read_spec hlen]

theorem readStringAndPop_spec (h : WellFormed b) (hlen : len ≤ b.readAbleSize) :
    ∃ b', b.readStringAndPop len = .ok (b', b.unread.take len) ∧ WellFormed b' ∧
      b'.unread = b.unread.drop len := by
  obtain ⟨b', hmove, hwf, hun⟩ := moveReadOffset_spec h hlen
  refine ⟨b', ?_, hwf, hun⟩
  simp only [readStringAndPop, readString_spec hlen, bind, Except.bind, hmove]
  rfl

theorem readAndPop_spec (h : WellFormed b) (hlen : len ≤ b.readAbleSize) :
    ∃ b', b.readAndPop len = .ok (b', b.unread.take len) ∧ WellFormed b' ∧
      b'.unread = b.unread.drop len := by
  by_cases hzero : len = 0
  · subst hzero
    exact ⟨b, by simp [readAndPop], h, by simp⟩
  · obtain ⟨b', hpop, hspec⟩ := readStringAndPop_spec h hlen
    refine ⟨b', ?_, hspec⟩
    rw [readStringAndPop, readString, if_pos hlen] at hpop
    rw [readAndPop, if_neg hzero, hpop]

/-! ### Lines -/

theorem findCRLF_lt (h : WellFormed b) {pos : Nat} (hpos : b.findCRLF = some pos) :
    pos + 1 ≤ b.readAbleSize := by
  rw [← unread_length h]
  exact (idxOf?_eq_some_iff.mp hpos).1

/-! ### Writes -/

theorem ensureWriteSpace_spec (h : WellFormed b)
    (hroom : (b.ensureWriteSpace len).writerIdx + len ≤ (b.ensureWriteSpace len).buffer.length) :
    WellFormed (b.ensureWriteSpace len) ∧ (b.ensureWriteSpace len).unread = b.unread := by
  have hr := h.reader_le
  have hw := h.writer_le
  have hs := h.size_lt
  have hsize := readAbleSize_eq h
  unfold ensureWriteSpace at hroom ⊢
  split_ifs at hroom ⊢ with hzero htail htotal
  · exact ⟨h, rfl⟩
  · exact ⟨h, rfl⟩
  · -- The unread bytes move to the front.
    have hmove : moveWithin b.buffer b.readerIdx 0 b.readAbleSize =
        b.unread ++ b.buffer.drop b.readAbleSize := by
      rw [moveWithin_eq_blit _ _ _ _ (Nat.zero_le _) (by omega), ← unread,
        blit_eq _ _ _ (by rw [unread_length h]; omega), unread_length h]
      simp
    rw [hmove]
    have hwf : WellFormed ⟨b.unread ++ b.buffer.drop b.readAbleSize, 0, b.readAbleSize⟩ := by
      refine ⟨Nat.zero_le _, ?_, ?_⟩ <;>
        simp only [length_append, unread_length h, length_drop] <;> omega
    refine ⟨hwf, ?_⟩
    rw [unread_eq hwf]
    simp [← unread_length h]
  · -- The vector grows; there is room only if the new size did not wrap.
    have htailEq := tailIdleSize_eq h
    have hlen : (resize b.buffer (add64 b.writerIdx len)).length = add64 b.writerIdx len := by
      rw [resize, length_append, length_take, length_replicate]
      omega
    have hmod : add64 b.writerIdx len ≤ b.writerIdx + len := Nat.mod_le _ _
    have hlt : add64 b.writerIdx len < 2 ^ 64 := Nat.mod_lt _ (by decide)
    have hge : b.writerIdx + len ≤ add64 b.writerIdx len := by
      rw [← hlen]; exact hroom
    have hgrow : b.buffer.length ≤ add64 b.writerIdx len := by omega
    have hwf : WellFormed { b with buffer := resize b.buffer (add64 b.writerIdx len) } := by
      refine ⟨hr, ?_, ?_⟩
      · show b.writerIdx ≤ (resize b.buffer (add64 b.writerIdx len)).length
        omega
      · show (resize b.buffer (add64 b.writerIdx len)).length < 2 ^ 64
        omega
    refine ⟨hwf, ?_⟩
    rw [unread_eq hwf, unread_eq h]
    show ((resize b.buffer (add64 b.writerIdx len)).drop b.readerIdx).take
      (b.writerIdx - b.readerIdx) = _
    rw [resize, take_of_length_le hgrow, drop_append_of_le_length (by omega),
      take_append_of_le_length (by rw [length_drop]; omega)]

theorem ensureWriteSpace_room (h : WellFormed b)
    (hsum : b.readerIdx + b.tailIdleSize < len → b.writerIdx + len < 2 ^ 64) :
    (b.ensureWriteSpace len).writerIdx + len ≤ (b.ensureWriteSpace len).buffer.length := by
  have hr := h.reader_le
  have hw := h.writer_le
  have hs := h.size_lt
  have hsize := readAbleSize_eq h
  have htailEq := tailIdleSize_eq h
  have hadd : add64 b.headIdleSize b.tailIdleSize = b.readerIdx + b.tailIdleSize :=
    add64_eq (by rw [headIdleSize]; omega)
  unfold ensureWriteSpace
  split_ifs with hzero htail htotal
  · omega
  · omega
  · show b.readAbleSize + len ≤ (moveWithin b.buffer b.readerIdx 0 b.readAbleSize).length
    rw [moveWithin_eq_blit _ _ _ _ (Nat.zero_le _) (by omega), blit_length]
    omega
  · show b.writerIdx + len ≤ (resize b.buffer (add64 b.writerIdx len)).length
    rw [add64_eq (hsum (by omega)), resize, length_append, length_take, length_replicate]
    omega

def pushed (b : Buffer) (data : Bytes) : Buffer :=
  { b with
    buffer := blit b.buffer b.writerIdx data
    writerIdx := b.writerIdx + data.length }

theorem pushed_spec (h : WellFormed b) (hroom : b.writerIdx + data.length ≤ b.buffer.length) :
    WellFormed (b.pushed data) ∧ (b.pushed data).unread = b.unread ++ data := by
  have hr := h.reader_le
  have hwf : WellFormed (b.pushed data) := by
    refine ⟨?_, ?_, ?_⟩
    · show b.readerIdx ≤ b.writerIdx + data.length
      omega
    · show b.writerIdx + data.length ≤ (blit b.buffer b.writerIdx data).length
      rw [blit_length]; exact hroom
    · show (blit b.buffer b.writerIdx data).length < 2 ^ 64
      rw [blit_length]; exact h.size_lt
  refine ⟨hwf, ?_⟩
  rw [unread_eq hwf, unread_eq h]
  show ((blit b.buffer b.writerIdx data).drop b.readerIdx).take
    (b.writerIdx + data.length - b.readerIdx) = _
  have htake : (b.buffer.take b.writerIdx).drop b.readerIdx =
      (b.buffer.drop b.readerIdx).take (b.writerIdx - b.readerIdx) := drop_take
  have hlen : ((b.buffer.take b.writerIdx).drop b.readerIdx).length =
      b.writerIdx - b.readerIdx := by
    have := h.writer_le
    rw [length_drop, length_take]
    omega
  rw [blit_eq _ _ _ hroom, ← htake, append_assoc,
    drop_append_of_le_length (by rw [length_take]; have := h.writer_le; omega),
    ← append_assoc, take_append_of_le_length, take_of_length_le]
  · rw [length_append, hlen]; omega
  · rw [length_append, hlen]; omega

theorem writeStringAndPop_eq (h : WellFormed b) (data : Bytes) :
    b.writeStringAndPop data =
      if data = [] then .ok b
      else if (b.ensureWriteSpace data.length).writerIdx + data.length ≤
          (b.ensureWriteSpace data.length).buffer.length then
        .ok ((b.ensureWriteSpace data.length).pushed data)
      else .error .badAccess := by
  by_cases hnil : data = []
  · subst hnil
    simp [writeStringAndPop, writeString, write, moveWriteOffset, bind, Except.bind]
  have hlen : data.length ≠ 0 := fun h0 => hnil (length_eq_zero_iff.mp h0)
  rw [if_neg hnil]
  by_cases hroom : (b.ensureWriteSpace data.length).writerIdx + data.length ≤
      (b.ensureWriteSpace data.length).buffer.length
  · obtain ⟨hwf, _⟩ := ensureWriteSpace_spec h hroom
    have hwf' : WellFormed { b.ensureWriteSpace data.length with
        buffer := blit (b.ensureWriteSpace data.length).buffer
          (b.ensureWriteSpace data.length).writerIdx data } := by
      refine ⟨hwf.reader_le, ?_, ?_⟩ <;> rw [blit_length]
      · exact hwf.writer_le
      · exact hwf.size_lt
    have htail := tailIdleSize_eq hwf'
    have hsize := hwf.size_lt
    simp only [blit_length] at htail
    simp only [writeStringAndPop, writeString, write, if_neg hlen, if_pos hroom, bind,
      Except.bind, moveWriteOffset]
    rw [if_pos (by rw [htail]; omega), add64_eq (by omega)]
    rfl
  · simp only [writeStringAndPop, writeString, write, if_neg hlen, if_neg hroom, bind, Except.bind]

theorem writeAndPush_eq (b : Buffer) (data : Bytes) :
    b.writeAndPush data = b.writeStringAndPop data := by
  by_cases hlen : data.length = 0
  · simp [writeAndPush, writeStringAndPop, writeString, write, hlen, moveWriteOffset, bind,
      Except.bind]
  · rw [writeAndPush, if_neg hlen]
    rfl

theorem writeBufferAndPush_eq (b : Buffer) {data : Buffer} (h : WellFormed data) :
    b.writeBufferAndPush data = b.writeStringAndPop data.unread := by
  rw [writeBufferAndPush, ← unread_length h]
  rfl

theorem writeStringAndPop_ok {b' : Buffer} (h : WellFormed b)
    (hok : b.writeStringAndPop data = .ok b') : WellFormed b' ∧ b'.unread = b.unread ++ data := by
  rw [writeStringAndPop_eq h] at hok
  split_ifs at hok with hnil hroom
  · cases hok
    exact ⟨h, by rw [hnil, append_nil]⟩
  · cases hok
    obtain ⟨hwf, hun⟩ := ensureWriteSpace_spec h hroom
    obtain ⟨hwf', hun'⟩ := pushed_spec hwf hroom
    exact ⟨hwf', by rw [hun', hun]⟩

theorem writeStringAndPop_spec (h : WellFormed b)
    (hsum : b.readerIdx + b.tailIdleSize < data.length → b.writerIdx + data.length < 2 ^ 64) :
    ∃ b', b.writeStringAndPop data = .ok b' ∧ WellFormed b' ∧ b'.unread = b.unread ++ data := by
  have hok : ∃ b', b.writeStringAndPop data = .ok b' := by
    rw [writeStringAndPop_eq h, if_pos (ensureWriteSpace_room h hsum)]
    split_ifs
    · exact ⟨_, rfl⟩
    · exact ⟨_, rfl⟩
  obtain ⟨b', hb'⟩ := hok
  exact ⟨b', hb', writeStringAndPop_ok h hb'⟩

theorem clear_spec (h : WellFormed b) : WellFormed b.clear ∧ b.clear.unread = [] := by
  refine ⟨⟨Nat.le_refl _, Nat.zero_le _, h.size_lt⟩, ?_⟩
  have hwf : WellFormed b.clear := ⟨Nat.le_refl _, Nat.zero_le _, h.size_lt⟩
  rw [unread_eq hwf]
  simp [clear]

end Buffer

/-! ## The FIFO queue a buffer refines -/

inductive BufferOp where
  | writeAndPush (data : Bytes)
  | writeStringAndPop (data : Bytes)
  | writeBufferAndPush (data : Buffer)
  | readAndPop (len : Nat)
  | readStringAndPop (len : Nat)
  | moveReadOffset (len : Nat)
  | getLineAndPop
  | clear
  deriving DecidableEq

def lineLength (queue : Bytes) : Nat :=
  match queue.idxOf? Buffer.newline with
  | none => 0
  | some pos => pos + 1

def fifoStep (queue : Bytes) : BufferOp → Bytes × Bytes
  | .writeAndPush data => (queue ++ data, [])
  | .writeStringAndPop data => (queue ++ data, [])
  | .writeBufferAndPush data => (queue ++ data.unread, [])
  | .readAndPop len => (queue.drop len, queue.take len)
  | .readStringAndPop len => (queue.drop len, queue.take len)
  | .moveReadOffset len => (queue.drop len, [])
  | .getLineAndPop => (queue.drop (lineLength queue), queue.take (lineLength queue))
  | .clear => ([], [])

def fifoRun : Bytes → List BufferOp → Bytes × List Bytes
  | queue, [] => (queue, [])
  | queue, op :: ops =>
      let (queue', out) := fifoStep queue op
      let (queue'', outs) := fifoRun queue' ops
      (queue'', out :: outs)

namespace Buffer

def step (b : Buffer) : BufferOp → Except Fault (Buffer × Bytes)
  | .writeAndPush data => (·, []) <$> b.writeAndPush data
  | .writeStringAndPop data => (·, []) <$> b.writeStringAndPop data
  | .writeBufferAndPush data => (·, []) <$> b.writeBufferAndPush data
  | .readAndPop len => b.readAndPop len
  | .readStringAndPop len => b.readStringAndPop len
  | .moveReadOffset len => (·, []) <$> b.moveReadOffset len
  | .getLineAndPop => b.getLineAndPop
  | .clear => .ok (b.clear, [])

def run : Buffer → List BufferOp → Except Fault (Buffer × List Bytes)
  | b, [] => .ok (b, [])
  | b, op :: ops => do
      let (b', out) ← b.step op
      let (b'', outs) ← run b' ops
      return (b'', out :: outs)

def Allowed (b : Buffer) : BufferOp → Prop
  | .writeAndPush data => b.writerIdx + data.length < 2 ^ 64
  | .writeStringAndPop data => b.writerIdx + data.length < 2 ^ 64
  | .writeBufferAndPush data => WellFormed data ∧ b.writerIdx + data.readAbleSize < 2 ^ 64
  | .readAndPop len => len ≤ b.readAbleSize
  | .readStringAndPop len => len ≤ b.readAbleSize
  | .moveReadOffset len => len ≤ b.readAbleSize
  | .getLineAndPop => True
  | .clear => True

def AllAllowed : Buffer → List BufferOp → Prop
  | _, [] => True
  | b, op :: ops => Allowed b op ∧ ∀ b' out, b.step op = .ok (b', out) → AllAllowed b' ops

def Holds (b : Buffer) (queue : Bytes) : Prop := WellFormed b ∧ b.unread = queue

theorem getLineAndPop_spec (h : WellFormed b) :
    ∃ b', b.getLineAndPop = .ok (b', b.unread.take (lineLength b.unread)) ∧ WellFormed b' ∧
      b'.unread = b.unread.drop (lineLength b.unread) := by
  have hline : b.getLine = .ok (b.unread.take (lineLength b.unread)) ∧
      lineLength b.unread ≤ b.readAbleSize := by
    unfold getLine lineLength
    cases hpos : b.findCRLF with
    | none =>
      rw [findCRLF] at hpos
      simp [hpos]
    | some pos =>
      have hlt := findCRLF_lt h hpos
      rw [findCRLF] at hpos
      simp only [hpos]
      exact ⟨readString_spec hlt, hlt⟩
  have hlen : (b.unread.take (lineLength b.unread)).length = lineLength b.unread := by
    rw [length_take, unread_length h]
    omega
  obtain ⟨b', hmove, hspec⟩ := moveReadOffset_spec h hline.2
  refine ⟨b', ?_, hspec⟩
  simp only [getLineAndPop, hline.1, bind, Except.bind, hlen, hmove]
  rfl

theorem step_refines {queue : Bytes} (h : Holds b queue) {op : BufferOp} (hop : Allowed b op) :
    ∃ b', b.step op = .ok (b', (fifoStep queue op).2) ∧ Holds b' (fifoStep queue op).1 := by
  obtain ⟨hwf, rfl⟩ := h
  cases op with
  | writeAndPush data =>
    obtain ⟨b', hb', hspec⟩ := writeStringAndPop_spec hwf fun _ => hop
    exact ⟨b', by simp only [step, writeAndPush_eq, hb']; rfl, hspec⟩
  | writeStringAndPop data =>
    obtain ⟨b', hb', hspec⟩ := writeStringAndPop_spec hwf fun _ => hop
    exact ⟨b', by simp only [step, hb']; rfl, hspec⟩
  | writeBufferAndPush data =>
    obtain ⟨hdata, hsum⟩ := hop
    rw [← unread_length hdata] at hsum
    obtain ⟨b', hb', hspec⟩ := writeStringAndPop_spec hwf fun _ => hsum
    exact ⟨b', by simp only [step, writeBufferAndPush_eq b hdata, hb']; rfl, hspec⟩
  | readAndPop len => exact readAndPop_spec hwf hop
  | readStringAndPop len => exact readStringAndPop_spec hwf hop
  | moveReadOffset len =>
    obtain ⟨b', hb', hspec⟩ := moveReadOffset_spec hwf hop
    exact ⟨b', by simp only [step, hb']; rfl, hspec⟩
  | getLineAndPop => exact getLineAndPop_spec hwf
  | clear => exact ⟨b.clear, rfl, clear_spec hwf⟩

theorem run_refines (ops : List BufferOp) :
    ∀ (b : Buffer) (queue : Bytes), Holds b queue → AllAllowed b ops →
      ∃ b', b.run ops = .ok (b', (fifoRun queue ops).2) ∧ Holds b' (fifoRun queue ops).1 := by
  induction ops with
  | nil => intro b queue h _; exact ⟨b, rfl, h⟩
  | cons op ops ih =>
    intro b queue h hops
    obtain ⟨b', hstep, hb'⟩ := step_refines h hops.1
    obtain ⟨b'', hrun, hb''⟩ := ih b' _ hb' (hops.2 b' _ hstep)
    refine ⟨b'', ?_, hb''⟩
    simp only [run, hstep, bind, Except.bind, hrun]
    rfl

end Buffer

/-- **A buffer refines a FIFO byte queue.** Every list of allowed operations
    on a fresh buffer runs without a fault, whichever branches
    `EnsureWriteSpace` takes; its reads return what the queue's do, the offsets
    stay ordered inside the vector, and the bytes between them are exactly the
    queue. -/
theorem buffer_refines_fifo (ops : List BufferOp) (hops : Buffer.AllAllowed Buffer.fresh ops) :
    ∃ b, Buffer.fresh.run ops = .ok (b, (fifoRun [] ops).2) ∧
      b.readerIdx ≤ b.writerIdx ∧ b.writerIdx ≤ b.buffer.length ∧
      (b.buffer.drop b.readerIdx).take (b.writerIdx - b.readerIdx) = (fifoRun [] ops).1 := by
  obtain ⟨b, hrun, hwf, hun⟩ := Buffer.run_refines ops Buffer.fresh []
    ⟨Buffer.fresh_wellFormed, Buffer.fresh_unread⟩ hops
  exact ⟨b, hrun, hwf.reader_le, hwf.writer_le, by rw [← Buffer.unread_eq hwf, hun]⟩

/-- "hi\n" and an unfinished "o": one line comes out, the rest stays. -/
theorem buffer_refines_fifo_line :
    ∃ b, Buffer.fresh.run [.writeAndPush [104, 105, 10, 111], .getLineAndPop, .getLineAndPop] =
        .ok (b, [[], [104, 105, 10], []]) ∧
      b.readerIdx ≤ b.writerIdx ∧ b.writerIdx ≤ b.buffer.length ∧
      (b.buffer.drop b.readerIdx).take (b.writerIdx - b.readerIdx) = [111] :=
  buffer_refines_fifo [.writeAndPush [104, 105, 10, 111], .getLineAndPop, .getLineAndPop]
    ⟨by show 0 + 4 < 2 ^ 64; decide, fun _ _ _ => ⟨trivial, fun _ _ _ => ⟨trivial, fun _ _ _ => trivial⟩⟩⟩

end CallLesson.Reactor
