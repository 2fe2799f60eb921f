import CallLesson.Reactor.Buffer

/-! # The memory of a buffer

    `EnsureWriteSpace` resizes the vector to `_writer_idx + len` and keeps the bytes
    that have been read already. It does so only if the unread bytes and the new ones
    would not fit into the vector after a move to the front: then there are more of
    them than the vector is long, and the bytes that are kept are fewer still. -/

namespace CallLesson.Reactor

open Buffer List

variable {b' b : Buffer} {out : Bytes}

namespace Buffer

/-! ## Sizes -/

def SourceOk : BufferOp → Prop
  | .writeBufferAndPush data => WellFormed data
  | _ => True

def peak (b : Buffer) : List BufferOp → Nat
  | [] => b.readAbleSize
  | op :: ops =>
      match b.step op with
      | .ok (b', _) => max b.readAbleSize (b'.peak ops)
      | .error _ => b.readAbleSize

structure Resized (b b' : Buffer) : Prop where
  wellFormed : WellFormed b'
  le : b.buffer.length ≤ b'.buffer.length
  lt : b.buffer.length < b'.buffer.length → b'.buffer.length < 2 * b'.readAbleSize

theorem Resized.of_same (hwf : WellFormed b') (hsame : b'.buffer = b.buffer) : Resized b b' :=
  ⟨hwf, hsame ▸ Nat.le_refl _, fun hlt => absurd hlt (hsame ▸ Nat.lt_irrefl _)⟩

/-! ## One operation -/

theorem ensureWriteSpace_length (h : WellFormed b) {len : Nat}
    (hroom : (b.ensureWriteSpace len).writerIdx + len ≤ (b.ensureWriteSpace len).buffer.length) :
    (b.ensureWriteSpace len).buffer.length = b.buffer.length ∨
      b.buffer.length < (b.ensureWriteSpace len).buffer.length ∧
        (b.ensureWriteSpace len).buffer.length < 2 * (b.readAbleSize + len) := by
  have hr := h.reader_le
  have hw := h.writer_le
  have hs := h.size_lt
  have hsize := readAbleSize_eq h
  have htail := tailIdleSize_eq h
  have hadd : add64 b.headIdleSize b.tailIdleSize = b.readerIdx + b.tailIdleSize :=
    add64_eq (by rw [headIdleSize]; omega)
  unfold ensureWriteSpace at hroom ⊢
  split_ifs at hroom ⊢ with hzero hfits htotal
  · exact Or.inl rfl
  · exact Or.inl rfl
  · left
    show (moveWithin b.buffer b.readerIdx 0 b.readAbleSize).length = b.buffer.length
    rw [moveWithin_eq_blit _ _ _ _ (Nat.zero_le _) (by omega), blit_length]
  · right
    have hlen : (resize b.buffer (add64 b.writerIdx len)).length = add64 b.writerIdx len := by
      rw [resize, length_append, length_take, length_replicate]
      omega
    have hmod : add64 b.writerIdx len ≤ b.writerIdx + len := Nat.mod_le _ _
    change b.writerIdx + len ≤ (resize b.buffer (add64 b.writerIdx len)).length at hroom
    show b.buffer.length < (resize b.buffer (add64 b.writerIdx len)).length ∧
      (resize b.buffer (add64 b.writerIdx len)).length < _
    omega

theorem writeStringAndPop_resized (h : WellFormed b) {data : Bytes}
    (hok : b.writeStringAndPop data = .ok b') : Resized b b' := by
  obtain ⟨hwf, hun⟩ := writeStringAndPop_ok h hok
  have hunread : b'.readAbleSize = b.readAbleSize + data.length := by
    rw [← unread_length hwf, ← unread_length h, hun, length_append]
  rw [writeStringAndPop_eq h] at hok
  split_ifs at hok with hnil hroom
  · cases hok
    exact Resized.of_same h rfl
  · cases hok
    have hlength : ((b.ensureWriteSpace data.length).pushed data).buffer.length =
        (b.ensureWriteSpace data.length).buffer.length := blit_length _ _ _
    refine ⟨hwf, ?_, fun hlt => ?_⟩
    · rcases ensureWriteSpace_length h hroom with hsame | ⟨hgrown, -⟩
      · omega
      · omega
    · rcases ensureWriteSpace_length h hroom with hsame | ⟨-, hbound⟩
      · omega
      · omega

theorem moveReadOffset_resized (h : WellFormed b) {len : Nat} (hok : b.moveReadOffset len = .ok b') :
    Resized b b' := by
  refine Resized.of_same (moveReadOffset_ok h hok).2.1 ?_
  unfold moveReadOffset at hok
  split at hok
  · cases hok
    rfl
  · cases hok

theorem resized_of_pop (h : WellFormed b) {len : Nat} {x : Except Fault Bytes}
    (hok : (do let data ← x; let b1 ← b.moveReadOffset len; return (b1, data)) = .ok (b', out)) :
    Resized b b' := by
  obtain ⟨data, -, hok⟩ := Exec.except_bind_ok hok
  obtain ⟨b1, hmove, hok⟩ := Exec.except_bind_ok hok
  cases hok
  exact moveReadOffset_resized h hmove

theorem map_ok {x : Except Fault Buffer} (h : ((·, ([] : Bytes)) <$> x) = .ok (b', out)) :
    x = .ok b' := by
  cases x with
  | error e => cases h
  | ok b =>
    cases h
    rfl

variable {op : BufferOp}

theorem step_resized (h : WellFormed b) (hsource : SourceOk op)
    (hok : b.step op = .ok (b', out)) : Resized b b' := by
  cases op with
  | writeAndPush data =>
    have hpush := map_ok hok
    rw [writeAndPush_eq] at hpush
    exact writeStringAndPop_resized h hpush
  | writeStringAndPop data => exact writeStringAndPop_resized h (map_ok hok)
  | writeBufferAndPush data =>
    have hpush := map_ok hok
    rw [writeBufferAndPush_eq b hsource] at hpush
    exact writeStringAndPop_resized h hpush
  | readAndPop len =>
    simp only [step, readAndPop] at hok
    split at hok
    · cases hok
      exact Resized.of_same h rfl
    · exact resized_of_pop h hok
  | readStringAndPop len => exact resized_of_pop h hok
  | moveReadOffset len => exact moveReadOffset_resized h (map_ok hok)
  | getLineAndPop =>
    obtain ⟨line, hline, hok⟩ := Exec.except_bind_ok hok
    obtain ⟨b1, hmove, hok⟩ := Exec.except_bind_ok hok
    cases hok
    exact moveReadOffset_resized h hmove
  | clear =>
    cases hok
    exact Resized.of_same (clear_spec h).1 rfl

/-! ## Runs -/

theorem readAbleSize_le_peak (b : Buffer) (ops : List BufferOp) : b.readAbleSize ≤ b.peak ops := by
  cases ops with
  | nil => exact Nat.le_refl _
  | cons op ops =>
    unfold peak
    split
    · exact Nat.le_max_left _ _
    · exact Nat.le_refl _

theorem peak_cons (h : b.step op = .ok (b', out)) (ops : List BufferOp) :
    b.peak (op :: ops) = max b.readAbleSize (b'.peak ops) := by
  rw [peak, h]

theorem run_cons_ok {ops : List BufferOp} {outs : List Bytes}
    (h : b.run (op :: ops) = .ok (b', outs)) :
    ∃ b1 out outs1, b.step op = .ok (b1, out) ∧ b1.run ops = .ok (b', outs1) ∧
      outs = out :: outs1 := by
  obtain ⟨⟨b1, out⟩, hstep, hrest⟩ := Exec.except_bind_ok h
  obtain ⟨⟨b2, outs1⟩, hrun, hend⟩ := Exec.except_bind_ok hrest
  cases hend
  exact ⟨b1, out, outs1, hstep, hrun, rfl⟩

theorem run_length {ops : List BufferOp} (hsource : ∀ op ∈ ops, SourceOk op) :
    ∀ {b b' : Buffer} {outs : List Bytes}, WellFormed b → b.run ops = .ok (b', outs) →
      WellFormed b' ∧ b.buffer.length ≤ b'.buffer.length ∧
        b'.buffer.length ≤ max b.buffer.length (2 * b.peak ops) := by
  induction ops with
  | nil =>
    intro b b' outs h hrun
    cases hrun
    exact ⟨h, Nat.le_refl _, Nat.le_max_left _ _⟩
  | cons op ops ih =>
    intro b b' outs h hrun
    obtain ⟨b1, out, outs1, hstep, hrest, -⟩ := run_cons_ok hrun
    have hresized := step_resized h (hsource op mem_cons_self) hstep
    obtain ⟨hwf, hle, hbound⟩ :=
      ih (fun op' hop' => hsource op' (mem_cons_of_mem op hop')) hresized.wellFormed hrest
    refine ⟨hwf, hresized.le.trans hle, ?_⟩
    rw [peak_cons hstep]
    have hpeak := readAbleSize_le_peak b1 ops
    -- the size after the first operation is the old one, or bounded by what is unread then
    rcases Nat.lt_or_ge b.buffer.length b1.buffer.length with hlt | hge
    · have := hresized.lt hlt
      omega
    · omega

theorem run_append {done rest : List BufferOp} :
    ∀ {b b' b'' : Buffer} {outs outs' : List Bytes}, b.run done = .ok (b', outs) →
      b'.run rest = .ok (b'', outs') → b.run (done ++ rest) = .ok (b'', outs ++ outs') := by
  induction done with
  | nil =>
    intro b b' b'' outs outs' hdone hrest
    cases hdone
    exact hrest
  | cons op done ih =>
    intro b b' b'' outs outs' hdone hrest
    obtain ⟨b1, out, outs1, hstep, hafter, rfl⟩ := run_cons_ok hdone
    rw [cons_append, run, hstep]
    show (do let r ← b1.run (done ++ rest); return (r.1, out :: r.2)) = _
    rw [ih hafter hrest]
    rfl

end Buffer

/-- **The memory of a buffer**: whatever is written to a fresh buffer and read from it,
    the vector never becomes smaller, and at no time is it larger than 1024 bytes and
    than twice what has been unread at most. -/
theorem buffer_memory_proportional (done rest : List BufferOp)
    (hsource : ∀ op ∈ done ++ rest, Buffer.SourceOk op) {b b' : Buffer} {outs outs' : List Bytes}
    (hdone : fresh.run done = .ok (b, outs)) (hrest : b.run rest = .ok (b', outs')) :
    b.buffer.length ≤ b'.buffer.length ∧
      b'.buffer.length ≤ max 1024 (2 * fresh.peak (done ++ rest)) := by
  have hmore : ∀ op ∈ rest, Buffer.SourceOk op := fun op hop =>
    hsource op (mem_append_right done hop)
  have hstart : Buffer.WellFormed b := (run_length (fun op hop =>
    hsource op (mem_append_left rest hop)) fresh_wellFormed hdone).1
  refine ⟨(run_length hmore hstart hrest).2.1, ?_⟩
  have hwhole := run_append hdone hrest
  have hfresh : fresh.buffer.length = 1024 := length_replicate
  have hbound := (run_length hsource fresh_wellFormed hwhole).2.2
  rwa [hfresh] at hbound

/-- A push that makes the vector grow, and `Clear`. -/
theorem buffer_memory_after_growth :
    ∃ b b' outs outs', fresh.run [.writeAndPush (replicate 2000 7)] = .ok (b, outs) ∧
      b.run [.clear] = .ok (b', outs') ∧ b.buffer.length ≤ b'.buffer.length ∧
      b'.buffer.length ≤ max 1024 (2 * fresh.peak
        ([.writeAndPush (replicate 2000 7)] ++ [.clear])) := by
  have hroom : fresh.writerIdx + (replicate 2000 (7 : UInt8)).length < 2 ^ 64 := by
    rw [length_replicate]
    decide
  obtain ⟨b, hrun, -⟩ := run_refines [.writeAndPush (replicate 2000 7)] fresh []
    ⟨fresh_wellFormed, fresh_unread⟩ ⟨hroom, fun _ _ _ => trivial⟩
  refine ⟨b, b.clear, _, _, hrun, rfl, ?_⟩
  refine buffer_memory_proportional [.writeAndPush (replicate 2000 7)] [.clear] ?_ hrun rfl
  exact forall_mem_cons.mpr ⟨trivial, forall_mem_cons.mpr ⟨trivial, forall_mem_nil _⟩⟩

end CallLesson.Reactor
