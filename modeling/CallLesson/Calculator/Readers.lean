import CallLesson.Calculator.Protocol

/-! # The two readers of frames

    The reactor appends what it has received to `inbuffer` and drains it with
    `ParseOnePackage`. `RecvPackage` of `lesson10/cal/protol.hpp`, on frames of the
    same kind, looks at its buffer only after a `recv`. -/

namespace CallLesson.Calculator

open Text List
open Frames (wire arrived taken feed feedOnce)

/-! ## Draining -/

def received (chunks : List Bytes) :
    List (Except StoiError (Option Bytes)) × Except (Frames.Stop StoiError) Bytes :=
  ((feed parseOnePackage [] chunks).1.map deLength, (feed parseOnePackage [] chunks).2)

variable {texts chunks : List Bytes}

theorem received_prefix (hfits : ∀ t ∈ texts, fits t = true)
    (hpre : chunks.flatten <+: wire enLength texts) :
    ∃ left, received chunks =
        ((texts.take (arrived enLength texts chunks.flatten.length)).map fun t => .ok (some t),
          .ok left) ∧
      chunks.flatten =
        wire enLength (texts.take (arrived enLength texts chunks.flatten.length)) ++ left := by
  have hfit := Frames.fitting_eq hfits
  have hframes := Frames.feed_frames framing texts chunks (framing.behind_nil texts) hpre
  obtain ⟨left, hrest, hleft⟩ :=
    Frames.feed_rest framing hfits chunks (framing.behind_nil texts) hpre
  rw [framing.taken_nil, nil_append, taken, hfit] at hframes
  rw [Frames.Behind, nil_append, taken, hfit] at hleft
  refine ⟨left, ?_, hleft⟩
  rw [received, hframes, hrest, map_map, Frames.between, drop_zero]
  congr 1
  refine map_congr_left fun t ht => ?_
  have hsize : (enLength t).length < 2 ^ 31 := by
    simpa [fits] using hfits t (mem_of_mem_take ht)
  have hlen := enLength_length t
  exact deLength_enLength (by omega)

/-- **Framing**: however a stream of frames is cut, each text is delivered with
    the chunk that has its last byte, nothing is thrown, and the buffer holds the
    bytes of the incomplete frame. -/
theorem framing_survives_chunking (hfits : ∀ t ∈ texts, (enLength t).length < 2 ^ 31)
    (hstream : chunks.flatten = wire enLength texts) :
    (∀ done rest, chunks = done ++ rest →
      ∃ left, received done =
          ((texts.take (arrived enLength texts done.flatten.length)).map fun t => .ok (some t),
            .ok left) ∧
        done.flatten =
          wire enLength (texts.take (arrived enLength texts done.flatten.length)) ++ left) ∧
    received chunks = (texts.map fun t => .ok (some t), .ok []) := by
  have hfits' : ∀ t ∈ texts, fits t = true := fun t ht => by simpa [fits] using hfits t ht
  constructor
  · rintro done rest rfl
    refine received_prefix hfits' ?_
    rw [← hstream, flatten_append]
    exact prefix_append _ _
  · obtain ⟨left, hreceived, hleft⟩ := received_prefix hfits' ⟨[], by rw [append_nil, hstream]⟩
    have hall : arrived enLength texts chunks.flatten.length = texts.length :=
      Frames.arrived_of_le enLength texts (by rw [hstream])
    rw [hall, take_length] at hreceived hleft
    rw [hstream, self_eq_append_right] at hleft
    rw [hreceived, hleft]

/-- A text that looks like a frame, in chunks that cut the header and the text. -/
theorem framing_survives_chunking_nested :
    received [[54, 13], [10, 49, 13, 10, 97], [13, 10, 13, 10]] =
      ([.ok (some [49, 13, 10, 97, 13, 10])], .ok []) :=
  (@framing_survives_chunking [[49, 13, 10, 97, 13, 10]] _ (by decide) (by decide)).2

/-! ## One look after each chunk -/

def recvPackage (inbuffer : Bytes) :
    List Bytes → Except StoiError (Option (Bytes × Bytes × List Bytes))
  | [] => .ok none
  | buffer :: chunks =>
      if buffer = [] then .ok none
      else
        match parseOnePackage (inbuffer ++ cString buffer) with
        | .error e => .error e
        | .ok none => recvPackage (inbuffer ++ cString buffer) chunks
        | .ok (some (text, rest)) => .ok (some (text, rest, chunks))

theorem recvPackage_lt {text rest : Bytes} {left : List Bytes} :
    ∀ {chunks : List Bytes} {inbuffer : Bytes},
      recvPackage inbuffer chunks = .ok (some (text, rest, left)) → left.length < chunks.length := by
  intro chunks
  induction chunks with
  | nil => simp [recvPackage]
  | cons chunk chunks ih =>
    intro inbuffer h
    unfold recvPackage at h
    split at h
    · cases h
    · split at h
      · cases h
      · exact Nat.lt_succ_of_lt (ih h)
      · cases h
        exact Nat.lt_succ_self _

def recvPackages (inbuffer : Bytes) (chunks : List Bytes) : List Bytes :=
  match _h : recvPackage inbuffer chunks with
  | .error _ => []
  | .ok none => []
  | .ok (some (text, rest, left)) => text :: recvPackages rest left
termination_by chunks.length
decreasing_by exact recvPackage_lt (by assumption)

theorem recvPackages_unfold (inbuffer : Bytes) (chunks : List Bytes) :
    recvPackages inbuffer chunks =
      match recvPackage inbuffer chunks with
      | .error _ => []
      | .ok none => []
      | .ok (some (text, rest, left)) => text :: recvPackages rest left := by
  rw [recvPackages]
  split <;> simp_all

theorem recvPackages_eq :
    ∀ {chunks : List Bytes}, (∀ c ∈ chunks, c ≠ []) → (∀ c ∈ chunks, 0 ∉ c) → ∀ inbuffer : Bytes,
      recvPackages inbuffer chunks = (feedOnce parseOnePackage inbuffer chunks).1 := by
  intro chunks
  induction chunks with
  | nil =>
    intro _ _ inbuffer
    rw [recvPackages_unfold]
    rfl
  | cons chunk chunks ih =>
    intro hne hnul inbuffer
    have ih' := ih (fun c hc => hne c (mem_cons_of_mem _ hc))
      (fun c hc => hnul c (mem_cons_of_mem _ hc))
    have hchunk : chunk ≠ [] := hne chunk mem_cons_self
    have hcstring : cString chunk = chunk :=
      cString_eq_self_iff.mpr (hnul chunk mem_cons_self)
    rw [recvPackages_unfold, feedOnce, recvPackage, if_neg hchunk, hcstring]
    cases parseOnePackage (inbuffer ++ chunk) with
    | error e => rfl
    | ok r =>
      cases r with
      | none => rw [← ih', recvPackages_unfold]
      | some r => simp only [ih']

/-- **The two readers**: with texts without null bytes, `RecvPackage` delivers the
    packages that `ParseOnePackage` does iff from no point on more frames end than
    chunks come. -/
theorem readers_agree_iff (htexts : ∀ t ∈ texts, 0 ∉ t)
    (hchunks : ∀ c ∈ chunks, 1 ≤ c.length ∧ c.length ≤ 1023)
    (hstream : chunks.flatten <+: wire enLength texts) :
    recvPackages [] chunks = (feed parseOnePackage [] chunks).1 ↔
      ∀ k ≤ chunks.length, taken enLength fits texts chunks.flatten ≤
        taken enLength fits texts (chunks.take k).flatten + (chunks.length - k) := by
  have hnul : ∀ c ∈ chunks, 0 ∉ c := by
    intro c hc hmem
    have hwire := hstream.subset (mem_flatten_of_mem hc hmem)
    obtain ⟨frame, hframe, h0⟩ := mem_flatten.mp hwire
    obtain ⟨t, ht, rfl⟩ := mem_map.mp hframe
    have hdigits := not_mem_decimal (show isDigit 0 = false by decide) t.length
    simp [enLength, lineSep, hdigits, htexts t ht] at h0
  have hne : ∀ c ∈ chunks, c ≠ [] := fun c hc => ne_nil_of_length_pos (hchunks c hc).1
  rw [recvPackages_eq hne hnul]
  exact Frames.feedOnce_eq_feed_iff framing hstream

/-- Two frames, of which the first ends within the second of three chunks. -/
theorem readers_agree_three_chunks :
    recvPackages [] [[49, 13, 10], [97, 13, 10, 49], [13, 10, 98, 13, 10]] =
      (feed parseOnePackage [] [[49, 13, 10], [97, 13, 10, 49], [13, 10, 98, 13, 10]]).1 :=
  (@readers_agree_iff [[97], [98]] _ (by decide) (by decide) (by decide)).mpr (by decide)

/-- Two frames in one chunk: the second is never delivered. -/
theorem readers_differ : recvPackages [] [[49, 13, 10, 97, 13, 10, 49, 13, 10, 98, 13, 10]] ≠
      (feed parseOnePackage [] [[49, 13, 10, 97, 13, 10, 49, 13, 10, 98, 13, 10]]).1 := by
  rw [recvPackages_eq (by decide) (by decide), ne_eq,
    Frames.feedOnce_eq_feed_iff framing (show _ <+: wire enLength [[97], [98]] by decide)]
  intro h
  exact absurd (h 0 (by decide)) (by decide)

end CallLesson.Calculator
