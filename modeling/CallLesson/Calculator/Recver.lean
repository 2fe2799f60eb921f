import CallLesson.Framework.Exec
import CallLesson.Calculator.Server

/-! # The buffer of `Recver`

    `Recver` of `lesson_IO/Reactor/TcpServer.hpp` with its local array. A round
    receives up to `sizeof(buffer)` bytes into the array, puts a null byte behind
    them and appends the array to `inbuffer` as a C string. The array is the same
    one in every round. -/

namespace CallLesson.Calculator

open Text

/-! ## Model -/

def bufferSize : Nat := 1024

structure Received where
  bytes : Bytes
  nonempty : bytes ≠ []
  size_le : bytes.length ≤ bufferSize

structure LocalBuffer where
  bytes : Bytes
  size_eq : bytes.length = bufferSize

namespace LocalBuffer

def zeros : LocalBuffer := ⟨List.replicate bufferSize 0, List.length_replicate⟩

def recv (buffer : LocalBuffer) (r : Received) : LocalBuffer where
  bytes := r.bytes ++ buffer.bytes.drop r.bytes.length
  size_eq := by
    rw [List.length_append, List.length_drop, buffer.size_eq, Nat.add_sub_cancel' r.size_le]

def store (buffer : LocalBuffer) (i : Nat) (c : UInt8) : Except Fault LocalBuffer :=
  if i < bufferSize then .ok ⟨buffer.bytes.set i c, List.length_set.trans buffer.size_eq⟩
  else .error .badAccess

end LocalBuffer

def recvRound (buffer : LocalBuffer) (inbuffer : Bytes) (r : Received) :
    Except Fault (LocalBuffer × Bytes) := do
  let buffer ← (buffer.recv r).store r.bytes.length 0
  return (buffer, inbuffer ++ cString buffer.bytes)

structure Round where
  received : Received
  service : Bytes → Bytes

def recvRounds (buffer : LocalBuffer) (inbuffer : Bytes) :
    List Round → Except Fault (List (Bytes × Bytes))
  | [] => .ok []
  | round :: rounds => do
      -- the array keeps the bytes of the earlier rounds behind the new ones
      let (buffer', grown) ← recvRound buffer inbuffer round.received
      let rest ← recvRounds buffer' (round.service grown) rounds
      return (inbuffer, grown) :: rest

/-! ### What is expected of it -/

def BufferedExactly (inbuffer : Bytes) (rounds : List Round) : Prop :=
  ∃ grown, recvRounds .zeros inbuffer rounds = .ok grown ∧
    List.Forall₂ (fun round g => g.2 = g.1 ++ round.received.bytes) rounds grown

def Received.IsText (r : Received) : Prop := r.bytes.length < bufferSize ∧ 0 ∉ r.bytes

/-! ## A round -/

open List

theorem cString_set {chunk old : Bytes} (h : chunk.length < (chunk ++ old).length) :
    cString ((chunk ++ old).set chunk.length 0) = cString chunk := by
  -- the null byte replaces an old one of the array
  obtain ⟨c, old, rfl⟩ : ∃ c old', old = c :: old' :=
    exists_cons_of_ne_nil fun hnil => by simp [hnil] at h
  rw [set_append_right _ _ (Nat.le_refl _), Nat.sub_self, set_cons_zero, cString, cString,
    takeWhile_append]
  split
  · next hall =>
    rw [takeWhile_cons_of_neg (by decide), append_nil, (List.takeWhile_prefix _).eq_of_length hall]
  · rfl

theorem recvRound_eq (buffer : LocalBuffer) (inbuffer : Bytes) (r : Received) :
    (r.bytes.length < bufferSize →
      ∃ buffer', recvRound buffer inbuffer r = .ok (buffer', inbuffer ++ cString r.bytes)) ∧
    (¬ r.bytes.length < bufferSize → recvRound buffer inbuffer r = .error .badAccess) := by
  constructor
  · intro hlt
    have hset : cString ((buffer.recv r).bytes.set r.bytes.length 0) = cString r.bytes :=
      cString_set ((buffer.recv r).size_eq ▸ hlt)
    simp only [recvRound, LocalBuffer.store, if_pos hlt, bind, Except.bind, pure, Except.pure, hset]
    exact ⟨_, rfl⟩
  · intro hge
    simp only [recvRound, LocalBuffer.store, if_neg hge, bind, Except.bind]

theorem recvRound_exact_iff (buffer : LocalBuffer) (inbuffer : Bytes) (r : Received) :
    (∃ buffer', recvRound buffer inbuffer r = .ok (buffer', inbuffer ++ r.bytes)) ↔ r.IsText := by
  obtain ⟨hroom, hfull⟩ := recvRound_eq buffer inbuffer r
  by_cases hlt : r.bytes.length < bufferSize
  · obtain ⟨buffer', hround⟩ := hroom hlt
    -- the C string is all of it iff no byte is 0
    rw [Received.IsText, ← cString_eq_self_iff, hround]
    constructor
    · rintro ⟨_, h⟩
      exact ⟨hlt, append_cancel_left (Prod.mk.inj (Except.ok.inj h)).2⟩
    · rintro ⟨-, h⟩
      exact ⟨buffer', by rw [h]⟩
  · rw [hfull hlt]
    constructor
    · rintro ⟨_, h⟩
      cases h
    · rintro ⟨h, -⟩
      exact absurd h hlt

theorem service_recvRound [Codec] {buffer buffer' : LocalBuffer} {grown : Bytes} {r : Received}
    {conn : Connection} (h : recvRound buffer conn.inbuffer r = .ok (buffer', grown))
    (s : TcpServer) (c : ConnPtr) (ev : Event) (evs : List Event) :
    s.service c conn r.bytes ev evs = s.service c { conn with inbuffer := grown } [] ev evs := by
  obtain ⟨hroom, hfull⟩ := recvRound_eq buffer conn.inbuffer r
  by_cases hlt : r.bytes.length < bufferSize
  · obtain ⟨buffer'', hround⟩ := hroom hlt
    rw [h] at hround
    obtain rfl : grown = conn.inbuffer ++ cString r.bytes := (Prod.mk.inj (Except.ok.inj hround)).2
    simp only [TcpServer.service, cString, takeWhile_nil, append_nil]
  · rw [hfull hlt] at h
    cases h

/-! ## The rounds -/

theorem recvRounds_exact_iff (rounds : List Round) : ∀ (buffer : LocalBuffer) (inbuffer : Bytes),
      (∃ grown, recvRounds buffer inbuffer rounds = .ok grown ∧
        List.Forall₂ (fun round g => g.2 = g.1 ++ round.received.bytes) rounds grown) ↔
      ∀ round ∈ rounds, round.received.IsText := by
  induction rounds with
  | nil =>
    intro buffer inbuffer
    exact ⟨fun _ round h => absurd h not_mem_nil, fun _ => ⟨[], rfl, .nil⟩⟩
  | cons round rounds ih =>
    intro buffer inbuffer
    rw [forall_mem_cons, ← recvRound_exact_iff buffer inbuffer]
    constructor
    · rintro ⟨grown, hrun, hall⟩
      -- the first round has returned, and so have the others
      obtain ⟨⟨buffer', after⟩, hround, hrun⟩ := Exec.except_bind_ok hrun
      obtain ⟨rest, hrest, hgrown⟩ := Exec.except_bind_ok hrun
      cases hgrown
      obtain ⟨hexact, hall⟩ := forall₂_cons.mp hall
      exact ⟨⟨buffer', hexact ▸ hround⟩, (ih buffer' _).mp ⟨rest, hrest, hall⟩⟩
    · rintro ⟨⟨buffer', hround⟩, htexts⟩
      obtain ⟨rest, hrest, hall⟩ :=
        (ih buffer' (round.service (inbuffer ++ round.received.bytes))).mpr htexts
      refine ⟨(inbuffer, inbuffer ++ round.received.bytes) :: rest, ?_, .cons rfl hall⟩
      simp only [recvRounds, hround, hrest, bind, Except.bind, pure, Except.pure]

/-- **Received bytes**: whatever the service does, the rounds of `Recver` stay within the
    array and append exactly what they receive iff no `recv` fills the array and no byte
    is 0. -/
theorem buffered_exactly_iff (inbuffer : Bytes) (rounds : List Round) :
    BufferedExactly inbuffer rounds ↔ ∀ round ∈ rounds, round.received.IsText :=
  recvRounds_exact_iff rounds .zeros inbuffer

/-- A `recv` that fills the array, and one that receives a null byte. -/
theorem not_buffered_exactly : (∀ service, ¬ BufferedExactly []
      [⟨⟨List.replicate bufferSize 97, by decide, List.length_replicate.le⟩, service⟩]) ∧
    ∀ service, ¬ BufferedExactly [] [⟨⟨[49, 0, 50], by decide, by decide⟩, service⟩] := by
  refine ⟨fun service h => ?_, fun service h => ?_⟩
  · have htext := (recvRounds_exact_iff _ .zeros []).mp h _ List.mem_cons_self
    exact absurd htext.1 (by simp)
  · have htext := (recvRounds_exact_iff _ .zeros []).mp h _ List.mem_cons_self
    exact htext.2 (List.mem_cons_of_mem _ List.mem_cons_self)

end CallLesson.Calculator
