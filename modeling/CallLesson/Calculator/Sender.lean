import CallLesson.Calculator.Server

/-! # The loop of `Sender`

    `Sender` looks at `errno` also when `send` has not failed: with nothing left to
    send, `send` returns 0 and `errno` is what an earlier call made it. -/

namespace CallLesson.Calculator

open Text

structure Sent where
  excepted : Bool
  accepted : Bytes
  deriving DecidableEq

def sender (excepter : Bool) : Nat → (Nat → Answers) → Bytes → Errno → Option Sent
  | 0, _, _, _ => none
  | fuel + 1, a, outbuffer, errno =>
      let accepted := outbuffer.take (sendCall outbuffer errno (a 0)).1
      match senderRound excepter outbuffer errno (a 0) with
      | (.breaks, _, _) => some ⟨false, accepted⟩
      | (.excepts, _, _) => some ⟨true, accepted⟩
      | (.continues, outbuffer', errno') =>
          (sender excepter fuel (fun i => a (i + 1)) outbuffer' errno').map fun r =>
            { r with accepted := accepted ++ r.accepted }

def Healthy (a : Answers) : Prop :=
  a.sendEmpty = none ∧
    match a.send with
    | .accepts n => 1 ≤ n
    | .fails e => e = .eagain ∨ e = .eintr

def Delivers (a : Nat → Answers) (outbuffer : Bytes) (errno : Errno) : Prop :=
  ∃ fuel r, sender true fuel a outbuffer errno = some r ∧
    r.accepted <+: outbuffer ∧ r.excepted = false

def SendResult.count : SendResult → Nat
  | .accepts n => n
  | .fails _ => 0

def left (a : Nat → Answers) (size : Nat) : Nat → Nat
  | 0 => size
  | i + 1 => left a size i - (a i).send.count

def StopsInTime (a : Nat → Answers) (size : Nat) (errno : Errno) : Prop :=
  (∃ i, 0 < left a size i ∧ (a i).send = .fails .eagain) ∨
    (errno = .eagain ∨ errno = .ewouldblock) ∧
      ∃ i, left a size i = 0 ∧ ∀ j < i, (a j).send ≠ .fails .eintr

/-! ## The accepted bytes -/

open List

theorem senderRound_outbuffer (excepter : Bool) (outbuffer : Bytes) (errno : Errno) (a : Answers) :
    (senderRound excepter outbuffer errno a).2.1 =
      outbuffer.drop (sendCall outbuffer errno a).1 := by
  unfold senderRound
  by_cases hpos : 0 < (sendCall outbuffer errno a).1
  · by_cases hempty : outbuffer = []
    · subst hempty
      simp [sendCall]
    · simp [hpos, hempty]
  · have : (sendCall outbuffer errno a).1 = 0 := by omega
    simp [this]

theorem sender_accepted {excepter : Bool} :
    ∀ {fuel : Nat} {a : Nat → Answers} {outbuffer : Bytes} {errno : Errno} {r : Sent},
      sender excepter fuel a outbuffer errno = some r → r.accepted <+: outbuffer := by
  intro fuel
  induction fuel with
  | zero =>
    intro a outbuffer errno r h
    cases h
  | succ fuel ih =>
    intro a outbuffer errno r h
    have hout := senderRound_outbuffer excepter outbuffer errno (a 0)
    unfold sender at h
    generalize senderRound excepter outbuffer errno (a 0) = round at h hout
    obtain ⟨next, outbuffer', errno'⟩ := round
    cases next with
    | breaks =>
      cases h
      exact take_prefix _ _
    | excepts =>
      cases h
      exact take_prefix _ _
    | continues =>
      obtain ⟨r', hr', rfl⟩ := Option.map_eq_some_iff.mp h
      obtain rfl : outbuffer' = _ := hout
      conv_rhs => rw [← take_append_drop (sendCall outbuffer errno (a 0)).1 outbuffer]
      exact (prefix_append_right_inj _).mpr (ih hr')

/-! ## When it stops in time -/

theorem left_succ (a : Nat → Answers) (size : Nat) :
    ∀ i, left a size (i + 1) = left (fun i => a (i + 1)) (size - (a 0).send.count) i
  | 0 => rfl
  | i + 1 => by
    rw [left, left_succ a size i]
    rfl

theorem left_zero (a : Nat → Answers) : ∀ i, left a 0 i = 0
  | 0 => rfl
  | i + 1 => by rw [left, left_zero a i, Nat.zero_sub]

theorem stopsInTime_zero (a : Nat → Answers) (errno : Errno) :
    StopsInTime a 0 errno ↔ errno = .eagain ∨ errno = .ewouldblock := by
  constructor
  · rintro (⟨i, hpos, _⟩ | ⟨h, _⟩)
    · simp [left_zero] at hpos
    · exact h
  · intro h
    exact Or.inr ⟨h, 0, rfl, by simp⟩

variable {a : Nat → Answers} {outbuffer : Bytes} {fuel : Nat}

theorem stopsInTime_accepts {size n : Nat} (errno : Errno) (hsize : 0 < size)
    (h : (a 0).send = .accepts n) :
    StopsInTime a size errno ↔ StopsInTime (fun i => a (i + 1)) (size - n) errno := by
  have hleft : ∀ i, left a size (i + 1) = left (fun i => a (i + 1)) (size - n) i := fun i => by
    rw [left_succ, h, SendResult.count]
  constructor
  · rintro (⟨i, hpos, hi⟩ | ⟨he, i, hz, hj⟩)
    · cases i with
      | zero => simp [h] at hi
      | succ i => exact Or.inl ⟨i, by rwa [hleft] at hpos, hi⟩
    · cases i with
      | zero => exact absurd hz (Nat.ne_of_gt hsize)
      | succ i => exact Or.inr ⟨he, i, by rwa [hleft] at hz, fun j hji => hj (j + 1) (by omega)⟩
  · rintro (⟨i, hpos, hi⟩ | ⟨he, i, hz, hj⟩)
    · exact Or.inl ⟨i + 1, by rwa [hleft], hi⟩
    · refine Or.inr ⟨he, i + 1, by rwa [hleft], fun j hji => ?_⟩
      cases j with
      | zero => simp [h]
      | succ j => exact hj j (by omega)

theorem stopsInTime_eintr {size : Nat} (errno : Errno) (hsize : 0 < size)
    (h : (a 0).send = .fails .eintr) :
    StopsInTime a size errno ↔ StopsInTime (fun i => a (i + 1)) size .eintr := by
  have hleft : ∀ i, left a size (i + 1) = left (fun i => a (i + 1)) size i := fun i => by
    rw [left_succ, h, SendResult.count, Nat.sub_zero]
  constructor
  -- `errno` is EINTR from here on, so only a call that fails with EAGAIN can still help
  · rintro (⟨i, hpos, hi⟩ | ⟨_, i, hz, hj⟩)
    · cases i with
      | zero => simp [h] at hi
      | succ i => exact Or.inl ⟨i, by rwa [hleft] at hpos, hi⟩
    · cases i with
      | zero => exact absurd hz (Nat.ne_of_gt hsize)
      | succ i => exact absurd h (hj 0 (by omega))
  · rintro (⟨i, hpos, hi⟩ | ⟨he, _⟩)
    · exact Or.inl ⟨i + 1, by rwa [hleft], hi⟩
    · simp at he

/-! ## One round of a healthy connection -/

theorem sender_empty (ha : Healthy (a 0)) (errno : Errno) : sender true (fuel + 1) a [] errno =
      match errno with
      | .eagain => some ⟨false, []⟩
      | .ewouldblock => some ⟨false, []⟩
      | .eintr => sender true fuel (fun i => a (i + 1)) [] .eintr
      | .other _ => some ⟨true, []⟩ := by
  have hcall : sendCall [] errno (a 0) = (0, errno) := by simp [sendCall, ha.1]
  cases errno <;> simp [sender, senderRound, hcall, onErrno]

theorem sender_accepts {n : Nat} (errno : Errno) (hne : outbuffer ≠ []) (hn : 1 ≤ n)
    (h : (a 0).send = .accepts n) :
    sender true (fuel + 1) a outbuffer errno =
      (sender true fuel (fun i => a (i + 1)) (outbuffer.drop n) errno).map fun r =>
        { r with accepted := outbuffer.take n ++ r.accepted } := by
  have hlen := length_pos_iff.mpr hne
  have hcall : sendCall outbuffer errno (a 0) = (min n outbuffer.length, errno) := by
    simp [sendCall, hne, h]
  have hpos : 0 < min n outbuffer.length := by omega
  have htake : outbuffer.take (min n outbuffer.length) = outbuffer.take n := by
    rw [take_eq_take_iff]
    omega
  have hdrop : outbuffer.drop (min n outbuffer.length) = outbuffer.drop n := by
    rcases Nat.le_total n outbuffer.length with hle | hle
    · rw [Nat.min_eq_left hle]
    · rw [Nat.min_eq_right hle, drop_length, drop_eq_nil_of_le hle]
  simp [sender, senderRound, hcall, hpos, hne, htake, hdrop]

theorem sender_eintr (errno : Errno) (hne : outbuffer ≠ []) (h : (a 0).send = .fails .eintr) :
    sender true (fuel + 1) a outbuffer errno =
      sender true fuel (fun i => a (i + 1)) outbuffer .eintr := by
  have hcall : sendCall outbuffer errno (a 0) = (0, .eintr) := by simp [sendCall, hne, h]
  simp [sender, senderRound, hcall, onErrno]

theorem sender_eagain (errno : Errno) (hne : outbuffer ≠ []) (h : (a 0).send = .fails .eagain) :
    sender true (fuel + 1) a outbuffer errno = some ⟨false, []⟩ := by
  have hcall : sendCall outbuffer errno (a 0) = (0, .eagain) := by simp [sendCall, hne, h]
  simp [sender, senderRound, hcall, onErrno]

/-! ## The result on `Sender` -/

theorem stopsInTime_of_sender :
    ∀ {fuel : Nat} {a : Nat → Answers} {outbuffer : Bytes} {errno : Errno} {r : Sent},
      (∀ i, Healthy (a i)) → sender true fuel a outbuffer errno = some r → r.excepted = false →
      StopsInTime a outbuffer.length errno := by
  intro fuel
  induction fuel with
  | zero =>
    intro a outbuffer errno r _ h
    cases h
  | succ fuel ih =>
    intro a outbuffer errno r ha h hr
    by_cases hne : outbuffer = []
    · subst hne
      rw [sender_empty (ha 0)] at h
      rw [length_nil, stopsInTime_zero]
      cases errno with
      | eagain => exact Or.inl rfl
      | ewouldblock => exact Or.inr rfl
      | eintr =>
        -- the loop goes on with nothing changed
        have := ih (fun i => ha (i + 1)) h hr
        rwa [length_nil, stopsInTime_zero] at this
      | other code =>
        -- `Excepter` is called
        cases h
        cases hr
    · have hpos := length_pos_iff.mpr hne
      have hsend := (ha 0).2
      cases hs : (a 0).send with
      | accepts n =>
        rw [hs] at hsend
        rw [sender_accepts errno hne hsend hs] at h
        obtain ⟨r', hr', rfl⟩ := Option.map_eq_some_iff.mp h
        rw [stopsInTime_accepts errno hpos hs, ← length_drop]
        exact ih (fun i => ha (i + 1)) hr' hr
      | fails e =>
        rw [hs] at hsend
        rcases hsend with rfl | rfl
        · exact Or.inl ⟨0, hpos, hs⟩
        · rw [sender_eintr errno hne hs] at h
          rw [stopsInTime_eintr errno hpos hs]
          exact ih (fun i => ha (i + 1)) h hr

theorem sender_of_eagain :
    ∀ (i : Nat) {a : Nat → Answers} {outbuffer : Bytes} (errno : Errno), (∀ i, Healthy (a i)) →
      0 < left a outbuffer.length i → (a i).send = .fails .eagain →
      ∃ fuel r, sender true fuel a outbuffer errno = some r ∧ r.excepted = false := by
  intro i
  induction i with
  | zero =>
    intro a outbuffer errno _ hpos hi
    exact ⟨1, _, sender_eagain errno (length_pos_iff.mp hpos) hi, rfl⟩
  | succ i ih =>
    intro a outbuffer errno ha hpos hi
    have hne : outbuffer ≠ [] := by
      rintro rfl
      simp [left_zero] at hpos
    have hsend := (ha 0).2
    cases hs : (a 0).send with
    | accepts n =>
      rw [hs] at hsend
      rw [left_succ, hs, SendResult.count, ← length_drop] at hpos
      obtain ⟨fuel, r, hr, hexc⟩ := ih errno (fun i => ha (i + 1)) hpos hi
      exact ⟨fuel + 1, { r with accepted := outbuffer.take n ++ r.accepted },
        by rw [sender_accepts errno hne hsend hs, hr]; rfl, hexc⟩
    | fails e =>
      rw [hs] at hsend
      rcases hsend with rfl | rfl
      · exact ⟨1, _, sender_eagain errno hne hs, rfl⟩
      · rw [left_succ, hs, SendResult.count, Nat.sub_zero] at hpos
        obtain ⟨fuel, r, hr, hexc⟩ := ih .eintr (fun i => ha (i + 1)) hpos hi
        exact ⟨fuel + 1, r, by rw [sender_eintr errno hne hs, hr], hexc⟩

theorem sender_of_zero {errno : Errno} (he : errno = .eagain ∨ errno = .ewouldblock) :
    ∀ (i : Nat) {a : Nat → Answers} {outbuffer : Bytes}, (∀ i, Healthy (a i)) →
      left a outbuffer.length i = 0 → (∀ j < i, (a j).send ≠ .fails .eintr) →
      ∃ fuel r, sender true fuel a outbuffer errno = some r ∧ r.excepted = false := by
  intro i
  induction i with
  | zero =>
    -- the call with nothing to send returns 0, and the old `errno` ends the loop
    intro a outbuffer ha hz _
    obtain rfl := length_eq_zero_iff.mp hz
    refine ⟨1, ⟨false, []⟩, ?_, rfl⟩
    rw [sender_empty (ha 0)]
    rcases he with rfl | rfl <;> rfl
  | succ i ih =>
    intro a outbuffer ha hz hj
    by_cases hne : outbuffer = []
    · subst hne
      refine ⟨1, ⟨false, []⟩, ?_, rfl⟩
      rw [sender_empty (ha 0)]
      rcases he with rfl | rfl <;> rfl
    · have hsend := (ha 0).2
      cases hs : (a 0).send with
      | accepts n =>
        rw [hs] at hsend
        rw [left_succ, hs, SendResult.count, ← length_drop] at hz
        obtain ⟨fuel, r, hr, hexc⟩ := ih (fun i => ha (i + 1)) hz fun j hji => hj (j + 1) (by omega)
        exact ⟨fuel + 1, { r with accepted := outbuffer.take n ++ r.accepted },
        by rw [sender_accepts errno hne hsend hs, hr]; rfl, hexc⟩
      | fails e =>
        rw [hs] at hsend
        rcases hsend with rfl | rfl
        · exact ⟨1, _, sender_eagain errno hne hs, rfl⟩
        · exact absurd hs (hj 0 (by omega))

theorem delivers_iff {errno : Errno} (ha : ∀ i, Healthy (a i)) :
    Delivers a outbuffer errno ↔ StopsInTime a outbuffer.length errno := by
  constructor
  · rintro ⟨fuel, r, hr, _, hexc⟩
    exact stopsInTime_of_sender ha hr hexc
  · intro h
    have hreturns : ∃ fuel r, sender true fuel a outbuffer errno = some r ∧ r.excepted = false := by
      rcases h with ⟨i, hpos, hi⟩ | ⟨he, i, hz, hj⟩
      · exact sender_of_eagain i errno ha hpos hi
      · exact sender_of_zero he i ha hz hj
    obtain ⟨fuel, r, hr, hexc⟩ := hreturns
    exact ⟨fuel, r, hr, sender_accepted hr, hexc⟩

end CallLesson.Calculator
