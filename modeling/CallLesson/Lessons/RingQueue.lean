import CallLesson.Framework.System

/-! # The ring queue

    `Push` and `Pop` of `lesson7/RingQueue.hpp`, called by one producer and one consumer. In `_queue[productor_step++]=val`
    the index is incremented before the slot is written, as the increment belongs to the
    argument of `operator[]`.

    The slots are `int`s whatever the type of the values: a value is converted when it is
    pushed, and back when it is popped. -/

namespace CallLesson.Lessons

/-! ## Model -/

/-- The implicit conversions between the type of the values and `int`. -/
structure Conversion (τ : Type) where
  toInt : τ → Int32
  ofInt : Int32 → τ

def Conversion.int : Conversion Int32 where
  toInt := id
  ofInt := id

def Conversion.longLong : Conversion Int64 where
  toInt := Int64.toInt32
  ofInt := Int32.toInt64

/-- What `Pop` gives for a value that has been pushed. -/
def Conversion.stored {τ : Type} (c : Conversion τ) (val : τ) : τ := c.ofInt (c.toInt val)

inductive SidePc (α : Type) where
  | idle
  | wait (x : α)
  /-- About to take the index and increment it. -/
  | index (x : α)
  /-- About to access the slot. -/
  | access (i : Nat) (x : α)
  /-- About to reduce the index. -/
  | wrap
  | post
  deriving DecidableEq

structure RingQueue (τ : Type) where
  queue : List Int32
  spaceSem : Nat
  dataSem : Nat
  productorStep : Nat
  consumerStep : Nat
  producer : SidePc τ
  consumer : SidePc Unit
  /-- The values that have been written, and those that have been read. -/
  pushed : List τ
  popped : List τ
  /-- The slots that hold a value that has not been read. -/
  unread : Nat → Bool
  /-- A slot outside of the queue has been accessed. -/
  outOfRange : Bool
  /-- A slot with a value that had not been read has been written. -/
  overwritten : Bool

inductive RingStep (τ : Type) where
  | push (val : τ)
  | pop
  | producer
  | consumer
  deriving DecidableEq

namespace RingQueue

variable {cap : Nat} {τ : Type} {c : Conversion τ}

def start (cap : Nat) (τ : Type) : RingQueue τ where
  queue := List.replicate cap 0
  spaceSem := cap
  dataSem := 0
  productorStep := 0
  consumerStep := 0
  producer := .idle
  consumer := .idle
  pushed := []
  popped := []
  unread := fun _ => false
  outOfRange := false
  overwritten := false

def write (c : Conversion τ) (s : RingQueue τ) (i : Nat) (val : τ) : RingQueue τ :=
  { s with
    queue := s.queue.set i (c.toInt val)
    producer := .wrap
    pushed := s.pushed ++ [val]
    unread := Function.update s.unread i true
    outOfRange := s.outOfRange || decide (s.queue.length ≤ i)
    overwritten := s.overwritten || s.unread i }

def read (c : Conversion τ) (s : RingQueue τ) (i : Nat) : RingQueue τ :=
  match s.queue[i]? with
  | none => { s with consumer := .wrap, outOfRange := true }
  | some slot =>
      { s with
        consumer := .wrap
        popped := s.popped ++ [c.ofInt slot]
        unread := Function.update s.unread i false }

def pushStep (c : Conversion τ) (cap : Nat) (s : RingQueue τ) : Option (RingQueue τ) :=
  match s.producer with
  | .idle => none
  | .wait val =>
      if 0 < s.spaceSem then
        some { s with spaceSem := s.spaceSem - 1, producer := .index val }
      else none
  | .index val =>
      some { s with
        productorStep := s.productorStep + 1, producer := .access s.productorStep val }
  | .access i val => some (s.write c i val)
  | .wrap => some { s with productorStep := s.productorStep % cap, producer := .post }
  | .post => some { s with dataSem := s.dataSem + 1, producer := .idle }

def popStep (c : Conversion τ) (cap : Nat) (s : RingQueue τ) : Option (RingQueue τ) :=
  match s.consumer with
  | .idle => none
  | .wait _ =>
      if 0 < s.dataSem then
        some { s with dataSem := s.dataSem - 1, consumer := .index () }
      else none
  | .index _ =>
      some { s with
        consumerStep := s.consumerStep + 1, consumer := .access s.consumerStep () }
  | .access i _ => some (s.read c i)
  | .wrap => some { s with consumerStep := s.consumerStep % cap, consumer := .post }
  | .post => some { s with spaceSem := s.spaceSem + 1, consumer := .idle }

def next (c : Conversion τ) (cap : Nat) (s : RingQueue τ) : RingStep τ → Option (RingQueue τ)
  | .push val =>
      match s.producer with
      | .idle => some { s with producer := .wait val }
      | _ => none
  | .pop =>
      match s.consumer with
      | .idle => some { s with consumer := .wait () }
      | _ => none
  | .producer => s.pushStep c cap
  | .consumer => s.popStep c cap

def runs (c : Conversion τ) (cap : Nat) : System (RingQueue τ) (RingStep τ) :=
  System.ofNext (start cap τ) (next c cap)

end RingQueue

/-! ## The two sides -/

open List SidePc

namespace SidePc

variable {α : Type}

def taken : SidePc α → Nat
  | .index _ => 1
  | .access _ _ => 1
  | _ => 0

def owed : SidePc α → Nat
  | .wrap => 1
  | .post => 1
  | _ => 0

def Cursor (cap count step : Nat) : SidePc α → Prop
  | .access i _ => i = count % cap ∧ step = count % cap + 1
  | .wrap => ∃ before, count = before + 1 ∧ step = before % cap + 1
  | _ => step = count % cap

theorem Cursor.wraps {cap count step : Nat} (h : Cursor cap count step (.wrap : SidePc α)) :
    Cursor cap count (step % cap) (.post : SidePc α) := by
  obtain ⟨before, rfl, rfl⟩ := h
  show (before % cap + 1) % cap = (before + 1) % cap
  rw [Nat.mod_add_mod]

end SidePc

namespace RingQueue

variable {cap : Nat} {τ : Type} {c : Conversion τ}

structure RingOk (c : Conversion τ) (cap : Nat) (s : RingQueue τ) : Prop where
  length : s.queue.length = cap
  producer : s.producer.Cursor cap s.pushed.length s.productorStep
  consumer : s.consumer.Cursor cap s.popped.length s.consumerStep
  space : s.spaceSem + s.producer.taken + s.pushed.length + s.consumer.owed = cap + s.popped.length
  data : s.popped.length + s.consumer.taken + s.dataSem + s.producer.owed = s.pushed.length
  slots : ∀ j (hj : j < s.pushed.length), s.popped.length ≤ j →
    s.queue[j % cap]? = some (c.toInt s.pushed[j])
  unread : ∀ i, s.unread i = true → ∃ j, s.popped.length ≤ j ∧ j < s.pushed.length ∧ j % cap = i
  values : s.popped <+: s.pushed.map c.stored
  inRange : s.outOfRange = false
  kept : s.overwritten = false

theorem mod_ne_mod {lo j k : Nat} (hlo : lo ≤ j) (hjk : j < k) (hk : k < lo + cap) :
    j % cap ≠ k % cap := by
  intro heq
  have hdvd : cap ∣ k - j := (Nat.modEq_iff_dvd' hjk.le).mp heq
  have := Nat.le_of_dvd (by omega) hdvd
  omega

variable {s s' : RingQueue τ}

namespace RingOk

theorem start (c : Conversion τ) (cap : Nat) : RingOk c cap (start cap τ) where
  length := length_replicate
  producer := (Nat.zero_mod cap).symm
  consumer := (Nat.zero_mod cap).symm
  space := by simp [RingQueue.start, taken, owed]
  data := rfl
  slots j hj := absurd hj (Nat.not_lt_zero j)
  unread i hi := by cases hi
  values := nil_prefix
  inRange := rfl
  kept := rfl

section

variable (h : RingOk c cap s)

include h

theorem free_slot (htaken : s.producer.taken = 1) : s.unread (s.pushed.length % cap) = false := by
  have hspace := h.space
  rw [Bool.eq_false_iff]
  intro hunread
  obtain ⟨j, hlo, hj, hmod⟩ := h.unread _ hunread
  exact mod_ne_mod hlo hj (by omega) hmod

theorem writes (hcap : 1 ≤ cap) {i : Nat} {val : τ} (hpc : s.producer = .access i val) :
    RingOk c cap (s.write c i val) := by
  have htaken : s.producer.taken = 1 := by rw [hpc]; rfl
  have howed : s.producer.owed = 0 := by rw [hpc]; rfl
  have hspace := h.space
  have hdata := h.data
  have hcursor := h.producer
  rw [hpc] at hcursor
  obtain ⟨hi, hstep⟩ := hcursor
  have hlt : i < s.queue.length := by
    rw [h.length, hi]
    exact Nat.mod_lt _ hcap
  exact {
    length := by
      rw [← h.length]
      exact length_set
    producer := ⟨s.pushed.length, by simp [write], hstep⟩
    consumer := h.consumer
    space := by
      simp only [write, taken, length_append, length_singleton]
      omega
    data := by
      simp only [write, owed, length_append, length_singleton]
      omega
    slots := by
      intro j hj hlo
      simp only [write, length_append, length_singleton] at hj hlo ⊢
      by_cases hnew : j = s.pushed.length
      · subst hnew
        rw [← hi, getElem?_set_self hlt]
        simp
      · -- an older value that is still to be read is in another slot
        have hold : j < s.pushed.length := by omega
        have hne : i ≠ j % cap := by
          rw [hi]
          exact (mod_ne_mod hlo hold (by omega)).symm
        rw [getElem?_set_ne hne, h.slots j hold hlo, getElem_append_left hold]
    unread := by
      intro k hk
      simp only [write, length_append, length_singleton] at hk ⊢
      by_cases hki : k = i
      · exact ⟨s.pushed.length, by omega, by omega, by rw [hki, hi]⟩
      · rw [Function.update_of_ne hki] at hk
        obtain ⟨j, hlo, hj, hmod⟩ := h.unread k hk
        exact ⟨j, hlo, by omega, hmod⟩
    values := by
      simp only [write, map_append]
      exact h.values.trans (prefix_append _ _)
    inRange := by simp [write, h.inRange, hlt]
    kept := by
      simp only [write, h.kept, hi]
      simp [h.free_slot htaken] }

theorem reads {i : Nat} {u : Unit} (hpc : s.consumer = .access i u) :
    RingOk c cap (s.read c i) := by
  have htaken : s.consumer.taken = 1 := by rw [hpc]; rfl
  have howed : s.consumer.owed = 0 := by rw [hpc]; rfl
  have hspace := h.space
  have hdata := h.data
  have hcursor := h.consumer
  rw [hpc] at hcursor
  obtain ⟨hi, hstep⟩ := hcursor
  -- the semaphore has let the consumer through, so a value is there
  have hlt : s.popped.length < s.pushed.length := by omega
  have hslot : s.queue[i]? = some (c.toInt s.pushed[s.popped.length]) := by
    rw [hi]
    exact h.slots _ hlt le_rfl
  have hvalues : s.popped ++ [c.stored s.pushed[s.popped.length]] <+: s.pushed.map c.stored := by
    have htake := prefix_iff_eq_take.mp h.values
    have hmap : s.popped.length < (s.pushed.map c.stored).length := by simpa using hlt
    have : s.popped ++ [c.stored s.pushed[s.popped.length]] =
        (s.pushed.map c.stored).take (s.popped.length + 1) := by
      rw [take_succ_eq_append_getElem hmap, ← htake, getElem_map]
    rw [this]
    exact take_prefix _ _
  simp only [read, hslot]
  exact {
    length := h.length
    producer := h.producer
    consumer := ⟨s.popped.length, by simp, hstep⟩
    space := by
      simp only [owed, length_append, length_singleton]
      omega
    data := by
      simp only [taken, length_append, length_singleton]
      omega
    slots := by
      intro j hj hlo
      simp only [length_append, length_singleton] at hlo
      exact h.slots j hj (by omega)
    unread := by
      intro k hk
      simp only [length_append, length_singleton] at hk ⊢
      by_cases hki : k = i
      · simp [hki] at hk
      · rw [Function.update_of_ne hki] at hk
        obtain ⟨j, hlo, hj, hmod⟩ := h.unread k hk
        have hne : j ≠ s.popped.length := by
          intro hjlo
          rw [hjlo, ← hi] at hmod
          exact hki hmod.symm
        exact ⟨j, by omega, hj, hmod⟩
    values := hvalues
    inRange := h.inRange
    kept := h.kept }

theorem pushStep (hcap : 1 ≤ cap) (hs : s.pushStep c cap = some s') : RingOk c cap s' := by
  have hspace := h.space
  have hdata := h.data
  have hcursor := h.producer
  unfold RingQueue.pushStep at hs
  split at hs
  · cases hs
  · next val hpc =>
    rw [hpc] at hspace hdata hcursor
    split at hs
    · cases hs
      refine { h with producer := hcursor, space := ?_, data := hdata }
      simp only [taken] at hspace ⊢
      omega
    · cases hs
  · next val hpc =>
    rw [hpc] at hspace hdata hcursor
    cases hs
    exact { h with
      producer := ⟨hcursor, congrArg Nat.succ hcursor⟩, space := hspace, data := hdata }
  · next i val hpc =>
    cases hs
    exact h.writes hcap hpc
  · next hpc =>
    rw [hpc] at hspace hdata hcursor
    cases hs
    exact { h with producer := hcursor.wraps, space := hspace, data := hdata }
  · next hpc =>
    rw [hpc] at hspace hdata hcursor
    cases hs
    refine { h with producer := hcursor, space := hspace, data := ?_ }
    simp only [owed] at hdata ⊢
    omega

theorem popStep (hs : s.popStep c cap = some s') : RingOk c cap s' := by
  have hspace := h.space
  have hdata := h.data
  have hcursor := h.consumer
  unfold RingQueue.popStep at hs
  split at hs
  · cases hs
  · next hpc =>
    rw [hpc] at hspace hdata hcursor
    split at hs
    · cases hs
      refine { h with consumer := hcursor, space := hspace, data := ?_ }
      simp only [taken] at hdata ⊢
      omega
    · cases hs
  · next hpc =>
    rw [hpc] at hspace hdata hcursor
    cases hs
    exact { h with
      consumer := ⟨hcursor, congrArg Nat.succ hcursor⟩, space := hspace, data := hdata }
  · next hpc =>
    cases hs
    exact h.reads hpc
  · next hpc =>
    rw [hpc] at hspace hdata hcursor
    cases hs
    exact { h with consumer := hcursor.wraps, space := hspace, data := hdata }
  · next hpc =>
    rw [hpc] at hspace hdata hcursor
    cases hs
    refine { h with consumer := hcursor, space := ?_, data := hdata }
    simp only [owed] at hspace ⊢
    omega

theorem next (hcap : 1 ≤ cap) {l : RingStep τ} (hs : s.next c cap l = some s') :
    RingOk c cap s' := by
  have hspace := h.space
  have hdata := h.data
  cases l with
  | push val =>
    simp only [RingQueue.next] at hs
    split at hs
    · next hpc =>
      have hcursor := h.producer
      rw [hpc] at hspace hdata hcursor
      cases hs
      exact { h with producer := hcursor, space := hspace, data := hdata }
    · cases hs
  | pop =>
    simp only [RingQueue.next] at hs
    split at hs
    · next hpc =>
      have hcursor := h.consumer
      rw [hpc] at hspace hdata hcursor
      cases hs
      exact { h with consumer := hcursor, space := hspace, data := hdata }
    · cases hs
  | producer => exact h.pushStep hcap hs
  | consumer => exact h.popStep hs

end

theorem of_reachable (hcap : 1 ≤ cap) (h : (runs c cap).Reachable s) : RingOk c cap s := by
  refine System.invariant (RingOk c cap) ?_ ?_ s h
  · intro s0 h0
    cases h0
    exact RingOk.start c cap
  · exact fun s l s' hs hstep => hs.next hcap hstep

end RingOk

theorem exists_popped_stored (hcap : 1 ≤ cap) (val : τ) :
    ∃ s, (runs c cap).Reachable s ∧ s.pushed = [val] ∧ s.popped = [c.stored val] := by
  obtain ⟨k, rfl⟩ : ∃ k, cap = k + 1 := ⟨cap - 1, by omega⟩
  refine ⟨_, ⟨_, [.push val, .producer, .producer, .producer, .producer, .producer,
    .pop, .consumer, .consumer, .consumer], rfl, System.steps_of_run rfl⟩, rfl, rfl⟩

theorem RingOk.popped_pushed (hok : RingOk c cap s)
    (hstored : ∀ val ∈ s.pushed, c.stored val = val) : s.popped <+: s.pushed := by
  have hid : s.pushed.map c.stored = s.pushed := by
    rw [map_congr_left hstored, map_id']
  exact hid ▸ hok.values

theorem popped_prefix_iff (hcap : 1 ≤ cap) :
    (∀ s, (runs c cap).Reachable s → s.popped <+: s.pushed) ↔ ∀ val, c.stored val = val := by
  constructor
  · intro hall val
    obtain ⟨s, hreach, hpushed, hpopped⟩ := exists_popped_stored hcap val
    have := hall s hreach
    rw [hpushed, hpopped] at this
    exact (cons_prefix_cons.mp this).1
  · intro hstored s hreach
    exact (RingOk.of_reachable hcap hreach).popped_pushed fun val _ => hstored val

/-- **The ring queue**: in every interleaving of one producer and one consumer the values
    popped are the first ones of those pushed, if each of these is the same after a
    conversion to `int` and back; the slots accessed are slots of the queue, and none is
    written that holds a value not yet popped. -/
theorem ring_queue_fifo (hcap : 1 ≤ cap) (h : (runs c cap).Reachable s)
    (hstored : ∀ val ∈ s.pushed, c.stored val = val) :
    s.popped <+: s.pushed ∧ s.outOfRange = false ∧ s.overwritten = false := by
  have hok := RingOk.of_reachable hcap h
  exact ⟨hok.popped_pushed hstored, hok.inRange, hok.kept⟩

/-- A queue of two slots: the third value is written to the first slot again, while the
    consumer is in its second call. -/
theorem ring_queue_fifo_two :
    ∃ s : RingQueue Int32, (runs Conversion.int 2).Reachable s ∧ s.pushed = [7, 8, 9] ∧
      s.popped = [7, 8] ∧ s.popped <+: s.pushed ∧ s.overwritten = false := by
  obtain ⟨s, hrun, hs⟩ := Option.map_eq_some_iff.mp
    (show (System.run (next Conversion.int 2) (start 2 Int32)
        [.push 7, .pop, .producer, .producer, .producer, .producer, .producer,
          .push 8, .producer, .producer, .consumer, .consumer, .consumer, .consumer, .producer,
          .producer, .producer, .consumer, .push 9, .pop, .producer, .consumer, .consumer,
          .consumer, .producer, .producer]).map
        (fun s => (s.pushed, s.popped)) = some ([7, 8, 9], [7, 8]) by decide +kernel)
  have hreach : (runs Conversion.int 2).Reachable s := ⟨_, _, rfl, System.steps_of_run hrun⟩
  simp only [Prod.mk.injEq] at hs
  have hok := ring_queue_fifo (by decide) hreach fun _ _ => rfl
  exact ⟨s, hreach, hs.1, hs.2, hok.1, hok.2.2⟩

/-- A `ring_queue<long long>`: 2^32 + 7 is pushed, and 7 is popped. -/
theorem ring_queue_narrows :
    ∃ s, (runs Conversion.longLong 1).Reachable s ∧ s.pushed = [4294967303] ∧ s.popped = [7] ∧
      ¬ s.popped <+: s.pushed := by
  obtain ⟨s, hreach, hpushed, hpopped⟩ :=
    exists_popped_stored (by decide : 1 ≤ 1) (4294967303 : Int64) (c := Conversion.longLong)
  have hpopped : s.popped = [7] := hpopped
  exact ⟨s, hreach, hpushed, hpopped, by rw [hpushed, hpopped]; decide⟩

end RingQueue

end CallLesson.Lessons
