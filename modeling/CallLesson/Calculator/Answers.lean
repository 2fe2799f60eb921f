import CallLesson.Calculator.Protocol

/-! # Answers of the calculator

    `my_string` and the loop of `calculate` in `lesson_IO/Reactor/main.cc`. The
    loop takes the packages from `inbuffer` and appends the answers to
    `outbuffer`. How a request is read and a response is written depends on the
    build: `MYSELF` selects the text codec, which the results on answers are about, and
    without it jsoncpp does both. -/

namespace CallLesson.Calculator

open Text Frames ExitCode Requse
open Frames (wire drain feed)

/-! ## Model -/

def myString (req : Requse) : Repose :=
  if req.op = 43 then ⟨0, req.x + req.y⟩
  else if req.op = 45 then ⟨0, req.x - req.y⟩
  else if req.op = 42 then ⟨0, req.x * req.y⟩
  else if req.op = 47 then
    if req.y = 0 then ⟨divZero.value, 0⟩ else ⟨0, req.x + req.y⟩
  else if req.op = 37 then
    if req.y = 0 then ⟨modZero.value, 0⟩ else ⟨0, req.x + req.y⟩
  else ⟨0, 0⟩

/-- What `calculate` may throw: an exception of `std::stoi` or one of jsoncpp. -/
inductive Thrown where
  | stoi (e : StoiError)
  | json
  deriving DecidableEq

/-- The compiled bodies of `Requse::deserialize` and `Repose::serialize`. -/
class Codec where
  deserialize : Bytes → Except Thrown (Option Requse)
  serialize : Repose → Bytes

@[reducible] def Codec.myself : Codec where
  deserialize s := (Requse.deserialize s).mapError .stoi
  serialize := Repose.serialize

section loop

variable [Codec]

def answer (onePackage : Bytes) : Except Thrown (Option Bytes) := do
  match ← (deLength onePackage).mapError .stoi with
  | none => return none
  | some reqStr =>
      match ← Codec.deserialize reqStr with
      | none => return none
      | some req => return some (enLength (Codec.serialize (myString req)))

inductive LoopEnd where
  | done
  | returned
  deriving DecidableEq

def calculateLoop (inbuffer outbuffer : Bytes) :
    Except (Frames.Stop Thrown) (LoopEnd × Bytes × Bytes) :=
  match parseOnePackage inbuffer with
  | .error e => .error (.threw (.stoi e))
  | .ok none => .ok (.done, inbuffer, outbuffer)
  | .ok (some (onePackage, rest)) =>
      match answer onePackage with
      | .error e => .error (.threw e)
      | .ok none => .ok (.returned, rest, outbuffer)
      | .ok (some bytes) =>
          if rest.length < inbuffer.length then calculateLoop rest (outbuffer ++ bytes)
          else .error .hangs
termination_by inbuffer.length

def calculateChunks (inbuffer outbuffer : Bytes) :
    List Bytes → Except (Frames.Stop Thrown) (Bytes × Bytes)
  | [] => .ok (inbuffer, outbuffer)
  | chunk :: chunks =>
      match calculateLoop (inbuffer ++ chunk) outbuffer with
      | .error e => .error e
      | .ok (_, inbuffer', outbuffer') => calculateChunks inbuffer' outbuffer' chunks

end loop

/-! ### What is expected of it -/

def cValue (req : Requse) : Option Int :=
  let x := req.x.toInt
  let y := req.y.toInt
  let fitted := fun z r : Int => if -2 ^ 31 ≤ z ∧ z < 2 ^ 31 then some r else none
  if req.op = 43 then fitted (x + y) (x + y)
  else if req.op = 45 then fitted (x - y) (x - y)
  else if req.op = 42 then fitted (x * y) (x * y)
  else if req.op = 47 then fitted (x.tdiv y) (x.tdiv y)
  else fitted (x.tdiv y) (x.tmod y)

def Correct (req : Requse) (rep : Repose) : Prop :=
  if req.op = 47 ∧ req.y = 0 then rep.exitcode = divZero.value
  else if req.op = 37 ∧ req.y = 0 then rep.exitcode = modZero.value
  else ∀ v, cValue req = some v → rep.exitcode = ok.value ∧ rep.result.toInt = v

def decode (package : Bytes) : Except StoiError (Option Repose) := do
  match ← deLength package with
  | none => return none
  | some text => Repose.deserialize text

def Answered (reqs : List Requse) (out : Bytes) : Prop :=
  ∃ reps : List Repose,
    (drain parseOnePackage out).1.map decode = reps.map (fun rep => .ok (some rep)) ∧
      (drain parseOnePackage out).2 = .ok [] ∧ List.Forall₂ Correct reqs reps

def requests (reqs : List Requse) : Bytes := wire enLength (reqs.map serialize)

def responses (reqs : List Requse) : Bytes :=
  wire enLength (reqs.map fun req => (myString req).serialize)

/-! ## The loop answers every request -/

open List

attribute [local instance] Codec.myself

theorem answer_request (req : Requse) :
    answer (enLength req.serialize) = .ok (some (enLength (myString req).serialize)) := by
  have hlen := req.length_serialize_le
  have hread : Codec.deserialize req.serialize = .ok (some req) := by
    simp only [Codec.deserialize, Requse.deserialize_serialize, Except.mapError]
  simp only [answer, deLength_enLength (show req.serialize.length < 2 ^ 31 by omega), hread,
    Codec.serialize, Except.mapError, bind, Except.bind, pure, Except.pure]

theorem decode_response (rep : Repose) : decode (enLength rep.serialize) = .ok (some rep) := by
  have hlen := rep.length_serialize_le
  simp only [decode, deLength_enLength (show rep.serialize.length < 2 ^ 31 by omega),
    Repose.deserialize_serialize, bind, Except.bind]

theorem responses_append (reqs reqs' : List Requse) :
    responses (reqs ++ reqs') = responses reqs ++ responses reqs' := by
  simp [responses, wire_append]

theorem calculateLoop_requests {left : Bytes} (hleft : parseOnePackage left = .ok none) :
    ∀ (reqs : List Requse) (outbuffer : Bytes),
      calculateLoop (requests reqs ++ left) outbuffer =
        .ok (.done, left, outbuffer ++ responses reqs)
  | [], outbuffer => by
    rw [calculateLoop]
    simp [requests, responses, hleft]
  | req :: reqs, outbuffer => by
    have ih := calculateLoop_requests hleft reqs (outbuffer ++ enLength (myString req).serialize)
    -- the first package is the frame of the first request
    have hframe := framing.whole req.serialize (requests reqs ++ left)
      (fits_of_length req.length_serialize_le)
    have hcons : requests (req :: reqs) ++ left =
        enLength req.serialize ++ (requests reqs ++ left) := by
      simp [requests]
    have hlt : (requests reqs ++ left).length <
        (enLength req.serialize ++ (requests reqs ++ left)).length := by
      have := length_pos_iff.mpr (framing.nonempty req.serialize)
      simp only [length_append]
      omega
    rw [hcons, calculateLoop, hframe]
    simp only [answer_request, if_pos hlt, ih]
    simp [responses]

theorem fits_requests (reqs : List Requse) : ∀ t ∈ reqs.map serialize, fits t = true := by
  intro t ht
  obtain ⟨req, _, rfl⟩ := mem_map.mp ht
  exact fits_of_length req.length_serialize_le

theorem calculateChunks_requests (reqs : List Requse) :
    ∀ (chunks : List Bytes) {s inbuffer : Bytes} (outbuffer : Bytes),
      Frames.Behind enLength fits (reqs.map serialize) s
        (taken enLength fits (reqs.map serialize) s) inbuffer →
      s ++ chunks.flatten = requests reqs →
      calculateChunks inbuffer outbuffer chunks =
        .ok ([], outbuffer ++ responses (reqs.drop (taken enLength fits (reqs.map serialize) s)))
  | [], s, inbuffer, outbuffer, hbuf, hs => by
    have hs' : s = requests reqs := by simpa using hs
    have hall : taken enLength fits (reqs.map serialize) s = reqs.length := by
      rw [taken, fitting_eq (fits_requests reqs),
        arrived_of_le _ _ (by rw [hs', requests]), length_map]
    have hempty : inbuffer = [] := by
      rw [Frames.Behind, fitting_eq (fits_requests reqs), hall, hs', requests,
        take_of_length_le (by simp)] at hbuf
      exact self_eq_append_right.mp hbuf
    simp [calculateChunks, hall, hempty, responses]
  | chunk :: chunks, s, inbuffer, outbuffer, hbuf, hs => by
    have hassoc : s ++ chunk ++ chunks.flatten = requests reqs := by simpa using hs
    have hpre : s ++ chunk <+: requests reqs := ⟨chunks.flatten, hassoc⟩
    have hle := taken_append enLength fits (reqs.map serialize) s chunk
    -- the chunk brings some whole requests and the beginning of the next one
    obtain ⟨left, hbehind, hbufc, hleft⟩ := hbuf.chunk framing hle hpre
    rcases hleft with hnone | ⟨_, ⟨t, ht, hfit⟩, _⟩
    · have ih := fun out => calculateChunks_requests reqs chunks out hbehind hassoc
      rw [fitting_eq (fits_requests reqs), between_map] at hbufc
      rw [calculateChunks, hbufc, ← requests, calculateLoop_requests hnone]
      simp only [ih]
      rw [append_assoc, ← responses_append, between_append_drop reqs hle]
    · simp [fits_requests reqs t ht] at hfit

/-! ## Which answers are right -/

theorem answered_responses (reqs : List Requse) :
    Answered reqs (responses reqs) ↔ ∀ req ∈ reqs, Correct req (myString req) := by
  -- a client drains the answers as frames
  have hdrain : drain parseOnePackage (responses reqs) =
      (reqs.map fun req => enLength (myString req).serialize, .ok []) := by
    have := drain_wire framing [] (reqs.map fun req => (myString req).serialize) (by
      intro t ht
      obtain ⟨req, _, rfl⟩ := mem_map.mp ht
      exact fits_of_length (myString req).length_serialize_le)
    simpa [responses, drain_of_none framing.empty, Function.comp_def] using this
  have hdecode : (reqs.map fun req => enLength (myString req).serialize).map decode =
      (reqs.map myString).map fun rep => .ok (some rep) := by
    simp [decode_response]
  have hsame : List.Forall₂ Correct reqs (reqs.map myString) ↔
      ∀ req ∈ reqs, Correct req (myString req) := by
    rw [forall₂_map_right_iff, forall₂_same]
  rw [Answered, hdrain]
  constructor
  · rintro ⟨reps, hreps, _, hcorrect⟩
    rw [hdecode] at hreps
    obtain rfl : reqs.map myString = reps :=
      map_injective_iff.mpr (fun _ _ h => by simpa using h) hreps
    exact hsame.mp hcorrect
  · intro hcorrect
    exact ⟨reqs.map myString, hdecode, rfl, hsame.mpr hcorrect⟩

def SumIsRight (req : Requse) : Prop :=
  req.op = 47 ∨ req.op = 37 → req.y = 0 ∨ ∀ v ∈ cValue req, (req.x + req.y).toInt = v

instance (req : Requse) : Decidable (SumIsRight req) := by
  unfold SumIsRight
  infer_instance

theorem correct_myString_iff {req : Requse} (hop : req.op ∈ [43, 45, 42, 47, 37]) :
    Correct req (myString req) ↔ SumIsRight req := by
  obtain ⟨x, y, op⟩ := req
  simp only [mem_cons, not_mem_nil, or_false] at hop
  -- the first three operations are exact where they do not overflow
  rcases hop with rfl | rfl | rfl | rfl | rfl
  · simp [Correct, myString, SumIsRight, cValue, value]
    intro hlo hhi
    exact Int.bmod_eq_of_le (by omega) (by omega)
  · simp [Correct, myString, SumIsRight, cValue, value]
    intro hlo hhi
    exact Int.bmod_eq_of_le (by omega) (by omega)
  · simp [Correct, myString, SumIsRight, cValue, value]
    intro hlo hhi
    exact Int.bmod_eq_of_le (by omega) (by omega)
  · by_cases hy : y = 0
    · simp [Correct, myString, SumIsRight, hy]
    · simp [Correct, myString, SumIsRight, hy, value]
  · by_cases hy : y = 0
    · simp [Correct, myString, SumIsRight, hy]
    · simp [Correct, myString, SumIsRight, hy, value]

theorem answered_iff {reqs : List Requse} {chunks : List Bytes}
    (hstream : chunks.flatten = requests reqs) :
    (∃ out, calculateChunks [] [] chunks = .ok ([], out) ∧ Answered reqs out) ↔
      ∀ req ∈ reqs, Correct req (myString req) := by
  have hnil := framing.taken_nil (reqs.map serialize)
  have hrun := calculateChunks_requests reqs chunks [] (framing.behind_nil _) hstream
  rw [hnil, drop_zero, nil_append] at hrun
  rw [hrun, ← answered_responses]
  simp

/-- **The calculator**: however a stream of requests is cut, the bytes that
    `calculate` appends decode to one right response for each request in order iff
    for every quotient and remainder the sum is right. -/
theorem answers_correct_iff {reqs : List Requse} {chunks : List Bytes}
    (hops : ∀ req ∈ reqs, req.op ∈ [43, 45, 42, 47, 37])
    (hstream : chunks.flatten = requests reqs) :
    (∃ out, calculateChunks [] [] chunks = .ok ([], out) ∧ Answered reqs out) ↔
      ∀ req ∈ reqs, SumIsRight req := by
  rw [answered_iff hstream]
  exact forall₂_congr fun req hreq => correct_myString_iff (hops req hreq)

/-- A sum, a remainder by zero and a quotient that the sum happens to be. -/
theorem answers_correct_three :
    ∃ out, calculateChunks [] [] [requests [⟨2, 3, 43⟩, ⟨7, 0, 37⟩, ⟨-4, 2, 47⟩]] = .ok ([], out) ∧
      Answered [⟨2, 3, 43⟩, ⟨7, 0, 37⟩, ⟨-4, 2, 47⟩] out :=
  (@answers_correct_iff [⟨2, 3, 43⟩, ⟨7, 0, 37⟩, ⟨-4, 2, 47⟩] _ (by decide) (by simp)).mpr
    (by decide)

/-- The quotient of 7 and 2 is answered by 9. -/
theorem quotient_is_wrong : ¬ ∃ out, calculateChunks [] [] [requests [⟨7, 2, 47⟩]] = .ok ([], out) ∧
      Answered [⟨7, 2, 47⟩] out := by
  rw [answered_iff (by simp)]
  intro h
  have := (correct_myString_iff (by decide)).mp (h ⟨7, 2, 47⟩ List.mem_cons_self)
  exact absurd this (by decide)

end CallLesson.Calculator
