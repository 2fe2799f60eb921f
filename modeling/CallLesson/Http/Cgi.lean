import CallLesson.Http.Response

/-! # The pipes to a program

    The parent in `process_cgi` of `my_Http/Protocol.hpp` after a successful `fork`:
    it writes to the standard input of the program, reads what the program writes,
    and waits for it. `body_text`, which it writes, is a reference to the
    `response_body` that it reads into. A step is a call of `write` or `read` with its
    result. -/

namespace CallLesson.Http

open Text List

/-! ## Model -/

inductive ParentPc where
  /-- About to call `write`, after some bytes have been written. -/
  | writing (total : Nat)
  /-- About to call `read`. -/
  | reading
  | waiting
  deriving DecidableEq

inductive ParentCall where
  | write (r : Result)
  | read (b : Option UInt8)
  deriving DecidableEq

structure Parent where
  pc : ParentPc
  /-- What the program has been sent. -/
  written : Bytes
  responseBody : Bytes
  deriving DecidableEq

namespace Parent

def writeAt (request : HttpRequest) (total : Nat) : ParentPc :=
  if (total : Int) < request.contentLength then .writing total else .reading

def writeCount (bodyText : Bytes) (total : Nat) : Nat := (bodyText.length + 2 ^ 64 - total) % 2 ^ 64

def possible (count : Nat) : Result → Bool
  | .accepts n => n ≤ count && (0 < n || count = 0)
  | .fails => true

def start (request : HttpRequest) (response : HttpResponse) : Parent where
  pc := if request.method = ascii "POST" then writeAt request 0 else .reading
  written := []
  responseBody := response.responseBody

def writeStep (request : HttpRequest) (s : Parent) (total : Nat) (r : Result) : Option Parent :=
  let bodyText := s.responseBody
  if possible (writeCount bodyText total) r then
    if 0 < r.count then
      some
        { s with
          pc := writeAt request (total + r.count)
          written := s.written ++ (bodyText.drop total).take r.count }
    else some { s with pc := .reading }
  else none

def readStep (s : Parent) : Option UInt8 → Parent
  | some b => { s with responseBody := s.responseBody ++ [b] }
  | none => { s with pc := .waiting }

def next (request : HttpRequest) (s : Parent) : ParentCall → Option Parent
  | .write r =>
      match s.pc with
      | .writing total => s.writeStep request total r
      | _ => none
  | .read b => if s.pc = .reading then some (s.readStep b) else none

def runs (request : HttpRequest) (response : HttpResponse) : System Parent ParentCall :=
  System.ofNext (start request response) (next request)

def Reads (s : Parent) : Prop := ∀ total, s.pc ≠ .writing total

end Parent

def ReceivesBody (request : HttpRequest) : Prop :=
  ∀ calls s, (Parent.runs request {}).Steps (Parent.start request {}) calls s → s.Reads →
    .write .fails ∉ calls → s.written = request.requestBody

/-! ## The loops -/

variable {calls : List ParentCall} {s : Parent}

namespace Parent

def output (calls : List ParentCall) : Bytes :=
  calls.filterMap fun
    | .read (some b) => some b
    | _ => none

structure Served (request : HttpRequest) (bodyText : Bytes) (calls : List ParentCall) (s : Parent) :
    Prop where
  responseBody : s.responseBody = bodyText ++ output calls
  writing : ∀ total, s.pc = .writing total →
    s.responseBody = bodyText ∧ total ≤ bodyText.length ∧ s.written = bodyText.take total
  reads : s.Reads → .write .fails ∉ calls → request.method = ascii "POST" →
    ∃ total ≤ bodyText.length, s.written = bodyText.take total ∧
      (request.contentLength ≤ total ∨ total = bodyText.length)

section Served

variable {request : HttpRequest} {bodyText : Bytes}

theorem writeCount_eq {total : Nat} (hle : total ≤ bodyText.length)
    (hlt : bodyText.length < 2 ^ 64) : writeCount bodyText total = bodyText.length - total := by
  unfold writeCount
  omega

theorem Served.writeAt {total : Nat} (hpc : s.pc = writeAt request total)
    (hbody : s.responseBody = bodyText) (houtput : output calls = [])
    (hle : total ≤ bodyText.length) (hwritten : s.written = bodyText.take total) :
    Served request bodyText calls s := by
  -- the loop goes on to write or, with enough bytes, to read
  refine ⟨by rw [hbody, houtput, append_nil], fun total' hpc' => ?_, fun hreads _ _ => ?_⟩
  · rw [hpc, Parent.writeAt] at hpc'
    split at hpc'
    · cases hpc'
      exact ⟨hbody, hle, hwritten⟩
    · cases hpc'
  · refine ⟨total, hle, hwritten, Or.inl ?_⟩
    by_contra hlt
    exact hreads total (hpc.trans (if_pos (Int.not_le.mp hlt)))

theorem Served.start (request : HttpRequest) (response : HttpResponse) :
    Served request response.responseBody [] (start request response) := by
  by_cases hmethod : request.method = ascii "POST"
  · exact .writeAt (if_pos hmethod) rfl rfl (Nat.zero_le _) rfl
  · refine ⟨(append_nil _).symm, fun total hpc => ?_, fun _ _ h => absurd h hmethod⟩
    rw [Parent.start, if_neg hmethod] at hpc
    cases hpc

theorem Served.writeStep (hlt : bodyText.length < 2 ^ 64) {s' : Parent} {total : Nat} {r : Result}
    (h : Served request bodyText calls s) (hpc : s.pc = .writing total)
    (hstep : s.writeStep request total r = some s') :
    Served request bodyText (calls ++ [.write r]) s' := by
  obtain ⟨hbody, hle, hwritten⟩ := h.writing total hpc
  have houtput : output (calls ++ [.write r]) = [] := by
    have hnone : output calls = [] := self_eq_append_right.mp (hbody.symm.trans h.responseBody)
    rw [output, filterMap_append, ← output, hnone]
    rfl
  simp only [Parent.writeStep, hbody, writeCount_eq hle hlt] at hstep
  split at hstep
  · next hpossible =>
    split at hstep
    · cases hstep
      have hcount : r.count ≤ bodyText.length - total := by
        cases r with
        | accepts n =>
          simp only [possible, Bool.and_eq_true, decide_eq_true_eq] at hpossible
          exact hpossible.1
        | fails => exact Nat.zero_le _
      refine .writeAt rfl rfl houtput (by omega) ?_
      rw [hwritten, take_add]
    · next hzero =>
      cases hstep
      refine ⟨by rw [houtput, append_nil], fun total' hpc' => (by cases hpc'), fun _ hfails _ => ?_⟩
      -- a call that accepts nothing was given nothing
      cases r with
      | accepts n =>
        simp only [Result.count] at hzero
        simp only [possible, hzero, Bool.and_eq_true, Bool.or_eq_true, decide_eq_true_eq,
          false_or] at hpossible
        exact ⟨total, hle, hwritten, Or.inr (by omega)⟩
      | fails => exact absurd (by simp) hfails
  · cases hstep

theorem Served.readStep (h : Served request bodyText calls s) (hpc : s.pc = .reading)
    (b : Option UInt8) : Served request bodyText (calls ++ [.read b]) (s.readStep b) := by
  have hreads : .write .fails ∉ calls ++ [.read b] → request.method = ascii "POST" → _ :=
    fun hfails => h.reads (fun total => by simp [hpc]) fun hmem => hfails (mem_append_left _ hmem)
  have houtput : output (calls ++ [.read b]) = output calls ++ b.toList := by
    rw [output, filterMap_append, ← output]
    cases b <;> rfl
  cases b with
  | some b =>
    refine ⟨?_, fun total hpc' => ?_, fun _ => hreads⟩
    · rw [houtput, Parent.readStep, h.responseBody, append_assoc]
      rfl
    · rw [Parent.readStep, hpc] at hpc'
      cases hpc'
  | none =>
    refine ⟨?_, fun total hpc' => (by cases hpc'), fun _ => hreads⟩
    rw [houtput, Parent.readStep, h.responseBody, Option.toList_none, append_nil]

theorem Served.next (hlt : bodyText.length < 2 ^ 64) {s' : Parent} {call : ParentCall}
    (h : Served request bodyText calls s) (hstep : next request s call = some s') :
    Served request bodyText (calls ++ [call]) s' := by
  -- each call is made at one place only
  cases call with
  | write r =>
    simp only [Parent.next] at hstep
    split at hstep
    · next hpc => exact h.writeStep hlt hpc hstep
    · cases hstep
  | read b =>
    simp only [Parent.next] at hstep
    split at hstep
    · next hpc =>
      cases hstep
      exact h.readStep hpc b
    · cases hstep

theorem Served.of_steps (response : HttpResponse) (hlt : response.responseBody.length < 2 ^ 64)
    (h : (runs request response).Steps (Parent.start request response) calls s) :
    Served request response.responseBody calls s :=
  h.preserves_history (Served request response.responseBody)
    (fun _ _ _ _ hs hstep => hs.next hlt hstep) [] (Served.start request response)

theorem Served.written_eq (h : Served request bodyText calls s)
    (hmethod : request.method = ascii "POST") (hlen : request.contentLength = bodyText.length)
    (hreads : s.Reads) (hfails : .write .fails ∉ calls) : s.written = bodyText := by
  obtain ⟨total, hle, hwritten, hend⟩ := h.reads hreads hfails hmethod
  rw [hwritten, take_of_length_le (by omega)]

end Served

end Parent

theorem processCgi_of_steps {request : HttpRequest} {run : CgiRun}
    (hpipes : run.pipeInput = true ∧ run.pipeOutput = true) (hfork : run.fork = true)
    (h : (Parent.runs request {}).Steps (Parent.start request {}) calls s)
    (houtput : Parent.output calls = run.output) : (processCgi run).2 = s.responseBody := by
  have hserved := Parent.Served.of_steps {} (Nat.two_pow_pos 64) h
  rw [hserved.responseBody, houtput]
  simp only [processCgi, hpipes.1, hpipes.2, hfork, Bool.not_true, Bool.false_eq_true, if_false]
  split_ifs <;> rfl

/-! ## What the program receives -/

section Body

variable {request : HttpRequest}

theorem not_receivesBody (hmethod : request.method = ascii "POST")
    (hlen : request.contentLength = request.requestBody.length) (hne : request.requestBody ≠ []) :
    ¬ ReceivesBody request := by
  intro h
  have hpos : 0 < request.requestBody.length := length_pos_iff.mpr hne
  have hstart : Parent.start request {} = ⟨.writing 0, [], []⟩ := by
    have hlt : ((0 : Nat) : Int) < request.contentLength := by omega
    rw [Parent.start, if_pos hmethod, Parent.writeAt, if_pos hlt]
  have hrun : (Parent.runs request {}).Steps (Parent.start request {}) [.write (.accepts 0)]
      ⟨.reading, [], []⟩ := by
    rw [hstart]
    exact .cons _ _ rfl (.nil _)
  have hnothing := h _ _ hrun (fun total hpc => by cases hpc) (by decide)
  exact hne hnothing.symm

/-- **The body of a POST request**: with any results of `write`, the program has been sent the
    whole body when the parent begins to read iff that is empty. -/
theorem receives_body_iff (hmethod : request.method = ascii "POST")
    (hlen : request.contentLength = request.requestBody.length) :
    ReceivesBody request ↔ request.requestBody = [] := by
  constructor
  · intro h
    by_contra hne
    exact not_receivesBody hmethod hlen hne h
  · intro hempty calls s hrun hreads hfails
    have hserved := Parent.Served.of_steps {} (Nat.two_pow_pos 64) hrun
    rw [hempty]
    exact hserved.written_eq hmethod (by rw [hlen, hempty]) hreads hfails

/-- A request without a body. -/
theorem receives_body_empty : ReceivesBody { method := ascii "POST" } :=
  (receives_body_iff rfl rfl).mpr rfl

/-- A request with three bytes. -/
theorem receives_body_lost :
    ¬ ReceivesBody { method := ascii "POST", contentLength := 3, requestBody := ascii "a=1" } :=
  not_receivesBody rfl (by decide) (by decide)

end Body

end CallLesson.Http
