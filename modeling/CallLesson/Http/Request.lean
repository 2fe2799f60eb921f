import CallLesson.Framework.Text
import CallLesson.Framework.Dict

/-! # Reading an HTTP request

    `Util::ReadLine` and the part of `EndPoint` in `my_Http/Protocol.hpp` that
    receives a request and parses it. A socket is the bytes that are still to be
    received from it; `recv` takes one of them, and when there are none left the
    peer has closed the connection or `recv` fails. -/

namespace CallLesson.Http

open Text

/-! ## Model -/

def cr : UInt8 := 13

def lf : UInt8 := 10

inductive StreamEnd where
  | closed
  | failed
  deriving DecidableEq

def toInt (n : Nat) : Int := (n : Int).bmod (2 ^ 32)

def skipLf : Bytes → Bytes
  | [] => []
  | b :: bs => if b = lf then bs else b :: bs

def readLine (atEnd : StreamEnd) : Bytes → Bytes → Int × Bytes × Bytes
  | [], out =>
      match atEnd with
      | .closed => (toInt out.length, out, [])
      | .failed => (-1, out, [])
  | b :: bs, out =>
      -- whatever follows a carriage return, `ch` is a line feed then and ends the loop
      if b = cr then (toInt (out ++ [lf]).length, out ++ [lf], skipLf bs)
      else if b = lf then (toInt (out ++ [b]).length, out ++ [b], bs)
      else readLine atEnd bs (out ++ [b])

def cutString (target op : Bytes) : Option (Bytes × Bytes) :=
  (find op target).map fun pos => (target.take pos, target.drop (pos + op.length))

structure HttpRequest where
  requestLine : Bytes := []
  requestHeader : List Bytes := []
  blank : Bytes := []
  requestBody : Bytes := []
  method : Bytes := []
  uri : Bytes := []
  version : Bytes := []
  path : Bytes := []
  suffix : Bytes := []
  queryString : Bytes := []
  headerKv : Dict Bytes Bytes := Dict.empty
  contentLength : Int := 0
  cgi : Bool := false
  size : Int := 0

structure EndPoint where
  /-- The bytes that are still to be received. -/
  bytes : Bytes
  request : HttpRequest := {}
  stop : Bool := false

open List

namespace EndPoint

theorem readLine_rest_lt (atEnd : StreamEnd) :
    ∀ (bytes out : Bytes), bytes ≠ [] → (readLine atEnd bytes out).2.2.length < bytes.length := by
  intro bytes
  induction bytes with
  | nil =>
    intro out h
    exact absurd rfl h
  | cons b bs ih =>
    intro out _
    have hskip : (skipLf bs).length ≤ bs.length := by
      unfold skipLf
      split
      · simp
      · split <;> simp
    unfold readLine
    split
    · simp only [length_cons]
      omega
    · split
      · simp
      · cases bs with
        | nil => cases atEnd <;> simp [readLine]
        | cons b' bs => exact Nat.lt_succ_of_lt (ih _ (by simp))

theorem readLine_nil_le (atEnd : StreamEnd) : (readLine atEnd [] []).1 ≤ 0 := by
  cases atEnd <;> decide

section Receiving

variable (atEnd : StreamEnd)

def recvHttpRequestLine (e : EndPoint) : EndPoint :=
  let r := readLine atEnd e.bytes e.request.requestLine
  if 0 < r.1 then
    { e with bytes := r.2.2, request := { e.request with requestLine := r.2.1.dropLast } }
  else { bytes := r.2.2, request := { e.request with requestLine := r.2.1 }, stop := true }

def recvHttpRequestHeader (e : EndPoint) : EndPoint :=
  let r := readLine atEnd e.bytes []
  if _h : r.1 ≤ 0 then { e with bytes := r.2.2, stop := true }
  else if r.2.1 = [lf] then
    { e with bytes := r.2.2, request := { e.request with blank := r.2.1 } }
  else
    recvHttpRequestHeader
      { e with
        bytes := r.2.2
        request := { e.request with requestHeader := e.request.requestHeader ++ [r.2.1.dropLast] } }
termination_by e.bytes.length
decreasing_by
  refine readLine_rest_lt atEnd e.bytes [] fun hempty => _h ?_
  rw [show r = readLine atEnd e.bytes [] from rfl, hempty]
  exact readLine_nil_le atEnd

def methodOf (requestLine : Bytes) : Bytes := (word requestLine).1.map toUpper

def paresHttpRequestLine (e : EndPoint) : EndPoint :=
  let afterMethod := (word e.request.requestLine).2
  let afterUri := (word afterMethod).2
  { e with
    request :=
      { e.request with
        method := methodOf e.request.requestLine
        uri := (word afterMethod).1
        version := (word afterUri).1 } }

def paresHttpRequestHeader (e : EndPoint) : EndPoint :=
  { e with
    request :=
      { e.request with
        headerKv := e.request.requestHeader.foldl
          (fun kv line =>
            match cutString line (ascii ": ") with
            | some (key, val) => kv.assign key val
            | none => kv)
          e.request.headerKv } }

def isneddRecvHttpRequestBody (e : EndPoint) : Bool × EndPoint :=
  if e.request.method = ascii "POST" then
    match e.request.headerKv (ascii "Content-Length") with
    | some val => (true, { e with request := { e.request with contentLength := atoi val } })
    | none => (false, e)
  else (false, e)

def bodyLoop : Int → Bytes → Bytes → Bytes × Bytes × Bool
  -- a length below 0 is counted down further, as long as there are bytes
  | contentLength, [], body => (body, [], contentLength ≠ 0)
  | contentLength, b :: bs, body =>
      if contentLength = 0 then (body, b :: bs, false)
      else bodyLoop (contentLength - 1) bs (body ++ [b])

def recvHttpRequestBody (e : EndPoint) : EndPoint :=
  let (need, e) := e.isneddRecvHttpRequestBody
  if need then
    let r := bodyLoop e.request.contentLength e.bytes e.request.requestBody
    { bytes := r.2.1, request := { e.request with requestBody := r.1 }, stop := e.stop || r.2.2 }
  else e

def recvHttpRequest (e : EndPoint) : EndPoint :=
  let e := e.recvHttpRequestLine atEnd
  if e.stop then e
  else
    let e := e.recvHttpRequestHeader atEnd
    if e.stop then e
    else e.paresHttpRequestLine.paresHttpRequestHeader.recvHttpRequestBody

end Receiving

/-! ## Requests in lines -/

inductive Terminator where
  | crlf
  | lf
  | cr
  deriving DecidableEq

def Terminator.bytes : Terminator → Bytes
  | .crlf => [Http.cr, Http.lf]
  | .lf => [Http.lf]
  | .cr => [Http.cr]

def Terminator.EndsBefore (t : Terminator) (rest : Bytes) : Prop :=
  t = .cr → rest.head? ≠ some Http.lf

def OneLine (line : Bytes) : Prop := Http.cr ∉ line ∧ Http.lf ∉ line

def encodeLines (t : Terminator) (lines : List Bytes) : Bytes := lines.flatMap (· ++ t.bytes)

def encode (t : Terminator) (line : Bytes) (headers : List Bytes) (body : Bytes) : Bytes :=
  encodeLines t (line :: headers) ++ (t.bytes ++ body)

def Fits (line : Bytes) : Prop :=
  1 ≤ (line.length + 1) % 2 ^ 32 ∧ (line.length + 1) % 2 ^ 32 < 2 ^ 31

instance (line : Bytes) : Decidable (Fits line) := inferInstanceAs (Decidable (_ ∧ _))

theorem fits_iff (line : Bytes) : Fits line ↔ 0 < toInt (line.length + 1) := by
  unfold Fits toInt
  rw [Int.bmod_def]
  split <;> omega

/-! ### One line -/

variable {line rest : Bytes}

theorem readLine_append (hline : OneLine line) (atEnd : StreamEnd) (rest : Bytes) :
    ∀ out, readLine atEnd (line ++ rest) out = readLine atEnd rest (out ++ line) := by
  induction line with
  | nil =>
    intro out
    simp
  | cons b line ih =>
    intro out
    obtain ⟨hcr, hlf⟩ := hline
    have hb : b ≠ cr ∧ b ≠ lf :=
      ⟨fun h => hcr (h ▸ mem_cons_self), fun h => hlf (h ▸ mem_cons_self)⟩
    rw [cons_append, readLine, if_neg hb.1, if_neg hb.2,
      ih ⟨fun h => hcr (mem_cons_of_mem b h), fun h => hlf (mem_cons_of_mem b h)⟩,
      append_assoc, singleton_append]

variable {t : Terminator}

theorem readLine_terminator (ht : t.EndsBefore rest) (atEnd : StreamEnd) (out : Bytes) :
    readLine atEnd (t.bytes ++ rest) out = (toInt (out ++ [lf]).length, out ++ [lf], rest) := by
  have hne : lf ≠ cr := by decide
  cases t with
  | crlf => simp [Terminator.bytes, readLine, skipLf]
  | lf => simp [Terminator.bytes, readLine, hne]
  | cr =>
    -- the byte that is looked at stays
    have hskip : skipLf rest = rest := by
      cases rest with
      | nil => rfl
      | cons b bs => exact if_neg fun h => ht rfl (congrArg some h)
    simp [Terminator.bytes, readLine, hskip]

theorem readLine_line (hline : OneLine line) (ht : t.EndsBefore rest) (atEnd : StreamEnd) :
    readLine atEnd (line ++ (t.bytes ++ rest)) [] =
      (toInt (line.length + 1), line ++ [lf], rest) := by
  rw [readLine_append hline, readLine_terminator ht]
  simp

theorem endsBefore_line (hline : OneLine line) (t : Terminator) (rest : Bytes) :
    t.EndsBefore (line ++ (t.bytes ++ rest)) := by
  rintro rfl
  cases line with
  | nil => exact fun h => absurd (Option.some_inj.mp h) (by decide)
  | cons b line => exact fun h => hline.2 (Option.some_inj.mp h ▸ mem_cons_self)

/-! ### All lines -/

theorem encodeLines_cons (t : Terminator) (line : Bytes) (lines : List Bytes) (rest : Bytes) :
    encodeLines t (line :: lines) ++ rest = line ++ (t.bytes ++ (encodeLines t lines ++ rest)) := by
  simp [encodeLines]

theorem endsBefore_headers {headers : List Bytes} (h : ∀ line ∈ headers, OneLine line)
    (t : Terminator) (body : Bytes) :
    t.EndsBefore (encodeLines t headers ++ (t.bytes ++ body)) := by
  cases headers with
  | nil =>
    have hempty : OneLine [] := ⟨by simp, by simp⟩
    exact endsBefore_line hempty t body
  | cons line headers =>
    rw [encodeLines_cons]
    exact endsBefore_line (h line mem_cons_self) t _

theorem recvHttpRequestHeader_lines (atEnd : StreamEnd) {body : Bytes}
    (hbody : t.EndsBefore body) {headers : List Bytes}
    (h : ∀ line ∈ headers, OneLine line ∧ line ≠ []) :
    ∀ e : EndPoint, e.bytes = encodeLines t headers ++ (t.bytes ++ body) → e.stop = false →
      let e' := e.recvHttpRequestHeader atEnd
      e'.request =
        { e.request with
          requestHeader := e.request.requestHeader ++ headers.takeWhile (Fits ·)
          blank := if ∀ line ∈ headers, Fits line then [lf] else e.request.blank } ∧
      (e'.stop = false ↔ ∀ line ∈ headers, Fits line) ∧
      (e'.stop = false → e'.bytes = body) := by
  induction headers with
  | nil =>
    intro e hbytes hstop
    have hread : readLine atEnd e.bytes [] = (1, [lf], body) := by
      rw [hbytes]
      exact readLine_terminator hbody atEnd []
    unfold recvHttpRequestHeader
    simp [hread, hstop]
  | cons line headers ih =>
    intro e hbytes hstop
    obtain ⟨hline, hne⟩ := h line mem_cons_self
    have hrest := fun l hl => h l (mem_cons_of_mem line hl)
    have hread : readLine atEnd e.bytes [] =
        (toInt (line.length + 1), line ++ [lf], encodeLines t headers ++ (t.bytes ++ body)) := by
      rw [hbytes, encodeLines_cons]
      exact readLine_line hline (endsBefore_headers (fun l hl => (hrest l hl).1) t body) atEnd
    unfold recvHttpRequestHeader
    by_cases hfits : Fits line
    · have hpos : ¬ toInt (line.length + 1) ≤ 0 := not_le.mpr ((fits_iff line).mp hfits)
      -- a header line is not taken for the blank one
      have hblank : line ++ [lf] ≠ [lf] := by simpa using hne
      simp only [hread, hpos, dif_neg, not_false_eq_true, hblank, if_false, dropLast_concat]
      have := ih hrest
        { e with
          bytes := encodeLines t headers ++ (t.bytes ++ body)
          request := { e.request with requestHeader := e.request.requestHeader ++ [line] } } rfl hstop
      simpa [hfits] using this
    · -- the length is taken for an error of `recv`
      have hpos : toInt (line.length + 1) ≤ 0 := not_lt.mp fun h => hfits ((fits_iff line).mpr h)
      simp [hread, hpos, hfits]

/-! ### The fields -/

theorem bodyLoop_take : ∀ {bytes : Bytes} {k : Nat} (out : Bytes), k ≤ bytes.length →
    bodyLoop k bytes out = (out ++ bytes.take k, bytes.drop k, false) := by
  intro bytes
  induction bytes with
  | nil =>
    intro k out hk
    obtain rfl : k = 0 := Nat.le_zero.mp hk
    simp [bodyLoop]
  | cons b bs ih =>
    intro k out hk
    cases k with
    | zero => simp [bodyLoop]
    | succ k =>
      have hne : ((k + 1 : Nat) : Int) ≠ 0 := by omega
      have hpred : ((k + 1 : Nat) : Int) - 1 = (k : Int) := by omega
      rw [bodyLoop, if_neg hne, hpred, ih _ (Nat.le_of_succ_le_succ hk)]
      simp

/-! ### The whole request -/

section Requests

variable (atEnd : StreamEnd) (t : Terminator) (line : Bytes) (headers : List Bytes) (body : Bytes)

def received : EndPoint := recvHttpRequest atEnd { bytes := encode t line headers body }

def afterLines : EndPoint :=
  recvHttpRequestBody (paresHttpRequestHeader (paresHttpRequestLine
    { bytes := body
      request := { requestLine := line, requestHeader := headers, blank := [lf] } }))

end Requests

section Proofs

variable {atEnd : StreamEnd} {t : Terminator} {line : Bytes} {headers : List Bytes} {body : Bytes}

theorem recvHttpRequestLine_encode (hline : OneLine line)
    (hheaders : ∀ l ∈ headers, OneLine l ∧ l ≠ []) :
    recvHttpRequestLine atEnd { bytes := encode t line headers body } =
      { bytes := encodeLines t headers ++ (t.bytes ++ body)
        request := { requestLine := if Fits line then line else line ++ [lf] }
        stop := !decide (Fits line) } := by
  have hread : readLine atEnd (encode t line headers body) [] =
      (toInt (line.length + 1), line ++ [lf], encodeLines t headers ++ (t.bytes ++ body)) := by
    rw [encode, encodeLines_cons]
    exact readLine_line hline (endsBefore_headers (fun l hl => (hheaders l hl).1) t body) atEnd
  unfold recvHttpRequestLine
  simp only [hread]
  by_cases hfits : Fits line
  · rw [if_pos ((fits_iff line).mp hfits)]
    simp [hfits]
  · rw [if_neg (mt (fits_iff line).mpr hfits)]
    simp [hfits]

theorem received_of_fits (hline : OneLine line) (hheaders : ∀ l ∈ headers, OneLine l ∧ l ≠ [])
    (hbody : t.EndsBefore body) (hfits : ∀ l ∈ line :: headers, Fits l) :
    received atEnd t line headers body = afterLines line headers body := by
  obtain ⟨hfirst, hothers⟩ := forall_mem_cons.mp hfits
  have hrecv := recvHttpRequestHeader_lines atEnd hbody hheaders
    { bytes := encodeLines t headers ++ (t.bytes ++ body), request := { requestLine := line } } rfl rfl
  obtain ⟨hrequest, hstop, hbytes⟩ := hrecv
  have hstop' := hstop.mpr hothers
  have htake : headers.takeWhile (Fits ·) = headers :=
    takeWhile_eq_self_iff.mpr fun l hl => decide_eq_true (hothers l hl)
  unfold received recvHttpRequest
  rw [recvHttpRequestLine_encode hline hheaders]
  simp only [hfirst, if_true, decide_true, Bool.not_true, Bool.false_eq_true, if_false]
  rw [if_neg (by simp [hstop'])]
  have hlines : recvHttpRequestHeader atEnd
      { bytes := encodeLines t headers ++ (t.bytes ++ body), request := { requestLine := line } } =
      { bytes := body,
        request := { requestLine := line, requestHeader := headers, blank := [lf] } } := by
    generalize recvHttpRequestHeader atEnd _ = e at *
    obtain ⟨bytes, request, stop⟩ := e
    simp_all
  rw [hlines]
  rfl

theorem recvHttpRequestBody_other {e : EndPoint}
    (h : e.request.method = ascii "POST" → e.request.headerKv (ascii "Content-Length") = none) :
    e.recvHttpRequestBody = e := by
  unfold recvHttpRequestBody isneddRecvHttpRequestBody
  by_cases hmethod : e.request.method = ascii "POST"
  · simp [h hmethod]
  · simp [hmethod]

end Proofs

/-! ## The length of the body -/

structure BodyBounded (e : EndPoint) (text : Bytes) : Prop where
  consumed : ∃ taken, e.bytes = taken ++ e.recvHttpRequestBody.bytes ∧
    (taken.length : Int) ≤ max 0 (atoi text)
  exact : max 0 (atoi text) ≤ (e.bytes.length : Int) →
    e.recvHttpRequestBody.stop = false ∧
      e.recvHttpRequestBody.request.requestBody = e.bytes.take (max 0 (atoi text)).toNat

theorem bodyLoop_all : ∀ {bytes : Bytes} {count : Int} (out : Bytes),
    count < 0 ∨ (bytes.length : Int) < count → bodyLoop count bytes out = (out ++ bytes, [], true) := by
  intro bytes
  induction bytes with
  | nil =>
    intro count out h
    have hne : count ≠ 0 := by
      rw [length_nil] at h
      omega
    simp [bodyLoop, hne]
  | cons b bs ih =>
    intro count out h
    rw [length_cons] at h
    rw [bodyLoop, if_neg (by omega), ih _ (by omega), append_assoc, singleton_append]

section Body

variable {e : EndPoint} {text : Bytes}

theorem recvHttpRequestBody_eq (hmethod : e.request.method = ascii "POST")
    (htext : e.request.headerKv (ascii "Content-Length") = some text) :
    e.recvHttpRequestBody =
      { bytes := (bodyLoop (atoi text) e.bytes e.request.requestBody).2.1
        request :=
          { e.request with
            contentLength := atoi text
            requestBody := (bodyLoop (atoi text) e.bytes e.request.requestBody).1 }
        stop := e.stop || (bodyLoop (atoi text) e.bytes e.request.requestBody).2.2 } := by
  unfold recvHttpRequestBody isneddRecvHttpRequestBody
  simp only [hmethod, htext, if_true]

theorem bodyBounded_of_nonneg (hmethod : e.request.method = ascii "POST")
    (htext : e.request.headerKv (ascii "Content-Length") = some text)
    (hempty : e.request.requestBody = []) (hstop : e.stop = false) (h : 0 ≤ atoi text) :
    BodyBounded e text := by
  obtain ⟨k, hk⟩ := Int.eq_ofNat_of_zero_le h
  have hmax : max 0 (k : Int) = k := max_eq_right (Int.natCast_nonneg k)
  have heq := recvHttpRequestBody_eq hmethod htext
  rw [hempty, hstop, hk] at heq
  by_cases hle : k ≤ e.bytes.length
  · rw [bodyLoop_take [] hle] at heq
    refine ⟨⟨e.bytes.take k, ?_, ?_⟩, fun _ => ?_⟩
    · rw [heq, take_append_drop]
    · rw [hk, hmax, length_take]
      omega
    · rw [heq, hk, hmax]
      exact ⟨rfl, rfl⟩
  · -- fewer bytes than the header says
    rw [bodyLoop_all [] (by omega)] at heq
    refine ⟨⟨e.bytes, ?_, ?_⟩, fun hlen => ?_⟩
    · rw [heq, append_nil]
    · rw [hk, hmax]
      omega
    · rw [hk, hmax] at hlen
      omega

theorem not_bodyBounded_of_neg (hmethod : e.request.method = ascii "POST")
    (htext : e.request.headerKv (ascii "Content-Length") = some text) (h : atoi text < 0) :
    ¬ BodyBounded e text := by
  intro hb
  have hzero : max 0 (atoi text) ≤ (e.bytes.length : Int) := by omega
  have hstop := (hb.exact hzero).1
  rw [recvHttpRequestBody_eq hmethod htext, bodyLoop_all _ (Or.inl h)] at hstop
  simp at hstop

/-- **The body of a request**: for every header text and every stream, the loop that
    receives the body of a POST request is bounded by the length iff that is not
    negative. -/
theorem body_bounded_iff (hmethod : e.request.method = ascii "POST")
    (htext : e.request.headerKv (ascii "Content-Length") = some text)
    (hempty : e.request.requestBody = []) (hstop : e.stop = false) :
    BodyBounded e text ↔ 0 ≤ atoi text := by
  refine ⟨fun hb => ?_, bodyBounded_of_nonneg hmethod htext hempty hstop⟩
  by_contra hneg
  exact not_bodyBounded_of_neg hmethod htext (Int.not_le.mp hneg) hb

def post (length stream : Bytes) : EndPoint where
  bytes := stream
  request :=
    { method := ascii "POST", headerKv := Dict.empty.assign (ascii "Content-Length") length }

theorem headerKv_post (length stream : Bytes) :
    (post length stream).request.headerKv (ascii "Content-Length") = some length :=
  Dict.assign_self Dict.empty (ascii "Content-Length") length

/-- Two of the three bytes that come are the body. -/
theorem body_bounded_two : BodyBounded (post (ascii "2") (ascii "abc")) (ascii "2") :=
  (body_bounded_iff rfl (headerKv_post _ _) rfl rfl).mpr (by decide)

/-- The length -1 takes whatever comes. -/
theorem body_not_bounded : ¬ BodyBounded (post (ascii "-1") (ascii "abc")) (ascii "-1") :=
  not_bodyBounded_of_neg rfl (headerKv_post _ _) (by decide)

end Body

end EndPoint

end CallLesson.Http
