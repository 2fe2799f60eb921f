import CallLesson.Http.Delivery
import CallLesson.Http.WebRoot

/-! # One request, from the socket and back

    `CallBack::HandlerRequest` of `my_Http/Protocol.hpp`: a request is received and, unless
    that has stopped, its response is built and sent. -/

namespace CallLesson.Http

open Text EndPoint

/-! ## Model -/

/-- `HandlerRequest`, up to the calls that send: none if it stops after receiving. -/
def handlerRequest (atEnd : StreamEnd) (env : Env) (bytes : Bytes) : Option Exchange :=
  let ep := recvHttpRequest atEnd { bytes := bytes }
  if ep.stop then none else some (buildHttpResponse env ep.request)

/-- The URI in a request line. -/
def uriOf (requestLine : Bytes) : Bytes := (word (word requestLine).2).1

/-- A file that can be read and is no program, of less than 2 GiB. -/
structure Env.HasPage (env : Env) (path contents : Bytes) : Prop where
  stat : env.stat path = some ⟨false, false, contents.length⟩
  openFile : ∃ fd, env.openFile path = some ⟨fd, contents⟩
  size_lt : contents.length < 2 ^ 31

/-- The lines in front of the file, as the source spells them. -/
def pageHead (path contents : Bytes) : List Bytes :=
  [ascii "HTTP/1.0 200 OK\r\n",
    ascii "Content-Type: " ++ suffix2Desc (setSuffix { path := path }).suffix ++ ascii "\r\n",
    ascii "Conten-Length: " ++ decimal contents.length ++ ascii "\r\n", ascii "\r\n"]

/-! ## The stages -/

section stages

variable {env : Env} {contents : Bytes}

theorem toInt_eq {n : Nat} (h : n < 2 ^ 31) : toInt n = n :=
  Int.bmod_eq_of_le (by omega) (by omega)

theorem setSuffix_suffix (request : HttpRequest) :
    (setSuffix request).suffix = (setSuffix { path := request.path }).suffix ∧
      (setSuffix request).path = request.path ∧ (setSuffix request).cgi = request.cgi ∧
      (setSuffix request).size = request.size := by
  unfold setSuffix
  dsimp only
  split
  · exact ⟨rfl, rfl, rfl, rfl⟩
  · exact ⟨rfl, rfl, rfl, rfl⟩

theorem buildHttpResponseHelper_ok (env : Env) {request : HttpRequest}
    (hcgi : request.cgi = false) (file : OpenFile) : buildHttpResponseHelper env (request, { file := some file }) =
      (request,
        { statusLine := ascii "HTTP/1.0 200 OK\r\n"
          responseHeader :=
            [ascii "Content-Type: " ++ suffix2Desc request.suffix ++ ascii "\r\n",
              ascii "Conten-Length: " ++ decimalInt request.size ++ ascii "\r\n"]
          file := some file }) := by
  rw [buildHttpResponseHelper, buildOKResponse, hcgi]
  rfl

/-- Building: the URI names a file below the web root. -/
theorem buildHttpResponse_page {request : HttpRequest} (hmethod : request.method = ascii "GET")
    (hcgi : request.cgi = false) (hquery : find (ascii "?") request.uri = none)
    (hslash : request.uri.getLast? ≠ some 47) (hplain : 0 ∉ request.uri)
    (hpage : env.HasPage (ascii "wwwroot" ++ request.uri) contents) :
    (buildHttpResponse env request).1.cgi = false ∧
      (buildHttpResponse env request).parts = pageHead (ascii "wwwroot" ++ request.uri) contents ∧
      (buildHttpResponse env request).fileBody = contents := by
  obtain ⟨fd, hopen⟩ := hpage.openFile
  have hsize := toInt_eq hpage.size_lt
  have hpath : cString (ascii "wwwroot" ++ request.uri) = ascii "wwwroot" ++ request.uri :=
    cString_eq_self_iff.mpr fun hmem => (List.mem_append.mp hmem).elim (by decide) hplain
  have hlast : (ascii "wwwroot" ++ request.uri).getLast? ≠ some 47 := by
    rw [List.getLast?_append]
    cases huri : request.uri.getLast? with
    | none => decide
    | some c => simpa [huri] using hslash
  have hsplit : splitUri request = { request with path := request.uri } := by
    rw [splitUri, if_pos hmethod, cutString, hquery]
    rfl
  have hroot : rootPath (splitUri request) = { request with path := ascii "wwwroot" ++ request.uri } := by
    rw [hsplit]
    exact if_neg hlast
  have hfound : found env ⟨false, false, contents.length⟩
      { request with path := ascii "wwwroot" ++ request.uri } =
      { request with path := ascii "wwwroot" ++ request.uri, size := contents.length } := by
    rw [← hsize]
    rfl
  have hget : ¬ (request.method ≠ ascii "GET" ∧ request.method ≠ ascii "POST") :=
    fun hnot => hnot.1 hmethod
  rw [buildHttpResponse, if_neg hget, hroot]
  dsimp only
  rw [hpath, hpage.stat]
  dsimp only
  rw [hfound]
  obtain ⟨hsuffix, hkept, hkind, hlength⟩ := setSuffix_suffix
    { request with path := ascii "wwwroot" ++ request.uri, size := contents.length }
  generalize setSuffix _ = found at hsuffix hkept hkind hlength ⊢
  dsimp only at hsuffix hkept hkind hlength
  rw [hcgi] at hkind
  rw [hkind, if_neg Bool.false_ne_true, processNonCgi, hkept, hpath, hopen]
  have hbuilt := buildHttpResponseHelper_ok env hkind ⟨fd, contents⟩
  dsimp only
  rw [hbuilt]
  refine ⟨hkind, ?_, ?_⟩
  · simp only [Exchange.parts, pageHead, hsuffix, hlength]
    rfl
  · simp only [Exchange.fileBody, hlength, Option.map_some, Option.getD_some]
    exact List.take_of_length_le (by have := hpage.size_lt; omega)

variable {t : Terminator} {line : Bytes} {headers : List Bytes} {body : Bytes}

/-- Receiving: no body is read for a `GET`. -/
theorem received_get (atEnd : StreamEnd) (hline : OneLine line)
    (hheaders : ∀ l ∈ headers, OneLine l ∧ l ≠ []) (hbody : t.EndsBefore body)
    (hfits : ∀ l ∈ line :: headers, Fits l) (hget : methodOf line = ascii "GET") :
    ∃ request, recvHttpRequest atEnd { bytes := encode t line headers body } =
        { bytes := body, request := request } ∧
      request.method = ascii "GET" ∧ request.uri = uriOf line ∧ request.cgi = false := by
  have hlines : received atEnd t line headers body = _ :=
    received_of_fits hline hheaders hbody hfits
  rw [afterLines, recvHttpRequestBody_other] at hlines
  · exact ⟨_, hlines, hget, rfl, rfl⟩
  · intro hpost
    have hmethod : methodOf line = ascii "POST" := hpost
    rw [hget] at hmethod
    exact absurd hmethod (by decide)

/-- **A page is served**: a `GET` request by lines, with any of the line endings and any header
    lines, for a file below the web root. As long as no call of `send` or `sendfile` stalls,
    what the socket accepts is the beginning of the head followed by the file, and after five
    calls it is all of that. -/
theorem page_served (atEnd : StreamEnd) (hline : OneLine line)
    (hheaders : ∀ l ∈ headers, OneLine l ∧ l ≠ []) (hbody : t.EndsBefore body)
    (hfits : ∀ l ∈ line :: headers, Fits l)
    (hget : methodOf line = ascii "GET") (hquery : find (ascii "?") (uriOf line) = none)
    (hslash : (uriOf line).getLast? ≠ some 47) (hplain : 0 ∉ uriOf line)
    (hpage : env.HasPage (ascii "wwwroot" ++ uriOf line) contents) :
    ∃ x, handlerRequest atEnd env (encode t line headers body) = some x ∧
      ∀ rs s, x.sends.Steps x.start rs s → ¬ x.Stalled rs →
        s.bytes <+: (pageHead (ascii "wwwroot" ++ uriOf line) contents).flatten ++ contents ∧
        (rs.length = 5 →
          s.bytes = (pageHead (ascii "wwwroot" ++ uriOf line) contents).flatten ++ contents) := by
  obtain ⟨request, hreceived, hmethod, huri, hcgi⟩ :=
    received_get atEnd hline hheaders hbody hfits hget
  rw [← huri] at hquery hslash hplain hpage ⊢
  obtain ⟨hkind, hparts, hfile⟩ :=
    buildHttpResponse_page hmethod hcgi hquery hslash hplain hpage
  refine ⟨buildHttpResponse env request, ?_, fun rs s hsteps hfree => ?_⟩
  · rw [handlerRequest, hreceived]
    rfl
  · have hsent := Exchange.Sent.of_steps (sendable_built env request) hsteps
    have hfull : (buildHttpResponse env request).full =
        (pageHead (ascii "wwwroot" ++ request.uri) contents).flatten ++ contents := by
      rw [Exchange.full, Exchange.head, hparts, Exchange.body, hkind, hfile]
      rfl
    rw [← hfull]
    constructor
    · -- what has been accepted is in order
      have horder := hsent.inOrder_iff.mpr fun i j r r' _ hi _ hstalls =>
        absurd ⟨i, r, hi, hstalls⟩ hfree
      rw [(hsent.bytes horder).1]
      exact List.take_prefix _ _
    · intro hlength
      refine hsent.full_of_done (hsent.done_of_last (by simp [hkind]) ?_) hfree
      rw [hlength, Exchange.lengths, hparts, hkind]
      rfl

/-- A style sheet of two bytes. -/
def styleSheet : Env where
  stat := fun path => if path = ascii "wwwroot/a.css" then some ⟨false, false, 2⟩ else none
  openFile := fun path => if path = ascii "wwwroot/a.css" then some ⟨5, ascii "*/"⟩ else none
  cgi := fun _ => noProgram
  unwritten := ⟨false, false, 0⟩

def getStyle : Bytes := ascii "get /a.css HTTP/1.1"

/-- It is asked for with a lower-case method. -/
theorem page_served_css : ∃ x,
    handlerRequest .closed styleSheet (encode .crlf getStyle [ascii "Host: a"] []) = some x ∧
    ∀ rs s, x.sends.Steps x.start rs s → ¬ x.Stalled rs → rs.length = 5 → s.bytes =
      ascii "HTTP/1.0 200 OK\r\nContent-Type: text/css\r\nConten-Length: 2\r\n\r\n*/" := by
  have huri : uriOf getStyle = ascii "/a.css" := by decide +kernel
  have hpage : styleSheet.HasPage (ascii "wwwroot" ++ uriOf getStyle) (ascii "*/") := by
    rw [huri]
    exact ⟨rfl, ⟨5, rfl⟩, by decide⟩
  obtain ⟨x, hx, hrun⟩ : ∃ x, handlerRequest .closed styleSheet
      (encode .crlf getStyle [ascii "Host: a"] []) = some x ∧ _ :=
    page_served .closed (by unfold OneLine; decide +kernel) (by unfold OneLine; decide +kernel)
      (by unfold Terminator.EndsBefore; decide +kernel) (by decide +kernel) (by decide +kernel)
      (by rw [huri]; decide +kernel) (by rw [huri]; decide) (by rw [huri]; decide) hpage
  refine ⟨x, hx, fun rs s hsteps hfree hlength => ((hrun rs s hsteps hfree).2 hlength).trans ?_⟩
  rw [huri]
  decide +kernel

end stages

end CallLesson.Http
