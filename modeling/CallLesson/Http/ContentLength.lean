import CallLesson.Http.Delivery
import CallLesson.Http.WebRoot

/-! # The declared length

    The header lines of a response that `build_http_response` makes, against the body
    that `send_http_response` sends. The line for the length is written in two places:
    `Handler_Error` writes `Content-Length`, and `Build_OK_Response` leaves out a
    letter of the name. -/

namespace CallLesson.Http

open Text

/-! ## What is expected -/

def contentLengths (headers : List Bytes) : List Bytes :=
  headers.filterMap fun line =>
    (cutString line (ascii ": ")).bind fun (name, val) =>
      if name.map toUpper = ascii "CONTENT-LENGTH" then some val else none

def DeclaresLength (x : Exchange) : Prop :=
  contentLengths x.2.responseHeader = [decimal x.body.length ++ ascii "\r\n"]

def Env.Consistent (env : Env) : Prop :=
  ∀ path file, env.openFile path = some file →
    ∃ st, env.stat path = some st ∧ st.size = file.contents.length ∧ st.size < 2 ^ 63

/-- The program is started, and if its end is waited for, it exits with status 0. -/
def CgiRun.Succeeds (run : CgiRun) : Prop :=
  run.pipeInput ∧ run.pipeOutput ∧ run.fork ∧ (run.waited → run.exited ∧ run.exitStatus = 0)

/-- What a GET or POST request asks for is there, and is a file that can be opened or a program
    that succeeds. -/
def Served (env : Env) (request : HttpRequest) : Prop :=
  (request.method = ascii "GET" ∨ request.method = ascii "POST") ∧
    ∃ st, env.stat (cString (rootPath (splitUri request)).path) = some st ∧
      let resource := setSuffix (found env st (rootPath (splitUri request)))
      if resource.cgi then (env.cgi resource).Succeeds
      else (env.openFile (cString resource.path)).isSome

def KeepsSize (size : Nat) : Prop := size < 2 ^ 31 ∨ 2 ^ 31 ≤ size % 2 ^ 32

instance (size : Nat) : Decidable (KeepsSize size) := inferInstanceAs (Decidable (_ ∨ _))

/-! ## The header lines -/

open List

theorem cutString_header {name : Bytes} (h : 58 ∉ name) (val : Bytes) :
    cutString (name ++ ascii ": " ++ val) (ascii ": ") = some (name, val) := by
  have hfind : find (ascii ": ") (name ++ ascii ": " ++ val) = some name.length :=
    find_append [32] val h
  have hdrop : name.length + (ascii ": ").length = (name ++ ascii ": ").length :=
    length_append.symm
  rw [cutString, hfind, Option.map_some, hdrop, drop_left, append_assoc, take_left]

theorem contentLengths_cons {name : Bytes} (h : 58 ∉ name) (val : Bytes) (headers : List Bytes) :
    contentLengths ((name ++ ascii ": " ++ val) :: headers) =
      (if name.map toUpper = ascii "CONTENT-LENGTH" then [val] else []) ++ contentLengths headers := by
  simp only [contentLengths, filterMap_cons, cutString_header h, Option.bind_some]
  by_cases hname : name.map toUpper = ascii "CONTENT-LENGTH"
  · rw [if_pos hname, if_pos hname]
    rfl
  · rw [if_neg hname, if_neg hname]
    rfl

theorem contentLengths_ok (desc length : Bytes) :
    contentLengths [ascii "Content-Type: " ++ desc ++ ascii "\r\n",
      ascii "Conten-Length: " ++ length ++ ascii "\r\n"] = [] := by
  have htype : ascii "Content-Type: " = ascii "Content-Type" ++ ascii ": " := by decide
  have hlength : ascii "Conten-Length: " = ascii "Conten-Length" ++ ascii ": " := by decide
  -- both names are compared; the second one lacks a letter
  rw [htype, hlength, append_assoc _ desc, append_assoc _ length,
    contentLengths_cons (by decide), contentLengths_cons (by decide), if_neg (by decide),
    if_neg (by decide)]
  rfl

theorem contentLengths_error (length : Bytes) :
    contentLengths [ascii "Content-Type: text/html" ++ ascii "\r\n",
      ascii "Content-Length: " ++ length ++ ascii "\r\n"] = [length ++ ascii "\r\n"] := by
  have htype : ascii "Content-Type: text/html" =
      ascii "Content-Type" ++ ascii ": " ++ ascii "text/html" := by decide
  have hlength : ascii "Content-Length: " = ascii "Content-Length" ++ ascii ": " := by decide
  rw [htype, hlength, append_assoc _ (ascii "text/html"), append_assoc _ length,
    contentLengths_cons (by decide), contentLengths_cons (by decide), if_neg (by decide),
    if_pos (by decide)]
  rfl

/-! ## The responses -/

theorem processCgi_code (run : CgiRun) : (processCgi run).1 = 200 ∧ run.Succeeds ∨
      ((processCgi run).1 = 404 ∨ (processCgi run).1 = 500 ∨ (processCgi run).1 = 400) ∧
        ¬ run.Succeeds := by
  unfold processCgi CgiRun.Succeeds
  repeat' split
  all_goals simp_all

theorem buildHttpResponse_helper (env : Env) (request : HttpRequest) :
    ∃ x : Exchange, buildHttpResponse env request = buildHttpResponseHelper env x ∧
      x.2.responseHeader = [] ∧ (x.2.statusCode = 200 ∧ Served env request ∨
        (x.2.statusCode = 404 ∨ x.2.statusCode = 500 ∨ x.2.statusCode = 400) ∧
          ¬ Served env request) := by
  unfold buildHttpResponse Served
  simp only
  -- the four ways to the label END
  split
  · next hmethod =>
    refine ⟨_, rfl, rfl, Or.inr ⟨by simp, fun h => ?_⟩⟩
    exact h.1.elim hmethod.1 hmethod.2
  · next hmethod =>
    rw [not_and_or, not_not, not_not] at hmethod
    cases hstat : env.stat (cString (rootPath (splitUri request)).path) with
    | none => exact ⟨_, rfl, rfl, by simp⟩
    | some st =>
      simp only [hmethod, true_and, Option.some.injEq, exists_eq_left']
      cases hcgi : (setSuffix (found env st (rootPath (splitUri request)))).cgi with
      | true => exact ⟨_, rfl, rfl, by simpa using processCgi_code _⟩
      | false =>
        refine ⟨_, rfl, rfl, ?_⟩
        unfold processNonCgi
        split <;> simp_all

section Helper

variable {env : Env} {x : Exchange}

theorem helper_ok (env : Env) (hcode : x.2.statusCode = 200) :
    ∃ y : Exchange, buildHttpResponseHelper env x = buildOKResponse y ∧
      y.2.responseHeader = x.2.responseHeader :=
  ⟨_, if_pos hcode, rfl⟩

theorem helper_error (env : Env)
    (hcode : x.2.statusCode = 404 ∨ x.2.statusCode = 500 ∨ x.2.statusCode = 400) :
    ∃ y : Exchange, buildHttpResponseHelper env x = handlerError env page404 y ∧
      y.2.responseHeader = x.2.responseHeader := by
  have hne : x.2.statusCode ≠ 200 := by omega
  exact ⟨_, (if_neg hne).trans (if_pos hcode), rfl⟩

theorem handlerError_opened {page : Bytes} {file : OpenFile} (hopen : env.openFile page = some file)
    (hfd : 0 < file.fd) :
    (handlerError env page x).1.cgi = false ∧ (handlerError env page x).2.file = some file ∧
      (handlerError env page x).1.size = toInt ((env.stat page).getD env.unwritten).size ∧
      (handlerError env page x).2.responseHeader = x.2.responseHeader ++
        [ascii "Content-Type: text/html" ++ ascii "\r\n",
          ascii "Content-Length: " ++ decimal ((env.stat page).getD env.unwritten).size ++
            ascii "\r\n"] := by
  have hany : (env.openFile page).any (0 < ·.fd) = true := by simp [hopen, hfd]
  unfold handlerError
  simp only [if_pos hany, true_and, and_true]
  exact hopen

theorem handlerError_closed {page : Bytes} (hopen : ∀ file, env.openFile page = some file → ¬ 0 < file.fd) :
    (handlerError env page x).2.responseHeader = x.2.responseHeader := by
  have hany : ¬ (env.openFile page).any (0 < ·.fd) = true := by
    simpa [Option.any_eq_true] using hopen
  unfold handlerError
  simp only [if_neg hany]

end Helper

/-! ## The length and the body -/

theorem decimal_injective {m n : Nat} (h : decimal m = decimal n) : m = n := by
  rw [← digitsVal_decimal m, h, digitsVal_decimal]

theorem le_size_iff {n : Nat} (h : n < 2 ^ 63) : n ≤ (toInt n % 2 ^ 64).toNat ↔ KeepsSize n := by
  unfold toInt KeepsSize
  rw [Int.bmod_def]
  split <;> omega

variable {x : Exchange}

theorem declaresLength_opened {env : Env} (hfs : env.Consistent) {page : Bytes} {file : OpenFile}
    (hopen : env.openFile page = some file) (hfd : 0 < file.fd)
    (hheader : x.2.responseHeader = []) :
    DeclaresLength (handlerError env page x) ↔ KeepsSize file.contents.length := by
  obtain ⟨st, hstat, hsize, hlt⟩ := hfs page file hopen
  obtain ⟨hcgi, hfile, hasked, hlines⟩ := handlerError_opened (x := x) hopen hfd
  rw [hstat, Option.getD_some, hsize] at hasked hlines
  -- `sendfile` is given the `int` of the size
  have hbody : (handlerError env page x).body =
      file.contents.take (toInt file.contents.length % 2 ^ 64).toNat := by
    simp [Exchange.body, Exchange.fileBody, hcgi, hfile, hasked]
  rw [DeclaresLength, hlines, hheader, nil_append, contentLengths_error, hbody,
    length_take, ← le_size_iff (hsize ▸ hlt)]
  constructor
  · intro h
    have heq := decimal_injective (append_cancel_right (cons.inj h).1)
    exact min_eq_right_iff.mp heq.symm
  · intro h
    rw [min_eq_right h]

theorem declaresLength_error {env : Env} (hfs : env.Consistent)
    (hheader : x.2.responseHeader = []) :
    DeclaresLength (handlerError env page404 x) ↔
      ∃ file, env.openFile page404 = some file ∧ 0 < file.fd ∧ KeepsSize file.contents.length := by
  by_cases hpage : ∃ file, env.openFile page404 = some file ∧ 0 < file.fd
  · obtain ⟨file, hopen, hfd⟩ := hpage
    rw [declaresLength_opened hfs hopen hfd hheader]
    constructor
    · intro h
      exact ⟨file, hopen, hfd, h⟩
    · rintro ⟨file', hopen', -, h⟩
      obtain rfl : file = file' := Option.some_inj.mp (hopen.symm.trans hopen')
      exact h
  · have hclosed := handlerError_closed (x := x) fun file hopen hfd => hpage ⟨file, hopen, hfd⟩
    rw [DeclaresLength, hclosed, hheader]
    constructor
    · intro h
      cases h
    · rintro ⟨file, hopen, hfd, -⟩
      exact absurd ⟨file, hopen, hfd⟩ hpage

theorem not_declaresLength_ok (hheader : x.2.responseHeader = []) :
    ¬ DeclaresLength (buildOKResponse x) := by
  have hlines : contentLengths (buildOKResponse x).2.responseHeader = [] := by
    simp only [buildOKResponse, hheader, nil_append]
    exact contentLengths_ok _ _
  rw [DeclaresLength, hlines]
  exact (cons_ne_nil _ _).symm

/-- **The declared length**: a response that is built for a resource, or with the page for
    errors, declares the length of its body in exactly one header line iff it is that page,
    opened under a descriptor other than 0, and the size of the page keeps its value as an
    `int`; and the body is what is sent behind the header lines when no call fails or is
    short. -/
theorem content_length_iff {env : Env} (hfs : env.Consistent) {request : HttpRequest}
    (hbody : Served env request ∨ ∃ file, env.openFile page404 = some file) :
    (DeclaresLength (buildHttpResponse env request) ↔ ¬ Served env request ∧
      ∀ file, env.openFile page404 = some file → 0 < file.fd ∧ KeepsSize file.contents.length) ∧
    ∀ rs s, (buildHttpResponse env request).sends.Steps (buildHttpResponse env request).start rs s →
      s.pc = .done → ¬ Exchange.Stalled (buildHttpResponse env request) rs →
      s.bytes = (buildHttpResponse env request).head ++ (buildHttpResponse env request).body := by
  refine ⟨?_, fun rs s hrun hdone hfree => ?_⟩
  · obtain ⟨x, hbuilt, hheader, hcode⟩ := buildHttpResponse_helper env request
    rw [hbuilt]
    -- the code decides which function writes the header lines
    rcases hcode with ⟨hok, hserved⟩ | ⟨herror, hserved⟩
    · obtain ⟨y, hy, hyheader⟩ := helper_ok env hok
      rw [hy]
      exact iff_of_false (not_declaresLength_ok (hyheader.trans hheader)) fun h => h.1 hserved
    · obtain ⟨y, hy, hyheader⟩ := helper_error env herror
      obtain ⟨file, hopen⟩ := hbody.resolve_left hserved
      rw [hy, declaresLength_error hfs (hyheader.trans hheader), hopen]
      simp [hserved]
  · exact (Exchange.Sent.of_steps (sendable_built env request) hrun).full_of_done hdone hfree

def twoPages : Env where
  stat := fun path =>
    if path = ascii "wwwroot/404.html" then some ⟨false, false, 4⟩
    else if path = ascii "wwwroot/a.html" then some ⟨false, false, 2⟩
    else none
  openFile := fun path =>
    if path = ascii "wwwroot/404.html" then some ⟨5, ascii "gone"⟩
    else if path = ascii "wwwroot/a.html" then some ⟨5, ascii "hi"⟩
    else none
  cgi := fun _ => noProgram
  unwritten := ⟨false, false, 0⟩

theorem twoPages_consistent : twoPages.Consistent := by
  intro path file hopen
  simp only [twoPages] at hopen ⊢
  split at hopen
  · next hpath =>
    cases hopen
    rw [if_pos hpath]
    exact ⟨_, rfl, by decide, by decide⟩
  · next hpath =>
    rw [if_neg hpath]
    split at hopen
    · next hpath' =>
      cases hopen
      rw [if_pos hpath']
      exact ⟨_, rfl, by decide, by decide⟩
    · cases hopen

/-- A page that is not there. -/
theorem content_length_not_found :
    DeclaresLength (buildHttpResponse twoPages { method := ascii "GET", uri := ascii "/b.html" }) := by
  have hstat : twoPages.stat (cString (rootPath (splitUri
      { method := ascii "GET", uri := ascii "/b.html" })).path) = none := by decide +kernel
  have hopen : twoPages.openFile page404 = some ⟨5, ascii "gone"⟩ := by decide +kernel
  refine (content_length_iff twoPages_consistent (Or.inr ⟨_, hopen⟩)).1.mpr ⟨?_, ?_⟩
  · rintro ⟨-, st, hst, -⟩
    cases hstat.symm.trans hst
  · rintro file hfile
    cases hopen.symm.trans hfile
    decide

/-- A page that is there. -/
theorem content_length_missing :
    ¬ DeclaresLength (buildHttpResponse twoPages { method := ascii "GET", uri := ascii "/a.html" }) ∧
      (buildHttpResponse twoPages { method := ascii "GET", uri := ascii "/a.html" }).body =
        ascii "hi" := by
  unfold DeclaresLength
  decide +kernel

end CallLesson.Http
