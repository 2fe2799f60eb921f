import CallLesson.Framework.Paths
import CallLesson.Http.Response

/-! # The web root

    Which paths `build_http_response` hands to `stat`, `open` and `execl`, and when
    they are inside of `wwwroot`. The path of a request is the text before the
    question mark, put behind the name of the directory as it is; a home page may be
    added to it. -/

namespace CallLesson.Http

open Text Paths
open Paths (Inside Plain)

/-! ## The calls -/

inductive PathCall where
  | stat (path : Bytes)
  | openFile (path : Bytes)
  | execl (path : Bytes)
  deriving DecidableEq

def PathCall.path : PathCall → Bytes
  | stat path => path
  | openFile path => path
  | execl path => path

def webRoot : Bytes := ascii "wwwroot"

def homePage : Bytes := ascii "index.html"

def page404 : Bytes := webRoot ++ ascii "/" ++ ascii "404.html"

def errorCalls (env : Env) : List PathCall :=
  .openFile page404 :: if (env.openFile page404).any (0 < ·.fd) then [.stat page404] else []

def helperCalls (env : Env) (code : Int) : List PathCall :=
  if code = 200 then []
  else if code = 404 ∨ code = 500 ∨ code = 400 then errorCalls env
  else []

def cgiCalls (run : CgiRun) (path : Bytes) : List PathCall :=
  if run.pipeInput && run.pipeOutput && run.fork then [.execl (cString path)] else []

def resourceCalls (env : Env) (request : HttpRequest) : List PathCall :=
  if request.cgi then
    cgiCalls (env.cgi request) request.path ++ helperCalls env (processCgi (env.cgi request)).1
  else .openFile (cString request.path) :: helperCalls env (processNonCgi env request.path).1

def pathCalls (env : Env) (request : HttpRequest) : List PathCall :=
  if request.method ≠ ascii "GET" ∧ request.method ≠ ascii "POST" then helperCalls env 400
  else
    let request := rootPath (splitUri request)
    .stat (cString request.path) ::
      match env.stat (cString request.path) with
      | none => helperCalls env 404
      | some st =>
          let request := setSuffix (found env st request)
          (if st.isDir then [.stat (cString request.path)] else []) ++ resourceCalls env request

/-! ### They are all that a response depends on -/

structure SameAnswers (env env' : Env) (calls : List PathCall) : Prop where
  stat : ∀ path, .stat path ∈ calls → env.stat path = env'.stat path
  openFile : ∀ path, .openFile path ∈ calls → env.openFile path = env'.openFile path

open List

namespace SameAnswers

variable {env env' : Env} {calls calls' : List PathCall}

theorem subset (h : SameAnswers env env' calls) (hsub : calls' ⊆ calls) :
    SameAnswers env env' calls' :=
  ⟨fun path hmem => h.stat path (hsub hmem), fun path hmem => h.openFile path (hsub hmem)⟩

theorem handlerError (h : SameAnswers env env' (errorCalls env))
    (hunwritten : env.unwritten = env'.unwritten) (x : Exchange) :
    handlerError env page404 x = handlerError env' page404 x := by
  have hopen := h.openFile page404 mem_cons_self
  unfold Http.handlerError
  rw [← hopen, ← hunwritten]
  by_cases hfd : (env.openFile page404).any (0 < ·.fd) = true
  · rw [h.stat page404 (by simp [errorCalls, hfd])]
  · simp only [hfd, Bool.false_eq_true, if_false]

theorem buildHttpResponseHelper {x : Exchange} (h : SameAnswers env env' (helperCalls env x.2.statusCode))
    (hunwritten : env.unwritten = env'.unwritten) :
    buildHttpResponseHelper env x = buildHttpResponseHelper env' x := by
  unfold Http.buildHttpResponseHelper
  unfold helperCalls at h
  simp only
  split
  · rfl
  · next hcode =>
    rw [if_neg hcode] at h
    split
    · next herror =>
      rw [if_pos herror] at h
      exact handlerError h hunwritten _
    · rfl

end SameAnswers

theorem path_found (env : Env) (st : Stat) (request : HttpRequest) :
    (setSuffix (found env st request)).path =
      if st.isDir then request.path ++ ascii "/" ++ homePage else request.path := by
  have hsuffix : ∀ r : HttpRequest, (setSuffix r).path = r.path := fun r => by
    unfold setSuffix
    split <;> rfl
  rw [hsuffix]
  unfold found
  cases st.isDir with
  | true => simp only [if_true]; split <;> rfl
  | false => simp only [Bool.false_eq_true, if_false]; split <;> rfl

variable {request : HttpRequest} {env : Env} {call : PathCall} {env' env : Env}

theorem SameAnswers.found {st : Stat} (h : SameAnswers env env'
      (if st.isDir then [.stat (cString (setSuffix (found env st request)).path)] else [])) :
    found env st request = found env' st request := by
  rw [path_found] at h
  unfold Http.found
  cases hdir : st.isDir with
  | false => rfl
  | true =>
    -- only for a directory is `stat` called a second time
    rw [hdir] at h
    have hstat : env.stat (cString (request.path ++ ascii "/" ++ ascii "index.html")) =
        env'.stat (cString (request.path ++ ascii "/" ++ ascii "index.html")) :=
      h.stat _ mem_cons_self
    simp only [if_true, hstat]

theorem buildHttpResponse_congr (h : SameAnswers env env' (pathCalls env request))
    (hcgi : env.cgi = env'.cgi) (hunwritten : env.unwritten = env'.unwritten) :
    buildHttpResponse env request = buildHttpResponse env' request := by
  unfold pathCalls at h
  unfold buildHttpResponse
  by_cases hmethod : request.method ≠ ascii "GET" ∧ request.method ≠ ascii "POST"
  · rw [if_pos hmethod] at h ⊢
    rw [if_pos hmethod]
    exact h.buildHttpResponseHelper hunwritten
  · rw [if_neg hmethod] at h ⊢
    rw [if_neg hmethod]
    generalize rootPath (splitUri request) = request at h ⊢
    simp only at h ⊢
    -- the calls are answered alike one by one, in the order in which they are made
    rw [← h.stat _ mem_cons_self]
    have h := h.subset (subset_cons_self _ _)
    cases hstat : env.stat (cString request.path) with
    | none =>
      rw [hstat] at h
      exact h.buildHttpResponseHelper hunwritten
    | some st =>
      rw [hstat] at h
      simp only at h ⊢
      rw [← (h.subset (subset_append_left _ _)).found, ← hcgi]
      have h := h.subset (subset_append_right _ _)
      unfold resourceCalls at h
      generalize setSuffix (found env st request) = request at h ⊢
      cases hkind : request.cgi with
      | true =>
        rw [hkind, if_pos rfl] at h
        exact (h.subset (subset_append_right _ _)).buildHttpResponseHelper hunwritten
      | false =>
        rw [hkind] at h
        have hopen := h.openFile _ mem_cons_self
        have hsame : processNonCgi env request.path = processNonCgi env' request.path := by
          unfold processNonCgi
          rw [hopen]
        rw [← hsame]
        exact (h.subset (subset_cons_self _ _)).buildHttpResponseHelper hunwritten

/-! ## Where the paths lead -/

theorem webRoot_plain : Plain webRoot := by
  constructor <;> decide

theorem homePage_plain : Plain homePage := by
  constructor <;> decide

theorem inside_homePage (path : Bytes) :
    Inside webRoot (cString (path ++ slash :: homePage)) ↔ Inside webRoot (cString path) := by
  have hname : cString (slash :: homePage) = slash :: homePage := by decide
  -- behind a null byte the home page is not seen
  rw [cString_append]
  split
  · rfl
  · next hnot =>
    rw [hname, cString_eq_self_iff.mpr hnot]
    exact inside_append_name homePage_plain (by decide) path

theorem inside_slash (path : Bytes) :
    Inside webRoot (cString (path ++ [slash])) ↔ Inside webRoot (cString path) := by
  have hslash : cString [slash] = [slash] := by decide
  rw [cString_append]
  split
  · rfl
  · next hnot =>
    rw [hslash, cString_eq_self_iff.mpr hnot]
    exact inside_append_slash path

def target (request : HttpRequest) : Bytes := (splitUri request).path

theorem inside_rootPath (request : HttpRequest) :
    Inside webRoot (cString (rootPath (splitUri request)).path) ↔
      Inside webRoot (cString (webRoot ++ target request)) := by
  unfold rootPath
  simp only
  split
  · next hlast =>
    -- the path ends with a slash, and the home page has been added
    obtain ⟨path, hpath⟩ := getLast?_eq_some_iff.mp hlast
    have hhome : path ++ [47] ++ ascii "index.html" = path ++ slash :: homePage := by
      rw [append_assoc]
      rfl
    change Inside webRoot (cString (ascii "wwwroot" ++ target request ++ ascii "index.html")) ↔
      Inside webRoot (cString (ascii "wwwroot" ++ target request))
    rw [target, hpath, hhome, inside_homePage]
    exact (inside_slash path).symm
  · rfl

theorem path_of_mem_helperCalls {code : Int} (hmem : call ∈ helperCalls env code) :
    call.path = page404 := by
  have herror : ∀ call ∈ errorCalls env, call.path = page404 := by
    unfold errorCalls
    split <;> simp [PathCall.path]
  unfold helperCalls at hmem
  split at hmem
  · cases hmem
  · split at hmem
    · exact herror call hmem
    · cases hmem

theorem path_of_mem_resourceCalls (hmem : call ∈ resourceCalls env request) :
    call.path = cString request.path ∨ call.path = page404 := by
  unfold resourceCalls cgiCalls at hmem
  split at hmem
  · rcases mem_append.mp hmem with hmem | hmem
    · split at hmem
      · rw [mem_singleton.mp hmem]
        exact Or.inl rfl
      · cases hmem
    · exact Or.inr (path_of_mem_helperCalls hmem)
  · rcases mem_cons.mp hmem with rfl | hmem
    · exact Or.inl rfl
    · exact Or.inr (path_of_mem_helperCalls hmem)

theorem path_of_mem_pathCalls (hmem : call ∈ pathCalls env request) :
    call.path = cString (rootPath (splitUri request)).path ∨
      call.path = cString ((rootPath (splitUri request)).path ++ slash :: homePage) ∨
      call.path = page404 := by
  unfold pathCalls at hmem
  split at hmem
  · exact Or.inr (Or.inr (path_of_mem_helperCalls hmem))
  · generalize rootPath (splitUri request) = request at hmem ⊢
    rcases mem_cons.mp hmem with rfl | hmem
    · exact Or.inl rfl
    · split at hmem
      · exact Or.inr (Or.inr (path_of_mem_helperCalls hmem))
      · next st _ =>
        -- a resource: its path is the same, or that of the home page in the directory
        have hpath := path_found env st request
        by_cases hdir : st.isDir = true
        · have hhome : (setSuffix (found env st request)).path =
              request.path ++ slash :: homePage := by
            rw [hpath, if_pos hdir, append_assoc]
            rfl
          rw [← hhome]
          rcases mem_append.mp hmem with hmem | hmem
          · rw [if_pos hdir] at hmem
            rw [mem_singleton.mp hmem]
            exact Or.inr (Or.inl rfl)
          · exact Or.inr (path_of_mem_resourceCalls hmem)
        · rw [if_neg hdir] at hpath
          rw [← hpath]
          rcases mem_append.mp hmem with hmem | hmem
          · rw [if_neg hdir] at hmem
            cases hmem
          · rcases path_of_mem_resourceCalls hmem with hsame | herror
            · exact Or.inl hsame
            · exact Or.inr (Or.inr herror)

def Confined (calls : List PathCall) : Prop := ∀ call ∈ calls, Inside webRoot call.path

theorem confined_iff (hmethod : request.method = ascii "GET" ∨ request.method = ascii "POST") :
    Confined (pathCalls env request) ↔ Inside webRoot (cString (webRoot ++ target request)) := by
  rw [← inside_rootPath]
  constructor
  · intro h
    refine h (.stat (cString (rootPath (splitUri request)).path)) ?_
    unfold pathCalls
    rw [if_neg fun hnot => hmethod.elim hnot.1 hnot.2]
    exact mem_cons_self
  · intro h call hmem
    rcases path_of_mem_pathCalls hmem with hpath | hpath | hpath
    · exact hpath ▸ h
    · exact hpath ▸ (inside_homePage _).mpr h
    · exact hpath ▸ (by decide)

theorem inside_of_no_parent {path : Bytes} (h : parent ∉ components (cString path)) :
    Inside webRoot (cString (webRoot ++ slash :: path)) := by
  have hcstring : cString (webRoot ++ slash :: path) = webRoot ++ slash :: cString path := by
    rw [append_cons, cString_append, if_neg (by decide), append_assoc]
    rfl
  rw [hcstring]
  exact Paths.inside_of_no_parent webRoot_plain h

/-- **The web root**: for a GET or POST request, whatever is in the file system and
    whatever the programs do, every path that is handed to `stat`, `open` or `execl` is
    inside of `wwwroot` iff the path in the URI, put behind the name of the directory, is;
    so it is if that begins with a slash and has no component `..`. -/
theorem requests_confined_iff {request : HttpRequest}
    (hmethod : request.method = ascii "GET" ∨ request.method = ascii "POST") :
    (Confined (pathCalls env request) ↔ Inside webRoot (cString (webRoot ++ target request))) ∧
    ∀ path, target request = slash :: path →
      parent ∉ components (cString path) → Confined (pathCalls env request) := by
  refine ⟨confined_iff hmethod, fun path htarget hnot => ?_⟩
  rw [confined_iff hmethod, htarget]
  exact inside_of_no_parent hnot

def noProgram : CgiRun := ⟨false, false, false, [], Nat.two_pow_pos 64, false, false, 0⟩

def onePasswd : Env where
  stat := fun path =>
    if path = ascii "wwwroot/../etc/passwd" then some ⟨false, false, 4⟩ else none
  openFile := fun path =>
    if path = ascii "wwwroot/../etc/passwd" then some ⟨3, ascii "root"⟩ else none
  cgi := fun _ => noProgram
  unwritten := ⟨false, false, 0⟩

/-- A path that leaves a directory of the root and comes back to another. -/
theorem requests_confined_sibling :
    Confined (pathCalls onePasswd { method := ascii "GET", uri := ascii "/a/../b.css?x=/../.." }) :=
  (requests_confined_iff (Or.inl rfl)).1.mpr (by decide +kernel)

/-- A request for a file outside of the web root: it is opened and sent. -/
theorem passwd_not_confined :
    ¬ Confined (pathCalls onePasswd { method := ascii "GET", uri := ascii "/../etc/passwd" }) ∧
    .openFile (ascii "wwwroot/../etc/passwd") ∈
      pathCalls onePasswd { method := ascii "GET", uri := ascii "/../etc/passwd" } ∧
    (buildHttpResponse onePasswd { method := ascii "GET", uri := ascii "/../etc/passwd" }).body =
      ascii "root" := by
  have hopen : .openFile (ascii "wwwroot/../etc/passwd") ∈
      pathCalls onePasswd { method := ascii "GET", uri := ascii "/../etc/passwd" } := by
    decide +kernel
  refine ⟨fun h => ?_, hopen, by decide +kernel⟩
  exact absurd (h _ hopen) (by decide +kernel)

/-- **What is outside is not read**: the response to a request whose path is inside of the web
    root is the same in any two file systems that agree there. -/
theorem response_from_web_root {request : HttpRequest}
    (hinside : Inside webRoot (cString (webRoot ++ target request)))
    (hstat : ∀ path, Inside webRoot path → env.stat path = env'.stat path)
    (hopen : ∀ path, Inside webRoot path → env.openFile path = env'.openFile path)
    (hcgi : env.cgi = env'.cgi) (hunwritten : env.unwritten = env'.unwritten) :
    buildHttpResponse env request = buildHttpResponse env' request := by
  have hcalls : Confined (pathCalls env request) := by
    by_cases hmethod : request.method = ascii "GET" ∨ request.method = ascii "POST"
    · exact (confined_iff hmethod).mpr hinside
    · -- only the page for errors is read
      intro call hmem
      rw [pathCalls, if_pos (not_or.mp hmethod)] at hmem
      rw [path_of_mem_helperCalls hmem]
      decide
  apply buildHttpResponse_congr _ hcgi hunwritten
  constructor
  · intro path hmem
    exact hstat path (hcalls _ hmem)
  · intro path hmem
    exact hopen path (hcalls _ hmem)

/-- The file that is not inside may be missing. -/
theorem response_from_web_root_sibling :
    buildHttpResponse onePasswd { method := ascii "GET", uri := ascii "/a/../b.css" } =
      buildHttpResponse { onePasswd with stat := fun _ => none, openFile := fun _ => none }
        { method := ascii "GET", uri := ascii "/a/../b.css" } := by
  have houtside : ∀ path, Inside webRoot path → path ≠ ascii "wwwroot/../etc/passwd" := by
    rintro path hinside rfl
    exact absurd hinside (by decide +kernel)
  refine response_from_web_root (by decide +kernel) ?_ ?_ ?_ ?_
  · intro path hinside
    exact if_neg (houtside path hinside)
  · intro path hinside
    exact if_neg (houtside path hinside)
  · rfl
  · rfl

end CallLesson.Http
