import CallLesson.Framework.System
import CallLesson.Http.Request

/-! # Building and sending an HTTP response

    `build_http_response` and `send_http_response` of `my_Http/Protocol.hpp`. The
    file system and the programs that are started for a request are parameters of the
    first. Sending goes from one call of `send` or `sendfile` to the next and is given
    their results. -/

namespace CallLesson.Http

open Text

/-! ## Building -/

structure Stat where
  isDir : Bool
  /-- One of the execute bits is set. -/
  executable : Bool
  size : Nat
  deriving DecidableEq

structure OpenFile where
  fd : Nat
  contents : Bytes
  deriving DecidableEq

structure CgiRun where
  pipeInput : Bool
  pipeOutput : Bool
  fork : Bool
  output : Bytes
  output_lt : output.length < 2 ^ 64
  waited : Bool
  exited : Bool
  exitStatus : Nat

structure Env where
  stat : Bytes → Option Stat
  openFile : Bytes → Option OpenFile
  cgi : HttpRequest → CgiRun
  /-- What is in a `struct stat` that has not been written. -/
  unwritten : Stat

structure HttpResponse where
  statusLine : Bytes := []
  responseHeader : List Bytes := []
  blank : Bytes := ascii "\r\n"
  responseBody : Bytes := []
  statusCode : Int := 200
  /-- The file behind `fd`, none if it is -1. -/
  file : Option OpenFile := none

def code2Desc (code : Int) : Bytes :=
  if code = 200 then ascii "OK" else if code = 404 then ascii "Not Found" else []

def suffix2Desc (suffix : Bytes) : Bytes :=
  if suffix = ascii ".html" then ascii "text/html"
  else if suffix = ascii ".css" then ascii "text/css"
  else if suffix = ascii ".js" then ascii "application/javascript"
  else if suffix = ascii ".xml" then ascii "application/xml"
  else ascii "text/html"

abbrev Exchange := HttpRequest × HttpResponse

def processCgi (run : CgiRun) : Int × Bytes :=
  if !run.pipeInput then (500, [])
  else if !run.pipeOutput then (500, [])
  else if !run.fork then (404, [])
  else if !run.waited then (200, run.output)
  else if !run.exited then (500, run.output)
  else if run.exitStatus = 0 then (200, run.output)
  else (400, run.output)

def processNonCgi (env : Env) (path : Bytes) : Int × Option OpenFile :=
  match env.openFile (cString path) with
  | some file => (200, some file)
  | none => (404, none)

def handlerError (env : Env) (page : Bytes) (x : Exchange) : Exchange :=
  let file := env.openFile page
  let x : Exchange := ({ x.1 with cgi := false }, { x.2 with file := file })
  if file.any (0 < ·.fd) then
    let st := (env.stat page).getD env.unwritten
    ({ x.1 with size := toInt st.size },
      { x.2 with
        responseHeader := x.2.responseHeader ++
          [ascii "Content-Type: text/html" ++ ascii "\r\n",
            ascii "Content-Length: " ++ decimal st.size ++ ascii "\r\n"] })
  else x

def buildOKResponse (x : Exchange) : Exchange :=
  let length := if x.1.cgi then decimal x.2.responseBody.length else decimalInt x.1.size
  (x.1,
    { x.2 with
      responseHeader := x.2.responseHeader ++
        [ascii "Content-Type: " ++ suffix2Desc x.1.suffix ++ ascii "\r\n",
          ascii "Conten-Length: " ++ length ++ ascii "\r\n"] })

def buildHttpResponseHelper (env : Env) (x : Exchange) : Exchange :=
  let code := x.2.statusCode
  let x : Exchange :=
    (x.1,
      { x.2 with
        statusLine := x.2.statusLine ++ ascii "HTTP/1.0" ++ ascii " " ++ decimalInt code ++
          ascii " " ++ code2Desc code ++ ascii "\r\n" })
  if code = 200 then buildOKResponse x
  else if code = 404 ∨ code = 500 ∨ code = 400 then
    handlerError env (ascii "wwwroot" ++ ascii "/" ++ ascii "404.html") x
  else x

def splitUri (request : HttpRequest) : HttpRequest :=
  if request.method = ascii "GET" then
    match cutString request.uri (ascii "?") with
    | some (left, right) => { request with path := left, queryString := right, cgi := true }
    | none => { request with path := request.uri }
  else { request with cgi := true, path := request.uri }

def rootPath (request : HttpRequest) : HttpRequest :=
  let path := ascii "wwwroot" ++ request.path
  if path.getLast? = some 47 then { request with path := path ++ ascii "index.html" }
  else { request with path := path }

def found (env : Env) (st : Stat) (request : HttpRequest) : HttpRequest :=
  let dir := st.isDir
  let request :=
    if dir then { request with path := request.path ++ ascii "/" ++ ascii "index.html" } else request
  -- a failed `stat` of the index page leaves the `struct stat` of the directory
  let st := if dir then (env.stat (cString request.path)).getD st else st
  let request := if st.executable then { request with cgi := true } else request
  { request with size := toInt st.size }

def setSuffix (request : HttpRequest) : HttpRequest :=
  match rfind (ascii ".") request.path with
  | some index => { request with suffix := request.path.drop index }
  | none => { request with suffix := ascii ".html" }

def buildHttpResponse (env : Env) (request : HttpRequest) : Exchange :=
  if request.method ≠ ascii "GET" ∧ request.method ≠ ascii "POST" then
    buildHttpResponseHelper env (request, { statusCode := 400 })
  else
    let request := rootPath (splitUri request)
    match env.stat (cString request.path) with
    | none => buildHttpResponseHelper env (request, { statusCode := 404 })
    | some st =>
        let request := setSuffix (found env st request)
        if request.cgi then
          let (code, body) := processCgi (env.cgi request)
          buildHttpResponseHelper env (request, { statusCode := code, responseBody := body })
        else
          let (code, file) := processNonCgi env request.path
          buildHttpResponseHelper env (request, { statusCode := code, file := file })

/-! ## Sending -/

inductive Result where
  | accepts (n : Nat)
  | fails
  deriving DecidableEq

def Result.count : Result → Nat
  | .accepts n => n
  | .fails => 0

namespace Exchange

def parts (x : Exchange) : List Bytes := x.2.statusLine :: x.2.responseHeader ++ [x.2.blank]

def head (x : Exchange) : Bytes := x.parts.flatten

def fileBody (x : Exchange) : Bytes :=
  ((x.2.file.map OpenFile.contents).getD []).take (x.1.size % 2 ^ 64).toNat

def body (x : Exchange) : Bytes := if x.1.cgi then x.2.responseBody else x.fileBody

def full (x : Exchange) : Bytes := x.head ++ x.body

end Exchange

inductive Pc where
  /-- The `send` of a part, with others to follow. -/
  | part (p : Bytes) (ps : List Bytes)
  /-- The `send` in the loop. -/
  | body (total : Nat)
  | file
  | done
  deriving DecidableEq

structure Sending where
  pc : Pc
  /-- The bytes that were accepted, and where each of them is in the response. -/
  bytes : Bytes
  positions : List Nat
  deriving DecidableEq

namespace Exchange

variable (x : Exchange)

def bodyAt (total : Nat) : Pc := if total < x.2.responseBody.length then .body total else .done

def afterParts : Pc := if x.1.cgi then x.bodyAt 0 else .file

def data : Pc → Option Bytes
  | .part p _ => some p
  | .body total => some (x.2.responseBody.drop total)
  | .file => some x.fileBody
  | .done => none

def offset : Pc → Nat
  | .part p ps => x.head.length - (p ++ ps.flatten).length
  | .body total => x.head.length + total
  | .file => x.head.length
  | .done => x.full.length

def possible (pc : Pc) (data : Bytes) : Result → Bool
  | .accepts n => n ≤ data.length && (0 < n || data = []) && (pc ≠ .file || x.2.file.isSome)
  | .fails => true

def after : Pc → Result → Pc
  | .part _ [], _ => x.afterParts
  | .part _ (p :: ps), _ => .part p ps
  -- `size` is a `size_t`, in which -1 is the largest number
  | .body total, .accepts n => x.bodyAt ((total + n) % 2 ^ 64)
  | .body total, .fails => x.bodyAt ((total + (2 ^ 64 - 1)) % 2 ^ 64)
  | .file, _ => .done
  | .done, _ => .done

def start : Sending := ⟨.part x.2.statusLine (x.2.responseHeader ++ [x.2.blank]), [], []⟩

def next (s : Sending) (r : Result) : Option Sending :=
  (x.data s.pc).bind fun data =>
    if x.possible s.pc data r then
      some ⟨x.after s.pc r, s.bytes ++ data.take r.count,
        s.positions ++ List.range' (x.offset s.pc) r.count⟩
    else none

def sends : System Sending Result := System.ofNext x.start x.next

end Exchange

end CallLesson.Http
