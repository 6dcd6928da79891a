import MinHttp.Request

/-! Protocol.hpp: `BuildHttpResponse` and what it calls. The operating system
is a `World`; the calls made to it are logged in order. -/
namespace MinHttp

open Lib.Numerals (signed)

/-- The fields of `struct stat` that are read. A size is a positive `off_t`. -/
structure Stat where
  stMode : UInt32
  stSize : Nat
  isOff : stSize < 2 ^ 63
  deriving DecidableEq, Repr

def sIsDir (mode : UInt32) : Bool := mode &&& 0xF000 == 0x4000

/-- One of `S_IXUSR`, `S_IXGRP` and `S_IXOTH` is set. -/
def executable (mode : UInt32) : Bool :=
  mode &&& 0x40 != 0 || mode &&& 0x8 != 0 || mode &&& 0x1 != 0

inductive WaitResult
  | failed
  | exited (status : UInt8)
  | signaled
  deriving DecidableEq, Repr

/-- One run of `ProcessCIG`: what the calls for its two pipes and `fork`
return, the bytes its read loop collects, how the child ends (with a status,
or by a signal), and whether `waitpid` returns its pid. -/
structure CgiRun where
  input : Option (Nat × Nat)
  output : Option (Nat × Nat)
  forked : Bool
  received : Bytes
  ended : Option UInt8
  waited : Bool
  deriving DecidableEq, Repr

/-- What `waitpid` reports of a child that has ended. -/
def waitResult : Option UInt8 → WaitResult
  | some status => .exited status
  | none => .signaled

def CgiRun.wait (c : CgiRun) : WaitResult := if c.waited then waitResult c.ended else .failed

/-- The file system, unchanged during a request, and the answers of the calls
whose outcome it does not fix: a file that exists may still not open, and
opens on any descriptor. -/
structure World where
  stat : Bytes → Option Stat
  openTarget : Option Nat
  openPage : Option Nat
  cgi : CgiRun

inductive Sys
  | stat (path : Bytes)
  | openRdonly (path : Bytes) (fd : Option Nat)
  | pipe (ends : Option (Nat × Nat))
  | fork (ok : Bool)
  | execl (path : Bytes)
  | close (fd : Int)
  | closeSock
  deriving DecidableEq, Repr

/-- `open(path, O_RDONLY)` -/
def World.openRdonly (w : World) (path : Bytes) (answer : Option Nat) : Option Nat :=
  if (w.stat path).isSome then answer else none

/-- The `int` that `open` returns. -/
def fdInt : Option Nat → Int
  | some fd => fd
  | none => -1

def code2Desc (code : Int) : Bytes :=
  if code = 200 then str "OK" else if code = 404 then str "Not Found" else []

def suffix2descTable : List (Bytes × Bytes) :=
  [(str ".html", str "text/html"), (str ".css", str "text/css"),
   (str ".js", str "application/x-javascript"), (str ".jpg", str "image/jpeg"),
   (str ".xml", str "application/xml")]

def suffix2Desc (suffix : Bytes) : Bytes :=
  (suffix2descTable.lookup suffix).getD (str "text/html")

def processNonCIG (w : World) (ep : EndPoint) : Int × EndPoint × List Sys :=
  let fd := w.openRdonly (cstr ep.request.path) w.openTarget
  (if fdInt fd ≥ 0 then OK else notFound,
    { ep with response := { ep.response with fd := fdInt fd } },
    [.openRdonly (cstr ep.request.path) fd])

/-- Lines 269 to 290: the code after `waitpid`, from the code before it. -/
def waitCode (code : Int) : WaitResult → Int
  | .failed => code
  | .exited status => if status = 0 then OK else badRequset
  | .signaled => serverError

/-- The parent's side, with the program the child executes in the log. -/
def processCIG (w : World) (ep : EndPoint) : Int × EndPoint × List Sys :=
  match w.cgi.input with
  | none => (serverError, ep, [.pipe none])
  | some (input0, input1) =>
    match w.cgi.output with
    | none => (serverError, ep, [.pipe (some (input0, input1)), .pipe none])
    | some (output0, output1) =>
      let pipes : List Sys := [.pipe (some (input0, input1)), .pipe (some (output0, output1))]
      if w.cgi.forked then
        (waitCode OK w.cgi.wait,
          { ep with response := { ep.response with
              respBody := ep.response.respBody ++ w.cgi.received } },
          pipes ++ [.fork true, .execl (cstr ep.request.path), .close output0, .close input1,
            .close input0, .close output1])
      else (404, ep, pipes ++ [.fork false])

/-- Lines 370 to 396. -/
def splitUri (r : HttpRequest) : HttpRequest :=
  if r.method = methodGet then
    match find r.uri (str "?") with
    | some _ =>
      let cut := cutString r.uri r.path r.queryString (str "?")
      { r with path := cut.2.1, queryString := cut.2.2, cgi := true }
    | none => { r with path := r.uri }
  else if r.method = methodPost then { r with cgi := true, path := r.uri }
  else r

/-- Lines 398 to 406. -/
def rootPath (r : HttpRequest) : HttpRequest :=
  let path := webRoot ++ r.path
  { r with path := if path.getLast? = some 47 then path ++ defautlPage else path }

/-- Lines 408 to 432. A second `stat` that fails leaves `st` as it was. -/
def lookUp (w : World) (r : HttpRequest) : Option HttpRequest × List Sys :=
  match w.stat (cstr r.path) with
  | none => (none, [.stat (cstr r.path)])
  | some st =>
    let page := r.path ++ str "/" ++ defautlPage
    let isDir := sIsDir st.stMode
    let st := if isDir then (w.stat (cstr page)).getD st else st
    (some { r with
      path := if isDir then page else r.path
      cgi := r.cgi || executable st.stMode
      size := signed 32 st.stSize },
      if isDir then [.stat (cstr r.path), .stat (cstr page)] else [.stat (cstr r.path)])

/-- `target.rfind(".")`, for any one byte. -/
def rfind (target : Bytes) (ch : Byte) : Option Nat :=
  (target.reverse.idxOf? ch).map fun i => target.length - 1 - i

/-- Lines 434 to 443. -/
def setSuffix (r : HttpRequest) : HttpRequest :=
  match rfind r.path 46 with
  | none => { r with suffix := str ".html" }
  | some found => { r with suffix := r.path.drop found }

def contentType : Bytes := str "Content-Type: "
def contentLengthIs : Bytes := str "Content-Length: "

def buildOkResponse (ep : EndPoint) : EndPoint :=
  let length := if ep.request.cgi then (ep.response.respBody.length : Int) else ep.request.size
  { ep with response := { ep.response with
      respHead := ep.response.respHead ++
        [contentType ++ suffix2Desc ep.request.suffix ++ lineEnd,
         contentLengthIs ++ toString length ++ lineEnd] } }

/-- A page that opened has a `stat`, so the default is never taken. -/
def handlerError (w : World) (page : Bytes) (ep : EndPoint) : EndPoint × List Sys :=
  let fd := w.openRdonly (cstr page) w.openPage
  let ep := { ep with
    request := { ep.request with cgi := false }
    response := { ep.response with fd := fdInt fd } }
  if ep.response.fd > 0 then
    let st := (w.stat (cstr page)).getD ⟨0, 0, Nat.two_pow_pos 63⟩
    ({ ep with
      request := { ep.request with size := signed 32 st.stSize }
      response := { ep.response with
        respHead := ep.response.respHead ++
          [contentType ++ str "text/html" ++ lineEnd,
           contentLengthIs ++ toString st.stSize ++ lineEnd] } },
      [.openRdonly (cstr page) fd, .stat (cstr page)])
  else (ep, [.openRdonly (cstr page) fd])

def errorPage : Bytes := webRoot ++ str "/" ++ page404

def buildHttpResponseHelper (w : World) (ep : EndPoint) : EndPoint × List Sys :=
  let code := ep.response.statusCode
  let ep := { ep with response := { ep.response with
    statusLine := ep.response.statusLine ++ (httpVersion ++ str " " ++ toString code ++ str " " ++
      code2Desc code ++ lineEnd) } }
  if code = OK then (buildOkResponse ep, [])
  else if code = notFound then handlerError w errorPage ep
  else if code = serverError then handlerError w errorPage ep
  else if code = badRequset then handlerError w errorPage ep
  else (ep, [])

def EndPoint.withCode (ep : EndPoint) (code : Int) : EndPoint :=
  { ep with response := { ep.response with statusCode := code } }

def buildHttpResponse (w : World) (ep : EndPoint) : EndPoint × List Sys :=
  if ep.request.method ≠ methodPost ∧ ep.request.method ≠ methodGet then
    buildHttpResponseHelper w (ep.withCode badRequset)
  else
    let r := rootPath (splitUri ep.request)
    match lookUp w r with
    | (none, log) =>
      let (ep, log') := buildHttpResponseHelper w ({ ep with request := r }.withCode notFound)
      (ep, log ++ log')
    | (some r, log) =>
      let ep := { ep with request := setSuffix r }
      let (code, ep, served) := if ep.request.cgi then processCIG w ep else processNonCIG w ep
      let (ep, log') := buildHttpResponseHelper w (ep.withCode code)
      (ep, log ++ served ++ log')

end MinHttp
