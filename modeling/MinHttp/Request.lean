import MinHttp.Util

/-! Protocol.hpp: the request, the response, and `EndPoint` up to the end of
`RecvHttpRequest`. -/
namespace MinHttp

open Lib.Numerals (signed)

structure HttpRequest where
  reqLine : Bytes
  reqHead : List Bytes
  blank : Bytes
  reqBody : Bytes
  method : Bytes
  uri : Bytes
  version : Bytes
  contentLength : Int
  headKv : List (Bytes × Bytes)
  path : Bytes
  queryString : Bytes
  cgi : Bool
  size : Int
  suffix : Bytes
  deriving DecidableEq, Repr

/-- The constructor leaves `size` uninitialised, so it starts with any value. -/
def HttpRequest.new (size : Int) : HttpRequest where
  reqLine := []
  reqHead := []
  blank := []
  reqBody := []
  method := []
  uri := []
  version := []
  contentLength := 0
  headKv := []
  path := []
  queryString := []
  cgi := false
  size := size
  suffix := []

structure HttpResponse where
  statusLine : Bytes
  respHead : List Bytes
  blank : Bytes
  respBody : Bytes
  statusCode : Int
  fd : Int
  deriving DecidableEq, Repr

def HttpResponse.new : HttpResponse where
  statusLine := []
  respHead := []
  blank := lineEnd
  respBody := []
  statusCode := OK
  fd := -1

structure EndPoint where
  sock : Sock
  request : HttpRequest
  response : HttpResponse
  stop : Bool

def EndPoint.new (sock : Sock) (size : Int) : EndPoint :=
  ⟨sock, .new size, .new, false⟩

def EndPoint.isStop (ep : EndPoint) : Bool := ep.stop

def getRequestLine (ep : EndPoint) : EndPoint :=
  let r := readInLine ep.sock ep.request.reqLine
  if r.ret > 0 then
    { ep with sock := r.sock, request := { ep.request with reqLine := r.out.dropLast } }
  else
    { ep with sock := r.sock, request := { ep.request with reqLine := r.out }, stop := true }

/-- The loop of `GetRequestHead`, entered with what `line` holds. -/
def requestHeadLoop (line : Bytes) (ep : EndPoint) : EndPoint :=
  if line = [LF] then ep
  else if _h : (readInLine ep.sock []).ret ≤ 0 then
    { ep with sock := (readInLine ep.sock []).sock, stop := true }
  else
    let r := readInLine ep.sock []
    if r.out = [LF] then { ep with sock := r.sock, request := { ep.request with blank := r.out } }
    else
      requestHeadLoop r.out.dropLast
        { ep with
          sock := r.sock
          request := { ep.request with reqHead := ep.request.reqHead ++ [r.out.dropLast] } }
termination_by ep.sock.incoming.length
decreasing_by exact readInLine_progress (by omega)

def getRequestHead (ep : EndPoint) : EndPoint := requestHeadLoop [] ep

/-- `ss >> word`: the word keeps its value when the stream is used up. -/
def extract (ss word : Bytes) : Bytes × Bytes :=
  let ss := ss.dropWhile Lib.Numerals.isSpace
  let token := ss.takeWhile fun b => !Lib.Numerals.isSpace b
  if token = [] then (word, []) else (token, ss.dropWhile fun b => !Lib.Numerals.isSpace b)

def parseHttpRequestLine (ep : EndPoint) : EndPoint :=
  let (method, ss) := extract ep.request.reqLine ep.request.method
  let (uri, ss) := extract ss ep.request.uri
  let (version, _) := extract ss ep.request.version
  { ep with request := { ep.request with
      method := method.map toupper, uri := uri, version := version } }

/-- `unordered_map::insert`: a key already there keeps its value. -/
def insertKv (kv : List (Bytes × Bytes)) (key value : Bytes) : List (Bytes × Bytes) :=
  if (kv.lookup key).isSome then kv else kv ++ [(key, value)]

def parseHeadLine (kv : List (Bytes × Bytes)) (line : Bytes) : List (Bytes × Bytes) :=
  match cutString line [] [] sep with
  | (true, key, value) => insertKv kv key value
  | (false, _, _) => kv

def parseHttpRequestHead (ep : EndPoint) : EndPoint :=
  { ep with request := { ep.request with
      headKv := ep.request.reqHead.foldl parseHeadLine ep.request.headKv } }

def contentLengthKey : Bytes := str "Content-Length"

def isNeedRecvHttpRequestBody (ep : EndPoint) : Bool × EndPoint :=
  if ep.request.method = methodPost then
    match ep.request.headKv.lookup contentLengthKey with
    | some value =>
      (true, { ep with request := { ep.request with contentLength := atoi value } })
    | none => (false, ep)
  else (false, ep)

structure BodyRead where
  stop : Bool
  body : Bytes
  sock : Sock

/-- The loop of `RecvHttpRequestBody`; the counter is an `int` that wraps. -/
def bodyLoop (sock : Sock) (contentLength : Int) (body : Bytes) : BodyRead :=
  if contentLength = 0 then ⟨false, body, sock⟩
  else match _h : recv sock with
    | (.byte ch, s) => bodyLoop s (signed 32 (contentLength - 1)) (body ++ [ch])
    | (.closed, s) => ⟨true, body, s⟩
    | (.failed, s) => ⟨true, body, s⟩
termination_by sock.incoming.length
decreasing_by exact recv_byte_length _h

def recvHttpRequestBody (ep : EndPoint) : EndPoint :=
  match isNeedRecvHttpRequestBody ep with
  | (true, ep) =>
    let r := bodyLoop ep.sock ep.request.contentLength ep.request.reqBody
    { ep with
      sock := r.sock
      request := { ep.request with reqBody := r.body }
      stop := ep.stop || r.stop }
  | (false, ep) => ep

/-- `GetRequestLine` ends without a `return`, so what its caller sees is not
the function's to say: `flowsOff` gives it, for the object as the function
leaves it. `GetRequestHead` returns `stop`. -/
def recvHttpRequest (flowsOff : EndPoint → Bool) (ep : EndPoint) : EndPoint :=
  let ep := getRequestLine ep
  if flowsOff ep then ep
  else
    let ep := getRequestHead ep
    if ep.stop then ep
    else recvHttpRequestBody (parseHttpRequestHead (parseHttpRequestLine ep))

end MinHttp
