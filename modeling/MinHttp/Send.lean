import MinHttp.Response

/-! Protocol.hpp: `SendHttpResquese`, and `CallBack::HandlerRequest` around
the three phases of a request. -/
namespace MinHttp

open Lib.Numerals (unsigned)

/-- The results of the `send` and `sendfile` calls on the socket: call `i`,
asked for `n` bytes, accepts that many of them or fails with -1. -/
structure Sender where
  result : Nat → Nat → Int
  le_asked : ∀ i n, result i n ≤ n

section
variable {β : Type} (o : Sender)

/-- One call whose result is not looked at. -/
def sendPiece (i : Nat) (piece : List β) : List β :=
  piece.take (o.result i piece.length).toNat

/-- The loop over `Resp_head`, from call `i` on. -/
def sendHead (i : Nat) : List (List β) → List β
  | [] => []
  | iter :: head => sendPiece o i iter ++ sendHead (i + 1) head

/-- The loop over the body. `size` is assigned the truth value of
`send(...) > 0`, and that is what `total` grows by. -/
def sendBodyLoop (i : Nat) (body : List β) (total : Nat) : List β :=
  if total < body.length then
    let sent := o.result i (body.length - total)
    let size := if sent > 0 then 1 else 0
    if size = 1 then
      (body.drop total).take sent.toNat ++ sendBodyLoop (i + 1) body (total + 1)
    else []
  else []
termination_by body.length - total

/-- `sendfile` from a descriptor with the given file on it. The count is a
`size_t`; one that is no `ssize_t` is refused. -/
def sendfile (i : Nat) (file : Option (List β)) (size : Int) : List β :=
  match file with
  | none => []
  | some content =>
    if unsigned 64 size < 2 ^ 63 then
      content.take (o.result i (min (unsigned 64 size) content.length)).toNat
    else []

/-- The pieces of a response. `SendHttpResquese` never looks at a byte, so
the bytes may be of any type. -/
structure Reply (β : Type) where
  statusLine : List β
  respHead : List (List β)
  blank : List β
  cgi : Bool
  respBody : List β
  file : Option (List β)
  size : Int

/-- What `SendHttpResquese` puts on the socket. -/
def Reply.send (r : Reply β) : List β :=
  sendPiece o 0 r.statusLine ++ sendHead o 1 r.respHead ++
    sendPiece o (1 + r.respHead.length) r.blank ++
    if r.cgi then sendBodyLoop o (2 + r.respHead.length) r.respBody 0
    else sendfile o (2 + r.respHead.length) r.file r.size

end

/-- The response with the content of the file open on `response.fd`. -/
def EndPoint.reply (files : Int → Option Bytes) (ep : EndPoint) : Reply Byte where
  statusLine := ep.response.statusLine
  respHead := ep.response.respHead
  blank := ep.response.blank
  cgi := ep.request.cgi
  respBody := ep.response.respBody
  file := files ep.response.fd
  size := ep.request.size

def sendHttpResquese (o : Sender) (files : Int → Option Bytes) (ep : EndPoint) :
    Bytes × List Sys :=
  ((ep.reply files).send o, if ep.request.cgi then [] else [.close ep.response.fd])

structure Handled where
  ep : EndPoint
  sent : Bytes
  log : List Sys

def handlerRequest (flowsOff : EndPoint → Bool) (w : World) (o : Sender)
    (files : Int → Option Bytes) (sock : Sock) (size : Int) : Handled :=
  let ep := recvHttpRequest flowsOff (.new sock size)
  if ep.isStop then ⟨ep, [], [.closeSock]⟩
  else
    let (ep, log) := buildHttpResponse w ep
    let (sent, log') := sendHttpResquese o files ep
    ⟨ep, sent, log ++ log' ++ [.closeSock]⟩

end MinHttp
