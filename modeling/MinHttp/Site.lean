import MinHttp.ReadBack
import MinHttp.Serving

/-! The whole server as its clients see it: however many connections are
handled at once, each client reads the answer to its own request. -/
namespace MinHttp

open Lib.Runs
open Lib.Halting

/-- The request object for what a client has sent. -/
def Client.received (c : Client) : EndPoint := recvHttpRequest c.flowsOff (.new c.sock c.size)

/-- A client whose response finds the files as their `stat` says, and whose
socket takes the head and the first call for the body whole. -/
structure Client.Reads (c : Client) (content : Bytes → Bytes) : Prop where
  head : c.sender.TakesHead
  sized : c.world.Sized content
  files : c.files = openFiles content (buildHttpResponse c.world c.received).2
  fits : (outcome c.world c.received.request).Fits c.world
  opens : OpensFile c.world c.received.request (outcome c.world c.received.request)

/-- The answer that a client's request calls for; one given up has none. -/
def Client.answer (c : Client) (content : Bytes → Bytes) : Option Answer :=
  if c.received.isStop then none
  else some (answerOf c.sender content c.world c.received.request)

theorem Client.Reads.readAnswer {c : Client} {content : Bytes → Bytes} (h : c.Reads content) :
    readAnswer c.handled.sent = c.answer content := by
  obtain ⟨hnew, hcgi, -⟩ := recvHttpRequest_frame c.flowsOff (.new c.sock c.size)
  have hsent : c.handled.sent =
      if c.received.isStop then [] else respond c.sender content c.world c.received := by
    rw [Client.handled, h.files]
    exact answered_eq c.sender c.flowsOff content c.world c.sock c.size
  rw [hsent, Client.answer]
  split
  · rfl
  · exact respond_readAnswer c.sender h.head h.sized hnew hcgi h.fits h.opens

variable {ω : Type} [Fintype ω] [DecidableEq ω]

end MinHttp
