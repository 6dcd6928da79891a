import MinHttp.ReadBack
import MinHttp.ReadInFull

/-! What follows a request on its connection. -/
namespace MinHttp

open Lib.Lines (next?_append block?_ne_nil block?_append GoesOn)

/-- What can be read off a stream is read off every stream that goes on from it. -/
theorem parse?_append {s : Bytes} {p : Parsed} (h : parse? s = some p) (more : Bytes) :
    ∃ rest, parse? (s ++ more) = some { p with rest := rest } ∧ GoesOn LF p.rest more rest := by
  cases hl : Lib.Lines.next? CR LF s with
  | none => simp [parse?, hl] at h
  | some c =>
    obtain ⟨line, tail⟩ := c
    cases hh : Lib.Lines.block? CR LF tail with
    | none => simp [parse?, hl, hh] at h
    | some d =>
      obtain ⟨head, unread⟩ := d
      obtain ⟨tail', hl', htail⟩ := next?_append CR_ne_LF hl more
      have htail' : tail' = tail ++ more := htail.of_ne_nil (block?_ne_nil hh)
      obtain ⟨unread', hh', hunread⟩ := block?_append CR_ne_LF hh more
      simp only [parse?, hl, hh, hl', htail', hh', Option.bind_eq_bind, Option.bind_some] at h ⊢
      cases hann : announced (upperMethod line) head with
      | none =>
        rw [hann] at h
        cases h
        exact ⟨unread', rfl, hunread⟩
      | some v =>
        rw [hann] at h
        by_cases hn : Lib.Numerals.unsigned 32 (atoi v) ≤ unread.length
        · simp only [if_pos hn] at h
          cases h
          obtain ⟨hn', htake, hdrop⟩ := hunread.split hn
          exact ⟨_, by rw [← htake]; exact if_pos hn', hdrop⟩
        · simp [hn] at h

/-- The receiver reads the same request, and nothing of what follows it. -/
theorem receiveAll_append {s : Bytes} (more : Bytes) (size : Int)
    (hgo : (receiveAll (.new (.new s fun _ => false) size)).stop = false) :
    let before := receiveAll (.new (.new s fun _ => false) size)
    let after := receiveAll (.new (.new (s ++ more) fun _ => false) size)
    after.stop = false ∧ after.request = before.request ∧
      GoesOn LF before.sock.incoming more after.sock.incoming := by
  have hbefore := receiveAll_sound (Sock.new_sound s) size
  have hafter := receiveAll_sound (Sock.new_sound (s ++ more)) size
  rw [show (Sock.new s fun _ => false).incoming = s from rfl] at hbefore
  rw [show (Sock.new (s ++ more) fun _ => false).incoming = s ++ more from rfl] at hafter
  cases hp : parse? s with
  | none =>
    rw [hp] at hbefore
    rw [hbefore] at hgo
    cases hgo
  | some p =>
    obtain ⟨rest, hmore, hrest⟩ := parse?_append hp more
    rw [hp] at hbefore
    rw [hmore] at hafter
    have hfits : p.Fits := by
      by_contra hnot
      rw [hbefore.2 hnot] at hgo
      cases hgo
    obtain ⟨-, hrequest, hincoming⟩ := hbefore.1 hfits
    obtain ⟨hstop, hrequest', hincoming'⟩ := hafter.1 hfits
    refine ⟨hstop, hrequest'.trans hrequest.symm, ?_⟩
    rw [hincoming, hincoming']
    exact hrest

def EndPoint.withSock (ep : EndPoint) (sock : Sock) : EndPoint := { ep with sock := sock }

theorem EndPoint.eq_withSock {ep ep' : EndPoint} (hrequest : ep'.request = ep.request)
    (hresponse : ep'.response = ep.response) (hstop : ep'.stop = ep.stop) :
    ep' = ep.withSock ep'.sock := by
  rw [EndPoint.withSock, ← hrequest, ← hresponse, ← hstop]

section
variable (w : World) (ep : EndPoint) (sock : Sock)

theorem handlerError_sock (page : Bytes) :
    handlerError w page (ep.withSock sock) =
      ((handlerError w page ep).1.withSock sock, (handlerError w page ep).2) := by
  unfold handlerError EndPoint.withSock
  dsimp only
  split <;> rfl

theorem buildHttpResponseHelper_sock :
    buildHttpResponseHelper w (ep.withSock sock) =
      ((buildHttpResponseHelper w ep).1.withSock sock, (buildHttpResponseHelper w ep).2) := by
  have hpage := handlerError_sock w ep.addStatusLine sock errorPage
  unfold buildHttpResponseHelper
  dsimp only [EndPoint.withSock]
  split_ifs
  · rfl
  · exact hpage
  · exact hpage
  · exact hpage
  · rfl

theorem processCIG_sock :
    processCIG w (ep.withSock sock) =
      ((processCIG w ep).1, (processCIG w ep).2.1.withSock sock, (processCIG w ep).2.2) := by
  unfold processCIG
  cases w.cgi.input with
  | none => rfl
  | some input =>
    cases w.cgi.output with
    | none => rfl
    | some output => cases w.cgi.forked <;> rfl

theorem serve_sock :
    serve w (ep.withSock sock) =
      ((serve w ep).1, (serve w ep).2.1.withSock sock, (serve w ep).2.2) := by
  have hcgi : (ep.withSock sock).request.cgi = ep.request.cgi := rfl
  rw [serve, serve, hcgi]
  split
  · exact processCIG_sock w ep sock
  · rfl

theorem buildHttpResponse_sock :
    buildHttpResponse w (ep.withSock sock) =
      ((buildHttpResponse w ep).1.withSock sock, (buildHttpResponse w ep).2) := by
  have hrequest : (ep.withSock sock).request = ep.request := rfl
  by_cases hm : ep.request.method = methodGet ∨ ep.request.method = methodPost
  · cases hl : (lookUp w (rootPath (splitUri ep.request))).1 with
    | none =>
      have hpage := buildHttpResponseHelper_sock w
        ({ ep with request := rootPath (splitUri ep.request) }.withCode notFound) sock
      rw [buildHttpResponse_missing hm hl,
        buildHttpResponse_missing (hrequest ▸ hm) (hrequest ▸ hl)]
      exact congrArg (fun built => (built.1, _ ++ built.2)) hpage
    | some r =>
      have hserved := serve_sock w { ep with request := setSuffix r } sock
      have hended := buildHttpResponseHelper_sock w
        ((serve w { ep with request := setSuffix r }).2.1.withCode
          (serve w { ep with request := setSuffix r }).1) sock
      rw [buildHttpResponse_found hm hl, buildHttpResponse_found (hrequest ▸ hm) (hrequest ▸ hl)]
      dsimp only [EndPoint.withSock] at hserved hended ⊢
      rw [hserved]
      exact congrArg (fun built => (built.1, _ ++ built.2)) hended
  · rw [buildHttpResponse_reject w hm, buildHttpResponse_reject w (hrequest ▸ hm)]
    exact buildHttpResponseHelper_sock w (ep.withCode badRequset) sock

end

/-- What is sent does not depend on what is left on the socket. -/
theorem respond_sock (o : Sender) (content : Bytes → Bytes) (w : World) (ep : EndPoint)
    (sock : Sock) : respond o content w (ep.withSock sock) = respond o content w ep := by
  unfold respond
  rw [buildHttpResponse_sock]
  rfl

/-- **What follows a request does not change its answer**: the stream that is
accepted is sent the same bytes however it goes on, and what it goes on with is
left unread, but for the second half of a newline. So a request cut short is
answered as the whole one is or not at all. -/
theorem answered_append (flowsOff : EndPoint → Bool) (o : Sender) (content : Bytes → Bytes)
    (w : World) (s more : Bytes) (size : Int)
    (hflows : flowsOff (getRequestLine (.new (.new s fun _ => false) size)) = false)
    (hflows' : flowsOff (getRequestLine (.new (.new (s ++ more) fun _ => false) size)) = false)
    (hgo : (recvHttpRequest flowsOff (.new (.new s fun _ => false) size)).isStop = false) :
    answered flowsOff o content w (.new (s ++ more) fun _ => false) size =
        answered flowsOff o content w (.new s fun _ => false) size ∧
      GoesOn LF (recvHttpRequest flowsOff (.new (.new s fun _ => false) size)).sock.incoming more
        (recvHttpRequest flowsOff (.new (.new (s ++ more) fun _ => false) size)).sock.incoming := by
  obtain ⟨-, hread⟩ := recvHttpRequest_goesOn hflows hgo
  rw [hread] at hgo
  obtain ⟨hstop, hrequest, hunread⟩ := receiveAll_append more size hgo
  have hread' := recvHttpRequest_of_receiveAll hflows' hstop
  have hnew := (recvHttpRequest_frame flowsOff (.new (.new s fun _ => false) size)).1
  have hnew' := (recvHttpRequest_frame flowsOff (.new (.new (s ++ more) fun _ => false) size)).1
  rw [hread] at hnew
  rw [hread'] at hnew'
  have hsame := EndPoint.eq_withSock hrequest (hnew'.trans hnew.symm) (hstop.trans hgo.symm)
  rw [answered_eq, answered_eq, hread, hread']
  refine ⟨?_, hunread⟩
  rw [hsame, respond_sock]
  rfl

/-- The next request is sent along with a POST. -/
theorem answered_append_samplePost :
    let stream := samplePost.serialise []
    let sent (s : Bytes) := answered (fun _ => false) .all (fun _ => str "hello") indexSite
      (.new s fun _ => false) 0
    sent (stream ++ str "GET ") = sent stream := by
  intro stream sent
  obtain ⟨hstop, -, -⟩ := samplePost.received [] 0 (by decide) (by decide) samplePost_fits
  have hread : recvHttpRequest (fun _ => false) (.new (.new stream fun _ => false) 0) =
      receiveAll (.new (.new stream fun _ => false) 0) := recvHttpRequest_of_receiveAll rfl hstop
  exact (answered_append (fun _ => false) .all (fun _ => str "hello") indexSite stream
    (str "GET ") 0 rfl rfl ((congrArg EndPoint.isStop hread).trans hstop)).1

end MinHttp
