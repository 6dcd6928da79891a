import MinHttp.Message

/-! The five receiving functions read what `parse?` finds in the stream. -/
namespace MinHttp

open Lib.Lines (next? block? Plain)
open Lib.Numerals (signed unsigned)

/-- The five functions one after another, whatever the first two report. -/
def receiveAll (ep : EndPoint) : EndPoint :=
  recvHttpRequestBody (parseHttpRequestHead (parseHttpRequestLine
    (getRequestHead (getRequestLine ep))))

theorem recvHttpRequestBody_announced (ep : EndPoint) {v : Bytes}
    (hm : ep.request.method = methodPost)
    (hv : ep.request.headKv.lookup contentLengthKey = some v) :
    recvHttpRequestBody ep =
      { ep with
        sock := (bodyLoop ep.sock (atoi v) ep.request.reqBody).sock
        request := { ep.request with
          contentLength := atoi v
          reqBody := (bodyLoop ep.sock (atoi v) ep.request.reqBody).body }
        stop := ep.stop || (bodyLoop ep.sock (atoi v) ep.request.reqBody).stop } := by
  simp [recvHttpRequestBody, isNeedRecvHttpRequestBody, hm, hv]

theorem recvHttpRequestBody_none (ep : EndPoint)
    (h : ep.request.method = methodPost → ep.request.headKv.lookup contentLengthKey = none) :
    recvHttpRequestBody ep = ep := by
  by_cases hm : ep.request.method = methodPost
  · simp [recvHttpRequestBody, isNeedRecvHttpRequestBody, hm, h hm]
  · simp [recvHttpRequestBody, isNeedRecvHttpRequestBody, hm]

theorem recvHttpRequestBody_cases (ep : EndPoint) :
    recvHttpRequestBody ep = ep ∨ ∃ v, recvHttpRequestBody ep =
      { ep with
        sock := (bodyLoop ep.sock (atoi v) ep.request.reqBody).sock
        request := { ep.request with
          contentLength := atoi v
          reqBody := (bodyLoop ep.sock (atoi v) ep.request.reqBody).body }
        stop := ep.stop || (bodyLoop ep.sock (atoi v) ep.request.reqBody).stop } := by
  cases hv : ep.request.headKv.lookup contentLengthKey with
  | none => exact Or.inl (recvHttpRequestBody_none ep fun _ => hv)
  | some v =>
    by_cases hm : ep.request.method = methodPost
    · exact Or.inr ⟨v, recvHttpRequestBody_announced ep hm hv⟩
    · exact Or.inl (recvHttpRequestBody_none ep fun h => absurd h hm)

theorem recvHttpRequestBody_frame (ep : EndPoint) :
    recvHttpRequestBody ep =
      { ep with
        sock := (recvHttpRequestBody ep).sock
        request := { ep.request with
          contentLength := (recvHttpRequestBody ep).request.contentLength
          reqBody := (recvHttpRequestBody ep).request.reqBody }
        stop := (recvHttpRequestBody ep).stop } := by
  rcases recvHttpRequestBody_cases ep with h | ⟨v, h⟩ <;> rw [h]

theorem recvHttpRequestBody_contentLength (ep : EndPoint) :
    (recvHttpRequestBody ep).request.contentLength = ep.request.contentLength ∨
      ∃ value, (recvHttpRequestBody ep).request.contentLength = atoi value := by
  rcases recvHttpRequestBody_cases ep with h | ⟨v, h⟩ <;> rw [h]
  · exact Or.inl rfl
  · exact Or.inr ⟨v, rfl⟩

/-- No later stage clears `stop`. -/
theorem recvHttpRequestBody_stop {ep : EndPoint} (hstop : ep.stop = true) :
    (recvHttpRequestBody ep).stop = true := by
  rcases recvHttpRequestBody_cases ep with h | ⟨v, h⟩ <;> rw [h]
  · exact hstop
  · simp only [hstop, Bool.true_or]

theorem receiveAll_stop {ep : EndPoint} (h : (getRequestHead (getRequestLine ep)).stop = true) :
    (receiveAll ep).stop = true :=
  recvHttpRequestBody_stop h

/-- Behind a head read without `stop` all five functions run, when the value
seen after the request line is false. -/
theorem recvHttpRequest_eq_receiveAll {flowsOff : EndPoint → Bool} {ep : EndPoint}
    (h : flowsOff (getRequestLine ep) = false)
    (hgo : (getRequestHead (getRequestLine ep)).stop = false) :
    recvHttpRequest flowsOff ep = receiveAll ep := by
  simp only [recvHttpRequest, h, hgo, Bool.false_eq_true, if_false]
  rfl

/-- What was read without `stop` is what `RecvHttpRequest` reads when the value
it sees after the request line is false. -/
theorem recvHttpRequest_of_receiveAll {flowsOff : EndPoint → Bool} {ep : EndPoint}
    (h : flowsOff (getRequestLine ep) = false) (hstop : (receiveAll ep).stop = false) :
    recvHttpRequest flowsOff ep = receiveAll ep := by
  apply recvHttpRequest_eq_receiveAll h
  by_contra hs
  rw [receiveAll_stop (by simpa using hs)] at hstop
  cases hstop

theorem nil_ne_newline : ([] : Bytes) ≠ [LF] := by decide

/-- The fields that reading and parsing the head leave alone. -/
theorem getRequestHead_frame (ep : EndPoint) :
    (getRequestHead ep).response = ep.response ∧ (getRequestHead ep).request.cgi = ep.request.cgi ∧
      (getRequestHead ep).request.queryString = ep.request.queryString ∧
      (getRequestHead ep).request.contentLength = ep.request.contentLength := by
  have hframe := (requestHeadLoop_frame ep nil_ne_newline).1
  rw [getRequestHead, hframe]
  exact ⟨rfl, rfl, rfl, rfl⟩

/-- What receiving leaves as it was made, and where a length comes from. -/
theorem recvHttpRequest_frame (flowsOff : EndPoint → Bool) (ep : EndPoint) :
    (recvHttpRequest flowsOff ep).response = ep.response ∧
      (recvHttpRequest flowsOff ep).request.cgi = ep.request.cgi ∧
      (recvHttpRequest flowsOff ep).request.queryString = ep.request.queryString ∧
      ((recvHttpRequest flowsOff ep).request.contentLength = ep.request.contentLength ∨
        ∃ value, (recvHttpRequest flowsOff ep).request.contentLength = atoi value) := by
  have hline : (getRequestLine ep).response = ep.response ∧
      (getRequestLine ep).request.cgi = ep.request.cgi ∧
      (getRequestLine ep).request.queryString = ep.request.queryString ∧
      (getRequestLine ep).request.contentLength = ep.request.contentLength := by
    rw [getRequestLine_eq]
    exact ⟨rfl, rfl, rfl, rfl⟩
  obtain ⟨hresponse, hcgi, hquery, hlength⟩ := getRequestHead_frame (getRequestLine ep)
  rw [hline.1] at hresponse
  rw [hline.2.1] at hcgi
  rw [hline.2.2.1] at hquery
  rw [hline.2.2.2] at hlength
  unfold recvHttpRequest
  dsimp only
  split
  · exact ⟨hline.1, hline.2.1, hline.2.2.1, Or.inl hline.2.2.2⟩
  · split
    · exact ⟨hresponse, hcgi, hquery, Or.inl hlength⟩
    · have hbody := recvHttpRequestBody_contentLength (parseHttpRequestHead
        (parseHttpRequestLine (getRequestHead (getRequestLine ep))))
      rw [show (parseHttpRequestHead (parseHttpRequestLine
        (getRequestHead (getRequestLine ep)))).request.contentLength = ep.request.contentLength
        from hlength] at hbody
      refine ⟨?_, ?_, ?_, hbody⟩
      · rw [recvHttpRequestBody_frame]
        exact hresponse
      · rw [recvHttpRequestBody_frame]
        exact hcgi
      · rw [recvHttpRequestBody_frame]
        exact hquery

/-- Behind a request line that fits, the head is read from what follows it. -/
theorem getRequestLine_new {sock : Sock} (hs : sock.Sound) (size : Int) {line rest : Bytes}
    (hl : next? CR LF sock.incoming = some (line, rest)) (hfit : Fits line) :
    ∃ s : Sock, s.Sound ∧ s.incoming = rest ∧ getRequestLine (.new sock size) =
      { EndPoint.new sock size with
        sock := s, request := { HttpRequest.new size with reqLine := line } } := by
  obtain ⟨heq, hrest⟩ := getRequestLine_sound (.new sock size) hs rfl hl hfit
  refine ⟨(readInLine sock []).sock, fun i => ?_, hrest, heq⟩
  exact (congrFun (readInLine_cases sock []).1 i).trans (hs i)

/-- The request line and the head as the stream has them. -/
theorem readHead_sound {sock : Sock} (hs : sock.Sound) (size : Int) {line rest tail : Bytes}
    {head : List Bytes} (hl : next? CR LF sock.incoming = some (line, rest))
    (hh : block? CR LF rest = some (head, tail)) :
    (Fits line ∧ (∀ t ∈ head, Fits t) →
      ∃ s : Sock, s.Sound ∧ s.incoming = tail ∧
        getRequestHead (getRequestLine (.new sock size)) =
          { EndPoint.new sock size with
            sock := s
            request := { HttpRequest.new size with
              reqLine := line, reqHead := head, blank := [LF] } }) ∧
    (¬ (Fits line ∧ ∀ t ∈ head, Fits t) →
      (getRequestHead (getRequestLine (.new sock size))).stop = true) := by
  by_cases hfit : Fits line
  · obtain ⟨s₁, hs₁, rfl, heq⟩ := getRequestLine_new hs size hl hfit
    rw [heq, getRequestHead]
    have h := @requestHeadLoop_sound []
      { EndPoint.new sock size with
        sock := s₁, request := { HttpRequest.new size with reqLine := line } }
      hs₁ nil_ne_newline
    rw [hh] at h
    obtain ⟨hframe, hfails, -, -, hblank⟩ := requestHeadLoop_frame
      { EndPoint.new sock size with
        sock := s₁, request := { HttpRequest.new size with reqLine := line } } nil_ne_newline
    refine ⟨fun ⟨_, hfits⟩ => ?_, fun hnot => ?_⟩
    · obtain ⟨hstop, hhead, htail⟩ := h.1 hfits
      refine ⟨_, fun i => ?_, htail, ?_⟩
      · rw [hfails]
        exact hs₁ i
      · rw [hframe, (hblank hstop).1, hhead, hstop]
        rfl
    · apply h.2
      by_contra hnone
      exact hnot ⟨hfit, fun t ht => by_contra fun hf => hnone ⟨t, ht, hf⟩⟩
  · refine ⟨fun h' => absurd h'.1 hfit, fun _ => ?_⟩
    apply (requestHeadLoop_frame _ nil_ne_newline).2.2.1
    apply getRequestLine_stop hs rfl
    intro text rest' hn
    rw [show (EndPoint.new sock size).sock = sock from rfl, hl] at hn
    cases hn
    exact hfit

theorem readHead_stop {sock : Sock} (hs : sock.Sound) (size : Int)
    (h : ∀ line rest, next? CR LF sock.incoming = some (line, rest) →
      block? CR LF rest = none) :
    (getRequestHead (getRequestLine (.new sock size))).stop = true := by
  by_cases hline : ∃ line rest, next? CR LF sock.incoming = some (line, rest) ∧ Fits line
  · obtain ⟨line, rest, hl, hfit⟩ := hline
    obtain ⟨s₁, hs₁, rfl, heq⟩ := getRequestLine_new hs size hl hfit
    rw [heq, getRequestHead]
    have hstep := @requestHeadLoop_sound []
      { EndPoint.new sock size with
        sock := s₁, request := { HttpRequest.new size with reqLine := line } }
      hs₁ nil_ne_newline
    rw [h line _ hl] at hstep
    exact hstep
  · apply (requestHeadLoop_frame _ nil_ne_newline).2.2.1
    apply getRequestLine_stop hs rfl
    intro line rest hl hfit
    exact hline ⟨line, rest, hl, hfit⟩

/-- The object with its head read and parsed, and its body not read. -/
def headRead (s : Sock) (size : Int) (line : Bytes) (head : List Bytes) : EndPoint :=
  { EndPoint.new s size with
    request := { Parsed.request ⟨line, head, [], []⟩ size with contentLength := 0 } }

theorem headRead_lookup (s : Sock) (size : Int) (line : Bytes) (head : List Bytes) (key : Bytes) :
    (headRead s size line head).request.headKv.lookup key = (headPairs head).lookup key := by
  simp [headRead, Parsed.request, lookup_headKv]

/-- A body is read when one is announced. -/
theorem recvHttpRequestBody_headRead (s : Sock) (size : Int) (line : Bytes) (head : List Bytes) :
    recvHttpRequestBody (headRead s size line head) =
      match announced (upperMethod line) head with
      | none => headRead s size line head
      | some v =>
        { EndPoint.new (bodyLoop s (atoi v) []).sock size with
          request := Parsed.request ⟨line, head, (bodyLoop s (atoi v) []).body, []⟩ size
          stop := (bodyLoop s (atoi v) []).stop } := by
  have hkv := headRead_lookup s size line head contentLengthKey
  cases hann : announced (upperMethod line) head with
  | none =>
    apply recvHttpRequestBody_none
    intro hm
    rw [show upperMethod line = methodPost from hm, announced, if_pos rfl] at hann
    exact hkv.trans hann
  | some v =>
    have hm : upperMethod line = methodPost := by
      by_contra hm
      simp [announced, hm] at hann
    have hv : (headPairs head).lookup contentLengthKey = some v := by
      simpa [announced, hm] using hann
    rw [recvHttpRequestBody_announced (headRead s size line head) hm (hkv.trans hv)]
    simp [headRead, Parsed.request, hann, HttpRequest.new, EndPoint.new]

/-- Behind a head whose lines fit only the body is left to be read. -/
theorem receiveAll_headRead {sock : Sock} (hs : sock.Sound) (size : Int) {line rest tail : Bytes}
    {head : List Bytes} (hl : next? CR LF sock.incoming = some (line, rest))
    (hh : block? CR LF rest = some (head, tail)) (hfit : Fits line ∧ ∀ t ∈ head, Fits t) :
    ∃ s : Sock, s.Sound ∧ s.incoming = tail ∧
      (getRequestHead (getRequestLine (.new sock size))).stop = false ∧
      receiveAll (.new sock size) = recvHttpRequestBody (headRead s size line head) := by
  obtain ⟨s, hs', htail, heq⟩ := (readHead_sound hs size hl hh).1 hfit
  refine ⟨s, hs', htail, ?_, ?_⟩
  · rw [heq]
    rfl
  · rw [receiveAll, heq, parseHttpRequestLine_fresh rfl rfl rfl]
    rfl

/-- The body as the stream has it. -/
theorem recvHttpRequestBody_sound {s : Sock} (hs : s.Sound) (size : Int) (line : Bytes)
    (head : List Bytes) {v : Bytes} (hann : announced (upperMethod line) head = some v) :
    let n := unsigned 32 (atoi v)
    let ep := recvHttpRequestBody (headRead s size line head)
    (n ≤ s.incoming.length →
      ep.stop = false ∧
        ep.request = Parsed.request ⟨line, head, s.incoming.take n, s.incoming.drop n⟩ size ∧
        ep.sock.incoming = s.incoming.drop n) ∧
    (s.incoming.length < n → ep.stop = true) := by
  have hbody := bodyLoop_sound hs (atoi_bounds v).1 (atoi_bounds v).2 []
  rw [recvHttpRequestBody_headRead, hann]
  refine ⟨fun hn => ?_, fun hn => ?_⟩
  · obtain ⟨hstop, hbd, hrest⟩ := hbody.1 hn
    refine ⟨hstop, ?_, hrest⟩
    dsimp only
    rw [hbd]
    rfl
  · exact hbody.2 hn

/-- On a socket whose calls succeed the receiver finds what `parse?` finds. -/
theorem receiveAll_sound {sock : Sock} (hs : sock.Sound) (size : Int) :
    match parse? sock.incoming with
    | some p =>
      (p.Fits →
        (receiveAll (.new sock size)).stop = false ∧
          (receiveAll (.new sock size)).request = p.request size ∧
          (receiveAll (.new sock size)).sock.incoming = p.rest) ∧
      (¬ p.Fits → (receiveAll (.new sock size)).stop = true)
    | none => (receiveAll (.new sock size)).stop = true := by
  cases hl : next? CR LF sock.incoming with
  | none =>
    simp only [parse?, hl]
    exact receiveAll_stop (readHead_stop hs size (by simp [hl]))
  | some c =>
    obtain ⟨line, rest⟩ := c
    cases hh : block? CR LF rest with
    | none =>
      simp only [parse?, hl, hh, Option.bind_eq_bind, Option.bind_some, Option.bind_none]
      exact receiveAll_stop (readHead_stop hs size (by simp [hl, hh]))
    | some d =>
      obtain ⟨head, tail⟩ := d
      simp only [parse?, hl, hh, Option.bind_eq_bind, Option.bind_some]
      by_cases hfit : Fits line ∧ ∀ t ∈ head, Fits t
      · obtain ⟨s, hs', rfl, -, hparsed⟩ := receiveAll_headRead hs size hl hh hfit
        rw [hparsed]
        cases hann : announced (upperMethod line) head with
        | none =>
          refine ⟨fun _ => ?_, fun hnot => absurd hfit hnot⟩
          rw [recvHttpRequestBody_headRead, hann]
          refine ⟨rfl, ?_, rfl⟩
          simp [headRead, Parsed.request, hann]
        | some v =>
          have hbody := recvHttpRequestBody_sound hs' size line head hann
          by_cases hn : unsigned 32 (atoi v) ≤ s.incoming.length
          · simp only [if_pos hn]
            exact ⟨fun _ => hbody.1 hn, fun hnot => absurd hfit hnot⟩
          · simp only [if_neg hn]
            exact hbody.2 (Nat.lt_of_not_le hn)
      · have hstop := receiveAll_stop ((readHead_sound hs size hl hh).2 hfit)
        cases announced (upperMethod line) head with
        | none => exact ⟨fun h' => absurd h' hfit, fun _ => hstop⟩
        | some v =>
          simp only
          split_ifs
          · exact ⟨fun h' => absurd h' hfit, fun _ => hstop⟩
          · exact hstop

end MinHttp
