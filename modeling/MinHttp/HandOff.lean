import MinHttp.Query
import MinHttp.Resource
import MinHttp.RoundTrip

/-! What the server hands over is what `GetQueryString` returns, however the
bytes travel. -/
namespace MinHttp

open Lib.Runs
open Lib (Pipe)
open Lib.Numerals (signed)

def cgiSetup (r : HttpRequest) (cap : Nat) : CgiSetup := ⟨r.method, r.reqBody, r.contentLength, cap⟩

/-- What a program is to be told: the body of a POST, and of a GET what follows
the first `?`. -/
def argument (r : HttpRequest) : Bytes :=
  if r.method = methodPost then r.reqBody else (r.uri.dropWhile (· != 63)).tail

/-- What is known of a request by the time it reaches `ProcessCIG`. -/
structure Prepared (r : HttpRequest) : Prop where
  method : r.method = methodGet ∨ r.method = methodPost
  query : r.method = methodGet → r.queryString = (r.uri.dropWhile (· != 63)).tail
  bound : r.contentLength < 2 ^ 31

theorem cgiRequest_prepared {w : World} {flowsOff : EndPoint → Bool} {sock : Sock} {size : Int}
    {r : HttpRequest}
    (h : cgiRequest w (recvHttpRequest flowsOff (.new sock size)).request = some r) :
    Prepared r := by
  obtain ⟨hm, -⟩ := cgiRequest_eq_some h
  obtain ⟨hmethod, huri, -, hlength, hquery⟩ := cgiRequest_frame h
  obtain ⟨-, -, hfresh, hrecv⟩ := recvHttpRequest_frame flowsOff (.new sock size)
  refine ⟨by rwa [hmethod], fun hget => ?_, ?_⟩
  · rw [hquery, splitUri_get (hmethod ▸ hget), huri]
    by_cases hmark : 63 ∈ (recvHttpRequest flowsOff (.new sock size)).request.uri
    · rw [if_pos hmark]
    · rw [if_neg hmark, Lib.Cut.dropWhile_absent hmark]
      exact hfresh
  · rw [hlength]
    rcases hrecv with hold | ⟨value, hread⟩
    · rw [hold]
      exact (by decide : (0 : Int) < 2 ^ 31)
    · rw [hread]
      exact (atoi_bounds value).2

/-- The part of the body that has not gone into the pipe. -/
def unsent (body : Bytes) : Parent → Bytes
  | .calling => body
  | .writing total => body.drop total
  | .reading | .waiting | .returned _ => []

/-- What has been taken out of the pipe, what is in it and what is yet to come
make up the body. -/
structure OnItsWay (body : Bytes) (output : Pipe Byte) (parent : Parent) (taken : Bytes) :
    Prop where
  reader : output.reader = true
  writer : output.writer = true
  bytes : taken ++ (output.content ++ unsent body parent) = body

section
variable {κ : Type}

/-- A program before its call or in the loop will find the rest of the body; a
program that is back has had all of it. -/
def HandedTo (r : HttpRequest) (output : Pipe Byte) (parent : Parent) : Caller κ → Prop
  | .before _ _ => r.method = methodPost → OnItsWay r.reqBody output parent []
  | .loop contentLength _ q looked =>
    r.method = methodPost ∧ (∀ name ∈ looked, SetByServer r name) ∧
      (0 < contentLength ∧ q.length + contentLength = r.reqBody.length) ∧
      OnItsWay r.reqBody output parent q
  | .back result q looked _ =>
    result = true ∧ (∀ name ∈ looked, SetByServer r name) ∧ q = argument r
  | .crashed => False

def Handed (r : HttpRequest) (s : Exchange (Caller κ)) : Prop :=
  match s.child with
  | .unborn => s.parent = .calling
  | .running k => HandedTo r s.output s.parent k
  | .ended _ => True

structure HandingOver (r : HttpRequest) (s : Exchange (Caller κ)) : Prop where
  start : s.parent = .calling → s = .initial
  child : Handed r s

variable {r : HttpRequest} {cap : Nat}

/-- A parent that moves bytes on changes nothing for the child. -/
theorem Handed.parent {s t : Exchange (Caller κ)} (h : Handed r s) (hs : s.parent ≠ .calling)
    (hc : t.child = s.child)
    (hway : ∀ taken, OnItsWay r.reqBody s.output s.parent taken →
      OnItsWay r.reqBody t.output t.parent taken) : Handed r t := by
  unfold Handed at h ⊢
  rw [hc]
  cases hk : s.child with
  | unborn =>
    rw [hk] at h
    exact absurd h hs
  | running k =>
    rw [hk] at h
    cases k with
    | before => exact fun hm => hway _ (h hm)
    | loop =>
      obtain ⟨hm, hlooked, hleft, way⟩ := h
      exact ⟨hm, hlooked, hleft, hway _ way⟩
    | back => exact h
    | crashed => exact h
  | ended how => trivial

theorem OnItsWay.parent {body : Bytes} {output output' : Pipe Byte} {parent parent' : Parent}
    {taken : Bytes} (h : OnItsWay body output parent taken)
    (hreader : output'.reader = output.reader) (hwriter : output'.writer = output.writer)
    (hbytes : output'.content ++ unsent body parent' = output.content ++ unsent body parent) :
    OnItsWay body output' parent' taken :=
  ⟨hreader.trans h.reader, hwriter.trans h.writer, (congrArg (taken ++ ·) hbytes).trans h.bytes⟩

theorem parentStep_handingOver {P : Program (Caller κ)} {s t : Exchange (Caller κ)}
    (hstart : ∀ parent, unsent r.reqBody parent = r.reqBody ∨ r.method ≠ methodPost →
      HandedTo r .new parent P.start)
    (hbody : r.reqBody.length = r.contentLength) (h : ParentStep (cgiSetup r cap) P s t)
    (hs : HandingOver r s) : HandingOver r t := by
  obtain ⟨start, child⟩ := hs
  cases h with
  | fork pc =>
    obtain rfl := start pc
    refine ⟨fun hc => ?_, hstart _ ?_⟩
    · dsimp only at hc
      split at hc <;> cases hc
    · by_cases hm : r.method = methodPost
      · exact Or.inl (by rw [cgiSetup, if_pos hm]; rfl)
      · exact Or.inr hm
  | write total n pc more accepted =>
    refine ⟨fun hc => (by cases hc), child.parent (by simp [pc]) rfl fun taken way => ?_⟩
    refine way.parent rfl rfl ?_
    rw [pc, Pipe.put_content, List.append_assoc]
    congr 1
    rw [unsent, unsent, ← List.drop_drop]
    exact List.take_append_drop n _
  | writeNothing total pc more none =>
    have hlen : (total : Int) < r.contentLength := more
    have hnone : r.reqBody.length ≤ total := none
    omega
  | writeBroken total pc more some broken =>
    refine ⟨fun hc => (by cases hc), child.parent (by simp [pc]) rfl fun taken way => ?_⟩
    cases broken.symm.trans way.reader
  | written total pc done =>
    have hlen : r.contentLength ≤ (total : Int) := done
    refine ⟨fun hc => (by cases hc), child.parent (by simp [pc]) rfl fun taken way => ?_⟩
    refine way.parent rfl rfl ?_
    rw [pc, unsent, unsent, List.drop_eq_nil_iff.mpr (by omega)]
  | read ch rest pc there =>
    exact ⟨fun hc => (by cases pc.symm.trans hc), child.parent (by simp [pc]) rfl fun _ way => way⟩
  | eof pc ended =>
    refine ⟨fun hc => (by cases hc), child.parent (by simp [pc]) rfl fun taken way => ?_⟩
    refine way.parent rfl rfl ?_
    rw [pc, unsent, unsent]
  | wait how pc ended =>
    refine ⟨fun hc => (by cases hc), ?_⟩
    simp only [Handed, Exchange.parentReturns, ended]

variable {m : CgiMain κ} {output : Pipe Byte} {parent : Parent}

/-- At the test of the loop nothing is left to read or nothing has been lost. -/
theorem whileContentLength_handedTo {contentLength : Int} (c : Byte) {q : Bytes}
    {looked : List Bytes} (hm : r.method = methodPost)
    (hlooked : ∀ name ∈ looked, SetByServer r name)
    (hpos : 0 ≤ contentLength) (hlen : q.length + contentLength = r.reqBody.length)
    (way : OnItsWay r.reqBody output parent q) :
    HandedTo r output parent (whileContentLength m contentLength c q looked) := by
  unfold whileContentLength
  split
  case isTrue hzero =>
    have hq : q = r.reqBody :=
      List.IsPrefix.eq_of_length ⟨_, way.bytes⟩ (by omega)
    refine ⟨rfl, hlooked, ?_⟩
    rw [argument, if_pos hm, hq]
  case isFalse hne => exact ⟨hm, hlooked, ⟨by omega, hlen⟩, way⟩

/-- The call, made with the whole body still to come. -/
theorem getQueryString_handedTo (inherited : Env) (hr : Prepared r) (hnul : NUL ∉ r.uri)
    (hbody : r.reqBody.length = r.contentLength)
    (hway : r.method = methodPost → OnItsWay r.reqBody output parent []) :
    HandedTo r output parent (getQueryString (childEnv inherited r) m) := by
  rcases hr.method with hm | hm
  · have hq : NUL ∉ r.queryString := by
      rw [hr.query hm]
      intro hmem
      exact hnul ((List.dropWhile_sublist _).subset (List.mem_of_mem_tail hmem))
    rw [getQueryString_get inherited m hm hq]
    refine ⟨rfl, setByServer_get hm hq, ?_⟩
    rw [argument, if_neg (by rw [hm]; decide), hr.query hm]
  · have hbound := hr.bound
    rw [getQueryString_post inherited m hm hbody.symm (by omega)]
    apply whileContentLength_handedTo
    · exact hm
    · exact setByServer_post hm hbody.symm
    · exact Int.natCast_nonneg _
    · simp
    · exact hway hm

theorem comesTo_handedTo (inherited : Env) (hr : Prepared r) (hnul : NUL ∉ r.uri)
    (hbody : r.reqBody.length = r.contentLength)
    (hway : r.method = methodPost → OnItsWay r.reqBody output parent []) (k : κ) :
    HandedTo r output parent (comesTo (childEnv inherited r) m k) := by
  unfold comesTo
  split
  · exact hway
  · exact getQueryString_handedTo inherited hr hnul hbody hway

/-- A read of one byte, in the middle of the body. -/
theorem OnItsWay.read {body : Bytes} {taken : Bytes} (way : OnItsWay body output parent taken)
    {n : Nat} (yields : output.Yields n 1) (c : Byte) :
    OnItsWay body (output.drop n) parent (taken ++ [(output.content.take n).headD c]) := by
  obtain ⟨hpos, hle, hthere⟩ := yields
  obtain rfl : n = 1 := by omega
  refine ⟨way.reader, way.writer, ?_⟩
  cases hcontent : output.content with
  | nil => simp [hcontent] at hthere
  | cons b rest =>
    have hbytes := way.bytes
    rw [hcontent] at hbytes
    simpa [Pipe.drop_content, hcontent] using hbytes

/-- From the call on nothing but the bytes in the pipe decides what is returned. -/
theorem childStep_handed (inherited : Env) (hr : Prepared r) (hnul : NUL ∉ r.uri)
    (hbody : r.reqBody.length = r.contentLength) {s t : Exchange (Caller κ)}
    (h : ChildStep (cgiSetup r cap) (caller (childEnv inherited r) m) s t)
    (hs : Handed r s) : Handed r t := by
  obtain ⟨k, hk⟩ := childStep_running h
  have hparent := (childStep_parent h).1
  rw [Handed, hk] at hs
  cases k with
  | before bytes wrote =>
    obtain ⟨houtput, n, hc⟩ := childStep_write h hk rfl
    rw [Handed, hc]
    exact comesTo_handedTo inherited hr hnul hbody (by rwa [houtput, hparent]) _
  | loop contentLength c q looked =>
    obtain ⟨hm, hlooked, ⟨hpos, hlen⟩, way⟩ := hs
    obtain ⟨n, yields, houtput, hc⟩ :=
      childStep_read h hk rfl Nat.one_pos way.reader way.writer
    have hbound := hr.bound
    have hstep : signed 32 (contentLength - 1) = contentLength - 1 := by
      exact Lib.Numerals.signed32_of_mem (by omega) (by omega)
    rw [Handed, hc, houtput, hparent]
    apply whileContentLength_handedTo
    · exact hm
    · exact hlooked
    · omega
    · rw [hstep, List.length_append, List.length_singleton]
      omega
    · exact way.read yields c
  | back result q looked k =>
    have hback (k' : κ) : HandedTo r t.output t.parent (.back result q looked k') := hs
    rcases childStep_next h hk (Act.map_all hback (m.act k)) with ⟨k', hc, hk'⟩ | ⟨status, hc⟩
    · rwa [Handed, hc]
    · rw [Handed, hc]
      trivial
  | crashed => exact hs.elim

theorem exchangeStep_handingOver (inherited : Env) (hr : Prepared r) (hnul : NUL ∉ r.uri)
    (hbody : r.reqBody.length = r.contentLength) :
    Preserved (ExchangeStep (cgiSetup r cap) (caller (childEnv inherited r) m))
      (HandingOver r) := by
  intro s t h hs
  cases h with
  | parent step =>
    refine parentStep_handingOver (fun parent hway => ?_) hbody step hs
    refine comesTo_handedTo inherited hr hnul hbody (fun hm => ?_) _
    refine ⟨rfl, rfl, ?_⟩
    rw [hway.resolve_right fun hnot => hnot hm]
    rfl
  | child step =>
    refine ⟨fun hc => ?_, childStep_handed inherited hr hnul hbody step hs.child⟩
    obtain ⟨k, hk⟩ := childStep_running step
    rw [hs.start ((childStep_parent step).1.symm.trans hc)] at hk
    cases hk

/-- Whatever the server's own environment, however the body is split and
whichever side runs, a program that is back from `GetQueryString` got its
argument, and no variable it looked up was missing. -/
theorem reachable_getQueryString (w : World) (flowsOff : EndPoint → Bool) (sock : Sock) (size : Int)
    {r : HttpRequest}
    (hcgi : cgiRequest w (recvHttpRequest flowsOff (.new sock size)).request = some r)
    (hnul : NUL ∉ r.uri) (hbody : r.reqBody.length = r.contentLength) (inherited : Env) (cap : Nat)
    {s : Exchange (Caller κ)}
    (h : Reachable (ExchangeStep (cgiSetup r cap) (caller (childEnv inherited r) m)) .initial s) :
    (∀ result q looked k, s.child = .running (.back result q looked k) →
      result = true ∧ (∀ name ∈ looked, SetByServer r name) ∧ q = argument r) ∧
      s.child ≠ .running .crashed := by
  have hinv : HandingOver r s :=
    (exchangeStep_handingOver inherited (cgiRequest_prepared hcgi) hnul hbody).reachable h
      ⟨fun _ => rfl, rfl⟩
  have hchild := hinv.child
  refine ⟨fun result q looked k hk => ?_, fun hk => ?_⟩
  · rw [Handed, hk] at hchild
    exact hchild
  · rw [Handed, hk] at hchild
    exact hchild

end

/-! A POST of three bytes, a NUL among them, through a pipe of two bytes to a
program that answers with what it got. -/

def exeCgi : World := oneFile (str "./wwwroot/exe_cgi") ⟨0x81ED, 9, by decide⟩

def posted : HttpRequest :=
  { (samplePost.parsed []).request 0 with
    path := str "./wwwroot/exe_cgi"
    cgi := true
    size := 9
    suffix := str "./wwwroot/exe_cgi" }

def echo : CgiMain Bytes where
  start := []
  before _ := none
  after _ q := q
  act q := if q = [] then .exit 0 else .write q fun n => q.drop n

theorem posted_received :
    cgiRequest exeCgi (recvHttpRequest (fun _ => false)
      (.new (.new (samplePost.serialise []) fun _ => false) 0)).request = some posted := by
  obtain ⟨hstop, hrequest, -⟩ :=
    samplePost.received [] 0 (by decide) (by decide) samplePost_fits
  rw [recvHttpRequest_of_receiveAll rfl hstop, hrequest]
  decide

abbrev PostedStep : Exchange (Caller Bytes) → Exchange (Caller Bytes) → Prop :=
  ExchangeStep (cgiSetup posted 2) (caller (childEnv (fun _ => none) posted) echo)

/-- The body goes out in two writes, the second one between two reads. -/
theorem posted_back :
    ∃ s, Reachable PostedStep .initial s ∧
      s.child = .running
        (.back true [0, 10, 13] [str "METHOD", str "CONTENT_LENGTH"] [0, 10, 13]) := by
  have hstart : (caller (childEnv (fun _ => none) posted) echo).start =
      .loop 3 0 [] [str "METHOD", str "CONTENT_LENGTH"] :=
    getQueryString_post (fun _ => none) echo rfl (show posted.contentLength = (3 : Nat) by decide)
      (by decide)
  have start : Reachable PostedStep .initial .initial := Reachable.start
  have forked := start.next (.parent (.fork _ rfl))
  rw [hstart] at forked
  have wrote := forked.next
    (.parent (.write _ 0 2 rfl (by decide) ⟨rfl, by decide, by decide, by decide⟩))
  have read := wrote.next (.child (.read _ _ 1 1 _ rfl rfl rfl ⟨by decide, by decide, by decide⟩))
  have wrote' := read.next
    (.parent (.write _ 2 1 rfl (by decide) ⟨rfl, by decide, by decide, by decide⟩))
  have read' := wrote'.next
    (.child (.read _ _ 1 1 _ rfl rfl rfl ⟨by decide, by decide, by decide⟩))
  have read'' := read'.next
    (.child (.read _ _ 1 1 _ rfl rfl rfl ⟨by decide, by decide, by decide⟩))
  exact ⟨_, read'', rfl⟩

theorem reachable_getQueryString_post :
    ∃ s, Reachable PostedStep .initial s ∧ ∃ q looked k,
      s.child = .running (.back true q looked k) ∧ q = [0, 10, 13] ∧ q = argument posted ∧
        ∀ name ∈ looked, SetByServer posted name := by
  obtain ⟨s, hrun, hback⟩ := posted_back
  obtain ⟨-, hlooked, hq⟩ :=
    (reachable_getQueryString exeCgi _ _ _ posted_received (by decide) (by decide) _ 2 hrun).1
      _ _ _ _ hback
  exact ⟨s, hrun, _, _, _, hback, rfl, hq, hlooked⟩

end MinHttp
